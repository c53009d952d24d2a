import Muqiu.Lib.Runs
import Muqiu.Lib.OneShot
import Muqiu.Lib.Window
import Muqiu.Lib.SortedSet
import Muqiu.Lib.OrderedMap
import Muqiu.Lib.Fallible
import Muqiu.Lib.Pieces
import Muqiu.Lib.Words
import Muqiu.Lib.TicketQueue
import Muqiu.Lib.Json
import Muqiu.Lib.JsonReader
import Muqiu.Lib.Delimited
import Muqiu.Lib.KeyedMap
import Muqiu.ByteArray.Model
import Muqiu.ByteArray.Flat
import Muqiu.ByteArray.Invariant
import Muqiu.ByteArray.Refinement
import Muqiu.ByteArray.Sequential
import Muqiu.ByteArray.Buffers
import Muqiu.ByteArray.Codec
import Muqiu.ByteArray.Numbers
import Muqiu.ByteArray.Strings
import Muqiu.IoManager.Model
import Muqiu.IoManager.Table
import Muqiu.IoManager.Steps
import Muqiu.IoManager.Pending
import Muqiu.IoManager.Stale
import Muqiu.IoManager.Continuations
import Muqiu.IoManager.Growth
import Muqiu.IoManager.Interest
import Muqiu.Timer.Model
import Muqiu.Timer.Order
import Muqiu.Timer.NextTimer
import Muqiu.Timer.Effects
import Muqiu.Timer.Delivery
import Muqiu.Timer.Wakeup
import Muqiu.Scheduler.Model
import Muqiu.Scheduler.Queue
import Muqiu.Scheduler.Holders
import Muqiu.Scheduler.Exclusion
import Muqiu.Scheduler.StopDecision
import Muqiu.Fiber.Current
import Muqiu.IoManager.Stopping
import Muqiu.Hook.FdManager
import Muqiu.Hook.Model
import Muqiu.Hook.ClosedDescriptor
import Muqiu.Hook.NonblockViews
import Muqiu.Hook.CloseInterest
import Muqiu.Hook.Timed
import Muqiu.Hook.Timeout
import Muqiu.Net.Socket
import Muqiu.Net.Stream
import Muqiu.Http.Message
import Muqiu.Http.HeaderOrder
import Muqiu.Http.Decimal
import Muqiu.Http.Parser
import Muqiu.Http.HeaderBlock
import Muqiu.Http.Session
import Muqiu.Http.Body
import Muqiu.Http.Request
import Muqiu.Http.BodyLength
import Muqiu.Http.Segmentation
import Muqiu.Http.KeepAlive
import Muqiu.Config.Model
import Muqiu.Config.RoundTrip
import Muqiu.Config.Members
import Muqiu.Config.Values
import Muqiu.Config.Load
import Muqiu.Log.Define
import Muqiu.Log.Changes
import Muqiu.Log.DefineRoundTrip
import Muqiu.Log.Formatter
import Muqiu.Log.Model
import Muqiu.Log.Effects
import Muqiu.Log.Registry
import Muqiu.Log.Configure
import Muqiu.Log.Locks
import Muqiu.Log.Reload
import Muqiu.IoManager.Idle
import Muqiu.Hook.Sleep
import Muqiu.Hook.Connect
import Muqiu.Hook.FdGet
import Muqiu.Net.RawStream
import Muqiu.Http.ShortBody
import Muqiu.Util.Url
import Muqiu.Http.Form
import Muqiu.Http.Response
import Muqiu.Http.Framing
import Muqiu.Config.Registry
import Muqiu.Log.Ownership
import Muqiu.Lib.Attempt
import Muqiu.ByteArray.Atomic
import Muqiu.ByteArray.Positional
import Muqiu.ByteArray.ScatterGather
import Muqiu.ByteArray.File
import Muqiu.ByteArray.Prefixes
import Muqiu.Http.Methods
import Muqiu.Util.UrlBuffer
import Muqiu.Http.Params
import Muqiu.Http.ResponseParser
import Muqiu.Http.ResponseExecute
import Muqiu.Log.Pattern
import Muqiu.Log.Render
import Muqiu.Log.Malformed
import Muqiu.Lib.Registrations
import Muqiu.Http.Servlet
import Muqiu.Lib.HexGroups
import Muqiu.Net.Address
import Muqiu.Net.AddressText
import Muqiu.Net.Subnet
import Muqiu.Net.Resolve
import Muqiu.Timer.Handles
import Muqiu.Config.Listeners
import Muqiu.Lib.Marked
import Muqiu.ByteArray.Varint
import Muqiu.ByteArray.Zigzag
import Muqiu.Util.Trim
import Muqiu.Timer.Membership
import Muqiu.Hook.SocketTimeout
import Muqiu.ByteArray.Representation
import Muqiu.Hook.DescriptorTables
import Muqiu.Lib.Transducer
import Muqiu.Wire.RequestTable
import Muqiu.Wire.RequestSafety
import Muqiu.Wire.RequestRun
import Muqiu.Wire.RequestText
import Muqiu.Wire.RequestGrammar
import Muqiu.Wire.RequestPlain
import Muqiu.Wire.RequestDump
