import Muqiu.ByteArray.Codec
import Muqiu.Lib.HexGroups
import Muqiu.Lib.Json

/-!
# Addresses

The socket addresses of the two internet families and their arithmetic.  The fields of a
`sockaddr` are in network byte order, so a port and an IPv4 address are turned around on the way
in and out.  An IPv6 address is an array of 16 bytes.

`CreateMask` computes in `int`.  `none` is undefined behaviour there, and an index outside the
array in the functions on IPv6 addresses.
-/

namespace Muqiu

open Json (Text ascii natDigits)

/-- `AF_INET` -/
def AF_INET : UInt16 := 2

/-- `AF_INET6` -/
def AF_INET6 : UInt16 := 10

/-- `byteswapOnLittleEndian` on a value of `k` bytes. -/
def byteswapOnLittleEndian (k value : Nat) : Nat :=
  if SYLAR_BYTE_ORDER = .little then byteswap k value else value

/-- `byteswapOnLittleEndian` of two bytes. -/
def byteswap16 (v : UInt16) : UInt16 := UInt16.ofNat (byteswapOnLittleEndian 2 v.toNat)

/-- `byteswapOnLittleEndian` of four bytes. -/
def byteswap32 (v : UInt32) : UInt32 := UInt32.ofNat (byteswapOnLittleEndian 4 v.toNat)

theorem byteswap16_toNat (v : UInt16) : (byteswap16 v).toNat = Words.swap 2 v.toNat := by
  have hlt : Words.swap 2 v.toNat < 65536 := by
    have := Words.toNat_lt (Words.ofNat 2 v.toNat).reverse
    rwa [List.length_reverse, Words.length_ofNat] at this
  exact UInt16.toNat_ofNat_of_lt' hlt

theorem byteswap16_byteswap16 (v : UInt16) : byteswap16 (byteswap16 v) = v := by
  rw [← UInt16.toNat_inj, byteswap16_toNat, byteswap16_toNat, Words.swap_swap v.toNat_lt]

/-- A `sockaddr_in`. -/
structure SockaddrIn where
  sin_family : UInt16
  sin_port : UInt16
  s_addr : UInt32
deriving DecidableEq, Repr

/-- A `sockaddr_in6`. -/
structure SockaddrIn6 where
  sin6_family : UInt16
  sin6_port : UInt16
  sin6_flowinfo : UInt32
  s6_addr : Vector UInt8 16
  sin6_scope_id : UInt32
deriving DecidableEq

/-! ## Masks -/

/-- `CreateMask` for a type of `size` bytes. -/
def CreateMask (size bits : Nat) : Option Nat :=
  let shift := (size * 8 + 2 ^ 64 - bits) % 2 ^ 64
  if 32 ≤ shift then none
  else
    let mask := Int.bmod (2 ^ shift) (2 ^ 32) - 1
    if mask < -2 ^ 31 then none else some (mask % 2 ^ (8 * size)).toNat

/-- `CountBytes` of a `uint32_t`, with a bound on its rounds; `none` when it goes on. -/
def CountBytes : Nat → UInt32 → Option Nat
  | 0, _ => none
  | fuel + 1, value =>
      if value = 0 then some 0 else (CountBytes fuel (value &&& value - 1)).map (· + 1)

/-! ## IPv4 -/

/-- `IPv4Address` -/
structure IPv4Address where
  m_addr : SockaddrIn
deriving DecidableEq, Repr

namespace IPv4Address

/-- `IPv4Address(uint32_t, uint16_t)` -/
def new (address : UInt32) (port : UInt16) : IPv4Address :=
  ⟨{ sin_family := AF_INET, sin_port := byteswap16 port, s_addr := byteswap32 address }⟩

/-- What `insert` writes. -/
def insert (a : IPv4Address) : Text :=
  let addr := byteswap32 a.m_addr.s_addr
  natDigits (addr >>> 24 &&& 0xff).toNat ++ ascii "." ++
    natDigits (addr >>> 16 &&& 0xff).toNat ++ ascii "." ++
    natDigits (addr >>> 8 &&& 0xff).toNat ++ ascii "." ++ natDigits (addr &&& 0xff).toNat ++
    ascii ":" ++ natDigits (byteswap16 a.m_addr.sin_port).toNat

/-- `broadcastAddress`; the inner `none` is the null pointer. -/
def broadcastAddress (a : IPv4Address) (prefix_len : Nat) : Option (Option IPv4Address) :=
  if prefix_len > 32 then some none
  else
    (CreateMask 4 prefix_len).map fun mask =>
      some ⟨{ a.m_addr with s_addr := a.m_addr.s_addr ||| byteswap32 (UInt32.ofNat mask) }⟩

/-- `networkAddress`: no address for a prefix above 32, and `none` where the mask is undefined. -/
def networkAddress (a : IPv4Address) (prefix_len : Nat) : Option (Option IPv4Address) :=
  if prefix_len > 32 then some none
  else
    (CreateMask 4 prefix_len).map fun mask =>
      some ⟨{ a.m_addr with s_addr := a.m_addr.s_addr &&& byteswap32 (UInt32.ofNat mask) }⟩

/-- `subnetMask`; `none` where the mask is undefined. -/
def subnetMask (prefix_len : Nat) : Option IPv4Address :=
  (CreateMask 4 prefix_len).map fun mask =>
    ⟨{ sin_family := AF_INET, sin_port := 0, s_addr := ~~~byteswap32 (UInt32.ofNat mask) }⟩

/-- The port, in the byte order of the machine. -/
def getPort (a : IPv4Address) : UInt16 := byteswap16 a.m_addr.sin_port

/-- Another port. -/
def setPort (a : IPv4Address) (v : UInt16) : IPv4Address :=
  ⟨{ a.m_addr with sin_port := byteswap16 v }⟩

/-- `IPv4Address::Create`, with `inet_pton` for `AF_INET`. -/
def Create (inet_pton : Text → Option UInt32) (address : Text) (port : UInt16) :
    Option IPv4Address :=
  let rt := new 0 0
  let rt : IPv4Address := ⟨{ rt.m_addr with sin_port := byteswap16 port }⟩
  (inet_pton address).map fun s_addr => ⟨{ rt.m_addr with s_addr := s_addr }⟩

end IPv4Address

/-! ## IPv6 -/

/-- `IPv6Address` -/
structure IPv6Address where
  m_addr : SockaddrIn6
deriving DecidableEq

/-- The bytes of an IPv6 address. -/
abbrev In6Addr := Vector UInt8 16

/-- An access of `s6_addr` that changes a byte. -/
def setByte (i : Nat) (f : UInt8 → UInt8) (s6_addr : In6Addr) : Option In6Addr :=
  if h : i < 16 then some (s6_addr.set i (f s6_addr[i])) else none

/-- The loop that sets the bytes from `i` on, with `n` of them to go. -/
def fill (x : UInt8) : Nat → Nat → In6Addr → Option In6Addr
  | _, 0, s6_addr => some s6_addr
  | i, n + 1, s6_addr => (setByte i (fun _ => x) s6_addr).bind (fill x (i + 1) n)

namespace IPv6Address

/-- `IPv6Address()` -/
def new : IPv6Address :=
  ⟨{ sin6_family := AF_INET6, sin6_port := 0, sin6_flowinfo := 0
     s6_addr := Vector.replicate 16 0, sin6_scope_id := 0 }⟩

/-- `broadcastAddress`; `none` where a byte behind the address is written. -/
def broadcastAddress (a : IPv6Address) (prefix_len : Nat) : Option IPv6Address :=
  (CreateMask 1 (prefix_len % 8)).bind fun mask =>
    (setByte (prefix_len / 8) (· ||| UInt8.ofNat mask) a.m_addr.s6_addr).bind fun s =>
      (fill 0xff (prefix_len / 8 + 1) (16 - (prefix_len / 8 + 1)) s).map fun s =>
        ⟨{ a.m_addr with s6_addr := s }⟩

/-- `networkAddress`; `none` where a byte behind the address is written. -/
def networkAddress (a : IPv6Address) (prefix_len : Nat) : Option IPv6Address :=
  (CreateMask 1 (prefix_len % 8)).bind fun mask =>
    (setByte (prefix_len / 8) (· &&& UInt8.ofNat mask) a.m_addr.s6_addr).bind fun s =>
      (fill 0x00 (prefix_len / 8 + 1) (16 - (prefix_len / 8 + 1)) s).map fun s =>
        ⟨{ a.m_addr with s6_addr := s }⟩

/-- `subnetMask`; `none` where a byte behind the address is written. -/
def subnetMask (prefix_len : Nat) : Option IPv6Address :=
  let subnet := new.m_addr
  (CreateMask 1 (prefix_len % 8)).bind fun mask =>
    (setByte (prefix_len / 8) (fun _ => ~~~UInt8.ofNat mask) subnet.s6_addr).bind fun s =>
      (fill 0xff 0 (prefix_len / 8) s).map fun s => ⟨{ subnet with s6_addr := s }⟩

/-- The port, in the byte order of the machine. -/
def getPort (a : IPv6Address) : UInt16 := byteswap16 a.m_addr.sin6_port

/-- Another port. -/
def setPort (a : IPv6Address) (v : UInt16) : IPv6Address :=
  ⟨{ a.m_addr with sin6_port := byteswap16 v }⟩

/-- `((uint16_t *)s6_addr)[i]` -/
def word (a : IPv6Address) (i : Nat) : UInt16 :=
  UInt16.ofNat (Words.toNat ((a.m_addr.s6_addr.toList.drop (2 * i)).take 2))

/-- A round of the loop of `insert`, with what is written and `used_zeros`. -/
def insertGroup (a : IPv6Address) (s : Text × Bool) (i : Nat) : Text × Bool :=
  if a.word i = 0 && !s.2 then s
  else
    let s := if i ≠ 0 && a.word (i - 1) = 0 && !s.2 then (s.1 ++ ascii ":", true) else s
    let os := if i ≠ 0 then s.1 ++ ascii ":" else s.1
    (os ++ HexGroups.hexText 8 (byteswap16 (a.word i)).toNat, s.2)

/-- What `insert` writes. -/
def insert (a : IPv6Address) : Text :=
  let s := (List.range 8).foldl a.insertGroup (ascii "[", false)
  let os := if !s.2 && a.word 7 = 0 then s.1 ++ ascii "::" else s.1
  os ++ ascii "]:" ++ natDigits (byteswap16 a.m_addr.sin6_port).toNat

/-- `IPv6Address::Create`, with `inet_pton` for `AF_INET6`. -/
def Create (inet_pton : Text → Option In6Addr) (address : Text) (port : UInt16) :
    Option IPv6Address :=
  let rt : IPv6Address := ⟨{ new.m_addr with sin6_port := byteswap16 port }⟩
  (inet_pton address).map fun s => ⟨{ rt.m_addr with s6_addr := s }⟩

end IPv6Address

/-! ## Any family -/

/-- An `IPAddress`. -/
inductive IPAddress where
  | ipv4 (a : IPv4Address)
  | ipv6 (a : IPv6Address)
deriving DecidableEq

namespace IPAddress

/-- The port of either. -/
def getPort : IPAddress → UInt16
  | ipv4 a => a.getPort
  | ipv6 a => a.getPort

/-- Another port for either. -/
def setPort : IPAddress → UInt16 → IPAddress
  | ipv4 a, v => ipv4 (a.setPort v)
  | ipv6 a, v => ipv6 (a.setPort v)

/-- `toString` -/
def toText : IPAddress → Text
  | ipv4 a => a.insert
  | ipv6 a => a.insert

end IPAddress

/-- A `sockaddr`, by its `sa_family`. -/
inductive Sockaddr where
  | inet (addr : SockaddrIn)
  | inet6 (addr : SockaddrIn6)
  | other (sa_family : UInt16)
deriving DecidableEq

/-- An `Address`: an `IPAddress` or an `UnknownAddress`. -/
inductive Address where
  | ip (a : IPAddress)
  | unknown (sa_family : UInt16)
deriving DecidableEq

/-- `Address::create` of a `sockaddr` that is there. -/
def Address.create : Sockaddr → Address
  | .inet addr => .ip (.ipv4 ⟨addr⟩)
  | .inet6 addr => .ip (.ipv6 ⟨addr⟩)
  | .other sa_family => .unknown sa_family

end Muqiu
