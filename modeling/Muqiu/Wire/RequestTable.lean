import Muqiu.Http.Decimal
import Muqiu.Http.Parser
import Muqiu.Lib.Transducer

/-!
# The table of the request parser

The transitions of `http_parser_execute` in `http11_parser.cc`, state by state, as edges over ranges
of bytes.  They are those of the compiled file.  It was made from an older grammar than the
`http11_parser.rl` beside it, which also has bytes above 127 in a path.

A `char` is signed, and the comparisons of the file put the bytes from 128 on below 0.  The braces
and the caret are characters of a URI when `uri_relaxed` is set.  `http_parser_init` does not set
it, so both tables are the table of the code.
-/

namespace Muqiu.Http

open Transducer (Edge Table)

namespace RequestTable

/-- The hexadecimal digits. -/
def hexDigits (acts : List Action) (next : Nat) : List (Edge Action) :=
  [⟨48, 57, acts, next⟩, ⟨65, 70, acts, next⟩, ⟨97, 102, acts, next⟩]

/-- `more_delims`: the caret and the braces. -/
def moreDelims (uri_relaxed : Bool) (acts : List Action) (next : Nat) : List (Edge Action) :=
  if uri_relaxed then [⟨94, 94, acts, next⟩, ⟨123, 123, acts, next⟩, ⟨125, 125, acts, next⟩]
  else []

/-- The method, the target and the version, and the lines behind them: states 1 to 18. -/
def requestLine (r : Bool) : Table Action :=
  [⟨1, [⟨48, 57, [.mark], 2⟩, ⟨60, 60, [.mark], 194⟩, ⟨64, 64, [.mark], 198⟩,
       ⟨65, 90, [.mark], 2⟩]⟩,
   ⟨2, [⟨32, 32, [.request_method], 3⟩, ⟨48, 57, [], 175⟩, ⟨65, 90, [], 175⟩]⟩,
   ⟨3, moreDelims r [.mark] 19 ++ [⟨32, 32, [.mark, .request_path, .request_uri], 4⟩,
       ⟨33, 33, [.mark], 19⟩, ⟨35, 35, [.mark, .request_path, .request_uri], 20⟩,
       ⟨36, 36, [.mark], 19⟩, ⟨37, 37, [.mark], 24⟩, ⟨38, 46, [.mark], 19⟩, ⟨47, 47, [.mark], 33⟩,
       ⟨48, 57, [.mark], 19⟩, ⟨59, 59, [.mark], 19⟩, ⟨61, 61, [.mark], 19⟩,
       ⟨63, 63, [.mark, .request_path], 29⟩, ⟨64, 64, [.mark], 19⟩, ⟨65, 90, [.mark], 173⟩,
       ⟨95, 95, [.mark], 19⟩, ⟨97, 122, [.mark], 173⟩, ⟨126, 126, [.mark], 19⟩]⟩,
   ⟨4, [⟨72, 72, [.mark], 5⟩]⟩,
   ⟨5, [⟨84, 84, [], 6⟩]⟩,
   ⟨6, [⟨84, 84, [], 7⟩]⟩,
   ⟨7, [⟨80, 80, [], 8⟩]⟩,
   ⟨8, [⟨47, 47, [], 9⟩]⟩,
   ⟨9, [⟨49, 49, [], 10⟩]⟩,
   ⟨10, [⟨46, 46, [], 11⟩]⟩,
   ⟨11, [⟨48, 49, [], 12⟩]⟩,
   ⟨12, [⟨10, 10, [.http_version], 13⟩, ⟨13, 13, [.http_version], 17⟩]⟩,
   ⟨13, [⟨1, 8, [.start_field], 14⟩, ⟨10, 10, [.start_field, .done], 348⟩,
       ⟨11, 12, [.start_field], 14⟩, ⟨13, 13, [.start_field], 18⟩, ⟨14, 31, [.start_field], 14⟩,
       ⟨33, 33, [.start_field], 14⟩, ⟨35, 39, [.start_field], 14⟩, ⟨42, 43, [.start_field], 14⟩,
       ⟨45, 46, [.start_field], 14⟩, ⟨48, 57, [.start_field], 14⟩, ⟨65, 90, [.start_field], 14⟩,
       ⟨94, 122, [.start_field], 14⟩, ⟨124, 124, [.start_field], 14⟩,
       ⟨126, 126, [.start_field], 14⟩]⟩,
   ⟨14, [⟨1, 8, [], 14⟩, ⟨10, 31, [], 14⟩, ⟨33, 33, [], 14⟩, ⟨35, 39, [], 14⟩, ⟨42, 43, [], 14⟩,
       ⟨45, 46, [], 14⟩, ⟨48, 57, [], 14⟩, ⟨58, 58, [.write_field], 15⟩, ⟨65, 90, [], 14⟩,
       ⟨94, 122, [], 14⟩, ⟨124, 124, [], 14⟩, ⟨126, 126, [], 14⟩]⟩,
   ⟨15, [⟨1, 8, [.start_value], 16⟩, ⟨9, 9, [.start_value], 15⟩,
       ⟨10, 10, [.start_value, .write_value], 13⟩, ⟨11, 12, [.start_value], 16⟩,
       ⟨13, 13, [.start_value, .write_value], 17⟩, ⟨14, 31, [.start_value], 16⟩,
       ⟨32, 32, [.start_value], 15⟩, ⟨33, 126, [.start_value], 16⟩,
       ⟨128, 255, [.start_value], 16⟩]⟩,
   ⟨16, [⟨1, 9, [], 16⟩, ⟨10, 10, [.write_value], 13⟩, ⟨11, 12, [], 16⟩,
       ⟨13, 13, [.write_value], 17⟩, ⟨14, 126, [], 16⟩, ⟨128, 255, [], 16⟩]⟩,
   ⟨17, [⟨10, 10, [], 13⟩]⟩,
   ⟨18, [⟨1, 8, [], 14⟩, ⟨10, 10, [.done], 348⟩, ⟨11, 31, [], 14⟩, ⟨33, 33, [], 14⟩,
       ⟨35, 39, [], 14⟩, ⟨42, 43, [], 14⟩, ⟨45, 46, [], 14⟩, ⟨48, 57, [], 14⟩,
       ⟨58, 58, [.write_field], 15⟩, ⟨65, 90, [], 14⟩, ⟨94, 122, [], 14⟩, ⟨124, 124, [], 14⟩,
       ⟨126, 126, [], 14⟩]⟩]

/-- The path, the fragment and the query: states 19 to 33. -/
def pathAndQuery (r : Bool) : Table Action :=
  [⟨19, moreDelims r [] 19 ++ [⟨32, 32, [.request_path, .request_uri], 4⟩, ⟨33, 33, [], 19⟩,
       ⟨35, 35, [.request_path, .request_uri], 20⟩, ⟨36, 36, [], 19⟩, ⟨37, 37, [], 24⟩,
       ⟨38, 46, [], 19⟩, ⟨47, 47, [], 26⟩, ⟨48, 57, [], 19⟩, ⟨59, 59, [], 19⟩, ⟨61, 61, [], 19⟩,
       ⟨63, 63, [.request_path], 29⟩, ⟨64, 90, [], 19⟩, ⟨95, 95, [], 19⟩, ⟨97, 122, [], 19⟩,
       ⟨126, 126, [], 19⟩]⟩,
   ⟨20, moreDelims r [.mark] 21 ++ [⟨32, 32, [.mark, .fragment], 4⟩, ⟨33, 33, [.mark], 21⟩,
       ⟨36, 36, [.mark], 21⟩, ⟨37, 37, [.mark], 22⟩, ⟨38, 59, [.mark], 21⟩, ⟨61, 61, [.mark], 21⟩,
       ⟨63, 90, [.mark], 21⟩, ⟨95, 95, [.mark], 21⟩, ⟨97, 122, [.mark], 21⟩,
       ⟨126, 126, [.mark], 21⟩]⟩,
   ⟨21, moreDelims r [] 21 ++ [⟨32, 32, [.fragment], 4⟩, ⟨33, 33, [], 21⟩, ⟨36, 36, [], 21⟩,
       ⟨37, 37, [], 22⟩, ⟨38, 59, [], 21⟩, ⟨61, 61, [], 21⟩, ⟨63, 90, [], 21⟩, ⟨95, 95, [], 21⟩,
       ⟨97, 122, [], 21⟩, ⟨126, 126, [], 21⟩]⟩,
   ⟨22, hexDigits [] 23⟩,
   ⟨23, hexDigits [] 21⟩,
   ⟨24, hexDigits [] 25⟩,
   ⟨25, hexDigits [] 19⟩,
   ⟨26, moreDelims r [] 26 ++ [⟨32, 32, [.request_path, .request_uri], 4⟩, ⟨33, 33, [], 26⟩,
       ⟨35, 35, [.request_path, .request_uri], 20⟩, ⟨36, 36, [], 26⟩, ⟨37, 37, [], 27⟩,
       ⟨38, 59, [], 26⟩, ⟨61, 61, [], 26⟩, ⟨63, 63, [.request_path], 29⟩, ⟨64, 90, [], 26⟩,
       ⟨95, 95, [], 26⟩, ⟨97, 122, [], 26⟩, ⟨126, 126, [], 26⟩]⟩,
   ⟨27, hexDigits [] 28⟩,
   ⟨28, hexDigits [] 26⟩,
   ⟨29, moreDelims r [.start_query] 30 ++ [
       ⟨32, 32, [.start_query, .query_string, .request_uri], 4⟩, ⟨33, 33, [.start_query], 30⟩,
       ⟨35, 35, [.start_query, .query_string, .request_uri], 20⟩, ⟨36, 36, [.start_query], 30⟩,
       ⟨37, 37, [.start_query], 31⟩, ⟨38, 59, [.start_query], 30⟩, ⟨61, 61, [.start_query], 30⟩,
       ⟨63, 90, [.start_query], 30⟩, ⟨95, 95, [.start_query], 30⟩, ⟨97, 122, [.start_query], 30⟩,
       ⟨126, 126, [.start_query], 30⟩]⟩,
   ⟨30, moreDelims r [] 30 ++ [⟨32, 32, [.query_string, .request_uri], 4⟩, ⟨33, 33, [], 30⟩,
       ⟨35, 35, [.query_string, .request_uri], 20⟩, ⟨36, 36, [], 30⟩, ⟨37, 37, [], 31⟩,
       ⟨38, 59, [], 30⟩, ⟨61, 61, [], 30⟩, ⟨63, 90, [], 30⟩, ⟨95, 95, [], 30⟩, ⟨97, 122, [], 30⟩,
       ⟨126, 126, [], 30⟩]⟩,
   ⟨31, hexDigits [] 32⟩,
   ⟨32, hexDigits [] 30⟩,
   ⟨33, moreDelims r [] 26 ++ [⟨32, 32, [.request_path, .request_uri], 4⟩, ⟨33, 33, [], 26⟩,
       ⟨35, 35, [.request_path, .request_uri], 20⟩, ⟨36, 36, [], 26⟩, ⟨37, 37, [], 27⟩,
       ⟨38, 46, [], 26⟩, ⟨47, 47, [], 34⟩, ⟨48, 59, [], 26⟩, ⟨61, 61, [], 26⟩,
       ⟨63, 63, [.request_path], 29⟩, ⟨64, 90, [], 26⟩, ⟨95, 95, [], 26⟩, ⟨97, 122, [], 26⟩,
       ⟨126, 126, [], 26⟩]⟩]

/-- An authority behind two slashes: states 34 to 46, and 61 behind an address in brackets. -/
def authority (r : Bool) : Table Action :=
  [⟨34, moreDelims r [] 35 ++ [⟨32, 32, [.request_path, .request_uri], 4⟩, ⟨33, 33, [], 35⟩,
       ⟨35, 35, [.request_path, .request_uri], 20⟩, ⟨36, 36, [], 35⟩, ⟨37, 37, [], 36⟩,
       ⟨38, 46, [], 35⟩, ⟨47, 47, [], 26⟩, ⟨48, 57, [], 35⟩, ⟨58, 58, [], 38⟩, ⟨59, 59, [], 35⟩,
       ⟨61, 61, [], 35⟩, ⟨63, 63, [.request_path], 29⟩, ⟨64, 64, [], 42⟩, ⟨65, 90, [], 35⟩,
       ⟨91, 91, [], 47⟩, ⟨95, 95, [], 35⟩, ⟨97, 122, [], 35⟩, ⟨126, 126, [], 35⟩]⟩,
   ⟨35, moreDelims r [] 35 ++ [⟨32, 32, [.request_path, .request_uri], 4⟩, ⟨33, 33, [], 35⟩,
       ⟨35, 35, [.request_path, .request_uri], 20⟩, ⟨36, 36, [], 35⟩, ⟨37, 37, [], 36⟩,
       ⟨38, 46, [], 35⟩, ⟨47, 47, [], 26⟩, ⟨48, 57, [], 35⟩, ⟨58, 58, [], 38⟩, ⟨59, 59, [], 35⟩,
       ⟨61, 61, [], 35⟩, ⟨63, 63, [.request_path], 29⟩, ⟨64, 64, [], 42⟩, ⟨65, 90, [], 35⟩,
       ⟨95, 95, [], 35⟩, ⟨97, 122, [], 35⟩, ⟨126, 126, [], 35⟩]⟩,
   ⟨36, hexDigits [] 37⟩,
   ⟨37, hexDigits [] 35⟩,
   ⟨38, moreDelims r [] 39 ++ [⟨32, 32, [.request_path, .request_uri], 4⟩, ⟨33, 33, [], 39⟩,
       ⟨35, 35, [.request_path, .request_uri], 20⟩, ⟨36, 36, [], 39⟩, ⟨37, 37, [], 40⟩,
       ⟨38, 46, [], 39⟩, ⟨47, 47, [], 26⟩, ⟨48, 57, [], 38⟩, ⟨58, 59, [], 39⟩, ⟨61, 61, [], 39⟩,
       ⟨63, 63, [.request_path], 29⟩, ⟨64, 64, [], 42⟩, ⟨65, 90, [], 39⟩, ⟨95, 95, [], 39⟩,
       ⟨97, 122, [], 39⟩, ⟨126, 126, [], 39⟩]⟩,
   ⟨39, moreDelims r [] 39 ++ [⟨33, 33, [], 39⟩, ⟨36, 36, [], 39⟩, ⟨37, 37, [], 40⟩,
       ⟨38, 46, [], 39⟩, ⟨48, 59, [], 39⟩, ⟨61, 61, [], 39⟩, ⟨64, 64, [], 42⟩, ⟨65, 90, [], 39⟩,
       ⟨95, 95, [], 39⟩, ⟨97, 122, [], 39⟩, ⟨126, 126, [], 39⟩]⟩,
   ⟨40, hexDigits [] 41⟩,
   ⟨41, hexDigits [] 39⟩,
   ⟨42, moreDelims r [] 43 ++ [⟨32, 32, [.request_path, .request_uri], 4⟩, ⟨33, 33, [], 43⟩,
       ⟨35, 35, [.request_path, .request_uri], 20⟩, ⟨36, 36, [], 43⟩, ⟨37, 37, [], 44⟩,
       ⟨38, 46, [], 43⟩, ⟨47, 47, [], 26⟩, ⟨48, 57, [], 43⟩, ⟨58, 58, [], 46⟩, ⟨59, 59, [], 43⟩,
       ⟨61, 61, [], 43⟩, ⟨63, 63, [.request_path], 29⟩, ⟨65, 90, [], 43⟩, ⟨91, 91, [], 47⟩,
       ⟨95, 95, [], 43⟩, ⟨97, 122, [], 43⟩, ⟨126, 126, [], 43⟩]⟩,
   ⟨43, moreDelims r [] 43 ++ [⟨32, 32, [.request_path, .request_uri], 4⟩, ⟨33, 33, [], 43⟩,
       ⟨35, 35, [.request_path, .request_uri], 20⟩, ⟨36, 36, [], 43⟩, ⟨37, 37, [], 44⟩,
       ⟨38, 46, [], 43⟩, ⟨47, 47, [], 26⟩, ⟨48, 57, [], 43⟩, ⟨58, 58, [], 46⟩, ⟨59, 59, [], 43⟩,
       ⟨61, 61, [], 43⟩, ⟨63, 63, [.request_path], 29⟩, ⟨65, 90, [], 43⟩, ⟨95, 95, [], 43⟩,
       ⟨97, 122, [], 43⟩, ⟨126, 126, [], 43⟩]⟩,
   ⟨44, hexDigits [] 45⟩,
   ⟨45, hexDigits [] 43⟩,
   ⟨46, [⟨32, 32, [.request_path, .request_uri], 4⟩, ⟨35, 35, [.request_path, .request_uri], 20⟩,
       ⟨47, 47, [], 26⟩, ⟨48, 57, [], 46⟩, ⟨63, 63, [.request_path], 29⟩]⟩,
   ⟨61, [⟨32, 32, [.request_path, .request_uri], 4⟩, ⟨35, 35, [.request_path, .request_uri], 20⟩,
       ⟨47, 47, [], 26⟩, ⟨58, 58, [], 46⟩, ⟨63, 63, [.request_path], 29⟩]⟩]

/-- An address in brackets: states 47 to 172, numbered from `47 + k` on. -/
def addressLiteral (r : Bool) (k : Nat) : Table Action :=
  [⟨47 + k, hexDigits [] (91 + k) ++ [⟨6, 6, [], 48 + k⟩, ⟨58, 58, [], 167 + k⟩,
       ⟨118, 118, [], 169 + k⟩]⟩,
   ⟨48 + k, hexDigits [] (49 + k)⟩,
   ⟨49 + k, hexDigits [] (50 + k) ++ [⟨58, 58, [], 53 + k⟩]⟩,
   ⟨50 + k, hexDigits [] (51 + k) ++ [⟨58, 58, [], 53 + k⟩]⟩,
   ⟨51 + k, hexDigits [] (52 + k) ++ [⟨58, 58, [], 53 + k⟩]⟩,
   ⟨52 + k, [⟨58, 58, [], 53 + k⟩]⟩,
   ⟨53 + k, [⟨48, 48, [], 54 + k⟩, ⟨49, 49, [], 84 + k⟩, ⟨50, 50, [], 87 + k⟩,
       ⟨51, 57, [], 54 + k⟩, ⟨65, 70, [], 90 + k⟩, ⟨97, 102, [], 90 + k⟩]⟩,
   ⟨54 + k, hexDigits [] (77 + k) ++ [⟨46, 46, [], 55 + k⟩, ⟨58, 58, [], 80 + k⟩]⟩,
   ⟨55 + k, [⟨48, 48, [], 56 + k⟩, ⟨49, 49, [], 72 + k⟩, ⟨50, 50, [], 74 + k⟩,
       ⟨51, 57, [], 56 + k⟩]⟩,
   ⟨56 + k, [⟨46, 46, [], 57 + k⟩]⟩,
   ⟨57 + k, [⟨48, 48, [], 58 + k⟩, ⟨49, 49, [], 67 + k⟩, ⟨50, 50, [], 69 + k⟩,
       ⟨51, 57, [], 58 + k⟩]⟩,
   ⟨58 + k, [⟨46, 46, [], 59 + k⟩]⟩,
   ⟨59 + k, [⟨48, 48, [], 60 + k⟩, ⟨49, 49, [], 62 + k⟩, ⟨50, 50, [], 64 + k⟩,
       ⟨51, 57, [], 60 + k⟩]⟩,
   ⟨60 + k, [⟨93, 93, [], 61 + k⟩]⟩,
   ⟨62 + k, [⟨48, 57, [], 63 + k⟩, ⟨93, 93, [], 61 + k⟩]⟩,
   ⟨63 + k, [⟨48, 57, [], 60 + k⟩, ⟨93, 93, [], 61 + k⟩]⟩,
   ⟨64 + k, [⟨48, 48, [], 65 + k⟩, ⟨53, 53, [], 66 + k⟩, ⟨93, 93, [], 61 + k⟩]⟩,
   ⟨65 + k, [⟨48, 57, [], 60 + k⟩]⟩,
   ⟨66 + k, [⟨48, 48, [], 60 + k⟩]⟩,
   ⟨67 + k, [⟨46, 46, [], 59 + k⟩, ⟨48, 57, [], 68 + k⟩]⟩,
   ⟨68 + k, [⟨46, 46, [], 59 + k⟩, ⟨48, 57, [], 58 + k⟩]⟩,
   ⟨69 + k, [⟨46, 46, [], 59 + k⟩, ⟨48, 48, [], 70 + k⟩, ⟨53, 53, [], 71 + k⟩]⟩,
   ⟨70 + k, [⟨48, 57, [], 58 + k⟩]⟩,
   ⟨71 + k, [⟨48, 48, [], 58 + k⟩]⟩,
   ⟨72 + k, [⟨46, 46, [], 57 + k⟩, ⟨48, 57, [], 73 + k⟩]⟩,
   ⟨73 + k, [⟨46, 46, [], 57 + k⟩, ⟨48, 57, [], 56 + k⟩]⟩,
   ⟨74 + k, [⟨46, 46, [], 57 + k⟩, ⟨48, 48, [], 75 + k⟩, ⟨53, 53, [], 76 + k⟩]⟩,
   ⟨75 + k, [⟨48, 57, [], 56 + k⟩]⟩,
   ⟨76 + k, [⟨48, 48, [], 56 + k⟩]⟩,
   ⟨77 + k, hexDigits [] (78 + k) ++ [⟨58, 58, [], 80 + k⟩]⟩,
   ⟨78 + k, hexDigits [] (79 + k) ++ [⟨58, 58, [], 80 + k⟩]⟩,
   ⟨79 + k, [⟨58, 58, [], 80 + k⟩]⟩,
   ⟨80 + k, hexDigits [] (81 + k)⟩,
   ⟨81 + k, hexDigits [] (82 + k) ++ [⟨93, 93, [], 61 + k⟩]⟩,
   ⟨82 + k, hexDigits [] (83 + k) ++ [⟨93, 93, [], 61 + k⟩]⟩,
   ⟨83 + k, hexDigits [] (60 + k) ++ [⟨93, 93, [], 61 + k⟩]⟩,
   ⟨84 + k, [⟨46, 46, [], 55 + k⟩, ⟨48, 57, [], 85 + k⟩, ⟨58, 58, [], 80 + k⟩,
       ⟨65, 70, [], 77 + k⟩, ⟨97, 102, [], 77 + k⟩]⟩,
   ⟨85 + k, [⟨46, 46, [], 55 + k⟩, ⟨48, 57, [], 86 + k⟩, ⟨58, 58, [], 80 + k⟩,
       ⟨65, 70, [], 78 + k⟩, ⟨97, 102, [], 78 + k⟩]⟩,
   ⟨86 + k, hexDigits [] (79 + k) ++ [⟨46, 46, [], 55 + k⟩, ⟨58, 58, [], 80 + k⟩]⟩,
   ⟨87 + k, [⟨46, 46, [], 55 + k⟩, ⟨48, 48, [], 88 + k⟩, ⟨49, 52, [], 77 + k⟩,
       ⟨53, 53, [], 89 + k⟩, ⟨54, 57, [], 77 + k⟩, ⟨58, 58, [], 80 + k⟩, ⟨65, 70, [], 77 + k⟩,
       ⟨97, 102, [], 77 + k⟩]⟩,
   ⟨88 + k, [⟨48, 57, [], 86 + k⟩, ⟨58, 58, [], 80 + k⟩, ⟨65, 70, [], 78 + k⟩,
       ⟨97, 102, [], 78 + k⟩]⟩,
   ⟨89 + k, [⟨48, 48, [], 86 + k⟩, ⟨49, 57, [], 78 + k⟩, ⟨58, 58, [], 80 + k⟩,
       ⟨65, 70, [], 78 + k⟩, ⟨97, 102, [], 78 + k⟩]⟩,
   ⟨90 + k, hexDigits [] (77 + k) ++ [⟨58, 58, [], 80 + k⟩]⟩,
   ⟨91 + k, hexDigits [] (92 + k) ++ [⟨58, 58, [], 95 + k⟩]⟩,
   ⟨92 + k, hexDigits [] (93 + k) ++ [⟨58, 58, [], 95 + k⟩]⟩,
   ⟨93 + k, hexDigits [] (94 + k) ++ [⟨58, 58, [], 95 + k⟩]⟩,
   ⟨94 + k, [⟨58, 58, [], 95 + k⟩]⟩,
   ⟨95 + k, hexDigits [] (96 + k) ++ [⟨58, 58, [], 166 + k⟩]⟩,
   ⟨96 + k, hexDigits [] (97 + k) ++ [⟨58, 58, [], 100 + k⟩]⟩,
   ⟨97 + k, hexDigits [] (98 + k) ++ [⟨58, 58, [], 100 + k⟩]⟩,
   ⟨98 + k, hexDigits [] (99 + k) ++ [⟨58, 58, [], 100 + k⟩]⟩,
   ⟨99 + k, [⟨58, 58, [], 100 + k⟩]⟩,
   ⟨100 + k, hexDigits [] (101 + k) ++ [⟨58, 58, [], 165 + k⟩]⟩,
   ⟨101 + k, hexDigits [] (102 + k) ++ [⟨58, 58, [], 105 + k⟩]⟩,
   ⟨102 + k, hexDigits [] (103 + k) ++ [⟨58, 58, [], 105 + k⟩]⟩,
   ⟨103 + k, hexDigits [] (104 + k) ++ [⟨58, 58, [], 105 + k⟩]⟩,
   ⟨104 + k, [⟨58, 58, [], 105 + k⟩]⟩,
   ⟨105 + k, hexDigits [] (106 + k) ++ [⟨58, 58, [], 164 + k⟩]⟩,
   ⟨106 + k, hexDigits [] (107 + k) ++ [⟨58, 58, [], 110 + k⟩]⟩,
   ⟨107 + k, hexDigits [] (108 + k) ++ [⟨58, 58, [], 110 + k⟩]⟩,
   ⟨108 + k, hexDigits [] (109 + k) ++ [⟨58, 58, [], 110 + k⟩]⟩,
   ⟨109 + k, [⟨58, 58, [], 110 + k⟩]⟩,
   ⟨110 + k, hexDigits [] (111 + k) ++ [⟨58, 58, [], 163 + k⟩]⟩,
   ⟨111 + k, hexDigits [] (112 + k) ++ [⟨58, 58, [], 115 + k⟩]⟩,
   ⟨112 + k, hexDigits [] (113 + k) ++ [⟨58, 58, [], 115 + k⟩]⟩,
   ⟨113 + k, hexDigits [] (114 + k) ++ [⟨58, 58, [], 115 + k⟩]⟩,
   ⟨114 + k, [⟨58, 58, [], 115 + k⟩]⟩,
   ⟨115 + k, hexDigits [] (116 + k) ++ [⟨58, 58, [], 151 + k⟩]⟩,
   ⟨116 + k, hexDigits [] (117 + k) ++ [⟨58, 58, [], 120 + k⟩]⟩,
   ⟨117 + k, hexDigits [] (118 + k) ++ [⟨58, 58, [], 120 + k⟩]⟩,
   ⟨118 + k, hexDigits [] (119 + k) ++ [⟨58, 58, [], 120 + k⟩]⟩,
   ⟨119 + k, [⟨58, 58, [], 120 + k⟩]⟩,
   ⟨120 + k, hexDigits [] (121 + k) ++ [⟨58, 58, [], 150 + k⟩]⟩,
   ⟨121 + k, hexDigits [] (122 + k) ++ [⟨58, 58, [], 125 + k⟩]⟩,
   ⟨122 + k, hexDigits [] (123 + k) ++ [⟨58, 58, [], 125 + k⟩]⟩,
   ⟨123 + k, hexDigits [] (124 + k) ++ [⟨58, 58, [], 125 + k⟩]⟩,
   ⟨124 + k, [⟨58, 58, [], 125 + k⟩]⟩,
   ⟨125 + k, hexDigits [] (121 + k) ++ [⟨58, 58, [], 126 + k⟩]⟩,
   ⟨126 + k, [⟨2, 3, [], 48 + k⟩, ⟨48, 48, [], 127 + k⟩, ⟨49, 49, [], 143 + k⟩,
       ⟨50, 50, [], 146 + k⟩, ⟨51, 57, [], 127 + k⟩, ⟨65, 70, [], 149 + k⟩, ⟨93, 93, [], 61 + k⟩,
       ⟨97, 102, [], 149 + k⟩]⟩,
   ⟨127 + k, hexDigits [] (128 + k) ++ [⟨46, 46, [], 55 + k⟩, ⟨58, 58, [], 131 + k⟩,
       ⟨93, 93, [], 61 + k⟩]⟩,
   ⟨128 + k, hexDigits [] (129 + k) ++ [⟨58, 58, [], 131 + k⟩, ⟨93, 93, [], 61 + k⟩]⟩,
   ⟨129 + k, hexDigits [] (130 + k) ++ [⟨58, 58, [], 131 + k⟩, ⟨93, 93, [], 61 + k⟩]⟩,
   ⟨130 + k, [⟨58, 58, [], 131 + k⟩, ⟨93, 93, [], 61 + k⟩]⟩,
   ⟨131 + k, [⟨48, 48, [], 132 + k⟩, ⟨49, 49, [], 136 + k⟩, ⟨50, 50, [], 139 + k⟩,
       ⟨51, 57, [], 132 + k⟩, ⟨65, 70, [], 142 + k⟩, ⟨97, 102, [], 142 + k⟩]⟩,
   ⟨132 + k, hexDigits [] (133 + k) ++ [⟨46, 46, [], 55 + k⟩, ⟨58, 58, [], 80 + k⟩,
       ⟨93, 93, [], 61 + k⟩]⟩,
   ⟨133 + k, hexDigits [] (134 + k) ++ [⟨58, 58, [], 80 + k⟩, ⟨93, 93, [], 61 + k⟩]⟩,
   ⟨134 + k, hexDigits [] (135 + k) ++ [⟨58, 58, [], 80 + k⟩, ⟨93, 93, [], 61 + k⟩]⟩,
   ⟨135 + k, [⟨58, 58, [], 80 + k⟩, ⟨93, 93, [], 61 + k⟩]⟩,
   ⟨136 + k, [⟨46, 46, [], 55 + k⟩, ⟨48, 57, [], 137 + k⟩, ⟨58, 58, [], 80 + k⟩,
       ⟨65, 70, [], 133 + k⟩, ⟨93, 93, [], 61 + k⟩, ⟨97, 102, [], 133 + k⟩]⟩,
   ⟨137 + k, [⟨46, 46, [], 55 + k⟩, ⟨48, 57, [], 138 + k⟩, ⟨58, 58, [], 80 + k⟩,
       ⟨65, 70, [], 134 + k⟩, ⟨93, 93, [], 61 + k⟩, ⟨97, 102, [], 134 + k⟩]⟩,
   ⟨138 + k, hexDigits [] (135 + k) ++ [⟨46, 46, [], 55 + k⟩, ⟨58, 58, [], 80 + k⟩,
       ⟨93, 93, [], 61 + k⟩]⟩,
   ⟨139 + k, [⟨46, 46, [], 55 + k⟩, ⟨48, 48, [], 140 + k⟩, ⟨49, 52, [], 133 + k⟩,
       ⟨53, 53, [], 141 + k⟩, ⟨54, 57, [], 133 + k⟩, ⟨58, 58, [], 80 + k⟩, ⟨65, 70, [], 133 + k⟩,
       ⟨93, 93, [], 61 + k⟩, ⟨97, 102, [], 133 + k⟩]⟩,
   ⟨140 + k, [⟨48, 57, [], 138 + k⟩, ⟨58, 58, [], 80 + k⟩, ⟨65, 70, [], 134 + k⟩,
       ⟨93, 93, [], 61 + k⟩, ⟨97, 102, [], 134 + k⟩]⟩,
   ⟨141 + k, [⟨48, 48, [], 138 + k⟩, ⟨49, 57, [], 134 + k⟩, ⟨58, 58, [], 80 + k⟩,
       ⟨65, 70, [], 134 + k⟩, ⟨93, 93, [], 61 + k⟩, ⟨97, 102, [], 134 + k⟩]⟩,
   ⟨142 + k, hexDigits [] (133 + k) ++ [⟨58, 58, [], 80 + k⟩, ⟨93, 93, [], 61 + k⟩]⟩,
   ⟨143 + k, [⟨46, 46, [], 55 + k⟩, ⟨48, 57, [], 144 + k⟩, ⟨58, 58, [], 131 + k⟩,
       ⟨65, 70, [], 128 + k⟩, ⟨93, 93, [], 61 + k⟩, ⟨97, 102, [], 128 + k⟩]⟩,
   ⟨144 + k, [⟨46, 46, [], 55 + k⟩, ⟨48, 57, [], 145 + k⟩, ⟨58, 58, [], 131 + k⟩,
       ⟨65, 70, [], 129 + k⟩, ⟨93, 93, [], 61 + k⟩, ⟨97, 102, [], 129 + k⟩]⟩,
   ⟨145 + k, hexDigits [] (130 + k) ++ [⟨46, 46, [], 55 + k⟩, ⟨58, 58, [], 131 + k⟩,
       ⟨93, 93, [], 61 + k⟩]⟩,
   ⟨146 + k, [⟨46, 46, [], 55 + k⟩, ⟨48, 48, [], 147 + k⟩, ⟨49, 52, [], 128 + k⟩,
       ⟨53, 53, [], 148 + k⟩, ⟨54, 57, [], 128 + k⟩, ⟨58, 58, [], 131 + k⟩, ⟨65, 70, [], 128 + k⟩,
       ⟨93, 93, [], 61 + k⟩, ⟨97, 102, [], 128 + k⟩]⟩,
   ⟨147 + k, [⟨48, 57, [], 145 + k⟩, ⟨58, 58, [], 131 + k⟩, ⟨65, 70, [], 129 + k⟩,
       ⟨93, 93, [], 61 + k⟩, ⟨97, 102, [], 129 + k⟩]⟩,
   ⟨148 + k, [⟨48, 48, [], 145 + k⟩, ⟨49, 57, [], 129 + k⟩, ⟨58, 58, [], 131 + k⟩,
       ⟨65, 70, [], 129 + k⟩, ⟨93, 93, [], 61 + k⟩, ⟨97, 102, [], 129 + k⟩]⟩,
   ⟨149 + k, hexDigits [] (128 + k) ++ [⟨58, 58, [], 131 + k⟩, ⟨93, 93, [], 61 + k⟩]⟩,
   ⟨150 + k, [⟨2, 3, [], 48 + k⟩, ⟨48, 48, [], 127 + k⟩, ⟨49, 49, [], 143 + k⟩,
       ⟨50, 50, [], 146 + k⟩, ⟨51, 57, [], 127 + k⟩, ⟨65, 70, [], 149 + k⟩,
       ⟨97, 102, [], 149 + k⟩]⟩,
   ⟨151 + k, [⟨2, 3, [], 48 + k⟩, ⟨48, 48, [], 152 + k⟩, ⟨49, 49, [], 156 + k⟩,
       ⟨50, 50, [], 159 + k⟩, ⟨51, 57, [], 152 + k⟩, ⟨65, 70, [], 162 + k⟩,
       ⟨97, 102, [], 162 + k⟩]⟩,
   ⟨152 + k, hexDigits [] (153 + k) ++ [⟨46, 46, [], 55 + k⟩, ⟨58, 58, [], 131 + k⟩]⟩,
   ⟨153 + k, hexDigits [] (154 + k) ++ [⟨58, 58, [], 131 + k⟩]⟩,
   ⟨154 + k, hexDigits [] (155 + k) ++ [⟨58, 58, [], 131 + k⟩]⟩,
   ⟨155 + k, [⟨58, 58, [], 131 + k⟩]⟩,
   ⟨156 + k, [⟨46, 46, [], 55 + k⟩, ⟨48, 57, [], 157 + k⟩, ⟨58, 58, [], 131 + k⟩,
       ⟨65, 70, [], 153 + k⟩, ⟨97, 102, [], 153 + k⟩]⟩,
   ⟨157 + k, [⟨46, 46, [], 55 + k⟩, ⟨48, 57, [], 158 + k⟩, ⟨58, 58, [], 131 + k⟩,
       ⟨65, 70, [], 154 + k⟩, ⟨97, 102, [], 154 + k⟩]⟩,
   ⟨158 + k, hexDigits [] (155 + k) ++ [⟨46, 46, [], 55 + k⟩, ⟨58, 58, [], 131 + k⟩]⟩,
   ⟨159 + k, [⟨46, 46, [], 55 + k⟩, ⟨48, 48, [], 160 + k⟩, ⟨49, 52, [], 153 + k⟩,
       ⟨53, 53, [], 161 + k⟩, ⟨54, 57, [], 153 + k⟩, ⟨58, 58, [], 131 + k⟩, ⟨65, 70, [], 153 + k⟩,
       ⟨97, 102, [], 153 + k⟩]⟩,
   ⟨160 + k, [⟨48, 57, [], 158 + k⟩, ⟨58, 58, [], 131 + k⟩, ⟨65, 70, [], 154 + k⟩,
       ⟨97, 102, [], 154 + k⟩]⟩,
   ⟨161 + k, [⟨48, 48, [], 158 + k⟩, ⟨49, 57, [], 154 + k⟩, ⟨58, 58, [], 131 + k⟩,
       ⟨65, 70, [], 154 + k⟩, ⟨97, 102, [], 154 + k⟩]⟩,
   ⟨162 + k, hexDigits [] (153 + k) ++ [⟨58, 58, [], 131 + k⟩]⟩,
   ⟨163 + k, hexDigits [] (49 + k) ++ [⟨2, 3, [], 48 + k⟩]⟩,
   ⟨164 + k, [⟨2, 3, [], 48 + k⟩]⟩,
   ⟨165 + k, [⟨3, 3, [], 48 + k⟩]⟩,
   ⟨166 + k, [⟨4, 4, [], 48 + k⟩]⟩,
   ⟨167 + k, [⟨58, 58, [], 168 + k⟩]⟩,
   ⟨168 + k, [⟨2, 5, [], 48 + k⟩, ⟨48, 48, [], 127 + k⟩, ⟨49, 49, [], 143 + k⟩,
       ⟨50, 50, [], 146 + k⟩, ⟨51, 57, [], 127 + k⟩, ⟨65, 70, [], 149 + k⟩, ⟨93, 93, [], 61 + k⟩,
       ⟨97, 102, [], 149 + k⟩]⟩,
   ⟨169 + k, hexDigits [] (170 + k)⟩,
   ⟨170 + k, hexDigits [] (170 + k) ++ [⟨46, 46, [], 171 + k⟩]⟩,
   ⟨171 + k, moreDelims r [] (172 + k) ++ [⟨33, 33, [], 172 + k⟩, ⟨36, 36, [], 172 + k⟩,
       ⟨38, 46, [], 172 + k⟩, ⟨48, 59, [], 172 + k⟩, ⟨61, 61, [], 172 + k⟩, ⟨65, 90, [], 172 + k⟩,
       ⟨95, 95, [], 172 + k⟩, ⟨97, 122, [], 172 + k⟩, ⟨126, 126, [], 172 + k⟩]⟩,
   ⟨172 + k, moreDelims r [] (172 + k) ++ [⟨33, 33, [], 172 + k⟩, ⟨36, 36, [], 172 + k⟩,
       ⟨38, 46, [], 172 + k⟩, ⟨48, 59, [], 172 + k⟩, ⟨61, 61, [], 172 + k⟩, ⟨65, 90, [], 172 + k⟩,
       ⟨93, 93, [], 61 + k⟩, ⟨95, 95, [], 172 + k⟩, ⟨97, 122, [], 172 + k⟩,
       ⟨126, 126, [], 172 + k⟩]⟩]

/-- The scheme, and the other characters of the method: states 173 to 193. -/
def schemeAndMethod (r : Bool) : Table Action :=
  [⟨173, moreDelims r [] 19 ++ [⟨32, 32, [.request_path, .request_uri], 4⟩, ⟨33, 33, [], 19⟩,
       ⟨35, 35, [.request_path, .request_uri], 20⟩, ⟨36, 36, [], 19⟩, ⟨37, 37, [], 24⟩,
       ⟨38, 42, [], 19⟩, ⟨43, 43, [], 173⟩, ⟨44, 44, [], 19⟩, ⟨45, 46, [], 173⟩, ⟨47, 47, [], 26⟩,
       ⟨48, 57, [], 173⟩, ⟨58, 58, [], 174⟩, ⟨59, 59, [], 19⟩, ⟨61, 61, [], 19⟩,
       ⟨63, 63, [.request_path], 29⟩, ⟨64, 64, [], 19⟩, ⟨65, 90, [], 173⟩, ⟨95, 95, [], 19⟩,
       ⟨97, 122, [], 173⟩, ⟨126, 126, [], 19⟩]⟩,
   ⟨174, moreDelims r [.mark] 26 ++ [⟨32, 32, [.mark, .request_path, .request_uri], 4⟩,
       ⟨33, 33, [.mark], 26⟩, ⟨35, 35, [.mark, .request_path, .request_uri], 20⟩,
       ⟨36, 36, [.mark], 26⟩, ⟨37, 37, [.mark], 27⟩, ⟨38, 46, [.mark], 26⟩, ⟨47, 47, [.mark], 33⟩,
       ⟨48, 59, [.mark], 26⟩, ⟨61, 61, [.mark], 26⟩, ⟨63, 63, [.mark, .request_path], 29⟩,
       ⟨64, 90, [.mark], 26⟩, ⟨95, 95, [.mark], 26⟩, ⟨97, 122, [.mark], 26⟩,
       ⟨126, 126, [.mark], 26⟩]⟩,
   ⟨175, [⟨32, 32, [.request_method], 3⟩, ⟨48, 57, [], 176⟩, ⟨65, 90, [], 176⟩]⟩,
   ⟨176, [⟨32, 32, [.request_method], 3⟩, ⟨48, 57, [], 177⟩, ⟨65, 90, [], 177⟩]⟩,
   ⟨177, [⟨32, 32, [.request_method], 3⟩, ⟨48, 57, [], 178⟩, ⟨65, 90, [], 178⟩]⟩,
   ⟨178, [⟨32, 32, [.request_method], 3⟩, ⟨48, 57, [], 179⟩, ⟨65, 90, [], 179⟩]⟩,
   ⟨179, [⟨32, 32, [.request_method], 3⟩, ⟨48, 57, [], 180⟩, ⟨65, 90, [], 180⟩]⟩,
   ⟨180, [⟨32, 32, [.request_method], 3⟩, ⟨48, 57, [], 181⟩, ⟨65, 90, [], 181⟩]⟩,
   ⟨181, [⟨32, 32, [.request_method], 3⟩, ⟨48, 57, [], 182⟩, ⟨65, 90, [], 182⟩]⟩,
   ⟨182, [⟨32, 32, [.request_method], 3⟩, ⟨48, 57, [], 183⟩, ⟨65, 90, [], 183⟩]⟩,
   ⟨183, [⟨32, 32, [.request_method], 3⟩, ⟨48, 57, [], 184⟩, ⟨65, 90, [], 184⟩]⟩,
   ⟨184, [⟨32, 32, [.request_method], 3⟩, ⟨48, 57, [], 185⟩, ⟨65, 90, [], 185⟩]⟩,
   ⟨185, [⟨32, 32, [.request_method], 3⟩, ⟨48, 57, [], 186⟩, ⟨65, 90, [], 186⟩]⟩,
   ⟨186, [⟨32, 32, [.request_method], 3⟩, ⟨48, 57, [], 187⟩, ⟨65, 90, [], 187⟩]⟩,
   ⟨187, [⟨32, 32, [.request_method], 3⟩, ⟨48, 57, [], 188⟩, ⟨65, 90, [], 188⟩]⟩,
   ⟨188, [⟨32, 32, [.request_method], 3⟩, ⟨48, 57, [], 189⟩, ⟨65, 90, [], 189⟩]⟩,
   ⟨189, [⟨32, 32, [.request_method], 3⟩, ⟨48, 57, [], 190⟩, ⟨65, 90, [], 190⟩]⟩,
   ⟨190, [⟨32, 32, [.request_method], 3⟩, ⟨48, 57, [], 191⟩, ⟨65, 90, [], 191⟩]⟩,
   ⟨191, [⟨32, 32, [.request_method], 3⟩, ⟨48, 57, [], 192⟩, ⟨65, 90, [], 192⟩]⟩,
   ⟨192, [⟨32, 32, [.request_method], 3⟩, ⟨48, 57, [], 193⟩, ⟨65, 90, [], 193⟩]⟩,
   ⟨193, [⟨32, 32, [.request_method], 3⟩]⟩]

/-- A request in XML or JSON: states 194 to 221, and 236 behind an address in brackets. -/
def socketRequests (r : Bool) : Table Action :=
  [⟨194, [⟨45, 46, [], 195⟩, ⟨48, 57, [], 195⟩, ⟨65, 90, [], 195⟩, ⟨97, 122, [], 195⟩]⟩,
   ⟨195, [⟨9, 13, [.request_path], 196⟩, ⟨32, 32, [.request_path], 196⟩, ⟨45, 46, [], 195⟩,
       ⟨47, 47, [.request_path], 196⟩, ⟨48, 57, [], 195⟩, ⟨62, 62, [.request_path], 196⟩,
       ⟨65, 90, [], 195⟩, ⟨97, 122, [], 195⟩]⟩,
   ⟨196, [⟨0, 61, [], 196⟩, ⟨62, 62, [], 197⟩, ⟨63, 255, [], 196⟩]⟩,
   ⟨197, [⟨0, 0, [.xml, .done], 349⟩, ⟨1, 61, [], 196⟩, ⟨62, 62, [], 197⟩, ⟨63, 255, [], 196⟩]⟩,
   ⟨198, moreDelims r [] 202 ++ [⟨32, 32, [.request_path], 199⟩, ⟨33, 33, [], 202⟩,
       ⟨36, 36, [], 202⟩, ⟨37, 37, [], 203⟩, ⟨38, 46, [], 202⟩, ⟨47, 47, [], 208⟩,
       ⟨48, 57, [], 202⟩, ⟨59, 59, [], 202⟩, ⟨61, 61, [], 202⟩, ⟨64, 90, [], 202⟩,
       ⟨95, 95, [], 202⟩, ⟨97, 122, [], 202⟩, ⟨126, 126, [], 202⟩]⟩,
   ⟨199, [⟨123, 123, [.mark], 200⟩]⟩,
   ⟨200, [⟨0, 124, [], 200⟩, ⟨125, 125, [], 201⟩, ⟨126, 255, [], 200⟩]⟩,
   ⟨201, [⟨0, 0, [.json, .done], 349⟩, ⟨1, 124, [], 200⟩, ⟨125, 125, [], 201⟩,
       ⟨126, 255, [], 200⟩]⟩,
   ⟨202, moreDelims r [] 202 ++ [⟨32, 32, [.request_path], 199⟩, ⟨33, 33, [], 202⟩,
       ⟨36, 36, [], 202⟩, ⟨37, 37, [], 203⟩, ⟨38, 46, [], 202⟩, ⟨47, 47, [], 205⟩,
       ⟨48, 57, [], 202⟩, ⟨59, 59, [], 202⟩, ⟨61, 61, [], 202⟩, ⟨64, 90, [], 202⟩,
       ⟨95, 95, [], 202⟩, ⟨97, 122, [], 202⟩, ⟨126, 126, [], 202⟩]⟩,
   ⟨203, hexDigits [] 204⟩,
   ⟨204, hexDigits [] 202⟩,
   ⟨205, moreDelims r [] 205 ++ [⟨32, 32, [.request_path], 199⟩, ⟨33, 33, [], 205⟩,
       ⟨36, 36, [], 205⟩, ⟨37, 37, [], 206⟩, ⟨38, 59, [], 205⟩, ⟨61, 61, [], 205⟩,
       ⟨64, 90, [], 205⟩, ⟨95, 95, [], 205⟩, ⟨97, 122, [], 205⟩, ⟨126, 126, [], 205⟩]⟩,
   ⟨206, hexDigits [] 207⟩,
   ⟨207, hexDigits [] 205⟩,
   ⟨208, moreDelims r [] 205 ++ [⟨32, 32, [.request_path], 199⟩, ⟨33, 33, [], 205⟩,
       ⟨36, 36, [], 205⟩, ⟨37, 37, [], 206⟩, ⟨38, 46, [], 205⟩, ⟨47, 47, [], 209⟩,
       ⟨48, 59, [], 205⟩, ⟨61, 61, [], 205⟩, ⟨64, 90, [], 205⟩, ⟨95, 95, [], 205⟩,
       ⟨97, 122, [], 205⟩, ⟨126, 126, [], 205⟩]⟩,
   ⟨209, moreDelims r [] 210 ++ [⟨32, 32, [.request_path], 199⟩, ⟨33, 33, [], 210⟩,
       ⟨36, 36, [], 210⟩, ⟨37, 37, [], 211⟩, ⟨38, 46, [], 210⟩, ⟨47, 47, [], 205⟩,
       ⟨48, 57, [], 210⟩, ⟨58, 58, [], 213⟩, ⟨59, 59, [], 210⟩, ⟨61, 61, [], 210⟩,
       ⟨64, 64, [], 217⟩, ⟨65, 90, [], 210⟩, ⟨91, 91, [], 222⟩, ⟨95, 95, [], 210⟩,
       ⟨97, 122, [], 210⟩, ⟨126, 126, [], 210⟩]⟩,
   ⟨210, moreDelims r [] 210 ++ [⟨32, 32, [.request_path], 199⟩, ⟨33, 33, [], 210⟩,
       ⟨36, 36, [], 210⟩, ⟨37, 37, [], 211⟩, ⟨38, 46, [], 210⟩, ⟨47, 47, [], 205⟩,
       ⟨48, 57, [], 210⟩, ⟨58, 58, [], 213⟩, ⟨59, 59, [], 210⟩, ⟨61, 61, [], 210⟩,
       ⟨64, 64, [], 217⟩, ⟨65, 90, [], 210⟩, ⟨95, 95, [], 210⟩, ⟨97, 122, [], 210⟩,
       ⟨126, 126, [], 210⟩]⟩,
   ⟨211, hexDigits [] 212⟩,
   ⟨212, hexDigits [] 210⟩,
   ⟨213, moreDelims r [] 214 ++ [⟨32, 32, [.request_path], 199⟩, ⟨33, 33, [], 214⟩,
       ⟨36, 36, [], 214⟩, ⟨37, 37, [], 215⟩, ⟨38, 46, [], 214⟩, ⟨47, 47, [], 205⟩,
       ⟨48, 57, [], 213⟩, ⟨58, 59, [], 214⟩, ⟨61, 61, [], 214⟩, ⟨64, 64, [], 217⟩,
       ⟨65, 90, [], 214⟩, ⟨95, 95, [], 214⟩, ⟨97, 122, [], 214⟩, ⟨126, 126, [], 214⟩]⟩,
   ⟨214, moreDelims r [] 214 ++ [⟨33, 33, [], 214⟩, ⟨36, 36, [], 214⟩, ⟨37, 37, [], 215⟩,
       ⟨38, 46, [], 214⟩, ⟨48, 59, [], 214⟩, ⟨61, 61, [], 214⟩, ⟨64, 64, [], 217⟩,
       ⟨65, 90, [], 214⟩, ⟨95, 95, [], 214⟩, ⟨97, 122, [], 214⟩, ⟨126, 126, [], 214⟩]⟩,
   ⟨215, hexDigits [] 216⟩,
   ⟨216, hexDigits [] 214⟩,
   ⟨217, moreDelims r [] 218 ++ [⟨32, 32, [.request_path], 199⟩, ⟨33, 33, [], 218⟩,
       ⟨36, 36, [], 218⟩, ⟨37, 37, [], 219⟩, ⟨38, 46, [], 218⟩, ⟨47, 47, [], 205⟩,
       ⟨48, 57, [], 218⟩, ⟨58, 58, [], 221⟩, ⟨59, 59, [], 218⟩, ⟨61, 61, [], 218⟩,
       ⟨65, 90, [], 218⟩, ⟨91, 91, [], 222⟩, ⟨95, 95, [], 218⟩, ⟨97, 122, [], 218⟩,
       ⟨126, 126, [], 218⟩]⟩,
   ⟨218, moreDelims r [] 218 ++ [⟨32, 32, [.request_path], 199⟩, ⟨33, 33, [], 218⟩,
       ⟨36, 36, [], 218⟩, ⟨37, 37, [], 219⟩, ⟨38, 46, [], 218⟩, ⟨47, 47, [], 205⟩,
       ⟨48, 57, [], 218⟩, ⟨58, 58, [], 221⟩, ⟨59, 59, [], 218⟩, ⟨61, 61, [], 218⟩,
       ⟨65, 90, [], 218⟩, ⟨95, 95, [], 218⟩, ⟨97, 122, [], 218⟩, ⟨126, 126, [], 218⟩]⟩,
   ⟨219, hexDigits [] 220⟩,
   ⟨220, hexDigits [] 218⟩,
   ⟨221, [⟨32, 32, [.request_path], 199⟩, ⟨47, 47, [], 205⟩, ⟨48, 57, [], 221⟩]⟩,
   ⟨236, [⟨32, 32, [.request_path], 199⟩, ⟨47, 47, [], 205⟩, ⟨58, 58, [], 221⟩]⟩]

/-- The final states. -/
def finalStates : Table Action :=
  [⟨348, [⟨1, 8, [], 14⟩, ⟨10, 31, [], 14⟩, ⟨33, 33, [], 14⟩, ⟨35, 39, [], 14⟩, ⟨42, 43, [], 14⟩,
       ⟨45, 46, [], 14⟩, ⟨48, 57, [], 14⟩, ⟨58, 58, [.write_field], 15⟩, ⟨65, 90, [], 14⟩,
       ⟨94, 122, [], 14⟩, ⟨124, 124, [], 14⟩, ⟨126, 126, [], 14⟩]⟩,
   ⟨349, []⟩]

end RequestTable

open RequestTable in
/-- All states.  The request over a socket has an address of its own, with other numbers. -/
def http_parser_table (uri_relaxed : Bool) : Table Action :=
  requestLine uri_relaxed ++ pathAndQuery uri_relaxed ++ authority uri_relaxed ++
    addressLiteral uri_relaxed 0 ++ schemeAndMethod uri_relaxed ++ socketRequests uri_relaxed ++
    addressLiteral uri_relaxed 175 ++ finalStates

/-- A check of the edges, for both tables. -/
theorem of_both_checks {p : Nat → Edge Action → Bool}
    (h : ∀ r, (http_parser_table r).checks p = true) (r : Bool) {cs cs' : Nat} {b : UInt8}
    {acts : List Action} (hstep : (http_parser_table r).step cs b = some (acts, cs')) :
    ∃ e : Edge Action, e.covers b = true ∧ p cs e = true ∧ e.acts = acts ∧ e.next = cs' :=
  Table.of_checks (h r) hstep

theorem done_checked : ∀ r, (http_parser_table r).checks (fun _ e =>
    decide (Action.done ∈ e.acts) == decide (http_parser_first_final ≤ e.next)) = true := by
  decide +kernel

/-- The compiled parser. -/
def requestMachine (uri_relaxed : Bool) : Machine where
  step := (http_parser_table uri_relaxed).step
  done_iff := by
    intro cs b acts cs' hstep
    obtain ⟨e, -, hp, rfl, rfl⟩ := of_both_checks done_checked uri_relaxed hstep
    exact decide_eq_decide.mp (beq_iff_eq.mp hp)

/-- An environment with it. -/
def compiledEnv : Env (List (Bytes × Bytes)) where
  machine := requestMachine false
  map := OrderedMap.assoc Bytes Bytes CaseInsensitiveLess
  lexical_cast := castDecimal
  heap := 1048576
  query_start := 0

end Muqiu.Http
