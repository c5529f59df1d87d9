import Lidas.Http.Attrihash
import Lidas.Http.Crc32

/-!
# The request parser of `http_parser.c`

`http_parser` tokenizes the request in place with `strtok_r`, under delimiter sets that
change on the way, and enters the header lines into a hash table of 29 buckets. The model
follows it call by call on a `Block`: tokens are offsets into the block, the block itself
changes, and the save pointer `toklist` is peeked at (`*(toklist+1)`) to find the blank line
and the end of the text. The memory that `mem_pool_alloc` returns for the request and the
table is zeroed and disjoint from the text, so it is a value apart.

`Parsed.calls` logs the calls of `hash_set`, with the text as it was at each call.
-/

namespace Lidas

open CString

abbrev sp : UInt8 := 32
abbrev cr : UInt8 := 13
abbrev lf : UInt8 := 10
abbrev colon : UInt8 := 58

/-- `method_lst`. -/
def methodLst : List (List UInt8) :=
  ["GET", "HEAD", "POST", "PUT", "DELETE", "TRACE", "CONNECT", "OPTIONS"].map ascii

/-- The strings that `protocal_test` compares with. -/
def protocalLst : List (List UInt8) := ["HTTP/1.1", "HTTP/1.0"].map ascii

/-- `strcmp` of a token with each of a list of strings: is it equal to one of them? -/
def strcmpAny (b : Block) (p : Option ℕ) (strs : List (List UInt8)) : Except Fault Bool := do
  let s ← cstr b (← deref p)
  return strs.contains s

/-- `method_test`; `true` is `TRUE`, `false` is `-1`. -/
def methodTest (b : Block) (m : Option ℕ) : Except Fault Bool := strcmpAny b m methodLst

/-- `protocal_test`; `true` is `TRUE`, `false` is `-1`. -/
def protocalTest (b : Block) (p : Option ℕ) : Except Fault Bool := strcmpAny b p protocalLst

/-- The loop of `lida_breakline`: every CR and LF up to the terminator becomes `'\0'`. -/
def breakline : List UInt8 → Except Fault (List UInt8)
  | [] => .error .outOfBounds
  | c :: cs =>
    if c = 0 then .ok (c :: cs)
    else (breakline cs).map ((if c = cr ∨ c = lf then 0 else c) :: ·)

/-- `lida_breakline`. -/
def lidaBreakline (b : Block) (p : ℕ) : Except Fault Block :=
  (breakline (b.drop p)).map (b.take p ++ ·)

/-- The number of buckets of a request's table, `list_siz`. -/
def listSiz : ℕ := 29

/-- `struct http_request_t`. -/
structure HttpRequest where
  method : Option ℕ
  url : Option ℕ
  protocal : Option ℕ
  list : AttriTable ℕ ℕ
  offset : ℕ
  requestBody : ℕ

/-- A call `hash_set (key, content, …)` and the text at that moment. -/
structure HeaderCall where
  key : ℕ
  content : ℕ
  text : Block

/-- The state of the header loop. -/
structure HeaderState where
  text : Block
  toklist : Option ℕ
  list : AttriTable ℕ ℕ
  calls : List HeaderCall

/-- What the header loop ends with: `found` when the blank line was met, otherwise the
function returned `NULL` from inside the loop. -/
structure HeaderExit where
  found : Bool
  state : HeaderState

/-- `*(toklist+1)`. -/
def peek (b : Block) (toklist : Option ℕ) : Except Fault UInt8 := do
  byteAt b ((← deref toklist) + 1)

/-- One round of the header loop, from `strtok_r (NULL, ": ", &toklist)` to `hash_set`. -/
def headerRound (s : HeaderState) : Except Fault HeaderState := do
  let capture ← strtokR s.text s.toklist [colon, sp]
  let contentCap ← strtokR capture.text capture.save [lf]
  -- while (*content_cap == ' ') content_cap++
  let p ← deref contentCap.token
  let content := p + (← strspn contentCap.text p [sp])
  let text ← lidaBreakline contentCap.text content
  let key ← deref capture.token
  let list ← hashSet s.list key content (crc32Port (← cstr text key) listSiz)
  return { text := text
           toklist := contentCap.save
           list := list
           calls := s.calls ++ [{ key := key, content := content, text := text }] }

/-- `while (*(toklist+1) != '\n')`, within at most the given number of rounds. -/
def headerLoop : ℕ → HeaderState → Except Fault HeaderExit
  | fuel, s => do
    if (← peek s.text s.toklist) = lf then
      return { found := true, state := s }
    match fuel with
    | 0 => .error .diverges
    | fuel + 1 =>
      let s' ← headerRound s
      if (← peek s'.text s'.toklist) = 0 then
        return { found := false, state := s' }
      headerLoop fuel s'

/-- What `http_parser` leaves: its result, the text, and the calls of `hash_set` it made. -/
structure Parsed where
  request : Option HttpRequest
  text : Block
  calls : List HeaderCall

/-- `return NULL` before the header loop. -/
def Parsed.null (b : Block) : Parsed := { request := none, text := b, calls := [] }

/-- `http_parser` from its header loop on, once the protocol is known to be good. -/
def parseRest (fuel : ℕ) (method url protocal : Option ℕ) (b : Block) (toklist : Option ℕ) :
    Except Fault Parsed := do
  let l ← headerLoop fuel
    { text := b, toklist := toklist, list := AttriTable.empty listSiz, calls := [] }
  if !l.found then
    return { request := none, text := l.state.text, calls := l.state.calls }
  let body := (← deref l.state.toklist) + 2
  return { request := some
             { method := method, url := url, protocal := protocal
               list := l.state.list, offset := ← strlen l.state.text body, requestBody := body }
           text := l.state.text
           calls := l.state.calls }

/-- `http_parser` from the reading of the protocol on. -/
def parseProtocal (fuel : ℕ) (method url : Option ℕ) (b : Block) (toklist : Option ℕ) :
    Except Fault Parsed := do
  let protocal ← strtokR b toklist [cr, lf]
  if !(← protocalTest protocal.text protocal.token) then
    return Parsed.null protocal.text
  parseRest fuel method url protocal.token protocal.text protocal.save

/-- `http_parser` from the reading of the URL on. -/
def parseUrl (fuel : ℕ) (method : Option ℕ) (b : Block) (toklist : Option ℕ) :
    Except Fault Parsed := do
  let url ← strtokR b toklist [sp]
  if url.save = none then
    return Parsed.null url.text
  parseProtocal fuel method url.token url.text url.save

/-- `http_parser` on the text `h`; the header loop takes at most a round for each byte. -/
def httpParser (h : Block) : Except Fault Parsed := do
  let _size ← strlen h 0
  let method ← strtokR h (some 0) [sp]
  if !(← methodTest method.text method.token) then
    return Parsed.null method.text
  parseUrl h.length method.token method.text method.save

/-- `http_response_parser` up to its `atoi`: the string the status is read from. -/
def httpResponseParser (ptr : Block) : Except Fault (List UInt8) := do
  let first ← strtokR ptr (some 0) [sp]
  let status ← strtokR first.text first.save [sp]
  cstr status.text (← deref status.token)

end Lidas
