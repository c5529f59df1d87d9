import Lidas.Lib.Decimal
import Lidas.Log
import Lidas.Send.Header
import Mathlib.Data.PNat.Basic

/-!
# The sending loops of `snd.c`

`post_loop` sends a buffer, `stream_to_socket` a file, page by page, and `post_file` answers
a request with a file. The outcomes of `write` are an input: a list that a run consumes. A
run that comes to the end of the list is still inside a call of `write`.

`post_loop` keeps the result of `write` in a `size_t`, so an error is the number `2^64 - 1`,
which is not negative: neither the wait for `EAGAIN` nor `return -1` is ever reached, and the
pointer and the rest move by that number. Pointers into the buffer are 64-bit offsets from
its start, and taking bytes outside the buffer is a fault.

`post_file` formats the length through `s.content_length`, which was never set, and `post_header`
formats the header into a buffer that is 11 bytes too short for it. Both go well only where the
memory that they write to is spare.
-/

namespace Lidas

open CString (decimal)

/-- The outcome of a call of `write`: a number of bytes, as far as they are offered, or `-1`.
The field of an error is what `thread_event_wait` would return if it were asked to wait. -/
inductive WriteRes where
  | ok (n : ℕ+)
  | err (wait : ℕ)
  deriving DecidableEq

/-- The number of bytes taken when `rest` bytes are offered. -/
def WriteRes.taken (rest : UInt64) : WriteRes → ℕ
  | .ok n => min (n : ℕ) rest.toNat
  | .err _ => 0

/-- The value of `cur = write (fd, p, rest)`. -/
def WriteRes.cur (rest : UInt64) : WriteRes → UInt64
  | .ok n => UInt64.ofNat (min (n : ℕ) rest.toNat)
  | .err _ => -1

/-- What `thread_event_wait` returns in the branch of `EAGAIN`. -/
def WriteRes.wait : WriteRes → ℕ
  | .ok _ => 0
  | .err w => w

/-- `EAGAIN`. -/
def eagain : UInt64 := 11

/-- The bytes a call of `write` takes from offset `p` of the buffer. -/
def taken (data : Block) (p : UInt64) (n : ℕ) : Except Fault (List UInt8) :=
  if n = 0 then .ok []
  else if p.toNat + n ≤ data.length then .ok ((data.drop p.toNat).take n)
  else .error .outOfBounds

/-- What a run of `post_loop` has done: the bytes sent, the outcomes not consumed, and the
value returned; `none` is a run inside `write`. -/
structure Posted where
  sent : List UInt8
  left : List WriteRes
  ret : Option ℤ
  deriving DecidableEq

/-- The loop of `post_loop` on the buffer `data`, at offset `p` with `rest` bytes to go. -/
def postLoop (data : Block) : List WriteRes → UInt64 → UInt64 → Except Fault Posted
  | [], _, _ => return { sent := [], left := [], ret := none }
  | w :: ws, p, rest => do
    let cur := w.cur rest
    let bytes ← taken data p (w.taken rest)
    if cur = 0 then
      return { sent := bytes, left := ws, ret := some 0 }
    if cur < 0 then
      if cur = eagain then
        if w.wait ≠ 0 then
          return { sent := bytes, left := ws, ret := some (-1) }
        let r ← postLoop data ws p rest
        return { r with sent := bytes ++ r.sent }
      return { sent := bytes, left := ws, ret := some (-1) }
    if rest - cur = 0 then
      return { sent := bytes, left := ws, ret := some 0 }
    let r ← postLoop data ws (p + cur) (rest - cur)
    return { r with sent := bytes ++ r.sent }

/-- What a run of `stream_to_socket` has done; `finished` says that it is not inside `write`.
The function has no value to return. -/
structure Streamed where
  sent : List UInt8
  errors : List ℕ
  left : List WriteRes
  finished : Bool
  deriving DecidableEq

/-- The loop of `stream_to_socket`. `fread (buf, PAGE_SIZ, 1, fp)` returns the number of
complete pages read, `0` or `1`, and that number is the size given to `post_loop`. -/
def streamLoop (file : List UInt8) (ws : List WriteRes) : Except Fault Streamed :=
  if pageSiz ≤ file.length then do
    let r ← postLoop (file.take pageSiz) ws 0 1
    match r.ret with
    | none => return { sent := r.sent, errors := [], left := r.left, finished := false }
    | some ret =>
      if ret < 0 then
        -- error_post (fd, 503)
        return { sent := r.sent, errors := [503], left := r.left, finished := true }
      let t ← streamLoop (file.drop pageSiz) r.left
      return { t with sent := r.sent ++ t.sent }
  else
    return { sent := [], errors := [], left := ws, finished := true }
termination_by file.length
decreasing_by simp [pageSiz] at *; omega

/-- `stream_to_socket`; `rewind` uses the stream. -/
def streamToSocket (fp : Option (List UInt8)) (ws : List WriteRes) : Except Fault Streamed :=
  match fp with
  | none => .error .nullDeref
  | some file => streamLoop file ws

/-- A file as `fopen` finds it, and whether `stat` succeeds on its path. -/
structure FileOnDisk where
  content : List UInt8
  stat : Bool

/-- What `post_file` has sent: the statuses given to `error_post`, the bytes of the header,
the announced length and the bytes of the body. -/
structure Served where
  errors : List ℕ
  head : List UInt8
  contentLength : Option ℕ
  body : List UInt8
  deriving DecidableEq

/-- What `post_file` meets in memory: the pool of the connection, and whether it has a log; the
value of `s.content_length`, which is not set, the address of `header`, and the addresses that can
be written to without harm; the strings that `getime` and `ctime` make, and what is on the stack
behind the header. -/
structure PostMemory where
  pool : MemPool
  log : Bool
  contentLength : ℕ
  header : ℕ
  spare : ℕ → Bool
  date : List UInt8
  mtime : List UInt8
  stack : List UInt8

namespace PostMemory

variable (m : PostMemory)

/-- The bytes from `a` on can be written to without harm. -/
def Spare (a n : ℕ) : Prop := ∀ i < n, m.spare (a + i) = true

/-- Write to bytes that were not allocated for it. -/
def overwrite (a n : ℕ) : Except Fault Unit :=
  if ∀ i < n, m.spare (a + i) = true then .ok () else .error .outOfBounds

/-- The `struct http_response_h` of a file, for its type and its size. -/
def response (type : List UInt8) (size : ℕ) : HttpResponseH where
  version := ascii "HTTP/1.1"
  status := ascii "200 OK"
  contentType := type
  contentLength := decimal size
  date := m.date
  mtime := m.mtime

/-- `post_header` up to its call of `write`: the bytes that are passed to it. -/
def postHeader (r : HttpResponseH) : Except Fault (List UInt8) := do
  -- the end of the text and its terminator are behind `header`
  m.overwrite (m.header + r.len) (r.text.length + 1 - r.len)
  return r.passed m.stack

end PostMemory

/-- `post_file` from the call of `write` in `post_header` on. -/
def sendFile (content method header : List UInt8) (ws : List WriteRes) : Except Fault Served :=
  let length := some content.length
  match ws with
  | [] => return { errors := [], head := [], contentLength := length, body := [] }
  | .err _ :: _ => return { errors := [], head := [], contentLength := length, body := [] }
  | .ok n :: ws => do
    let head := header.take (n : ℕ)
    if method = ascii "HEAD" then
      return { errors := [], head := head, contentLength := length, body := [] }
    let s ← streamToSocket (some content) ws
    return { errors := s.errors, head := head, contentLength := length, body := s.sent }

/-- `post_file`. -/
def postFile (type : Option (List UInt8)) (file : Option FileOnDisk) (method : List UInt8)
    (m : PostMemory) (ws : List WriteRes) : Except Fault Served :=
  match file with
  | none => return { errors := [404], head := [], contentLength := none, body := [] }
  | some f => do
    if f.stat = false then
      let _ ← errLogPool m.log (ascii "stat") m.pool
      return { errors := [503], head := [], contentLength := none, body := [] }
    -- sprintf (s.content_length, "%ld", statbuf.st_size)
    m.overwrite m.contentLength ((decimal f.content.length).length + 1)
    -- s.date = mem_pool_alloc (30, fd)
    let _ ← memPoolAlloc 30 m.pool
    match type with
    -- `strlen (r->content_type)`
    | none => throw .nullDeref
    | some type =>
      let header ← m.postHeader (m.response type f.content.length)
      sendFile f.content method header ws

end Lidas
