import Lidas.Http.RequestLine
import Lidas.Lib.Decimal
import Lidas.Log
import Lidas.Send.MutePost

/-!
# What a client gets of the answer of a backend

`proxy_to_client` reads up to 8192 bytes, copies them into the memory pool, and the first 50 of them
onto the stack, where `http_response_parser` looks for the status. An answer of status 200 is
relayed, any other one is dropped and the request is posted again. A pool region is no longer than
what was read, so that behind a short answer there is what the memory has.

For an answer that begins with a status line the outcome depends neither on how the network splits
it nor on what is on the stack or behind the copy. But the pool has to serve the copy: where no page
has room for it, `mem_pool_alloc` follows `NULL` (`Relay.filtered`).
-/

namespace Lidas

open CString

/-! ### The code -/

namespace IoRes

/-- The number of bytes that `read (obj->pfd, ptr, rest)` delivers, if there are `left` to come. -/
def delivered (rest : UInt64) (left : ℕ) : IoRes ℕ+ → ℕ
  | ok k => min (min k rest.toNat) left
  | err _ _ => 0

/-- Its value. -/
def received (rest : UInt64) (left : ℕ) (r : IoRes ℕ+) : UInt64 :=
  match r with
  | ok _ => UInt64.ofNat (r.delivered rest left)
  | err _ _ => -1

end IoRes

/-- How the first loop of `proxy_to_client` ends: inside `read`, left, by the jump to `CLEAN`, or
with `return (-1)`. -/
inductive Recv where
  | inside
  | left (head : Block) (rest : UInt64)
  | clean
  | failed

/-- The bytes that `read` puts at an offset of the block. -/
def putAt (head : Block) (ptr : ℕ) (b : List UInt8) : Except Fault Block :=
  if ptr + b.length ≤ head.length then .ok (head.take ptr ++ b ++ head.drop (ptr + b.length))
  else .error .outOfBounds

/-- The first loop of `proxy_to_client`: `left` is what the backend has still to send until it
closes the connection. -/
def recvLoop : List (IoRes ℕ+) → List UInt8 → Block → UInt64 → UInt64 → Except Fault Recv
  | [], _, _, _, _ => return .inside
  | r :: rs, left, head, ptr, rest => do
    let n := r.delivered rest left.length
    let bufSiz := r.received rest left.length
    let head ← putAt head ptr.toNat (left.take n)
    if bufSiz = 0 then
      return .left head rest
    if bufSiz < 0 then
      if bufSiz = eagain then
        if r.wait ≠ 0 then
          return .clean
        return .failed
      return .failed
    let ptr ← movePtr head ptr bufSiz
    if rest - bufSiz = 0 then
      return .left head (rest - bufSiz)
    recvLoop rs (left.drop n) head ptr (rest - bufSiz)

/-- A call of `proxy_to_client`: the outcomes of `read` in the first loop, what the backend sends
until it closes the connection, what `malloc` has left in the 8192 bytes, what is in memory behind
the copy, `tmp_pool`, whether the event is deleted at `CLEAN`, and what `proxy_mute_post` is given
besides. -/
structure Relay where
  reads : List (IoRes ℕ+)
  answer : List UInt8
  head : Block
  behind : Block
  stack : Block
  deleted : Bool
  buf : Block
  more : List (IoRes PageBytes)
  writes : List (IoRes ℕ+)
  head_length : head.length = 8192
  stack_length : stack.length = 2 * pageSiz

/-- What becomes of the call: it is inside `read`, it has posted the request again, it has failed
without, or it has been in `proxy_mute_post`. -/
inductive ToClient where
  | inside
  | posted
  | failed
  | muted (m : Muted)

/-- What the client has got. -/
def ToClient.sent : ToClient → List UInt8
  | .muted m => m.sent
  | _ => []

namespace Relay

variable (c : Relay)

/-- The label `CLEAN`. -/
def clean : ToClient := if c.deleted then .posted else .failed

/-- `proxy_to_client`, with memory of its own for the copy. -/
def proxyToClient : Except Fault ToClient := do
  match ← recvLoop c.reads c.answer c.head 0 8192 with
  | .inside => return .inside
  | .clean => return c.clean
  | .failed => return .failed
  | .left head rest =>
    let ptr := head.take (8192 - rest).toNat ++ c.behind
    -- memcpy (addr, ptr, 50)
    if ptr.length < 50 then .error .outOfBounds
    let status ← httpResponseParser (ptr.take 50 ++ c.stack.drop 50)
    if atoi status = 200 then
      return .muted (← proxyMutePost ptr c.buf c.more c.writes)
    else return c.clean

/-- The label `CLEAN`, with the pool that `err_log` puts its message into. -/
def cleanIn (log : Bool) (pool : MemPool) : Except Fault ToClient := do
  if !c.deleted then
    let _ ← errLogPool log (ascii "epoll_ctl") pool
  return c.clean

/-- `proxy_to_client`, for a connection with the given pool. -/
def proxyToClientIn (log : Bool) (pool : MemPool) : Except Fault ToClient := do
  match ← recvLoop c.reads c.answer c.head 0 8192 with
  | .inside => return .inside
  | .clean => c.cleanIn log pool
  | .failed => return .failed
  | .left head rest =>
    -- a large copy is entered by `mem_pool_add`
    let (_, pool) ← memPoolAlloc (8192 - rest).toNat pool
    let ptr := head.take (8192 - rest).toNat ++ c.behind
    if ptr.length < 50 then .error .outOfBounds
    let status ← httpResponseParser (ptr.take 50 ++ c.stack.drop 50)
    if atoi status = 200 then
      return .muted (← proxyMutePost ptr c.buf c.more c.writes)
    else c.cleanIn log pool

end Relay

/-! ### Reading -/

section Reading

variable {head done left : List UInt8}

/-- A write that fits into the array. -/
theorem putAt_ok {ptr : ℕ} {b : List UInt8} (h : ptr + b.length ≤ head.length) :
    putAt head ptr b = .ok (head.take ptr ++ b ++ head.drop (ptr + b.length)) := if_pos h

/-- Without an error the loop goes on to the end of the block or of the answer, however this is
split. -/
theorem recvLoop_ok (ks : List ℕ+) {ptr rest : UInt64} (hhead : head.length = 8192)
    (hdone : head.take done.length = done) (hptr : ptr.toNat = done.length)
    (hrest : rest.toNat = 8192 - done.length) (hlt : done.length < 8192) :
    recvLoop (ks.map .ok) left head ptr rest = .ok .inside ∨
      ∃ head' rest', recvLoop (ks.map .ok) left head ptr rest = .ok (.left head' rest') ∧
        head'.take (8192 - rest').toNat = (done ++ left).take 8192 ∧
        (8192 - rest').toNat = ((done ++ left).take 8192).length := by
  induction ks generalizing head done left ptr rest with
  | nil => exact .inl rfl
  | cons k ks ih =>
    obtain ⟨n, hn⟩ : ∃ n, n = min (min (k : ℕ) rest.toNat) left.length := ⟨_, rfl⟩
    have hnrest : n ≤ rest.toNat := by omega
    have hnleft : n ≤ left.length := by omega
    have hlength : (left.take n).length = n := List.length_take_of_le hnleft
    have hfits : ptr.toNat + (left.take n).length ≤ head.length := by omega
    have hsiz : (UInt64.ofNat n).toNat = n := toNat_ofNat_of_le hnrest
    -- the block with what has arrived
    have hput := putAt_ok hfits
    rw [hptr, hdone, hlength] at hput
    set head₁ := done ++ left.take n ++ head.drop (done.length + n) with hhead₁
    have hdone₁ : head₁.take (done ++ left.take n).length = done ++ left.take n :=
      List.take_left' rfl
    have hlength₁ : (done ++ left.take n).length = done.length + n := by
      rw [List.length_append, hlength]
    have hhead₁' : head₁.length = 8192 := by
      rw [hhead₁, List.length_append, hlength₁, List.length_drop]
      omega
    rw [List.map_cons, recvLoop]
    simp only [IoRes.received, IoRes.delivered, ← hn, hptr, hput, ok_bind]
    by_cases hzero : UInt64.ofNat n = 0
    · -- the end of the answer
      have hn0 : n = 0 := by rw [← hsiz, hzero, UInt64.toNat_zero]
      have hnil : left = [] := by
        have hk := k.pos
        exact List.eq_nil_of_length_eq_zero (by omega)
      right
      refine ⟨head₁, rest, by rw [if_pos hzero]; rfl, ?_⟩
      have hsub : (8192 - rest).toNat = done.length := by
        have h8192 : (8192 : UInt64).toNat = 8192 := rfl
        rw [UInt64.toNat_sub_of_le _ _ (UInt64.le_iff_toNat_le.mpr (by omega)), h8192]
        omega
      rw [hnil, List.append_nil, List.take_of_length_le hlt.le, hsub, hhead₁, List.append_assoc,
        List.take_left' rfl]
      exact ⟨rfl, rfl⟩
    · have hmove : movePtr head₁ ptr (UInt64.ofNat n) = .ok (ptr + UInt64.ofNat n) := by
        rw [movePtr, if_pos]
        rw [toNat_add_ofNat (by omega), hhead₁']
        omega
      have hrest₁ : (rest - UInt64.ofNat n).toNat = 8192 - (done ++ left.take n).length := by
        rw [toNat_sub_ofNat hnrest, hlength₁]
        omega
      rw [if_neg hzero, if_neg (UInt64.not_lt_zero), hmove, ok_bind]
      have hsplit : done ++ left = done ++ left.take n ++ left.drop n := by
        rw [List.append_assoc, List.take_append_drop]
      by_cases hfull : rest - UInt64.ofNat n = 0
      · -- the block is full
        right
        refine ⟨head₁, rest - UInt64.ofNat n, by rw [if_pos hfull]; rfl, ?_⟩
        have hfull' : (done ++ left.take n).length = 8192 := by
          rw [hfull, UInt64.toNat_zero] at hrest₁
          omega
        rw [hfull, hsplit, List.take_left' hfull', hfull']
        exact ⟨by rw [← hdone₁, hfull']; rfl, rfl⟩
      · have hpos := (ne_zero_iff_toNat _).mp hfull
        rw [if_neg hfull, hsplit]
        refine ih hhead₁' hdone₁ ?_ hrest₁ (by omega)
        rw [toNat_add_ofNat (by omega), hlength₁, hptr]

end Reading

/-! ### The status line -/

/-- What an answer begins with: the version, a space, the status and a space. They are among the
bytes that are copied onto the stack. -/
structure StatusLine where
  version : List UInt8
  digits : List UInt8
  status : ℕ
  version_ne_nil : version ≠ []
  word : ∀ b ∈ version, b ≠ 0 ∧ b ≠ sp
  numeral : Numeral digits status
  status_lt : status < 2 ^ 31
  length_le : version.length + digits.length + 2 ≤ 50

namespace StatusLine

variable (l : StatusLine)

def text : List UInt8 := l.version ++ sp :: (l.digits ++ [sp])

/-- The bytes of a status line. -/
theorem length_text : l.text.length = l.version.length + l.digits.length + 2 := by
  rw [text, List.length_append, List.length_cons, List.length_append, List.length_singleton]
  omega

/-- The version is the first token. -/
theorem versionSplit : TokenSplit [sp] [] l.version sp where
  skipped := by simp
  nonempty := l.version_ne_nil
  token := fun b hb => by simpa using l.word b hb
  stop := by simp

/-- The digits are the second one. -/
theorem digitsSplit : TokenSplit [sp] [] l.digits sp where
  skipped := by simp
  nonempty := l.numeral.ne_nil
  token := fun b hb => by
    have hdigit := l.numeral.digits b hb
    constructor
    · rintro rfl
      exact absurd hdigit (by decide)
    · rintro hmem
      rw [List.mem_singleton.mp hmem] at hdigit
      exact absurd hdigit (by decide)
  stop := by simp

/-- What is cut off behind the first 50 bytes leaves the line as it is. -/
theorem take_text_append {n : ℕ} (hn : 50 ≤ n) (x : List UInt8) :
    (l.text ++ x).take n = l.text ++ x.take (n - l.text.length) := by
  have hle := l.length_le
  rw [List.take_append, List.take_of_length_le (by rw [l.length_text]; omega)]

/-- The status is read, whatever follows. -/
theorem httpResponseParser_text (post : List UInt8) :
    httpResponseParser (l.text ++ post) = .ok l.digits := by
  have hfirst := strtokR_delim [] (l.digits ++ sp :: post) l.versionSplit (by decide)
  have hsecond := strtokR_token (l.version ++ [0]) post l.digitsSplit
  have hcstr := cstr_token (l.version ++ [0]) l.digitsSplit post
  have htext : l.text ++ post = l.version ++ sp :: (l.digits ++ sp :: post) := by simp [text]
  simp only [List.nil_append, List.length_nil] at hfirst hsecond hcstr
  rw [httpResponseParser, htext, hfirst, ok_bind]
  dsimp only
  rw [hsecond, ok_bind]
  exact hcstr

end StatusLine

theorem ascii_http11 : ascii "HTTP/1.1" = [72, 84, 84, 80, 47, 49, 46, 49] := by decide

theorem http11_ne_nil : ascii "HTTP/1.1" ≠ [] := by decide

theorem http11_word : ∀ b ∈ ascii "HTTP/1.1", b ≠ 0 ∧ b ≠ sp := by
  rw [ascii_http11]
  simp [sp]

theorem ascii_200 : ascii "200" = [50, 48, 48] := by decide

/-- The digits of 200 are read as 200. -/
theorem numeral_200 : Numeral (ascii "200") 200 := by
  rw [ascii_200]
  exact ⟨by simp, by simp [isDigit], by rfl⟩

/-- The header of `post_file` begins with this one. -/
def fileLine : StatusLine where
  version := ascii "HTTP/1.1"
  digits := ascii "200"
  status := 200
  version_ne_nil := http11_ne_nil
  word := http11_word
  numeral := numeral_200
  status_lt := by decide
  length_le := by decide

namespace Relay

variable (c : Relay) (l : StatusLine)

/-- The call has read the answer, or as much of it as the block holds. -/
structure Received (head : Block) (rest : UInt64) : Prop where
  left : recvLoop c.reads c.answer c.head 0 8192 = .ok (.left head rest)
  copy : head.take (8192 - rest).toNat = c.answer.take 8192
  size : (8192 - rest).toNat = (c.answer.take 8192).length

/-- Without an error a call is inside `read`, or has read the answer. -/
theorem inside_or_received {ks : List ℕ+} (hreads : c.reads = ks.map .ok) :
    recvLoop c.reads c.answer c.head 0 8192 = .ok .inside ∨ ∃ head rest, c.Received head rest := by
  rw [hreads]
  rcases @recvLoop_ok c.head [] c.answer ks 0 8192 c.head_length rfl rfl rfl (by decide) with
    hinside | ⟨head, rest, hleft, hcopy, hsize⟩
  · exact .inl hinside
  · exact .inr ⟨head, rest, by rw [hreads, hleft], hcopy, hsize⟩

variable {c} {head : Block} {rest : UInt64} {body : List UInt8}

/-- The status line is among the bytes that are copied onto the stack. -/
theorem Received.status (h : c.Received head rest) (hanswer : c.answer = l.text ++ body)
    (hmem : 50 ≤ (c.answer.take 8192).length + c.behind.length) :
    ¬(head.take (8192 - rest).toNat ++ c.behind).length < 50 ∧
      httpResponseParser ((head.take (8192 - rest).toNat ++ c.behind).take 50 ++
        c.stack.drop 50) = .ok l.digits := by
  rw [h.copy]
  constructor
  · rw [List.length_append]
    omega
  · rw [hanswer, l.take_text_append (by omega), List.append_assoc, l.take_text_append (by omega),
      List.append_assoc]
    exact l.httpResponseParser_text _

/-- Once the answer has been read, its status decides. -/
theorem Received.proxyToClient (h : c.Received head rest) (hanswer : c.answer = l.text ++ body)
    (hmem : 50 ≤ (c.answer.take 8192).length + c.behind.length) :
    c.proxyToClient =
      if l.status = 200 then
        (proxyMutePost (c.answer.take 8192 ++ c.behind) c.buf c.more c.writes).map .muted
      else .ok c.clean := by
  obtain ⟨hfits, hparse⟩ := h.status l hanswer hmem
  have hstatus : (l.status : ℤ) = 200 ↔ l.status = 200 := by omega
  rw [Relay.proxyToClient, h.left, ok_bind]
  dsimp only
  rw [if_neg hfits, hparse, h.copy]
  simp only [ok_bind, pure_eq_ok, l.numeral.atoi l.status_lt, hstatus]
  split_ifs
  · cases proxyMutePost (c.answer.take 8192 ++ c.behind) c.buf c.more c.writes <;> rfl
  · rfl

/-- The same where the pool serves the copy. -/
theorem Received.proxyToClientIn (h : c.Received head rest) (hanswer : c.answer = l.text ++ body)
    (hmem : 50 ≤ (c.answer.take 8192).length + c.behind.length) (log : Bool) {pool : MemPool}
    {r : PoolPtr × MemPool} (halloc : memPoolAlloc (c.answer.take 8192).length pool = .ok r) :
    c.proxyToClientIn log pool =
      if l.status = 200 then
        (proxyMutePost (c.answer.take 8192 ++ c.behind) c.buf c.more c.writes).map .muted
      else c.cleanIn log r.2 := by
  obtain ⟨hfits, hparse⟩ := h.status l hanswer hmem
  have hstatus : (l.status : ℤ) = 200 ↔ l.status = 200 := by omega
  rw [← h.size] at halloc
  rw [Relay.proxyToClientIn, h.left, ok_bind]
  dsimp only
  rw [halloc, ok_bind, if_neg hfits, hparse, h.copy]
  simp only [ok_bind, pure_eq_ok, l.numeral.atoi l.status_lt, hstatus]
  split_ifs
  · cases proxyMutePost (c.answer.take 8192 ++ c.behind) c.buf c.more c.writes <;> rfl
  · rfl

/-- Where no page has room for the copy, the call ends at `NULL`. -/
theorem Received.proxyToClientIn_eq_error (h : c.Received head rest) (log : Bool) {pool : MemPool}
    (hfull : ¬pool.Serves (c.answer.take 8192).length) :
    c.proxyToClientIn log pool = .error .nullDeref := by
  rw [← h.size] at hfull
  rw [Relay.proxyToClientIn, h.left, ok_bind]
  dsimp only
  rw [memPoolAlloc_eq_error hfull]
  rfl

variable (c)

theorem length_zero_page : (List.replicate 8192 (0 : UInt8)).length = 8192 :=
  List.length_replicate

theorem length_zero_stack : (List.replicate (2 * pageSiz) (0 : UInt8)).length = 2 * pageSiz :=
  List.length_replicate

/-- A page in one call. -/
def wholePage : ℕ+ := Nat.succPNat 8191

/-- A call that reads an answer at once. -/
def oneRead (answer : List UInt8) : Relay where
  reads := [.ok wholePage, .ok wholePage]
  answer := answer
  head := List.replicate 8192 0
  behind := List.replicate 50 0
  stack := List.replicate (2 * pageSiz) 0
  deleted := true
  buf := List.replicate pageSiz 0
  more := []
  writes := [.ok wholePage]
  head_length := length_zero_page
  stack_length := length_zero_stack

/-- **The filter.** An answer that begins with a status line is copied if the pool has room for it.
Then the copy is posted to the client if its status is 200, and the call goes to `CLEAN` otherwise.
It does not matter how the answer is split, nor what is on the stack or behind the copy. -/
theorem filtered {ks : List ℕ+} {body : List UInt8} (hreads : c.reads = ks.map .ok)
    (hanswer : c.answer = l.text ++ body)
    (hmem : 50 ≤ (c.answer.take 8192).length + c.behind.length) (log : Bool) (pool : MemPool) :
    c.proxyToClientIn log pool = .ok .inside ∨
      (¬pool.Serves (c.answer.take 8192).length ∧
        c.proxyToClientIn log pool = .error .nullDeref) ∨
      ∃ r, memPoolAlloc (c.answer.take 8192).length pool = .ok r ∧ c.proxyToClientIn log pool =
        if l.status = 200 then
          (proxyMutePost (c.answer.take 8192 ++ c.behind) c.buf c.more c.writes).map .muted
        else c.cleanIn log r.2 := by
  rcases c.inside_or_received hreads with hinside | ⟨head, rest, hreceived⟩
  · left
    rw [proxyToClientIn, hinside]
    rfl
  right
  by_cases hroom : pool.Serves (c.answer.take 8192).length
  · obtain ⟨r, halloc⟩ := hroom.exists_memPoolAlloc
    exact .inr ⟨r, halloc, hreceived.proxyToClientIn l hanswer hmem log halloc⟩
  · exact .inl ⟨hroom, hreceived.proxyToClientIn_eq_error log hroom⟩

theorem filtered_statusLine :
    (oneRead fileLine.text).proxyToClientIn false (memPoolCreat []) = .ok .inside ∨
      (¬(memPoolCreat []).Serves (fileLine.text.take 8192).length ∧
        (oneRead fileLine.text).proxyToClientIn false (memPoolCreat []) = .error .nullDeref) ∨
      ∃ r, memPoolAlloc (fileLine.text.take 8192).length (memPoolCreat []) = .ok r ∧
        (oneRead fileLine.text).proxyToClientIn false (memPoolCreat []) =
          if fileLine.status = 200 then
            (proxyMutePost (fileLine.text.take 8192 ++ List.replicate 50 0)
              (List.replicate pageSiz 0) [] [.ok wholePage]).map .muted
          else (oneRead fileLine.text).cleanIn false r.2 :=
  @filtered (oneRead fileLine.text) fileLine [wholePage, wholePage] [] rfl
    (List.append_nil _).symm (by
      have hbehind : (oneRead fileLine.text).behind.length = 50 := List.length_replicate
      omega) false (memPoolCreat [])

end Relay

end Lidas
