import Lidas.Lib.Word
import Lidas.Memory.Pool

/-!
# Reading a request

`read_event` from its first `read` to its call of `http_parser`. The outcomes of `read` are
an input that a run consumes; a run that comes to their end is still inside a call of `read`.

The result of `read` is kept in the `size_t` `buf_siz`, so the `-1` of an empty socket is the
number `2^64 - 1`: the test `> 0` holds, the pointer steps back by one and the rest grows by
one, and the loop goes on. A loop that has met an empty socket is never through,
`headLoop_errs`.
-/

namespace Lidas

open CString

/-- The outcome of a call of `read`: bytes, the end of the stream, or `-1`. -/
inductive ReadRes where
  | data (bytes : List UInt8)
  | eof
  | err
  deriving DecidableEq

/-- The bytes delivered when there is space for `rest` of them. -/
def ReadRes.bytes (rest : UInt64) : ReadRes → List UInt8
  | .data bs => bs.take rest.toNat
  | .eof => []
  | .err => []

/-- The value of `buf_siz = read (fd, buf, rest)`. -/
def ReadRes.cur (rest : UInt64) : ReadRes → UInt64
  | .data bs => UInt64.ofNat (bs.take rest.toNat).length
  | .eof => 0
  | .err => -1

/-- Write bytes at offset `p` of an object. -/
def storeBytes (b : Block) (p : UInt64) (bs : List UInt8) : Except Fault Block :=
  if bs = [] then .ok b
  else if p.toNat + bs.length ≤ b.length then
    .ok (b.take p.toNat ++ bs ++ b.drop (p.toNat + bs.length))
  else .error .outOfBounds

/-- The variables of the head loop: the bytes of `head`, the offset `buf - head`, `rest` and
`buf_siz`. -/
structure HeadState where
  head : Block
  buf : UInt64
  rest : UInt64
  bufSiz : UInt64

/-- A run of the head loop; `stopped` says that it is not inside `read`. -/
structure HeadRun where
  state : HeadState
  stopped : Bool

/-- `while ((buf_siz = read (fd, buf, rest)) > 0)`. -/
def headLoop : List ReadRes → HeadState → Except Fault HeadRun
  | [], s => return { state := s, stopped := false }
  | r :: rs, s => do
    let head ← storeBytes s.head s.buf (r.bytes s.rest)
    let cur := r.cur s.rest
    if 0 < cur then
      let s' : HeadState :=
        { head := head, buf := s.buf + cur, rest := s.rest - cur, bufSiz := cur }
      if s'.rest = 0 then
        return { state := s', stopped := true }
      headLoop rs s'
    else
      return { state := { s with head := head, bufSiz := cur }, stopped := true }

/-- What `read_event` gives to `http_parser`: the bytes from `head` to the end of its object,
the place in the pool if `head` was moved there, and the pool. -/
structure HeadRead where
  text : Block
  place : Option PoolPtr
  pool : MemPool

/-- The bytes from a pointer into the pool to the end of its page, or of its large block. `fresh` is
what `malloc` returns for a block of a size. -/
def MemPool.bytesAt (p : MemPool) (fresh : ℕ → Block) : PoolPtr → Except Fault Block
  | .page i off =>
    match p.pages[i]? with
    | none => .error .outOfBounds
    | some page => .ok (page.mem.drop off)
  | .large i =>
    match p.large[i]? with
    | none => .error .outOfBounds
    | some size => .ok (fresh size)

/-- `read_event` up to its call of `http_parser`, with `head` the bytes that `malloc`
returned. `none` is a run inside `read`. -/
def readHead (head : Block) (fresh : ℕ → Block) (pool : MemPool) (rs : List ReadRes) :
    Except Fault (Option HeadRead) := do
  let l ← headLoop rs
    { head := head, buf := 0, rest := UInt64.ofNat (2 * pageSiz), bufSiz := 0 }
  if !l.stopped then
    return none
  let head := l.state.head
  let n ← strlen head 0
  -- reset head to memory pool
  let r : HeadRead ←
    if n ≤ poolSiz then do
      let (new, pool) ← memPoolAlloc l.state.bufSiz.toNat pool
      let text ← storeBytes (← pool.bytesAt fresh new) 0 (head.take n)
      pure { text := text, place := some new, pool := pool }
    else
      pure { text := head, place := none, pool := pool }
  -- memcpy (addr, head, PAGE_SIZ*2)
  if r.text.length < 2 * pageSiz then
    throw .outOfBounds
  return some r

/-! ### Deliveries -/

/-- A way of delivering a request text in segments. -/
structure Delivery where
  text : List UInt8
  nul_free : (0 : UInt8) ∉ text
  lt : text.length < 2 * pageSiz
  segs : List (List UInt8)
  segs_ne : ∀ s ∈ segs, s ≠ []
  flatten : segs.flatten = text

/-- The outcomes of `read`: the segments, and then `-1` for `EAGAIN`. -/
def Delivery.results (d : Delivery) : List ReadRes := d.segs.map ReadRes.data ++ [.err]

/-- The request is read as it was sent: the loop stops at the `-1`, the text is the request
with a terminator, and no later allocation gets a byte of it. -/
def Delivery.ReadRight (d : Delivery) (head : Block) (fresh : ℕ → Block) (pool : MemPool) : Prop :=
  ∃ r, readHead head fresh pool d.results = .ok (some r) ∧
    r.text.take (d.text.length + 1) = d.text ++ [0] ∧
    ∀ place, r.place = some place → ∀ sizes regions, memPoolAllocs sizes r.pool = .ok regions →
      ∀ region ∈ regions, ¬Overlaps region (place, d.text.length + 1)

/-! ### Runs of the head loop -/

/-- A store leaves an object as long as it is. -/
theorem length_storeBytes {b b' : Block} {p : UInt64} {bs : List UInt8}
    (h : storeBytes b p bs = .ok b') : b'.length = b.length := by
  rw [storeBytes] at h
  split_ifs at h with hnil hfits
  · rw [Except.ok.inj h]
  · rw [← Except.ok.inj h]
    simp only [List.length_append, List.length_take, List.length_drop]
    omega

/-- A store to the front of an object. -/
theorem storeBytes_zero {b : Block} {bs : List UInt8} (h : bs.length ≤ b.length) :
    storeBytes b 0 bs = .ok (bs ++ b.drop bs.length) := by
  rw [storeBytes, UInt64.toNat_zero, Nat.zero_add, List.take_zero, List.nil_append, if_pos h]
  split_ifs with hnil
  · rw [hnil]
    rfl
  · rfl

/-- The head stays as long as it is. -/
theorem length_headLoop {rs : List ReadRes} {s : HeadState} {l : HeadRun}
    (h : headLoop rs s = .ok l) : l.state.head.length = s.head.length := by
  induction rs generalizing s with
  | nil =>
    obtain rfl := Except.ok.inj h
    rfl
  | cons r rs ih =>
    obtain ⟨head, hhead, h⟩ := bind_eq_ok.mp h
    have hlength := length_storeBytes hhead
    dsimp only at h
    split_ifs at h
    · obtain rfl := Except.ok.inj h
      exact hlength
    · exact (ih h).trans hlength
    · obtain rfl := Except.ok.inj h
      exact hlength

/-- A state of the head loop in which the given bytes have been read into the block `start`, and
nothing else. -/
structure HeadState.Read (s : HeadState) (start : Block) (bytes : List UInt8) : Prop where
  length : start.length = 2 * pageSiz
  lt : bytes.length < 2 * pageSiz
  head : s.head = bytes ++ start.drop bytes.length
  buf : s.buf.toNat = bytes.length
  rest : s.rest.toNat = 2 * pageSiz - bytes.length

/-- One segment is stored behind those that came before. -/
theorem headLoop_data {s : HeadState} {start bytes seg : List UInt8} (h : s.Read start bytes)
    (hne : seg ≠ []) (hlt : (bytes ++ seg).length < 2 * pageSiz) (rs : List ReadRes) :
    ∃ s', headLoop (.data seg :: rs) s = headLoop rs s' ∧ s'.Read start (bytes ++ seg) := by
  have hlen := @List.length_append _ bytes seg
  have hstart := h.length
  have hpos := List.length_pos_of_ne_nil hne
  have hrest := h.rest
  have hlt64 : 2 * pageSiz < 2 ^ 64 := by decide
  -- the segment fits into what is left, and does not fill it
  have hfit : seg.length ≤ s.rest.toNat := by omega
  have htake : seg.take s.rest.toNat = seg := List.take_of_length_le hfit
  have hrest' : (s.rest - UInt64.ofNat seg.length).toNat = s.rest.toNat - seg.length :=
    toNat_sub_ofNat hfit
  have hbuf' : (s.buf + UInt64.ofNat seg.length).toNat = s.buf.toNat + seg.length :=
    toNat_add_ofNat (by rw [h.buf]; omega)
  have hgt : 0 < UInt64.ofNat seg.length :=
    UInt64.lt_iff_toNat_lt.mpr (by rw [toNat_ofNat_of_le hfit]; exact hpos)
  have hne0 : s.rest - UInt64.ofNat seg.length ≠ 0 := fun h0 => by
    rw [h0, UInt64.toNat_zero] at hrest'
    omega
  have hstore : storeBytes s.head s.buf seg =
      .ok (bytes ++ seg ++ start.drop (bytes.length + seg.length)) := by
    have hfits : s.buf.toNat + seg.length ≤ s.head.length := by
      rw [h.buf, h.head, List.length_append, List.length_drop]
      omega
    rw [storeBytes, if_neg hne, if_pos hfits, h.buf, h.head, List.take_left,
      ← List.drop_drop, List.drop_left, List.drop_drop]
  refine ⟨{ head := bytes ++ seg ++ start.drop (bytes.length + seg.length)
            buf := s.buf + UInt64.ofNat seg.length, rest := s.rest - UInt64.ofNat seg.length
            bufSiz := UInt64.ofNat seg.length }, ?_, ?_⟩
  · simp only [headLoop, ReadRes.bytes, ReadRes.cur, htake, hstore, ok_bind, hgt, if_true, hne0,
      if_false]
  · refine ⟨hstart, hlt, ?_, ?_, ?_⟩
    · rw [hlen]
    · rw [hbuf', h.buf, hlen]
    · rw [hrest', hrest, hlen]
      omega

/-- The segments are stored one behind the other. -/
theorem headLoop_segs (segs : List (List UInt8)) {s : HeadState} {start bytes : List UInt8}
    (h : s.Read start bytes) (hne : ∀ seg ∈ segs, seg ≠ [])
    (hlt : (bytes ++ segs.flatten).length < 2 * pageSiz) (rs : List ReadRes) :
    ∃ s', headLoop (segs.map ReadRes.data ++ rs) s = headLoop rs s' ∧
      s'.Read start (bytes ++ segs.flatten) := by
  induction segs generalizing s bytes with
  | nil => exact ⟨s, rfl, by simpa using h⟩
  | cons seg segs ih =>
    have hassoc : bytes ++ (seg :: segs).flatten = bytes ++ seg ++ segs.flatten := by simp
    rw [hassoc] at hlt ⊢
    have hlt' : (bytes ++ seg).length < 2 * pageSiz := by
      rw [List.length_append] at hlt
      omega
    obtain ⟨s', hs', hread⟩ :=
      headLoop_data h (hne seg (by simp)) hlt' (segs.map ReadRes.data ++ rs)
    obtain ⟨s'', hs'', hread'⟩ := ih hread (fun seg hseg => hne seg (by simp [hseg])) hlt
    exact ⟨s'', hs'.trans hs'', hread'⟩

/-- **An empty socket.** However often `read` answers `-1`, the loop is inside `read` again:
the rest would have to grow to `2^64` first. -/
theorem headLoop_errs (n : ℕ) {s : HeadState} (h : s.rest.toNat + n < 2 ^ 64) :
    ∃ s', headLoop (List.replicate n ReadRes.err) s = .ok { state := s', stopped := false } := by
  induction n generalizing s with
  | zero => exact ⟨s, rfl⟩
  | succ n ih =>
    have hgt : (0 : UInt64) < -1 := by decide
    have hrest : (s.rest + 1).toNat = s.rest.toNat + 1 := toNat_add_one (by omega)
    have hne : s.rest + 1 ≠ 0 := fun h0 => by
      rw [h0, UInt64.toNat_zero] at hrest
      omega
    obtain ⟨s', hs'⟩ := ih (s := { s with buf := s.buf + -1, rest := s.rest + 1, bufSiz := -1 })
      (by simp only [hrest]; omega)
    refine ⟨s', ?_⟩
    rw [List.replicate_succ, headLoop]
    simp only [ReadRes.bytes, ReadRes.cur, storeBytes, if_true, ok_bind, hgt, sub_neg_one, hne,
      if_false, hs']

/-- The bytes that `malloc` returned for the head. -/
def HeadBlock : Type := { b : Block // b.length = 2 * pageSiz }

/-- The variables of the head loop when it begins. -/
def HeadBlock.start (head : HeadBlock) : HeadState where
  head := head.val
  buf := 0
  rest := UInt64.ofNat (2 * pageSiz)
  bufSiz := 0

theorem HeadBlock.read_start (head : HeadBlock) : head.start.Read head.val [] :=
  ⟨head.property, by decide, rfl, rfl, rfl⟩

/-- After the segments of a delivery the text is in the block. -/
theorem Delivery.headLoop_segs (d : Delivery) (head : HeadBlock) (rs : List ReadRes) :
    ∃ s, headLoop (d.segs.map ReadRes.data ++ rs) head.start = headLoop rs s ∧
      s.Read head.val d.text := by
  have hlt : ([] ++ d.segs.flatten).length < 2 * pageSiz := by
    rw [List.nil_append, d.flatten]
    exact d.lt
  obtain ⟨s, hs, hread⟩ := Lidas.headLoop_segs d.segs head.read_start d.segs_ne hlt rs
  rw [List.nil_append, d.flatten] at hread
  exact ⟨s, hs, hread⟩

/-- **A closed connection.** The loop ends with the text of the delivery in front of what was in the
block. -/
theorem Delivery.headLoop_eof (d : Delivery) (head : HeadBlock) :
    ∃ l, headLoop (d.segs.map ReadRes.data ++ [.eof]) head.start = .ok l ∧ l.stopped = true ∧
      l.state.head = d.text ++ head.val.drop d.text.length ∧ l.state.bufSiz = 0 := by
  obtain ⟨s, hs, hread⟩ := d.headLoop_segs head [.eof]
  refine ⟨{ state := { s with bufSiz := 0 }, stopped := true }, hs.trans ?_, rfl, hread.head, rfl⟩
  have hzero : ¬(0 : UInt64) < 0 := by decide
  simp only [headLoop, ReadRes.bytes, ReadRes.cur, storeBytes, if_true, ok_bind, hzero, if_false,
    pure_eq_ok]

/-- After a delivery `read_event` is still reading, and it is so after up to `2^63` more
answers of an empty socket. -/
theorem Delivery.readHead_eq (d : Delivery) (head : HeadBlock) (fresh : ℕ → Block)
    (pool : MemPool) {n : ℕ} (hn : n ≤ 2 ^ 63) :
    readHead head.val fresh pool (d.results ++ List.replicate n .err) = .ok none := by
  have hresults : d.results ++ List.replicate n .err =
      d.segs.map ReadRes.data ++ List.replicate (n + 1) .err := by
    rw [Delivery.results, List.append_assoc, List.replicate_succ]
    rfl
  obtain ⟨s, hs, hread⟩ := d.headLoop_segs head (List.replicate (n + 1) ReadRes.err)
  have hrest : s.rest.toNat + (n + 1) < 2 ^ 64 := by
    have hle : s.rest.toNat ≤ 2 * pageSiz := by
      rw [hread.rest]
      omega
    simp only [pageSiz] at hle
    omega
  obtain ⟨s', hs'⟩ := headLoop_errs (n + 1) hrest
  rw [HeadBlock.start] at hs
  rw [readHead, hresults, hs, hs', ok_bind]
  rfl

/-- **Requests are not read as they were sent.** No delivery of a request is read right,
whatever its segments, the heap and the pool: the loop does not stop at the `-1`. -/
theorem Delivery.not_readRight (d : Delivery) (head : HeadBlock) (fresh : ℕ → Block)
    (pool : MemPool) : ¬d.ReadRight head.val fresh pool := by
  rintro ⟨r, hr, -⟩
  have hnone := d.readHead_eq head fresh pool (Nat.zero_le _)
  rw [List.replicate_zero, List.append_nil, hr] at hnone
  simp at hnone

/-- `GET / HTTP/1.0` in one segment. -/
def oneSegment : Delivery where
  text := ascii "GET / HTTP/1.0"
  nul_free := by decide +kernel
  lt := by decide +kernel
  segs := [ascii "GET / HTTP/1.0"]
  segs_ne := by decide +kernel
  flatten := by simp

/-- With a zeroed heap and a fresh pool this request is not read. -/
theorem not_readRight_oneSegment : ¬oneSegment.ReadRight (List.replicate (2 * pageSiz) 0)
    (fun size => List.replicate size 0) (memPoolCreat (List.replicate pageSiz 0)) := by
  rintro ⟨r, hr, -⟩
  have hnone := oneSegment.readHead_eq ⟨List.replicate (2 * pageSiz) 0, List.length_replicate⟩
    (fun size => List.replicate size 0) (memPoolCreat (List.replicate pageSiz 0)) (Nat.zero_le _)
  rw [List.replicate_zero, List.append_nil, hr] at hnone
  simp at hnone

end Lidas
