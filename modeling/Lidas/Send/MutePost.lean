import Lidas.Lib.Word
import Lidas.Send.Snd

/-!
# Relaying the answer of a backend

`proxy_mute_post` sends the first chunk of an answer, which lies at `addr`, and then what it
reads from the backend until the end of file. The outcomes of `write` and `read` are an input:
lists that a run consumes. A run that comes to the end of the outcomes of `write` is still
inside a call of it; the end of the outcomes of `read` is the end of file.

The length of the first chunk is taken with `strlen`. All results are kept in a `size_t`, so
the block that handles an error is never entered, and an error steps the pointer back. The
inner loop moves neither its pointer nor its count, so it ends only if `write` takes nothing. A
pointer that leaves the object is a fault.
-/

namespace Lidas

open CString

/-- The outcome of a call of `write` or `read`: the number of bytes, or the bytes, or `-1`, with
`again` for `EAGAIN`. `wait` is what `thread_event_wait` would return if it were asked then. -/
inductive IoRes (α : Type) where
  | ok (a : α)
  | err (again : Bool) (wait : ℕ)

/-- Bytes that `read` delivers into a page. -/
abbrev PageBytes : Type := { b : Block // b ≠ [] ∧ b.length ≤ pageSiz }

namespace IoRes

/-- The call failed, and not with `EAGAIN`. -/
def failed {α : Type} : IoRes α → Bool
  | ok _ => false
  | err again _ => !again

def wait {α : Type} : IoRes α → ℕ
  | ok _ => 0
  | err _ w => w

def toWrite : IoRes ℕ+ → WriteRes
  | ok n => .ok n
  | err _ w => .err w

/-- The value of `buf_siz = read (obj->pfd, buf, PAGE_SIZ)`. -/
def readSiz : IoRes PageBytes → UInt64
  | ok b => UInt64.ofNat b.val.length
  | err _ _ => -1

/-- The page after the call. -/
def fill (buf : Block) : IoRes PageBytes → Block
  | ok b => b.val ++ buf.drop b.val.length
  | err _ _ => buf

/-- What was read. -/
def bytes : IoRes PageBytes → List UInt8
  | ok b => b.val
  | err _ _ => []

end IoRes

/-- `COMMON_TIME_OUT`. -/
def commonTimeOut : ℕ := 13

/-- `PROXY_TIME_OUT`. -/
def proxyTimeOut : ℕ := 14

/-- `WRITE_ERROR`. -/
def writeError : ℕ := 15

/-- How a loop ends: inside a call, left, or with a value returned from the function. -/
inductive LoopEnd where
  | inside
  | left
  | returned (ret : ℕ)
  deriving DecidableEq

/-- What a loop has done: the bytes sent, whether a call failed other than with `EAGAIN`, the
outcomes of `write` not consumed, and how it ended. -/
structure Muted where
  sent : List UInt8
  failed : Bool
  rest : List (IoRes ℕ+)
  ends : LoopEnd

/-- What was sent and failed before comes first. -/
def Muted.after (m : Muted) (sent : List UInt8) (failed : Bool) : Muted :=
  { m with sent := sent ++ m.sent, failed := failed || m.failed }

section After

variable (m : Muted) (sent : List UInt8) (failed : Bool)

@[simp] theorem Muted.after_sent : (m.after sent failed).sent = sent ++ m.sent := rfl

@[simp] theorem Muted.after_failed : (m.after sent failed).failed = (failed || m.failed) := rfl

@[simp] theorem Muted.after_rest : (m.after sent failed).rest = m.rest := rfl

@[simp] theorem Muted.after_ends : (m.after sent failed).ends = m.ends := rfl

end After

/-- The block `if (buf_siz < 0)`, the same in the three loops but for the value of a timeout: the
value returned, if one is. -/
def errBlock (bufSiz : UInt64) (wait timeOut : ℕ) : Option ℕ :=
  if bufSiz < 0 then
    if bufSiz = eagain then
      if wait ≠ 0 then some timeOut else none
    else some writeError
  else none

/-- `p += buf_siz`. -/
def movePtr (data : Block) (p bufSiz : UInt64) : Except Fault UInt64 :=
  if (p + bufSiz).toNat ≤ data.length then .ok (p + bufSiz) else .error .outOfBounds

/-- The first loop of `proxy_mute_post`, at offset `p` with `rest` bytes to go. -/
def firstLoop (addr : Block) : List (IoRes ℕ+) → UInt64 → UInt64 → Except Fault Muted
  | [], _, _ => return { sent := [], failed := false, rest := [], ends := .inside }
  | w :: ws, p, rest => do
    let bufSiz := w.toWrite.cur rest
    let sent ← taken addr p (w.toWrite.taken rest)
    if bufSiz = 0 then
      return { sent := sent, failed := w.failed, rest := ws, ends := .left }
    match errBlock bufSiz w.wait commonTimeOut with
    | some ret => return { sent := sent, failed := w.failed, rest := ws, ends := .returned ret }
    | none =>
      let p ← movePtr addr p bufSiz
      if rest - bufSiz = 0 then
        return { sent := sent, failed := w.failed, rest := ws, ends := .left }
      let m ← firstLoop addr ws p (rest - bufSiz)
      return m.after sent w.failed

/-- The inner loop of the second one. Neither `tmp` nor `rest` is moved. -/
def innerLoop (buf : Block) (rest : UInt64) : List (IoRes ℕ+) → Except Fault Muted
  | [] => return { sent := [], failed := false, rest := [], ends := .inside }
  | w :: ws => do
    let bufSiz := w.toWrite.cur rest
    let sent ← taken buf 0 (w.toWrite.taken rest)
    if bufSiz = 0 then
      return { sent := sent, failed := w.failed, rest := ws, ends := .left }
    match errBlock bufSiz w.wait commonTimeOut with
    | some ret => return { sent := sent, failed := w.failed, rest := ws, ends := .returned ret }
    | none =>
      let m ← innerLoop buf rest ws
      return m.after sent w.failed

/-- The second loop, with `buf` the page that `read` is given. -/
def readLoop (buf : Block) : List (IoRes PageBytes) → List (IoRes ℕ+) → Except Fault Muted
  | [], ws => return { sent := [], failed := false, rest := ws, ends := .returned 0 }
  | r :: rs, ws => do
    let buf := r.fill buf
    match errBlock r.readSiz r.wait proxyTimeOut with
    | some ret => return { sent := [], failed := r.failed, rest := ws, ends := .returned ret }
    | none =>
      let l ← innerLoop buf r.readSiz ws
      if l.ends = .left then
        let m ← readLoop buf rs l.rest
        return m.after l.sent (r.failed || l.failed)
      return l.after [] r.failed

/-- `proxy_mute_post`. -/
def proxyMutePost (addr buf : Block) (reads : List (IoRes PageBytes)) (ws : List (IoRes ℕ+)) :
    Except Fault Muted := do
  let l ← firstLoop addr ws 0 (UInt64.ofNat (← strlen addr 0))
  if l.ends = .left then
    let m ← readLoop buf reads l.rest
    return m.after l.sent l.failed
  return l

/-- A call of `proxy_mute_post`: the object at `addr`, of which the first `n` bytes are the first
chunk, the page on the stack, the outcomes of `read` up to the end of file, and the outcomes of
`write`, one after the other. -/
structure Answer where
  addr : Block
  n : ℕ
  buf : Block
  reads : List (IoRes PageBytes)
  writes : ℕ → IoRes ℕ+
  n_le : n ≤ addr.length
  addr_lt : addr.length < 2 ^ 63
  buf_length : buf.length = pageSiz

namespace Answer

variable (q : Answer)

/-- The first `k` outcomes of `write`. -/
def writesUpTo (k : ℕ) : List (IoRes ℕ+) := (List.range k).map q.writes

/-- The first chunk. -/
def chunk : List UInt8 := q.addr.take q.n

/-- The first chunk and all that is read. -/
def all : List UInt8 := q.chunk ++ q.reads.flatMap IoRes.bytes

/-- The answer is relayed: without a fault, the function returns 0 and has sent everything, or
a call has failed other than with `EAGAIN`, and it returns another value and has sent a prefix. -/
def Relayed : Prop :=
  ∃ k m, proxyMutePost q.addr q.buf q.reads (q.writesUpTo k) = .ok m ∧
    ((m.ends = .returned 0 ∧ m.failed = false ∧ m.sent = q.all) ∨
      ∃ ret, m.ends = .returned ret ∧ ret ≠ 0 ∧ m.failed = true ∧ m.sent <+: q.all)

/-- The calls of `write` take the first chunk without an error. One call is made even for an
empty chunk. -/
def TakenUp : Prop :=
  ∃ ks : List ℕ+, ks ≠ [] ∧ q.writesUpTo ks.length = ks.map IoRes.ok ∧
    q.n ≤ (ks.map PNat.val).sum

end Answer

/-! ### The loops -/

/-- The block is never entered. -/
@[simp] theorem errBlock_eq_none (bufSiz : UInt64) (wait timeOut : ℕ) :
    errBlock bufSiz wait timeOut = none := by
  rw [errBlock, if_neg UInt64.not_lt_zero]

theorem taken_zero (data : Block) (p : UInt64) : taken data p 0 = .ok [] := rfl

/-- The pointer is moved inside the data. -/
theorem movePtr_eq_ok {data : Block} {p p' bufSiz : UInt64} (h : movePtr data p bufSiz = .ok p') :
    (p + bufSiz).toNat ≤ data.length ∧ p' = p + bufSiz := by
  rw [movePtr] at h
  split_ifs at h with hle
  exact ⟨hle, (Except.ok.inj h).symm⟩

section FirstLoop

variable {addr : Block} {ws : List (IoRes ℕ+)} {p rest : UInt64} {m : Muted}

/-- What the first loop does, with `b` bytes of the object to be sent: it does not return. If
it is left, it has sent bytes among these `b`, namely the ones from `p` on if no call failed,
and more than were to go if one did. -/
structure FirstLoopDone (addr : Block) (b : ℕ) (ws : List (IoRes ℕ+)) (p rest : UInt64)
    (m : Muted) : Prop where
  ends : m.ends = .left ∨ m.ends = .inside
  among : ∀ x ∈ m.sent, x ∈ addr.take b
  sent : m.ends = .left →
    (∃ ks : List ℕ+, ks ≠ [] ∧ ws = ks.map IoRes.ok ++ m.rest ∧
      rest.toNat ≤ (ks.map PNat.val).sum ∧ m.sent = (addr.drop p.toNat).take rest.toNat) ∨
    rest.toNat < m.sent.length

/-- A call of `write` that takes bytes, or all that are to go. -/
theorem firstLoop_ok (k : ℕ+) (haddr : addr.length < 2 ^ 63)
    (hp : p.toNat + rest.toNat ≤ addr.length) :
    firstLoop addr (.ok k :: ws) p rest =
      if (k : ℕ) < rest.toNat then do
        let m ← firstLoop addr ws (p + UInt64.ofNat k) (rest - UInt64.ofNat k)
        return m.after ((addr.drop p.toNat).take k) false
      else .ok { sent := (addr.drop p.toNat).take rest.toNat, failed := false, rest := ws
                 ends := .left } := by
  obtain ⟨t, ht⟩ : ∃ t, t = min (k : ℕ) rest.toNat := ⟨_, rfl⟩
  have hk := k.pos
  have htle : t ≤ rest.toNat := by omega
  have hcur : (IoRes.ok k).toWrite.cur rest = UInt64.ofNat t := by
    rw [ht]
    rfl
  have htaken : (IoRes.ok k).toWrite.taken rest = t := ht.symm
  have hfailed : (IoRes.ok k).failed = false := rfl
  -- the pointer stays inside the buffer, so the bytes can be read
  have hbytes : taken addr p t = .ok ((addr.drop p.toNat).take t) := by
    rw [taken]
    split_ifs with h0 hle
    · rw [h0, List.take_zero]
    · rfl
    · omega
  have hmove : movePtr addr p (UInt64.ofNat t) = .ok (p + UInt64.ofNat t) := by
    rw [movePtr, if_pos]
    rw [toNat_add_ofNat (by omega)]
    omega
  have hsub := toNat_sub_ofNat htle
  rw [firstLoop, hcur, htaken, hfailed, errBlock_eq_none, hbytes, ok_bind]
  dsimp only
  rw [hmove, ok_bind]
  -- a short write goes round again, a whole one leaves the loop
  by_cases hlt : (k : ℕ) < rest.toNat
  · obtain rfl : t = k := by omega
    have hzero : UInt64.ofNat k ≠ 0 := by
      rw [ne_zero_iff_toNat, toNat_ofNat_of_le htle]
      omega
    have hall : rest - UInt64.ofNat k ≠ 0 := by
      rw [ne_zero_iff_toNat, hsub]
      omega
    rw [if_neg hzero, if_neg hall, if_pos hlt]
  · obtain rfl : t = rest.toNat := by omega
    have hall : rest - UInt64.ofNat rest.toNat = 0 := by
      rw [← UInt64.toNat_inj, hsub, Nat.sub_self, UInt64.toNat_zero]
    rw [if_pos hall, if_neg hlt]
    split_ifs <;> rfl

/-- An error moves the pointer back. -/
theorem firstLoop_err {again : Bool} {w : ℕ} (haddr : addr.length < 2 ^ 63)
    (hrest : rest.toNat + 1 < 2 ^ 64) (h : firstLoop addr (.err again w :: ws) p rest = .ok m) :
    ∃ m', p.toNat ≠ 0 ∧ firstLoop addr ws (p + -1) (rest + 1) = .ok m' ∧
      m = m'.after [] (!again) := by
  have hcur : (IoRes.err again w).toWrite.cur rest = -1 := rfl
  have htaken : (IoRes.err again w).toWrite.taken rest = 0 := rfl
  have hfailed : (IoRes.err again w : IoRes ℕ+).failed = !again := rfl
  have hneg : (-1 : UInt64) ≠ 0 := by decide
  have hne : rest + 1 ≠ 0 := by
    rw [ne_zero_iff_toNat, toNat_add_one hrest]
    omega
  rw [firstLoop, hcur, htaken, hfailed, taken_zero, ok_bind, if_neg hneg, errBlock_eq_none,
    sub_neg_one] at h
  dsimp only at h
  cases hmove : movePtr addr p (-1) with
  | error e =>
    rw [hmove] at h
    cases h
  | ok p' =>
    rw [hmove, ok_bind, if_neg hne] at h
    obtain ⟨hin, rfl⟩ := movePtr_eq_ok hmove
    obtain ⟨m', hm', h⟩ := bind_eq_ok.mp h
    refine ⟨m', fun h0 => ?_, hm', (Except.ok.inj h).symm⟩
    -- the pointer would leave the object at its front
    rw [toNat_add_neg_one, if_pos h0] at hin
    omega

/-- **The first loop.** -/
theorem firstLoopDone {b : ℕ} (haddr : addr.length < 2 ^ 63) (hb : b ≤ addr.length)
    (hp : p.toNat + rest.toNat = b) (h : firstLoop addr ws p rest = .ok m) :
    FirstLoopDone addr b ws p rest m := by
  induction ws generalizing p rest m with
  | nil =>
    rw [firstLoop] at h
    obtain rfl := Except.ok.inj h
    exact ⟨Or.inr rfl, by simp, by simp⟩
  | cons w ws ih =>
    cases w with
    | ok k =>
      rw [firstLoop_ok k haddr (by omega)] at h
      -- bytes taken are among those to be sent
      have hamong : ∀ t ≤ rest.toNat, ∀ x ∈ (addr.drop p.toNat).take t, x ∈ addr.take b :=
        fun t ht x hx => by
          rw [List.take_drop] at hx
          exact List.take_subset_take_left addr (by omega) (List.mem_of_mem_drop hx)
      by_cases hlt : (k : ℕ) < rest.toNat
      · rw [if_pos hlt] at h
        obtain ⟨m', hm', h⟩ := bind_eq_ok.mp h
        obtain rfl := Except.ok.inj h
        have hsub := toNat_sub_ofNat hlt.le
        have hadd : (p + UInt64.ofNat k).toNat = p.toNat + k := toNat_add_ofNat (by omega)
        obtain ⟨hends, hbytes, hsent⟩ := ih (by rw [hadd, hsub]; omega) hm'
        refine ⟨hends, fun x hx => ?_, fun hleft => ?_⟩
        · rcases List.mem_append.mp hx with hx | hx
          · exact hamong k hlt.le x hx
          · exact hbytes x hx
        · rcases hsent hleft with ⟨ks, -, hws, hsum, hall⟩ | hmore
          · refine Or.inl ⟨k :: ks, by simp, by simp [hws], ?_, ?_⟩
            · rw [hsub] at hsum
              have hcons : ((k :: ks).map PNat.val).sum = k + (ks.map PNat.val).sum := by simp
              omega
            · have hsplit : (k : ℕ) + (rest.toNat - k) = rest.toNat := by omega
              rw [Muted.after_sent, hall, hadd, hsub, ← List.drop_drop, ← List.take_add, hsplit]
          · right
            rw [Muted.after_sent, List.length_append, List.length_take, List.length_drop]
            rw [hsub] at hmore
            omega
      · rw [if_neg hlt] at h
        obtain rfl := Except.ok.inj h
        refine ⟨Or.inl rfl, hamong _ (Nat.le_refl _), fun _ => Or.inl ?_⟩
        refine ⟨[k], by simp, rfl, ?_, rfl⟩
        have hsingle : ([k].map PNat.val).sum = k := by simp
        omega
    | err again w =>
      obtain ⟨m', hp0, hm', rfl⟩ := firstLoop_err haddr (by omega) h
      have hback : (p + -1).toNat = p.toNat - 1 := by rw [toNat_add_neg_one, if_neg hp0]
      have hforth : (rest + 1).toNat = rest.toNat + 1 := toNat_add_one (by omega)
      obtain ⟨hends, hbytes, hsent⟩ := ih (by rw [hback, hforth]; omega) hm'
      refine ⟨hends, by simpa using hbytes, fun hleft => Or.inr ?_⟩
      rw [Muted.after_sent, List.nil_append]
      rcases hsent hleft with ⟨-, -, -, -, hall⟩ | hmore
      · rw [hall, List.length_take, List.length_drop, hback, hforth]
        omega
      · omega

/-- Enough outcomes without an error send all that is to go. -/
theorem firstLoop_oks (haddr : addr.length < 2 ^ 63) {ks : List ℕ+} (hks : ks ≠ [])
    (hp : p.toNat + rest.toNat ≤ addr.length) (hsum : rest.toNat ≤ (ks.map PNat.val).sum) :
    ∃ m, firstLoop addr (ks.map IoRes.ok) p rest = .ok m ∧ m.ends = .left ∧ m.failed = false ∧
      m.sent = (addr.drop p.toNat).take rest.toNat := by
  induction ks generalizing p rest with
  | nil => exact absurd rfl hks
  | cons k ks ih =>
    have hcons : ((k :: ks).map PNat.val).sum = k + (ks.map PNat.val).sum := by simp
    rw [List.map_cons, firstLoop_ok k haddr hp]
    by_cases hlt : (k : ℕ) < rest.toNat
    · have hsub := toNat_sub_ofNat hlt.le
      have hadd : (p + UInt64.ofNat k).toNat = p.toNat + k := toNat_add_ofNat (by omega)
      have hnil : (([] : List ℕ+).map PNat.val).sum = 0 := rfl
      have hne : ks ≠ [] := by
        rintro rfl
        omega
      obtain ⟨m, hm, hleft, hfailed, hsent⟩ := @ih (p + UInt64.ofNat k) (rest - UInt64.ofNat k)
        hne (by rw [hadd, hsub]; omega) (by rw [hsub]; omega)
      have hsplit : (k : ℕ) + (rest.toNat - k) = rest.toNat := by omega
      rw [if_pos hlt, hm, ok_bind]
      refine ⟨_, rfl, hleft, by simpa using hfailed, ?_⟩
      rw [Muted.after_sent, hsent, hadd, hsub, ← List.drop_drop, ← List.take_add, hsplit]
    · rw [if_neg hlt]
      exact ⟨_, rfl, rfl, rfl, rfl⟩

end FirstLoop

/-- Bytes to be sent, or an error, leave the inner loop in its place. -/
theorem innerLoop_inside {buf : Block} {rest : UInt64} {ws : List (IoRes ℕ+)} {m : Muted}
    (hrest : rest ≠ 0) (h : innerLoop buf rest ws = .ok m) : m.ends = .inside := by
  induction ws generalizing m with
  | nil =>
    rw [innerLoop] at h
    obtain rfl := Except.ok.inj h
    rfl
  | cons w ws ih =>
    have hcur : w.toWrite.cur rest ≠ 0 := by
      cases w with
      | ok k =>
        have hle : min (k : ℕ) rest.toNat ≤ rest.toNat := Nat.min_le_right _ _
        have hk := k.pos
        have hpos := (ne_zero_iff_toNat rest).mp hrest
        rw [IoRes.toWrite, WriteRes.cur, ne_zero_iff_toNat, toNat_ofNat_of_le hle]
        omega
      | err again w => exact (by decide : (-1 : UInt64) ≠ 0)
    rw [innerLoop, errBlock_eq_none] at h
    obtain ⟨sent, -, h⟩ := bind_eq_ok.mp h
    rw [if_neg hcur] at h
    obtain ⟨m', hm', h⟩ := bind_eq_ok.mp h
    have hinside := ih hm'
    rw [← Except.ok.inj h, Muted.after_ends, hinside]

/-- Neither a count of bytes read nor -1 ends the loop. -/
theorem readSiz_ne_zero (r : IoRes PageBytes) : r.readSiz ≠ 0 := by
  cases r with
  | ok b =>
    obtain ⟨b, hne, hle⟩ := b
    have hpos := List.length_pos_iff.mpr hne
    rw [IoRes.readSiz, ne_zero_iff_toNat, UInt64.toNat_ofNat_of_lt']
    · exact hpos.ne'
    · exact lt_of_le_of_lt hle (by decide)
  | err again w => exact (by decide : (-1 : UInt64) ≠ 0)

/-- **The second loop.** It ends at once, or not at all. -/
theorem readLoop_ends {buf : Block} {reads : List (IoRes PageBytes)} {ws : List (IoRes ℕ+)}
    {m : Muted} (h : readLoop buf reads ws = .ok m) :
    (reads = [] ∧ m = { sent := [], failed := false, rest := ws, ends := .returned 0 }) ∨
      m.ends = .inside := by
  cases reads with
  | nil => exact Or.inl ⟨rfl, (Except.ok.inj h).symm⟩
  | cons r rs =>
    rw [readLoop, errBlock_eq_none] at h
    obtain ⟨l, hl, h⟩ := bind_eq_ok.mp h
    have hinside := innerLoop_inside (readSiz_ne_zero r) hl
    have hne : l.ends ≠ .left := by simp [hinside]
    rw [if_neg hne] at h
    obtain rfl := Except.ok.inj h
    exact Or.inr hinside

/-- What a call that returns has done: nothing was read, and it is the first loop that was left. -/
theorem proxyMutePost_returned {addr buf : Block} {reads : List (IoRes PageBytes)}
    {ws : List (IoRes ℕ+)} {m : Muted} {ret : ℕ} (haddr : addr.length < 2 ^ 63)
    (h : proxyMutePost addr buf reads ws = .ok m) (hret : m.ends = .returned ret) :
    ∃ w r l, addr = w ++ 0 :: r ∧ (0 : UInt8) ∉ w ∧ reads = [] ∧ ret = 0 ∧ l.ends = .left ∧
      FirstLoopDone addr w.length ws 0 (UInt64.ofNat w.length) l ∧ m.sent = l.sent := by
  obtain ⟨b, hb, hcall⟩ := bind_eq_ok.mp h
  obtain ⟨l, hl, hthen⟩ := bind_eq_ok.mp hcall
  obtain ⟨w, r, rfl, hw, rfl⟩ := exists_of_strlen hb
  have hle : w.length ≤ (w ++ 0 :: r).length := by simp
  have hsize : (UInt64.ofNat w.length).toNat = w.length :=
    UInt64.toNat_ofNat_of_lt' (by rw [UInt64.size]; omega)
  have hdone := firstLoopDone haddr hle (by rw [hsize, UInt64.toNat_zero, Nat.zero_add]) hl
  by_cases hleft : l.ends = .left
  · rw [if_pos hleft] at hthen
    obtain ⟨m', hm', hthen⟩ := bind_eq_ok.mp hthen
    obtain rfl := Except.ok.inj hthen
    rcases readLoop_ends hm' with ⟨hreads, rfl⟩ | hinside
    · refine ⟨w, r, l, rfl, hw, hreads, ?_, hleft, hdone, by simp⟩
      simpa using hret.symm
    · simp [hinside] at hret
  · rw [if_neg hleft] at hthen
    obtain rfl := Except.ok.inj hthen
    rcases hdone.ends with hends | hends
    · exact absurd hends hleft
    · simp [hends] at hret

namespace Answer

variable (q : Answer)

theorem length_chunk : q.chunk.length = q.n := by
  rw [chunk, List.length_take, Nat.min_eq_left q.n_le]

theorem length_writesUpTo (k : ℕ) : (q.writesUpTo k).length = k := by simp [writesUpTo]

/-- The outcomes that a run consumes are the first ones. -/
theorem writesUpTo_of_append {k : ℕ} {ws ws' : List (IoRes ℕ+)}
    (h : q.writesUpTo k = ws ++ ws') : q.writesUpTo ws.length = ws := by
  have hlength : ws.length ≤ k := by
    rw [← q.length_writesUpTo k, h, List.length_append]
    omega
  have htake : (q.writesUpTo k).take ws.length = q.writesUpTo ws.length := by
    rw [writesUpTo, ← List.map_take, List.take_range, Nat.min_eq_left hlength, writesUpTo]
  rw [← htake, h, List.take_left']
  rfl

/-- A relayed answer has only a first chunk, which is a string that is sent without an error. -/
theorem Relayed.taken_up (h : q.Relayed) :
    q.reads = [] ∧ (0 : UInt8) ∉ q.chunk ∧ q.addr[q.n]? = some 0 ∧ q.TakenUp := by
  obtain ⟨k, m, hm, ⟨hends, hfailed, hsent⟩ | ⟨ret, hends, hret, -, -⟩⟩ := h
  · obtain ⟨w, r, l, haddr, hw, hreads, -, hleft, hdone, hlsent⟩ :=
      proxyMutePost_returned q.addr_lt hm hends
    have htake : q.addr.take w.length = w := by rw [haddr, List.take_left']; rfl
    have hall : l.sent = q.chunk := by
      rw [← hlsent, hsent, all, hreads, List.flatMap_nil, List.append_nil]
    -- what was sent is in front of the terminator
    have hchunk : (0 : UInt8) ∉ q.chunk := fun h0 => by
      have hmem := hdone.among 0 (by rw [hall]; exact h0)
      rw [htake] at hmem
      exact hw hmem
    have hnot : ¬w.length < q.n := fun hlt => by
      refine hchunk (List.mem_take_iff_getElem.mpr ⟨w.length, ?_, ?_⟩)
      · have hn := q.n_le
        omega
      · simp [haddr]
    have hsize : (UInt64.ofNat w.length).toNat = w.length := by
      have hlt := q.addr_lt
      rw [haddr, List.length_append] at hlt
      exact UInt64.toNat_ofNat_of_lt' (by rw [UInt64.size]; omega)
    rcases hdone.sent hleft with ⟨ks, hks, hws, hsum, hbytes⟩ | hmore
    · have hn : q.n = w.length := by
        rw [← q.length_chunk, ← hall, hbytes, hsize, UInt64.toNat_zero, List.drop_zero, htake]
      refine ⟨hreads, hchunk, by simp [hn, haddr], ks, hks, ?_, ?_⟩
      · have hprefix := q.writesUpTo_of_append hws
        rwa [List.length_map] at hprefix
      · rw [hsize] at hsum
        omega
    · rw [hsize, hall, q.length_chunk] at hmore
      exact absurd hmore hnot
  · obtain ⟨-, -, -, -, -, -, hzero, -⟩ := proxyMutePost_returned q.addr_lt hm hends
    exact absurd hzero hret

/-- A string that is sent without an error, and nothing behind it. -/
theorem TakenUp.relayed (h : q.TakenUp) (hreads : q.reads = []) (hchunk : (0 : UInt8) ∉ q.chunk)
    (hzero : q.addr[q.n]? = some 0) : q.Relayed := by
  obtain ⟨ks, hks, hws, hsum⟩ := h
  have haddr : q.addr = q.chunk ++ 0 :: q.addr.drop (q.n + 1) := by
    obtain ⟨hlt, hget⟩ := List.getElem?_eq_some_iff.mp hzero
    rw [← hget, List.getElem_cons_drop, chunk, List.take_append_drop]
  have hstrlen : strlen q.addr 0 = .ok q.n := by
    have hlen := @strlen_append [] q.chunk (q.addr.drop (q.n + 1)) hchunk
    rwa [List.nil_append, ← haddr, q.length_chunk] at hlen
  have hsize : (UInt64.ofNat q.n).toNat = q.n :=
    UInt64.toNat_ofNat_of_lt' (by have := q.n_le; have := q.addr_lt; rw [UInt64.size]; omega)
  obtain ⟨l, hl, hleft, hfailed, hsent⟩ := @firstLoop_oks q.addr 0 (UInt64.ofNat q.n) q.addr_lt ks
    hks (by rw [hsize, UInt64.toNat_zero, Nat.zero_add]; exact q.n_le) (by rwa [hsize])
  obtain ⟨m, hm⟩ : ∃ m : Muted, m = { sent := [], failed := false, rest := l.rest
                                      ends := .returned 0 } := ⟨_, rfl⟩
  have hread : readLoop q.buf q.reads l.rest = .ok m := by
    rw [hreads, hm]
    rfl
  refine ⟨ks.length, m.after l.sent l.failed, ?_, Or.inl ⟨?_, ?_, ?_⟩⟩
  · rw [hws, proxyMutePost, hstrlen, ok_bind, hl, ok_bind, if_pos hleft, hread, ok_bind]
    rfl
  · rw [hm]
    rfl
  · rw [hm, Muted.after_failed, hfailed]
    rfl
  · rw [hm, Muted.after_sent, List.append_nil, hsent, hsize, all, hreads, List.flatMap_nil,
      List.append_nil]
    rfl

/-- **Relayed answers.** An answer is relayed exactly if nothing is read behind the first chunk,
not even an error, and the first chunk is a string with its terminator behind it and is sent
without an error. -/
theorem relayed_iff :
    q.Relayed ↔ q.reads = [] ∧ (0 : UInt8) ∉ q.chunk ∧ q.addr[q.n]? = some 0 ∧ q.TakenUp := by
  constructor
  · intro h
    exact Relayed.taken_up q h
  · rintro ⟨hreads, hchunk, hzero, htaken⟩
    exact TakenUp.relayed q htaken hreads hchunk hzero

end Answer

/-- One byte is to be sent first, one byte is read behind it, and `write` takes a byte a call. -/
def oneMore : Answer where
  addr := ascii "a" ++ [0]
  n := 1
  buf := List.replicate pageSiz 0
  reads := [.ok ⟨ascii "b", by decide +kernel⟩]
  writes _ := .ok 1
  n_le := by decide +kernel
  addr_lt := by decide +kernel
  buf_length := List.length_replicate

/-- The byte read is sent again and again. -/
theorem not_relayed_oneMore : ¬oneMore.Relayed := by
  intro h
  obtain ⟨hreads, -⟩ := Answer.Relayed.taken_up oneMore h
  exact absurd hreads (List.cons_ne_nil _ _)

end Lidas
