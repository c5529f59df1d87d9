import Lidas.Send.MutePost

/-!
# What `post_loop` promises

`post_loop` is to send a whole buffer or to report a failure. `postCalls` lists the ranges that
it passes to `write`, and `RightFrom` is the promise for a run that has come to an offset and has
sent some bytes already.

A call that fails leaves `post_loop` one byte further back than it was, whatever the reason: in
front of the buffer if nothing was sent, otherwise at a byte that it sends once more.
`Unbroken` says for which outcomes of `write` a run keeps the promise nevertheless.
-/

namespace Lidas

/-- What a round of `post_loop` does with an outcome of `write`: it returns a value, or goes on
with another offset and rest. -/
def postRound (w : WriteRes) (p rest : UInt64) : ℤ ⊕ (UInt64 × UInt64) :=
  let cur := w.cur rest
  if cur = 0 then .inl 0
  else if cur < 0 then
    if cur = eagain then
      if w.wait ≠ 0 then .inl (-1) else .inr (p, rest)
    else .inl (-1)
  else if rest - cur = 0 then .inl 0
  else .inr (p + cur, rest - cur)

theorem postLoop_cons (data : Block) (w : WriteRes) (ws : List WriteRes) (p rest : UInt64) :
    postLoop data (w :: ws) p rest = do
      let bytes ← taken data p (w.taken rest)
      match postRound w p rest with
      | .inl ret => return { sent := bytes, left := ws, ret := some ret }
      | .inr next => do
        let r ← postLoop data ws next.1 next.2
        return { r with sent := bytes ++ r.sent } := by
  rw [postLoop]
  cases taken data p (w.taken rest) with
  | error e => rfl
  | ok bytes =>
    simp only [ok_bind, postRound]
    split_ifs <;> rfl

/-- The ranges passed to `write`, each by its offset and its length. The last one is that of the
call a run is inside of, if it is. -/
def postCalls : List WriteRes → UInt64 → UInt64 → List (UInt64 × UInt64)
  | [], p, rest => [(p, rest)]
  | w :: ws, p, rest =>
    match postRound w p rest with
    | .inl _ => [(p, rest)]
    | .inr next => (p, rest) :: postCalls ws next.1 next.2

/-- The range lies in the buffer. -/
def InBuffer (data : Block) (c : UInt64 × UInt64) : Prop := c.1.toNat + c.2.toNat ≤ data.length

instance (data : Block) (c : UInt64 × UInt64) : Decidable (InBuffer data c) :=
  inferInstanceAs (Decidable (_ ≤ _))

theorem inBuffer_iff {data : Block} {p rest : UInt64} :
    InBuffer data (p, rest) ↔ p.toNat + rest.toNat ≤ data.length := Iff.rfl

/-- The first call of a run is given the offset and the rest. -/
theorem mem_postCalls (ws : List WriteRes) (p rest : UInt64) :
    (p, rest) ∈ postCalls ws p rest := by
  cases ws with
  | nil => exact List.mem_cons_self
  | cons w ws =>
    rw [postCalls]
    cases postRound w p rest <;> exact List.mem_cons_self

/-- The call failed for good: not with `EAGAIN`, or the wait for the descriptor failed. -/
def IoRes.hard {α : Type} : IoRes α → Prop
  | ok _ => False
  | err again wait => again = false ∨ wait ≠ 0

/-- The outcomes that a run has consumed. -/
def Posted.consumed (r : Posted) (ws : List (IoRes ℕ+)) : List (IoRes ℕ+) :=
  ws.take (ws.length - r.left.length)

/-- The promise of `post_loop`, from an offset on and with some bytes sent before: the ranges lie
in the buffer, `0` is returned only when the bytes sent are the buffer, and `-1` if and only if
a call failed for good, with a proper prefix sent. -/
def RightFrom (data sent : List UInt8) (ws : List (IoRes ℕ+)) (p rest : UInt64) : Prop :=
  (∀ c ∈ postCalls (ws.map IoRes.toWrite) p rest, InBuffer data c) ∧
    ∃ r, postLoop data (ws.map IoRes.toWrite) p rest = .ok r ∧
      (r.ret = some 0 → sent ++ r.sent = data) ∧
      (r.ret = some (-1) ↔ ∃ w ∈ r.consumed ws, w.hard) ∧
      (r.ret = some (-1) → sent ++ r.sent <+: data ∧ sent ++ r.sent ≠ data)

/-- `post_loop (fd, data, size, obj)` keeps its promise. -/
def SendsRight (data : List UInt8) (ws : List (IoRes ℕ+)) : Prop :=
  RightFrom data [] ws 0 (UInt64.ofNat data.length)

/-- No call fails before the buffer of `n` bytes has been accepted; or all that do fail do so with
`EAGAIN` and are waited for, each when more bytes have been accepted than calls have failed
before, and the bytes accepted have not come to exceed the failed calls by `n`. `p` is the
difference of these two numbers, and `blocked` says that a call has failed. -/
def Unbroken (n : ℕ) : ℕ → Bool → List (IoRes ℕ+) → Prop
  | _, _, [] => True
  | p, blocked, .ok k :: ws => if n ≤ p + k then blocked = false else Unbroken n (p + k) blocked ws
  | p, _, .err again wait :: ws =>
    ¬(again = false ∨ wait ≠ 0) ∧ p ≠ 0 ∧ Unbroken n (p - 1) true ws

instance decidableUnbroken :
    (n p : ℕ) → (blocked : Bool) → (ws : List (IoRes ℕ+)) → Decidable (Unbroken n p blocked ws)
  | _, _, _, [] => isTrue trivial
  | n, p, blocked, .ok k :: ws =>
    have := decidableUnbroken n (p + k) blocked ws
    inferInstanceAs (Decidable
      (if n ≤ p + k then blocked = false else Unbroken n (p + k) blocked ws))
  | n, p, _, .err again wait :: ws =>
    have := decidableUnbroken n (p - 1) true ws
    inferInstanceAs (Decidable
      (¬(again = false ∨ wait ≠ 0) ∧ p ≠ 0 ∧ Unbroken n (p - 1) true ws))

/-! ### Rounds -/

section Rounds

variable {data : Block} {p rest : UInt64}

theorem postRound_ok {k : ℕ+} (hrest : rest.toNat ≠ 0) :
    postRound (.ok k) p rest = if rest.toNat ≤ k then .inl 0
      else .inr (p + UInt64.ofNat k, rest - UInt64.ofNat k) := by
  have hk := k.pos
  obtain ⟨t, ht⟩ : ∃ t, t = min (k : ℕ) rest.toNat := ⟨_, rfl⟩
  have hle : t ≤ rest.toNat := by omega
  have hcur : UInt64.ofNat t ≠ 0 := by
    rw [ne_zero_iff_toNat, toNat_ofNat_of_le hle]
    omega
  have hsub := toNat_sub_ofNat hle
  have hzero : rest - UInt64.ofNat t = 0 ↔ rest.toNat ≤ k := by
    rw [← UInt64.toNat_inj, UInt64.toNat_zero, hsub]
    omega
  simp only [postRound, WriteRes.cur, ← ht, if_neg hcur, if_neg UInt64.not_lt_zero, hzero]
  split_ifs with hall
  · rfl
  · have htk : t = k := by omega
    rw [htk]

/-- A call that fails steps back, whatever the reason. -/
theorem postRound_err {w : ℕ} (hrest : rest.toNat + 1 < 2 ^ 64) :
    postRound (.err w) p rest = .inr (p + -1, rest + 1) := by
  have hcur : (-1 : UInt64) ≠ 0 := by decide
  have hne : rest + 1 ≠ 0 := by
    rw [ne_zero_iff_toNat, toNat_add_one hrest]
    omega
  simp only [postRound, WriteRes.cur, if_neg hcur, if_neg UInt64.not_lt_zero, sub_neg_one,
    if_neg hne]

theorem postRound_inl {w : WriteRes} {ret : ℤ} (h : postRound w p rest = .inl ret) : ret = 0 := by
  simp only [postRound, if_neg UInt64.not_lt_zero] at h
  split_ifs at h <;> exact (Sum.inl.inj h).symm

/-- `post_loop` never returns `-1`. -/
theorem postLoop_ret {ws : List WriteRes} {r : Posted} (h : postLoop data ws p rest = .ok r) :
    r.ret ≠ some (-1) ∧ r.left.length ≤ ws.length := by
  induction ws generalizing p rest r with
  | nil =>
    rw [postLoop] at h
    cases h
    exact ⟨by decide, Nat.le_refl _⟩
  | cons w ws ih =>
    rw [postLoop_cons] at h
    obtain ⟨bytes, -, h⟩ := bind_eq_ok.mp h
    cases hround : postRound w p rest with
    | inl ret =>
      obtain rfl := postRound_inl hround
      rw [hround] at h
      cases h
      exact ⟨fun hret => absurd (Option.some.inj hret) (by decide), Nat.le_succ _⟩
    | inr next =>
      rw [hround] at h
      obtain ⟨r', hr', h⟩ := bind_eq_ok.mp h
      cases h
      obtain ⟨hret, hleft⟩ := ih hr'
      exact ⟨hret, Nat.le_succ_of_le hleft⟩

end Rounds

/-! ### The promise, round by round -/

section Promise

variable {data sent bytes : List UInt8} {w : IoRes ℕ+} {ws : List (IoRes ℕ+)} {p rest : UInt64}

/-- Since `-1` is never returned, no call may have failed for good. -/
theorem rightFrom_iff_not_hard : RightFrom data sent ws p rest ↔
    (∀ c ∈ postCalls (ws.map IoRes.toWrite) p rest, InBuffer data c) ∧
      ∃ r, postLoop data (ws.map IoRes.toWrite) p rest = .ok r ∧
        (r.ret = some 0 → sent ++ r.sent = data) ∧ ∀ w ∈ r.consumed ws, ¬w.hard := by
  refine and_congr_right fun _ => exists_congr fun r => and_congr_right fun hr =>
    and_congr_right fun _ => ?_
  have hret := (postLoop_ret hr).1
  constructor
  · rintro ⟨hiff, -⟩ w hw hhard
    exact hret (hiff.mpr ⟨w, hw, hhard⟩)
  · intro hnone
    exact ⟨iff_of_false hret fun ⟨w, hw, hhard⟩ => hnone w hw hhard, fun h => absurd h hret⟩

/-- A round that ends the run. -/
theorem rightFrom_inl (hround : postRound w.toWrite p rest = .inl 0)
    (hbytes : taken data p (w.toWrite.taken rest) = .ok bytes) :
    RightFrom data sent (w :: ws) p rest ↔
      InBuffer data (p, rest) ∧ sent ++ bytes = data ∧ ¬w.hard := by
  have hrun : postLoop data ((w :: ws).map IoRes.toWrite) p rest =
      .ok { sent := bytes, left := ws.map IoRes.toWrite, ret := some 0 } := by
    rw [List.map_cons, postLoop_cons, hbytes, ok_bind, hround]
    rfl
  have hcalls : postCalls ((w :: ws).map IoRes.toWrite) p rest = [(p, rest)] := by
    rw [List.map_cons, postCalls, hround]
  have hconsumed : Posted.consumed
      { sent := bytes, left := ws.map IoRes.toWrite, ret := some 0 } (w :: ws) = [w] := by
    rw [Posted.consumed, List.length_map, List.length_cons, Nat.add_sub_cancel_left]
    rfl
  rw [rightFrom_iff_not_hard, hcalls, hrun, List.forall_mem_singleton]
  refine and_congr_right fun _ => ⟨?_, fun ⟨hsent, hhard⟩ => ?_⟩
  · rintro ⟨r, hr, hsent, hhard⟩
    obtain rfl := Except.ok.inj hr
    rw [hconsumed, List.forall_mem_singleton] at hhard
    exact ⟨hsent rfl, hhard⟩
  · refine ⟨_, rfl, fun _ => hsent, ?_⟩
    rw [hconsumed, List.forall_mem_singleton]
    exact hhard

/-- A round that goes on. -/
theorem rightFrom_inr {next : UInt64 × UInt64} (hround : postRound w.toWrite p rest = .inr next)
    (hbytes : taken data p (w.toWrite.taken rest) = .ok bytes) :
    RightFrom data sent (w :: ws) p rest ↔ InBuffer data (p, rest) ∧ ¬w.hard ∧
      RightFrom data (sent ++ bytes) ws next.1 next.2 := by
  have hrun : postLoop data ((w :: ws).map IoRes.toWrite) p rest = do
      let r ← postLoop data (ws.map IoRes.toWrite) next.1 next.2
      return { r with sent := bytes ++ r.sent } := by
    rw [List.map_cons, postLoop_cons, hbytes, ok_bind, hround]
  have hcalls : postCalls ((w :: ws).map IoRes.toWrite) p rest =
      (p, rest) :: postCalls (ws.map IoRes.toWrite) next.1 next.2 := by
    rw [List.map_cons, postCalls, hround]
  -- the round's own outcome is consumed before those of the rest of the run
  have hconsumed : ∀ r, postLoop data (ws.map IoRes.toWrite) next.1 next.2 = .ok r →
      Posted.consumed { r with sent := bytes ++ r.sent } (w :: ws) = w :: r.consumed ws := by
    intro r hr
    have hleft := (postLoop_ret hr).2
    rw [List.length_map] at hleft
    rw [Posted.consumed, List.length_cons, Nat.succ_sub hleft, List.take_succ_cons, Posted.consumed]
  rw [rightFrom_iff_not_hard, rightFrom_iff_not_hard, hcalls, hrun, List.forall_mem_cons, and_assoc]
  refine and_congr_right fun _ => ?_
  constructor
  · rintro ⟨hcalls, r, hr, hsent, hhard⟩
    obtain ⟨r', hr', hr⟩ := bind_eq_ok.mp hr
    obtain rfl := Except.ok.inj hr
    rw [hconsumed r' hr', List.forall_mem_cons] at hhard
    exact ⟨hhard.1, hcalls, r', hr', fun hret => by rw [← hsent hret, List.append_assoc], hhard.2⟩
  · rintro ⟨hw, hcalls, r, hr, hsent, hhard⟩
    refine ⟨hcalls, _, bind_eq_ok.mpr ⟨r, hr, rfl⟩, fun hret => ?_, ?_⟩
    · rw [← hsent hret, List.append_assoc]
    · rw [hconsumed r hr, List.forall_mem_cons]
      exact ⟨hw, hhard⟩

/-- A call inside the buffer that accepts up to `k` bytes. -/
theorem rightFrom_ok (k : ℕ+) (hp : p.toNat < data.length)
    (hrest : rest.toNat = data.length - p.toNat) :
    RightFrom data sent (.ok k :: ws) p rest ↔
      if data.length ≤ p.toNat + k then sent ++ data.drop p.toNat = data
      else RightFrom data (sent ++ (data.drop p.toNat).take k) ws (p + UInt64.ofNat k)
        (rest - UInt64.ofNat k) := by
  have hk := k.pos
  have hin : InBuffer data (p, rest) := inBuffer_iff.mpr (by omega)
  have hround : postRound (IoRes.toWrite (.ok k)) p rest = _ := postRound_ok (by omega)
  obtain ⟨t, ht⟩ : ∃ t, t = min (k : ℕ) rest.toNat := ⟨_, rfl⟩
  have hbytes : taken data p (WriteRes.taken rest (IoRes.toWrite (.ok k))) =
      .ok ((data.drop p.toNat).take t) := by
    simp only [IoRes.toWrite, WriteRes.taken, ← ht]
    rw [taken, if_neg (by omega), if_pos (by omega)]
  split_ifs with hall
  · -- the last bytes are sent
    rw [if_pos (by omega)] at hround
    have hdrop : (data.drop p.toNat).take t = data.drop p.toNat := by
      refine List.take_of_length_le ?_
      rw [List.length_drop]
      omega
    rw [rightFrom_inl hround hbytes, hdrop]
    exact ⟨fun h => h.2.1, fun h => ⟨hin, h, id⟩⟩
  · rw [if_neg (by omega)] at hround
    have htk : t = k := by omega
    rw [rightFrom_inr hround hbytes, htk]
    exact ⟨fun h => h.2.2, fun h => ⟨hin, id, h⟩⟩

/-- A call inside the buffer that fails. -/
theorem rightFrom_err {again : Bool} {wait : ℕ} (hin : p.toNat + rest.toNat ≤ data.length)
    (hrest : rest.toNat + 1 < 2 ^ 64) : RightFrom data sent (.err again wait :: ws) p rest ↔
      ¬(again = false ∨ wait ≠ 0) ∧ RightFrom data sent ws (p + -1) (rest + 1) := by
  have hround : postRound (IoRes.toWrite (.err again wait)) p rest = _ := postRound_err hrest
  have hbytes : taken data p (WriteRes.taken rest (IoRes.toWrite (.err again wait))) = .ok [] := rfl
  rw [rightFrom_inr hround hbytes, List.append_nil]
  exact ⟨fun h => h.2, fun h => ⟨inBuffer_iff.mpr hin, h⟩⟩

/-- The next call after a failed one at the first byte is given a range in front of the buffer. -/
theorem not_rightFrom_before (hlen : data.length < 2 ^ 63) (hp : p.toNat = 0) :
    ¬RightFrom data sent ws (p + -1) rest := by
  rintro ⟨hcalls, -⟩
  have hnext := inBuffer_iff.mp (hcalls _ (mem_postCalls _ _ _))
  rw [toNat_add_neg_one, if_pos hp] at hnext
  omega

/-- The promise from an offset inside the buffer on. As long as no call has failed, what was
sent are the bytes before the offset; afterwards it is more than that. -/
theorem rightFrom_iff_unbroken {blocked : Bool} (hlen : data.length < 2 ^ 63)
    (hp : p.toNat < data.length) (hrest : rest.toNat = data.length - p.toNat)
    (hfree : blocked = false → sent = data.take p.toNat)
    (hblocked : blocked = true → p.toNat < sent.length) :
    RightFrom data sent ws p rest ↔ Unbroken data.length p.toNat blocked ws := by
  induction ws generalizing p rest sent blocked with
  | nil =>
    rw [rightFrom_iff_not_hard, Unbroken]
    refine iff_of_true ⟨fun c hc => ?_, _, rfl, ?_, fun w hw => ?_⟩ trivial
    · obtain rfl := List.mem_singleton.mp hc
      exact inBuffer_iff.mpr (by omega)
    · rintro ⟨⟩
    · cases hw
  | cons w ws ih =>
    rcases w with k | ⟨again, wait⟩
    · rw [rightFrom_ok k hp hrest, Unbroken]
      split_ifs with hall
      · constructor
        · intro hsent
          rw [Bool.eq_false_iff]
          intro hb
          -- bytes were sent twice, so that there are too many in the end
          have hmore := hblocked hb
          have hlength := congrArg List.length hsent
          rw [List.length_append, List.length_drop] at hlength
          omega
        · intro hb
          rw [hfree hb, List.take_append_drop]
      · have hadd : (p + UInt64.ofNat k).toNat = p.toNat + k := toNat_add_ofNat (by omega)
        have hsub : (rest - UInt64.ofNat k).toNat = rest.toNat - k := toNat_sub_ofNat (by omega)
        have hfree' : blocked = false → sent ++ (data.drop p.toNat).take k =
            data.take (p + UInt64.ofNat k).toNat := fun hb => by
          rw [hfree hb, hadd, List.take_add]
        have hblocked' : blocked = true →
            (p + UInt64.ofNat k).toNat < (sent ++ (data.drop p.toNat).take k).length := fun hb => by
          have hmore := hblocked hb
          rw [List.length_append, List.length_take, List.length_drop]
          omega
        have hrest' : (rest - UInt64.ofNat k).toNat =
            data.length - (p + UInt64.ofNat k).toNat := by omega
        rw [ih (by omega) hrest' hfree' hblocked', hadd]
    · rw [rightFrom_err (by omega) (by omega), Unbroken]
      refine and_congr_right fun _ => ?_
      -- an error moves the pointer back by one byte, out of the buffer from its start
      by_cases hzero : p.toNat = 0
      · exact iff_of_false (not_rightFrom_before hlen hzero) fun h => h.1 hzero
      · have hback := toNat_add_neg_one p
        rw [if_neg hzero] at hback
        have hforth : (rest + 1).toNat = rest.toNat + 1 := toNat_add_one (by omega)
        have hmore : (p + -1).toNat < sent.length := by
          rcases blocked with _ | _
          · rw [hfree rfl, List.length_take]
            omega
          · have hmore := hblocked rfl
            omega
        have hrest' : (rest + 1).toNat = data.length - (p + -1).toNat := by omega
        rw [ih (by omega) hrest' (by rintro ⟨⟩) fun _ : true = true => hmore, hback]
        exact ⟨fun h => ⟨hzero, h⟩, fun h => h.2⟩

end Promise

/-- **The promise, exactly.** `post_loop` keeps it in the runs in which no call fails, and in
those that have blocked but stay inside the buffer and do not come to an end. -/
theorem sendsRight_iff (data : List UInt8) (hne : 1 ≤ data.length) (hlen : data.length < 2 ^ 63)
    (ws : List (IoRes ℕ+)) : SendsRight data ws ↔ Unbroken data.length 0 false ws := by
  have hsize : (UInt64.ofNat data.length).toNat = data.length :=
    UInt64.toNat_ofNat_of_lt' (show data.length < 2 ^ 64 by omega)
  exact rightFrom_iff_unbroken hlen hne hsize (fun _ => rfl) (by rintro ⟨⟩)

/-- Three bytes go out in two calls. -/
theorem sendsRight_three : SendsRight [65, 66, 67] [.ok 2, .ok 1] :=
  (sendsRight_iff [65, 66, 67] (by decide) (by decide) [.ok 2, .ok 1]).mpr (by decide)

/-- When the first call blocks, the next one is given a range in front of the buffer. -/
theorem not_sendsRight_blocked : ¬∀ (data : List UInt8) (ws : List (IoRes ℕ+)),
    1 ≤ data.length → data.length < 2 ^ 63 → SendsRight data ws := by
  intro h
  obtain ⟨hcalls, -⟩ := h [65] [.err true 0] (by decide) (by decide)
  exact absurd (hcalls (-1, 2) (by decide)) (by decide)

end Lidas
