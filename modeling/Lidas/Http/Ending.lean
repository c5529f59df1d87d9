import Lidas.Http.Survival

/-!
# The header loop ends

The header loop of `http_parser` on any string, harmless or not, with anything behind its
terminator. A round that comes to the call of `hash_set` has found two tokens, so that the save
pointer is behind them; and it is never behind the terminator, though the byte that the loop looks
at may be. So there are less rounds than the string has bytes.
-/

namespace Lidas

open CString

/-- A string in a buffer, with whatever is behind its terminator. -/
structure Buffer where
  bytes : List UInt8
  behind : List UInt8
  ok : (0 : UInt8) ∉ bytes

/-- The bytes in memory. -/
def Buffer.block (B : Buffer) : Block := B.bytes ++ 0 :: B.behind

/-- `http_parser` up to its header loop: the state in which the loop is entered, if it is. -/
def loopEntry (h : Block) : Except Fault (Option HeaderState) := do
  let _size ← strlen h 0
  let method ← strtokR h (some 0) [sp]
  if !(← methodTest method.text method.token) then
    return none
  let url ← strtokR method.text method.save [sp]
  if url.save = none then
    return none
  let protocal ← strtokR url.text url.save [cr, lf]
  if !(← protocalTest protocal.text protocal.token) then
    return none
  return some { text := protocal.text, toklist := protocal.save
                list := AttriTable.empty listSiz, calls := [] }

/-- An iteration that completes: the loop is not left before it, and `hash_set` returns. -/
def Completes (s s' : HeaderState) : Prop :=
  (∃ c, peek s.text s.toklist = .ok c ∧ c ≠ lf) ∧ headerRound s = .ok s'

/-- An iteration that completes, and after which `http_parser` does not return. -/
def GoesOn (s s' : HeaderState) : Prop :=
  Completes s s' ∧ ∃ c, peek s'.text s'.toklist = .ok c ∧ c ≠ 0

namespace Buffer

variable (B : Buffer)

/-- An iteration that completes moves the save pointer on, within the string, and with as many
iterations as the string has bytes the loop is left, or `http_parser` returns from inside it, or
uses a token that is `NULL`, or there is no byte to look at behind the terminator. -/
def LoopEnds : Prop :=
  ∀ s, loopEntry B.block = .ok (some s) →
    (∀ s₁ s₂, Relation.ReflTransGen GoesOn s s₁ → Completes s₁ s₂ →
      ∃ i j, s₁.toklist = some i ∧ s₂.toklist = some j ∧ i < j ∧ j ≤ B.bytes.length) ∧
    ((∃ e, headerLoop B.bytes.length s = .ok e) ∨
      headerLoop B.bytes.length s = .error .nullDeref ∨
      headerLoop B.bytes.length s = .error .outOfBounds ∧ B.behind = [])

end Buffer

/-! ### One round -/

/-- The save pointer is at a string, and the table is as `hash_set` leaves one. -/
structure Scanning (n : ℕ) (behind : List UInt8) (s : HeaderState) (i : ℕ) : Prop where
  toklist : s.toklist = some i
  string : StringAt n behind s.text (some i)
  list : ∃ calls, Filled listSiz calls s.list

section Rounds

variable {n i : ℕ} {behind : List UInt8} {s s₁ s₂ : HeaderState}

/-- The byte that the loop looks at is there, unless it would be behind the block. -/
theorem Scanning.peek_cases (h : Scanning n behind s i) :
    (∃ c, peek s.text s.toklist = .ok c) ∨
      peek s.text s.toklist = .error .outOfBounds ∧ behind = [] := by
  obtain ⟨pre, x, htext, hi, -, -⟩ := h.string
  rw [h.toklist, htext, hi]
  match x, behind with
  | [], [] => exact .inr ⟨peek_last (by simp), rfl⟩
  | [], c :: r => exact .inl ⟨c, byteAt_append_succ⟩
  | [_], r => exact .inl ⟨0, byteAt_append_succ⟩
  | _ :: c :: x, r => exact .inl ⟨c, byteAt_append_succ⟩

/-- A line with two tokens: `hash_set` returns, and the save pointer is behind them. -/
theorem Scanning.line {d cap lfs w post pre : List UInt8} {c e : UInt8}
    (h : Scanning n behind s i) (hi : pre.length = i)
    (htext : s.text = pre ++ (d ++ (cap ++ c :: (lfs ++ (w ++ e :: post)))))
    (hcap : TokenSplit [colon, sp] d cap c) (hc : c ≠ 0) (hw : TokenSplit [lf] lfs w e) :
    ∃ s', headerRound s = .ok s' ∧ s'.text = pre ++ (cutLine d cap lfs w ++ 0 :: post) ∧
      s'.toklist = some ((pre ++ cutLine d cap lfs w).length + if e = 0 then 0 else 1) ∧
      ∃ calls, Filled listSiz calls s'.list := by
  obtain ⟨key, content, text, -, -, htext', hround⟩ :=
    headerRound_tokens htext (hi ▸ h.toklist) hcap hc hw
  obtain ⟨calls, hlist⟩ := h.list
  obtain ⟨t, hset, hfilled⟩ :=
    hlist.hashSet ⟨crc32Port cap listSiz, key, content⟩ (crc32Port_lt cap (by decide))
  rw [hset, ok_bind] at hround
  exact ⟨_, hround, htext', rfl, _, hfilled⟩

/-- **One round.** It faults for want of a token, or moves the save pointer on in the string. -/
theorem Scanning.round (h : Scanning n behind s i) :
    headerRound s = .error .nullDeref ∨
      ∃ s' j, headerRound s = .ok s' ∧ Scanning n behind s' j ∧ i < j := by
  obtain ⟨pre, x, htext, hi, hx, hn⟩ := h.string
  have hi := Option.some.inj hi
  have htoklist : s.toklist = some pre.length := hi ▸ h.toklist
  rcases exists_token_or [colon, sp] hx with
    ⟨d, cap, c, y, rfl, hc, hcap⟩ | ⟨d, cap, rfl, hcap⟩ | hd
  · have hassoc (r : List UInt8) : d ++ (cap ++ c :: y) ++ r = d ++ (cap ++ c :: (y ++ r)) := by
      simp
    rw [hassoc] at htext
    have hy : (0 : UInt8) ∉ y := fun h0 => hx (by simp [h0])
    rcases exists_token_or [lf] hy with
      ⟨lfs, w, e, z, rfl, he, hw⟩ | ⟨lfs, w, rfl, hw⟩ | hlfs
    · -- the line is ended by a line feed, and `z` is behind it
      have hassoc' : lfs ++ (w ++ e :: z) ++ 0 :: behind =
          lfs ++ (w ++ e :: (z ++ 0 :: behind)) := by
        simp
      rw [hassoc'] at htext
      obtain ⟨s', hround, htext', htoklist', hlist⟩ := h.line hi.symm htext hcap hc hw
      rw [if_neg he] at htoklist'
      refine .inr ⟨s', _, hround, ⟨htoklist', ?_, hlist⟩, ?_⟩
      · refine ⟨pre ++ (cutLine d cap lfs w ++ [0]), z, ?_, ?_, fun h0 => hy (by simp [h0]), ?_⟩
        · rw [htext']
          simp
        · simp [Nat.add_assoc]
        · rw [← hn]
          simp only [List.length_append, List.length_cons, List.length_nil, length_cutLine]
          omega
      · rw [List.length_append, length_cutLine]
        omega
    · -- the line goes up to the terminator
      rw [List.append_assoc lfs] at htext
      obtain ⟨s', hround, htext', htoklist', hlist⟩ := h.line hi.symm htext hcap hc hw
      rw [if_pos rfl, Nat.add_zero] at htoklist'
      refine .inr ⟨s', _, hround, ⟨htoklist', ?_, hlist⟩, ?_⟩
      · refine ⟨pre ++ cutLine d cap lfs w, [], ?_, rfl, List.not_mem_nil, ?_⟩
        · rw [htext', List.append_assoc, List.nil_append]
        · rw [← hn]
          simp only [List.length_append, List.length_cons, List.length_nil, length_cutLine]
          omega
      · rw [List.length_append, length_cutLine]
        omega
    · -- only line feeds are behind the caption: the content is `NULL`
      have hfirst := strtokR_delim pre (y ++ 0 :: behind) hcap hc
      rw [← htext, ← htoklist] at hfirst
      exact .inl (headerRound_noContent hfirst (strtokR_null _ behind hlfs) rfl)
  · -- neither a colon nor a blank ends the caption
    have hfirst := strtokR_end pre behind hcap
    rw [← List.append_assoc d, ← htext, ← htoklist] at hfirst
    exact .inl (headerRound_cut hfirst)
  · -- nothing but delimiters is left
    have hfirst : strtokR s.text s.toklist [colon, sp] = .ok
        { token := none, save := some (pre ++ x).length, text := (pre ++ x) ++ 0 :: behind } := by
      rw [htext, htoklist, strtokR_null pre behind hd, List.length_append, List.append_assoc]
    exact .inl (headerRound_cut hfirst)

/-- In every iteration the save pointer is in the string. -/
theorem Scanning.goesOn (h : Scanning n behind s i) (hrun : Relation.ReflTransGen GoesOn s s₁) :
    ∃ j, Scanning n behind s₁ j := by
  induction hrun with
  | refl => exact ⟨i, h⟩
  | tail _ hstep ih =>
    obtain ⟨j, hj⟩ := ih
    obtain ⟨⟨-, hround⟩, -⟩ := hstep
    rcases hj.round with herror | ⟨s', k, hround', hk, -⟩
    · rw [hround] at herror
      cases herror
    · obtain rfl := Except.ok.inj (hround.symm.trans hround')
      exact ⟨k, hk⟩

/-- **The run.** With a round for every byte up to the terminator the loop comes to an end. -/
theorem Scanning.headerLoop (h : Scanning n behind s i) {fuel : ℕ} (hfuel : n < i + fuel) :
    (∃ e, headerLoop fuel s = .ok e) ∨ headerLoop fuel s = .error .nullDeref ∨
      headerLoop fuel s = .error .outOfBounds ∧ behind = [] := by
  induction fuel generalizing s i with
  | zero => exact absurd hfuel (not_lt.mpr h.string.le)
  | succ fuel ih =>
    rw [Lidas.headerLoop]
    rcases h.peek_cases with ⟨c, hc⟩ | ⟨hout, hbehind⟩
    · rw [hc, ok_bind]
      split_ifs with hlf
      · exact .inl ⟨_, rfl⟩
      rcases h.round with herror | ⟨s', j, hround, hj, hlt⟩
      · rw [herror, error_bind]
        exact .inr (.inl rfl)
      rw [hround, ok_bind]
      rcases hj.peek_cases with ⟨c', hc'⟩ | ⟨hout, hbehind⟩
      · rw [hc', ok_bind]
        split_ifs with h0
        · exact .inl ⟨_, rfl⟩
        · exact ih hj (by omega)
      · rw [hout, error_bind]
        exact .inr (.inr ⟨rfl, hbehind⟩)
    · rw [hout, error_bind]
      exact .inr (.inr ⟨rfl, hbehind⟩)

end Rounds

/-! ### The way to the loop -/

section Entry

variable {b : Block} {s : HeaderState}

/-- Behind `loopEntry` there is nothing but the loop and what follows it. -/
theorem httpParser_of_loopEntry (h : loopEntry b = .ok (some s)) :
    ∃ method url protocal,
      httpParser b = parseRest b.length method url protocal s.text s.toklist ∧
        s.list = AttriTable.empty listSiz ∧ s.calls = [] := by
  obtain ⟨size, hsize, h⟩ := bind_eq_ok.mp h
  obtain ⟨method, hmethod, h⟩ := bind_eq_ok.mp h
  obtain ⟨good, hgood, h⟩ := bind_eq_ok.mp h
  cases good with
  | false => cases h
  | true =>
    obtain ⟨url, hurl, h⟩ := bind_eq_ok.mp h
    by_cases hsave : url.save = none
    · rw [if_pos hsave] at h
      cases h
    rw [if_neg hsave] at h
    obtain ⟨protocal, hprotocal, h⟩ := bind_eq_ok.mp h
    obtain ⟨good, hgood', h⟩ := bind_eq_ok.mp h
    cases good with
    | false => cases h
    | true =>
      cases h
      refine ⟨method.token, url.token, protocal.token, ?_, rfl, rfl⟩
      simp only [httpParser, hsize, hmethod, hgood, parseUrl, hurl, hsave, parseProtocal, hprotocal,
        hgood', ok_bind, Bool.not_true, Bool.false_eq_true, if_false]

/-- The loop is entered in the string, and not at its first byte. -/
theorem Buffer.exists_scanning (B : Buffer) (h : loopEntry B.block = .ok (some s)) :
    ∃ i, Scanning B.bytes.length B.behind s i ∧ 0 < i := by
  obtain ⟨size, -, h⟩ := bind_eq_ok.mp h
  obtain ⟨method, hmethod, h⟩ := bind_eq_ok.mp h
  have hstart : StringAt B.bytes.length B.behind B.block (some 0) :=
    ⟨[], B.bytes, rfl, rfl, B.ok, Nat.zero_add _⟩
  obtain ⟨r, i, hr, hsave, hstring, -, hlt⟩ := hstart.strtokR [sp]
  obtain rfl := Except.ok.inj (hmethod.symm.trans hr)
  obtain ⟨good, hgood, h⟩ := bind_eq_ok.mp h
  have hpos : 0 < i := by
    refine hlt fun hnone => ?_
    rw [methodTest, strcmpAny, hnone] at hgood
    cases hgood
  cases good with
  | false => cases h
  | true =>
    obtain ⟨url, hurl, h⟩ := bind_eq_ok.mp h
    rw [hsave] at hurl
    obtain ⟨r, j, hr, hsave', hstring', hle, -⟩ := hstring.strtokR [sp]
    obtain rfl := Except.ok.inj (hurl.symm.trans hr)
    rw [hsave', if_neg (Option.some_ne_none j)] at h
    obtain ⟨protocal, hprotocal, h⟩ := bind_eq_ok.mp h
    obtain ⟨r, k, hr, hsave'', hstring'', hle', -⟩ := hstring'.strtokR [cr, lf]
    obtain rfl := Except.ok.inj (hprotocal.symm.trans hr)
    obtain ⟨good, -, h⟩ := bind_eq_ok.mp h
    cases good with
    | false => cases h
    | true =>
      cases h
      exact ⟨k, ⟨hsave'', hstring'', [], filled_empty listSiz⟩, by omega⟩

end Entry

/-- The header loop ends on every string. -/
theorem Buffer.loopEnds (B : Buffer) : B.LoopEnds := by
  intro s hs
  obtain ⟨i, hi, hpos⟩ := B.exists_scanning hs
  refine ⟨fun s₁ s₂ hrun hstep => ?_, hi.headerLoop (by omega)⟩
  obtain ⟨j, hj⟩ := hi.goesOn hrun
  rcases hj.round with herror | ⟨s', k, hround, hk, hlt⟩
  · rw [hstep.2] at herror
    cases herror
  · obtain rfl := Except.ok.inj (hstep.2.symm.trans hround)
    exact ⟨j, k, hj.toklist, hk.toklist, hlt, hk.string.le⟩

end Lidas
