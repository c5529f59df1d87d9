import Lidas.Http.Parser

/-!
# The header loop of `http_parser`

One round of the loop takes a line apart at two places: the token `capture` ends at a colon
or a space, the token `content_cap` at a line feed. `Entered` is the loop invariant. It
splits the text into the part the loop is done with and the part it still has to scan; the
save pointer stands between them, and every string that was handed to `hash_set` ends
inside the first part, so no later round can change it. `Entered.round` carries the
invariant over one round, for every line that has the two tokens.
-/

namespace Lidas

open CString

/-! ### The content of a line -/

/-- What `lida_breakline` makes of a string. -/
def blank (v : List UInt8) : List UInt8 := v.map fun c => if c = cr ∨ c = lf then 0 else c

/-- The string `content_cap` addresses once the leading spaces are skipped and the line is
broken: it ends at the first carriage return. -/
def lineContent (w : List UInt8) : List UInt8 :=
  (w.dropWhile (· == sp)).takeWhile (· != cr)

@[simp] theorem length_blank (v : List UInt8) : (blank v).length = v.length := by
  simp [blank]

/-- Line breaks in a string are overwritten. -/
theorem breakline_append {v r : List UInt8} (hv : (0 : UInt8) ∉ v) :
    breakline (v ++ 0 :: r) = .ok (blank v ++ 0 :: r) := by
  induction v with
  | nil => rfl
  | cons x v ih =>
    have hx : x ≠ 0 := fun h0 => hv (by simp [h0])
    rw [List.cons_append, breakline, if_neg hx, ih fun h => hv (by simp [h])]
    rfl

theorem lidaBreakline_append {pre v r : List UInt8} (hv : (0 : UInt8) ∉ v) :
    lidaBreakline (pre ++ (v ++ 0 :: r)) pre.length = .ok (pre ++ (blank v ++ 0 :: r)) := by
  rw [lidaBreakline, List.drop_left, List.take_left, breakline_append hv]
  rfl

/-- No byte is added or removed. -/
theorem length_breakline {l l' : List UInt8} (h : breakline l = .ok l') : l'.length = l.length := by
  induction l generalizing l' with
  | nil => cases h
  | cons c l ih =>
    rw [breakline] at h
    by_cases hc : c = 0
    · rw [if_pos hc] at h
      cases h
      rfl
    · rw [if_neg hc] at h
      cases hl : breakline l with
      | error e => rw [hl] at h; cases h
      | ok m =>
        rw [hl] at h
        cases h
        simp [ih hl]

theorem length_lidaBreakline {b b' : Block} {p : ℕ} (h : lidaBreakline b p = .ok b') :
    b'.length = b.length := by
  rw [lidaBreakline] at h
  cases hl : breakline (b.drop p) with
  | error e => rw [hl] at h; cases h
  | ok m =>
    rw [hl] at h
    cases h
    have hlen := length_breakline hl
    rw [List.length_drop] at hlen
    rw [List.length_append, List.length_take, hlen]
    omega

/-- A broken line is a string that ends at its first carriage return. -/
theorem exists_blank_eq {v : List UInt8} (hv : lf ∉ v) :
    ∃ r, blank v ++ [0] = v.takeWhile (· != cr) ++ 0 :: r := by
  induction v with
  | nil => exact ⟨[], rfl⟩
  | cons x v ih =>
    obtain ⟨r, hr⟩ := ih fun h => hv (by simp [h])
    have hx : x ≠ lf := fun h => hv (by simp [h])
    by_cases hcr : x = cr
    · exact ⟨blank v ++ [0], by simp [blank, hcr]⟩
    · refine ⟨r, ?_⟩
      have hhead : blank (x :: v) = x :: blank v := by simp [blank, hcr, hx]
      rw [hhead, List.cons_append, hr]
      simp [hcr]

/-! ### The invariant -/

/-- The key and the content of a call of `hash_set`, as strings. -/
structure Entry where
  key : List UInt8
  content : List UInt8
  deriving DecidableEq

/-- A call of `hash_set` passed the strings of an entry, and they end inside `done`. -/
structure HeaderCall.Stores (done : List UInt8) (c : HeaderCall) (e : Entry) : Prop where
  named : cstr c.text c.key = .ok e.key
  passed : cstr c.text c.content = .ok e.content
  key : cstr done c.key = .ok e.key
  content : cstr done c.content = .ok e.content

/-- What was stored stays when more is read. -/
theorem HeaderCall.Stores.append {done : List UInt8} {c : HeaderCall} {e : Entry}
    (h : c.Stores done e) (r : List UInt8) : c.Stores (done ++ r) e where
  named := h.named
  passed := h.passed
  key := cstr_mono h.key r
  content := cstr_mono h.content r

/-- A call of `hash_set` as the table sees it. -/
def HeaderCall.setCall (c : HeaderCall) (e : Entry) : SetCall ℕ ℕ :=
  { cnt := crc32Port e.key listSiz, key := c.key, content := c.content }

/-- **The loop invariant.** The text is `done ++ rest` with the save pointer at `rest`, the
calls made so far stored the given entries, and the table is the one they fill. -/
structure Entered (entries : List Entry) (done rest : List UInt8) (s : HeaderState) : Prop where
  text : s.text = done ++ rest
  toklist : s.toklist = some done.length
  calls : List.Forall₂ (HeaderCall.Stores done) s.calls entries
  list : Filled listSiz (List.zipWith HeaderCall.setCall s.calls entries) s.list

theorem entered_nil {done rest : List UInt8} :
    Entered [] done rest
      { text := done ++ rest, toklist := some done.length
        list := AttriTable.empty listSiz, calls := [] } where
  text := rfl
  toklist := rfl
  calls := .nil
  list := filled_empty listSiz

variable {entries : List Entry} {done : List UInt8} {s : HeaderState}

/-- Behind the last byte there is nothing to read. -/
theorem peek_last {b : Block} {i : ℕ} (h : b.length = i + 1) :
    peek b (some i) = .error .outOfBounds := by
  simp [peek, deref, byteAt, h]

/-- `*(toklist+1)` is the second byte of what is left to scan. -/
theorem Entered.peek_eq {a b : UInt8} {r : List UInt8} (h : Entered entries done (a :: b :: r) s) :
    peek s.text s.toklist = .ok b := by
  rw [h.text, h.toklist]
  exact byteAt_append_succ

/-- A call of `hash_set` whose strings end inside `done ++ more` adds an entry. -/
theorem Entered.hashSet {more rest : List UInt8} {e : Entry} {k v : ℕ} (post : List UInt8)
    (h : Entered entries done rest s) (hkey : cstr (done ++ more) k = .ok e.key)
    (hcontent : cstr (done ++ more) v = .ok e.content) :
    ∃ t', Lidas.hashSet s.list k v (crc32Port e.key listSiz) = .ok t' ∧
      Entered (entries ++ [e]) (done ++ more) post
        { text := done ++ more ++ post, toklist := some (done ++ more).length, list := t'
          calls := s.calls ++ [{ key := k, content := v, text := done ++ more ++ post }] } := by
  obtain ⟨call, hcall⟩ : ∃ call : HeaderCall, call =
      { key := k, content := v, text := done ++ more ++ post } := ⟨_, rfl⟩
  obtain ⟨t', ht', hfilled⟩ := h.list.hashSet (call.setCall e) (crc32Port_lt e.key (by decide))
  refine ⟨t', ?_, rfl, rfl, ?_, ?_⟩
  · rw [← ht', hcall]
    rfl
  · refine List.rel_append (h.calls.imp fun c e hce => hce.append more) (.cons ?_ .nil)
    exact ⟨cstr_mono hkey post, cstr_mono hcontent post, hkey, hcontent⟩
  · rw [← hcall, List.zipWith_append h.calls.length_eq]
    exact hfilled

/-- What a round makes of a line up to the byte that ends it. -/
def cutLine (d cap lfs w : List UInt8) : List UInt8 :=
  d ++ (cap ++ 0 :: (lfs ++ (w.takeWhile (· == sp) ++ blank (w.dropWhile (· == sp)))))

/-- The length of a header line that has been cut. -/
theorem length_cutLine (d cap lfs w : List UInt8) :
    (cutLine d cap lfs w).length = d.length + cap.length + 1 + lfs.length + w.length := by
  have hw : (w.takeWhile (· == sp)).length + (w.dropWhile (· == sp)).length = w.length := by
    rw [← List.length_append, List.takeWhile_append_dropWhile]
  simp only [cutLine, List.length_append, List.length_cons, length_blank]
  omega

/-- A round on a text with the two tokens, the second one ended by `e`: what is left of it is the
call of `hash_set`. -/
theorem headerRound_tokens {d cap lfs w post : List UInt8} {c e : UInt8}
    (htext : s.text = done ++ (d ++ (cap ++ c :: (lfs ++ (w ++ e :: post)))))
    (htoklist : s.toklist = some done.length)
    (hcap : TokenSplit [colon, sp] d cap c) (hc : c ≠ 0) (hw : TokenSplit [lf] lfs w e) :
    ∃ key content text, key = done.length + d.length ∧
      content = (done ++ (d ++ (cap ++ 0 :: (lfs ++ w.takeWhile (· == sp))))).length ∧
      text = done ++ (cutLine d cap lfs w ++ 0 :: post) ∧
      headerRound s = (do
        let list ← hashSet s.list key content (crc32Port cap listSiz)
        return { text := text
                 toklist := some ((done ++ cutLine d cap lfs w).length + if e = 0 then 0 else 1)
                 list := list
                 calls := s.calls ++ [{ key := key, content := content, text := text }] }) := by
  have hw0 : (0 : UInt8) ∉ w := fun h0 => (hw.token 0 h0).1 rfl
  have hcap0 : (0 : UInt8) ∉ cap := fun h0 => (hcap.token 0 h0).1 rfl
  -- behind the first token, `pre` is done; the content is `v`, behind `lfs` and the spaces
  obtain ⟨spaces, v, hspaces, hv, hsplit⟩ : ∃ spaces v, spaces = w.takeWhile (· == sp) ∧
      v = w.dropWhile (· == sp) ∧ w = spaces ++ v :=
    ⟨_, _, rfl, rfl, List.takeWhile_append_dropWhile.symm⟩
  have hv0 : (0 : UInt8) ∉ v := fun h0 => hw0 (by simp [hsplit, h0])
  obtain ⟨pre, hpre⟩ : ∃ pre, pre = done ++ (d ++ (cap ++ [0])) := ⟨_, rfl⟩
  have hcut : cutLine d cap lfs w = d ++ (cap ++ 0 :: (lfs ++ (spaces ++ blank v))) := by
    rw [cutLine, ← hspaces, ← hv]
  have hfirst : strtokR s.text s.toklist [colon, sp] = .ok
      { token := some (done.length + d.length), save := some pre.length
        text := pre ++ (lfs ++ (w ++ e :: post)) } := by
    rw [htext, htoklist, strtokR_delim _ _ hcap hc, hpre]
  have hsecond := strtokR_token pre post hw
  have hspan : strspn (pre ++ (lfs ++ (w ++ 0 :: post))) (pre.length + lfs.length) [sp] =
      .ok spaces.length := by
    have hassoc : pre ++ (lfs ++ (w ++ 0 :: post)) = (pre ++ lfs) ++ (w ++ 0 :: post) := by simp
    rw [strspn, hassoc, ← List.length_append, List.drop_left, spanLen_terminated hw0, hspaces]
    simp only [List.contains_cons, List.contains_nil, Bool.or_false]
  have hcontent : pre.length + lfs.length + spaces.length = (pre ++ (lfs ++ spaces)).length := by
    simp [Nat.add_assoc]
  have hbreak : lidaBreakline (pre ++ (lfs ++ (w ++ 0 :: post)))
      (pre.length + lfs.length + spaces.length) =
        .ok (done ++ (cutLine d cap lfs w ++ 0 :: post)) := by
    have hassoc : pre ++ (lfs ++ (w ++ 0 :: post)) =
        (pre ++ (lfs ++ spaces)) ++ (v ++ 0 :: post) := by
      simp [hsplit]
    rw [hassoc, hcontent, lidaBreakline_append hv0, hpre, hcut]
    simp
  have hkey : cstr (done ++ (cutLine d cap lfs w ++ 0 :: post)) (done.length + d.length) =
      .ok cap := by
    have hassoc : done ++ (cutLine d cap lfs w ++ 0 :: post) =
        (done ++ d) ++ (cap ++ 0 :: (lfs ++ (spaces ++ blank v) ++ 0 :: post)) := by simp [hcut]
    rw [hassoc, ← List.length_append]
    exact cstr_append hcap0
  have hend : pre.length + lfs.length + w.length = (done ++ cutLine d cap lfs w).length := by
    rw [List.length_append, length_cutLine]
    simp [hpre]
    omega
  refine ⟨_, _, _, rfl, rfl, rfl, ?_⟩
  have hpos : (done ++ (d ++ (cap ++ 0 :: (lfs ++ spaces)))).length =
      pre.length + lfs.length + spaces.length := by
    rw [hcontent, hpre]
    simp
  rw [← hspaces, hpos]
  simp only [headerRound, hfirst, hsecond, ok_bind, deref, hspan, hbreak, hkey, hend]

/-- **One round.** A line with a token that ends at a colon or a space and behind it a token
that ends at a line feed is entered in the table. -/
theorem Entered.round {d cap lfs w post : List UInt8} {c : UInt8}
    (h : Entered entries done (d ++ (cap ++ c :: (lfs ++ (w ++ lf :: post)))) s)
    (hcap : TokenSplit [colon, sp] d cap c) (hc : c ≠ 0) (hw : TokenSplit [lf] lfs w lf) :
    ∃ more s', headerRound s = .ok s' ∧
      Entered (entries ++ [{ key := cap, content := lineContent w }]) (done ++ more) post s' := by
  have hwlf : lf ∉ w := fun h0 => (hw.token lf h0).2 (by simp)
  have hw0 : (0 : UInt8) ∉ w := fun h0 => (hw.token 0 h0).1 rfl
  have hcap0 : (0 : UInt8) ∉ cap := fun h0 => (hcap.token 0 h0).1 rfl
  obtain ⟨key, content, text, hkeyeq, hcontenteq, htext, hround⟩ :=
    headerRound_tokens h.text h.toklist hcap hc hw
  have hvlf : lf ∉ w.dropWhile (· == sp) := fun h0 => hwlf ((List.dropWhile_sublist _).subset h0)
  obtain ⟨tail, htail⟩ := exists_blank_eq hvlf
  -- the part of the text that the loop is now done with
  obtain ⟨more, hmore⟩ : ∃ more, more = cutLine d cap lfs w ++ [0] := ⟨_, rfl⟩
  have hkey : cstr (done ++ more) key = .ok cap := by
    have hassoc : done ++ more = (done ++ d) ++ (cap ++ 0 :: (lfs ++
        (w.takeWhile (· == sp) ++ (blank (w.dropWhile (· == sp)) ++ [0])))) := by
      simp [hmore, cutLine]
    rw [hkeyeq, hassoc, ← List.length_append]
    exact cstr_append hcap0
  have hcontent : cstr (done ++ more) content = .ok (lineContent w) := by
    have hassoc : done ++ more = (done ++ (d ++ (cap ++ 0 :: (lfs ++ w.takeWhile (· == sp))))) ++
        (lineContent w ++ 0 :: tail) := by
      rw [lineContent, ← htail, hmore, cutLine]
      simp
    rw [hcontenteq, hassoc]
    refine cstr_append fun h0 => hw0 ?_
    exact (List.dropWhile_sublist _).subset ((List.takeWhile_sublist _).subset h0)
  have htext' : text = done ++ more ++ post := by simp [htext, hmore]
  have hend : (done ++ cutLine d cap lfs w).length + (if lf = 0 then 0 else 1) =
      (done ++ more).length := by
    have hlf : lf ≠ 0 := by decide
    have hone (l : List UInt8) : (l ++ [0]).length = l.length + 1 := List.length_append
    rw [if_neg hlf, hmore, ← List.append_assoc, hone]
  obtain ⟨t', hset, hentered⟩ := h.hashSet post (e := { key := cap, content := lineContent w })
    hkey hcontent
  refine ⟨more, _, ?_, hentered⟩
  rw [hround, hset, ok_bind, hend, htext', pure_eq_ok]

/-! ### Runs of the loop -/

/-- The loop stops at a line feed behind the save pointer. -/
theorem headerLoop_blank {fuel : ℕ} (h : peek s.text s.toklist = .ok lf) :
    headerLoop fuel s = .ok { found := true, state := s } := by
  cases fuel with
  | zero => rw [headerLoop, h, ok_bind, if_pos rfl, pure_eq_ok]
  | succ fuel => rw [headerLoop, h, ok_bind, if_pos rfl, pure_eq_ok]

/-- The loop goes once round. -/
theorem headerLoop_round (fuel : ℕ) {a b : UInt8} {s' : HeaderState}
    (ha : peek s.text s.toklist = .ok a) (half : a ≠ lf) (hround : headerRound s = .ok s')
    (hb : peek s'.text s'.toklist = .ok b) :
    headerLoop (fuel + 1) s =
      if b = 0 then .ok { found := false, state := s' } else headerLoop fuel s' := by
  rw [headerLoop, ha, ok_bind, if_neg half, hround, ok_bind, hb, ok_bind, pure_eq_ok]

/-- A loop that returns has met the blank line, or has gone a round. -/
theorem headerLoop_eq_ok {fuel : ℕ} {e : HeaderExit} (h : headerLoop fuel s = .ok e) :
    (peek s.text s.toklist = .ok lf ∧ e = { found := true, state := s }) ∨
      ∃ fuel' s' b, fuel = fuel' + 1 ∧ headerRound s = .ok s' ∧ peek s'.text s'.toklist = .ok b ∧
        (b = 0 ∧ e = { found := false, state := s' } ∨ headerLoop fuel' s' = .ok e) := by
  cases fuel with
  | zero =>
    rw [headerLoop] at h
    obtain ⟨a, ha, h⟩ := bind_eq_ok.mp h
    split_ifs at h with hlf
    cases h
    exact Or.inl ⟨hlf ▸ ha, rfl⟩
  | succ fuel =>
    rw [headerLoop] at h
    obtain ⟨a, ha, h⟩ := bind_eq_ok.mp h
    split_ifs at h with hlf
    · cases h
      exact Or.inl ⟨hlf ▸ ha, rfl⟩
    · obtain ⟨s', hs', h⟩ := bind_eq_ok.mp h
      obtain ⟨b, hb, h⟩ := bind_eq_ok.mp h
      refine Or.inr ⟨fuel, s', b, rfl, hs', hb, ?_⟩
      split_ifs at h with h0
      · cases h
        exact Or.inl ⟨h0, rfl⟩
      · exact Or.inr h

end Lidas
