import Mathlib.Data.List.Basic
import Mathlib.Data.List.TakeWhile
import Mathlib.Tactic.Common

/-!
# Null-terminated strings in a block of memory

A `Block` is the list of the bytes of one object; a pointer into it is an offset, `none` is
`NULL`. Every access is checked: using a `NULL` pointer and reading past the end of the
block are `Fault`s, so a computation in `Except Fault` that returns has made no such access.

`spanLen` is the common scan behind `strlen`, `strspn` and `strcspn`: it counts the leading
bytes that satisfy a predicate and stops at the first other byte or at the terminator.
`strtokR` is `strtok_r`, which overwrites the delimiter that ends a token. Its behaviour is
given by two equations over the decomposition of the text at the pointer, `strtokR_token`
and `strtokR_null`, and `exists_tokenSplit` says that one of them always applies.
-/

namespace Lidas

/-- What goes wrong in a run with undefined behaviour; `diverges` is a loop that does not
end within its bound. -/
inductive Fault where
  | nullDeref
  | outOfBounds
  | diverges
  deriving DecidableEq, Repr

/-- The bytes of one object in memory. -/
abbrev Block := List UInt8

/-- The bytes of a string literal. -/
def ascii (s : String) : List UInt8 := s.toList.map fun c => c.toNat.toUInt8

universe u v

theorem bind_eq_ok {ε : Type u} {β γ : Type v} {x : Except ε β} {f : β → Except ε γ} {c : γ} :
    (x >>= f) = .ok c ↔ ∃ b, x = .ok b ∧ f b = .ok c := by
  cases x with
  | error e => exact iff_of_false (fun h => by cases h) (fun ⟨_, h, _⟩ => by cases h)
  | ok b => exact ⟨fun h => ⟨b, rfl, h⟩, fun ⟨_, hb, h⟩ => by cases hb; exact h⟩

@[simp] theorem ok_bind {ε : Type u} {β γ : Type v} (b : β) (f : β → Except ε γ) :
    ((Except.ok b : Except ε β) >>= f) = f b := rfl

@[simp] theorem error_bind {ε : Type u} {β γ : Type v} (e : ε) (f : β → Except ε γ) :
    ((Except.error e : Except ε β) >>= f) = .error e := rfl

@[simp] theorem pure_eq_ok {ε : Type u} {β : Type v} (b : β) : (pure b : Except ε β) = .ok b := rfl

namespace CString

/-- The offset a pointer holds; using `NULL` is a fault. -/
def deref : Option ℕ → Except Fault ℕ
  | none => .error .nullDeref
  | some i => .ok i

/-- The byte at an offset. -/
def byteAt (b : Block) (i : ℕ) : Except Fault UInt8 :=
  match b[i]? with
  | none => .error .outOfBounds
  | some c => .ok c

/-- The number of leading bytes that satisfy `p`, the terminator never counted. -/
def spanLen (p : UInt8 → Bool) : List UInt8 → Except Fault ℕ
  | [] => .error .outOfBounds
  | c :: cs => if c = 0 ∨ p c = false then .ok 0 else (spanLen p cs).map (· + 1)

/-- `strlen`. -/
def strlen (b : Block) (i : ℕ) : Except Fault ℕ := spanLen (fun _ => true) (b.drop i)

/-- `strspn`. -/
def strspn (b : Block) (i : ℕ) (accept : List UInt8) : Except Fault ℕ :=
  spanLen (fun c => accept.contains c) (b.drop i)

/-- `strcspn`. -/
def strcspn (b : Block) (i : ℕ) (reject : List UInt8) : Except Fault ℕ :=
  spanLen (fun c => !reject.contains c) (b.drop i)

/-- The string a pointer addresses, without its terminator. -/
def cstr (b : Block) (i : ℕ) : Except Fault (List UInt8) := do
  let n ← strlen b i
  return (b.drop i).take n

/-- What a call of `strtok_r` leaves: the token, the save pointer and the text. -/
structure Strtok where
  token : Option ℕ
  save : Option ℕ
  text : Block
  deriving DecidableEq

/-- `strtok_r`. The pointer is the first argument, or the save pointer when that is `NULL`. -/
def strtokR (b : Block) (s : Option ℕ) (delim : List UInt8) : Except Fault Strtok := do
  let s ← deref s
  let skipped ← strspn b s delim
  let tok := s + skipped
  if (← byteAt b tok) = 0 then
    return { token := none, save := some tok, text := b }
  let len ← strcspn b tok delim
  let stop := tok + len
  if (← byteAt b stop) = 0 then
    return { token := some tok, save := some stop, text := b }
  return { token := some tok, save := some (stop + 1), text := b.set stop 0 }

/-! ### Scanning -/

/-- A span ends at the first byte outside it. -/
theorem spanLen_append {p : UInt8 → Bool} {w r : List UInt8} {c : UInt8}
    (hw : ∀ x ∈ w, x ≠ 0 ∧ p x = true) (hc : c = 0 ∨ p c = false) :
    spanLen p (w ++ c :: r) = .ok w.length := by
  induction w with
  | nil =>
    simp only [List.nil_append, spanLen, if_pos hc, List.length_nil]
  | cons x w ih =>
    obtain ⟨hx0, hxp⟩ := hw x (by simp)
    have hgo : ¬(x = 0 ∨ p x = false) := by simp [hx0, hxp]
    rw [List.cons_append, spanLen, if_neg hgo, ih fun y hy => hw y (by simp [hy])]
    rfl

/-- A text with a terminator splits at the end of its span. -/
theorem exists_span {p : UInt8 → Bool} {l : List UInt8} (h : (0 : UInt8) ∈ l) :
    ∃ w c r, l = w ++ c :: r ∧ (∀ x ∈ w, x ≠ 0 ∧ p x = true) ∧ (c = 0 ∨ p c = false) := by
  induction l with
  | nil => simp at h
  | cons c l ih =>
    by_cases hstop : c = 0 ∨ p c = false
    · exact ⟨[], c, l, rfl, by simp, hstop⟩
    · obtain ⟨hc0, hcp⟩ := not_or.mp hstop
      have hl : (0 : UInt8) ∈ l := by
        rcases List.mem_cons.mp h with h0 | h0
        · exact absurd h0.symm hc0
        · exact h0
      obtain ⟨w, d, r, rfl, hw, hd⟩ := ih hl
      refine ⟨c :: w, d, r, rfl, fun x hx => ?_, hd⟩
      rcases List.mem_cons.mp hx with rfl | hx
      · exact ⟨hc0, by simpa using hcp⟩
      · exact hw x hx

theorem byteAt_append {pre r : List UInt8} {c : UInt8} :
    byteAt (pre ++ c :: r) pre.length = .ok c := by
  simp [byteAt]

theorem byteAt_append_succ {pre r : List UInt8} {c d : UInt8} :
    byteAt (pre ++ c :: d :: r) (pre.length + 1) = .ok d := by
  simp [byteAt]

/-- The length of a string inside a text. -/
theorem strlen_append {pre w r : List UInt8} (hw : (0 : UInt8) ∉ w) :
    strlen (pre ++ (w ++ 0 :: r)) pre.length = .ok w.length := by
  rw [strlen, List.drop_left]
  exact spanLen_append (fun x hx => ⟨fun h0 => hw (h0 ▸ hx), rfl⟩) (Or.inl rfl)

/-- `strlen` ends where a terminator follows. -/
theorem exists_strlen {pre r : List UInt8} (h : (0 : UInt8) ∈ r) :
    ∃ n, strlen (pre ++ r) pre.length = .ok n := by
  obtain ⟨w, c, r, rfl, hw, hc⟩ := exists_span (p := fun _ => true) h
  exact ⟨w.length, by rw [strlen, List.drop_left]; exact spanLen_append hw hc⟩

/-- The string at a pointer, read off the text around it. -/
theorem cstr_append {pre w r : List UInt8} (hw : (0 : UInt8) ∉ w) :
    cstr (pre ++ (w ++ 0 :: r)) pre.length = .ok w := by
  rw [cstr, strlen_append hw]
  simp

/-- The span of a terminated string. -/
theorem spanLen_terminated {p : UInt8 → Bool} {w r : List UInt8} (hw : (0 : UInt8) ∉ w) :
    spanLen p (w ++ 0 :: r) = .ok (w.takeWhile p).length := by
  induction w with
  | nil => simp [spanLen]
  | cons x w ih =>
    have hx : x ≠ 0 := fun h0 => hw (by simp [h0])
    rw [List.cons_append, spanLen, ih fun h => hw (by simp [h])]
    cases hp : p x with
    | true => simp [hx, hp, Except.map]
    | false => simp [hp]

/-- A span that ends is not changed by what follows. -/
theorem spanLen_mono {p : UInt8 → Bool} {l : List UInt8} {n : ℕ} (h : spanLen p l = .ok n)
    (r : List UInt8) : spanLen p (l ++ r) = .ok n := by
  induction l generalizing n with
  | nil => cases h
  | cons c l ih =>
    rw [List.cons_append, spanLen]
    rw [spanLen] at h
    split_ifs at h ⊢
    · exact h
    · cases hl : spanLen p l with
      | error e => rw [hl] at h; cases h
      | ok m => rw [hl] at h; rw [ih hl]; exact h

theorem spanLen_le {p : UInt8 → Bool} {l : List UInt8} {n : ℕ} (h : spanLen p l = .ok n) :
    n < l.length := by
  induction l generalizing n with
  | nil => cases h
  | cons c l ih =>
    rw [spanLen] at h
    split_ifs at h
    · cases h
      simp
    · cases hl : spanLen p l with
      | error e => rw [hl] at h; cases h
      | ok m =>
        rw [hl] at h
        cases h
        exact Nat.succ_lt_succ (ih hl)

/-- A span of arbitrary bytes ends at a zero. -/
theorem zero_mem_of_spanLen {p : UInt8 → Bool} {l : List UInt8} {n : ℕ} (hp : ∀ c, p c = true)
    (h : spanLen p l = .ok n) : (0 : UInt8) ∈ l := by
  induction l generalizing n with
  | nil => cases h
  | cons c l ih =>
    by_cases hc : c = 0
    · simp [hc]
    · rw [spanLen, if_neg (by simp [hc, hp c])] at h
      cases hl : spanLen p l with
      | error e =>
        rw [hl] at h
        cases h
      | ok m => exact List.mem_cons_of_mem _ (ih hl)

/-- What `strlen` counts is a text without terminator, and the terminator follows. -/
theorem exists_of_strlen {b : Block} {n : ℕ} (h : strlen b 0 = .ok n) :
    ∃ w r, b = w ++ 0 :: r ∧ (0 : UInt8) ∉ w ∧ w.length = n := by
  rw [strlen, List.drop_zero] at h
  obtain ⟨w, c, r, rfl, hw, hc⟩ := exists_span (p := fun _ => true)
    (zero_mem_of_spanLen (fun _ => rfl) h)
  rw [spanLen_append hw hc, Except.ok.injEq] at h
  obtain rfl : c = 0 := by simpa using hc
  exact ⟨w, r, rfl, fun h0 => (hw 0 h0).1 rfl, h⟩

/-- A string that ends inside a block is not affected by what follows the block. -/
theorem cstr_mono {b w : List UInt8} {i : ℕ} (h : cstr b i = .ok w) (r : List UInt8) :
    cstr (b ++ r) i = .ok w := by
  obtain ⟨n, hn, hw⟩ := bind_eq_ok.mp h
  have hlt : n < (b.drop i).length := spanLen_le hn
  have hi : i ≤ b.length := by
    rw [List.length_drop] at hlt
    omega
  have hdrop : (b ++ r).drop i = b.drop i ++ r := List.drop_append_of_le_length hi
  have hn' : strlen (b ++ r) i = .ok n := by
    rw [strlen, hdrop]
    exact spanLen_mono hn r
  rw [cstr, hn', ok_bind, hdrop, List.take_append_of_le_length (Nat.le_of_lt hlt)]
  exact hw

/-- The text around a string. -/
theorem exists_of_cstr {b w : List UInt8} {i : ℕ} (h : cstr b i = .ok w) :
    ∃ pre r, b = pre ++ (w ++ 0 :: r) ∧ pre.length = i ∧ (0 : UInt8) ∉ w := by
  obtain ⟨n, hn, hw⟩ := bind_eq_ok.mp h
  have hlt : n < (b.drop i).length := spanLen_le hn
  rw [List.length_drop] at hlt
  have hdrop : strlen (b.drop i) 0 = .ok n := by rwa [strlen, List.drop_zero]
  obtain ⟨v, r, hv, hv0, hlen⟩ := exists_of_strlen hdrop
  have hwv : w = v := by
    rw [← Except.ok.inj hw, hv, ← hlen, List.take_left]
  refine ⟨b.take i, r, ?_, ?_, hwv ▸ hv0⟩
  · rw [hwv, ← hv, List.take_append_drop]
  · rw [List.length_take]
    omega

/-! ### Tokens -/

variable {ds tok delim : List UInt8} {c : UInt8} (pre post : List UInt8)

/-- The bytes a call of `strtok_r` skips, the token it finds and the byte that ends it. -/
structure TokenSplit (delim ds tok : List UInt8) (c : UInt8) : Prop where
  skipped : ∀ x ∈ ds, x ≠ 0 ∧ x ∈ delim
  nonempty : tok ≠ []
  token : ∀ x ∈ tok, x ≠ 0 ∧ x ∉ delim
  stop : c = 0 ∨ c ∈ delim

/-- Behind a token that another byte than the terminator ends, the terminator is still to come. -/
theorem TokenSplit.zero_mem {post : List UInt8} (h : TokenSplit delim ds tok c) (hc : c ≠ 0)
    (h0 : (0 : UInt8) ∈ ds ++ (tok ++ c :: post)) : (0 : UInt8) ∈ post := by
  rcases List.mem_append.mp h0 with h0 | h0
  · exact absurd rfl (h.skipped 0 h0).1
  rcases List.mem_append.mp h0 with h0 | h0
  · exact absurd rfl (h.token 0 h0).1
  rcases List.mem_cons.mp h0 with h0 | h0
  · exact absurd h0.symm hc
  · exact h0

/-- **A token.** The delimiter after it is overwritten and the save pointer passes it; at
the end of the text the save pointer stays on the terminator. -/
theorem strtokR_token (h : TokenSplit delim ds tok c) :
    strtokR (pre ++ (ds ++ (tok ++ c :: post))) (some pre.length) delim = .ok
      { token := some (pre.length + ds.length)
        save := some (pre.length + ds.length + tok.length + if c = 0 then 0 else 1)
        text := pre ++ (ds ++ (tok ++ 0 :: post)) } := by
  obtain ⟨t, ts, rfl⟩ := List.exists_cons_of_ne_nil h.nonempty
  obtain ⟨ht0, htd⟩ := h.token t (by simp)
  have hskip : strspn (pre ++ (ds ++ (t :: ts ++ c :: post))) pre.length delim = .ok ds.length := by
    rw [strspn, List.drop_left]
    exact spanLen_append (fun x hx => by simpa using h.skipped x hx) (Or.inr (by simpa using htd))
  have hlen : (pre ++ ds).length = pre.length + ds.length := List.length_append
  have hassoc :
      pre ++ (ds ++ (t :: ts ++ c :: post)) = (pre ++ ds) ++ (t :: (ts ++ c :: post)) := by
    simp
  have hfirst :
      byteAt (pre ++ (ds ++ (t :: ts ++ c :: post))) (pre.length + ds.length) = .ok t := by
    rw [hassoc, ← hlen]
    exact byteAt_append
  have hspan : strcspn (pre ++ (ds ++ (t :: ts ++ c :: post))) (pre.length + ds.length) delim =
      .ok (t :: ts).length := by
    rw [strcspn, hassoc, ← hlen, List.drop_left]
    refine spanLen_append (w := t :: ts) (fun x hx => ?_) ?_
    · simpa using h.token x hx
    · simpa using h.stop
  have hassoc' :
      pre ++ (ds ++ (t :: ts ++ c :: post)) = (pre ++ (ds ++ (t :: ts))) ++ c :: post := by
    simp
  have hlen' : (pre ++ (ds ++ (t :: ts))).length = pre.length + ds.length + (t :: ts).length := by
    simp [Nat.add_assoc]
  have hlast : byteAt (pre ++ (ds ++ (t :: ts ++ c :: post)))
      (pre.length + ds.length + (t :: ts).length) = .ok c := by
    rw [hassoc', ← hlen']
    exact byteAt_append
  have hset : (pre ++ (ds ++ (t :: ts ++ c :: post))).set
      (pre.length + ds.length + (t :: ts).length) 0 = pre ++ (ds ++ (t :: ts ++ 0 :: post)) := by
    rw [hassoc', ← hlen', List.set_append_right _ _ (Nat.le_refl _)]
    simp
  simp only [strtokR, deref, ok_bind, hskip, hfirst, ht0, if_false, hspan, hlast, pure_eq_ok]
  split_ifs with hc0
  · rw [hc0, Nat.add_zero]
  · rw [hset]

/-- A token that a delimiter ends: what is left to scan is the text behind the delimiter. -/
theorem strtokR_delim (h : TokenSplit delim ds tok c) (hc : c ≠ 0) :
    strtokR (pre ++ (ds ++ (tok ++ c :: post))) (some pre.length) delim = .ok
      { token := some (pre.length + ds.length)
        save := some (pre ++ (ds ++ (tok ++ [0]))).length
        text := pre ++ (ds ++ (tok ++ [0])) ++ post } := by
  rw [strtokR_token pre post h, if_neg hc]
  simp [Nat.add_assoc]

/-- A token at the end of the text: the terminator is left to scan. -/
theorem strtokR_end (h : TokenSplit delim ds tok 0) :
    strtokR (pre ++ (ds ++ (tok ++ 0 :: post))) (some pre.length) delim = .ok
      { token := some (pre.length + ds.length)
        save := some (pre ++ (ds ++ tok)).length
        text := pre ++ (ds ++ tok) ++ 0 :: post } := by
  rw [strtokR_token pre post h, if_pos rfl]
  simp [Nat.add_assoc]

/-- **No token.** When only delimiters are left the result is `NULL` and the save pointer
stands on the terminator. -/
theorem strtokR_null (hds : ∀ x ∈ ds, x ≠ 0 ∧ x ∈ delim) :
    strtokR (pre ++ (ds ++ 0 :: post)) (some pre.length) delim = .ok
      { token := none, save := some (pre.length + ds.length)
        text := pre ++ (ds ++ 0 :: post) } := by
  have hskip : strspn (pre ++ (ds ++ 0 :: post)) pre.length delim = .ok ds.length := by
    rw [strspn, List.drop_left]
    exact spanLen_append (fun x hx => by simpa using hds x hx) (Or.inl rfl)
  have hlen : (pre ++ ds).length = pre.length + ds.length := List.length_append
  have hfirst : byteAt (pre ++ (ds ++ 0 :: post)) (pre.length + ds.length) = .ok 0 := by
    rw [← List.append_assoc, ← hlen]
    exact byteAt_append
  simp only [strtokR, deref, ok_bind, hskip, hfirst, if_true, pure_eq_ok]

/-- At the terminator there is no token. -/
theorem strtokR_terminator : strtokR (pre ++ 0 :: post) (some pre.length) delim = .ok
    { token := none, save := some pre.length, text := pre ++ 0 :: post } :=
  strtokR_null pre post (show ∀ x ∈ [], x ≠ 0 ∧ x ∈ delim by simp)

/-- Every terminated text either has a token or consists of delimiters up to a terminator. -/
theorem exists_tokenSplit (delim : List UInt8) {l : List UInt8} (h : (0 : UInt8) ∈ l) :
    (∃ ds tok c post, l = ds ++ (tok ++ c :: post) ∧ TokenSplit delim ds tok c) ∨
      ∃ ds post, l = ds ++ 0 :: post ∧ ∀ x ∈ ds, x ≠ 0 ∧ x ∈ delim := by
  obtain ⟨ds, t, r, rfl, hds, ht⟩ := exists_span (p := fun c => delim.contains c) h
  have hds' : ∀ x ∈ ds, x ≠ 0 ∧ x ∈ delim := fun x hx => by simpa using hds x hx
  by_cases ht0 : t = 0
  · exact Or.inr ⟨ds, r, by rw [ht0], hds'⟩
  · have htd : t ∉ delim := by simpa [ht0] using ht
    have h0 : (0 : UInt8) ∈ t :: r := by
      rcases List.mem_append.mp h with h0 | h0
      · exact absurd rfl (hds' 0 h0).1
      · exact h0
    obtain ⟨w, c, post, hsplit, hw, hc⟩ := exists_span (p := fun c => !delim.contains c) h0
    refine Or.inl ⟨ds, w, c, post, by rw [hsplit], hds', ?_, fun x hx => by simpa using hw x hx,
      by simpa using hc⟩
    rintro rfl
    obtain rfl : t = c := by simpa using (List.cons.inj hsplit).1
    simp [ht0, htd] at hc

/-- On a terminated text `strtok_r` returns, and it sets the save pointer. -/
theorem exists_strtokR (delim : List UInt8) {l : List UInt8} (h : (0 : UInt8) ∈ l) :
    ∃ r, strtokR (pre ++ l) (some pre.length) delim = .ok r ∧ r.save ≠ none := by
  rcases exists_tokenSplit delim h with ⟨ds, tok, c, post, rfl, htok⟩ | ⟨ds, post, rfl, hds⟩
  · exact ⟨_, strtokR_token pre post htok, by rintro ⟨⟩⟩
  · exact ⟨_, strtokR_null pre post hds, by rintro ⟨⟩⟩

/-- A string has a token that a delimiter ends, one that its terminator ends, or consists of
delimiters. -/
theorem exists_token_or (delim : List UInt8) {x : List UInt8} (hx : (0 : UInt8) ∉ x) :
    (∃ ds tok c y, x = ds ++ (tok ++ c :: y) ∧ c ≠ 0 ∧ TokenSplit delim ds tok c) ∨
      (∃ ds tok, x = ds ++ tok ∧ TokenSplit delim ds tok 0) ∨ ∀ b ∈ x, b ≠ 0 ∧ b ∈ delim := by
  have hne (b : UInt8) (hb : b ∈ x) : b ≠ 0 := ne_of_mem_of_not_mem hb hx
  -- the delimiters in front, then the token, then what ends it
  obtain ⟨ds, r, hds, hr, hsplit⟩ : ∃ ds r, ds = x.takeWhile (delim.contains ·) ∧
      r = x.dropWhile (delim.contains ·) ∧ x = ds ++ r :=
    ⟨_, _, rfl, rfl, List.takeWhile_append_dropWhile.symm⟩
  have hskipped (b : UInt8) (hb : b ∈ ds) : b ≠ 0 ∧ b ∈ delim := by
    have hmem : delim.contains b = true := List.mem_takeWhile_imp (hds ▸ hb)
    exact ⟨hne b (hsplit ▸ List.mem_append_left _ hb), by simpa using hmem⟩
  cases r with
  | nil =>
    rw [List.append_nil] at hsplit
    exact .inr (.inr fun b hb => hskipped b (hsplit ▸ hb))
  | cons t r =>
    have ht : t ∉ delim := by
      have hhead := List.head?_dropWhile_not (delim.contains ·) x
      rw [← hr] at hhead
      simpa using hhead
    obtain ⟨tok, y, htok, hy, hsplit'⟩ : ∃ tok y, tok = (t :: r).takeWhile (!delim.contains ·) ∧
        y = (t :: r).dropWhile (!delim.contains ·) ∧ t :: r = tok ++ y :=
      ⟨_, _, rfl, rfl, List.takeWhile_append_dropWhile.symm⟩
    have hnonempty : tok ≠ [] := by
      rw [htok, List.takeWhile_cons_of_pos (by simpa using ht)]
      exact List.cons_ne_nil _ _
    have htoken (b : UInt8) (hb : b ∈ tok) : b ≠ 0 ∧ b ∉ delim := by
      rw [htok] at hb
      have hmem : (!delim.contains b) = true :=
        List.mem_takeWhile_imp (p := fun b => !delim.contains b) hb
      refine ⟨hne b ?_, by simpa using hmem⟩
      rw [hsplit, hsplit', htok]
      exact List.mem_append_right _ (List.mem_append_left _ hb)
    rw [hsplit'] at hsplit
    cases y with
    | nil =>
      rw [List.append_nil] at hsplit
      exact .inr (.inl ⟨ds, tok, hsplit, hskipped, hnonempty, htoken, .inl rfl⟩)
    | cons c y =>
      have hc : c ∈ delim := by
        have hhead := List.head?_dropWhile_not (!delim.contains ·) (t :: r)
        rw [← hy] at hhead
        simpa using hhead
      refine .inl ⟨ds, tok, c, y, hsplit, hne c ?_, hskipped, hnonempty, htoken, .inr hc⟩
      rw [hsplit]
      simp

/-- The pointer is at a string that ends at the offset `n`, with `behind` after its terminator. -/
def StringAt (n : ℕ) (behind : List UInt8) (b : Block) (p : Option ℕ) : Prop :=
  ∃ pre x, b = pre ++ (x ++ 0 :: behind) ∧ p = some pre.length ∧ (0 : UInt8) ∉ x ∧
    pre.length + x.length = n

section StringAt

variable {n i : ℕ} {behind : List UInt8} {b : Block} {p : Option ℕ}

/-- The pointer is not behind the end of its string. -/
theorem StringAt.le (h : StringAt n behind b (some i)) : i ≤ n := by
  obtain ⟨pre, x, -, hp, -, rfl⟩ := h
  rw [Option.some.inj hp]
  exact Nat.le_add_right _ _

/-- `strtok_r` returns with its save pointer at what is left of the string, which is less if there
was a token. -/
theorem StringAt.strtokR (h : StringAt n behind b (some i)) (delim : List UInt8) :
    ∃ r j, strtokR b (some i) delim = .ok r ∧ r.save = some j ∧ StringAt n behind r.text (some j) ∧
      i ≤ j ∧ (r.token ≠ none → i < j) := by
  obtain ⟨pre, x, rfl, hp, hx, rfl⟩ := h
  obtain rfl := Option.some.inj hp
  rcases exists_token_or delim hx with
    ⟨ds, tok, c, y, rfl, hc, htok⟩ | ⟨ds, tok, rfl, htok⟩ | hds
  · have hassoc : ds ++ (tok ++ c :: y) ++ 0 :: behind =
        ds ++ (tok ++ c :: (y ++ 0 :: behind)) := by
      simp
    have hlt : pre.length < (pre ++ (ds ++ (tok ++ [0]))).length := by
      simp only [List.length_append, List.length_cons]
      omega
    have hlength : (pre ++ (ds ++ (tok ++ [0]))).length + y.length =
        pre.length + (ds ++ (tok ++ c :: y)).length := by
      simp only [List.length_append, List.length_cons, List.length_nil]
      omega
    rw [hassoc]
    exact ⟨_, _, strtokR_delim pre _ htok hc, rfl,
      ⟨_, y, rfl, rfl, fun h0 => hx (by simp [h0]), hlength⟩, hlt.le, fun _ => hlt⟩
  · have hassoc : ds ++ tok ++ 0 :: behind = ds ++ (tok ++ 0 :: behind) := List.append_assoc ..
    have hlt : pre.length < (pre ++ (ds ++ tok)).length := by
      have hpos := List.length_pos_iff.mpr htok.nonempty
      simp only [List.length_append]
      omega
    rw [hassoc]
    exact ⟨_, _, strtokR_end pre behind htok, rfl,
      ⟨_, [], rfl, rfl, List.not_mem_nil, List.length_append⟩, hlt.le, fun _ => hlt⟩
  · refine ⟨_, _, strtokR_null pre behind hds, rfl, ⟨pre ++ x, [], ?_, ?_, List.not_mem_nil, ?_⟩,
      Nat.le_add_right _ _, fun htok => absurd rfl htok⟩
    · rw [List.append_assoc, List.nil_append]
    · rw [List.length_append]
    · rw [List.length_append, List.length_nil, Nat.add_zero]

end StringAt

end CString

end Lidas
