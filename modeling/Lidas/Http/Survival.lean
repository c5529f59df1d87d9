import Lidas.Http.Stages
import Lidas.Http.HeaderLoop

/-!
# The texts the parsers survive

On which strings `http_parser` and `http_response_parser` return at all. Any of the calls of
`strtok_r` can find no token, which faults at the next use of the token, and `*(toklist+1)`
is past the terminator when the save pointer stands on it.

`Harmless` is the language on which neither happens, as a grammar over the terminated text;
`HeaderBlock` is its part for the header loop. A derivation of the grammar gives a run of the
parser, and a run that returns gives a derivation.
-/

namespace Lidas

open CString

/-- A string: bytes without the terminator. -/
structure CText where
  bytes : List UInt8
  ok : (0 : UInt8) ∉ bytes

/-- A line with a token, its name, ended by a colon or a space, and behind it a token ended by a
line feed. Its second byte is no line feed. -/
inductive HeaderLine : List UInt8 → List UInt8 → Prop
  | mk {d cap lfs w : List UInt8} {c : UInt8} (hcap : TokenSplit [colon, sp] d cap c) (hc : c ≠ 0)
      (hw : TokenSplit [lf] lfs w lf)
      (hsecond : (d ++ (cap ++ c :: (lfs ++ (w ++ [lf]))))[1]? ≠ some lf) :
      HeaderLine cap (d ++ (cap ++ c :: (lfs ++ (w ++ [lf]))))

/-- The texts the header loop survives, with the names of the lines it enters: a line feed as the
second byte, a line and one last byte, or a line and more such text. -/
inductive HeaderBlock : List (List UInt8) → List UInt8 → Prop
  | blank (c : UInt8) (body : List UInt8) : HeaderBlock [] (c :: lf :: body)
  | last {name l : List UInt8} (c : UInt8) : HeaderLine name l → HeaderBlock [name] (l ++ [c, 0])
  | line {name l r : List UInt8} {names : List (List UInt8)} : HeaderLine name l →
      HeaderBlock names r → HeaderBlock (name :: names) (l ++ r)

/-- The terminated texts `http_parser` survives as long as the pool serves it, with the names of
the headers it enters: those whose first word is no method, those whose line end is not preceded by
a protocol, and those with harmless header lines. -/
inductive Harmless : List (List UInt8) → List UInt8 → Prop
  | badMethod {ds m post : List UInt8} {c : UInt8} : TokenSplit [sp] ds m c → m ∉ methodLst →
      Harmless [] (ds ++ (m ++ c :: post))
  | badProtocal {ds m ds₂ u ds₃ p post : List UInt8} {c : UInt8} : TokenSplit [sp] ds m sp →
      m ∈ methodLst → TokenSplit [sp] ds₂ u sp → TokenSplit [cr, lf] ds₃ p c → p ∉ protocalLst →
      Harmless [] (ds ++ (m ++ sp :: (ds₂ ++ (u ++ sp :: (ds₃ ++ (p ++ c :: post))))))
  | headers {post : List UInt8} {names : List (List UInt8)} (l : RequestLine) :
      l.method ∈ methodLst → l.protocal ∈ protocalLst → HeaderBlock names post →
      Harmless names (l.text ++ post)

/-- The terminated texts `http_response_parser` survives: two words. -/
inductive TwoWords : List UInt8 → Prop
  | mk {ds w ds₂ w₂ post : List UInt8} {c : UInt8} : TokenSplit [sp] ds w sp →
      TokenSplit [sp] ds₂ w₂ c → TwoWords (ds ++ (w ++ sp :: (ds₂ ++ (w₂ ++ c :: post))))

/-! ### Terminated texts -/

/-- The rest of a terminated text is a terminated text. -/
theorem exists_of_append_eq {x a b : List UInt8} (h : x ++ [0] = a ++ b) (hb : b ≠ []) :
    ∃ y, b = y ++ [0] ∧ x = a ++ y := by
  obtain ⟨y, z, rfl⟩ : ∃ y z, b = y ++ [z] :=
    ⟨b.dropLast, b.getLast hb, (List.dropLast_append_getLast hb).symm⟩
  rw [← List.append_assoc] at h
  obtain ⟨hx, hz⟩ := List.append_inj' h rfl
  exact ⟨y, by rw [← hz], hx⟩

/-- Behind another byte than the terminator a terminated text goes on. -/
theorem exists_rest {x ds tok post : List UInt8} {c : UInt8}
    (h : x ++ [0] = ds ++ (tok ++ c :: post)) (hc : c ≠ 0) :
    ∃ y, post = y ++ [0] ∧ x = ds ++ (tok ++ c :: y) := by
  have hassoc : x ++ [0] = (ds ++ (tok ++ [c])) ++ post := by simp [h]
  have hne : post ≠ [] := by
    rintro rfl
    rw [List.append_nil, ← List.append_assoc] at hassoc
    exact hc (List.singleton_inj.mp (List.append_inj' hassoc rfl).2).symm
  obtain ⟨y, rfl, rfl⟩ := exists_of_append_eq hassoc hne
  exact ⟨y, rfl, by simp⟩

/-- A token that the terminator ends is the last thing of a terminated text. -/
theorem eq_nil_of_terminator {x ds tok post : List UInt8} (hx : (0 : UInt8) ∉ x)
    (h : x ++ [0] = ds ++ (tok ++ 0 :: post)) : post = [] := by
  by_contra hne
  have hassoc : x ++ [0] = (ds ++ (tok ++ [0])) ++ post := by simp [h]
  obtain ⟨y, -, rfl⟩ := exists_of_append_eq hassoc hne
  exact hx (by simp)

/-! ### Runs of the header loop -/

section Rounds

variable {entries : List Entry} {done : List UInt8} {s s' : HeaderState}

/-- Without a content there is no round. -/
theorem headerRound_noContent {a b : Strtok}
    (ha : strtokR s.text s.toklist [colon, sp] = .ok a)
    (hb : strtokR a.text a.save [lf] = .ok b) (hnone : b.token = none) :
    headerRound s = .error .nullDeref := by
  rw [headerRound, ha, ok_bind, hb, ok_bind, hnone]
  rfl

/-- A round that leaves nothing behind its first token. -/
theorem headerRound_cut {t : Option ℕ} {pre post : List UInt8}
    (ha : strtokR s.text s.toklist [colon, sp] =
      .ok { token := t, save := some pre.length, text := pre ++ 0 :: post }) :
    headerRound s = .error .nullDeref :=
  headerRound_noContent ha (strtokR_terminator pre post) rfl

/-- After a round the save pointer is where the second token left it. -/
theorem headerRound_save {a b : Strtok} (ha : strtokR s.text s.toklist [colon, sp] = .ok a)
    (hb : strtokR a.text a.save [lf] = .ok b) (h : headerRound s = .ok s') :
    s'.toklist = b.save ∧ s'.text.length = b.text.length := by
  rw [headerRound, ha, ok_bind, hb, ok_bind] at h
  obtain ⟨p, -, h⟩ := bind_eq_ok.mp h
  obtain ⟨n, -, h⟩ := bind_eq_ok.mp h
  obtain ⟨text, htext, h⟩ := bind_eq_ok.mp h
  obtain ⟨key, -, h⟩ := bind_eq_ok.mp h
  obtain ⟨k, -, h⟩ := bind_eq_ok.mp h
  obtain ⟨t, -, h⟩ := bind_eq_ok.mp h
  cases h
  exact ⟨rfl, length_lidaBreakline htext⟩

/-- A round with a byte behind the save pointer after it has entered a line. -/
theorem Entered.exists_line {x : List UInt8} {b : UInt8} (hx : (0 : UInt8) ∉ x)
    (h : Entered entries done (x ++ [0]) s) (hsecond : (x ++ [0])[1]? ≠ some lf)
    (hround : headerRound s = .ok s') (hpeek : peek s'.text s'.toklist = .ok b) :
    ∃ l y more entry, x = l ++ y ∧ HeaderLine entry.key l ∧
      Entered (entries ++ [entry]) (done ++ more) (y ++ [0]) s' := by
  have htext := h.text
  rcases exists_tokenSplit [colon, sp] (l := x ++ [0]) (by simp) with
    ⟨d, cap, c, post, hsplit, hcap⟩ | ⟨d, post, hsplit, hd⟩
  · by_cases hc : c = 0
    · -- the token runs up to the terminator
      subst hc
      have hfirst := strtokR_end done post hcap
      rw [← hsplit, ← htext, ← h.toklist] at hfirst
      rw [headerRound_cut hfirst] at hround
      simp at hround
    · obtain ⟨pre, hpre⟩ : ∃ pre, pre = done ++ (d ++ (cap ++ [0])) := ⟨_, rfl⟩
      have hfirst := strtokR_delim done post hcap hc
      rw [← hsplit, ← htext, ← h.toklist, ← hpre] at hfirst
      -- `y` is what is left of the text behind the caption
      obtain ⟨y, rfl, rfl⟩ := exists_rest hsplit hc
      have hy : (0 : UInt8) ∉ y := fun h0 => hx (by simp [h0])
      rcases exists_tokenSplit [lf] (l := y ++ [0]) (by simp) with
        ⟨lfs, w, e, post', hsplit', hw⟩ | ⟨lfs, post', hsplit', hlfs⟩
      · rw [hsplit'] at hfirst
        by_cases he : e = 0
        · -- the content runs up to the terminator, and the pointer is left on it
          subst he
          have hsecond := strtokR_end pre post' hw
          obtain rfl := eq_nil_of_terminator hy hsplit'
          obtain ⟨hsave, hlen⟩ := headerRound_save hfirst hsecond hround
          have hlast : s'.text.length = (pre ++ (lfs ++ w)).length + 1 := by
            rw [hlen]
            simp [Nat.add_assoc]
          rw [hsave, peek_last hlast] at hpeek
          simp at hpeek
        · obtain rfl : e = lf := by simpa [he] using hw.stop
          obtain ⟨z, rfl, rfl⟩ := exists_rest hsplit' he
          have hline : Entered entries done
              (d ++ (cap ++ c :: (lfs ++ (w ++ lf :: (z ++ [0]))))) s := by
            simpa using h
          obtain ⟨more, s'', hround', hentered⟩ := hline.round hcap hc hw
          rw [hround, Except.ok.injEq] at hround'
          subst hround'
          obtain ⟨l, hl⟩ : ∃ l, l = d ++ (cap ++ c :: (lfs ++ (w ++ [lf]))) := ⟨_, rfl⟩
          have hlen : 1 < l.length := by
            have hcap' := List.length_pos_of_ne_nil hcap.nonempty
            simp only [hl, List.length_append, List.length_cons]
            omega
          have hassoc : d ++ (cap ++ c :: (lfs ++ (w ++ lf :: z))) = l ++ z := by simp [hl]
          rw [hassoc, List.append_assoc, List.getElem?_append_left hlen, hl] at hsecond
          exact ⟨_, z, more, _, by simp, .mk hcap hc hw hsecond, hentered⟩
      · rw [hsplit'] at hfirst
        rw [headerRound_noContent hfirst (strtokR_null pre post' hlfs) rfl] at hround
        simp at hround
  · -- nothing but delimiters is left, and there is no caption
    have hfirst : strtokR s.text s.toklist [colon, sp] = .ok
        { token := none, save := some (done ++ d).length, text := (done ++ d) ++ 0 :: post } := by
      rw [htext, hsplit, h.toklist, strtokR_null done post hd, List.length_append,
        List.append_assoc]
    rw [headerRound_cut hfirst] at hround
    simp at hround

/-- The second byte of what is left to scan is the one that is looked at. -/
theorem Entered.peek_eq_ok_iff {rest : List UInt8} {c : UInt8} (h : Entered entries done rest s) :
    peek s.text s.toklist = .ok c ↔ rest[1]? = some c := by
  have hget : (done ++ rest)[done.length + 1]? = rest[1]? := by
    rw [List.getElem?_append_right (Nat.le_add_right _ _), Nat.add_sub_cancel_left]
  rw [h.text, h.toklist, peek, deref, ok_bind, byteAt, hget]
  cases rest[1]? with
  | none => simp
  | some b => simp

/-- A run of the loop that returns derives its text, and has entered the lines. -/
theorem Entered.headerBlock {x : List UInt8} {fuel : ℕ} {e : HeaderExit} (hx : (0 : UInt8) ∉ x)
    (h : Entered entries done (x ++ [0]) s) (hloop : headerLoop fuel s = .ok e) :
    ∃ more done' rest', HeaderBlock (more.map Entry.key) (x ++ [0]) ∧
      Entered (entries ++ more) done' rest' e.state := by
  induction fuel using Nat.strong_induction_on generalizing x entries done s with
  | _ fuel ih =>
    by_cases hlf : peek s.text s.toklist = .ok lf
    · -- the blank line: the second byte is a line feed
      rw [headerLoop_blank hlf] at hloop
      obtain rfl := Except.ok.inj hloop
      rw [h.peek_eq_ok_iff] at hlf
      obtain ⟨c, body, hbody⟩ : ∃ c body, x ++ [0] = c :: lf :: body := by
        match x ++ [0], hlf with
        | c :: d :: body, hlf => exact ⟨c, body, by rw [Option.some.inj hlf]⟩
      refine ⟨[], done, x ++ [0], ?_, by rwa [List.append_nil]⟩
      rw [hbody]
      exact .blank c body
    · rcases headerLoop_eq_ok hloop with ⟨hlf', -⟩ | ⟨fuel', s', b, rfl, hround, hpeek, hrest⟩
      · exact absurd hlf' hlf
      · rw [h.peek_eq_ok_iff] at hlf
        obtain ⟨l, y, more, entry, rfl, hline, hentered⟩ := h.exists_line hx hlf hround hpeek
        have hy : (0 : UInt8) ∉ y := fun h0 => hx (List.mem_append_right _ h0)
        rw [List.append_assoc]
        rcases hrest with ⟨rfl, rfl⟩ | hrest
        · -- the text ends at the second byte
          refine ⟨[entry], _, _, ?_, hentered⟩
          rw [hentered.peek_eq_ok_iff] at hpeek
          obtain ⟨c, rfl⟩ : ∃ c, y = [c] := by
            match y, hpeek with
            | [c], _ => exact ⟨c, rfl⟩
            | c :: d :: y, hpeek => exact absurd (by simp [Option.some.inj hpeek]) hy
          exact .last c hline
        · obtain ⟨rest, done', rest', hblock, hexit⟩ :=
            ih fuel' (Nat.lt_succ_self _) hy hentered hrest
          refine ⟨entry :: rest, done', rest', .line hline hblock, ?_⟩
          rwa [List.append_assoc] at hexit

theorem HeaderLine.exists_round {name l post : List UInt8} (hl : HeaderLine name l)
    (h : Entered entries done (l ++ post) s) :
    ∃ more s' entry, entry.key = name ∧ headerRound s = .ok s' ∧
      Entered (entries ++ [entry]) (done ++ more) post s' := by
  obtain ⟨hcap, hc, hw, -⟩ := hl
  rename_i d lfs w c
  have hline : Entered entries done (d ++ (name ++ c :: (lfs ++ (w ++ lf :: post)))) s := by
    simpa using h
  obtain ⟨more, s', hround, hentered⟩ := hline.round hcap hc hw
  exact ⟨more, s', _, rfl, hround, hentered⟩

/-- A line has two bytes and more, and the second one is no line feed. -/
theorem HeaderLine.exists_cons_cons {name l : List UInt8} (hl : HeaderLine name l) :
    ∃ a b t, l = a :: b :: t ∧ b ≠ lf := by
  have hlen : 2 ≤ l.length := by
    obtain ⟨hcap, -, -, -⟩ := hl
    have hcap' := List.length_pos_of_ne_nil hcap.nonempty
    simp only [List.length_append, List.length_cons, List.length_nil]
    omega
  have hsecond : l[1]? ≠ some lf := by
    obtain ⟨-, -, -, hsecond⟩ := hl
    exact hsecond
  match l, hlen, hsecond with
  | a :: b :: t, _, hsecond => exact ⟨a, b, t, rfl, fun h => hsecond (by rw [h]; rfl)⟩

theorem HeaderBlock.exists_cons_cons {names : List (List UInt8)} {t : List UInt8}
    (h : HeaderBlock names t) : ∃ a b r, t = a :: b :: r := by
  cases h with
  | blank c body => exact ⟨c, lf, body, rfl⟩
  | last c hl =>
    obtain ⟨a, b, t, rfl, -⟩ := hl.exists_cons_cons
    exact ⟨a, b, t ++ [c, 0], rfl⟩
  | line hl _ =>
    obtain ⟨a, b, t, rfl, -⟩ := hl.exists_cons_cons
    exact ⟨a, b, t ++ _, rfl⟩

/-- The terminator of a text is not the second byte. -/
theorem HeaderBlock.second_ne {names : List (List UInt8)} {a b : UInt8} {t y : List UInt8}
    (h : HeaderBlock names (a :: b :: t)) (ht : a :: b :: t = y ++ [0]) (hy : (0 : UInt8) ∉ y) :
    b ≠ 0 := by
  -- the second byte of a line that something follows is in front of the terminator
  have hline : ∀ {name l r : List UInt8}, HeaderLine name l → r ≠ [] → a :: b :: t = l ++ r →
      b ≠ 0 := by
    intro name l r hl hr heq h0
    obtain ⟨a', b', t', rfl, -⟩ := hl.exists_cons_cons
    obtain ⟨z, -, rfl⟩ := exists_of_append_eq (ht.symm.trans heq) hr
    have hb : b = b' := (List.cons.inj (List.cons.inj heq).2).1
    exact hy (by simp [← hb, h0])
  generalize hsplit : a :: b :: t = u at h
  cases h with
  | blank c body =>
    rw [(List.cons.inj (List.cons.inj hsplit).2).1]
    decide
  | last c hl => exact hline hl (List.cons_ne_nil _ _) hsplit
  | line hl hr =>
    obtain ⟨a', b', r, rfl⟩ := hr.exists_cons_cons
    exact hline hl (List.cons_ne_nil _ _) hsplit

/-- What a run of the loop leaves: it returned and has entered lines with the given names, and
behind the blank line is a string. -/
def LoopReturns (fuel : ℕ) (entries : List Entry) (s : HeaderState) (names : List (List UInt8)) :
    Prop :=
  ∃ e more done rest, headerLoop fuel s = .ok e ∧ Entered (entries ++ more) done rest e.state ∧
    more.map Entry.key = names ∧ (e.found = true → ∃ i n, e.state.toklist = some i ∧
      strlen e.state.text (i + 2) = .ok n)

theorem Entered.loopReturns_blank {c : UInt8} {body : List UInt8} (fuel : ℕ)
    (h : Entered entries done (c :: lf :: body) s) (h0 : (0 : UInt8) ∈ body) :
    LoopReturns fuel entries s [] := by
  obtain ⟨n, hn⟩ : ∃ n, strlen ((done ++ [c, lf]) ++ body) (done ++ [c, lf]).length = .ok n :=
    exists_strlen h0
  refine ⟨_, [], done, _, headerLoop_blank h.peek_eq, by rwa [List.append_nil], rfl,
    fun _ => ⟨done.length, n, h.toklist, ?_⟩⟩
  have htext : s.text = (done ++ [c, lf]) ++ body := by simp [h.text]
  have hlen : done.length + 2 = (done ++ [c, lf]).length := by simp
  rw [htext, hlen, hn]

/-- The loop returns from a line if it returns from what is behind it. -/
theorem HeaderLine.loopReturns {name l post : List UInt8} {names : List (List UInt8)}
    {a b : UInt8} {fuel : ℕ} (hl : HeaderLine name l)
    (h : Entered entries done (l ++ a :: b :: post) s) (hend : b = 0 → names = [])
    (hrest : ∀ entries done s', Entered entries done (a :: b :: post) s' → b ≠ 0 →
      LoopReturns fuel entries s' names) : LoopReturns (fuel + 1) entries s (name :: names) := by
  obtain ⟨more, s', entry, rfl, hround, hentered⟩ := hl.exists_round h
  obtain ⟨a', b', t, rfl, hlf⟩ := hl.exists_cons_cons
  have hpeek : peek s.text s.toklist = .ok b' := h.peek_eq
  have hstep := headerLoop_round fuel hpeek hlf hround hentered.peek_eq
  by_cases hb : b = 0
  · rw [if_pos hb] at hstep
    rw [hend hb]
    exact ⟨_, [entry], _, _, hstep, hentered, rfl, fun hfound => by cases hfound⟩
  · rw [if_neg hb] at hstep
    obtain ⟨e, rest, done', rest', he, hexit, rfl, hfound⟩ := hrest _ _ _ hentered hb
    rw [List.append_assoc] at hexit
    exact ⟨e, entry :: rest, done', rest', hstep.trans he, hexit, rfl, hfound⟩

/-- A derivation of the text gives a run of the loop that returns. -/
theorem HeaderBlock.loopReturns {names : List (List UInt8)} {t x : List UInt8} {fuel : ℕ}
    (ht : HeaderBlock names t) (htx : t = x ++ [0]) (hx : (0 : UInt8) ∉ x)
    (h : Entered entries done t s) (hfuel : t.length ≤ fuel) :
    LoopReturns fuel entries s names := by
  induction ht generalizing x entries done s fuel with
  | blank c body =>
    refine h.loopReturns_blank fuel ?_
    have hsplit : x ++ [0] = [c] ++ ([] ++ lf :: body) := htx.symm
    obtain ⟨y, rfl, -⟩ := exists_rest hsplit (by decide)
    simp
  | @last name l c hl =>
    obtain ⟨fuel, rfl⟩ : ∃ n, fuel = n + 1 := ⟨fuel - 1, by simp at hfuel; omega⟩
    exact hl.loopReturns h (fun _ => rfl) fun _ _ _ _ h0 => absurd rfl h0
  | @line name l r names hl hr ih =>
    obtain ⟨a, b, t, rfl⟩ := hr.exists_cons_cons
    obtain ⟨y, hy, rfl⟩ := exists_of_append_eq htx.symm (by simp)
    have hy0 : (0 : UInt8) ∉ y := fun h0 => hx (List.mem_append_right _ h0)
    have hpos : 1 ≤ l.length := by
      obtain ⟨_, _, _, rfl, -⟩ := hl.exists_cons_cons
      simp
    obtain ⟨fuel, rfl⟩ : ∃ n, fuel = n + 1 := ⟨fuel - 1, by simp at hfuel; omega⟩
    refine hl.loopReturns h (fun hb => absurd hb (hr.second_ne hy hy0)) fun _ _ _ hentered _ => ?_
    refine ih hy hy0 hentered ?_
    simp only [List.length_append] at hfuel
    omega

end Rounds

/-! ### Runs of the parser -/

section Stages

variable {x pre : List UInt8} {fuel : ℕ} {method url protocal : Option ℕ} {p : Parsed}

/-- The header loop looks behind the terminator. -/
theorem parseRest_end :
    parseRest fuel method url protocal (pre ++ [0]) (some pre.length) = .error .outOfBounds := by
  have hpeek : peek (pre ++ [0]) (some pre.length) = .error .outOfBounds := peek_last (by simp)
  cases fuel with
  | zero => rw [parseRest, headerLoop, hpeek]; rfl
  | succ fuel => rw [parseRest, headerLoop, hpeek]; rfl

/-- The call passed the name as its key. -/
def HeaderCall.Named (c : HeaderCall) (name : List UInt8) : Prop := cstr c.text c.key = .ok name

theorem Entered.named {entries : List Entry} {done rest : List UInt8} {s : HeaderState}
    (h : Entered entries done rest s) :
    List.Forall₂ HeaderCall.Named s.calls (entries.map Entry.key) :=
  List.forall₂_map_right_iff.mpr (h.calls.imp fun _ _ hce => hce.named)

/-- The calls of a run are those of its loop. -/
theorem calls_of_parseRest {b : Block} {toklist : Option ℕ}
    (h : parseRest fuel method url protocal b toklist = .ok p) :
    ∃ e, headerLoop fuel { text := b, toklist := toklist, list := AttriTable.empty listSiz
                           calls := [] } = .ok e ∧ p.calls = e.state.calls := by
  obtain ⟨e, he, h⟩ := bind_eq_ok.mp h
  refine ⟨e, he, ?_⟩
  by_cases hf : e.found = true
  · simp only [hf, Bool.not_true, Bool.false_eq_true, if_false] at h
    obtain ⟨i, -, h⟩ := bind_eq_ok.mp h
    obtain ⟨n, -, h⟩ := bind_eq_ok.mp h
    rw [← Except.ok.inj h]
  · simp only [hf, Bool.not_false, if_true] at h
    rw [← Except.ok.inj h]

theorem parseRest_headerBlock (hx : (0 : UInt8) ∉ x)
    (h : parseRest fuel method url protocal (pre ++ (x ++ [0])) (some pre.length) = .ok p) :
    ∃ names, HeaderBlock names (x ++ [0]) ∧ List.Forall₂ HeaderCall.Named p.calls names := by
  obtain ⟨e, he, hcalls⟩ := calls_of_parseRest h
  obtain ⟨more, done, rest, hblock, hexit⟩ := entered_nil.headerBlock hx he
  exact ⟨_, hblock, hcalls ▸ hexit.named⟩

theorem HeaderBlock.parseRest_ok {names : List (List UInt8)} (h : HeaderBlock names (x ++ [0]))
    (hx : (0 : UInt8) ∉ x) (hfuel : (x ++ [0]).length ≤ fuel) :
    ∃ p, parseRest fuel method url protocal (pre ++ (x ++ [0])) (some pre.length) = .ok p ∧
      List.Forall₂ HeaderCall.Named p.calls names := by
  obtain ⟨e, more, done, rest, he, hexit, rfl, hfound⟩ := h.loopReturns rfl hx entered_nil hfuel
  have hnamed := hexit.named
  rw [parseRest, he, ok_bind]
  by_cases hf : e.found = true
  · obtain ⟨i, n, hi, hn⟩ := hfound hf
    simp only [hf, Bool.not_true, Bool.false_eq_true, if_false, hi, deref, ok_bind, hn, pure_eq_ok]
    exact ⟨_, rfl, hnamed⟩
  · simp only [hf, Bool.not_false, if_true, pure_eq_ok]
    exact ⟨_, rfl, hnamed⟩

/-- A token of a terminated text has the terminator behind it. -/
theorem zero_mem_rest {ds tok post : List UInt8} {c : UInt8}
    (h : x ++ [0] = ds ++ (tok ++ c :: post)) : (0 : UInt8) ∈ c :: post := by
  by_cases hc : c = 0
  · simp [hc]
  · obtain ⟨y, rfl, -⟩ := exists_rest h hc
    simp

/-- A run of `http_parser` that returns derives its text, and the names are those of its calls. -/
theorem harmless_of_ok (hx : (0 : UInt8) ∉ x) (h : httpParser (x ++ [0]) = .ok p) :
    ∃ names, Harmless names (x ++ [0]) ∧ List.Forall₂ HeaderCall.Named p.calls names := by
  rcases exists_method (by simp) h with
    ⟨ds, m, c, post, hsplit, hsp, hm, hearly⟩ | ⟨ds, m, post, hsplit, hsp, hm, h0, h⟩
  · rw [hsplit, hearly.1]
    exact ⟨[], .badMethod hsp hm, .nil⟩
  obtain ⟨y, rfl, rfl⟩ := exists_rest hsplit (by decide)
  obtain ⟨ds₂, u, post₂, hsplit₂, hsp₂, h0₂, h⟩ := exists_url h0 h
  obtain ⟨z, rfl, rfl⟩ := exists_rest hsplit₂ (by decide)
  obtain ⟨ds₃, q, c, post₃, hsplit₃, hsp₃, hend⟩ := exists_protocal h0₂ h
  have htext : ds ++ (m ++ sp :: (ds₂ ++ (u ++ sp :: z))) ++ [0] =
      ds ++ (m ++ sp :: (ds₂ ++ (u ++ sp :: (ds₃ ++ (q ++ c :: post₃))))) := by
    simp [← hsplit₃]
  rw [htext]
  rcases hend with ⟨hq, hearly⟩ | ⟨hq, h⟩
  · rw [hearly.1]
    exact ⟨[], .badProtocal hsp hm hsp₂ hsp₃ hq, .nil⟩
  have hz : (0 : UInt8) ∉ z := fun h0 => hx (by simp [h0])
  obtain ⟨pre, hpre⟩ : ∃ pre, pre = ds ++ (m ++ [0]) ++ (ds₂ ++ (u ++ [0])) := ⟨_, rfl⟩
  rw [← hpre] at h
  by_cases hc : c = 0
  · -- the save pointer is left on the terminator
    subst hc
    obtain rfl := eq_nil_of_terminator hz hsplit₃
    have hend : pre ++ (ds₃ ++ (q ++ [0])) = pre ++ (ds₃ ++ q) ++ [0] := by simp
    have hlen : pre.length + ds₃.length + q.length = (pre ++ (ds₃ ++ q)).length := by
      simp [Nat.add_assoc]
    rw [if_pos rfl, Nat.add_zero, hend, hlen, parseRest_end] at h
    simp at h
  · obtain ⟨w, rfl, rfl⟩ := exists_rest hsplit₃ hc
    have hrest : pre ++ (ds₃ ++ (q ++ 0 :: (w ++ [0]))) =
        pre ++ (ds₃ ++ (q ++ [0])) ++ (w ++ [0]) := by simp
    have hlen : pre.length + ds₃.length + q.length + 1 = (pre ++ (ds₃ ++ (q ++ [0]))).length := by
      simp [Nat.add_assoc]
    rw [if_neg hc, hrest, hlen] at h
    -- all three tokens are there: the header block decides
    obtain ⟨names, hblock, hnamed⟩ := parseRest_headerBlock (fun h0 => hz (by simp [h0])) h
    have hline := Harmless.headers
      { skip₁ := ds, method := m, skip₂ := ds₂, url := u, skip₃ := ds₃, protocal := q, stop := c
        methodSplit := hsp, urlSplit := hsp₂, protocalSplit := hsp₃, stop_ne := hc } hm hq hblock
    exact ⟨names, by simpa [RequestLine.text] using hline, hnamed⟩

/-- A derivation of a text gives a run of `http_parser` that returns. -/
theorem Harmless.exists_ok {names : List (List UInt8)} {t : List UInt8} (h : Harmless names t)
    (ht : t = x ++ [0]) (hx : (0 : UInt8) ∉ x) :
    ∃ p, httpParser t = .ok p ∧ List.Forall₂ HeaderCall.Named p.calls names := by
  cases h with
  | badMethod hsp hm => exact ⟨_, httpParser_badMethod _ hsp hm (zero_mem_rest ht.symm), .nil⟩
  | @badProtocal ds m ds₂ u ds₃ q post c hsp hm hsp₂ hsp₃ hq =>
    obtain ⟨y, hy, -⟩ := exists_rest ht.symm (by decide)
    rw [httpParser_goodMethod _ hsp hm (by simp [hy]), parseUrl_good _ _ hsp₂,
      parseProtocal_bad _ _ hsp₃ hq]
    exact ⟨_, rfl, .nil⟩
  | @headers post names l hm hq hblock =>
    obtain ⟨a, b, r, hpost⟩ := hblock.exists_cons_cons
    obtain ⟨y, rfl, rfl⟩ := exists_of_append_eq ht.symm (by simp [hpost])
    rw [l.httpParser_eq hm hq (by simp)]
    exact hblock.parseRest_ok (fun h0 => hx (by simp [h0])) (by simp)

/-! ### The response parser -/

theorem TwoWords.exists_ok {t : List UInt8} (h : TwoWords t) :
    ∃ w, httpResponseParser t = .ok w := by
  obtain ⟨hsp, hsp₂⟩ := h
  rename_i ds w ds₂ w₂ post c
  have hfirst := strtokR_delim [] (ds₂ ++ (w₂ ++ c :: post)) hsp (by decide)
  simp only [List.nil_append, List.length_nil] at hfirst
  simp only [httpResponseParser, hfirst, ok_bind, strtokR_token _ _ hsp₂, deref,
    cstr_token _ hsp₂]
  exact ⟨_, rfl⟩

/-- Nothing behind the first word. -/
theorem httpResponseParser_cut {ptr post : List UInt8} {t : Option ℕ}
    (h : strtokR ptr (some 0) [sp] =
      .ok { token := t, save := some pre.length, text := pre ++ 0 :: post }) :
    httpResponseParser ptr = .error .nullDeref := by
  simp only [httpResponseParser, h, ok_bind, strtokR_terminator]
  rfl

theorem twoWords_of_ok {w : List UInt8} (h : httpResponseParser (x ++ [0]) = .ok w) :
    TwoWords (x ++ [0]) := by
  rcases exists_tokenSplit [sp] (l := x ++ [0]) (by simp) with
    ⟨ds, tok, c, post, hsplit, htok⟩ | ⟨ds, post, hsplit, hds⟩
  · by_cases hc : c = 0
    · subst hc
      have hfirst := strtokR_end [] post htok
      simp only [List.nil_append, List.length_nil, Nat.zero_add] at hfirst
      rw [hsplit, httpResponseParser_cut hfirst] at h
      simp at h
    · obtain rfl : c = sp := by simpa [hc] using htok.stop
      obtain ⟨y, rfl, rfl⟩ := exists_rest hsplit hc
      have hfirst := strtokR_delim [] (y ++ [0]) htok hc
      simp only [List.nil_append, List.length_nil, Nat.zero_add] at hfirst
      rw [hsplit] at h ⊢
      rcases exists_tokenSplit [sp] (l := y ++ [0]) (by simp) with
        ⟨ds₂, tok₂, c₂, post₂, hsplit₂, htok₂⟩ | ⟨ds₂, post₂, hsplit₂, hds₂⟩
      · rw [hsplit₂]
        exact .mk htok htok₂
      · rw [httpResponseParser, hfirst, ok_bind, hsplit₂, strtokR_null _ _ hds₂] at h
        cases h
  · have hfirst : strtokR (x ++ [0]) (some 0) [sp] =
        .ok { token := none, save := some ds.length, text := ds ++ 0 :: post } := by
      have hnull := strtokR_null [] post hds
      simpa [hsplit] using hnull
    rw [httpResponseParser_cut hfirst] at h
    simp at h

end Stages

/-- On a string `http_response_parser` returns if and only if there are two words. -/
theorem httpResponseParser_returns_iff (s : CText) :
    (∃ w, httpResponseParser (s.bytes ++ [0]) = .ok w) ↔ TwoWords (s.bytes ++ [0]) :=
  ⟨fun ⟨_, h⟩ => twoWords_of_ok h, fun h => h.exists_ok⟩

end Lidas
