import Lidas.Http.Survival
import Lidas.Http.Tokenized

/-!
# What `http_parser` writes, and what it hands out

Whatever the text is, `http_parser` writes nothing but terminators, and only over spaces, colons,
carriage returns and line feeds (`httpParser_cut`). A request that it returns is well formed
(`httpParser_wellFormed`): the method and the protocol are of the lists, the names and contents of
the headers have none of the bytes that separate them, and all of these strings are still in the
text that is left, which behind the blank line is the text as it was.

The loop invariant `Taken` extends `Entered` to the state behind a content that the terminator of
the text ended: the save pointer is then left on that terminator, and not behind it.
-/

namespace Lidas

open CString

/-! ### What is written -/

/-- A text of which some bytes, all of them delimiters, have become terminators. -/
def Cut (delim : List UInt8) (b b' : Block) : Prop :=
  List.Forall₂ (fun x y => y = x ∨ y = 0 ∧ x ∈ delim) b b'

section Cut

variable {delim delim' : List UInt8} {b b' b'' : Block}

theorem Cut.refl (delim : List UInt8) (b : Block) : Cut delim b b :=
  List.forall₂_same.mpr fun _ _ => .inl rfl

/-- More bytes may be cut at. -/
theorem Cut.mono (h : Cut delim b b') (hsub : delim ⊆ delim') : Cut delim' b b' :=
  h.imp fun _ _ hxy => hxy.imp id fun hcut => ⟨hcut.1, hsub hcut.2⟩

/-- Cuts of cuts are cuts. -/
theorem Cut.trans (h : Cut delim b b') (h' : Cut delim b' b'') : Cut delim b b'' := by
  induction h generalizing b'' with
  | nil =>
    cases h'
    exact .nil
  | cons hxy _ ih =>
    cases h' with
    | cons hyz hrest =>
      refine .cons ?_ (ih hrest)
      rcases hyz with rfl | ⟨rfl, hmem⟩
      · exact hxy
      · rcases hxy with rfl | ⟨-, hmem'⟩
        · exact .inr ⟨rfl, hmem⟩
        · exact .inr ⟨rfl, hmem'⟩

/-- What stands before is not cut. -/
theorem Cut.append (h : Cut delim b b') (pre : Block) : Cut delim (pre ++ b) (pre ++ b') :=
  List.rel_append (Cut.refl delim pre) h

/-- One delimiter. -/
theorem cut_set {i : ℕ} {c : UInt8} (hi : b[i]? = some c) (hc : c ∈ delim) :
    Cut delim b (b.set i 0) := by
  induction b generalizing i with
  | nil => cases hi
  | cons x b ih =>
    cases i with
    | zero =>
      obtain rfl : x = c := Option.some.inj hi
      exact .cons (.inr ⟨rfl, hc⟩) (Cut.refl delim b)
    | succ i => exact .cons (.inl rfl) (ih hi)

/-- A span is ended by the terminator or by another byte. -/
theorem spanLen_stop {p : UInt8 → Bool} {l : List UInt8} {n : ℕ} {c : UInt8}
    (h : spanLen p l = .ok n) (hc : l[n]? = some c) : c = 0 ∨ p c = false := by
  induction l generalizing n with
  | nil => cases h
  | cons x l ih =>
    rw [spanLen] at h
    split_ifs at h with hstop
    · cases h
      obtain rfl : x = c := Option.some.inj hc
      exact hstop
    · cases hl : spanLen p l with
      | error e =>
        rw [hl] at h
        cases h
      | ok m =>
        rw [hl] at h
        cases h
        exact ih hl hc

/-- `strtok_r` writes at most over a delimiter. -/
theorem strtokR_cut {p : Option ℕ} {r : Strtok} (h : strtokR b p delim = .ok r) :
    Cut delim b r.text := by
  obtain ⟨s, -, h⟩ := bind_eq_ok.mp h
  obtain ⟨skipped, -, h⟩ := bind_eq_ok.mp h
  obtain ⟨c, -, h⟩ := bind_eq_ok.mp h
  split_ifs at h
  · cases h
    exact .refl _ _
  · obtain ⟨len, hlen, h⟩ := bind_eq_ok.mp h
    obtain ⟨d, hd, h⟩ := bind_eq_ok.mp h
    split_ifs at h with hd0
    · cases h
      exact .refl _ _
    · cases h
      -- the byte behind the token is one of the delimiters
      rw [byteAt] at hd
      cases hget : b[s + skipped + len]? with
      | none =>
        rw [hget] at hd
        cases hd
      | some c =>
        rw [hget] at hd
        obtain rfl : c = d := Except.ok.inj hd
        have hstop : (b.drop (s + skipped))[len]? = some c := by rw [List.getElem?_drop, hget]
        exact cut_set hget (by simpa [hd0] using spanLen_stop hlen hstop)

/-- A line is ended at its line break. -/
theorem breakline_cut {l l' : List UInt8} (h : breakline l = .ok l') : Cut [cr, lf] l l' := by
  induction l generalizing l' with
  | nil => cases h
  | cons c l ih =>
    rw [breakline] at h
    by_cases hc : c = 0
    · rw [if_pos hc] at h
      cases h
      exact .refl _ _
    · rw [if_neg hc] at h
      cases hl : breakline l with
      | error e =>
        rw [hl] at h
        cases h
      | ok m =>
        rw [hl] at h
        cases h
        refine .cons ?_ (ih hl)
        split_ifs with hline
        · exact .inr ⟨rfl, by simpa using hline⟩
        · exact .inl rfl

theorem lidaBreakline_cut {p : ℕ} (h : lidaBreakline b p = .ok b') : Cut [cr, lf] b b' := by
  rw [lidaBreakline] at h
  cases hl : breakline (b.drop p) with
  | error e =>
    rw [hl] at h
    cases h
  | ok l =>
    rw [hl] at h
    cases h
    have hcut := (breakline_cut hl).append (b.take p)
    rwa [List.take_append_drop] at hcut

/-- The bytes that separate the parts of a request. -/
def separators : List UInt8 := [sp, colon, cr, lf]

theorem headerRound_writes {s s' : HeaderState} (h : headerRound s = .ok s') :
    Cut separators s.text s'.text := by
  obtain ⟨capture, hcapture, h⟩ := bind_eq_ok.mp h
  obtain ⟨content, hcontent, h⟩ := bind_eq_ok.mp h
  obtain ⟨p, -, h⟩ := bind_eq_ok.mp h
  obtain ⟨n, -, h⟩ := bind_eq_ok.mp h
  obtain ⟨text, htext, h⟩ := bind_eq_ok.mp h
  obtain ⟨key, -, h⟩ := bind_eq_ok.mp h
  obtain ⟨w, -, h⟩ := bind_eq_ok.mp h
  obtain ⟨t, -, h⟩ := bind_eq_ok.mp h
  cases h
  have hfirst := (strtokR_cut hcapture).mono (show _ ⊆ separators by decide)
  have hsecond := (strtokR_cut hcontent).mono (show _ ⊆ separators by decide)
  exact (hfirst.trans hsecond).trans ((lidaBreakline_cut htext).mono (by decide))

theorem headerLoop_writes {fuel : ℕ} {s : HeaderState} {e : HeaderExit}
    (h : headerLoop fuel s = .ok e) : Cut separators s.text e.state.text := by
  induction fuel generalizing s with
  | zero =>
    rcases headerLoop_eq_ok h with ⟨-, rfl⟩ | ⟨fuel', s', b, hfuel, -⟩
    · exact .refl _ _
    · cases hfuel
  | succ fuel ih =>
    rcases headerLoop_eq_ok h with ⟨-, rfl⟩ | ⟨fuel', s', b, hfuel, hround, -, hrest⟩
    · exact .refl _ _
    · cases hfuel
      rcases hrest with ⟨-, rfl⟩ | hrest
      · exact headerRound_writes hround
      · exact (headerRound_writes hround).trans (ih hrest)

/-- **Nothing but separators is overwritten**, and with nothing but terminators, whether the text
is a request or not. -/
theorem httpParser_cut {b : Block} {p : Parsed} (h : httpParser b = .ok p) :
    Cut [sp, colon, cr, lf] b p.text := by
  obtain ⟨n, -, h⟩ := bind_eq_ok.mp h
  obtain ⟨method, hmethod, h⟩ := bind_eq_ok.mp h
  have hm := (strtokR_cut hmethod).mono (show _ ⊆ separators by decide)
  obtain ⟨good, -, h⟩ := bind_eq_ok.mp h
  split_ifs at h
  · cases h
    exact hm
  obtain ⟨url, hurl, h⟩ := bind_eq_ok.mp h
  have hu := hm.trans ((strtokR_cut hurl).mono (by decide))
  split_ifs at h
  · cases h
    exact hu
  obtain ⟨protocal, hprotocal, h⟩ := bind_eq_ok.mp h
  have hq := hu.trans ((strtokR_cut hprotocal).mono (by decide))
  obtain ⟨good', -, h⟩ := bind_eq_ok.mp h
  split_ifs at h
  · cases h
    exact hq
  obtain ⟨l, hl, h⟩ := bind_eq_ok.mp h
  have hloop := hq.trans (headerLoop_writes hl)
  split_ifs at h
  · cases h
    exact hloop
  · obtain ⟨body, -, h⟩ := bind_eq_ok.mp h
    obtain ⟨offset, -, h⟩ := bind_eq_ok.mp h
    cases h
    exact hloop

/-- A request with one header and no body. -/
def shortRequest : Block := ascii "GET / HTTP/1.0\na: b\n\n\n" ++ [0]

/-- A request without headers is one. -/
theorem exists_shortRequest : ∃ p t, httpParser shortRequest = .ok p ∧ p.request = some t := by
  have hsome : ((httpParser shortRequest).toOption.bind Parsed.request).isSome = true := by
    decide +kernel
  cases hp : httpParser shortRequest with
  | error e =>
    rw [hp] at hsome
    cases hsome
  | ok p =>
    rw [hp] at hsome
    obtain ⟨t, ht⟩ := Option.isSome_iff_exists.mp hsome
    exact ⟨p, t, rfl, ht⟩

theorem httpParser_cut_short : ∃ p : Parsed, Cut [sp, colon, cr, lf] shortRequest p.text := by
  obtain ⟨p, t, hp, -⟩ := exists_shortRequest
  exact ⟨p, httpParser_cut hp⟩

end Cut

/-! ### What is handed out -/

/-- A header as `hash_set` may get it: nothing in the name ends it, and nothing in the content ends
a line; the content has no space in front. -/
structure Entry.Clean (e : Entry) : Prop where
  key_ne_nil : e.key ≠ []
  key : ∀ x ∈ e.key, x ≠ 0 ∧ x ≠ colon ∧ x ≠ sp
  content : ∀ x ∈ e.content, x ≠ 0 ∧ x ≠ cr ∧ x ≠ lf
  head : e.content.head? ≠ some sp

/-- The strings that a round takes from a line. -/
theorem clean_of_tokens {d cap lfs w : List UInt8} {c e : UInt8}
    (hcap : TokenSplit [colon, sp] d cap c) (hw : TokenSplit [lf] lfs w e) :
    Entry.Clean { key := cap, content := lineContent w } where
  key_ne_nil := hcap.nonempty
  key := fun x hx => by simpa using hcap.token x hx
  content := fun x hx => by
    have hmem : x ∈ w.dropWhile (· == sp) := (List.takeWhile_sublist _).subset hx
    obtain ⟨h0, hlf⟩ := hw.token x ((List.dropWhile_sublist _).subset hmem)
    have hcr : (x != cr) = true := List.mem_takeWhile_imp (p := (· != cr)) hx
    exact ⟨h0, by simpa using hcr, by simpa using hlf⟩
  head := fun h => by
    have hnot := List.head?_dropWhile_not (· == sp) w
    cases hdrop : w.dropWhile (· == sp) with
    | nil =>
      rw [lineContent, hdrop] at h
      cases h
    | cons x v =>
      rw [hdrop] at hnot
      simp only [List.head?_cons] at hnot
      rw [lineContent, hdrop, List.takeWhile_cons] at h
      split_ifs at h
      · obtain rfl : x = sp := Option.some.inj h
        simp at hnot
      · cases h

/-- **The loop invariant.** The loop is done with `done` and has `rest` before it, and the save
pointer is between them, or on the terminator that `done` ends with. -/
structure Taken (entries : List Entry) (done rest : List UInt8) (i : ℕ) (s : HeaderState) :
    Prop where
  text : s.text = done ++ rest
  toklist : s.toklist = some i
  place : i = done.length ∧ (0 : UInt8) ∈ rest ∨ ∃ pre, done = pre ++ [0] ∧ i = pre.length
  calls : List.Forall₂ (HeaderCall.Stores done) s.calls entries
  list : Filled listSiz (List.zipWith HeaderCall.setCall s.calls entries) s.list
  clean : ∀ e ∈ entries, e.Clean

section Taken

variable {entries : List Entry} {done rest : List UInt8} {i : ℕ} {s s' : HeaderState}

/-- A round with a content that another byte than a line feed may end. -/
theorem Taken.line {d cap lfs w post : List UInt8} {c e : UInt8}
    (h : Taken entries done (d ++ (cap ++ c :: (lfs ++ (w ++ e :: post)))) i s)
    (hi : i = done.length) (h0 : (0 : UInt8) ∈ e :: post)
    (hcap : TokenSplit [colon, sp] d cap c) (hc : c ≠ 0) (hw : TokenSplit [lf] lfs w e)
    (hround : headerRound s = .ok s') :
    ∃ more j, more.length = (d ++ (cap ++ c :: (lfs ++ (w ++ [e])))).length ∧
      Taken (entries ++ [{ key := cap, content := lineContent w }]) (done ++ more) post j s' := by
  have hw0 : (0 : UInt8) ∉ w := fun h0 => (hw.token 0 h0).1 rfl
  have hwlf : lf ∉ w := fun h0 => (hw.token lf h0).2 (by simp)
  have hcap0 : (0 : UInt8) ∉ cap := fun h0 => (hcap.token 0 h0).1 rfl
  have hentered : Entered entries done (d ++ (cap ++ c :: (lfs ++ (w ++ e :: post)))) s :=
    ⟨h.text, hi ▸ h.toklist, h.calls, h.list⟩
  obtain ⟨key, content, text, hkeyeq, hcontenteq, htext, hrounds⟩ :=
    headerRound_tokens hentered.text hentered.toklist hcap hc hw
  have hvlf : lf ∉ w.dropWhile (· == sp) := fun h0 => hwlf ((List.dropWhile_sublist _).subset h0)
  obtain ⟨tail, htail⟩ := exists_blank_eq hvlf
  obtain ⟨more, hmore⟩ : ∃ more, more = cutLine d cap lfs w ++ [0] := ⟨_, rfl⟩
  -- both strings are read in the text that is behind the save pointer
  have hkey : cstr (done ++ more) key = .ok cap := by
    have hassoc : done ++ more = (done ++ d) ++ (cap ++ 0 :: (lfs ++
        (w.takeWhile (· == sp) ++ (blank (w.dropWhile (· == sp)) ++ [0])))) := by
      simp [hmore, cutLine]
    rw [hkeyeq, hassoc, ← List.length_append]
    exact cstr_append hcap0
  have hcontent : cstr (done ++ more) content = .ok (lineContent w) := by
    have hassoc : done ++ more = (done ++ (d ++ (cap ++ 0 :: (lfs ++ w.takeWhile (· == sp))))) ++
        (lineContent w ++ 0 :: tail) := by
      rw [lineContent, ← htail, hmore, cutLine]
      simp
    rw [hcontenteq, hassoc]
    exact cstr_append fun h0 => hw0 ((List.dropWhile_sublist _).subset
      ((List.takeWhile_sublist _).subset h0))
  have htext' : text = done ++ more ++ post := by simp [htext, hmore]
  obtain ⟨t', hset, hstored⟩ := hentered.hashSet post
    (e := { key := cap, content := lineContent w }) hkey hcontent
  rw [hrounds, hset, ok_bind, pure_eq_ok, Except.ok.injEq] at hround
  have hclean : ∀ e' ∈ entries ++ [{ key := cap, content := lineContent w }], e'.Clean := by
    intro e' he'
    rcases List.mem_append.mp he' with he' | he'
    · exact h.clean e' he'
    · rw [List.mem_singleton.mp he']
      exact clean_of_tokens hcap hw
  have hlen : more.length = (d ++ (cap ++ c :: (lfs ++ (w ++ [e])))).length := by
    rw [hmore, List.length_append, length_cutLine]
    simp only [List.length_append, List.length_cons, List.length_nil]
    omega
  subst hround
  refine ⟨more, _, hlen, htext', rfl, ?_, ?_, ?_, hclean⟩
  · -- the pointer is behind the line, or at the terminator if that ended it
    by_cases he : e = 0
    · exact .inr ⟨done ++ cutLine d cap lfs w, by rw [hmore, List.append_assoc], by simp [he]⟩
    · refine .inl ⟨?_, ?_⟩
      · rw [if_neg he, hmore]
        simp only [List.length_append, List.length_cons, List.length_nil]
        omega
      · exact (List.mem_cons.mp h0).resolve_left (Ne.symm he)
  · rw [htext']
    exact hstored.calls
  · rw [htext']
    exact hstored.list

/-- **One round.** It takes a line from the text, with a name and a content. -/
theorem Taken.round (h : Taken entries done rest i s) (hround : headerRound s = .ok s') :
    ∃ line more post entry j, rest = line ++ post ∧ more.length = line.length ∧
      Taken (entries ++ [entry]) (done ++ more) post j s' := by
  -- the save pointer is in the text or on its terminator
  rcases h.place with ⟨hi, h0⟩ | ⟨pre, hdone, hi⟩
  · rcases exists_tokenSplit [colon, sp] h0 with ⟨d, cap, c, post, rfl, hcap⟩ | ⟨d, post, rfl, hd⟩
    · by_cases hc : c = 0
      · -- the name runs up to the terminator, and there is no content
        subst hc
        have hfirst := strtokR_end done post hcap
        rw [← h.text, ← hi, ← h.toklist] at hfirst
        rw [headerRound_noContent hfirst (strtokR_terminator _ post) rfl] at hround
        cases hround
      · have h0' : (0 : UInt8) ∈ post := hcap.zero_mem hc h0
        rcases exists_tokenSplit [lf] h0' with ⟨lfs, w, e, post', rfl, hw⟩ | ⟨lfs, post', rfl, hlfs⟩
        · have h0'' : (0 : UInt8) ∈ e :: post' := by
            by_cases he : e = 0
            · simp [he]
            · exact List.mem_cons_of_mem _ (hw.zero_mem he h0')
          obtain ⟨more, j, hlen, htaken⟩ := h.line hi h0'' hcap hc hw hround
          exact ⟨_, more, post', _, j, by simp, hlen, htaken⟩
        · have hfirst := strtokR_delim done (lfs ++ 0 :: post') hcap hc
          rw [← h.text, ← hi, ← h.toklist] at hfirst
          rw [headerRound_noContent hfirst (strtokR_null _ post' hlfs) rfl] at hround
          cases hround
    · have hfirst := strtokR_null done post hd
      rw [← h.text, ← hi, ← h.toklist] at hfirst
      have hsecond : strtokR s.text (some (i + d.length)) [lf] = .ok
          { token := none, save := some (done ++ d).length, text := (done ++ d) ++ 0 :: post } := by
        rw [h.text, hi, ← List.length_append, ← List.append_assoc]
        exact strtokR_terminator (done ++ d) post
      rw [headerRound_noContent hfirst hsecond rfl] at hround
      cases hround
  · -- at the terminator there is no name
    have htext : s.text = pre ++ 0 :: rest := by rw [h.text, hdone]; simp
    have hfirst : strtokR s.text s.toklist [colon, sp] = .ok
        { token := none, save := some pre.length, text := pre ++ 0 :: rest } := by
      rw [htext, h.toklist, hi]
      exact strtokR_terminator pre rest
    rw [headerRound_noContent hfirst (strtokR_terminator pre rest) rfl] at hround
    cases hround

/-- **The run.** -/
theorem Taken.run {fuel : ℕ} {e : HeaderExit} (h : Taken entries done rest i s)
    (hloop : headerLoop fuel s = .ok e) :
    ∃ lines more post entries' j, rest = lines ++ post ∧ more.length = lines.length ∧
      Taken entries' (done ++ more) post j e.state := by
  induction fuel generalizing entries done rest i s with
  | zero =>
    rcases headerLoop_eq_ok hloop with ⟨-, rfl⟩ | ⟨fuel', s', b, hfuel, -⟩
    · exact ⟨[], [], rest, entries, i, rfl, rfl, by rwa [List.append_nil]⟩
    · cases hfuel
  | succ fuel ih =>
    rcases headerLoop_eq_ok hloop with ⟨-, rfl⟩ | ⟨fuel', s', b, hfuel, hround, -, hrest⟩
    · exact ⟨[], [], rest, entries, i, rfl, rfl, by rwa [List.append_nil]⟩
    · cases hfuel
      obtain ⟨line, more, post, entry, j, rfl, hlen, htaken⟩ := h.round hround
      rcases hrest with ⟨-, rfl⟩ | hrest
      · exact ⟨line, more, post, _, j, rfl, hlen, htaken⟩
      · obtain ⟨lines, more', post', entries', j', rfl, hlen', htaken'⟩ := ih htaken hrest
        refine ⟨line ++ lines, more ++ more', post', entries', j', ?_, ?_, ?_⟩
        · rw [List.append_assoc]
        · rw [List.length_append, List.length_append, hlen, hlen']
        · rwa [← List.append_assoc]

end Taken

/-! ### The request -/

/-- What a request promises, with the text that `http_parser` read and what it left. -/
structure HttpRequest.WellFormed (b : Block) (p : Parsed) (t : HttpRequest) : Prop where
  method : ∃ i m, t.method = some i ∧ cstr p.text i = .ok m ∧ m ∈ methodLst
  url : ∃ i u, t.url = some i ∧ cstr p.text i = .ok u ∧ u ≠ [] ∧ sp ∉ u
  protocal : ∃ i q, t.protocal = some i ∧ cstr p.text i = .ok q ∧ q ∈ protocalLst
  headers : ∃ entries, List.Forall₂ (HeaderCall.Stores p.text) p.calls entries ∧
    (∀ e ∈ entries, e.Clean) ∧
      Filled listSiz (List.zipWith HeaderCall.setCall p.calls entries) t.list
  body : ∃ w, cstr p.text t.requestBody = .ok w ∧ w.length = t.offset
  unchanged : p.text.drop t.requestBody = b.drop t.requestBody

/-- The string that `strlen` measures. -/
theorem exists_cstr_of_strlen {b : Block} {i n : ℕ} (h : strlen b i = .ok n) :
    ∃ w, cstr b i = .ok w ∧ w.length = n := by
  refine ⟨(b.drop i).take n, by rw [cstr, h]; rfl, ?_⟩
  rw [List.length_take]
  exact Nat.min_eq_left (spanLen_le h).le

/-- What is behind two texts of one length is the same. -/
theorem drop_append_congr {a a' : List UInt8} {n : ℕ} {post : List UInt8}
    (hlen : a.length = a'.length) (hn : a.length ≤ n) :
    (a ++ post).drop n = (a' ++ post).drop n := by
  rw [List.drop_append, List.drop_append, List.drop_eq_nil_of_le hn,
    List.drop_eq_nil_of_le (hlen.symm.trans_le hn), hlen]

/-- **A request that is returned is well formed.** -/
theorem httpParser_wellFormed {b : Block} {p : Parsed} {t : HttpRequest} (h : httpParser b = .ok p)
    (ht : p.request = some t) : t.WellFormed b p := by
  obtain ⟨n, hn, -⟩ := bind_eq_ok.mp h
  have h0 : (0 : UInt8) ∈ b := by simpa using zero_mem_of_spanLen (fun _ => rfl) hn
  rcases exists_method h0 h with
    ⟨ds, m, c, post, -, -, -, -, hnone⟩ | ⟨ds, m, post, rfl, hsp, hm, h0, h⟩
  · rw [hnone] at ht
    cases ht
  obtain ⟨ds₂, u, post₂, rfl, hsp₂, h0₂, h⟩ := exists_url h0 h
  obtain ⟨ds₃, q, c, post₃, rfl, hsp₃, hend⟩ := exists_protocal h0₂ h
  rcases hend with ⟨-, -, hnone⟩ | ⟨hq, h⟩
  · rw [hnone] at ht
    cases ht
  obtain ⟨pre, hpre⟩ : ∃ pre, pre = ds ++ (m ++ [0]) ++ (ds₂ ++ (u ++ [0])) := ⟨_, rfl⟩
  obtain ⟨done, hdone⟩ : ∃ done, done = pre ++ (ds₃ ++ (q ++ [0])) := ⟨_, rfl⟩
  rw [← hpre] at h
  obtain ⟨l, hl, h⟩ := bind_eq_ok.mp h
  -- the loop starts behind the protocol, or at the terminator that ended it
  have hstart : Taken [] done post₃ (pre.length + ds₃.length + q.length + if c = 0 then 0 else 1)
      { text := pre ++ (ds₃ ++ (q ++ 0 :: post₃))
        toklist := some (pre.length + ds₃.length + q.length + if c = 0 then 0 else 1)
        list := AttriTable.empty listSiz, calls := [] } := by
    refine ⟨by simp [hdone], rfl, ?_, .nil, filled_empty listSiz, fun e he => (by cases he)⟩
    by_cases hc : c = 0
    · exact .inr ⟨pre ++ (ds₃ ++ q), by simp [hdone], by simp [hc, Nat.add_assoc]⟩
    · exact .inl ⟨by simp [hdone, hc, Nat.add_assoc], hsp₃.zero_mem hc h0₂⟩
  obtain ⟨lines, more, post, entries, j, hlines, hlen, htaken⟩ := hstart.run hl
  have hfound : l.found = true := by
    by_contra hf
    rw [Bool.not_eq_true] at hf
    rw [hf] at h
    cases h
    cases ht
  rw [hfound, htaken.toklist] at h
  obtain ⟨body, hbody, h⟩ := bind_eq_ok.mp h
  obtain ⟨offset, hoffset, h⟩ := bind_eq_ok.mp h
  cases hbody
  cases h
  cases ht
  have hle : (done ++ more).length ≤ j + 2 := by
    rcases htaken.place with ⟨rfl, -⟩ | ⟨pre', hpre', rfl⟩
    · omega
    · rw [hpre', List.length_append, List.length_singleton]
      omega
  have htext : l.state.text = done ++ more ++ post := htaken.text
  refine ⟨⟨_, m, rfl, ?_, hm⟩, ⟨_, u, rfl, ?_, hsp₂.nonempty, fun hmem => ?_⟩, ⟨_, q, rfl, ?_, hq⟩,
    ⟨entries, ?_, htaken.clean, htaken.list⟩, exists_cstr_of_strlen hoffset, ?_⟩
  · have hassoc : l.state.text = ds ++ (m ++ 0 :: (ds₂ ++ (u ++ 0 :: (ds₃ ++ (q ++ 0 ::
        (more ++ post)))))) := by simp [htext, hdone, hpre]
    rw [hassoc]
    exact cstr_append fun h0 => (hsp.token 0 h0).1 rfl
  · have hassoc : l.state.text = (ds ++ (m ++ [0]) ++ ds₂) ++ (u ++ 0 :: (ds₃ ++ (q ++ 0 ::
        (more ++ post)))) := by simp [htext, hdone, hpre]
    rw [hassoc, ← List.length_append]
    exact cstr_append fun h0 => (hsp₂.token 0 h0).1 rfl
  · exact (hsp₂.token sp hmem).2 (by simp)
  · have hassoc : l.state.text = (pre ++ ds₃) ++ (q ++ 0 :: (more ++ post)) := by
      simp [htext, hdone]
    have hcstr : cstr ((pre ++ ds₃) ++ (q ++ 0 :: (more ++ post))) (pre ++ ds₃).length = .ok q :=
      cstr_append fun h0 => (hsp₃.token 0 h0).1 rfl
    rw [List.length_append] at hcstr
    rw [hassoc]
    exact hcstr
  · rw [htext]
    exact htaken.calls.imp fun _ _ hstores => hstores.append post
  · obtain ⟨front, hfront, hsplit⟩ : ∃ front, front.length = (done ++ more).length ∧
        ds ++ (m ++ sp :: (ds₂ ++ (u ++ sp :: (ds₃ ++ (q ++ c :: post₃))))) =
          front ++ post := by
      refine ⟨ds ++ (m ++ sp :: (ds₂ ++ (u ++ sp :: (ds₃ ++ (q ++ c :: lines))))), ?_, by
        simp [hlines]⟩
      rw [hdone, hpre]
      simp only [List.length_append, List.length_cons, List.length_nil, hlen]
      omega
    rw [htext, hsplit]
    exact drop_append_congr hfront.symm hle

theorem httpParser_wellFormed_short : ∃ (p : Parsed) (t : HttpRequest),
    t.WellFormed shortRequest p := by
  obtain ⟨p, t, hp, ht⟩ := exists_shortRequest
  exact ⟨p, t, httpParser_wellFormed hp ht⟩

end Lidas
