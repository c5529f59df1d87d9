import Lidas.Http.Stages
import Lidas.Http.HeaderLoop

/-!
# What `http_parser` leaves of a text

`http_parser` only writes at and behind the save pointer, so once the method is read nothing
in front of the URL changes any more: `Keeps` follows the save pointer through the calls.
`exists_tokenized` says what is left of a request that was parsed: its method is followed by
a `'\0'` where the text had a space, and in the text a slash comes before any `'\0'`.
-/

namespace Lidas

open CString

/-- The bytes in front of an offset, and the length, are unchanged. -/
structure Keeps (i : ℕ) (b b' : Block) : Prop where
  length : b'.length = b.length
  take : b'.take i = b.take i

theorem Keeps.refl (i : ℕ) (b : Block) : Keeps i b b := ⟨rfl, rfl⟩

/-- What is written behind a later place is written behind an earlier one. -/
theorem Keeps.trans {i j : ℕ} {b b' b'' : Block} (h : Keeps i b b') (h' : Keeps j b' b'')
    (hij : i ≤ j) : Keeps i b b'' where
  length := h'.length.trans h.length
  take := by
    have hi : ∀ l : Block, l.take i = (l.take j).take i := fun l => by
      rw [List.take_take, Nat.min_eq_left hij]
    rw [hi b'', h'.take, ← hi b', h.take]

/-- What is in front of the offset is still there. -/
theorem Keeps.eq_append {i : ℕ} {a r b' : Block} (h : Keeps i (a ++ r) b') (ha : a.length ≤ i) :
    b' = a ++ b'.drop a.length := by
  have htake : b'.take a.length = a := by
    have hi : ∀ l : Block, l.take a.length = (l.take i).take a.length := fun l => by
      rw [List.take_take, Nat.min_eq_left ha]
    rw [hi b', h.take, ← hi, List.take_left]
  calc b' = b'.take a.length ++ b'.drop a.length := (List.take_append_drop _ _).symm
    _ = a ++ b'.drop a.length := by rw [htake]

/-- `strtok_r` writes behind the save pointer, and moves it on. -/
theorem strtokR_keeps {b delim : List UInt8} {i : ℕ} {r : Strtok}
    (h : strtokR b (some i) delim = .ok r) :
    Keeps i b r.text ∧ (∃ j, r.save = some j ∧ i ≤ j) ∧ ∀ t, r.token = some t → i ≤ t := by
  obtain ⟨s, hs, h⟩ := bind_eq_ok.mp h
  cases hs
  obtain ⟨skipped, -, h⟩ := bind_eq_ok.mp h
  obtain ⟨c, -, h⟩ := bind_eq_ok.mp h
  split_ifs at h
  · cases h
    exact ⟨.refl i b, ⟨_, rfl, Nat.le_add_right _ _⟩, fun t ht => by cases ht⟩
  · obtain ⟨len, -, h⟩ := bind_eq_ok.mp h
    obtain ⟨d, -, h⟩ := bind_eq_ok.mp h
    have htoken : ∀ t, some (i + skipped) = some t → i ≤ t := fun t ht => by
      cases ht
      exact Nat.le_add_right _ _
    split_ifs at h
    · cases h
      exact ⟨.refl i b, ⟨_, rfl, by omega⟩, htoken⟩
    · cases h
      refine ⟨⟨List.length_set, ?_⟩, ⟨_, rfl, by omega⟩, htoken⟩
      exact List.take_set_of_le (by omega)

/-- Line breaks are overwritten from the given place on. -/
theorem lidaBreakline_keeps {b b' : Block} {p : ℕ} (h : lidaBreakline b p = .ok b') :
    Keeps p b b' := by
  refine ⟨length_lidaBreakline h, ?_⟩
  rw [lidaBreakline] at h
  cases hd : b.drop p with
  | nil =>
    rw [hd] at h
    cases h
  | cons c cs =>
    have hp : p ≤ b.length := by
      have hlen := congrArg List.length hd
      rw [List.length_drop, List.length_cons] at hlen
      omega
    cases hl : breakline (b.drop p) with
    | error e =>
      rw [hl] at h
      cases h
    | ok l =>
      rw [hl] at h
      cases h
      exact List.take_left' (by rw [List.length_take, Nat.min_eq_left hp])

theorem headerRound_keeps {s s' : HeaderState} {i : ℕ} (hi : s.toklist = some i)
    (h : headerRound s = .ok s') :
    Keeps i s.text s'.text ∧ ∃ j, s'.toklist = some j ∧ i ≤ j := by
  obtain ⟨capture, hcapture, h⟩ := bind_eq_ok.mp h
  rw [hi] at hcapture
  obtain ⟨hkeeps, ⟨j, hj, hij⟩, -⟩ := strtokR_keeps hcapture
  obtain ⟨content, hcontent, h⟩ := bind_eq_ok.mp h
  rw [hj] at hcontent
  obtain ⟨hkeeps', ⟨k, hk, hjk⟩, htoken⟩ := strtokR_keeps hcontent
  obtain ⟨p, hp, h⟩ := bind_eq_ok.mp h
  obtain ⟨n, -, h⟩ := bind_eq_ok.mp h
  obtain ⟨text, htext, h⟩ := bind_eq_ok.mp h
  obtain ⟨key, -, h⟩ := bind_eq_ok.mp h
  obtain ⟨w, -, h⟩ := bind_eq_ok.mp h
  obtain ⟨t, -, h⟩ := bind_eq_ok.mp h
  cases h
  have hjp : j ≤ p := by
    cases htok : content.token with
    | none =>
      rw [htok] at hp
      cases hp
    | some q =>
      rw [htok] at hp
      cases hp
      exact htoken _ htok
  refine ⟨(hkeeps.trans hkeeps' hij).trans (lidaBreakline_keeps htext) (by omega), k, hk, by omega⟩

theorem headerLoop_keeps {fuel i : ℕ} {s : HeaderState} {e : HeaderExit} (hi : s.toklist = some i)
    (h : headerLoop fuel s = .ok e) : Keeps i s.text e.state.text := by
  induction fuel generalizing s i with
  | zero =>
    rcases headerLoop_eq_ok h with ⟨-, rfl⟩ | ⟨fuel', s', b, hfuel, -⟩
    · exact .refl _ _
    · cases hfuel
  | succ fuel ih =>
    rcases headerLoop_eq_ok h with ⟨-, rfl⟩ | ⟨fuel', s', b, hfuel, hround, -, hrest⟩
    · exact .refl _ _
    · cases hfuel
      obtain ⟨hkeeps, j, hj, hij⟩ := headerRound_keeps hi hround
      rcases hrest with ⟨-, rfl⟩ | hrest
      · exact hkeeps
      · exact hkeeps.trans (ih hj hrest) hij

/-- The headers leave the request line alone, and its tokens are those given. -/
theorem parseRest_keeps {fuel i : ℕ} {method url protocal : Option ℕ} {b : Block} {p : Parsed}
    (h : parseRest fuel method url protocal b (some i) = .ok p) :
    Keeps i b p.text ∧ ∀ t, p.request = some t →
      t.method = method ∧ t.url = url ∧ t.protocal = protocal := by
  obtain ⟨l, hl, h⟩ := bind_eq_ok.mp h
  have hkeeps := headerLoop_keeps rfl hl
  split_ifs at h
  · cases h
    exact ⟨hkeeps, fun t ht => by cases ht⟩
  · obtain ⟨body, -, h⟩ := bind_eq_ok.mp h
    obtain ⟨offset, -, h⟩ := bind_eq_ok.mp h
    cases h
    exact ⟨hkeeps, fun t ht => by cases ht; exact ⟨rfl, rfl, rfl⟩⟩

/-- The byte `'/'`. -/
abbrev slash : UInt8 := 47

/-- A protocol is `HTTP`, a slash and a version. -/
theorem protocal_slash : ∀ q ∈ protocalLst, q = ascii "HTTP" ++ slash :: q.drop 5 := by
  decide +kernel

theorem ascii_http_ok : (0 : UInt8) ∉ ascii "HTTP" ∧ (ascii "HTTP").length = 4 := by
  decide +kernel

/-- A request that was parsed has gone through the three stages to the header loop. -/
theorem exists_parseRest {b : Block} {p : Parsed} {t : HttpRequest} (h : httpParser b = .ok p)
    (ht : p.request = some t) :
    ∃ ds m ds₂ u ds₃ q c post pre save,
      b = ds ++ (m ++ sp :: (ds₂ ++ (u ++ sp :: (ds₃ ++ (q ++ c :: post))))) ∧
      TokenSplit [sp] ds m sp ∧ m ∈ methodLst ∧ TokenSplit [sp] ds₂ u sp ∧
      TokenSplit [cr, lf] ds₃ q c ∧ q ∈ protocalLst ∧
      pre = ds ++ (m ++ [0]) ++ (ds₂ ++ (u ++ [0])) ∧ pre.length ≤ save ∧
      parseRest b.length (some ds.length) (some ((ds ++ (m ++ [0])).length + ds₂.length))
          (some (pre.length + ds₃.length)) (pre ++ (ds₃ ++ (q ++ 0 :: post))) (some save) =
        .ok p := by
  obtain ⟨n, hn, -⟩ := bind_eq_ok.mp h
  have h0 : (0 : UInt8) ∈ b := by simpa using zero_mem_of_spanLen (fun _ => rfl) hn
  rcases exists_method h0 h with
    ⟨ds, m, c, post, -, -, -, -, hnone⟩ | ⟨ds, m, post, rfl, hsp, hm, h0, h⟩
  · rw [hnone] at ht
    cases ht
  obtain ⟨ds₂, u, post₂, rfl, hsp₂, h0₂, h⟩ := exists_url h0 h
  obtain ⟨ds₃, q, c, post₃, rfl, hsp₃, hend⟩ := exists_protocal h0₂ h
  rcases hend with ⟨-, -, hnone⟩ | ⟨hq, h⟩
  · rw [hnone] at ht
    cases ht
  exact ⟨ds, m, ds₂, u, ds₃, q, c, post₃, _, _, rfl, hsp, hm, hsp₂, hsp₃, hq, rfl, by omega, h⟩

/-- The method and the URL of a request that was parsed are strings in the text it left. -/
theorem exists_cstr_request {b : Block} {p : Parsed} {t : HttpRequest} (h : httpParser b = .ok p)
    (ht : p.request = some t) :
    ∃ i m pre u post, t.method = some i ∧ cstr p.text i = .ok m ∧ m ∈ methodLst ∧
      t.url = some pre.length ∧ p.text = pre ++ (u ++ 0 :: post) := by
  obtain ⟨ds, m, ds₂, u, ds₃, q, c, post, pre, save, -, hsp, hm, -, -, -, hpre, hle, hrest⟩ :=
    exists_parseRest h ht
  obtain ⟨hkeeps, hfields⟩ := parseRest_keeps hrest
  obtain ⟨hmethod, hurl, -⟩ := hfields t ht
  -- both are in front of the header loop
  obtain ⟨rest, htext⟩ : ∃ rest, p.text = pre ++ rest := ⟨_, hkeeps.eq_append hle⟩
  refine ⟨ds.length, m, ds ++ (m ++ [0]) ++ ds₂, u, rest, hmethod, ?_, hm, ?_, ?_⟩
  · have hassoc : p.text = ds ++ (m ++ 0 :: (ds₂ ++ (u ++ 0 :: rest))) := by simp [htext, hpre]
    rw [hassoc]
    exact cstr_append fun h0 => (hsp.token 0 h0).1 rfl
  · rw [hurl, ← List.length_append]
  · simp [htext, hpre]

/-- **What is left of a request.** -/
theorem exists_tokenized {b : Block} {p : Parsed} {t : HttpRequest} (h : httpParser b = .ok p)
    (ht : p.request = some t) :
    ∃ ds m rest rest' i, b = ds ++ (m ++ sp :: rest) ∧ p.text = ds ++ (m ++ 0 :: rest') ∧
      p.text.length = b.length ∧ TokenSplit [sp] ds m sp ∧ m ∈ methodLst ∧ t.protocal = some i ∧
      ∃ y z, b = y ++ slash :: z ∧ y.length = i + 4 ∧ (0 : UInt8) ∉ y := by
  obtain ⟨ds, m, ds₂, u, ds₃, q, c, post₃, pre, save, rfl, hsp, hm, hsp₂, hsp₃, hq, rfl, hle, h⟩ :=
    exists_parseRest h ht
  obtain ⟨hkeeps, hfields⟩ := parseRest_keeps h
  have hlength := hkeeps.length
  -- the method and the `'\0'` behind it are in front of the header loop
  have hassoc : ds ++ (m ++ [0]) ++ (ds₂ ++ (u ++ [0])) ++ (ds₃ ++ (q ++ 0 :: post₃)) =
      (ds ++ (m ++ [0])) ++ (ds₂ ++ (u ++ 0 :: (ds₃ ++ (q ++ 0 :: post₃)))) := by simp
  rw [hassoc] at hkeeps
  have htext := hkeeps.eq_append (by simp only [List.length_append] at hle ⊢; omega)
  rw [List.append_assoc, List.append_assoc, List.singleton_append] at htext
  refine ⟨ds, m, _, _, _, rfl, htext, ?_, hsp, hm, (hfields t ht).2.2, ?_⟩
  · rw [hlength]
    simp only [List.length_append, List.length_cons, List.length_nil]
    omega
  · obtain ⟨hhttp, hfour⟩ := ascii_http_ok
    obtain ⟨z, hz⟩ : ∃ z, q = ascii "HTTP" ++ slash :: z := ⟨_, protocal_slash q hq⟩
    have hds : ∀ {delim ds tok : List UInt8} {c : UInt8}, TokenSplit delim ds tok c →
        (0 : UInt8) ∉ ds ∧ (0 : UInt8) ∉ tok := fun htok =>
      ⟨fun h0 => (htok.skipped 0 h0).1 rfl, fun h0 => (htok.token 0 h0).1 rfl⟩
    refine ⟨ds ++ (m ++ sp :: (ds₂ ++ (u ++ sp :: (ds₃ ++ ascii "HTTP")))),
      z ++ c :: post₃, by simp [hz], ?_, ?_⟩
    · simp only [List.length_append, List.length_cons, List.length_nil, hfour]
      omega
    · simp only [List.mem_append, List.mem_cons, (hds hsp).1, (hds hsp).2, (hds hsp₂).1,
        (hds hsp₂).2, (hds hsp₃).1, hhttp, or_false, false_or]
      decide

end Lidas
