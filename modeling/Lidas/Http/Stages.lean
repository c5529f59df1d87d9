import Lidas.Http.RequestLine

/-!
# Runs over the request line

What a run of `http_parser` that gets past a token says about the text. Where `strtok_r`
finds no token the run faults at the next use of it, so a run that returns has found the
method, the URL and the protocol, each where the one before ended. Nothing is assumed of the
text but that a terminator is somewhere in it.
-/

namespace Lidas

open CString

/-! ### Runs that fault -/

section Faults

variable {ds tok : List UInt8} (pre post : List UInt8) {fuel : ℕ} {method url : Option ℕ}

/-- Nothing is skipped in front of an immediate terminator. -/
theorem noSkip {delim : List UInt8} : ∀ x ∈ ([] : List UInt8), x ≠ 0 ∧ x ∈ delim := by simp

/-- Without a token there is no protocol to compare. -/
theorem parseProtocal_none (hds : ∀ x ∈ ds, x ≠ 0 ∧ x ∈ [cr, lf]) :
    parseProtocal fuel method url (pre ++ (ds ++ 0 :: post)) (some pre.length) =
      .error .nullDeref := by
  simp only [parseProtocal, strtokR_null pre post hds, ok_bind]
  rfl

/-- Without a URL there is no protocol either. -/
theorem parseUrl_none (hds : ∀ x ∈ ds, x ≠ 0 ∧ x ∈ [sp]) :
    parseUrl fuel method (pre ++ (ds ++ 0 :: post)) (some pre.length) = .error .nullDeref := by
  have hnone : parseProtocal fuel method none (pre ++ (ds ++ 0 :: post))
      (some (pre.length + ds.length)) = .error .nullDeref := by
    rw [← List.append_assoc, ← List.length_append]
    exact parseProtocal_none (pre ++ ds) post noSkip
  simp only [parseUrl, strtokR_null pre post hds, ok_bind, reduceCtorEq, if_false, hnone]

/-- Behind a URL at the end of the text there is no protocol. -/
theorem parseUrl_end (h : TokenSplit [sp] ds tok 0) :
    parseUrl fuel method (pre ++ (ds ++ (tok ++ 0 :: post))) (some pre.length) =
      .error .nullDeref := by
  have hnone : parseProtocal fuel method (some (pre.length + ds.length))
      (pre ++ (ds ++ tok) ++ 0 :: post) (some (pre ++ (ds ++ tok)).length) = .error .nullDeref :=
    parseProtocal_none _ post noSkip
  simp only [parseUrl, strtokR_end pre post h, ok_bind, reduceCtorEq, if_false, hnone]

/-- Without a token there is no method to compare. -/
theorem httpParser_none (hds : ∀ x ∈ ds, x ≠ 0 ∧ x ∈ [sp]) :
    httpParser (ds ++ 0 :: post) = .error .nullDeref := by
  obtain ⟨n, hn⟩ : ∃ n, strlen (ds ++ 0 :: post) 0 = .ok n := @exists_strlen [] _ (by simp)
  have hnull := strtokR_null [] post hds
  simp only [List.nil_append, List.length_nil] at hnull
  simp only [httpParser, hn, hnull, ok_bind]
  rfl

/-- Behind a method at the end of the text there is nothing. -/
theorem httpParser_end (h : TokenSplit [sp] ds tok 0) (hm : tok ∈ methodLst) :
    httpParser (ds ++ (tok ++ 0 :: post)) = .error .nullDeref := by
  obtain ⟨n, hn⟩ : ∃ n, strlen (ds ++ (tok ++ 0 :: post)) 0 = .ok n :=
    @exists_strlen [] _ (by simp)
  have htok := strtokR_end [] post h
  have hcstr := cstr_token [] h post
  simp only [List.nil_append, List.length_nil, Nat.zero_add] at htok hcstr
  rw [← List.append_assoc ds] at hcstr
  have hnone : parseUrl (ds ++ (tok ++ 0 :: post)).length (some ds.length)
      (ds ++ tok ++ 0 :: post) (some (ds ++ tok).length) = .error .nullDeref :=
    parseUrl_none _ post noSkip
  simp only [httpParser, hn, htok, ok_bind, methodTest, strcmpAny_eq hcstr, List.contains_eq_mem,
    hm, decide_true, Bool.not_true, Bool.false_eq_true, if_false, hnone]

end Faults

/-! ### Runs that return -/

section Returns

variable {l pre : List UInt8} {fuel : ℕ} {method url : Option ℕ} {p : Parsed}

/-- The first word is there, and it is no method or behind it the URL is read. -/
theorem exists_method (h0 : (0 : UInt8) ∈ l) (h : httpParser l = .ok p) :
    (∃ ds tok c post, l = ds ++ (tok ++ c :: post) ∧ TokenSplit [sp] ds tok c ∧
      tok ∉ methodLst ∧ p.calls = [] ∧ p.request = none) ∨
    ∃ ds tok post, l = ds ++ (tok ++ sp :: post) ∧ TokenSplit [sp] ds tok sp ∧ tok ∈ methodLst ∧
      (0 : UInt8) ∈ post ∧ parseUrl l.length (some ds.length) (ds ++ (tok ++ [0]) ++ post)
        (some (ds ++ (tok ++ [0])).length) = .ok p := by
  rcases exists_tokenSplit [sp] h0 with ⟨ds, tok, c, post, rfl, htok⟩ | ⟨ds, post, rfl, hds⟩
  · by_cases hm : tok ∈ methodLst
    · by_cases hc : c = 0
      · subst hc
        rw [httpParser_end post htok hm] at h
        simp at h
      · obtain rfl : c = sp := by simpa [hc] using htok.stop
        have hpost := htok.zero_mem hc h0
        rw [httpParser_goodMethod _ htok hm hpost] at h
        exact Or.inr ⟨ds, tok, post, rfl, htok, hm, hpost, h⟩
    · have hrest : (0 : UInt8) ∈ c :: post := by
        by_cases hc : c = 0
        · simp [hc]
        · exact List.mem_cons_of_mem _ (htok.zero_mem hc h0)
      rw [httpParser_badMethod _ htok hm hrest, Except.ok.injEq] at h
      exact Or.inl ⟨ds, tok, c, post, rfl, htok, hm, by rw [← h]; rfl, by rw [← h]; rfl⟩
  · rw [httpParser_none post hds] at h
    simp at h

/-- The URL is there, and behind it the protocol is read. -/
theorem exists_url (h0 : (0 : UInt8) ∈ l)
    (h : parseUrl fuel method (pre ++ l) (some pre.length) = .ok p) :
    ∃ ds tok post, l = ds ++ (tok ++ sp :: post) ∧ TokenSplit [sp] ds tok sp ∧
      (0 : UInt8) ∈ post ∧ parseProtocal fuel method (some (pre.length + ds.length))
        (pre ++ (ds ++ (tok ++ [0])) ++ post) (some (pre ++ (ds ++ (tok ++ [0]))).length) =
          .ok p := by
  rcases exists_tokenSplit [sp] h0 with ⟨ds, tok, c, post, rfl, htok⟩ | ⟨ds, post, rfl, hds⟩
  · by_cases hc : c = 0
    · subst hc
      rw [parseUrl_end pre post htok] at h
      simp at h
    · obtain rfl : c = sp := by simpa [hc] using htok.stop
      rw [parseUrl_good pre _ htok] at h
      exact ⟨ds, tok, post, rfl, htok, htok.zero_mem hc h0, h⟩
  · rw [parseUrl_none pre post hds] at h
    simp at h

/-- The protocol is there, and it is bad or the header loop starts behind it. -/
theorem exists_protocal (h0 : (0 : UInt8) ∈ l)
    (h : parseProtocal fuel method url (pre ++ l) (some pre.length) = .ok p) :
    ∃ ds tok c post, l = ds ++ (tok ++ c :: post) ∧ TokenSplit [cr, lf] ds tok c ∧
      (tok ∉ protocalLst ∧ p.calls = [] ∧ p.request = none ∨ tok ∈ protocalLst ∧
        parseRest fuel method url (some (pre.length + ds.length))
          (pre ++ (ds ++ (tok ++ 0 :: post)))
          (some (pre.length + ds.length + tok.length + if c = 0 then 0 else 1)) = .ok p) := by
  rcases exists_tokenSplit [cr, lf] h0 with ⟨ds, tok, c, post, rfl, htok⟩ | ⟨ds, post, rfl, hds⟩
  · refine ⟨ds, tok, c, post, rfl, htok, ?_⟩
    by_cases hp : tok ∈ protocalLst
    · rw [parseProtocal_token pre post htok hp] at h
      exact Or.inr ⟨hp, h⟩
    · rw [parseProtocal_bad pre post htok hp, Except.ok.injEq] at h
      exact Or.inl ⟨hp, by rw [← h]; rfl, by rw [← h]; rfl⟩
  · rw [parseProtocal_none pre post hds] at h
    simp at h

end Returns

end Lidas
