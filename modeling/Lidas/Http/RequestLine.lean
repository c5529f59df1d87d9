import Lidas.Http.Parser

/-!
# The request line of `http_parser`

The three calls of `strtok_r` in front of the header loop. A `RequestLine` is a text on which
all three find a token that a delimiter ends; the loop then starts behind it.
-/

namespace Lidas

open CString

theorem strcmpAny_eq {b w : List UInt8} {i : ℕ} (h : cstr b i = .ok w) (strs : List (List UInt8)) :
    strcmpAny b (some i) strs = .ok (strs.contains w) := by
  rw [strcmpAny, deref, ok_bind, h, ok_bind, pure_eq_ok]

section Stages

variable {ds tok : List UInt8} {c : UInt8} (pre post : List UInt8) {fuel : ℕ}
  {method url : Option ℕ}

/-- The text in front of a token, and the token. -/
theorem cstr_token {delim : List UInt8} (h : TokenSplit delim ds tok c) (r : List UInt8) :
    cstr (pre ++ (ds ++ (tok ++ 0 :: r))) (pre.length + ds.length) = .ok tok := by
  rw [← List.append_assoc pre, ← List.length_append]
  exact cstr_append fun h0 => (h.token 0 h0).1 rfl

/-- A first token that is no method ends the parsing. -/
theorem httpParser_badMethod (h : TokenSplit [sp] ds tok c) (hm : tok ∉ methodLst)
    (h0 : (0 : UInt8) ∈ c :: post) :
    httpParser (ds ++ (tok ++ c :: post)) = .ok (Parsed.null (ds ++ (tok ++ 0 :: post))) := by
  obtain ⟨n, hn⟩ : ∃ n, strlen (ds ++ (tok ++ c :: post)) 0 = .ok n :=
    @exists_strlen [] _ (List.mem_append_right _ (List.mem_append_right _ h0))
  have htok := strtokR_token [] post h
  have hcstr := cstr_token [] h post
  simp only [List.nil_append, List.length_nil] at htok hcstr
  simp only [httpParser, hn, htok, ok_bind, methodTest, strcmpAny_eq hcstr, List.contains_eq_mem,
    hm, decide_false, Bool.not_false, if_true, pure_eq_ok]

/-- Behind a known method the URL is read. -/
theorem httpParser_goodMethod (h : TokenSplit [sp] ds tok sp) (hm : tok ∈ methodLst)
    (h0 : (0 : UInt8) ∈ post) :
    httpParser (ds ++ (tok ++ sp :: post)) =
      parseUrl (ds ++ (tok ++ sp :: post)).length (some ds.length)
        (ds ++ (tok ++ [0]) ++ post) (some (ds ++ (tok ++ [0])).length) := by
  obtain ⟨n, hn⟩ : ∃ n, strlen (ds ++ (tok ++ sp :: post)) 0 = .ok n :=
    @exists_strlen [] _ (by simp [h0])
  have htok := strtokR_delim [] post h (by decide)
  have hcstr := cstr_mono (cstr_token [] h []) post
  simp only [List.nil_append, List.length_nil, Nat.zero_add] at htok hcstr
  simp only [httpParser, hn, htok, ok_bind, methodTest, strcmpAny_eq hcstr, List.contains_eq_mem,
    hm, decide_true, Bool.not_true, Bool.false_eq_true, if_false]

/-- Behind the URL the protocol is read. -/
theorem parseUrl_good (h : TokenSplit [sp] ds tok sp) :
    parseUrl fuel method (pre ++ (ds ++ (tok ++ sp :: post))) (some pre.length) =
      parseProtocal fuel method (some (pre.length + ds.length))
        (pre ++ (ds ++ (tok ++ [0])) ++ post) (some (pre ++ (ds ++ (tok ++ [0]))).length) := by
  simp only [parseUrl, strtokR_delim pre post h (show sp ≠ 0 by decide), ok_bind, reduceCtorEq,
    if_false]

/-- A protocol that is none of the two ends the parsing. -/
theorem parseProtocal_bad (h : TokenSplit [cr, lf] ds tok c) (hp : tok ∉ protocalLst) :
    parseProtocal fuel method url (pre ++ (ds ++ (tok ++ c :: post))) (some pre.length) =
      .ok (Parsed.null (pre ++ (ds ++ (tok ++ 0 :: post)))) := by
  simp only [parseProtocal, strtokR_token pre post h, ok_bind, protocalTest,
    strcmpAny_eq (cstr_token pre h post), List.contains_eq_mem, hp, decide_false, Bool.not_false,
    if_true, pure_eq_ok]

/-- Behind a good protocol the header loop starts. -/
theorem parseProtocal_token (h : TokenSplit [cr, lf] ds tok c) (hp : tok ∈ protocalLst) :
    parseProtocal fuel method url (pre ++ (ds ++ (tok ++ c :: post))) (some pre.length) =
      parseRest fuel method url (some (pre.length + ds.length)) (pre ++ (ds ++ (tok ++ 0 :: post)))
        (some (pre.length + ds.length + tok.length + if c = 0 then 0 else 1)) := by
  simp only [parseProtocal, strtokR_token pre post h, ok_bind, protocalTest,
    strcmpAny_eq (cstr_token pre h post), List.contains_eq_mem, hp, decide_true, Bool.not_true,
    Bool.false_eq_true, if_false]

theorem parseProtocal_good (h : TokenSplit [cr, lf] ds tok c) (hc : c ≠ 0)
    (hp : tok ∈ protocalLst) :
    parseProtocal fuel method url (pre ++ (ds ++ (tok ++ c :: post))) (some pre.length) =
      parseRest fuel method url (some (pre.length + ds.length))
        (pre ++ (ds ++ (tok ++ [0])) ++ post) (some (pre ++ (ds ++ (tok ++ [0]))).length) := by
  rw [parseProtocal_token pre post h hp, if_neg hc]
  simp [Nat.add_assoc]

end Stages

/-- Three tokens that `http_parser` reads before the header loop: `method` and `url`, ended by
a space, and `protocal`, ended by a byte `stop` of the line's end. -/
structure RequestLine where
  skip₁ : List UInt8
  method : List UInt8
  skip₂ : List UInt8
  url : List UInt8
  skip₃ : List UInt8
  protocal : List UInt8
  stop : UInt8
  methodSplit : TokenSplit [sp] skip₁ method sp
  urlSplit : TokenSplit [sp] skip₂ url sp
  protocalSplit : TokenSplit [cr, lf] skip₃ protocal stop
  stop_ne : stop ≠ 0

namespace RequestLine

/-- The bytes of the request line, up to the byte that ends the protocol. -/
def text (l : RequestLine) : List UInt8 :=
  l.skip₁ ++ (l.method ++ sp :: (l.skip₂ ++ (l.url ++ sp ::
    (l.skip₃ ++ (l.protocal ++ [l.stop])))))

/-- The same bytes after the three calls of `strtok_r`. -/
def scanned (l : RequestLine) : List UInt8 :=
  l.skip₁ ++ (l.method ++ 0 :: (l.skip₂ ++ (l.url ++ 0 :: (l.skip₃ ++ (l.protocal ++ [0])))))

/-- The offset of the method. -/
def methodAt (l : RequestLine) : ℕ := l.skip₁.length

/-- The offset of the URL. -/
def urlAt (l : RequestLine) : ℕ := (l.skip₁ ++ (l.method ++ 0 :: l.skip₂)).length

/-- The offset of the protocol. -/
def protocalAt (l : RequestLine) : ℕ :=
  (l.skip₁ ++ (l.method ++ 0 :: (l.skip₂ ++ (l.url ++ 0 :: l.skip₃)))).length

variable (l : RequestLine)

theorem cstr_method : cstr l.scanned l.methodAt = .ok l.method :=
  cstr_append fun h0 => (l.methodSplit.token 0 h0).1 rfl

theorem cstr_url : cstr l.scanned l.urlAt = .ok l.url := by
  have htext : l.scanned = (l.skip₁ ++ (l.method ++ 0 :: l.skip₂)) ++
      (l.url ++ 0 :: (l.skip₃ ++ (l.protocal ++ [0]))) := by simp [scanned]
  rw [htext]
  exact cstr_append fun h0 => (l.urlSplit.token 0 h0).1 rfl

theorem cstr_protocal : cstr l.scanned l.protocalAt = .ok l.protocal := by
  have htext : l.scanned = (l.skip₁ ++ (l.method ++ 0 :: (l.skip₂ ++ (l.url ++ 0 :: l.skip₃)))) ++
      (l.protocal ++ 0 :: []) := by simp [scanned]
  rw [htext]
  exact cstr_append fun h0 => (l.protocalSplit.token 0 h0).1 rfl

/-- **Behind the request line.** With a known method and a known protocol the header loop
starts right behind the line, which it finds with its delimiters overwritten. -/
theorem httpParser_eq {post : List UInt8} (hm : l.method ∈ methodLst)
    (hp : l.protocal ∈ protocalLst) (h0 : (0 : UInt8) ∈ post) :
    httpParser (l.text ++ post) =
      parseRest (l.text ++ post).length (some l.methodAt) (some l.urlAt) (some l.protocalAt)
        (l.scanned ++ post) (some l.scanned.length) := by
  have htext : l.text ++ post = l.skip₁ ++ (l.method ++ sp :: (l.skip₂ ++ (l.url ++ sp ::
      (l.skip₃ ++ (l.protocal ++ l.stop :: post))))) := by simp [text]
  have hpost : (0 : UInt8) ∈ l.skip₂ ++ (l.url ++ sp ::
      (l.skip₃ ++ (l.protocal ++ l.stop :: post))) := by simp [h0]
  have hurl : (l.skip₁ ++ (l.method ++ [0])).length + l.skip₂.length = l.urlAt := by
    simp only [urlAt, List.length_append, List.length_cons, List.length_nil]
    omega
  have hprotocal : (l.skip₁ ++ (l.method ++ [0]) ++ (l.skip₂ ++ (l.url ++ [0]))).length +
      l.skip₃.length = l.protocalAt := by
    simp only [protocalAt, List.length_append, List.length_cons, List.length_nil]
    omega
  have hscanned : l.skip₁ ++ (l.method ++ [0]) ++ (l.skip₂ ++ (l.url ++ [0])) ++
      (l.skip₃ ++ (l.protocal ++ [0])) = l.scanned := by simp [scanned]
  rw [htext, httpParser_goodMethod _ l.methodSplit hm hpost, parseUrl_good _ _ l.urlSplit,
    parseProtocal_good _ _ l.protocalSplit l.stop_ne hp, hurl, hprotocal, hscanned]
  rfl

end RequestLine

end Lidas
