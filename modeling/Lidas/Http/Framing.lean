import Lidas.Http.RequestLine
import Lidas.Http.HeaderLoop

/-!
# Request framing

What `http_parser` makes of a well-formed request. A `RequestText` carries the conditions on
its parts, so `RequestText.text` is always a request line, one or more header lines, an empty
line and a body.

The token that ends the protocol ends at the carriage return, so the header loop starts at
the line feed: the first line it sees is the line feed and the first header line. `Line` is a
line as the loop meets it, with that line feed in its key, and `Entered.loop` is the
induction over the lines.
-/

namespace Lidas

open CString

/-- A header name has no space, colon or line break. -/
structure HeaderName (n : List UInt8) : Prop where
  ne_nil : n ≠ []
  ok : ∀ x ∈ n, x ≠ 0 ∧ x ≠ sp ∧ x ≠ colon ∧ x ≠ cr ∧ x ≠ lf

theorem HeaderName.lf_notMem {n : List UInt8} (h : HeaderName n) : lf ∉ n :=
  fun hx => (h.ok lf hx).2.2.2.2 rfl

/-- A header: a name and a value without line break. -/
structure Header where
  name : List UInt8
  value : List UInt8
  name_ok : HeaderName name
  value_ok : ∀ x ∈ value, x ≠ 0 ∧ x ≠ cr ∧ x ≠ lf

/-- The header as a line of the request. -/
def Header.line (h : Header) : List UInt8 := h.name ++ colon :: (h.value ++ [cr, lf])

/-- The value without its leading spaces. -/
def Header.stripped (h : Header) : List UInt8 := h.value.dropWhile (· == sp)

/-- The parts of a well-formed request. -/
structure RequestText where
  method : List UInt8
  url : List UInt8
  protocal : List UInt8
  first : Header
  others : List Header
  body : List UInt8
  method_mem : method ∈ methodLst
  url_ne : url ≠ []
  url_ok : ∀ x ∈ url, x ≠ 0 ∧ x ≠ sp ∧ x ≠ cr ∧ x ≠ lf
  protocal_mem : protocal ∈ protocalLst
  body_ok : (0 : UInt8) ∉ body

/-- The headers; there is at least one. -/
def RequestText.headers (r : RequestText) : List Header := r.first :: r.others

/-- The text of a request, without its terminator. -/
def RequestText.text (r : RequestText) : List UInt8 :=
  r.method ++ sp :: (r.url ++ sp :: (r.protocal ++ cr :: lf ::
    (r.headers.flatMap Header.line ++ cr :: lf :: r.body)))

/-! ### Lines as the header loop meets them -/

/-- A line the loop can take apart: no line feed but possibly as the first byte of its key. -/
structure Line where
  key : List UInt8
  value : List UInt8
  key_ne : key ≠ []
  key_ok : ∀ x ∈ key, x ≠ 0 ∧ x ≠ colon ∧ x ≠ sp
  key_tail : lf ∉ key.tail
  value_ok : ∀ x ∈ value, x ≠ 0 ∧ x ≠ cr ∧ x ≠ lf

namespace Line

variable (l : Line)

def text : List UInt8 := l.key ++ colon :: (l.value ++ [cr, lf])

/-- What the loop enters for a line. -/
def entry : Entry := { key := l.key, content := l.value.dropWhile (· == sp) }

theorem keySplit : TokenSplit [colon, sp] [] l.key colon where
  skipped := by simp
  nonempty := l.key_ne
  token := fun x hx => by simpa using l.key_ok x hx
  stop := by simp

theorem valueSplit : TokenSplit [lf] [] (l.value ++ [cr]) lf where
  skipped := by simp
  nonempty := by simp
  token := fun x hx => by
    rcases List.mem_append.mp hx with hx | hx
    · simpa using ⟨(l.value_ok x hx).1, (l.value_ok x hx).2.2⟩
    · rw [List.mem_singleton.mp hx]
      decide
  stop := by simp

/-- The carriage return of the line is not part of the content. -/
theorem lineContent_value : lineContent (l.value ++ [cr]) = l.value.dropWhile (· == sp) := by
  have hcr : cr ∉ l.value.dropWhile (· == sp) := fun h =>
    (l.value_ok cr ((List.dropWhile_sublist _).subset h)).2.1 rfl
  have hdrop : (l.value ++ [cr]).dropWhile (· == sp) = l.value.dropWhile (· == sp) ++ [cr] := by
    rw [List.dropWhile_append]
    split_ifs with hempty
    · rw [List.isEmpty_iff.mp hempty]
      rfl
    · rfl
  rw [lineContent, hdrop, List.takeWhile_append_of_pos fun x hx => ?_]
  · simp
  · simpa using fun h : x = cr => hcr (h ▸ hx)

/-- The second byte of a line is neither a line feed nor the terminator. -/
theorem exists_text_eq : ∃ a b r, l.text = a :: b :: r ∧ b ≠ 0 ∧ b ≠ lf := by
  obtain ⟨a, key, hkey⟩ := List.exists_cons_of_ne_nil l.key_ne
  cases key with
  | nil =>
    exact ⟨a, colon, l.value ++ [cr, lf], by simp [text, hkey], by decide, by decide⟩
  | cons b key =>
    refine ⟨a, b, key ++ colon :: (l.value ++ [cr, lf]), by simp [text, hkey], ?_, ?_⟩
    · exact (l.key_ok b (by simp [hkey])).1
    · exact fun h => l.key_tail (by simp [hkey, h])

end Line

/-! ### The loop over the lines -/

section Loop

variable {entries : List Entry} {done post : List UInt8} {s : HeaderState}

/-- One round enters one line. -/
theorem Entered.round_line (l : Line) (h : Entered entries done (l.text ++ post) s) :
    ∃ more s', headerRound s = .ok s' ∧ Entered (entries ++ [l.entry]) (done ++ more) post s' := by
  have h' : Entered entries done
      ([] ++ (l.key ++ colon :: ([] ++ ((l.value ++ [cr]) ++ lf :: post)))) s := by
    simpa [Line.text] using h
  have hround := h'.round l.keySplit (by decide) l.valueSplit
  rwa [l.lineContent_value] at hround

/-- What is behind a line does not end the loop early. -/
theorem exists_rest_eq (lines : List Line) (r : List UInt8) :
    ∃ a b r', lines.flatMap Line.text ++ cr :: lf :: r = a :: b :: r' ∧ b ≠ 0 := by
  cases lines with
  | nil => exact ⟨cr, lf, r, rfl, by decide⟩
  | cons l lines =>
    obtain ⟨a, b, r', htext, hb, -⟩ := l.exists_text_eq
    exact ⟨a, b, r' ++ (lines.flatMap Line.text ++ cr :: lf :: r), by simp [htext], hb⟩

/-- **The loop over the lines.** It enters every line, in order, and stops in front of the
empty line. -/
theorem Entered.loop (lines : List Line) {r : List UInt8} {fuel : ℕ}
    (h : Entered entries done (lines.flatMap Line.text ++ cr :: lf :: r) s)
    (hfuel : lines.length ≤ fuel) :
    ∃ more s', headerLoop fuel s = .ok { found := true, state := s' } ∧
      Entered (entries ++ lines.map Line.entry) (done ++ more) (cr :: lf :: r) s' := by
  induction lines generalizing entries done s fuel with
  | nil => exact ⟨[], s, headerLoop_blank h.peek_eq, by simpa using h⟩
  | cons l lines ih =>
    obtain ⟨fuel, rfl⟩ : ∃ n, fuel = n + 1 := ⟨fuel - 1, by simp at hfuel; omega⟩
    have hcons : (l :: lines).flatMap Line.text ++ cr :: lf :: r =
        l.text ++ (lines.flatMap Line.text ++ cr :: lf :: r) := by simp
    rw [hcons] at h
    obtain ⟨a, b, t, htext, -, hb⟩ := l.exists_text_eq
    have hpeek : peek s.text s.toklist = .ok b := by
      rw [htext] at h
      exact h.peek_eq
    obtain ⟨more, s', hround, hentered⟩ := h.round_line l
    obtain ⟨a', b', t', hrest, hb'⟩ := exists_rest_eq lines r
    have hpeek' : peek s'.text s'.toklist = .ok b' := (hrest ▸ hentered).peek_eq
    obtain ⟨more', s'', hloop, hentered'⟩ := ih hentered (by simpa using hfuel)
    refine ⟨more ++ more', s'', ?_, by simpa using hentered'⟩
    rw [headerLoop_round fuel hpeek hb hround hpeek', if_neg hb', hloop]

end Loop

/-! ### Well-formed requests -/

/-- A header as a line. -/
def Header.toLine (h : Header) : Line where
  key := h.name
  value := h.value
  key_ne := h.name_ok.ne_nil
  key_ok := fun x hx =>
    ⟨(h.name_ok.ok x hx).1, (h.name_ok.ok x hx).2.2.1, (h.name_ok.ok x hx).2.1⟩
  key_tail := fun hx => h.name_ok.lf_notMem (List.mem_of_mem_tail hx)
  value_ok := h.value_ok

/-- The first header as the loop meets it, behind the line feed of the request line. -/
def Header.toFirstLine (h : Header) : Line where
  key := lf :: h.name
  value := h.value
  key_ne := by simp
  key_ok := fun x hx => by
    rcases List.mem_cons.mp hx with rfl | hx
    · decide
    · exact h.toLine.key_ok x hx
  key_tail := h.name_ok.lf_notMem
  value_ok := h.value_ok

namespace RequestText

variable (r : RequestText)

/-- A header line is a string. -/
theorem nul_notMem_line (h : Header) : (0 : UInt8) ∉ h.line := by
  have hname : (0 : UInt8) ∉ h.name := fun hx => (h.name_ok.ok 0 hx).1 rfl
  have hvalue : (0 : UInt8) ∉ h.value := fun hx => (h.value_ok 0 hx).1 rfl
  simp [Header.line, hname, hvalue, colon, cr, lf]

/-- A well-formed request is a string. -/
theorem nul_free : (0 : UInt8) ∉ r.text := by
  have hmethods : ∀ m ∈ methodLst, (0 : UInt8) ∉ m := by decide +kernel
  have hprotocals : ∀ p ∈ protocalLst, (0 : UInt8) ∉ p := by decide +kernel
  have hurl : (0 : UInt8) ∉ r.url := fun hx => (r.url_ok 0 hx).1 rfl
  have hlines : (0 : UInt8) ∉ r.headers.flatMap Header.line := fun hx => by
    obtain ⟨h, -, hx⟩ := List.mem_flatMap.mp hx
    exact nul_notMem_line h hx
  simp [text, hmethods _ r.method_mem, hprotocals _ r.protocal_mem, hurl, hlines, r.body_ok, sp,
    cr, lf]

/-- The lines the loop meets. -/
def lines : List Line := r.first.toFirstLine :: r.others.map Header.toLine

theorem method_ok : ∀ m ∈ methodLst, m ≠ [] ∧ ∀ x ∈ m, x ≠ 0 ∧ x ∉ [sp] := by
  decide +kernel

theorem protocal_ok : ∀ p ∈ protocalLst, p ≠ [] ∧ ∀ x ∈ p, x ≠ 0 ∧ x ∉ [cr, lf] := by
  decide +kernel

/-- The request line, up to the carriage return. -/
def requestLine : RequestLine where
  skip₁ := []
  method := r.method
  skip₂ := []
  url := r.url
  skip₃ := []
  protocal := r.protocal
  stop := cr
  methodSplit := ⟨by simp, (method_ok _ r.method_mem).1, (method_ok _ r.method_mem).2, by simp⟩
  urlSplit := ⟨by simp, r.url_ne, fun x hx => by
    simpa using ⟨(r.url_ok x hx).1, (r.url_ok x hx).2.1⟩, by simp⟩
  protocalSplit :=
    ⟨by simp, (protocal_ok _ r.protocal_mem).1, (protocal_ok _ r.protocal_mem).2, by simp⟩
  stop_ne := by decide

theorem text_eq (post : List UInt8) : r.text ++ 0 :: post =
    r.requestLine.text ++ (r.lines.flatMap Line.text ++ cr :: lf :: (r.body ++ 0 :: post)) := by
  have hothers : (r.others.map Header.toLine).flatMap Line.text = r.others.flatMap Header.line := by
    rw [List.flatMap_map]
    rfl
  simp only [text, headers, List.flatMap_cons, lines, hothers]
  simp [requestLine, RequestLine.text, Header.line, Line.text, Header.toFirstLine]

/-- What the loop enters. -/
def entries : List Entry := r.lines.map Line.entry

/-- The contents entered are the stripped values, in order. -/
theorem map_content_entries : r.entries.map Entry.content = r.headers.map Header.stripped := by
  simp only [entries, lines, headers, List.map_cons, List.map_map]
  rfl

/-- The run of `http_parser` on a well-formed request, with any bytes behind its terminator. -/
theorem exists_httpParser_eq (post : List UInt8) : ∃ done s,
      Entered r.entries (r.requestLine.scanned ++ done) (cr :: lf :: (r.body ++ 0 :: post)) s ∧
      httpParser (r.text ++ 0 :: post) = .ok
        { request := some
            { method := some r.requestLine.methodAt, url := some r.requestLine.urlAt
              protocal := some r.requestLine.protocalAt, list := s.list, offset := r.body.length
              requestBody := (r.requestLine.scanned ++ done).length + 2 }
          text := s.text
          calls := s.calls } := by
  obtain ⟨rest, hrest⟩ : ∃ rest,
      rest = r.lines.flatMap Line.text ++ cr :: lf :: (r.body ++ 0 :: post) :=
    ⟨_, rfl⟩
  have h0 : (0 : UInt8) ∈ rest := by simp [hrest]
  -- a round takes at least one byte, so the text bounds the rounds
  have hfuel : r.lines.length ≤ (r.requestLine.text ++ rest).length := by
    have hlines : ∀ ls : List Line, ls.length ≤ (ls.flatMap Line.text).length := fun ls => by
      induction ls with
      | nil => simp
      | cons l ls ih =>
        simp only [List.flatMap_cons, List.length_cons, List.length_append, Line.text]
        omega
    have := hlines r.lines
    simp only [hrest, List.length_append]
    omega
  have hstart : Entered [] r.requestLine.scanned
      (r.lines.flatMap Line.text ++ cr :: lf :: (r.body ++ 0 :: post))
      { text := r.requestLine.scanned ++ rest, toklist := some r.requestLine.scanned.length
        list := AttriTable.empty listSiz, calls := [] } := by
    rw [← hrest]
    exact entered_nil
  obtain ⟨done, s, hloop, hentered⟩ := hstart.loop r.lines hfuel
  rw [List.nil_append] at hentered
  refine ⟨done, s, hentered, ?_⟩
  obtain ⟨pre, hpre⟩ : ∃ pre, pre = r.requestLine.scanned ++ done := ⟨_, rfl⟩
  -- the body starts behind the empty line and ends at the terminator
  have hbody : strlen s.text (pre.length + 2) = .ok r.body.length := by
    have htext : s.text = (pre ++ [cr, lf]) ++ (r.body ++ 0 :: post) := by
      simp [hentered.text, hpre]
    have hlen : pre.length + 2 = (pre ++ [cr, lf]).length := by simp
    rw [htext, hlen]
    exact strlen_append r.body_ok
  rw [r.text_eq post, ← hrest, r.requestLine.httpParser_eq r.method_mem r.protocal_mem h0,
    parseRest, hloop]
  simp only [ok_bind, Bool.not_true, Bool.false_eq_true, if_false, hentered.toklist, ← hpre, deref,
    hbody, pure_eq_ok]

/-- **Framing.** `http_parser` splits a well-formed request into its method, URL, protocol and
body, and calls `hash_set` once for each header line, with the line's value stripped of its
leading spaces; what it hands over stays intact until it returns. -/
theorem httpParser_framing :
    ∃ t b calls, httpParser (r.text ++ [0]) =
        .ok { request := some t, text := b, calls := calls } ∧
      (deref t.method >>= cstr b) = .ok r.method ∧
      (deref t.url >>= cstr b) = .ok r.url ∧
      (deref t.protocal >>= cstr b) = .ok r.protocal ∧
      cstr b t.requestBody = .ok r.body ∧ t.offset = r.body.length ∧
      List.Forall₂ (fun c h => cstr c.text c.content = .ok h.stripped ∧
        cstr b c.content = .ok h.stripped) calls r.headers := by
  obtain ⟨done, s, hentered, hparse⟩ := r.exists_httpParser_eq []
  have hkeep : ∀ {i w}, cstr r.requestLine.scanned i = .ok w → cstr s.text i = .ok w := fun h => by
    rw [hentered.text]
    exact cstr_mono (cstr_mono h done) _
  refine ⟨_, _, _, hparse, hkeep r.requestLine.cstr_method,
    hkeep r.requestLine.cstr_url, hkeep r.requestLine.cstr_protocal,
    ?_, rfl, ?_⟩
  · have htext : s.text = (r.requestLine.scanned ++ done ++ [cr, lf]) ++ (r.body ++ 0 :: []) := by
      simp [hentered.text]
    have hlen : (r.requestLine.scanned ++ done).length + 2 =
        (r.requestLine.scanned ++ done ++ [cr, lf]).length := by
      simp [Nat.add_assoc]
    rw [htext, hlen]
    exact cstr_append r.body_ok
  · have hcalls : List.Forall₂ (fun c v => cstr c.text c.content = .ok v ∧
        cstr s.text c.content = .ok v) s.calls (r.entries.map Entry.content) := by
      refine List.forall₂_map_right_iff.mpr (hentered.calls.imp fun c e hc => ⟨hc.passed, ?_⟩)
      rw [hentered.text]
      exact cstr_mono hc.content _
    rw [map_content_entries] at hcalls
    exact List.forall₂_map_right_iff.mp hcalls

end RequestText

end Lidas
