import Lidas.Lib.CString
import Lidas.Lib.Fields

/-!
# The header of a response

`post_header` formats the header into a local buffer and gives the size of the buffer to `write`.
The size is the length of the strings and 100, but the rest of the text has 110 bytes, so that the
text and its terminator do not fit, and the last bytes of the text are not sent (`passed_eq`). The
lines behind `Content-Type` begin with the white space that the source has behind the line breaks of
the literal, also the last one, which should be empty.

`wanted` is the header as it should be. It can be read back (`decode_wanted`), what is sent cannot
(`decode_passed`), and it is never the header (`not_encodesRight`).
-/

namespace Lidas

/-- `struct http_response_h`: the strings, without their terminators. -/
structure HttpResponseH where
  version : List UInt8
  status : List UInt8
  contentType : List UInt8
  contentLength : List UInt8
  date : List UInt8
  mtime : List UInt8

namespace HttpResponseH

variable (r : HttpResponseH)

/-- What `sprintf` writes into `header`, without the terminator. -/
def text : List UInt8 :=
  r.version ++ ascii " " ++ r.status ++ ascii "\r\nServer: LIDA/1.0\r\nContent-Type: " ++
    r.contentType ++ ascii "\r\n\t\t     Content-Length: " ++ r.contentLength ++
    ascii "\r\n\t\t     Date: " ++ r.date ++ ascii "\r\n\t\t     Last-Modified: " ++ r.mtime ++
    ascii "\r\n\t\t     \r\n"

/-- `len`, the size of `header`. -/
def len : ℕ :=
  r.version.length + r.status.length + r.contentType.length + r.contentLength.length +
    r.date.length + r.mtime.length + 100

/-- The bytes that `post_header` passes to `write`; `stack` is what is in memory behind the text and
its terminator. -/
def passed (stack : List UInt8) : List UInt8 := (r.text ++ 0 :: stack).take r.len

/-- The end of a line. -/
def crlf : UInt8 × UInt8 := (13, 10)

/-- `": "`. -/
def colon : UInt8 × UInt8 := (58, 32)

/-- The status line. -/
def statusLine : List UInt8 := r.version ++ ascii " " ++ r.status

/-- The fields of the header. -/
def fields : List (List UInt8 × List UInt8) :=
  [(ascii "Server", ascii "LIDA/1.0"), (ascii "Content-Type", r.contentType),
    (ascii "Content-Length", r.contentLength), (ascii "Date", r.date),
    (ascii "Last-Modified", r.mtime)]

/-- The header as it should be. -/
def wanted : List UInt8 := Fields.encode crlf colon r.statusLine r.fields

/-- The text fits the buffer, and what is passed to `write` is the header, which can be read. -/
structure EncodesRight (stack : List UInt8) : Prop where
  fits : r.text.length + 1 ≤ r.len
  passed : r.passed stack = r.wanted
  decodes : Fields.decode crlf colon (r.passed stack) = some (r.statusLine, r.fields)

/-- The strings contain no CR and no LF. -/
def Clean : Prop :=
  ∀ s ∈ [r.version, r.status, r.contentType, r.contentLength, r.date, r.mtime], 13 ∉ s ∧ 10 ∉ s

instance : Decidable r.Clean := inferInstanceAs (Decidable (∀ _ ∈ _, _))

variable {r} {stack : List UInt8}

/-- The text is longer than its buffer. -/
theorem length_text : r.text.length = r.len + 10 := by
  simp only [text, len, List.length_append, ascii, List.length_map]
  simp
  omega

/-- What is passed to `write` ends in the middle of the end of the last field. -/
theorem passed_eq : r.passed stack =
    r.version ++ ascii " " ++ r.status ++ ascii "\r\nServer: LIDA/1.0\r\nContent-Type: " ++
      r.contentType ++ ascii "\r\n\t\t     Content-Length: " ++ r.contentLength ++
      ascii "\r\n\t\t     Date: " ++ r.date ++ ascii "\r\n\t\t     Last-Modified: " ++ r.mtime ++
      [13] := by
  obtain ⟨sent, hsent⟩ : ∃ sent, sent = r.version ++ ascii " " ++ r.status ++
      ascii "\r\nServer: LIDA/1.0\r\nContent-Type: " ++ r.contentType ++
      ascii "\r\n\t\t     Content-Length: " ++ r.contentLength ++ ascii "\r\n\t\t     Date: " ++
      r.date ++ ascii "\r\n\t\t     Last-Modified: " ++ r.mtime ++ [13] := ⟨_, rfl⟩
  have htext : r.text = sent ++ [10, 9, 9, 32, 32, 32, 32, 32, 13, 10] := by
    rw [text, hsent]
    simp [ascii]
  have hlen := length_text (r := r)
  rw [htext, List.length_append] at hlen
  rw [passed, ← hsent, htext, List.append_assoc]
  exact List.take_left' (by simpa using hlen)

/-- The white space in front of `Content-Length` is not part of the header, and all of the header
in front of it is part of the text. -/
theorem take_text_ne_wanted (n : ℕ) : (r.text ++ 0 :: stack).take n ≠ r.wanted := by
  obtain ⟨pre, hpre⟩ : ∃ pre, pre = r.statusLine ++
      ascii "\r\nServer: LIDA/1.0\r\nContent-Type: " ++ r.contentType ++ ascii "\r\n" := ⟨_, rfl⟩
  have htext : r.text ++ 0 :: stack = pre ++ 9 :: (ascii "\t     Content-Length: " ++
      r.contentLength ++ ascii "\r\n\t\t     Date: " ++ r.date ++
      ascii "\r\n\t\t     Last-Modified: " ++ r.mtime ++ ascii "\r\n\t\t     \r\n" ++
      0 :: stack) := by
    rw [text, hpre, statusLine]
    simp [ascii]
  have hwanted : r.wanted = pre ++ 67 :: (ascii "ontent-Length: " ++ r.contentLength ++
      ascii "\r\nDate: " ++ r.date ++ ascii "\r\nLast-Modified: " ++ r.mtime ++
      ascii "\r\n\r\n") := by
    rw [wanted, hpre, statusLine]
    simp [Fields.encode, Fields.encodeFields, Fields.fieldLine, Fields.letters, fields, crlf, colon,
      ascii]
  intro heq
  rw [htext, hwanted] at heq
  have hget := congrArg (fun l => l[pre.length]?) heq
  simp [List.getElem?_take] at hget

/-- The header as it should be can be read. -/
theorem decode_wanted (hclean : r.Clean) :
    Fields.decode crlf colon r.wanted = some (r.statusLine, r.fields) := by
  simp only [Clean, List.forall_mem_cons, List.not_mem_nil, false_imp_iff, forall_const,
    and_true] at hclean
  obtain ⟨hversion, hstatus, htype, hlength, hdate, hmtime⟩ := hclean
  refine Fields.decode_encode ?_ ?_ (by decide)
  · simp [statusLine, crlf, ascii, hversion.1, hstatus.1]
  · simp [fields, crlf, colon, ascii, htype.1, hlength.1, hdate.1, hmtime.1]

/-- What is sent cannot: it breaks off before the empty line. -/
theorem decode_passed (hclean : r.Clean) : Fields.decode crlf colon (r.passed stack) = none := by
  simp only [Clean, List.forall_mem_cons, List.not_mem_nil, false_imp_iff, forall_const,
    and_true] at hclean
  obtain ⟨hversion, hstatus, htype, hlength, hdate, hmtime⟩ := hclean
  obtain ⟨lines, hlines⟩ : ∃ lines, lines = [(ascii "Server", ascii "LIDA/1.0"),
      (ascii "Content-Type", r.contentType), (ascii "\t\t     Content-Length", r.contentLength),
      (ascii "\t\t     Date", r.date)] := ⟨_, rfl⟩
  have hpassed : r.passed stack = r.statusLine ++ Fields.letters crlf ++
      (lines.flatMap (Fields.fieldLine crlf colon) ++
        (ascii "\t\t     Last-Modified: " ++ r.mtime ++ [crlf.1])) := by
    rw [passed_eq, hlines, statusLine]
    simp [Fields.fieldLine, Fields.letters, crlf, colon, ascii]
  rw [hpassed]
  refine Fields.decode_eq_none ?_ ?_ (by decide) ?_
  · simp [statusLine, crlf, ascii, hversion.1, hstatus.1]
  · simp [hlines, crlf, colon, ascii, htype.1, hlength.1, hdate.1]
  · simp [crlf, ascii, hmtime.1]

/-- **The header** is never what it should be. -/
theorem not_encodesRight (r : HttpResponseH) (stack : List UInt8) : ¬r.EncodesRight stack :=
  fun h => take_text_ne_wanted r.len h.passed

/-- A response to a request for an empty file. -/
def emptyFile : HttpResponseH where
  version := ascii "HTTP/1.1"
  status := ascii "200 OK"
  contentType := ascii "text/html"
  contentLength := ascii "0"
  date := ascii "Thu Jan  1 00:00:00 1970"
  mtime := ascii "Thu Jan  1 00:00:00 1970"

/-- The text and its terminator have eleven bytes more than the buffer. -/
theorem not_encodesRight_emptyFile :
    ¬∀ (r : HttpResponseH) (stack : List UInt8), r.Clean → r.EncodesRight stack := by
  intro h
  have hfits := (h emptyFile [] (by decide)).fits
  rw [length_text] at hfits
  omega

end HttpResponseH

end Lidas
