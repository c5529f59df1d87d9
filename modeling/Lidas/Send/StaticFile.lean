import Lidas.Send.Snd

/-!
# The body of a static file response

What `post_file` sends behind the header when every call of `write` takes at least one byte.
`stream_to_socket` gives the number of pages that `fread` returned to `post_loop` as a number
of bytes, so it sends one byte for each full page, `pageHeads`, and nothing of the last,
partial page. And `post_file` comes to its calls of `write` only if the uninitialised pointer that
it formats the length through, and the bytes behind the header, happen to be in spare memory
(`PostMemory.Posts`).
-/

namespace Lidas

open CString (decimal)

/-- Positive outcomes of `write`, short ones included. -/
def writes (ks : List ℕ+) : List WriteRes := ks.map WriteRes.ok

/-- The first byte of each full page of a file. -/
def pageHeads (file : List UInt8) : List UInt8 :=
  if pageSiz ≤ file.length then file.take 1 ++ pageHeads (file.drop pageSiz) else []
termination_by file.length
decreasing_by simp [pageSiz] at *; omega

theorem length_pageHeads (file : List UInt8) :
    (pageHeads file).length = file.length / pageSiz := by
  induction file using pageHeads.induct with
  | case1 file h ih =>
    rw [pageHeads, if_pos h, List.length_append, ih, List.length_take, List.length_drop]
    simp only [pageSiz] at *
    omega
  | case2 file h =>
    rw [pageHeads, if_neg h]
    simp only [pageSiz, List.length_nil] at *
    omega

/-- One byte is sent by one call of `write`. -/
theorem postLoop_one (b : UInt8) (data : List UInt8) (k : ℕ+) (ks : List ℕ+) :
    postLoop (b :: data) (writes (k :: ks)) 0 1 =
      .ok { sent := [b], left := writes ks, ret := some 0 } := by
  have hk : min (k : ℕ) 1 = 1 := Nat.min_eq_right k.pos
  have htaken : taken (b :: data) 0 1 = .ok [b] := by simp [taken]
  simp only [writes, List.map_cons, postLoop, WriteRes.cur, WriteRes.taken, UInt64.toNat_one, hk,
    htaken, ok_bind]
  rfl

/-- **The stream.** One byte goes out for each full page, as long as `write` returns. -/
theorem streamLoop_writes (file : List UInt8) (ks : List ℕ+) :
    ∃ r, streamLoop file (writes ks) = .ok r ∧ r.sent = (pageHeads file).take ks.length ∧
      r.errors = [] ∧ ((pageHeads file).length ≤ ks.length → r.finished = true) := by
  induction file using pageHeads.induct generalizing ks with
  | case1 file h ih =>
    rw [streamLoop, if_pos h, pageHeads, if_pos h]
    cases file with
    | nil => simp [pageSiz] at h
    | cons b file =>
      have hpage : (b :: file).take pageSiz = b :: file.take (pageSiz - 1) := by simp [pageSiz]
      rw [hpage]
      cases ks with
      | nil => exact ⟨_, rfl, by simp, rfl, fun hle => by simp at hle⟩
      | cons k ks =>
        obtain ⟨t, ht, hsent, herrors, hfinished⟩ := ih ks
        rw [postLoop_one, ok_bind]
        simp only [Int.lt_irrefl, if_false, ht, ok_bind, pure_eq_ok]
        exact ⟨_, rfl, by simp [hsent], herrors, fun hle => hfinished (by simpa using hle)⟩
  | case2 file h =>
    rw [streamLoop, if_neg h, pageHeads, if_neg h]
    exact ⟨_, rfl, by simp, rfl, fun _ => rfl⟩

/-! ### The response -/

/-- What is sent in answer to `GET`. The first outcome of `write` is for the header. -/
theorem sendFile_get (file header : List UInt8) (ks : List ℕ+) :
    ∃ r, sendFile file (ascii "GET") header (writes ks) = .ok r ∧
      r.body = (pageHeads file).take ks.tail.length ∧ r.errors = [] ∧
      r.contentLength = some file.length := by
  cases ks with
  | nil => exact ⟨_, rfl, rfl, rfl, rfl⟩
  | cons k ks =>
    obtain ⟨s, hs, hsent, herrors, -⟩ := streamLoop_writes file ks
    have hget : ¬ascii "GET" = ascii "HEAD" := by decide
    have hwrites : writes (k :: ks) = .ok k :: writes ks := rfl
    simp only [sendFile, hwrites, hget, if_false, streamToSocket, hs, ok_bind, pure_eq_ok]
    exact ⟨_, rfl, hsent, herrors, rfl⟩

/-- What `post_file` needs to come to the call of `write` for a file of a size: the uninitialised
`s.content_length` points to spare bytes, enough for the length, the pool serves the request for
the date, there is a type, and the 11 bytes behind `header` are spare. -/
structure PostMemory.Posts (m : PostMemory) (type : Option (List UInt8)) (size : ℕ) : Prop where
  length : m.Spare m.contentLength ((decimal size).length + 1)
  date : m.pool.Serves 30
  header : ∃ t, type = some t ∧ m.Spare (m.header + (m.response t size).len) 11

theorem PostMemory.overwrite_eq_ok {m : PostMemory} {a n : ℕ} :
    m.overwrite a n = .ok () ↔ m.Spare a n := by
  rw [overwrite]
  split_ifs with h
  · exact iff_of_true rfl h
  · exact iff_of_false (fun hrun => by cases hrun) h

/-- The header comes to 11 bytes more than its buffer has. -/
theorem PostMemory.postHeader_eq_ok {m : PostMemory} {r : HttpResponseH} {header : List UInt8} :
    m.postHeader r = .ok header ↔ m.Spare (m.header + r.len) 11 ∧ header = r.passed m.stack := by
  have hlen : r.text.length + 1 - r.len = 11 := by
    rw [HttpResponseH.length_text]
    omega
  rw [postHeader, hlen]
  constructor
  · intro h
    obtain ⟨⟨⟩, hspare, h⟩ := bind_eq_ok.mp h
    exact ⟨overwrite_eq_ok.mp hspare, (Except.ok.inj h).symm⟩
  · rintro ⟨hspare, rfl⟩
    rw [overwrite_eq_ok.mpr hspare]
    rfl

/-- A file that is there is answered by a call that comes to `write`. -/
theorem postFile_eq_ok_iff {type : Option (List UInt8)} {content method : List UInt8}
    {m : PostMemory} {ws : List WriteRes} {s : Served} :
    postFile type (some { content := content, stat := true }) method m ws = .ok s ↔
      m.Posts type content.length ∧ ∃ t, type = some t ∧
        sendFile content method ((m.response t content.length).passed m.stack) ws = .ok s := by
  constructor
  · intro h
    obtain ⟨⟨⟩, hlength, h⟩ := bind_eq_ok.mp h
    obtain ⟨r, hdate, h⟩ := bind_eq_ok.mp h
    have hserves : m.pool.Serves 30 := by
      by_contra hno
      rw [memPoolAlloc_eq_error hno] at hdate
      cases hdate
    cases type with
    | none => cases h
    | some t =>
      obtain ⟨header, hheader, hsend⟩ := bind_eq_ok.mp h
      obtain ⟨hspare, rfl⟩ := PostMemory.postHeader_eq_ok.mp hheader
      exact ⟨⟨PostMemory.overwrite_eq_ok.mp hlength, hserves, t, rfl, hspare⟩, t, rfl, hsend⟩
  · rintro ⟨⟨hlength, hdate, t, rfl, hspare⟩, t', ht', hsend⟩
    obtain rfl := Option.some.inj ht'
    obtain ⟨r, hr⟩ := hdate.exists_memPoolAlloc
    rw [postFile]
    simp only [Bool.true_eq_false, if_false]
    rw [PostMemory.overwrite_eq_ok.mpr hlength, ok_bind, hr, ok_bind,
      PostMemory.postHeader_eq_ok.mpr ⟨hspare, rfl⟩, ok_bind]
    exact hsend

/-- The body is the file: all of it arrives, in order and once, and it is as long as announced. -/
def BodyComplete (type : Option (List UInt8)) (file : List UInt8) (m : PostMemory)
    (ks : List ℕ+) : Prop :=
  ∃ r, postFile type (some { content := file, stat := true }) (ascii "GET") m (writes ks) = .ok r ∧
    r.errors = [] ∧ r.body = file ∧ r.contentLength = some r.body.length

/-- Only the body of an empty file is complete. -/
theorem BodyComplete.eq_nil {type : Option (List UInt8)} {file : List UInt8} {m : PostMemory}
    {ks : List ℕ+} (h : BodyComplete type file m ks) : file = [] ∧ m.Posts type file.length := by
  obtain ⟨r', hr', -, hbody', -⟩ := h
  obtain ⟨hposts, t, -, hsend⟩ := postFile_eq_ok_iff.mp hr'
  obtain ⟨r, hr, hbody, herrors, hlength⟩ :=
    sendFile_get file ((m.response t file.length).passed m.stack) ks
  rw [hr, Except.ok.injEq] at hsend
  subst hsend
  have hlen : ((pageHeads file).take ks.tail.length).length = file.length := by rw [← hbody, hbody']
  rw [List.length_take, length_pageHeads, pageSiz] at hlen
  exact ⟨List.length_eq_zero_iff.mp (by omega), hposts⟩

/-- **Complete bodies.** Whatever the outcomes of `write` are, enough or not, the body is the
file if and only if the file is empty, and the memory is such that `post_file` comes to `write`. -/
theorem bodyComplete_iff (type : Option (List UInt8)) (file : List UInt8) (m : PostMemory)
    (ks : List ℕ+) :
    BodyComplete type file m ks ↔ file = [] ∧ m.Posts type 0 := by
  constructor
  · intro h
    obtain ⟨rfl, hposts⟩ := h.eq_nil
    exact ⟨rfl, hposts⟩
  · rintro ⟨rfl, hposts⟩
    obtain ⟨t, rfl, -⟩ := hposts.header
    obtain ⟨r, hr, hbody, herrors, hlength⟩ :=
      sendFile_get [] ((m.response t 0).passed m.stack) ks
    have hnil : r.body = [] := by simp [hbody, pageHeads, pageSiz]
    exact ⟨r, postFile_eq_ok_iff.mpr ⟨hposts, t, rfl, hr⟩, herrors, hnil, by rw [hlength, hnil]⟩

/-- Memory in which everything goes well: a fresh page, no log, and spare bytes everywhere but at
`NULL`. -/
def PostMemory.kind : PostMemory where
  pool := memPoolCreat []
  log := false
  contentLength := 32
  header := 64
  spare a := decide (a ≠ 0)
  date := []
  mtime := []
  stack := []

/-- A file of one byte is not sent, with as many outcomes of `write` as one could ask for, and in
memory that is kind. -/
theorem not_bodyComplete_one : ¬∀ (file : List UInt8) (ks : List ℕ+), file.length < ks.length →
    BodyComplete (some (ascii "text/html")) file .kind ks := by
  intro h
  have hnil := (h [65] [1, 1] (by decide)).eq_nil.1
  cases hnil

end Lidas
