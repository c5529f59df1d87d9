import Lidas.Proxy.ToClient
import Lidas.Send.StaticFile
import Lidas.Worker.Redirect

/-!
# A LIDAS behind another

What `error_post` and `post_file` send begins with a status line, so that `proxy_to_client` of
another LIDAS filters it by its status. The errors are not passed on (`Relay.errorPost_dropped`),
and the files are, as far as `post_file` returns (`Relay.postFile_filtered`). But all that
`func_redirect` answers are errors, and so the client of the one in front gets nothing
(`answer_dropped`).
-/

namespace Lidas

open CString

/-! ### What is sent -/

/-- `err_str`, around its `%d`. -/
def errStr : List UInt8 × List UInt8 :=
  (ascii "HTTP/1.1 ", ascii " NOTFOUND\r\nServer: LIDA/1.0\r\nContent-Type: text/html\r\n" ++
    ascii "Content-Length: 112\r\n\r\n")

/-- What `error_post` sends, for a status that is not negative. -/
def errorPost (status : ℕ) : List UInt8 := errStr.1 ++ decimal status ++ errStr.2

/-- `strlen (err_str) + 5`, the size of the buffer that it is formatted into. -/
def errorPostSize : ℕ := errStr.1.length + 2 + errStr.2.length + 5

/-- The buffer of `error_post` holds a status of at most six digits. -/
theorem errorPost_fits_iff (status : ℕ) :
    (errorPost status).length < errorPostSize ↔ status < 10 ^ 6 := by
  rw [← length_decimal_le_iff, errorPost, errorPostSize, List.length_append, List.length_append]
  omega

/-- What `error_post` sends begins with a status line. -/
def errorLine (status : ℕ) (hfits : (errorPost status).length < errorPostSize) : StatusLine where
  version := ascii "HTTP/1.1"
  digits := decimal status
  status := status
  version_ne_nil := http11_ne_nil
  word := http11_word
  numeral := numeral_decimal status
  status_lt := by
    rw [errorPost_fits_iff] at hfits
    omega
  length_le := by
    have hversion : (ascii "HTTP/1.1").length = 8 := rfl
    rw [errorPost_fits_iff, ← length_decimal_le_iff] at hfits
    omega

theorem errorPost_eq {status : ℕ} (hfits : (errorPost status).length < errorPostSize) :
    errorPost status = (errorLine status hfits).text ++ errStr.2.tail := by
  have hfirst : errStr.1 = ascii "HTTP/1.1" ++ [sp] := by decide
  have hsecond : errStr.2 = sp :: errStr.2.tail := by decide
  rw [errorPost, hfirst, hsecond, StatusLine.text, errorLine]
  simp

theorem length_errorPost (status : ℕ) : 50 ≤ (errorPost status).length := by
  have hsecond : 50 ≤ errStr.2.length := by decide
  rw [errorPost, List.length_append]
  omega

/-- What `post_file` passes to `write` for a file begins with a status line. -/
theorem PostMemory.exists_passed_response (m : PostMemory) (t : List UInt8) (size : ℕ) :
    ∃ rest, (m.response t size).passed m.stack = fileLine.text ++ rest := by
  have hfirst : ascii "HTTP/1.1" ++ ascii " " ++ ascii "200 OK" =
      fileLine.text ++ ascii "OK" := by decide
  rw [HttpResponseH.passed_eq, PostMemory.response, hfirst]
  simp only [List.append_assoc]
  exact ⟨_, rfl⟩

theorem PostMemory.length_passed_response (m : PostMemory) (t : List UInt8) (size : ℕ) :
    ((m.response t size).passed m.stack).length = (m.response t size).len := by
  rw [HttpResponseH.passed, List.length_take, List.length_append, HttpResponseH.length_text]
  omega

theorem PostMemory.le_len_response (m : PostMemory) (t : List UInt8) (size : ℕ) :
    50 ≤ (m.response t size).len := by
  rw [HttpResponseH.len]
  omega

/-- What goes out in a run of `post_file`. An error is all that is sent then. -/
def Served.bytes (s : Served) : List UInt8 := s.errors.flatMap errorPost ++ (s.head ++ s.body)

/-- With a header that is taken at once, the file is sent behind it or an error is. -/
theorem bytes_postFile {type : Option (List UInt8)} {file : Option FileOnDisk}
    {method : List UInt8} {m : PostMemory} {k : ℕ+} {ks : List ℕ+} {s : Served}
    (hk : ∀ t ∈ type, ∀ f ∈ file, (m.response t f.content.length).len ≤ k)
    (hrun : postFile type file method m (writes (k :: ks)) = .ok s) :
    (∃ f, file = some f ∧ f.stat = true ∧ ∃ t body,
        s.bytes = (m.response t f.content.length).passed m.stack ++ body) ∨
      ((∀ f, file = some f → f.stat = false) ∧ ∃ status < 1000, status ≠ 200 ∧
        s.bytes = errorPost status) := by
  cases file with
  | none =>
    obtain rfl := Except.ok.inj hrun
    exact .inr ⟨by simp, 404, by decide, by decide, by simp [Served.bytes]⟩
  | some f =>
    obtain ⟨content, stat⟩ := f
    cases stat with
    | false =>
      obtain ⟨_, -, hrun⟩ := bind_eq_ok.mp hrun
      obtain rfl := Except.ok.inj hrun
      exact .inr ⟨by simp, 503, by decide, by decide, by simp [Served.bytes]⟩
    | true =>
      left
      obtain ⟨-, t, rfl, hsend⟩ := postFile_eq_ok_iff.mp hrun
      refine ⟨_, rfl, rfl, t, ?_⟩
      obtain ⟨u, hu, -, herrors, -⟩ := streamLoop_writes content ks
      have hwrites : writes (k :: ks) = .ok k :: writes ks := rfl
      have htake := List.take_of_length_le
        ((m.length_passed_response t content.length).trans_le (hk t rfl _ rfl))
      simp only [sendFile, hwrites, htake, streamToSocket, hu, ok_bind, pure_eq_ok] at hsend
      split_ifs at hsend
      · obtain rfl := Except.ok.inj hsend
        exact ⟨[], by simp [Served.bytes]⟩
      · obtain rfl := Except.ok.inj hsend
        exact ⟨u.sent, by simp [Served.bytes, herrors]⟩

namespace Relay

variable (c : Relay)

/-- An answer of `error_post` has the bytes that are copied onto the stack. -/
theorem le_length_errorPost {status : ℕ} (hanswer : c.answer = errorPost status) :
    50 ≤ (c.answer.take 8192).length + c.behind.length := by
  have hlength := length_errorPost status
  rw [hanswer, List.length_take]
  omega

/-- An error of a LIDAS behind is not passed on. -/
theorem clean_of_received {status : ℕ} {head : Block} {rest : UInt64}
    (hfits : (errorPost status).length < errorPostSize) (hstatus : status ≠ 200)
    (hanswer : c.answer = errorPost status) (h : c.Received head rest) :
    c.proxyToClient = .ok c.clean := by
  rw [h.proxyToClient (errorLine status hfits) (by rw [hanswer, errorPost_eq hfits])
    (c.le_length_errorPost hanswer)]
  exact if_neg hstatus

/-- **A LIDAS behind another.** What a call of `post_file` that returns has answered is posted to
the client if there is a file, whatever the file and the request are, and dropped otherwise, unless
the call is inside `read`, or the pool has no room for the copy. -/
theorem postFile_filtered {ks : List ℕ+} {type : Option (List UInt8)} {file : Option FileOnDisk}
    {method : List UInt8} {m : PostMemory} {k : ℕ+} {ks' : List ℕ+} {s : Served}
    (hreads : c.reads = ks.map .ok)
    (hk : ∀ t ∈ type, ∀ f ∈ file, (m.response t f.content.length).len ≤ k)
    (hrun : postFile type file method m (Lidas.writes (k :: ks')) = .ok s)
    (hanswer : c.answer = s.bytes) (log : Bool) (pool : MemPool) :
    c.proxyToClientIn log pool = .ok .inside ∨
      (¬pool.Serves (c.answer.take 8192).length ∧
        c.proxyToClientIn log pool = .error .nullDeref) ∨
      ∃ r, memPoolAlloc (c.answer.take 8192).length pool = .ok r ∧
        (((∃ f, file = some f ∧ f.stat = true) ∧ c.proxyToClientIn log pool =
          (proxyMutePost (c.answer.take 8192 ++ c.behind) c.buf c.more c.writes).map .muted) ∨
        ((∀ f, file = some f → f.stat = false) ∧
          c.proxyToClientIn log pool = c.cleanIn log r.2)) := by
  rcases c.inside_or_received hreads with hinside | ⟨head, rest, h⟩
  · left
    rw [proxyToClientIn, hinside]
    rfl
  right
  by_cases hroom : pool.Serves (c.answer.take 8192).length
  swap
  · exact .inl ⟨hroom, h.proxyToClientIn_eq_error log hroom⟩
  obtain ⟨r, halloc⟩ := hroom.exists_memPoolAlloc
  refine .inr ⟨r, halloc, ?_⟩
  -- | a file that is there is answered 200, any other status is an error page
  -- a file that is there is answered 200, any other status is an error page
  rcases bytes_postFile hk hrun with ⟨f, hf, hstat, t, body, hbytes⟩ |
    ⟨hnone, status, hlt, h200, hbytes⟩
  · left
    refine ⟨⟨f, hf, hstat⟩, ?_⟩
    obtain ⟨more, hmore⟩ := m.exists_passed_response t f.content.length
    have hlength := m.length_passed_response t f.content.length
    have hlen := m.le_len_response t f.content.length
    -- the head alone fills the 50 bytes that `memcpy` reads
    have hmem : 50 ≤ (c.answer.take 8192).length + c.behind.length := by
      rw [hanswer, hbytes, List.length_take, List.length_append]
      omega
    rw [h.proxyToClientIn fileLine (by rw [hanswer, hbytes, hmore, List.append_assoc]) hmem log
      halloc]
    exact if_pos rfl
  · right
    have hfits : (errorPost status).length < errorPostSize := by
      rw [errorPost_fits_iff]
      omega
    have herror : c.answer = errorPost status := by rw [hanswer, hbytes]
    refine ⟨hnone, ?_⟩
    rw [h.proxyToClientIn (errorLine status hfits) (by rw [herror, errorPost_eq hfits])
      (c.le_length_errorPost herror) log halloc]
    exact if_neg h200

/-- A LIDAS behind that has no file answers with 404, which is dropped. -/
theorem postFile_filtered_noFile :
    (oneRead (errorPost 404)).proxyToClientIn true (memPoolCreat []) = .ok .inside ∨
      (¬(memPoolCreat []).Serves ((errorPost 404).take 8192).length ∧
        (oneRead (errorPost 404)).proxyToClientIn true (memPoolCreat []) = .error .nullDeref) ∨
      ∃ r, memPoolAlloc ((errorPost 404).take 8192).length (memPoolCreat []) = .ok r ∧
        (((∃ f, none = some f ∧ FileOnDisk.stat f = true) ∧
          (oneRead (errorPost 404)).proxyToClientIn true (memPoolCreat []) =
            (proxyMutePost ((errorPost 404).take 8192 ++ List.replicate 50 0)
              (List.replicate pageSiz 0) [] [.ok wholePage]).map .muted) ∨
        ((∀ f, none = some f → FileOnDisk.stat f = false) ∧
          (oneRead (errorPost 404)).proxyToClientIn true (memPoolCreat []) =
            (oneRead (errorPost 404)).cleanIn true r.2)) :=
  @postFile_filtered (oneRead (errorPost 404)) [wholePage, wholePage] none none (ascii "GET") .kind
    1000 [] { errors := [404], head := [], contentLength := none, body := [] } rfl
    (fun t ht => by cases ht) rfl (by
      change errorPost 404 = [404].flatMap errorPost ++ ([] ++ [])
      rw [List.flatMap_singleton, List.append_nil, List.append_nil]) true (memPoolCreat [])

end Relay

/-! ### Whole requests -/

/-- **Nothing comes through.** Whatever request a LIDAS behind answers, the client of the one in
front gets nothing of the answer. -/
theorem answer_dropped {H : Type} {s : Config.Globals H} {head : Block} (h : Answerable s head)
    (fd : ℕ) (o : Outside) : ∃ v, funcRedirect s fd head o = .ok (some v) ∧
      ∀ (c : Relay) (ks : List ℕ+), c.reads = ks.map .ok → c.answer = v.bytes →
        c.proxyToClient = .ok .inside ∨ c.proxyToClient = .ok c.clean := by
  obtain ⟨status, hmem, hrun⟩ := h.exists_funcRedirect_eq fd o
  refine ⟨_, hrun, fun c ks hreads hanswer => ?_⟩
  have hbytes : (Served.error [] status).bytes = errorPost status := by
    simp [Served.bytes, Served.error]
  obtain ⟨hlt, h200⟩ : status < 10 ^ 6 ∧ status ≠ 200 := by
    have hall : ∀ status ∈ [400, 404], status < 10 ^ 6 ∧ status ≠ 200 := by decide
    exact hall status hmem
  rcases c.inside_or_received hreads with hinside | ⟨head', rest, hreceived⟩
  · left
    rw [Relay.proxyToClient, hinside]
    rfl
  · exact .inr (c.clean_of_received ((errorPost_fits_iff status).mpr hlt) h200
      (by rw [hanswer, hbytes]) hreceived)

/-- `GET / HTTP/1.1` with two headers, the second of which is `host`. -/
def lowerHost : RequestText :=
  { RequestText.oneHeader with
    others := [{ name := ascii "host", value := ascii "a", name_ok := Config.headerName_lowerHost
                 value_ok := RequestText.oneHeader.first.value_ok }] }

/-- No host is loaded, and there is a bucket for one. -/
def oneBucket : Config.Globals Unit :=
  { Config.Globals.start with hostHashN := 1, hostLst := [none] }

theorem answerable_lowerHost : Answerable oneBucket (lowerHost.text ++ [0]) := by
  have hothers : lowerHost.others.map Header.name = [ascii "host"] := rfl
  rw [answerable_text_iff]
  constructor
  · rintro v ⟨as, h, bs, hsplit, hname, -⟩
    have hmem : h.name ∈ lowerHost.others.map Header.name :=
      List.mem_map_of_mem (hsplit ▸ List.mem_append_right as List.mem_cons_self)
    rw [hothers, List.mem_singleton, hname] at hmem
    exact absurd hmem (by decide)
  · refine ⟨_, ⟨[], _, [], rfl, rfl, rfl, ?_⟩, Nat.one_pos, none, ?_, by simp⟩
    · decide +kernel
    · rw [crc32Port, oneBucket, Nat.mod_one]
      rfl

theorem answer_dropped_lowerHost : ∃ v, funcRedirect oneBucket 5 (lowerHost.text ++ [0])
      { body := { opened := true, reads := [], waits := [] }
        stale := .error .uninitialised
        stat := fun _ => false
        fopen := fun _ => none
        post := .kind
        writes := [.ok 100] } = .ok (some v) ∧
    ∀ (c : Relay) (ks : List ℕ+), c.reads = ks.map .ok → c.answer = v.bytes →
      c.proxyToClient = .ok .inside ∨ c.proxyToClient = .ok c.clean :=
  answer_dropped answerable_lowerHost 5 _

end Lidas
