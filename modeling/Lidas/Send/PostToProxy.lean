import Lidas.Http.Tokenized
import Lidas.Lib.Word
import Lidas.Send.StaticFile

/-!
# Forwarding a request to a backend

`post_to_proxy` sends 8192 bytes from `obj->tmp` and then the spool file, starting over with
another descriptor when a send fails. By then `obj->tmp` has been tokenized, so it has a
`'\0'` behind its method. `postLoop_marked` follows the pointer of `post_loop`: it moves on
by what was sent and back by one at each error, so it cannot pass the method without sending
that `'\0'`.
-/

namespace Lidas

/-- One round of `F_CON`: the descriptor `load_balance` took, the outcomes of `write`, and the
value that is read as the result of `stream_to_socket`, which returns none. -/
structure Attempt where
  pfd : ℕ
  writes : List WriteRes
  ret : ℤ

/-- The sends of `post_to_proxy`, each with its descriptor, and the descriptor it succeeded
with, if it has. -/
structure Forwarding where
  log : List (ℕ × List UInt8)
  final : Option ℕ

/-- The rounds of `F_CON`, with `tmp` the object at `obj->tmp`. -/
def fCon (tmp : Block) (fTmp : Option (List UInt8)) : List Attempt → Except Fault Forwarding
  | [] => return { log := [], final := none }
  | a :: as => do
    -- send first 8k data
    let r ← postLoop tmp a.writes 0 8192
    match r.ret with
    | none => return { log := [(a.pfd, r.sent)], final := none }
    | some ret =>
      if ret < 0 then
        let f ← fCon tmp fTmp as
        return { f with log := (a.pfd, r.sent) :: f.log }
      -- send disk buffer
      let s ← streamToSocket fTmp r.left
      if s.finished = false then
        return { log := [(a.pfd, r.sent ++ s.sent)], final := none }
      if a.ret < 0 then
        let f ← fCon tmp fTmp as
        return { f with log := (a.pfd, r.sent ++ s.sent) :: f.log }
      return { log := [(a.pfd, r.sent ++ s.sent)], final := some a.pfd }

/-- `post_to_proxy`; `matched` says that `match_proxy` found a group. -/
def postToProxy (matched : Bool) (tmp : Block) (fTmp : Option (List UInt8))
    (attempts : List Attempt) : Except Fault Forwarding :=
  if matched then fCon tmp fTmp attempts
  else return { log := [], final := none }

/-- All that was sent to a descriptor. -/
def sentTo (pfd : ℕ) (log : List (ℕ × List UInt8)) : List UInt8 :=
  (log.filter fun e => e.1 = pfd).flatMap (·.2)

/-- Where the protocol of a parsed request ends. -/
def protocalEnd (tmp : Block) : Option ℕ :=
  match httpParser tmp with
  | .ok p => (p.request.bind HttpRequest.protocal).map (· + 8)
  | .error _ => none

/-- A request as `read_event` has stored and parsed it: the object at `obj->tmp` before the
parsing, the number of bytes received into it and the spool file. The request line is among
the bytes received. -/
structure Received where
  tmp : Block
  h : ℕ
  fTmp : Option (List UInt8)
  tmp_le : tmp.length ≤ 2 * pageSiz
  h_le : h ≤ tmp.length
  parsed : ∃ n, protocalEnd tmp = some n ∧ n ≤ h

namespace Received

variable (q : Received)

/-- The bytes received from the client. -/
def bytes : List UInt8 := q.tmp.take q.h ++ q.fTmp.getD []

/-- The object at `obj->tmp` after the parsing. -/
def tokenized : Block :=
  match httpParser q.tmp with
  | .ok p => p.text
  | .error _ => q.tmp

/-- The run is right: it makes no fault, and if it succeeds with a descriptor, that descriptor
was sent the bytes received. -/
def ForwardedBy (attempts : List Attempt) : Prop :=
  ∃ f, postToProxy true q.tokenized q.fTmp attempts = .ok f ∧
    ∀ pfd, f.final = some pfd → sentTo pfd f.log = q.bytes

end Received

/-! ### The pointer of `post_loop` -/

section PostLoop

variable {data : Block} {ws : List WriteRes} {p rest : UInt64} {r : Posted}

/-- A call of `write` that takes bytes. -/
theorem postLoop_ok {k : ℕ+} (hrest : rest ≠ 0)
    (h : postLoop data (.ok k :: ws) p rest = .ok r) :
    ∃ t more, t = min (k : ℕ) rest.toNat ∧ 0 < t ∧ p.toNat + t ≤ data.length ∧
      r.sent = (data.drop p.toNat).take t ++ more ∧
      (rest - UInt64.ofNat t = 0 ∨ ∃ r', postLoop data ws (p + UInt64.ofNat t)
        (rest - UInt64.ofNat t) = .ok r' ∧ r'.sent = more ∧ r'.ret = r.ret) := by
  obtain ⟨t, ht⟩ : ∃ t, t = min (k : ℕ) rest.toNat := ⟨_, rfl⟩
  have hk := k.pos
  have hrest0 := (ne_zero_iff_toNat rest).mp hrest
  have hpos : 0 < t := by omega
  have hcur : UInt64.ofNat t ≠ 0 := by
    rw [ne_zero_iff_toNat, toNat_ofNat_of_le (show t ≤ rest.toNat by omega)]
    omega
  rw [postLoop] at h
  simp only [WriteRes.cur, WriteRes.taken, ← ht] at h
  obtain ⟨bytes, hbytes, h⟩ := bind_eq_ok.mp h
  rw [taken, if_neg (by omega)] at hbytes
  rw [if_neg hcur, if_neg UInt64.not_lt_zero] at h
  split_ifs at hbytes with hle
  · rw [Except.ok.injEq] at hbytes
    subst hbytes
    split_ifs at h with hzero
    · cases h
      exact ⟨t, [], ht, hpos, hle, by simp, Or.inl hzero⟩
    · obtain ⟨r', hr', h⟩ := bind_eq_ok.mp h
      cases h
      exact ⟨t, r'.sent, ht, hpos, hle, rfl, Or.inr ⟨r', hr', rfl, rfl⟩⟩

/-- An error moves the pointer back. -/
theorem postLoop_err {w : ℕ} (h : postLoop data (.err w :: ws) p rest = .ok r)
    (hrest : rest.toNat + 1 < 2 ^ 64) : postLoop data ws (p + -1) (rest + 1) = .ok r := by
  have hne : rest + 1 ≠ 0 := by
    rw [ne_zero_iff_toNat, toNat_add_one hrest]
    omega
  have hcur : (-1 : UInt64) ≠ 0 := by decide
  rw [postLoop] at h
  simp only [WriteRes.cur, WriteRes.taken, taken, if_true, ok_bind, sub_neg_one] at h
  rw [if_neg hcur, if_neg UInt64.not_lt_zero, if_neg hne] at h
  obtain ⟨r', hr', h⟩ := bind_eq_ok.mp h
  cases h
  rw [hr']
  rfl

/-- In front of the buffer nothing can be sent, and the rest never comes to an end. -/
theorem postLoop_under {size : ℕ} (hdata : data.length < 2 ^ 63) (hsize : size < 2 ^ 62)
    (hp : 2 ^ 63 + ws.length ≤ p.toNat) (hrest : p.toNat + rest.toNat = size + 2 ^ 64)
    (h : postLoop data ws p rest = .ok r) : r.ret = none := by
  induction ws generalizing p rest with
  | nil =>
    rw [postLoop] at h
    cases h
    rfl
  | cons w ws ih =>
    have hlt := p.toNat_lt
    rw [List.length_cons] at hp
    cases w with
    | ok k =>
      have hne : rest ≠ 0 := by
        rw [ne_zero_iff_toNat]
        omega
      obtain ⟨t, more, -, hpos, hle, -⟩ := postLoop_ok hne h
      omega
    | err w =>
      have hback : (p + -1).toNat = p.toNat - 1 := by
        rw [toNat_add_neg_one, if_neg (by omega)]
      have hfits : rest.toNat + 1 < 2 ^ 64 := by omega
      refine ih ?_ ?_ (postLoop_err h hfits)
      · omega
      · rw [hback, toNat_add_one hfits]
        omega

/-- The bytes begin with bytes of `a` only, and behind them comes a `'\0'`. -/
def Marked (a bytes : List UInt8) : Prop := ∃ v w, bytes = v ++ 0 :: w ∧ ∀ x ∈ v, x ∈ a

theorem Marked.append {a bytes more : List UInt8} (h : Marked a bytes) :
    Marked a (bytes ++ more) := by
  obtain ⟨v, w, rfl, hv⟩ := h
  exact ⟨v, w ++ more, by simp, hv⟩

/-- **The `'\0'` is sent.** A run of `post_loop` that is through has sent the `'\0'` of the
buffer, and before it only bytes that stand in front of it, however many errors there were. -/
theorem postLoop_marked {size : ℕ} {a b : List UInt8} (hdata : data = a ++ 0 :: b)
    (hlen : data.length ≤ size) (hsize : size < 2 ^ 62) (hws : ws.length < 2 ^ 62)
    (hp : p.toNat ≤ a.length) (hrest : p.toNat + rest.toNat = size)
    (h : postLoop data ws p rest = .ok r) (hret : r.ret ≠ none) : Marked a r.sent := by
  have ha : a.length < data.length := by simp [hdata]
  induction ws generalizing p rest r with
  | nil =>
    rw [postLoop] at h
    cases h
    exact absurd rfl hret
  | cons w ws ih =>
    rw [List.length_cons] at hws
    cases w with
    | ok k =>
      have hne : rest ≠ 0 := by
        rw [ne_zero_iff_toNat]
        omega
      obtain ⟨t, more, ht, hpos, hle, hsent, hend⟩ := postLoop_ok hne h
      have htrest : t ≤ rest.toNat := by omega
      rw [hsent, hdata, List.drop_append_of_le_length hp]
      by_cases hta : p.toNat + t ≤ a.length
      · -- all of it stands in front of the `'\0'`
        have hsub := toNat_sub_ofNat htrest
        have hadd : (p + UInt64.ofNat t).toNat = p.toNat + t := toNat_add_ofNat (by omega)
        rw [List.take_append_of_le_length (by rw [List.length_drop]; omega)]
        rcases hend with hzero | ⟨r', hr', rfl, hret'⟩
        · rw [hzero, UInt64.toNat_zero] at hsub
          omega
        · obtain ⟨v, w, hvw, hv⟩ := ih (by omega) (by rw [hadd]; exact hta)
            (by rw [hadd, hsub]; omega) hr' (by rw [hret']; exact hret)
          refine ⟨(a.drop p.toNat).take t ++ v, w, by rw [hvw, List.append_assoc], fun x hx => ?_⟩
          rcases List.mem_append.mp hx with hx | hx
          · exact List.mem_of_mem_drop (List.mem_of_mem_take hx)
          · exact hv x hx
      · -- the `'\0'` is among it
        obtain ⟨n, hn⟩ : ∃ n, t = (a.drop p.toNat).length + (n + 1) :=
          ⟨t - (a.drop p.toNat).length - 1, by rw [List.length_drop]; omega⟩
        refine ⟨a.drop p.toNat, b.take n ++ more, ?_, fun x hx => List.mem_of_mem_drop hx⟩
        rw [hn, List.take_length_add_append, List.take_succ_cons]
        simp
    | err w =>
      -- `write` returned -1: the cursor goes one byte back
      have hback := toNat_add_neg_one p
      have hfits : rest.toNat + 1 < 2 ^ 64 := by omega
      have hforth := toNat_add_one hfits
      have hstep := postLoop_err h hfits
      split_ifs at hback with hzero
      · -- an error on the first byte wraps the cursor, and nothing more is sent
        exact absurd (postLoop_under (by omega) hsize (by omega) (by omega) hstep) hret
      · exact ih (by omega) (by omega) (by omega) hstep hret

end PostLoop

/-! ### The rounds -/

/-- In a run that succeeded with a descriptor every send was through with its first 8192
bytes, and one of them went to that descriptor. -/
theorem fCon_marked {a b : List UInt8} {tmp : Block} {fTmp : Option (List UInt8)}
    (htmp : tmp = a ++ 0 :: b) (hlen : tmp.length ≤ 2 * pageSiz) {attempts : List Attempt}
    (hshort : ∀ t ∈ attempts, t.writes.length < 2 ^ 62) {f : Forwarding} {pfd : ℕ}
    (h : fCon tmp fTmp attempts = .ok f) (hfinal : f.final = some pfd) :
    (∀ e ∈ f.log, Marked a e.2) ∧ ∃ e ∈ f.log, e.1 = pfd := by
  induction attempts generalizing f with
  | nil =>
    rw [fCon] at h
    cases h
    cases hfinal
  | cons t attempts ih =>
    obtain ⟨r, hr, h⟩ := bind_eq_ok.mp h
    -- a round that goes on adds a marked send to the rounds behind it
    have hgo : ∀ {f' : Forwarding} {bytes : List UInt8}, Marked a bytes →
        fCon tmp fTmp attempts = .ok f' → f = { f' with log := (t.pfd, bytes) :: f'.log } →
        (∀ e ∈ f.log, Marked a e.2) ∧ ∃ e ∈ f.log, e.1 = pfd := by
      rintro f' bytes hbytes hf' rfl
      obtain ⟨hmarked, e, he, hpfd⟩ := ih (fun t ht => hshort t (by simp [ht])) hf' hfinal
      refine ⟨fun e he => ?_, e, by simp [he], hpfd⟩
      rcases List.mem_cons.mp he with rfl | he
      · exact hbytes
      · exact hmarked e he
    cases hret : r.ret with
    | none =>
      simp only [hret] at h
      cases h
      cases hfinal
    | some ret =>
      have hsize : (0 : UInt64).toNat + (8192 : UInt64).toNat = 2 * pageSiz := by decide
      have hmarked : Marked a r.sent := postLoop_marked htmp hlen (by decide)
        (hshort t (by simp)) (by simp) hsize hr (by rw [hret]; exact fun h => by cases h)
      simp only [hret] at h
      by_cases hneg : ret < 0
      · rw [if_pos hneg] at h
        obtain ⟨f', hf', h⟩ := bind_eq_ok.mp h
        cases h
        exact hgo hmarked hf' rfl
      · rw [if_neg hneg] at h
        obtain ⟨s, -, h⟩ := bind_eq_ok.mp h
        by_cases hfinished : s.finished = false
        · rw [if_pos hfinished] at h
          cases h
          cases hfinal
        · rw [if_neg hfinished] at h
          by_cases hagain : t.ret < 0
          · rw [if_pos hagain] at h
            obtain ⟨f', hf', h⟩ := bind_eq_ok.mp h
            cases h
            exact hgo hmarked.append hf' rfl
          · rw [if_neg hagain] at h
            cases h
            cases hfinal
            exact ⟨by simpa using hmarked.append, (t.pfd, r.sent ++ s.sent), by simp, rfl⟩

/-- What was sent to a descriptor begins with the first send to it. -/
theorem marked_sentTo {a : List UInt8} {pfd : ℕ} {log : List (ℕ × List UInt8)}
    (hmarked : ∀ e ∈ log, Marked a e.2) (hpfd : ∃ e ∈ log, e.1 = pfd) :
    Marked a (sentTo pfd log) := by
  induction log with
  | nil => simp at hpfd
  | cons e log ih =>
    by_cases he : e.1 = pfd
    · have hcons : sentTo pfd (e :: log) = e.2 ++ sentTo pfd log := by simp [sentTo, he]
      rw [hcons]
      exact (hmarked e (by simp)).append
    · have hcons : sentTo pfd (e :: log) = sentTo pfd log := by simp [sentTo, he]
      rw [hcons]
      refine ih (fun e he => hmarked e (by simp [he])) ?_
      obtain ⟨e', he', hpfd⟩ := hpfd
      rcases List.mem_cons.mp he' with rfl | he'
      · exact absurd hpfd he
      · exact ⟨e', he', hpfd⟩

namespace Received

variable (q : Received)

theorem exists_parsed :
    ∃ p t i, httpParser q.tmp = .ok p ∧ p.request = some t ∧ t.protocal = some i ∧ i + 8 ≤ q.h := by
  obtain ⟨n, hn, hle⟩ := q.parsed
  rw [protocalEnd] at hn
  cases hp : httpParser q.tmp with
  | error e =>
    rw [hp] at hn
    cases hn
  | ok p =>
    rw [hp] at hn
    obtain ⟨i, hi, rfl⟩ := Option.map_eq_some_iff.mp hn
    obtain ⟨t, ht, hti⟩ := Option.bind_eq_some_iff.mp hi
    exact ⟨p, t, i, rfl, ht, hti, hle⟩

theorem slash_notMem : ∀ m ∈ methodLst, slash ∉ m := by decide +kernel

/-- The text is split by its first word, tokenized behind it, and what was received has a
slash before any `'\0'`. -/
theorem exists_split :
    ∃ a rest y z, q.tokenized = a ++ 0 :: rest ∧ q.tokenized.length = q.tmp.length ∧
      slash ∉ a ∧ q.bytes = y ++ slash :: z ∧ (0 : UInt8) ∉ y := by
  obtain ⟨p, t, i, hp, ht, hi, hle⟩ := q.exists_parsed
  obtain ⟨ds, m, rest, rest', j, -, htext, hlength, hsp, hm, hj, y, z, htmp, hy, hy0⟩ :=
    exists_tokenized hp ht
  have hij : j = i := by
    rw [hi] at hj
    exact (Option.some.inj hj).symm
  have htokenized : q.tokenized = p.text := by rw [tokenized, hp]
  refine ⟨ds ++ m, rest', y, z.take (q.h - (y.length + 1)) ++ q.fTmp.getD [], ?_, ?_, ?_, ?_, hy0⟩
  · rw [htokenized, htext, List.append_assoc]
  · rw [htokenized, hlength]
  · intro hmem
    rcases List.mem_append.mp hmem with hds | hmem
    · have hslash := (hsp.skipped slash hds).2
      revert hslash
      decide
    · exact slash_notMem m hm hmem
  · have hh : q.h = y.length + ((q.h - (y.length + 1)) + 1) := by omega
    rw [bytes, htmp, hh, List.take_length_add_append, List.take_succ_cons]
    have hsub : y.length + (q.h - (y.length + 1) + 1) - (y.length + 1) = q.h - (y.length + 1) := by
      omega
    simp [hsub]

/-- Marked bytes are not the bytes received. -/
theorem ne_bytes_of_marked {a y z bytes : List UInt8} (ha : slash ∉ a) (hy : (0 : UInt8) ∉ y)
    (h : Marked a bytes) : bytes ≠ y ++ slash :: z := by
  obtain ⟨v, w, rfl, hv⟩ := h
  intro heq
  rcases List.append_eq_append_iff.mp heq with ⟨u, rfl, hu⟩ | ⟨u, rfl, hu⟩
  · cases u with
    | nil => exact absurd (List.cons.inj hu).1 (by decide)
    | cons c u =>
      obtain ⟨rfl, -⟩ := List.cons.inj hu
      exact hy (by simp)
  · cases u with
    | nil => exact absurd (List.cons.inj hu).1 (by decide)
    | cons c u =>
      obtain ⟨rfl, -⟩ := List.cons.inj hu
      exact ha (hv slash (by simp))

/-- Without an error the first 8192 bytes of the object go out, if they are there. -/
theorem postLoop_all (tmp : Block) (ws : List WriteRes) :
    postLoop tmp (.ok 8192 :: ws) 0 8192 =
      if 8192 ≤ tmp.length then
        .ok { sent := tmp.take 8192, left := ws, ret := some 0 }
      else .error .outOfBounds := by
  have hcur : (WriteRes.ok 8192).cur 8192 = 8192 := by decide
  have htaken : (WriteRes.ok 8192).taken 8192 = 8192 := by decide
  have hne : (8192 : UInt64) ≠ 0 := by decide
  rw [postLoop]
  simp only [hcur, htaken, taken, UInt64.toNat_zero, Nat.zero_add, List.drop_zero, hne,
    UInt64.not_lt_zero, UInt64.sub_self, if_true, if_false]
  rw [if_neg (by decide)]
  split_ifs <;> rfl

/-- A run without an error is wrong too: it faults on a missing spool file or on an object
shorter than 8192 bytes, and otherwise sends the tokenized text. -/
theorem exists_not_forwardedBy (pfd : ℕ) :
    ∃ ws, ¬q.ForwardedBy [{ pfd := pfd, writes := ws, ret := 0 }] := by
  obtain ⟨a, rest, y, z, htokenized, hlength, ha, hbytes, hy⟩ := q.exists_split
  obtain ⟨file, hfile⟩ : ∃ file, file = q.fTmp.getD [] := ⟨_, rfl⟩
  -- all the writes go through: the head in one piece, the body byte by byte
  refine ⟨.ok 8192 :: writes (List.replicate (pageHeads file).length 1), ?_⟩
  rintro ⟨f, hf, hfinal⟩
  rw [postToProxy, if_pos rfl, fCon, postLoop_all] at hf
  by_cases hlen : 8192 ≤ q.tokenized.length
  swap
  · rw [if_neg hlen] at hf
    cases hf
  rw [if_pos hlen] at hf
  have htake : q.tokenized.take 8192 = q.tokenized := by
    refine List.take_of_length_le ?_
    have := q.tmp_le
    simp only [pageSiz] at this
    omega
  rw [ok_bind, htake] at hf
  cases hspool : q.fTmp with
  | none =>
    rw [hspool] at hf
    cases hf
  | some content =>
    obtain rfl : file = content := by rw [hfile, hspool]; rfl
    obtain ⟨s, hs, -, -, hfinished⟩ :=
      streamLoop_writes file (List.replicate (pageHeads file).length 1)
    have hfinished' : s.finished = true := hfinished (by simp)
    simp only [hspool, streamToSocket, hs, ok_bind, hfinished', Int.lt_irrefl, if_false,
      Bool.true_eq_false, pure_eq_ok] at hf
    cases hf
    have hsent := hfinal pfd rfl
    -- the tokenizer left a `'\0'` in what is sent
    have hmarked : Marked a (q.tokenized ++ s.sent) :=
      Marked.append ⟨a, rest, htokenized, fun x hx => hx⟩
    have hne : q.tokenized ++ s.sent ≠ q.bytes := by
      rw [hbytes]
      exact ne_bytes_of_marked ha hy hmarked
    refine hne ?_
    rw [← hsent]
    simp [sentTo]

/-- **Forwarded requests are never the received ones.** For every request there are outcomes
of `write` for which the forwarding is wrong, and whenever the forwarding succeeds with a
descriptor, that descriptor was not sent the bytes received. -/
theorem not_forwarded : (¬∀ attempts, q.ForwardedBy attempts) ∧
    ∀ attempts : List Attempt, (∀ t ∈ attempts, t.writes.length < 2 ^ 62) →
      ∀ f pfd, postToProxy true q.tokenized q.fTmp attempts = .ok f → f.final = some pfd →
        sentTo pfd f.log ≠ q.bytes := by
  obtain ⟨a, rest, y, z, htokenized, hlength, ha, hbytes, hy⟩ := q.exists_split
  constructor
  · intro h
    obtain ⟨ws, hws⟩ := q.exists_not_forwardedBy 0
    exact hws (h _)
  · intro attempts hshort f pfd hf hfinal
    rw [hbytes]
    rw [postToProxy, if_pos rfl] at hf
    have hlen : q.tokenized.length ≤ 2 * pageSiz := by
      rw [hlength]
      exact q.tmp_le
    obtain ⟨hmarked, hpfd⟩ := fCon_marked htokenized hlen hshort hf hfinal
    exact ne_bytes_of_marked ha hy (marked_sentTo hmarked hpfd)

/-- `GET / HTTP/1.1` with a header line, in a zeroed object of 8192 bytes. -/
def getRequest : Received where
  tmp := ascii "GET / HTTP/1.1\r\nA:b\r\n\r\n" ++ List.replicate 8169 0
  h := 23
  fTmp := none
  tmp_le := by decide +kernel
  h_le := by decide +kernel
  parsed := ⟨14, by decide +kernel, by decide⟩

/-- This request is not forwarded right with the first descriptor. -/
theorem not_forwarded_getRequest :
    ¬∀ ws, getRequest.ForwardedBy [{ pfd := 4, writes := ws, ret := 0 }] := by
  intro h
  obtain ⟨ws, hws⟩ := getRequest.exists_not_forwardedBy 4
  exact hws (h ws)

end Received

end Lidas
