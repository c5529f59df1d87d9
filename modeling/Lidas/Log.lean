import Lidas.Memory.Pages
import Mathlib.Data.List.Nodup

/-!
# The log of a connection

`log.c` keeps the log of a connection in its pool: a header text and a list of cells, the last of
which is allocated but not filled. `err_log` and `proxy_post_log` fill it and append another one;
`buf_log_destroy` writes the texts to the log file in their order.

The list is kept as it should be, so the messages are written in their order as long as
`mem_pool_alloc` returns. But the sizes that are requested for the texts are too small, all of them
(`forall_inside_iff`), so that what is requested next is laid over the end of a text
(`overlaps_text`). Behind the header text this is the `buf_log_h`, whose first field `content` takes
the place of the terminator: `strlen (h->content)` goes on through the bytes of that pointer, and
ends in front of them only if the lowest one is 0. The trailer is written with a length of 25, two
more than it has. So the log is never right, and it is right up to the trailer if the requests fit
the page and the header text is at a multiple of 256 (`writesLog_iff`).

The texts of messages are taken as they were formatted. `proxy_post_log` leaves out the descriptor
in its first call of `mem_pool_alloc`; it is taken to be that of the connection.
-/

namespace Lidas

open CString

/-- `sizeof (struct buf_log_t)`: two pointers. -/
def sizeofBufLogT : ℕ := 16

/-- `sizeof (struct buf_log_h)`: three pointers. -/
def sizeofBufLogH : ℕ := 24

/-- The string `header` of `buf_log_init`. -/
def logHeader : List UInt8 :=
  ascii ("===========================================" ++
    "===========================================\n")

/-- A call of `err_log` or of `proxy_post_log`. -/
inductive LogMessage where
  | errLog (str : List UInt8)
  | proxyPostLog (url ip : List UInt8)

namespace LogMessage

/-- The size requested for the text. -/
def size : LogMessage → ℕ
  | errLog str => str.length + 9
  | proxyPostLog url ip => url.length + ip.length + 10

/-- The text that `sprintf` writes, without its terminator. -/
def text : LogMessage → List UInt8
  | errLog str => ascii "Waring: " ++ str ++ ascii "\n"
  | proxyPostLog url ip => url ++ ascii " has been ported to proxy " ++ ip

/-- What `err_log` and `proxy_post_log` take from the pool: the text, and a cell that is requested
with the size of a header. -/
def takePool (m : LogMessage) (pool : MemPool) : Except Fault MemPool := do
  let (_, pool) ← memPoolAlloc m.size pool
  let (_, pool) ← memPoolAlloc sizeofBufLogH pool
  return pool

end LogMessage

/-- What `err_log` leaves of the pool of a connection; `log` says that it has a log. -/
def errLogPool (log : Bool) (str : List UInt8) (pool : MemPool) : Except Fault MemPool :=
  if log then (LogMessage.errLog str).takePool pool else .ok pool

/-- A call that writes a text into the pool of a connection. -/
inductive LogCall where
  | bufLogInit (addr time : List UInt8)
  | message (m : LogMessage)

namespace LogCall

/-- The size requested for the text. -/
def size : LogCall → ℕ
  | bufLogInit addr time => time.length + addr.length + logHeader.length + 10
  | message m => m.size

/-- The text that `sprintf` writes, without its terminator. -/
def text : LogCall → List UInt8
  | bufLogInit addr time =>
    logHeader ++ ascii "Client:" ++ addr ++ ascii "[" ++ time ++ ascii "]\n"
  | message m => m.text

end LogCall

/-- `struct buf_log_t`, with the text that `content` points to; `none` for a field not set yet. -/
structure BufLogT where
  content : Option (List UInt8)
  next : Option PoolPtr

/-- A cell as `mem_pool_alloc` returns it. -/
def BufLogT.unset : BufLogT := ⟨none, none⟩

/-- `struct buf_log_h`. -/
structure BufLogH where
  content : PoolPtr
  head : PoolPtr
  tail : PoolPtr

/-- The bytes of a pointer, the lowest one first. -/
def pointerBytes (a : ℕ) : Block := (List.range 8).map fun i => UInt8.ofNat (a / 256 ^ i)

/-- The bytes of a `buf_log_h`, for the addresses of what is in the pool. -/
def BufLogH.bytes (h : BufLogH) (address : PoolPtr → ℕ) : Block :=
  pointerBytes (address h.content) ++ pointerBytes (address h.head) ++ pointerBytes (address h.tail)

/-- The pool of a connection and its log, which is at `self`. `text` is what was formatted at its
`content`, without the terminator. -/
structure ConnLog where
  pool : MemPool
  cells : PoolPtr → BufLogT
  text : List UInt8
  self : PoolPtr
  log : BufLogH

/-- `buf_log_init`, for the strings that `inet_ntoa` and `getime` give. -/
def bufLogInit (addr time : List UInt8) (pool : MemPool) : Except Fault ConnLog := do
  let (content, pool) ← memPoolAlloc (LogCall.bufLogInit addr time).size pool
  let (self, pool) ← memPoolAlloc sizeofBufLogH pool
  let (head, pool) ← memPoolAlloc sizeofBufLogT pool
  return { pool := pool, cells := fun _ => BufLogT.unset,
           text := (LogCall.bufLogInit addr time).text, self := self, log := ⟨content, head, head⟩ }

namespace ConnLog

/-- `err_log` and `proxy_post_log`. -/
def append (s : ConnLog) (m : LogMessage) : Except Fault ConnLog := do
  let (_, pool) ← memPoolAlloc m.size s.pool
  -- the cell is requested with the size of a header
  let (new, pool) ← memPoolAlloc sizeofBufLogH pool
  let cells := Function.update s.cells s.log.tail ⟨some m.text, some new⟩
  return { s with
    pool := pool, cells := Function.update cells new BufLogT.unset,
    log := { s.log with tail := new } }

/-- A message takes from the pool what `takePool` says. -/
theorem pool_append (s : ConnLog) (m : LogMessage) :
    (s.append m).map ConnLog.pool = m.takePool s.pool := by
  rw [append, LogMessage.takePool]
  cases memPoolAlloc m.size s.pool with
  | error e => rfl
  | ok r =>
    obtain ⟨_, pool⟩ := r
    rw [ok_bind, ok_bind]
    dsimp only
    cases memPoolAlloc sizeofBufLogH pool <;> rfl

/-- Calls of `err_log` and of `proxy_post_log`, one after the other. -/
def appends : List LogMessage → ConnLog → Except Fault ConnLog
  | [], s => .ok s
  | m :: ms, s => do appends ms (← s.append m)

end ConnLog

/-- What `lock_reg` and the calls of `write` come to: whether the lock is granted, and whether the
`n`-th call succeeds. -/
structure LogIo where
  granted : Bool
  written : ℕ → Bool

/-- The lock is granted, and every write succeeds. -/
def LogIo.good : LogIo := ⟨true, fun _ => true⟩

/-- The trailer. -/
def logTrailer : List UInt8 := ascii "DISCONNECTED==========="

/-- The 25 bytes written last: the trailer, its terminator and the byte behind the literal. -/
def lastWrite (after : UInt8) : List UInt8 := logTrailer ++ [0, after]

/-- A field that is used, and has to be set. -/
def BufLogT.field {β : Type} : Option β → Except Fault β
  | none => .error .nullDeref
  | some b => .ok b

namespace ConnLog

/-- The loop of `buf_log_destroy`, of no more than the given number of rounds: the texts written,
and whether the loop came to its end. -/
def drain (s : ConnLog) (io : LogIo) : ℕ → ℕ → PoolPtr → Except Fault (List (List UInt8) × Bool)
  | 0, _, _ => .error .diverges
  | fuel + 1, n, head =>
    if head = s.log.tail then .ok ([], true)
    else do
      let content ← BufLogT.field (s.cells head).content
      if !io.written n then
        return ([], false)
      let next ← BufLogT.field (s.cells head).next
      let (texts, done) ← drain s io fuel (n + 1) next
      return (content :: texts, done)

/-- The bytes from `content` on. The log may be laid over the terminator of the text. -/
def header (s : ConnLog) (address : PoolPtr → ℕ) : Block :=
  if Overlaps (s.log.content, s.text.length + 1) (s.self, sizeofBufLogH) then
    s.text ++ s.log.bytes address
  else s.text ++ [0]

/-- `buf_log_destroy`: what is written to the log file. -/
def bufLogDestroy (s : ConnLog) (address : PoolPtr → ℕ) (io : LogIo) (after : UInt8) (fuel : ℕ) :
    Except Fault (List (List UInt8)) :=
  if !io.granted then .ok []
  else do
    let content ← cstr (s.header address) 0
    if !io.written 0 then
      return []
    let (texts, done) ← s.drain io fuel 1 s.log.head
    if done && io.written (texts.length + 1) then
      return content :: (texts ++ [lastWrite after])
    else
      return content :: texts

end ConnLog

/-! ### The list of cells -/

namespace PoolPtr

/-- The pointer is to a byte of the only page, below the given offset. -/
def Below (n : ℕ) : PoolPtr → Prop
  | .page i off => i = 0 ∧ off < n
  | .large _ => False

/-- What is below an offset is below a larger one. -/
theorem Below.mono {n n' : ℕ} (hn : n ≤ n') : ∀ {p : PoolPtr}, p.Below n → p.Below n'
  | .page _ _, ⟨hi, hoff⟩ => ⟨hi, lt_of_lt_of_le hoff hn⟩

/-- The offset itself is not below it. -/
theorem Below.ne {n : ℕ} {p : PoolPtr} (h : p.Below n) : p ≠ .page 0 n := by
  rintro rfl
  exact lt_irrefl _ h.2

end PoolPtr

/-- The cells from `p` on to the cell `t` have the given texts; `qs` are their addresses. -/
def FilledFrom (cells : PoolPtr → BufLogT) (t : PoolPtr) :
    List PoolPtr → List (List UInt8) → PoolPtr → Prop
  | [], [], p => p = t
  | q :: qs, x :: xs, p => p = q ∧ ∃ r, cells q = ⟨some x, some r⟩ ∧ FilledFrom cells t qs xs r
  | _, _, _ => False

section FilledFrom

variable {cells cells' : PoolPtr → BufLogT} {t : PoolPtr}

/-- The chain stays when none of its cells is written. -/
theorem FilledFrom.congr : ∀ {qs : List PoolPtr} {xs : List (List UInt8)} {p : PoolPtr},
    FilledFrom cells t qs xs p → (∀ q ∈ qs, cells' q = cells q) → FilledFrom cells' t qs xs p
  | [], [], _, h, _ => h
  | q :: _, _ :: _, _, ⟨hp, r, hr, hrest⟩, hsame =>
    ⟨hp, r, (hsame q List.mem_cons_self).trans hr,
      hrest.congr fun q hq => hsame q (List.mem_cons_of_mem _ hq)⟩

/-- The last cell is filled, and linked to another one. -/
theorem FilledFrom.snoc {x : List UInt8} {c : PoolPtr} (ht : cells t = ⟨some x, some c⟩) :
    ∀ {qs : List PoolPtr} {xs : List (List UInt8)} {p : PoolPtr},
      FilledFrom cells t qs xs p → FilledFrom cells c (qs ++ [t]) (xs ++ [x]) p
  | [], [], _, h => ⟨h, c, ht, rfl⟩
  | _ :: _, _ :: _, _, ⟨hp, r, hr, hrest⟩ => ⟨hp, r, hr, hrest.snoc ht⟩

end FilledFrom

section Alloc

variable {p : MemPool} {mem : Block} {used : ℕ}

/-- A request that is served has fitted the page. -/
theorem pages_of_memPoolAlloc {size : ℕ} {ret : PoolPtr × MemPool}
    (hp : p.pages = [⟨sizeofMemPoolHead + used, mem⟩]) (hused : used ≤ poolSiz)
    (h : memPoolAlloc size p = .ok ret) :
    used + Pages.Request.cost ⟨size, 0⟩ ≤ poolSiz ∧
      ret.2.pages = [⟨sizeofMemPoolHead + (used + Pages.Request.cost ⟨size, 0⟩), mem⟩] := by
  have hfits : used + Pages.Request.cost ⟨size, 0⟩ ≤ poolSiz := by
    by_contra hfull
    exact Pages.pool_memPoolAlloc_of_lt hp (r := ⟨size, 0⟩) hused (not_le.mp hfull) ret h
  obtain ⟨ptr, p', halloc, hp'⟩ := Pages.pool_memPoolAlloc_of_le hp (r := ⟨size, 0⟩) hfits
  obtain rfl := Except.ok.inj (halloc.symm.trans h)
  exact ⟨hfits, hp'⟩

end Alloc

/-- What a message requests of the pool. -/
def LogMessage.requests (m : LogMessage) : List Pages.Request :=
  [⟨m.size, 0⟩, ⟨sizeofBufLogH, 0⟩]

namespace ConnLog

/-- The log has the given texts, the first of them at `off` with the log right behind it, and
`used` bytes of its page are taken. -/
structure Has (s : ConnLog) (off used : ℕ) (text : List UInt8) (qs : List PoolPtr)
    (xs : List (List UInt8)) : Prop where
  page : ∃ mem, s.pool.pages = [⟨sizeofMemPoolHead + used, mem⟩]
  used_le : used ≤ poolSiz
  text_eq : s.text = text
  content_eq : s.log.content = .page 0 off
  self_eq : s.self = .page 0 (off + text.length)
  filled : FilledFrom s.cells s.log.tail qs xs s.log.head
  nodup : (s.log.tail :: qs).Nodup
  below : ∀ q ∈ s.log.tail :: qs, q.Below (sizeofMemPoolHead + used)

variable {s : ConnLog} {off used : ℕ} {text : List UInt8} {qs : List PoolPtr} {p : PoolPtr}
  {xs : List (List UInt8)}

/-- The tail is filled with a text and a cell behind all that was taken becomes the tail. -/
theorem Has.extend (h : s.Has off used text qs xs) (pool : MemPool) {mem : Block} {used' : ℕ}
    (hpage : pool.pages = [⟨sizeofMemPoolHead + (used' + sizeofBufLogH), mem⟩])
    (hle : used ≤ used') (hfits : used' + sizeofBufLogH ≤ poolSiz) (x : List UInt8) :
    let new := PoolPtr.page 0 (sizeofMemPoolHead + used')
    let cells := Function.update s.cells s.log.tail ⟨some x, some new⟩
    Has { s with
        pool := pool, cells := Function.update cells new BufLogT.unset,
        log := { s.log with tail := new } } off (used' + sizeofBufLogH) text (qs ++ [s.log.tail])
      (xs ++ [x]) := by
  intro new cells
  have hne : ∀ q ∈ s.log.tail :: qs, q ≠ new := fun q hq =>
    ((h.below q hq).mono (Nat.add_le_add_left hle _)).ne
  refine ⟨⟨mem, hpage⟩, hfits, h.text_eq, h.content_eq, h.self_eq, ?_, ?_, ?_⟩
  · have htail : cells s.log.tail = ⟨some x, some new⟩ := Function.update_self ..
    have hfilled : FilledFrom cells s.log.tail qs xs s.log.head :=
      h.filled.congr fun q hq =>
        Function.update_of_ne (ne_of_mem_of_not_mem hq (List.nodup_cons.mp h.nodup).1) _ _
    refine (hfilled.snoc htail).congr fun q hq => Function.update_of_ne (hne q ?_) _ _
    simpa [or_comm] using hq
  · have hnodup : (qs ++ [s.log.tail]).Nodup := by
      exact List.nodup_append_comm.mp h.nodup
    refine List.nodup_cons.mpr ⟨fun hmem => hne new ?_ rfl, hnodup⟩
    simpa [or_comm] using hmem
  · intro q hq
    rcases List.mem_cons.mp hq with rfl | hq
    · exact ⟨rfl, Nat.add_lt_add_left (Nat.lt_add_of_pos_right (by decide)) _⟩
    · refine (h.below q ?_).mono (Nat.add_le_add_left (hle.trans (Nat.le_add_right _ _)) _)
      simpa [or_comm] using hq

/-- A message takes its text and the next cell. -/
theorem cost_requests (m : LogMessage) :
    Pages.cost m.requests = Pages.Request.cost ⟨m.size, 0⟩ + sizeofBufLogH := by
  simp only [LogMessage.requests, Pages.cost_cons]
  rfl

/-- A message for which the page has room is appended. -/
theorem Has.append_of_le (h : s.Has off used text qs xs) {m : LogMessage}
    (hfits : used + Pages.cost m.requests ≤ poolSiz) :
    ∃ s' qs', s.append m = .ok s' ∧
      s'.Has off (used + Pages.cost m.requests) text qs' (xs ++ [m.text]) := by
  obtain ⟨mem, hpage⟩ := h.page
  rw [cost_requests, ← Nat.add_assoc] at hfits ⊢
  obtain ⟨ptr, pool, halloc, hpool⟩ := Pages.pool_memPoolAlloc_of_le hpage
    (r := ⟨m.size, 0⟩) (le_trans (Nat.le_add_right _ _) hfits)
  have hcell := memPoolAlloc_page _ hpool hfits
  refine ⟨_, _, ?_, h.extend { pool with pages := [⟨_, mem⟩] } rfl
    (Nat.le_add_right _ _) hfits m.text⟩
  rw [append, halloc, ok_bind]
  dsimp only
  rw [hcell]
  rfl

theorem Has.append_of_lt (h : s.Has off used text qs xs) {m : LogMessage}
    (hfull : poolSiz < used + Pages.cost m.requests) (s' : ConnLog) : s.append m ≠ .ok s' := by
  obtain ⟨mem, hpage⟩ := h.page
  rw [cost_requests, ← Nat.add_assoc] at hfull
  intro heq
  obtain ⟨⟨ptr, pool⟩, halloc, heq⟩ := bind_eq_ok.mp heq
  obtain ⟨ret, hcell, -⟩ := bind_eq_ok.mp heq
  obtain ⟨hfits, hpool⟩ := pages_of_memPoolAlloc hpage h.used_le halloc
  exact not_lt.mpr (pages_of_memPoolAlloc hpool hfits hcell).1 hfull

/-- What messages request of the pool. -/
def requests (ms : List LogMessage) : List Pages.Request := ms.flatMap LogMessage.requests

/-- The bytes that messages take add up. -/
theorem cost_requests_cons (m : LogMessage) (ms : List LogMessage) :
    Pages.cost (requests (m :: ms)) = Pages.cost m.requests + Pages.cost (requests ms) := by
  simp [requests, Pages.cost]

/-- Messages for which the page has room are appended, one after the other. -/
theorem Has.appends_of_le (h : s.Has off used text qs xs) {ms : List LogMessage}
    (hfits : used + Pages.cost (requests ms) ≤ poolSiz) :
    ∃ s' used' qs', appends ms s = .ok s' ∧
      s'.Has off used' text qs' (xs ++ ms.map LogMessage.text) := by
  induction ms generalizing s used qs xs with
  | nil => exact ⟨s, used, qs, rfl, by simpa using h⟩
  | cons m ms ih =>
    rw [cost_requests_cons, ← Nat.add_assoc] at hfits
    obtain ⟨s', qs', happend, h'⟩ := h.append_of_le (le_trans (Nat.le_add_right _ _) hfits)
    obtain ⟨s'', used'', qs'', happends, h''⟩ := ih h' hfits
    refine ⟨s'', used'', qs'', ?_, ?_⟩
    · rw [appends, happend, ok_bind, happends]
    · rwa [List.append_assoc] at h''

/-- If the page has not room for all of them, one of the calls does not return. -/
theorem Has.appends_of_lt (h : s.Has off used text qs xs) {ms : List LogMessage}
    (hfull : poolSiz < used + Pages.cost (requests ms)) (s' : ConnLog) :
    appends ms s ≠ .ok s' := by
  induction ms generalizing s used qs xs with
  | nil => exact absurd h.used_le (not_le.mpr hfull)
  | cons m ms ih =>
    rw [cost_requests_cons, ← Nat.add_assoc] at hfull
    intro heq
    obtain ⟨s₁, happend, happends⟩ := bind_eq_ok.mp heq
    by_cases hfits : used + Pages.cost m.requests ≤ poolSiz
    · obtain ⟨s₂, qs', happend', h'⟩ := h.append_of_le hfits
      obtain rfl := Except.ok.inj (happend'.symm.trans happend)
      exact ih h' hfull happends
    · exact h.append_of_lt (not_le.mp hfits) _ happend

/-- The loop writes the texts of all filled cells. -/
theorem drain_eq (h : FilledFrom s.cells s.log.tail qs xs p) (htail : s.log.tail ∉ qs) (n : ℕ) :
    s.drain LogIo.good (qs.length + 1) n p = .ok (xs, true) := by
  induction qs generalizing xs p n with
  | nil =>
    cases xs with
    | nil =>
      obtain rfl : p = s.log.tail := h
      rw [List.length_nil, drain, if_pos rfl]
    | cons x xs => exact h.elim
  | cons q qs ih =>
    cases xs with
    | nil => exact h.elim
    | cons x xs =>
      obtain ⟨rfl, r, hcell, hrest⟩ := h
      have hne : p ≠ s.log.tail := fun heq => htail (heq ▸ List.mem_cons_self)
      rw [List.length_cons, drain, if_neg hne, hcell]
      simp only [BufLogT.field, ok_bind, LogIo.good, Bool.not_true, Bool.false_eq_true, if_false]
      have hrec := ih hrest (fun hmem => htail (List.mem_cons_of_mem _ hmem)) (n + 1)
      rw [LogIo.good] at hrec
      rw [hrec, ok_bind]
      rfl

/-- The bytes of the header: its text, over which `content` may lie. -/
theorem Has.header_eq (h : s.Has off used text qs xs) (address : PoolPtr → ℕ) :
    s.header address = text ++ s.log.bytes address := by
  rw [header, h.text_eq, h.content_eq, h.self_eq, if_pos]
  exact ⟨rfl, by rw [sizeofBufLogH]; omega, by omega⟩

/-- The header text ends where it should if the lowest byte of its address is 0. -/
theorem Has.cstr_header_iff (h : s.Has off used text qs xs) (h0 : (0 : UInt8) ∉ text)
    (address : PoolPtr → ℕ) :
    cstr (s.header address) 0 = .ok text ↔ address (.page 0 off) % 256 = 0 := by
  obtain ⟨bytes, hbytes⟩ : ∃ bytes, s.log.bytes address =
      UInt8.ofNat (address (.page 0 off)) :: bytes := by
    rw [BufLogH.bytes, h.content_eq, pointerBytes, List.range_succ_eq_map, List.map_cons,
      Nat.pow_zero, Nat.div_one]
    exact ⟨_, rfl⟩
  have hzero : UInt8.ofNat (address (.page 0 off)) = 0 ↔ address (.page 0 off) % 256 = 0 := by
    rw [← UInt8.toNat_inj, UInt8.toNat_ofNat', UInt8.toNat_zero]
  rw [h.header_eq, hbytes, ← hzero]
  constructor
  · intro hcstr
    obtain ⟨pre, r, heq, hpre, -⟩ := exists_of_cstr hcstr
    rw [List.length_eq_zero_iff.mp hpre, List.nil_append, List.append_cancel_left_eq] at heq
    exact (List.cons.inj heq).1
  · intro hlow
    rw [hlow]
    exact @cstr_append [] text bytes h0

/-- The loop of texts that are all written comes to its end. -/
theorem drain_done {fuel n : ℕ} {texts : List (List UInt8)} {done : Bool}
    (h : s.drain LogIo.good fuel n p = .ok (texts, done)) : done = true := by
  induction fuel generalizing n p texts done with
  | zero => cases h
  | succ fuel ih =>
    rw [drain] at h
    by_cases htail : p = s.log.tail
    · rw [if_pos htail] at h
      exact (Prod.mk.inj (Except.ok.inj h)).2.symm
    · rw [if_neg htail] at h
      obtain ⟨content, -, h⟩ := bind_eq_ok.mp h
      rw [if_neg (by simp [LogIo.good])] at h
      obtain ⟨next, -, h⟩ := bind_eq_ok.mp h
      obtain ⟨⟨texts', done'⟩, hrest, h⟩ := bind_eq_ok.mp h
      obtain ⟨-, rfl⟩ := Prod.mk.inj (Except.ok.inj h)
      exact ih hrest

/-- What is written begins with the string at `content`, and ends with 25 bytes. -/
theorem bufLogDestroy_ok {address : PoolPtr → ℕ} {after : UInt8} {fuel : ℕ}
    {texts : List (List UInt8)} (h : s.bufLogDestroy address LogIo.good after fuel = .ok texts) :
    ∃ content rest, cstr (s.header address) 0 = .ok content ∧
      texts = content :: (rest ++ [lastWrite after]) := by
  rw [ConnLog.bufLogDestroy, if_neg (by simp [LogIo.good])] at h
  obtain ⟨content, hcontent, h⟩ := bind_eq_ok.mp h
  rw [if_neg (by simp [LogIo.good])] at h
  obtain ⟨⟨rest, done⟩, hdrain, h⟩ := bind_eq_ok.mp h
  obtain rfl := drain_done hdrain
  exact ⟨content, rest, hcontent, (Except.ok.inj h).symm⟩

/-- What is written if all goes well: the header as far as its terminator, the texts and the
trailer. -/
theorem Has.bufLogDestroy (h : s.Has off used text qs xs) (address : PoolPtr → ℕ)
    (after : UInt8) : s.bufLogDestroy address LogIo.good after (qs.length + 1) =
      (cstr (s.header address) 0).map fun content => content :: (xs ++ [lastWrite after]) := by
  have hdrain := drain_eq h.filled (List.nodup_cons.mp h.nodup).1 1
  rw [ConnLog.bufLogDestroy, if_neg (by simp [LogIo.good])]
  cases cstr (s.header address) 0 with
  | error e => rfl
  | ok content =>
    rw [ok_bind, hdrain]
    rfl

end ConnLog

/-! ### Ordered logs -/

/-- A log as `buf_log_init` has set it up, in a pool of one page of which `used` bytes were taken
before. The page is at `base`. -/
structure NewLog where
  pool : MemPool
  used : ℕ
  mem : Block
  page : pool.pages = [⟨sizeofMemPoolHead + used, mem⟩]
  used_le : used ≤ poolSiz
  base : ℕ
  address : PoolPtr → ℕ
  address_page : ∀ off, address (.page 0 off) = base + off
  /-- what `inet_ntoa` gives -/
  addr : List UInt8
  addr_le : addr.length ≤ 15
  addr_noNul : (0 : UInt8) ∉ addr
  /-- what `fgets` leaves in a buffer of 30 bytes -/
  time : List UInt8
  time_le : time.length ≤ 29
  time_noNul : (0 : UInt8) ∉ time
  conn : ConnLog
  init : bufLogInit addr time pool = .ok conn

namespace NewLog

/-- What `buf_log_destroy` is to write first. -/
def header (l : NewLog) : List UInt8 := (LogCall.bufLogInit l.addr l.time).text

/-- The calls return, and `buf_log_destroy` writes the header, the messages in their order and one
more text. -/
def WritesWith (l : NewLog) (ms : List LogMessage) (after : UInt8) (last : List UInt8) : Prop :=
  ∃ s fuel, ConnLog.appends ms l.conn = .ok s ∧
    s.bufLogDestroy l.address LogIo.good after fuel =
      .ok (l.header :: (ms.map LogMessage.text ++ [last]))

/-- The log is written in order, with the trailer behind it. -/
def WritesLog (l : NewLog) (ms : List LogMessage) (after : UInt8) : Prop :=
  l.WritesWith ms after logTrailer

/-- The log is written in order, whatever is written in the place of the trailer. -/
def WritesUpToTrailer (l : NewLog) (ms : List LogMessage) (after : UInt8) : Prop :=
  ∃ last, l.WritesWith ms after last

end NewLog

/-- What `buf_log_init` requests of the pool. -/
def initRequests (addr time : List UInt8) : List Pages.Request :=
  [⟨(LogCall.bufLogInit addr time).size, 0⟩, ⟨sizeofBufLogH, 0⟩, ⟨sizeofBufLogT, 0⟩]

namespace NewLog

/-- All that is requested of the pool fits its page. -/
def Fits (l : NewLog) (ms : List LogMessage) : Prop :=
  l.used + Pages.cost (initRequests l.addr l.time) + Pages.cost (ConnLog.requests ms) ≤ poolSiz

instance (l : NewLog) (ms : List LogMessage) : Decidable (l.Fits ms) :=
  inferInstanceAs (Decidable (_ ≤ _))

/-- No byte of a header's text ends it before its end. -/
theorem header_noNul (l : NewLog) : (0 : UInt8) ∉ l.header := by
  have hliterals : (0 : UInt8) ∉ logHeader ∧ (0 : UInt8) ∉ ascii "Client:" ∧
      (0 : UInt8) ∉ ascii "[" ∧ (0 : UInt8) ∉ ascii "]\n" := by decide
  obtain ⟨hheader, hclient, hopen, hclose⟩ := hliterals
  simp only [header, LogCall.text, List.mem_append, not_or]
  exact ⟨⟨⟨⟨⟨hheader, hclient⟩, l.addr_noNul⟩, hopen⟩, l.time_noNul⟩, hclose⟩

/-- The size requested for the header text is that of the text without its terminator. -/
theorem size_header (l : NewLog) :
    (LogCall.bufLogInit l.addr l.time).size = l.header.length ∧ l.header.length ≤ poolSiz := by
  have hliterals : logHeader.length = 87 ∧ (ascii "Client:").length = 7 ∧
      (ascii "[").length = 1 ∧ (ascii "]\n").length = 2 := by decide
  have haddr := l.addr_le
  have htime := l.time_le
  have hpool : poolSiz = 4056 := rfl
  simp only [header, LogCall.size, LogCall.text, List.length_append]
  omega

/-- The list has its one cell, which is not filled. -/
theorem has (l : NewLog) :
    l.conn.Has (sizeofMemPoolHead + l.used) (l.used + Pages.cost (initRequests l.addr l.time))
      l.header [] [] := by
  obtain ⟨hsize, hle⟩ := l.size_header
  obtain ⟨⟨content, pool⟩, htext, heq⟩ := bind_eq_ok.mp l.init
  obtain ⟨⟨self, pool'⟩, hlog, heq⟩ := bind_eq_ok.mp heq
  obtain ⟨⟨head, pool''⟩, hcell, heq⟩ := bind_eq_ok.mp heq
  have hcost : Pages.Request.cost ⟨(LogCall.bufLogInit l.addr l.time).size, 0⟩ =
      l.header.length := by
    have hpage : ¬Pages.Request.Large ⟨(LogCall.bufLogInit l.addr l.time).size, 0⟩ := by
      rw [Pages.Request.Large, hsize]
      exact not_lt.mpr hle
    rw [Pages.Request.cost, if_neg hpage, hsize]
  obtain ⟨hfits, hpool⟩ := pages_of_memPoolAlloc l.page l.used_le htext
  obtain ⟨hfits', hpool'⟩ := pages_of_memPoolAlloc hpool hfits hlog
  obtain ⟨hfits'', hpool''⟩ := pages_of_memPoolAlloc hpool' hfits' hcell
  have hused : l.used + Pages.cost (initRequests l.addr l.time) =
      l.used + Pages.Request.cost ⟨(LogCall.bufLogInit l.addr l.time).size, 0⟩ +
        Pages.Request.cost ⟨sizeofBufLogH, 0⟩ + Pages.Request.cost ⟨sizeofBufLogT, 0⟩ := by
    simp only [initRequests, Pages.cost_cons, Nat.add_assoc]
    rfl
  have hcontent := memPoolAlloc_page (LogCall.bufLogInit l.addr l.time).size l.page
    (by rw [hsize, ← hcost]; exact hfits)
  have hself := memPoolAlloc_page sizeofBufLogH hpool hfits'
  have halloc := memPoolAlloc_page sizeofBufLogT hpool' hfits''
  obtain ⟨rfl, -⟩ := Prod.mk.inj (Except.ok.inj (htext.symm.trans hcontent))
  obtain ⟨rfl, -⟩ := Prod.mk.inj (Except.ok.inj (hlog.symm.trans hself))
  obtain ⟨rfl, -⟩ := Prod.mk.inj (Except.ok.inj (hcell.symm.trans halloc))
  rw [hused, ← Except.ok.inj heq]
  refine ⟨⟨l.mem, hpool''⟩, hfits'', rfl, rfl, ?_, rfl, List.nodup_singleton _, ?_⟩
  · dsimp only
    rw [hcost, Nat.add_assoc]
  · rintro q hq
    obtain rfl := List.mem_singleton.mp hq
    exact ⟨rfl, Nat.add_lt_add_left (Nat.lt_add_of_pos_right (by decide)) _⟩

/-- The messages are logged if their requests fit the page, and not otherwise. -/
theorem appends_iff (l : NewLog) (ms : List LogMessage) :
    (∃ s, ConnLog.appends ms l.conn = .ok s) ↔ l.Fits ms := by
  constructor
  · rintro ⟨s, happends⟩
    by_contra hfull
    exact l.has.appends_of_lt (not_le.mp hfull) s happends
  · intro hfits
    obtain ⟨s, -, -, happends, -⟩ := l.has.appends_of_le hfits
    exact ⟨s, happends⟩

/-- What is written behind the messages is longer than the trailer. -/
theorem WritesWith.last_eq {l : NewLog} {ms : List LogMessage} {after : UInt8} {last : List UInt8}
    (h : l.WritesWith ms after last) : last = lastWrite after := by
  obtain ⟨s, fuel, -, hdestroy⟩ := h
  obtain ⟨content, rest, -, heq⟩ := ConnLog.bufLogDestroy_ok hdestroy
  exact List.singleton_inj.mp (List.append_inj_right' (List.cons.inj heq).2 rfl)

/-- What is written last is longer than the trailer. -/
theorem lastWrite_ne (after : UInt8) : logTrailer ≠ lastWrite after := fun heq => by
  have hlength := congrArg List.length heq
  rw [lastWrite, List.length_append] at hlength
  exact absurd hlength (by simp)

/-- **The log is never right.** Its trailer is written with two bytes that are not part of it. Up to
the trailer it is right if the pool has room for the requests and the header text is where the
lowest byte of its address is 0. -/
theorem writesLog_iff (l : NewLog) (ms : List LogMessage) (after : UInt8) :
    ¬l.WritesLog ms after ∧ (l.WritesUpToTrailer ms after ↔
      l.Fits ms ∧ (l.base + (sizeofMemPoolHead + l.used)) % 256 = 0) := by
  refine ⟨fun h => lastWrite_ne after h.last_eq, ?_⟩
  constructor
  · rintro ⟨last, s, fuel, happends, hdestroy⟩
    have hfits := (l.appends_iff ms).mp ⟨s, happends⟩
    obtain ⟨s', used, qs, happends', hs⟩ := l.has.appends_of_le hfits
    obtain rfl := Except.ok.inj (happends.symm.trans happends')
    obtain ⟨content, rest, hcontent, heq⟩ := ConnLog.bufLogDestroy_ok hdestroy
    rw [← (List.cons.inj heq).1, hs.cstr_header_iff l.header_noNul, l.address_page] at hcontent
    exact ⟨hfits, hcontent⟩
  · rintro ⟨hfits, hlow⟩
    obtain ⟨s, used, qs, happends, hs⟩ := l.has.appends_of_le hfits
    rw [← l.address_page, ← hs.cstr_header_iff l.header_noNul] at hlow
    refine ⟨lastWrite after, s, _, happends, (hs.bufLogDestroy l.address after).trans ?_⟩
    rw [hlow]
    rfl

/-- The addresses in a page at `base`. -/
def addressIn (base : ℕ) : PoolPtr → ℕ
  | .page _ off => base + off
  | .large i => i

theorem loopback_ok : (ascii "127.0.0.1").length ≤ 15 ∧ (0 : UInt8) ∉ ascii "127.0.0.1" := by
  decide

theorem epoch_ok : (ascii "Thu Jan  1 00:00:00 UTC 1970").length ≤ 29 ∧
    (0 : UInt8) ∉ ascii "Thu Jan  1 00:00:00 UTC 1970" := by decide

/-- A connection of a pool that nothing has been requested of before, in a page at address 16. -/
def ofLoopback : NewLog where
  pool := memPoolCreat []
  used := 0
  mem := []
  page := rfl
  used_le := Nat.zero_le _
  base := 16
  address := addressIn 16
  address_page := fun _ => rfl
  addr := ascii "127.0.0.1"
  addr_le := loopback_ok.1
  addr_noNul := loopback_ok.2
  time := ascii "Thu Jan  1 00:00:00 UTC 1970"
  time_le := epoch_ok.1
  time_noNul := epoch_ok.2
  conn :=
    { pool := ⟨[⟨214, []⟩], []⟩
      cells := fun _ => BufLogT.unset
      text := (LogCall.bufLogInit (ascii "127.0.0.1") (ascii "Thu Jan  1 00:00:00 UTC 1970")).text
      self := .page 0 174
      log := ⟨.page 0 40, .page 0 198, .page 0 198⟩ }
  init := rfl

/-- The byte 56, the lowest one of the address of the header text, is written behind it, even if no
message was logged. -/
theorem not_forall_writesLog : ¬∀ (l : NewLog) (ms : List LogMessage) (after : UInt8),
    l.WritesLog ms after := by
  intro h
  obtain ⟨s, fuel, happends, hdestroy⟩ := h ofLoopback [] 0
  obtain rfl := Except.ok.inj happends
  obtain ⟨content, rest, hcontent, heq⟩ := ConnLog.bufLogDestroy_ok hdestroy
  rw [← (List.cons.inj heq).1, ofLoopback.has.cstr_header_iff ofLoopback.header_noNul] at hcontent
  exact absurd hcontent (by decide)

end NewLog

/-! ### Sizes -/

namespace LogCall

/-- The text and its terminator fit the size that is requested, so that they do not reach into what
is requested behind them, and `strlen` finds the end of the text, whatever the cell behind it is
filled with. -/
structure Inside (c : LogCall) : Prop where
  fits : c.text.length + 1 ≤ c.size
  apart : ∀ {p p' p'' : MemPool} {text cell : PoolPtr}, memPoolAlloc c.size p = .ok (text, p') →
    memPoolAlloc sizeofBufLogH p' = .ok (cell, p'') →
    ¬Overlaps (text, c.text.length + 1) (cell, sizeofBufLogH)
  ends : ∀ cell : Block, strlen ((c.text ++ [0]).take c.size ++ cell) 0 = .ok c.text.length

/-- No size has room for the terminator. -/
theorem size_le (c : LogCall) : c.size ≤ c.text.length := by
  rcases c with ⟨addr, time⟩ | ⟨str⟩ | ⟨url, ip⟩
  · have h : (ascii "Client:").length = 7 ∧ (ascii "[").length = 1 ∧ (ascii "]\n").length = 2 := by
      decide
    simp only [size, text, List.length_append]
    omega
  · have h : (ascii "Waring: ").length = 8 ∧ (ascii "\n").length = 1 := by decide
    simp only [size, text, LogMessage.size, LogMessage.text, List.length_append]
    omega
  · have h : (ascii " has been ported to proxy ").length = 26 := by decide
    simp only [size, text, LogMessage.size, LogMessage.text, List.length_append]
    omega

/-- What is requested behind a text is laid over its terminator. -/
theorem overlaps_text (c : LogCall) {p : MemPool} {mem : Block} {used : ℕ}
    (hp : p.pages = [⟨sizeofMemPoolHead + used, mem⟩])
    (hfits : used + c.size + sizeofBufLogH ≤ poolSiz) :
    ∃ text cell p' p'', memPoolAlloc c.size p = .ok (text, p') ∧
      memPoolAlloc sizeofBufLogH p' = .ok (cell, p'') ∧
      Overlaps (text, c.text.length + 1) (cell, sizeofBufLogH) := by
  have htext := memPoolAlloc_page c.size hp (le_trans (Nat.le_add_right _ _) hfits)
  rw [Nat.add_assoc] at htext
  refine ⟨_, _, _, _, htext, memPoolAlloc_page sizeofBufLogH rfl hfits, rfl, ?_, ?_⟩
  · have hcell : 0 < sizeofBufLogH := by decide
    omega
  · have hsize := c.size_le
    omega

/-- No text stays inside the memory requested for it. -/
theorem forall_inside_iff (calls : List LogCall) : (∀ c ∈ calls, c.Inside) ↔ calls = [] := by
  constructor
  · intro h
    by_contra hne
    obtain ⟨c, hc⟩ := List.exists_mem_of_ne_nil calls hne
    exact absurd (h c hc).fits (not_le.mpr (Nat.lt_succ_of_le c.size_le))
  · rintro rfl c hc
    cases hc

theorem not_forall_inside : ¬∀ calls : List LogCall, ∀ c ∈ calls, c.Inside := by
  intro h
  have hinside := h [.message (.errLog (ascii "epoll_ctl"))] _ List.mem_cons_self
  exact absurd hinside.fits (by decide)

end LogCall

end Lidas
