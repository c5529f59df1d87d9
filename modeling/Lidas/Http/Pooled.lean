import Lidas.Http.Survival
import Lidas.Memory.Pool

/-!
# Requests in the pool of a connection

`http_parser` takes the request, its table and a node for each header from the pool of the
connection. `Lidas.Http.Parser` takes this memory for granted, and for zeroed; here it comes from
`mem_pool_alloc`, which ends at `NULL` when the page has no room, and leaves what was in it. The
descriptor is not 0, so no node comes from `malloc`.

Two of the pointers there are looked at before they are written: that of a bucket, and `next` of
the first node of a bucket. Where they are not `NULL` they are pointers to anything, and their use
is a fault. `httpParserIn_eq_ok_iff` is what all this comes to: `http_parser` does as it does with
memory of its own, if its headers are served (`HeadersServed`). So the texts it survives are the
harmless ones whose headers the pool has room for, 157 of them at most (`survives_iff`).
-/

namespace Lidas

open CString

/-- `sizeof (struct http_request_t)`. -/
def sizeofHttpRequestT : ℕ := 56

/-- `sizeof (void *)`. -/
def sizeofPointer : ℕ := 8

/-- `sizeof (struct http_attrihash)`: three pointers, the last of them `next`. -/
def sizeofHttpAttrihash : ℕ := 24

/-- The pointer at some bytes behind `p`, in memory as it came from the pool, is `NULL`. The
requests of `http_parser` are no large blocks. -/
def MemPool.nullAt (m : MemPool) : PoolPtr → ℕ → Bool
  | .page i off, n =>
    match m.pages[i]? with
    | none => false
    | some page => (page.mem.drop (off + n)).take sizeofPointer == List.replicate sizeofPointer 0
  | .large _, _ => false

/-- The pool, where the table of the request is in it, and where the nodes are. -/
structure RequestPool where
  pool : MemPool
  list : PoolPtr
  nodes : List PoolPtr

/-- The pointer that `hash_set` compares with `NULL`: that of an empty bucket, and in
`hash_conflictset` `next` of the node that the bucket points to. Neither was written. -/
def RequestPool.unwritten (m : RequestPool) (t : AttriTable ℕ ℕ) (cnt : ℕ) :
    Except Fault (PoolPtr × ℕ) := do
  match ← t.bucket cnt with
  | none => return (m.list, sizeofPointer * cnt)
  | some p =>
    match m.nodes[p]? with
    | none => throw .outOfBounds
    | some node => return (node, 2 * sizeofPointer)

/-- `hash_set`, with a node from the pool. -/
def hashSetIn (t : AttriTable ℕ ℕ) (m : RequestPool) (key content cnt : ℕ) :
    Except Fault (AttriTable ℕ ℕ × RequestPool) := do
  let (p, off) ← m.unwritten t cnt
  if !m.pool.nullAt p off then
    -- a node that is none is followed
    throw .outOfBounds
  let (node, pool) ← memPoolAlloc sizeofHttpAttrihash m.pool
  let t' ← hashSet t key content cnt
  return (t', { m with pool := pool, nodes := m.nodes ++ [node] })

/-- What a round of the header loop gets for `hash_set`. -/
structure LineTokens where
  text : Block
  toklist : Option ℕ
  key : ℕ
  content : ℕ
  cnt : ℕ

/-- A round of the header loop up to the call of `hash_set`. -/
def lineTokens (s : HeaderState) : Except Fault LineTokens := do
  let capture ← strtokR s.text s.toklist [colon, sp]
  let contentCap ← strtokR capture.text capture.save [lf]
  -- while (*content_cap == ' ') content_cap++
  let p ← deref contentCap.token
  let content := p + (← strspn contentCap.text p [sp])
  let text ← lidaBreakline contentCap.text content
  let key ← deref capture.token
  return { text := text, toklist := contentCap.save, key := key, content := content
           cnt := crc32Port (← cstr text key) listSiz }

/-- The state after the call of `hash_set`. -/
def LineTokens.entered (l : LineTokens) (s : HeaderState) (list : AttriTable ℕ ℕ) :
    HeaderState where
  text := l.text
  toklist := l.toklist
  list := list
  calls := s.calls ++ [{ key := l.key, content := l.content, text := l.text }]

/-- One round of the header loop. -/
def headerRoundIn (s : HeaderState) (m : RequestPool) :
    Except Fault (HeaderState × RequestPool) := do
  let l ← lineTokens s
  let (list, m') ← hashSetIn s.list m l.key l.content l.cnt
  return (l.entered s list, m')

/-- `while (*(toklist+1) != '\n')`, within at most the given number of rounds. -/
def headerLoopIn : ℕ → HeaderState → RequestPool → Except Fault (HeaderExit × RequestPool)
  | fuel, s, m => do
    if (← peek s.text s.toklist) = lf then
      return ({ found := true, state := s }, m)
    match fuel with
    | 0 => .error .diverges
    | fuel + 1 =>
      let (s', m') ← headerRoundIn s m
      if (← peek s'.text s'.toklist) = 0 then
        return ({ found := false, state := s' }, m')
      headerLoopIn fuel s' m'

/-- What `http_parser` has when its header loop begins. -/
structure LoopStart where
  method : Option ℕ
  url : Option ℕ
  protocal : Option ℕ
  text : Block
  toklist : Option ℕ

/-- `http_parser` between its requests to the pool and its header loop: `return NULL`, or the loop
begins. -/
def parseLine (h : Block) : Except Fault (Parsed ⊕ LoopStart) := do
  let method ← strtokR h (some 0) [sp]
  if !(← methodTest method.text method.token) then
    return .inl (Parsed.null method.text)
  let url ← strtokR method.text method.save [sp]
  if url.save = none then
    return .inl (Parsed.null url.text)
  let protocal ← strtokR url.text url.save [cr, lf]
  if !(← protocalTest protocal.text protocal.token) then
    return .inl (Parsed.null protocal.text)
  return .inr { method := method.token, url := url.token, protocal := protocal.token
                text := protocal.text, toklist := protocal.save }

/-- The state in which the loop begins. -/
def LoopStart.state (l : LoopStart) : HeaderState where
  text := l.text
  toklist := l.toklist
  list := AttriTable.empty listSiz
  calls := []

/-- `http_parser` behind its header loop. -/
def LoopStart.finish (l : LoopStart) (e : HeaderExit) : Except Fault Parsed := do
  if !e.found then
    return { request := none, text := e.state.text, calls := e.state.calls }
  let body := (← deref e.state.toklist) + 2
  return { request := some
             { method := l.method, url := l.url, protocal := l.protocal
               list := e.state.list, offset := ← strlen e.state.text body, requestBody := body }
           text := e.state.text
           calls := e.state.calls }

/-- The memory of the request and of its table. -/
def requestPool (pool : MemPool) : Except Fault RequestPool := do
  let (_, pool) ← memPoolAlloc sizeofHttpRequestT pool
  let (list, pool) ← memPoolAlloc (sizeofPointer * listSiz) pool
  return { pool := pool, list := list, nodes := [] }

/-- `http_parser` on the text `h`, for a connection with the given pool. -/
def httpParserIn (h : Block) (pool : MemPool) : Except Fault (Parsed × RequestPool) := do
  let _size ← strlen h 0
  let m ← requestPool pool
  match ← parseLine h with
  | .inl p => return (p, m)
  | .inr l =>
    let (e, m) ← headerLoopIn h.length l.state m
    return (← l.finish e, m)

/-! ### With and without a pool -/

theorem headerRound_eq (s : HeaderState) : headerRound s = (do
    let l ← lineTokens s
    return l.entered s (← hashSet s.list l.key l.content l.cnt)) := by
  simp only [headerRound, lineTokens, bind_assoc, pure_bind]
  rfl

theorem httpParser_eq (h : Block) : httpParser h = (do
    let _size ← strlen h 0
    match ← parseLine h with
    | .inl p => return p
    | .inr l => l.finish (← headerLoop h.length l.state)) := by
  simp only [httpParser, parseUrl, parseProtocal, parseRest, parseLine, bind_assoc]
  refine bind_congr fun _ => bind_congr fun method => bind_congr fun known => ?_
  cases known with
  | false => rfl
  | true =>
    simp only [Bool.not_true, Bool.false_eq_true, if_false, bind_assoc]
    refine bind_congr fun url => ?_
    by_cases hsave : url.save = none
    · rw [if_pos hsave, if_pos hsave]
      rfl
    · simp only [if_neg hsave, bind_assoc]
      refine bind_congr fun protocal => bind_congr fun known => ?_
      cases known with
      | false => rfl
      | true => rfl

/-! ### Headers that are served -/

/-- The bucket of a name. -/
def bucketOf (name : List UInt8) : ℕ := crc32Port name listSiz

/-- The offset of the table in the page, when `used` bytes were taken before. -/
def listAt (used : ℕ) : ℕ := sizeofMemPoolHead + used + sizeofHttpRequestT

/-- The offset of the `n`-th node. -/
def nodeAt (used n : ℕ) : ℕ := listAt used + sizeofPointer * listSiz + sizeofHttpAttrihash * n

/-- The pointer at an offset of a page is `NULL`. -/
def NullAt (mem : Block) (off : ℕ) : Prop :=
  (mem.drop off).take sizeofPointer = List.replicate sizeofPointer 0

/-- The offset of the pointer that is looked at for a name, behind headers with the names `done`. -/
def lookedAt (used : ℕ) (done : List (List UInt8)) (name : List UInt8) : ℕ :=
  match done.findIdx? fun n => bucketOf n = bucketOf name with
  | none => listAt used + sizeofPointer * bucketOf name
  | some i => nodeAt used i + 2 * sizeofPointer

/-- The pointers that are looked at for names, behind headers with the names `done`, are `NULL`. -/
def Clean (mem : Block) (used : ℕ) : List (List UInt8) → List (List UInt8) → Prop
  | _, [] => True
  | done, name :: names =>
    NullAt mem (lookedAt used done name) ∧ Clean mem used (done ++ [name]) names

/-- The pool serves a request with headers of the given names, when `used` bytes of its page were
taken before: the request, its table and the nodes fit the page, and no pointer that is looked at
is garbage. -/
structure HeadersServed (mem : Block) (used : ℕ) (names : List (List UInt8)) : Prop where
  room : nodeAt used names.length ≤ pageSiz
  clean : Clean mem used [] names

theorem bucketOf_lt (name : List UInt8) : bucketOf name < listSiz := crc32Port_lt name (by decide)

/-- A call of `hash_set` as the table sees it. -/
def HeaderCall.namedCall (c : HeaderCall) (name : List UInt8) : SetCall ℕ ℕ :=
  { cnt := bucketOf name, key := c.key, content := c.content }

/-- The headers with the given names have been entered. -/
structure HeaderState.Has (s : HeaderState) (names : List (List UInt8)) : Prop where
  calls : List.Forall₂ HeaderCall.Named s.calls names
  list : Filled listSiz (List.zipWith HeaderCall.namedCall s.calls names) s.list

/-- The request, its table and `n` nodes have been taken from the page. -/
structure RequestPool.Holds (m : RequestPool) (mem : Block) (used n : ℕ) : Prop where
  pages : m.pool.pages = [⟨nodeAt used n, mem⟩]
  room : nodeAt used n ≤ pageSiz
  list : m.list = .page 0 (listAt used)
  nodes : m.nodes = (List.range n).map fun i => .page 0 (nodeAt used i)

section HeadersServed

variable {s s' : HeaderState} {m m' : RequestPool} {mem : Block} {used : ℕ}
  {names more : List (List UInt8)} {name : List UInt8}

/-- A call has one name. -/
theorem named_unique {calls : List HeaderCall} (h : List.Forall₂ HeaderCall.Named calls names)
    (h' : List.Forall₂ HeaderCall.Named calls more) : names = more :=
  List.right_unique_forall₂' (fun _ _ _ ha hb => Except.ok.inj (ha.symm.trans hb)) h h'

/-- The first call of a bucket is that of the first name in it. -/
theorem findIdx?_namedCall {calls : List HeaderCall} (h : calls.length = names.length) (cnt : ℕ) :
    (List.zipWith HeaderCall.namedCall calls names).findIdx? (fun c => c.cnt = cnt) =
      names.findIdx? fun n => bucketOf n = cnt := by
  induction calls generalizing names with
  | nil =>
    obtain rfl := List.length_eq_zero_iff.mp h.symm
    rfl
  | cons c calls ih =>
    cases names with
    | nil => cases h
    | cons n names =>
      rw [List.zipWith_cons_cons, List.findIdx?_cons, List.findIdx?_cons,
        ih (Nat.succ.inj h)]
      rfl

theorem cnt_of_lineTokens {l : LineTokens} (hl : lineTokens s = .ok l) :
    ∃ name, cstr l.text l.key = .ok name ∧ l.cnt = bucketOf name := by
  obtain ⟨capture, -, hl⟩ := bind_eq_ok.mp hl
  obtain ⟨contentCap, -, hl⟩ := bind_eq_ok.mp hl
  obtain ⟨p, -, hl⟩ := bind_eq_ok.mp hl
  obtain ⟨n, -, hl⟩ := bind_eq_ok.mp hl
  obtain ⟨text, -, hl⟩ := bind_eq_ok.mp hl
  obtain ⟨key, -, hl⟩ := bind_eq_ok.mp hl
  obtain ⟨name, hname, hl⟩ := bind_eq_ok.mp hl
  obtain rfl := Except.ok.inj hl
  exact ⟨name, hname, rfl⟩

/-- The call of `hash_set` adds a header. -/
theorem HeaderState.Has.entered (h : s.Has names) {l : LineTokens} {t : AttriTable ℕ ℕ}
    (hname : cstr l.text l.key = .ok name)
    (ht : hashSet s.list l.key l.content (bucketOf name) = .ok t) :
    (l.entered s t).Has (names ++ [name]) := by
  obtain ⟨call, hcall⟩ : ∃ call : HeaderCall, call =
      { key := l.key, content := l.content, text := l.text } := ⟨_, rfl⟩
  obtain ⟨t', ht', hfilled⟩ := h.list.hashSet (call.namedCall name) (bucketOf_lt name)
  refine ⟨List.rel_append h.calls (.cons hname .nil), ?_⟩
  obtain rfl : t' = t := by
    rw [hcall] at ht'
    exact Except.ok.inj (ht'.symm.trans ht)
  rw [LineTokens.entered, ← hcall, List.zipWith_append h.calls.length_eq]
  exact hfilled

/-- Where the pointer is that is looked at. -/
theorem exists_unwritten (h : s.Has names) (hm : m.Holds mem used names.length)
    (name : List UInt8) : ∃ p off, m.unwritten s.list (bucketOf name) = .ok (p, off) ∧
      (m.pool.nullAt p off = true ↔ NullAt mem (lookedAt used names name)) := by
  rw [RequestPool.unwritten, h.list.bucket_eq (bucketOf_lt name),
    findIdx?_namedCall h.calls.length_eq, ok_bind, lookedAt]
  cases hfind : names.findIdx? fun n => bucketOf n = bucketOf name with
  | none =>
    refine ⟨_, _, rfl, ?_⟩
    rw [hm.list, MemPool.nullAt, hm.pages]
    exact beq_iff_eq
  | some i =>
    have hi : i < names.length := (List.findIdx?_eq_some_iff_getElem.mp hfind).1
    have hnode : m.nodes[i]? = some (.page 0 (nodeAt used i)) := by
      rw [hm.nodes, List.getElem?_map, List.getElem?_range hi, Option.map_some]
    refine ⟨.page 0 (nodeAt used i), 2 * sizeofPointer, ?_, ?_⟩
    · dsimp only
      rw [hnode]
      rfl
    · rw [MemPool.nullAt, hm.pages]
      exact beq_iff_eq

theorem nodeAt_succ (used n : ℕ) : nodeAt used (n + 1) = nodeAt used n + sizeofHttpAttrihash := by
  rw [nodeAt, nodeAt, Nat.mul_succ, ← Nat.add_assoc]

/-- A node is taken from the page if it has room. -/
theorem RequestPool.Holds.alloc_iff {n : ℕ} (hm : m.Holds mem used n)
    (r : PoolPtr × MemPool) : memPoolAlloc sizeofHttpAttrihash m.pool = .ok r ↔
      nodeAt used (n + 1) ≤ pageSiz ∧ r = (.page 0 (nodeAt used n),
        { m.pool with pages := [⟨nodeAt used (n + 1), mem⟩] }) := by
  rw [memPoolAlloc_iff hm.pages (by decide) (by decide), nodeAt_succ]

theorem RequestPool.Holds.push {n : ℕ} (hm : m.Holds mem used n)
    (hroom : nodeAt used (n + 1) ≤ pageSiz) :
    Holds { m with pool := { m.pool with pages := [⟨nodeAt used (n + 1), mem⟩] }
                   nodes := m.nodes ++ [.page 0 (nodeAt used n)] } mem used (n + 1) where
  pages := rfl
  room := hroom
  list := hm.list
  nodes := by rw [hm.nodes, List.range_succ, List.map_append, List.map_singleton]

/-- **A header is entered** if the pointer that is looked at is `NULL` and the page has room for a
node, and then as it is without the pool. -/
theorem hashSetIn_iff (h : s.Has names) (hm : m.Holds mem used names.length) {key content : ℕ}
    {t : AttriTable ℕ ℕ} : hashSetIn s.list m key content (bucketOf name) = .ok (t, m') ↔
      NullAt mem (lookedAt used names name) ∧ hashSet s.list key content (bucketOf name) = .ok t ∧
        nodeAt used (names.length + 1) ≤ pageSiz ∧
        m' = { m with pool := { m.pool with pages := [⟨nodeAt used (names.length + 1), mem⟩] }
                      nodes := m.nodes ++ [.page 0 (nodeAt used names.length)] } := by
  obtain ⟨p, off, hunwritten, hnull⟩ := exists_unwritten h hm name
  rw [hashSetIn, hunwritten, ok_bind, ← hnull]
  dsimp only
  by_cases hclean : m.pool.nullAt p off = true
  · rw [if_neg (by simp [hclean])]
    constructor
    · intro hset
      obtain ⟨r, halloc, hset⟩ := bind_eq_ok.mp hset
      obtain ⟨hroom, rfl⟩ := (hm.alloc_iff r).mp halloc
      obtain ⟨t', ht', hset⟩ := bind_eq_ok.mp hset
      obtain ⟨rfl, rfl⟩ := Prod.mk.inj (Except.ok.inj hset)
      exact ⟨hclean, ht', hroom, rfl⟩
    · rintro ⟨-, ht, hroom, rfl⟩
      rw [(hm.alloc_iff _).mpr ⟨hroom, rfl⟩, ok_bind]
      dsimp only
      rw [ht]
      rfl
  · rw [if_pos (by simp [hclean])]
    exact iff_of_false (fun hset => by cases hset) fun hset => hclean hset.1

/-- A round that is served does what it does without the pool. -/
theorem headerRoundIn_ok (h : s.Has names) (hm : m.Holds mem used names.length)
    (hround : headerRoundIn s m = .ok (s', m')) : headerRound s = .ok s' ∧
      ∃ name, s'.Has (names ++ [name]) ∧ NullAt mem (lookedAt used names name) ∧
        m'.Holds mem used (names ++ [name]).length := by
  obtain ⟨l, hl, hround⟩ := bind_eq_ok.mp hround
  obtain ⟨⟨t, m₁⟩, hset, hround⟩ := bind_eq_ok.mp hround
  obtain ⟨rfl, rfl⟩ := Prod.mk.inj (Except.ok.inj hround)
  obtain ⟨name, hname, hcnt⟩ := cnt_of_lineTokens hl
  rw [hcnt, hashSetIn_iff h hm] at hset
  obtain ⟨hnull, ht, hroom, rfl⟩ := hset
  refine ⟨?_, name, h.entered hname ht, hnull, ?_⟩
  · rw [headerRound_eq, hl, ok_bind, hcnt, ht]
    rfl
  · rw [List.length_append]
    exact hm.push hroom

/-- A round without the pool is served if the pointer that is looked at is `NULL` and the page has
room for a node. -/
theorem exists_headerRoundIn (mem : Block) (used : ℕ) (h : s.Has names)
    (hround : headerRound s = .ok s') :
    ∃ name, s'.Has (names ++ [name]) ∧ ∀ m : RequestPool, m.Holds mem used names.length →
      NullAt mem (lookedAt used names name) → nodeAt used (names ++ [name]).length ≤ pageSiz →
        ∃ m', headerRoundIn s m = .ok (s', m') ∧ m'.Holds mem used (names ++ [name]).length := by
  rw [headerRound_eq] at hround
  obtain ⟨l, hl, hround⟩ := bind_eq_ok.mp hround
  obtain ⟨t, ht, hround⟩ := bind_eq_ok.mp hround
  obtain rfl := Except.ok.inj hround
  obtain ⟨name, hname, hcnt⟩ := cnt_of_lineTokens hl
  rw [hcnt] at ht
  refine ⟨name, h.entered hname ht, fun m hm hnull hroom => ?_⟩
  rw [List.length_append] at hroom ⊢
  refine ⟨_, ?_, hm.push hroom⟩
  rw [headerRoundIn, hl, ok_bind, hcnt, (hashSetIn_iff h hm).mpr ⟨hnull, ht, hroom, rfl⟩]
  rfl

/-- A loop that is served does what it does without the pool. -/
theorem headerLoopIn_ok {fuel : ℕ} {e : HeaderExit} (h : s.Has names)
    (hm : m.Holds mem used names.length) (hrun : headerLoopIn fuel s m = .ok (e, m')) :
    headerLoop fuel s = .ok e ∧ ∃ more, e.state.Has (names ++ more) ∧
      Clean mem used names more ∧ m'.Holds mem used (names ++ more).length := by
  induction fuel generalizing s m names with
  | zero =>
    rw [headerLoopIn] at hrun
    obtain ⟨c, hc, hrun⟩ := bind_eq_ok.mp hrun
    split_ifs at hrun with hlf
    obtain ⟨rfl, rfl⟩ := Prod.mk.inj (Except.ok.inj hrun)
    rw [hlf] at hc
    exact ⟨headerLoop_blank hc, [], by simpa using h, trivial, by simpa using hm⟩
  | succ fuel ih =>
    rw [headerLoopIn] at hrun
    obtain ⟨c, hc, hrun⟩ := bind_eq_ok.mp hrun
    split_ifs at hrun with hlf
    · obtain ⟨rfl, rfl⟩ := Prod.mk.inj (Except.ok.inj hrun)
      rw [hlf] at hc
      exact ⟨headerLoop_blank hc, [], by simpa using h, trivial, by simpa using hm⟩
    · obtain ⟨⟨s₁, m₁⟩, hround, hrun⟩ := bind_eq_ok.mp hrun
      obtain ⟨b, hb, hrun⟩ := bind_eq_ok.mp hrun
      obtain ⟨hplain, name, hhas, hnull, hholds⟩ := headerRoundIn_ok h hm hround
      rw [headerLoop_round fuel hc hlf hplain hb]
      split_ifs at hrun ⊢ with h0
      · obtain ⟨rfl, rfl⟩ := Prod.mk.inj (Except.ok.inj hrun)
        exact ⟨rfl, [name], hhas, ⟨hnull, trivial⟩, hholds⟩
      · obtain ⟨hloop, more, hexit, hclean, hholds'⟩ := ih hhas hholds hrun
        rw [List.append_assoc] at hexit hholds'
        exact ⟨hloop, name :: more, hexit, ⟨hnull, hclean⟩, hholds'⟩

/-- A loop without the pool is served if its headers are. -/
theorem exists_headerLoopIn (mem : Block) (used : ℕ) {fuel : ℕ} {e : HeaderExit}
    (h : s.Has names) (hrun : headerLoop fuel s = .ok e) : ∃ more, e.state.Has (names ++ more) ∧
      ∀ m : RequestPool, m.Holds mem used names.length → Clean mem used names more →
        nodeAt used (names ++ more).length ≤ pageSiz →
          ∃ m', headerLoopIn fuel s m = .ok (e, m') := by
  induction fuel generalizing s names with
  | zero =>
    rw [headerLoop] at hrun
    obtain ⟨c, hc, hrun⟩ := bind_eq_ok.mp hrun
    split_ifs at hrun with hlf
    obtain rfl := Except.ok.inj hrun
    refine ⟨[], by simpa using h, fun m _ _ _ => ⟨m, ?_⟩⟩
    rw [headerLoopIn, hc, ok_bind, if_pos hlf]
    rfl
  | succ fuel ih =>
    rw [headerLoop] at hrun
    obtain ⟨c, hc, hrun⟩ := bind_eq_ok.mp hrun
    split_ifs at hrun with hlf
    · obtain rfl := Except.ok.inj hrun
      refine ⟨[], by simpa using h, fun m _ _ _ => ⟨m, ?_⟩⟩
      rw [headerLoopIn, hc, ok_bind, if_pos hlf]
      rfl
    · obtain ⟨s₁, hround, hrun⟩ := bind_eq_ok.mp hrun
      obtain ⟨b, hb, hrun⟩ := bind_eq_ok.mp hrun
      obtain ⟨name, hhas, hserved⟩ := exists_headerRoundIn mem used h hround
      split_ifs at hrun with h0
      · obtain rfl := Except.ok.inj hrun
        refine ⟨[name], hhas, fun m hm hclean hroom => ?_⟩
        obtain ⟨m', hround', -⟩ := hserved m hm hclean.1 hroom
        refine ⟨m', ?_⟩
        rw [headerLoopIn, hc, ok_bind, if_neg hlf, hround', ok_bind]
        dsimp only
        rw [hb, ok_bind, if_pos h0]
        rfl
      · obtain ⟨more, hexit, hrest⟩ := ih hhas hrun
        rw [List.append_assoc] at hexit hrest
        refine ⟨name :: more, hexit, fun m hm hclean hroom => ?_⟩
        -- room for the last node is room for this one
        have hroom' : nodeAt used (names ++ [name]).length ≤ pageSiz := by
          refine le_trans (Nat.add_le_add_left (Nat.mul_le_mul_left _ ?_) _) hroom
          simp only [List.length_append, List.length_cons, List.length_nil]
          omega
        obtain ⟨m₁, hround', hm₁⟩ := hserved m hm hclean.1 hroom'
        obtain ⟨m', hloop⟩ := hrest m₁ hm₁ hclean.2 hroom
        refine ⟨m', ?_⟩
        rw [headerLoopIn, hc, ok_bind, if_neg hlf, hround', ok_bind]
        dsimp only
        rw [hb, ok_bind, if_neg h0]
        exact hloop

/-! ### Requests that are served -/

/-- The loop begins without headers. -/
theorem LoopStart.has (l : LoopStart) : l.state.Has [] where
  calls := .nil
  list := filled_empty listSiz

/-- The request and its table are taken from the page if it has room. -/
theorem requestPool_iff {pool : MemPool} (hp : pool.pages = [⟨sizeofMemPoolHead + used, mem⟩]) :
    requestPool pool = .ok m ↔ nodeAt used 0 ≤ pageSiz ∧
      m = { pool := { pool with pages := [⟨nodeAt used 0, mem⟩] }, list := .page 0 (listAt used)
            nodes := [] } := by
  have hrequest (r : PoolPtr × MemPool) : memPoolAlloc sizeofHttpRequestT pool = .ok r ↔
      listAt used ≤ pageSiz ∧ r = (.page 0 (sizeofMemPoolHead + used),
        { pool with pages := [⟨listAt used, mem⟩] }) :=
    memPoolAlloc_iff hp (by decide) (by decide)
  have htable (r : PoolPtr × MemPool) :
      memPoolAlloc (sizeofPointer * listSiz) { pool with pages := [⟨listAt used, mem⟩] } = .ok r ↔
        nodeAt used 0 ≤ pageSiz ∧ r = (.page 0 (listAt used),
          { pool with pages := [⟨nodeAt used 0, mem⟩] }) :=
    memPoolAlloc_iff rfl (by decide) (by decide)
  constructor
  · intro h
    obtain ⟨r, hfirst, h⟩ := bind_eq_ok.mp h
    obtain ⟨-, rfl⟩ := (hrequest r).mp hfirst
    obtain ⟨r, hsecond, h⟩ := bind_eq_ok.mp h
    obtain ⟨hroom, rfl⟩ := (htable r).mp hsecond
    exact ⟨hroom, (Except.ok.inj h).symm⟩
  · rintro ⟨hroom, rfl⟩
    have hlist : listAt used ≤ pageSiz :=
      le_trans (Nat.le_add_right _ (sizeofPointer * listSiz)) hroom
    rw [requestPool, (hrequest _).mpr ⟨hlist, rfl⟩, ok_bind]
    dsimp only
    rw [(htable _).mpr ⟨hroom, rfl⟩]
    rfl

/-- The page with the request and its table, and no node yet. -/
theorem holds_requestPool {pool : MemPool} (hroom : nodeAt used 0 ≤ pageSiz) :
    RequestPool.Holds { pool := { pool with pages := [⟨nodeAt used 0, mem⟩] }
                        list := .page 0 (listAt used), nodes := [] } mem used 0 where
  pages := rfl
  room := hroom
  list := rfl
  nodes := rfl

/-- In front of the loop nothing has been entered. -/
theorem calls_of_parseLine {h : Block} {p : Parsed} (hline : parseLine h = .ok (.inl p)) :
    p.calls = [] := by
  obtain ⟨method, -, hline⟩ := bind_eq_ok.mp hline
  obtain ⟨known, -, hline⟩ := bind_eq_ok.mp hline
  split_ifs at hline
  · rw [← Sum.inl.inj (Except.ok.inj hline)]
    rfl
  · obtain ⟨url, -, hline⟩ := bind_eq_ok.mp hline
    split_ifs at hline
    · rw [← Sum.inl.inj (Except.ok.inj hline)]
      rfl
    · obtain ⟨protocal, -, hline⟩ := bind_eq_ok.mp hline
      obtain ⟨known, -, hline⟩ := bind_eq_ok.mp hline
      split_ifs at hline
      · rw [← Sum.inl.inj (Except.ok.inj hline)]
        rfl
      · cases hline

/-- What `http_parser` leaves behind its loop has the calls of the loop. -/
theorem calls_of_finish {l : LoopStart} {fuel : ℕ} {e : HeaderExit} {p : Parsed}
    (hloop : headerLoop fuel l.state = .ok e) (hfinish : l.finish e = .ok p) :
    p.calls = e.state.calls := by
  have hrest : parseRest fuel l.method l.url l.protocal l.text l.toklist = .ok p := by
    rw [parseRest]
    exact bind_eq_ok.mpr ⟨e, hloop, hfinish⟩
  obtain ⟨e', hloop', hcalls⟩ := calls_of_parseRest hrest
  obtain rfl := Except.ok.inj (hloop.symm.trans hloop')
  exact hcalls

/-- **The pool in `http_parser`.** It does what it does with memory of its own, if its headers are
served. -/
theorem httpParserIn_eq_ok_iff (h : Block) {pool : MemPool} {p : Parsed}
    (hp : pool.pages = [⟨sizeofMemPoolHead + used, mem⟩]) :
    (∃ m, httpParserIn h pool = .ok (p, m)) ↔ httpParser h = .ok p ∧
      ∃ names, List.Forall₂ HeaderCall.Named p.calls names ∧ HeadersServed mem used names := by
  rw [httpParser_eq]
  constructor
  · rintro ⟨m, hrun⟩
    obtain ⟨n, hn, hrun⟩ := bind_eq_ok.mp hrun
    obtain ⟨m₀, hm₀, hrun⟩ := bind_eq_ok.mp hrun
    obtain ⟨hroom, rfl⟩ := (requestPool_iff hp).mp hm₀
    obtain ⟨r, hline, hrun⟩ := bind_eq_ok.mp hrun
    rw [hn, ok_bind, hline, ok_bind]
    cases r with
    | inl p' =>
      obtain ⟨rfl, -⟩ := Prod.mk.inj (Except.ok.inj hrun)
      -- the request line is answered before any node is taken
      rw [calls_of_parseLine hline]
      exact ⟨rfl, [], .nil, hroom, trivial⟩
    | inr l =>
      obtain ⟨⟨e, m₁⟩, hloop, hrun⟩ := bind_eq_ok.mp hrun
      obtain ⟨p', hfinish, hrun⟩ := bind_eq_ok.mp hrun
      obtain ⟨rfl, -⟩ := Prod.mk.inj (Except.ok.inj hrun)
      obtain ⟨hplain, more, hexit, hclean, hholds⟩ :=
        headerLoopIn_ok l.has (holds_requestPool hroom) hloop
      dsimp only
      rw [hplain, ok_bind, calls_of_finish hplain hfinish]
      exact ⟨hfinish, more, hexit.calls, hholds.room, hclean⟩
  · rintro ⟨hrun, names, hnamed, hroom, hclean⟩
    have hroom₀ : nodeAt used 0 ≤ pageSiz :=
      le_trans (Nat.add_le_add_left (Nat.mul_le_mul_left _ (Nat.zero_le _)) _) hroom
    obtain ⟨n, hn, hrun⟩ := bind_eq_ok.mp hrun
    obtain ⟨r, hline, hrun⟩ := bind_eq_ok.mp hrun
    rw [httpParserIn, hn, ok_bind, (requestPool_iff hp).mpr ⟨hroom₀, rfl⟩, ok_bind, hline, ok_bind]
    cases r with
    | inl p' =>
      obtain rfl := Except.ok.inj hrun
      exact ⟨_, rfl⟩
    | inr l =>
      obtain ⟨e, hloop, hfinish⟩ := bind_eq_ok.mp hrun
      obtain ⟨more, hexit, hserved⟩ := exists_headerLoopIn mem used l.has hloop
      rw [calls_of_finish hloop hfinish] at hnamed
      -- the calls fix the names, so the two runs take the same nodes
      obtain rfl : [] ++ more = names := named_unique hexit.calls hnamed
      obtain ⟨m, hm⟩ := hserved _ (holds_requestPool hroom₀) hclean hroom
      refine ⟨m, ?_⟩
      dsimp only
      rw [hm, ok_bind]
      dsimp only
      rw [hfinish]
      rfl

end HeadersServed

/-- **The texts that are survived.** With a page of which `used` bytes were taken before,
`http_parser` returns on a string if and only if its text is harmless, and its headers are served.
`http_response_parser` returns if and only if it has two words. -/
theorem survives_iff (s : CText) (mem : Block) (used : ℕ) (large : List ℕ) :
    ((∃ r, httpParserIn (s.bytes ++ [0]) ⟨[⟨sizeofMemPoolHead + used, mem⟩], large⟩ = .ok r) ↔
        ∃ names, Harmless names (s.bytes ++ [0]) ∧ HeadersServed mem used names) ∧
      ((∃ w, httpResponseParser (s.bytes ++ [0]) = .ok w) ↔ TwoWords (s.bytes ++ [0])) := by
  refine ⟨?_, httpResponseParser_returns_iff s⟩
  have hpool (p : Parsed) := httpParserIn_eq_ok_iff (s.bytes ++ [0]) (p := p)
    (show MemPool.pages ⟨[⟨sizeofMemPoolHead + used, mem⟩], large⟩ = _ from rfl)
  constructor
  · rintro ⟨⟨p, m⟩, hrun⟩
    obtain ⟨hplain, names, hnamed, hserved⟩ := (hpool p).mp ⟨m, hrun⟩
    obtain ⟨names', hharmless, hnamed'⟩ := harmless_of_ok s.ok hplain
    obtain rfl := named_unique hnamed hnamed'
    exact ⟨names, hharmless, hserved⟩
  · rintro ⟨names, hharmless, hserved⟩
    obtain ⟨p, hplain, hnamed⟩ := hharmless.exists_ok rfl s.ok
    obtain ⟨m, hrun⟩ := (hpool p).mpr ⟨hplain, names, hnamed, hserved⟩
    exact ⟨(p, m), hrun⟩

/-- Not every string is survived: the empty one has no first token. -/
theorem not_forall_survives : ¬∀ (s : CText) (mem : Block) (used : ℕ) (large : List ℕ),
    (∃ r, httpParserIn (s.bytes ++ [0]) ⟨[⟨sizeofMemPoolHead + used, mem⟩], large⟩ = .ok r) ∧
      ∃ w, httpResponseParser (s.bytes ++ [0]) = .ok w := by
  intro h
  obtain ⟨⟨⟨p, m⟩, hrun⟩, -⟩ := h { bytes := [], ok := by simp } [] 0 []
  have hplain := ((httpParserIn_eq_ok_iff _ rfl).mp ⟨m, hrun⟩).1
  have hnull : httpParser ([] ++ [0]) = .error .nullDeref := rfl
  rw [hnull] at hplain
  cases hplain

end Lidas
