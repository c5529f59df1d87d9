import Lidas.Http.Crc32
import Lidas.Lib.CString

/-!
# Loading the configuration

`load_proxy` and `lida_read_hosts` of `config.c`, which `backend` calls in this order, and
`proxy_init`, which every listener calls. The documents are given as the elements that libxml2
delivers.

The tables of the configuration are filled with `fd` 0, so their nodes come from `malloc`, and
nobody ever writes `next` in them. `hash_conflictset`, `hash_conflictsearch` and, after the
handler, `hash_ergodic` begin with reading it.

`host_hash_n` and `proxy_group_hash_n` are the lengths the key function divides by. The arrays
are allocated with numbers of slots of their own.
-/

namespace Lidas.Config

/-- What goes wrong while the configuration is loaded or searched: a `Fault`, a division by
zero, a use of memory that nobody wrote, or `exit (1)` in `load_proxy_nodes`. -/
inductive LoadFault where
  | access (f : Fault)
  | divByZero
  | uninitialised
  | exit
  deriving DecidableEq

/-! ### Tables with nodes from `malloc` -/

/-- What a `content` points to, a `struct proxy_group` or a `struct config_info`. Both are
numbered in the order of their allocation. -/
inductive Content where
  | group (i : ℕ)
  | info (i : ℕ)
  deriving DecidableEq

/-- A `struct http_attrihash` from `malloc`, without its `next`. -/
structure Node where
  content : Content
  attri : List UInt8
  deriving DecidableEq

/-- The array of bucket pointers. -/
abbrev Table := List (Option Node)

/-- `crc32_port`; its division by `len` is checked. -/
def crc32Mod (q : List UInt8) (len : ℕ) : Except LoadFault ℕ :=
  if len = 0 then .error .divByZero else .ok (crc32Port q len)

/-- The bucket pointer `t[cnt]`. -/
def bucket (t : Table) (cnt : ℕ) : Except LoadFault (Option Node) :=
  match t[cnt]? with
  | none => .error (.access .outOfBounds)
  | some p => .ok p

/-- `p->next` in a node from `malloc`. -/
def Node.next (_ : Node) : Except LoadFault (Option Node) := .error .uninitialised

/-- `hash_set` with `fd` 0. -/
def hashSet (t : Table) (key : List UInt8) (content : Content) (len : ℕ) :
    Except LoadFault Table := do
  let cnt ← crc32Mod key len
  match ← bucket t cnt with
  | none => return t.set cnt (some { content := content, attri := key })
  | some p =>
    -- `hash_conflictset` follows the chain; the node it fills in the end is not linked
    let _ ← p.next
    return t

/-- `hash_search` once it has a node: the key is the node's, or `hash_conflictsearch` goes on
with the chain. -/
def searchNode (p : Node) (q : List UInt8) : Except LoadFault (Option Content) := do
  if p.attri = q then
    return some p.content
  let _ ← p.next
  return none

/-- `hash_search`. -/
def hashSearch (t : Table) (q : List UInt8) (len : ℕ) : Except LoadFault (Option Content) := do
  let cnt ← crc32Mod q len
  match ← bucket t cnt with
  | none => return none
  | some p => searchNode p q

theorem searchNode_eq_ok {p : Node} {q : List UInt8} {found : Option Content} :
    searchNode p q = .ok found ↔ p.attri = q ∧ found = some p.content := by
  rw [searchNode]
  by_cases hattri : p.attri = q
  · simp [hattri, eq_comm]
  · simp [hattri, Node.next]

/-- The rounds of `hash_ergodic` from bucket `i` on. -/
def ergodicFrom (t : Table) : ℕ → ℕ → Except LoadFault Unit
  | 0, _ => .ok ()
  | len + 1, i => do
    match ← bucket t i with
    | none => ergodicFrom t len (i + 1)
    | some p =>
      let _ ← p.next
      ergodicFrom t len (i + 1)

/-- `hash_ergodic`, without what its handler does. -/
def hashErgodic (len : ℕ) (t : Table) : Except LoadFault Unit := ergodicFrom t len 0

/-! ### The documents -/

/-- A node of a `<proxy>` element. -/
structure NodeElem where
  weight : List UInt8
  text : List UInt8

/-- A `<proxy>` element of `proxy.xml`. -/
structure ProxyElem where
  id : List UInt8
  nodes : List NodeElem

/-- An entry of a `<proxy-pass>` element: its attribute `match` and its text. -/
structure ActiveElem where
  pattern : Option (List UInt8)
  text : List UInt8

/-- A `<host>` element of `vhost.xml`, with the number of the elements that follow its
`<proxy-pass>`. -/
structure HostElem where
  hostname : List UInt8
  path : List UInt8
  frontpage : List UInt8
  passes : List ActiveElem
  following : ℕ

/-- The two documents. -/
structure Files where
  proxies : List ProxyElem
  hosts : List HostElem

/-! ### The loaders -/

/-- `struct proxy_pass`; `pattern` is its `match`. -/
structure ProxyPass where
  pattern : Option (List UInt8)
  proxy : Option Content
  deriving DecidableEq

/-- `struct config_info`. -/
structure ConfigInfo where
  hostname : List UInt8
  path : List UInt8
  frontpage : List UInt8
  active : List ProxyPass
  deriving DecidableEq

/-- `struct proxy_group`, with the type of its heap left open. -/
structure ProxyGroup (H : Type) where
  id : List UInt8
  nodes : H

/-- The globals of `config.c`, the objects its tables point to, and a record of how
`proxy_lst` was used: each time the length given and the number of slots it had. -/
structure Globals (H : Type) where
  hostHashN : ℕ
  proxyGroupHashN : ℕ
  proxyLst : Table
  proxyLstLen : ℕ
  hostLst : Table
  groups : List (ProxyGroup H)
  infos : List ConfigInfo
  uses : List (ℕ × ℕ)

variable {H : Type}

/-- The globals at the start of the program. -/
def Globals.start : Globals H where
  hostHashN := 0
  proxyGroupHashN := 0
  proxyLst := []
  proxyLstLen := 0
  hostLst := []
  groups := []
  infos := []
  uses := []

section LoadProxy

variable (loadProxyNodes : List NodeElem → Except LoadFault H)

/-- The loop of `load_proxy`. -/
def proxyLoop : List ProxyElem → Globals H → Except LoadFault (Globals H)
  | [], s => .ok s
  | cur :: rest, s => do
    let proxyLst ← hashSet s.proxyLst cur.id (.group s.groups.length) s.proxyGroupHashN
    let nodes ← loadProxyNodes cur.nodes
    proxyLoop rest { s with
      proxyLst := proxyLst
      groups := s.groups ++ [{ id := cur.id, nodes := nodes }]
      uses := s.uses ++ [(s.proxyGroupHashN, s.proxyLst.length)] }

/-- `load_proxy`. -/
def loadProxy (proxies : List ProxyElem) (s : Globals H) : Except LoadFault (Globals H) :=
  proxyLoop loadProxyNodes proxies { s with
    proxyLstLen := proxies.length * 2
    proxyLst := List.replicate (proxies.length * 2) none }

end LoadProxy

/-- `search_proxy_group`. -/
def searchProxyGroup (s : Globals H) (id : List UInt8) : Except LoadFault (Option Content) :=
  hashSearch s.hostLst id s.proxyGroupHashN

/-- `i < cnt` rounds of the loop of `xml_get_active`, for the entries from `act` on. -/
def activeLoop (s : Globals H) : ℕ → List ActiveElem → Except LoadFault (List ProxyPass)
  | 0, _ => .ok []
  -- `act` is `NULL` and so is its text, the string `crc32_port` measures
  | _ + 1, [] => .error (.access .nullDeref)
  | cnt + 1, act :: next => do
    let proxy ← searchProxyGroup s act.text
    return { pattern := act.pattern, proxy := proxy } :: (← activeLoop s cnt next)

/-- `xml_get_active`. It counts the `<proxy-pass>` element and its followers, not the entries
inside it. -/
def xmlGetActive (host : HostElem) (s : Globals H) :
    Except LoadFault (List ProxyPass × Globals H) := do
  let cnt := host.following + 1
  let s' := { s with proxyGroupHashN := cnt * 2 }
  return (← activeLoop s' cnt host.passes, s')

/-- One round of the loop of `lida_read_hosts`. -/
def readHost (host : HostElem) (s : Globals H) : Except LoadFault (Globals H) := do
  let (active, s') ← xmlGetActive host s
  let hostLst ← hashSet s'.hostLst host.hostname (.info s'.infos.length) s'.hostHashN
  return { s' with
    hostLst := hostLst
    infos := s'.infos ++ [{
      hostname := host.hostname
      path := host.path
      frontpage := host.frontpage
      active := active }] }

/-- The parts of a round that comes to its end. -/
theorem readHost_eq_ok {host : HostElem} {s s' : Globals H} : readHost host s = .ok s' ↔
    ∃ active hostLst,
      activeLoop { s with proxyGroupHashN := (host.following + 1) * 2 } (host.following + 1)
        host.passes = .ok active ∧
      hashSet s.hostLst host.hostname (.info s.infos.length) s.hostHashN = .ok hostLst ∧
      s' = { s with
        proxyGroupHashN := (host.following + 1) * 2
        hostLst := hostLst
        infos := s.infos ++ [{
          hostname := host.hostname
          path := host.path
          frontpage := host.frontpage
          active := active }] } := by
  constructor
  · intro h
    obtain ⟨⟨active, s₁⟩, hactive, h⟩ := bind_eq_ok.mp h
    obtain ⟨active', hloop, hactive⟩ := bind_eq_ok.mp hactive
    cases hactive
    obtain ⟨hostLst, hset, h⟩ := bind_eq_ok.mp h
    exact ⟨active, hostLst, hloop, hset, (Except.ok.inj h).symm⟩
  · rintro ⟨active, hostLst, hloop, hset, rfl⟩
    simp only [readHost, xmlGetActive, hloop, hset, ok_bind, pure_eq_ok]

/-- The loop of `lida_read_hosts`. -/
def hostLoop : List HostElem → Globals H → Except LoadFault (Globals H)
  | [], s => .ok s
  | host :: rest, s => do hostLoop rest (← readHost host s)

/-- `lida_read_hosts`: the length is twice the number of slots. -/
def lidaReadHosts (hosts : List HostElem) (s : Globals H) : Except LoadFault (Globals H) :=
  hostLoop hosts { s with
    hostHashN := hosts.length * 2
    hostLst := List.replicate hosts.length none }

/-- `proxy_init`. -/
def proxyInit (s : Globals H) : Except LoadFault (Globals H) := do
  hashErgodic s.proxyLstLen s.proxyLst
  return { s with uses := s.uses ++ [(s.proxyLstLen, s.proxyLst.length)] }

/-- The calls of `backend`, and then `proxy_init`. -/
def Files.load (loadProxyNodes : List NodeElem → Except LoadFault H) (files : Files)
    (s : Globals H) : Except LoadFault (Globals H) := do
  let s₁ ← loadProxy loadProxyNodes files.proxies s
  let s₂ ← lidaReadHosts files.hosts s₁
  proxyInit s₂

end Lidas.Config
