import Lidas.Config.HostTable

/-!
# The document of the hosts

`lida_read_hosts` on the tree that libxml2 makes of `vhost.xml`. It counts the nodes below the root,
among them the white space between elements, which is kept as text, and looks for the `<hostname>`,
`<path>`, `<frontpage>` and `<proxy-pass>` elements anywhere in the document. What it takes for the
`i`-th host are the `i`-th of these.

A host with one element of each kind is described by a `HostElem`. If there are only such hosts and
text below the root, the tree is read like the list of the hosts, and only if there is no text
(`lidaReadVhost_eq_ok`).
-/

namespace Lidas.Config

/-! ### Trees -/

/-- A node of a document. -/
inductive XmlNode where
  | element (name : List UInt8) (props : List (List UInt8 × List UInt8)) (children : List XmlNode)
  | text (content : List UInt8)

namespace XmlNode

/-- `xmlChildrenNode` and what follows it. -/
def children : XmlNode → List XmlNode
  | element _ _ cs => cs
  | text _ => []

/-- `xmlGetProp`; `none` is `NULL`. -/
def getProp (name : List UInt8) : XmlNode → Option (List UInt8)
  | element _ ps _ => (ps.find? fun p => p.1 = name).map Prod.snd
  | text _ => none

end XmlNode

mutual

/-- `xmlNodeGetContent`. -/
def XmlNode.content : XmlNode → List UInt8
  | .element _ _ cs => contents cs
  | .text t => t

/-- The contents of a node and what follows it. -/
def contents : List XmlNode → List UInt8
  | [] => []
  | n :: ns => n.content ++ contents ns

end

/-- An entry of a node set: the element, with the number of nodes that follow it. -/
structure Found where
  node : XmlNode
  following : ℕ

mutual

/-- The elements of a name in a node, in the order of the document. -/
def XmlNode.named (name : List UInt8) (following : ℕ) : XmlNode → List Found
  | .element n ps cs =>
    (if n = name then [{ node := .element n ps cs, following := following }] else []) ++
      namedIn name cs
  | .text _ => []

/-- The elements of a name in a node and what follows it: `"//name"`. -/
def namedIn (name : List UInt8) : List XmlNode → List Found
  | [] => []
  | n :: ns => n.named name ns.length ++ namedIn name ns

end

/-! ### Reading the hosts -/

/-- The node sets of `lida_read_hosts`. -/
structure NodeSets where
  hostname : List Found
  path : List Found
  frontpage : List Found
  proxyPass : List Found

/-- The results of `xmlXPathEvalExpression`. -/
def NodeSets.of (cs : List XmlNode) : NodeSets where
  hostname := namedIn (ascii "hostname") cs
  path := namedIn (ascii "path") cs
  frontpage := namedIn (ascii "frontpage") cs
  proxyPass := namedIn (ascii "proxy-pass") cs

/-- `nodeTab[i]`. -/
def nodeTab (set : List Found) (i : ℕ) : Except LoadFault Found :=
  match set[i]? with
  | none => .error (.access .outOfBounds)
  | some f => .ok f

/-- The entries that `xml_get_active` goes through. -/
def Found.passes (f : Found) : List ActiveElem :=
  f.node.children.map fun act => { pattern := act.getProp (ascii "match"), text := act.content }

/-- What four elements say about a host. -/
def hostOf (hostname path frontpage proxyPass : Found) : HostElem where
  hostname := hostname.node.content
  path := path.node.content
  frontpage := frontpage.node.content
  passes := proxyPass.passes
  following := proxyPass.following

/-- What is taken for the `i`-th host. -/
def NodeSets.hostAt (t : NodeSets) (i : ℕ) : Except LoadFault HostElem := do
  let hostname ← nodeTab t.hostname i
  let path ← nodeTab t.path i
  let frontpage ← nodeTab t.frontpage i
  let proxyPass ← nodeTab t.proxyPass i
  return hostOf hostname path frontpage proxyPass

variable {H : Type}

/-- The rounds of the loop of `lida_read_hosts` from the `i`-th on. -/
def documentLoop (t : NodeSets) : ℕ → ℕ → Globals H → Except LoadFault (Globals H)
  | 0, _, s => .ok s
  | cnt + 1, i, s => do
    let host ← t.hostAt i
    documentLoop t cnt (i + 1) (← readHost host s)

/-- `lida_docheck`, and the children of the root. It jumps back to `backend`, which exits. -/
def lidaDocheck (headstr : List UInt8) : Option XmlNode → Except LoadFault (List XmlNode)
  | some (.element name _ cs) => if name = headstr then .ok cs else .error .exit
  | some (.text _) => .error .exit
  | none => .error .exit

/-- `lida_read_hosts`, on what `xmlReadFile` makes of `vhost.xml`. -/
def lidaReadVhost (doc : Option XmlNode) (s : Globals H) : Except LoadFault (Globals H) := do
  let cs ← lidaDocheck (ascii "vhost") doc
  -- `xml_getlen`
  let cnt := cs.length
  documentLoop (.of cs) cnt 0 { s with
    hostHashN := cnt * 2
    hostLst := List.replicate cnt none }

/-! ### Documents of hosts -/

/-- A `<host>` with one element of each kind. -/
def XmlNode.hostElem : XmlNode → Option HostElem
  | .element name _ cs =>
    if name = ascii "host" then
      match namedIn (ascii "hostname") cs, namedIn (ascii "path") cs,
        namedIn (ascii "frontpage") cs, namedIn (ascii "proxy-pass") cs with
      | [hostname], [path], [frontpage], [proxyPass] =>
        some (hostOf hostname path frontpage proxyPass)
      | _, _, _, _ => none
    else none
  | .text _ => none

/-- Text, or such a host. -/
def XmlNode.Proper : XmlNode → Prop
  | .element name ps cs => ((XmlNode.element name ps cs).hostElem).isSome
  | .text _ => True

/-- A host with one element of each kind gives one entry to each node set. -/
theorem exists_of_hostElem {n : XmlNode} {host : HostElem} (h : n.hostElem = some host) :
    ∃ hostname path frontpage proxyPass, host = hostOf hostname path frontpage proxyPass ∧
      ∀ k, n.named (ascii "hostname") k = [hostname] ∧ n.named (ascii "path") k = [path] ∧
        n.named (ascii "frontpage") k = [frontpage] ∧
        n.named (ascii "proxy-pass") k = [proxyPass] := by
  cases n with
  | text t => cases h
  | element name ps cs =>
    rw [XmlNode.hostElem] at h
    split_ifs at h with hname
    split at h
    · rename_i hostname path frontpage proxyPass h₁ h₂ h₃ h₄
      refine ⟨hostname, path, frontpage, proxyPass, (Option.some.inj h).symm, fun k => ?_⟩
      simp only [XmlNode.named, h₁, h₂, h₃, h₄, hname]
      refine ⟨rfl, rfl, rfl, rfl⟩
    · cases h

/-- **The node sets.** The `i`-th entries are those of the `i`-th host. -/
theorem hostAt_of {cs : List XmlNode} (hcs : ∀ n ∈ cs, n.Proper) (i : ℕ) {host : HostElem} :
    (NodeSets.of cs).hostAt i = .ok host ↔ (cs.filterMap XmlNode.hostElem)[i]? = some host := by
  induction cs generalizing i with
  | nil =>
    refine iff_of_false (fun h => ?_) (by simp)
    obtain ⟨f, hf, -⟩ := bind_eq_ok.mp h
    cases hf
  | cons n ns ih =>
    obtain ⟨hn, hns⟩ := List.forall_mem_cons.mp hcs
    cases n with
    | text t => exact ih hns i
    | element name ps cs =>
      obtain ⟨own, hown⟩ := Option.isSome_iff_exists.mp hn
      obtain ⟨hostname, path, frontpage, proxyPass, rfl, hnamed⟩ := exists_of_hostElem hown
      obtain ⟨h₁, h₂, h₃, h₄⟩ := hnamed ns.length
      rw [List.filterMap_cons_some hown]
      simp only [NodeSets.of, NodeSets.hostAt, namedIn, h₁, h₂, h₃, h₄]
      cases i with
      | zero =>
        rw [List.getElem?_cons_zero, Option.some.injEq]
        exact ⟨Except.ok.inj, congrArg Except.ok⟩
      | succ i => exact ih hns i

/-- The loop is that over the hosts, as long as there are entries. -/
theorem documentLoop_eq_ok {t : NodeSets} {hosts : List HostElem}
    (ht : ∀ i host, t.hostAt i = .ok host ↔ hosts[i]? = some host) {cnt i : ℕ}
    {s s' : Globals H} : documentLoop t cnt i s = .ok s' ↔
      (cnt = 0 ∨ i + cnt ≤ hosts.length) ∧ hostLoop ((hosts.drop i).take cnt) s = .ok s' := by
  induction cnt generalizing i s with
  | zero => simp [documentLoop, hostLoop]
  | succ cnt ih =>
    constructor
    · intro h
      obtain ⟨host, hhost, h⟩ := bind_eq_ok.mp h
      obtain ⟨s₁, hround, h⟩ := bind_eq_ok.mp h
      obtain ⟨hlt, hget⟩ := List.getElem?_eq_some_iff.mp ((ht i host).mp hhost)
      obtain ⟨hle, hloop⟩ := ih.mp h
      refine ⟨.inr (by omega), ?_⟩
      rw [List.drop_eq_getElem_cons hlt, hget, List.take_succ_cons, hostLoop, hround, ok_bind]
      exact hloop
    · rintro ⟨hle, hloop⟩
      have hlt : i < hosts.length := by omega
      rw [List.drop_eq_getElem_cons hlt, List.take_succ_cons] at hloop
      obtain ⟨s₁, hround, hloop⟩ := bind_eq_ok.mp hloop
      rw [documentLoop, (ht i hosts[i]).mpr (List.getElem?_eq_getElem hlt), ok_bind, hround,
        ok_bind]
      exact ih.mpr ⟨by omega, hloop⟩

/-- **The document.** Hosts with one element of each kind, and text between them: the document is
read if and only if there is no text, and as the list of the hosts is. -/
theorem lidaReadVhost_eq_ok {props : List (List UInt8 × List UInt8)} {cs : List XmlNode}
    (hcs : ∀ n ∈ cs, n.Proper) (s s' : Globals H) :
    lidaReadVhost (some (.element (ascii "vhost") props cs)) s = .ok s' ↔
      (∀ n ∈ cs, n.hostElem.isSome) ∧
        lidaReadHosts (cs.filterMap XmlNode.hostElem) s = .ok s' := by
  obtain ⟨hosts, hhosts⟩ : ∃ hosts, hosts = cs.filterMap XmlNode.hostElem := ⟨_, rfl⟩
  have hsome : (∀ n ∈ cs, n.hostElem.isSome) ↔ hosts.length = cs.length := by
    rw [hhosts, List.filterMap_length_eq_length]
  have hle : hosts.length ≤ cs.length := by
    rw [hhosts]
    exact List.length_filterMap_le _ _
  have hdoc : lidaReadVhost (some (.element (ascii "vhost") props cs)) s =
      documentLoop (.of cs) cs.length 0 { s with
        hostHashN := cs.length * 2
        hostLst := List.replicate cs.length none } := by
    rw [lidaReadVhost, lidaDocheck, if_pos rfl]
    rfl
  have hat : ∀ i host, (NodeSets.of cs).hostAt i = .ok host ↔ hosts[i]? = some host := by
    intro i host
    rw [hhosts]
    exact hostAt_of hcs i
  rw [hdoc, documentLoop_eq_ok hat, hsome, ← hhosts, List.drop_zero, List.take_of_length_le hle,
    Nat.zero_add]
  constructor
  · rintro ⟨hcnt, hloop⟩
    have heq : hosts.length = cs.length := by omega
    refine ⟨heq, ?_⟩
    rw [lidaReadHosts, heq]
    exact hloop
  · rintro ⟨heq, hloop⟩
    rw [lidaReadHosts, heq] at hloop
    exact ⟨.inr heq.ge, hloop⟩

/-- An element with nothing but text in it. -/
def textElem (name content : List UInt8) : XmlNode := .element name [] [.text content]

/-- A host, written without white space. -/
def compactHost : XmlNode :=
  .element (ascii "host") [(ascii "status", ascii "on")]
    [textElem (ascii "hostname") (ascii "127.0.0.1"),
      textElem (ascii "path") (ascii "/srv/www/htdocs"),
      textElem (ascii "frontpage") (ascii "index.html"),
      .element (ascii "proxy-pass") []
        [.element (ascii "active") [(ascii "match", ascii "\\.php$")] [.text (ascii "apache")]]]

theorem hostElem_compactHost : compactHost.hostElem = some
    { hostname := ascii "127.0.0.1"
      path := ascii "/srv/www/htdocs"
      frontpage := ascii "index.html"
      passes := [{ pattern := some (ascii "\\.php$"), text := ascii "apache" }]
      following := 0 } := rfl

theorem loadable_compactHost : Loadable ([compactHost].filterMap XmlNode.hostElem) := by
  intro as host bs hsplit
  rw [List.filterMap_cons_some hostElem_compactHost, List.filterMap_nil] at hsplit
  cases as with
  | cons a as => simp at hsplit
  | nil =>
    obtain ⟨rfl, -⟩ := List.cons.inj hsplit
    refine ⟨by decide, fun act hact => ?_, by decide +kernel, by simp⟩
    rw [List.mem_singleton.mp hact]
    exact ⟨by decide +kernel, by simp⟩

/-- It is read. -/
theorem lidaReadVhost_eq_ok_compactHost : ∃ s' : Globals Unit,
    lidaReadVhost (some (.element (ascii "vhost") [] [compactHost])) Globals.start = .ok s' := by
  obtain ⟨s', hs'⟩ := exists_lidaReadHosts_iff.mpr loadable_compactHost
  have hsome : ∀ n ∈ [compactHost], n.hostElem.isSome := by
    intro n hn
    rw [List.mem_singleton.mp hn]
    rfl
  have hproper : ∀ n ∈ [compactHost], n.Proper := by
    intro n hn
    rw [List.mem_singleton.mp hn]
    rfl
  exact ⟨s', (lidaReadVhost_eq_ok hproper _ _).mpr ⟨hsome, hs'⟩⟩

end Lidas.Config
