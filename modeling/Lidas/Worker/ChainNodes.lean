import Lidas.Lib.Runs
import Lidas.Lib.Word
import Lidas.Worker.QueueChain
import Mathlib.Data.PNat.Basic
import Mathlib.Tactic.Simps.Basic

/-!
# The nodes of the chained queue

`queue_chain_in` and `queue_chain_out` on the nodes themselves, with the links that make a chain of
them. `Queued` runs them beside an ideal queue. A node that is taken from `malloc` or from the cache
is one that is not in use, and what is in it when it has been given back is left open.

`queue_chain_out` goes to the node behind the oldest one to give that back, and writes to it. So it
follows a null pointer when it takes the last node. `queue_chain_in` sets `cnt` for the first node,
and nothing sets it before. Apart from this, and from the range of an `int`, the queue is a
first-in, first-out queue (`right_iff_kept`), and its nodes are those of `QueueChain`
(`Held.queueChainOut_nodes`).
-/

namespace Lidas

/-- `struct queue_chain_t`. -/
structure QueueChainT where
  prev : ℕ
  next : ℕ
  data : ℕ

/-- `struct queue_chain_ctl`, the nodes by address, and the addresses of those in use. -/
structure QueueChainCtl where
  head : ℕ
  tail : ℕ
  cnt : BitVec 32
  node : ℕ → QueueChainT
  live : Finset ℕ

namespace QueueChainCtl

/-- A node is written. -/
@[simps]
def setNode (c : QueueChainCtl) (n : ℕ) (t : QueueChainT) : QueueChainCtl :=
  { c with node := Function.update c.node n t }

/-- `queue_chain_in`; `n` is the node that `malloc` or `mem_cache_alloc` returns. -/
def queueChainIn (c : QueueChainCtl) (d n : ℕ) : QueueChainCtl :=
  if c.head = 0 then
    { c.setNode n { prev := 0, next := 0, data := d } with
      head := n
      tail := n
      cnt := 1
      live := insert n c.live }
  else
    let c' := c.setNode n { prev := c.head, next := 0, data := d }
    { c'.setNode c.head { c'.node c.head with next := n } with
      head := n
      cnt := c.cnt + 1
      live := insert n c.live }

/-- `queue_chain_out`: the pointer returned, the node that is given back, and the queue. `junk` is
what is in that node afterwards. -/
def queueChainOut (c : QueueChainCtl) (junk : QueueChainT) :
    Option (ℕ × Option ℕ × QueueChainCtl) :=
  if c.tail = 0 ∨ c.cnt = 0 then some (0, none, c)
  else
    let tail := (c.node c.tail).next
    let head := if tail = 0 then 0 else c.head
    if tail = 0 then none
    else
      let freed := (c.node tail).prev
      let c' := c.setNode freed junk
      some ((c.node c.tail).data, some freed,
        { c'.setNode tail { c'.node tail with prev := 0 } with
          head := head
          tail := tail
          cnt := c.cnt - 1
          live := c.live.erase freed })

/-- The nodes are linked both ways, behind a node `prev`, and hold the data. -/
def Linked (node : ℕ → QueueChainT) : ℕ → List ℕ → List ℕ → Prop
  | _, [], [] => True
  | prev, n :: ns, d :: ds =>
    node n = { prev := prev, next := ns.headD 0, data := d } ∧ Linked node n ns ds
  | _, _, _ => False

/-- The nodes `ns`, from `tail` to `head`, hold the data `ds`, and no others are in use. -/
structure Held (c : QueueChainCtl) (ns ds : List ℕ) : Prop where
  linked : Linked c.node 0 ns ds
  nodup : ns.Nodup
  tail : c.tail = ns.headD 0
  head : c.head = ns.getLast?.getD 0
  live : ∀ n, n ∈ c.live ↔ n ∈ ns
  nonnull : 0 ∉ ns

/-- And `cnt` is their number. -/
structure Represents (c : QueueChainCtl) (ns ds : List ℕ) : Prop extends Held c ns ds where
  count : c.cnt.toInt = ds.length

variable {c : QueueChainCtl} {node : ℕ → QueueChainT} {n d prev : ℕ} {ns ds : List ℕ}
  {t junk : QueueChainT}

/-! ### Links -/

theorem Linked.congr {node' : ℕ → QueueChainT} (h : Linked node prev ns ds)
    (hsame : ∀ n ∈ ns, node' n = node n) : Linked node' prev ns ds := by
  induction ns generalizing prev ds with
  | nil => cases ds with
    | nil => trivial
    | cons d ds => cases h
  | cons m ns ih => cases ds with
    | nil => cases h
    | cons d ds =>
      refine ⟨?_, ih h.2 fun n hn => hsame n (List.mem_cons_of_mem m hn)⟩
      rw [hsame m List.mem_cons_self]
      exact h.1

theorem Linked.length_eq (h : Linked node prev ns ds) : ns.length = ds.length := by
  induction ns generalizing prev ds with
  | nil => cases ds with
    | nil => rfl
    | cons d ds => cases h
  | cons m ns ih => cases ds with
    | nil => cases h
    | cons d ds => rw [List.length_cons, List.length_cons, ih h.2]

/-- A node is linked behind the last one. -/
theorem Linked.append {node' : ℕ → QueueChainT} {last : ℕ} (h : Linked node prev ns ds)
    (hlast : ns.getLast? = some last) (hnodup : ns.Nodup)
    (hnext : node' last = { node last with next := n })
    (hnew : node' n = { prev := last, next := 0, data := d })
    (hsame : ∀ m ∈ ns, m ≠ last → node' m = node m) :
    Linked node' prev (ns ++ [n]) (ds ++ [d]) := by
  induction ns generalizing prev ds with
  | nil => cases hlast
  | cons m ns ih => cases ds with
    | nil => cases h
    | cons e ds =>
      obtain ⟨hm, hnodup⟩ := List.nodup_cons.mp hnodup
      cases ns with
      | nil =>
        have heq : m = last := Option.some.inj hlast
        subst heq
        cases ds with
        | nil => exact ⟨by rw [hnext, h.1]; rfl, hnew, trivial⟩
        | cons => cases h.2
      | cons m' ns =>
        rw [List.getLast?_cons_cons] at hlast
        have hne : m ≠ last := fun heq => hm (heq ▸ List.mem_of_getLast? hlast)
        refine ⟨?_, ih h.2 hlast hnodup fun v hv => hsame v (List.mem_cons_of_mem m hv)⟩
        rw [hsame m List.mem_cons_self hne]
        exact h.1

/-! ### Calls -/

theorem Held.head_eq_zero (h : Held c ns ds) : c.head = 0 ↔ ns = [] := by
  rw [h.head]
  cases hlast : ns.getLast? with
  | none => exact iff_of_true rfl (List.getLast?_eq_none_iff.mp hlast)
  | some m =>
    have hmem := List.mem_of_getLast? hlast
    exact iff_of_false (fun h0 => h.nonnull (h0 ▸ hmem)) (List.ne_nil_of_mem hmem)

/-- A datum is put in, in a node that is not in use. -/
theorem Held.queueChainIn (h : Held c ns ds) (hn : n ≠ 0) (hfresh : n ∉ c.live) :
    Held (c.queueChainIn d n) (ns ++ [n]) (ds ++ [d]) ∧
      (c.queueChainIn d n).cnt = if ns = [] then 1 else c.cnt + 1 := by
  have hmem : n ∉ ns := fun hmem => hfresh ((h.live n).mpr hmem)
  have hlive : ∀ m, m ∈ insert n c.live ↔ m ∈ ns ++ [n] := fun m => by
    rw [Finset.mem_insert, h.live, List.mem_append, List.mem_singleton, or_comm]
  have hnodup : (ns ++ [n]).Nodup := by
    rw [List.nodup_append_comm]
    exact List.nodup_cons.mpr ⟨hmem, h.nodup⟩
  have hnonnull : 0 ∉ ns ++ [n] := by
    rw [List.mem_append, List.mem_singleton, not_or]
    exact ⟨h.nonnull, Ne.symm hn⟩
  rw [QueueChainCtl.queueChainIn]
  by_cases hns : ns = []
  · subst hns
    have hds : ds = [] := List.eq_nil_of_length_eq_zero h.linked.length_eq.symm
    subst hds
    rw [if_pos (h.head_eq_zero.mpr rfl), if_pos rfl]
    exact ⟨⟨⟨Function.update_self .., trivial⟩, hnodup, rfl, rfl, hlive, hnonnull⟩, rfl⟩
  · have hhead : c.head ≠ 0 := fun h0 => hns (h.head_eq_zero.mp h0)
    have hlast : ns.getLast? = some c.head := by
      rw [h.head, List.getLast?_eq_some_getLast hns, Option.getD_some]
    have hne : c.head ≠ n := fun heq => hmem (heq ▸ List.mem_of_getLast? hlast)
    rw [if_neg hhead, if_neg hns]
    refine ⟨⟨h.linked.append hlast h.nodup ?_ ?_ ?_, hnodup, ?_, ?_, hlive, hnonnull⟩, rfl⟩
    · simp [Function.update_of_ne hne]
    · simp [Function.update_of_ne (Ne.symm hne)]
    · intro m hm hlastm
      simp [Function.update_of_ne hlastm, Function.update_of_ne (ne_of_mem_of_not_mem hm hmem)]
    · obtain ⟨m, ns, rfl⟩ := List.exists_cons_of_ne_nil hns
      exact h.tail
    · simp

/-- With nothing stored, nothing happens. -/
theorem Held.queueChainOut_nil (h : Held c [] ds) (junk : QueueChainT) :
    c.queueChainOut junk = some (0, none, c) := by
  have htail : c.tail = 0 := h.tail
  rw [QueueChainCtl.queueChainOut, if_pos (Or.inl htail)]

/-- The last node has none behind it. -/
theorem Held.queueChainOut_singleton (h : Held c [n] ds) (hcnt : c.cnt ≠ 0) :
    c.queueChainOut junk = none := by
  have hn : n ≠ 0 := fun h0 => h.nonnull (h0 ▸ List.mem_singleton_self n)
  have htail : c.tail = n := h.tail
  have hnext : (c.node n).next = 0 := by
    cases ds with
    | nil => cases h.linked
    | cons d ds => rw [h.linked.1]; rfl
  rw [QueueChainCtl.queueChainOut, htail, if_neg (not_or.mpr ⟨hn, hcnt⟩)]
  dsimp only
  rw [if_pos hnext]

/-- The oldest of several data is returned, and its node is given back. -/
theorem Held.queueChainOut {m : ℕ} (h : Held c (n :: m :: ns) (d :: ds)) (hcnt : c.cnt ≠ 0)
    (junk : QueueChainT) :
    ∃ c', c.queueChainOut junk = some (d, some n, c') ∧ Held c' (m :: ns) ds ∧
      c'.live = c.live.erase n ∧ c'.cnt = c.cnt - 1 := by
  have hn : n ≠ 0 := fun h0 => h.nonnull (h0 ▸ List.mem_cons_self)
  have hm : m ≠ 0 := fun h0 => h.nonnull (h0 ▸ by simp)
  have htail : c.tail = n := h.tail
  obtain ⟨e, ds, rfl⟩ : ∃ e es, ds = e :: es := by
    cases ds with
    | nil => cases h.linked.2
    | cons e ds => exact ⟨e, ds, rfl⟩
  obtain ⟨hfirst, hsecond, hrest⟩ := h.linked
  obtain ⟨hnot, hnodup⟩ := List.nodup_cons.mp h.nodup
  rw [List.mem_cons, not_or] at hnot
  obtain ⟨hmnot, -⟩ := List.nodup_cons.mp hnodup
  have hnext : (c.node n).next = m := by rw [hfirst]; rfl
  -- the node behind the tail is the only one whose links change
  have hprev : (c.node m).prev = n := by rw [hsecond]
  have hdata : (c.node n).data = d := by rw [hfirst]
  rw [QueueChainCtl.queueChainOut, htail, if_neg (not_or.mpr ⟨hn, hcnt⟩)]
  dsimp only
  rw [hnext, if_neg hm, hprev, hdata]
  refine ⟨_, rfl, ⟨⟨?_, hrest.congr fun v hv => ?_⟩, hnodup, rfl, ?_, fun v => ?_, ?_⟩, rfl, rfl⟩
  · simp [Function.update_of_ne (Ne.symm hnot.1), hsecond]
  · have hvm : v ≠ m := ne_of_mem_of_not_mem hv hmnot
    have hvn : v ≠ n := ne_of_mem_of_not_mem hv hnot.2
    simp [Function.update_of_ne hvm, Function.update_of_ne hvn]
  · have hhead := h.head
    rw [List.getLast?_cons_cons] at hhead
    simpa [hm] using hhead
  · have hv : v ∈ c.live.erase n ↔ v ≠ n ∧ v ∈ n :: m :: ns := by
      rw [Finset.mem_erase, h.live]
    refine hv.trans ?_
    rw [List.mem_cons, and_or_left, or_iff_right fun hvn => hvn.1 hvn.2]
    refine and_iff_right_of_imp fun hmem hvn => ?_
    rw [hvn, List.mem_cons] at hmem
    exact not_or.mpr hnot hmem
  · exact fun h0 => h.nonnull (List.mem_cons_of_mem n h0)

/-- The nodes are those of the chain without links. -/
theorem Held.queueChainOut_nodes (h : Held c ns ds) (hcnt : ns ≠ [] → c.cnt ≠ 0)
    (pool : Option (FreeList ℕ)) :
    (c.queueChainOut junk = none ↔
        ({ nodes := ns, pool := pool } : QueueChain).queueChainOut = none) ∧
      ∀ ret freed c' q, c.queueChainOut junk = some (ret, freed, c') →
        ({ nodes := ns, pool := pool } : QueueChain).queueChainOut = some q →
          Held c' q.nodes ds.tail := by
  match ns, h, hcnt with
  | [], h, _ =>
    have hds : ds = [] := List.eq_nil_of_length_eq_zero h.linked.length_eq.symm
    subst hds
    rw [h.queueChainOut_nil]
    refine ⟨iff_of_false (by simp) (by simp [QueueChain.queueChainOut]), ?_⟩
    rintro ret freed c' q hret hq
    obtain ⟨-, -, rfl⟩ := by simpa using hret
    obtain rfl := Option.some.inj hq
    exact h
  | [n], h, hcnt =>
    rw [h.queueChainOut_singleton (hcnt (List.cons_ne_nil _ _))]
    exact ⟨iff_of_true rfl rfl, fun _ _ _ _ hret => by cases hret⟩
  | n :: m :: ns, h, hcnt =>
    obtain ⟨d, ds, rfl⟩ : ∃ d es, ds = d :: es := by
      cases ds with
      | nil => cases h.linked
      | cons d ds => exact ⟨d, ds, rfl⟩
    obtain ⟨c₁, hout, hheld, -, -⟩ := h.queueChainOut (hcnt (List.cons_ne_nil _ _)) junk
    rw [hout]
    refine ⟨iff_of_false (by simp) (by simp [QueueChain.queueChainOut]), ?_⟩
    rintro ret freed c' q hret hq
    obtain ⟨-, -, rfl⟩ := by simpa using hret
    obtain rfl := Option.some.inj hq
    exact hheld

end QueueChainCtl

/-! ### Beside an ideal queue -/

/-- The queue, and the data that an ideal one holds, the oldest first. -/
structure Queued where
  chain : QueueChainCtl
  stored : List ℕ+
  alive : Bool

namespace Queued

open QueueChainCtl

/-- A call; the data are not `NULL`. -/
inductive Label where
  /-- `queue_chain_in`, with the node that `malloc` or `mem_cache_alloc` returns -/
  | chainIn (d : ℕ+) (n : ℕ)
  /-- `queue_chain_out`, with what is in the node it gives back afterwards -/
  | chainOut (junk : QueueChainT)

/-- The data as pointers. -/
def data (s : Queued) : List ℕ := s.stored.map (↑)

def step (s : Queued) : Label → Option Queued
  | .chainIn d n =>
    if s.alive = true ∧ n ≠ 0 ∧ n ∉ s.chain.live then
      some { s with chain := s.chain.queueChainIn d n, stored := s.stored ++ [d] }
    else none
  | .chainOut junk =>
    if s.alive = true then
      match s.chain.queueChainOut junk with
      | none => some { s with alive := false }
      | some (_, _, c) => some { s with chain := c, stored := s.stored.tail }
    else none

/-- `head` and `tail` are `NULL`, and anything may be in `cnt` and in the memory. -/
def start (cnt : BitVec 32) (node : ℕ → QueueChainT) : Queued where
  chain := { head := 0, tail := 0, cnt := cnt, node := node, live := ∅ }
  stored := []
  alive := true

/-- What a call of `queue_chain_out` should return, give back and leave. -/
structure TakenOut (s : Queued) (ret : ℕ) (freed : Option ℕ) (c : QueueChainCtl) : Prop where
  oldest : ret = s.data.headD 0
  null : ret = 0 ↔ s.stored = []
  nothing : s.stored = [] → freed = none
  freed : ∀ d ∈ s.data.head?, ∃ n ∈ s.chain.live, freed = some n ∧
    (s.chain.node n).data = d ∧ c.live = s.chain.live.erase n
  represents : ∃ ns, Represents c ns s.data.tail

/-- The call leaves a chain that holds what the ideal queue does, and returns the oldest datum. -/
def Right (s : Queued) : Label → Prop
  | .chainIn d n => ∃ ns, Represents (s.chain.queueChainIn d n) ns (s.data ++ [(d : ℕ)])
  | .chainOut junk =>
    ∃ ret freed c, s.chain.queueChainOut junk = some (ret, freed, c) ∧ TakenOut s ret freed c

/-- The last datum is not taken out, `cnt` is `0` if the queue was never used, and an `int` can
count the nodes. -/
def Kept (s : Queued) : Label → Prop
  | .chainIn _ _ => s.stored.length + 1 < 2 ^ 31
  | .chainOut _ => s.stored.length ≠ 1 ∧ (s.stored = [] → s.chain.cnt = 0)

/-- The chain holds the data, and `cnt` is their number once there are any. -/
structure Inv (s : Queued) : Prop where
  held : ∃ ns, Held s.chain ns s.data
  count : s.stored ≠ [] → s.chain.cnt.toInt = s.stored.length

variable {s s' : Queued} {d : ℕ+} {n : ℕ} {junk : QueueChainT}

theorem length_data (s : Queued) : s.data.length = s.stored.length := List.length_map ..

theorem data_eq_nil : s.data = [] ↔ s.stored = [] := List.map_eq_nil_iff

/-- A datum is put in rightly as long as the number of data is one of an `int`. -/
theorem Inv.right_chainIn (h : Inv s) (hn : n ≠ 0) (hfresh : n ∉ s.chain.live) :
    Right s (.chainIn d n) ↔ Kept s (.chainIn d n) := by
  obtain ⟨ns, hheld⟩ := h.held
  obtain ⟨hheld', hcnt⟩ := hheld.queueChainIn (d := d) hn hfresh
  have hlength : (s.data ++ [(d : ℕ)]).length = s.stored.length + 1 := by
    rw [List.length_append, length_data, List.length_singleton]
  constructor
  · rintro ⟨ns', hrep⟩
    have hcount := hrep.count
    rw [hlength] at hcount
    have hlt := BitVec.toInt_lt (x := (s.chain.queueChainIn d n).cnt)
    rw [hcount] at hlt
    rw [Kept]
    omega
  · intro hkept
    refine ⟨ns ++ [n], hheld', ?_⟩
    rw [hcnt, hlength]
    split_ifs with hns
    · rw [← List.length_eq_zero_iff, hheld.linked.length_eq, length_data] at hns
      rw [hns]
      decide
    · refine toInt_add_one (h.count fun hnil => hns ?_) hkept
      rw [← List.length_eq_zero_iff, hheld.linked.length_eq, length_data, hnil, List.length_nil]

theorem Inv.cnt_ne_zero (h : Inv s) (hne : s.stored ≠ []) : s.chain.cnt ≠ 0 := by
  intro h0
  have hcount := h.count hne
  rw [toInt_eq_zero.mpr h0, eq_comm, Nat.cast_eq_zero, List.length_eq_zero_iff] at hcount
  exact hne hcount

/-- Nothing is taken out of an empty queue, and `cnt` may be anything there. -/
theorem Inv.right_chainOut_nil (h : Inv s) (hstored : s.stored = []) :
    Right s (.chainOut junk) ↔ s.chain.cnt = 0 := by
  obtain ⟨ns, hheld⟩ := h.held
  have hdata : s.data = [] := data_eq_nil.mpr hstored
  rw [hdata] at hheld
  obtain rfl := List.eq_nil_of_length_eq_zero hheld.linked.length_eq
  have hout := hheld.queueChainOut_nil junk
  constructor
  · rintro ⟨ret, freed, c, hret, htaken⟩
    obtain ⟨-, -, rfl⟩ := by simpa [hout] using hret
    obtain ⟨ns, hrep⟩ := htaken.represents
    have hcount := hrep.count
    rw [hdata] at hcount
    exact toInt_eq_zero.mp hcount
  · intro hcnt
    refine ⟨0, none, s.chain, hout, by rw [hdata]; rfl, by simp [hstored], fun _ => rfl,
      fun d hd => ?_, [], ?_⟩
    · rw [hdata] at hd
      cases hd
    · rw [hdata]
      exact ⟨hheld, by rw [hcnt]; rfl⟩

/-- The last datum is not taken out. -/
theorem Inv.not_right_chainOut (h : Inv s) (hstored : s.stored = [d]) :
    ¬Right s (.chainOut junk) := by
  obtain ⟨ns, hheld⟩ := h.held
  have hne := h.cnt_ne_zero (by rw [hstored]; exact List.cons_ne_nil d [])
  have hlength : ns.length = 1 := by rw [hheld.linked.length_eq, length_data, hstored]; rfl
  obtain ⟨n, rfl⟩ := List.length_eq_one_iff.mp hlength
  rintro ⟨ret, freed, c, hret, -⟩
  rw [hheld.queueChainOut_singleton hne] at hret
  cases hret

/-- The oldest of several data is. -/
theorem Inv.right_chainOut_cons {e : ℕ+} {ds : List ℕ+} (h : Inv s)
    (hstored : s.stored = d :: e :: ds) : Right s (.chainOut junk) := by
  obtain ⟨ns, hheld⟩ := h.held
  have hcons : s.stored ≠ [] := by
    rw [hstored]
    exact List.cons_ne_nil d (e :: ds)
  have hne := h.cnt_ne_zero hcons
  have hcnt := h.count hcons
  rw [hstored] at hcnt
  have hdata : s.data = (d : ℕ) :: (e : ℕ) :: ds.map (↑) := by rw [data, hstored]; rfl
  rw [hdata] at hheld
  obtain ⟨n, m, ns, rfl⟩ : ∃ n m ms, ns = n :: m :: ms := by
    have hlength := hheld.linked.length_eq
    match ns with
    | n :: m :: ns => exact ⟨n, m, ns, rfl⟩
    | [] => cases hlength
    | [n] => cases hlength
  obtain ⟨c, hout, hheld', hlive, hcnt'⟩ := hheld.queueChainOut hne junk
  have hn : n ∈ s.chain.live := (hheld.live n).mpr List.mem_cons_self
  refine ⟨d, some n, c, hout, by rw [hdata]; rfl, by simp [hstored], fun hnil => ?_,
    fun d' hd' => ⟨n, hn, rfl, ?_, hlive⟩, m :: ns, ?_⟩
  · exact absurd hnil hcons
  · rw [hdata] at hd'
    rw [hheld.linked.1]
    exact Option.some.inj hd'
  · rw [hdata, List.tail_cons]
    refine ⟨hheld', ?_⟩
    rw [hcnt', toInt_sub_one (k := ds.length + 1) hcnt, List.length_cons, List.length_map]

/-- What is there is taken out rightly if it is not the last datum. -/
theorem Inv.right_chainOut (h : Inv s) : Right s (.chainOut junk) ↔ Kept s (.chainOut junk) := by
  rw [Kept]
  match hstored : s.stored with
  | [] =>
    rw [h.right_chainOut_nil hstored, forall_prop_of_true rfl]
    exact (and_iff_right Nat.zero_ne_one).symm
  | [d] => exact iff_of_false (h.not_right_chainOut hstored) fun hkept => hkept.1 rfl
  | d :: e :: ds =>
    exact iff_of_true (h.right_chainOut_cons hstored) ⟨by simp, fun hnil => by cases hnil⟩

theorem Right.inv_chainIn (h : Right s (.chainIn d n)) :
    Inv { s with chain := s.chain.queueChainIn d n, stored := s.stored ++ [d] } := by
  obtain ⟨ns, hrep⟩ := h
  have hdata : s.data ++ [(d : ℕ)] = (s.stored ++ [d]).map (↑) := by
    rw [List.map_append]
    rfl
  rw [hdata] at hrep
  refine ⟨⟨ns, hrep.toHeld⟩, fun _ => ?_⟩
  rw [hrep.count, List.length_map]

theorem TakenOut.inv {ret : ℕ} {freed : Option ℕ} {c : QueueChainCtl} (h : TakenOut s ret freed c) :
    Inv { s with chain := c, stored := s.stored.tail } := by
  obtain ⟨ns, hrep⟩ := h.represents
  rw [data, ← List.map_tail] at hrep
  refine ⟨⟨ns, hrep.toHeld⟩, fun _ => ?_⟩
  rw [hrep.count, List.length_map]

theorem inv_start (cnt : BitVec 32) (node : ℕ → QueueChainT) : Inv (start cnt node) :=
  ⟨⟨[], trivial, List.nodup_nil, rfl, rfl, by simp [start], List.not_mem_nil⟩,
    fun hne => absurd rfl hne⟩

/-- **One step.** -/
theorem Inv.right_iff {l : Label} (h : Inv s) (hstep : step s l = some s') :
    Right s l ↔ Kept s l := by
  cases l with
  | chainIn d n =>
    rw [step] at hstep
    split_ifs at hstep with hfits
    exact h.right_chainIn hfits.2.1 hfits.2.2
  | chainOut junk => exact h.right_chainOut

/-- A call that is right leaves such a chain. -/
theorem Right.inv {l : Label} (h : Right s l) (hstep : step s l = some s') : Inv s' := by
  cases l with
  | chainIn d n =>
    rw [step] at hstep
    split_ifs at hstep
    obtain rfl := Option.some.inj hstep
    exact h.inv_chainIn
  | chainOut junk =>
    obtain ⟨ret, freed, c, hret, htaken⟩ := h
    rw [step, hret] at hstep
    split_ifs at hstep
    obtain rfl := Option.some.inj hstep
    exact htaken.inv

/-- **The queue is a first-in, first-out queue** in the runs that never take the last datum out, nor
one from a queue that was never used. -/
theorem right_iff_kept (cnt : BitVec 32) (node : ℕ → QueueChainT) (ls : List Label) :
    Runs.Meets step Right (start cnt node) ls ↔ Runs.Meets step Kept (start cnt node) ls :=
  Runs.meets_iff_meets
    (fun _ _ _ hinv hkept hstep => ((hinv.right_iff hstep).mpr hkept).inv hstep)
    (fun _ _ _ hinv hstep => hinv.right_iff hstep) (inv_start cnt node) ls

/-- A datum is put in and taken out. -/
theorem not_right_oneDatum :
    ¬∀ (cnt : BitVec 32) (node : ℕ → QueueChainT) (ls : List Label),
      Runs.Meets step Right (start cnt node) ls := by
  intro h
  have hrun := h 0 (fun _ => ⟨0, 0, 0⟩) [.chainIn 1 16, .chainOut ⟨0, 0, 0⟩]
  obtain ⟨-, hout⟩ := hrun _ rfl
  obtain ⟨⟨ret, freed, c, hret, -⟩, -⟩ := hout _ rfl
  cases hret

end Queued

end Lidas
