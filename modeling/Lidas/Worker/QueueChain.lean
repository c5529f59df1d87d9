import Lidas.Lib.FreeList

/-!
# The chained queue of `queue_chain.c`

The queue of the workers is a chain of nodes. They come from a cache if there are more than 500
workers, and from `malloc` otherwise. `queue_chain_out` gives the oldest node back through the
`prev` of the node behind it; it follows a null pointer if there is none.
-/

namespace Lidas

/-- A chain of nodes, from `tail` to `head`, and the cache that the nodes come from, if any. -/
structure QueueChain where
  nodes : List ℕ
  pool : Option (FreeList ℕ)

namespace QueueChain

variable (q : QueueChain)

/-- `queue_chain_in`; `fresh` is the node that `malloc` returns. It follows a null pointer if the
cache is used up. -/
def queueChainIn (fresh : ℕ) : Option QueueChain :=
  match q.pool with
  | none => some { q with nodes := q.nodes ++ [fresh] }
  | some pool => pool.alloc.map fun (n, pool) => { nodes := q.nodes ++ [n], pool := some pool }

/-- `queue_chain_out`. -/
def queueChainOut : Option QueueChain :=
  match q.nodes with
  | [] => some q
  | [_] => none
  | n :: nodes => some { nodes := nodes, pool := q.pool.map fun pool => pool.release n }

/-- The node that `queue_chain_out` gives back to the cache. -/
def released : Option ℕ :=
  match q.nodes, q.pool with
  | n :: _ :: _, some _ => some n
  | _, _ => none

/-- The node was handed out by the cache and is not back there. -/
def Out (n : ℕ) : Prop := ∀ pool ∈ q.pool, n ∈ pool.out

/-- The nodes of the chain are handed out, each once. -/
structure Sound : Prop where
  pool : ∀ pool ∈ q.pool, pool.Sound
  nodup : q.pool ≠ none → q.nodes.Nodup
  out : ∀ n ∈ q.nodes, q.Out n

variable {q : QueueChain} {q' : QueueChain}

theorem Sound.queueChainIn (hq : q.Sound) {fresh : ℕ} (h : q.queueChainIn fresh = some q') :
    q'.Sound := by
  rw [QueueChain.queueChainIn] at h
  split at h
  · rename_i hpool
    obtain rfl := Option.some.inj h
    exact ⟨hq.pool, fun hne => absurd hpool hne, fun n _ pool hp => by rw [hpool] at hp; cases hp⟩
  · rename_i pool hpool
    obtain ⟨⟨n, pool'⟩, halloc, rfl⟩ := Option.map_eq_some_iff.mp h
    have hsound := hq.pool pool hpool
    have hfresh := hsound.not_mem_of_alloc halloc
    refine ⟨fun _ hp => ?_, fun _ => ?_, fun m hm _ hp => ?_⟩
    · obtain rfl := Option.some.inj hp
      exact hsound.alloc halloc
    · rw [List.nodup_append_comm, List.singleton_append, List.nodup_cons]
      exact ⟨fun hmem => hfresh (hq.out n hmem pool hpool), hq.nodup (by simp [hpool])⟩
    · obtain rfl := Option.some.inj hp
      rw [FreeList.mem_out_alloc halloc]
      rcases List.mem_append.mp hm with hm | hm
      · exact Or.inr (hq.out m hm pool hpool)
      · exact Or.inl (List.mem_singleton.mp hm)

theorem Sound.queueChainOut (hq : q.Sound) (h : q.queueChainOut = some q') : q'.Sound := by
  rw [QueueChain.queueChainOut] at h
  split at h
  · exact Option.some.inj h ▸ hq
  · cases h
  · rename_i n nodes _ hnodes
    obtain rfl := Option.some.inj h
    have hmem : ∀ m ∈ nodes, m ∈ q.nodes := fun m hm => by
      rw [hnodes]
      exact List.mem_cons_of_mem n hm
    have hn : n ∈ q.nodes := by
      rw [hnodes]
      exact List.mem_cons_self
    refine ⟨fun _ hp => ?_, fun hne => ?_, fun m hm _ hp => ?_⟩
    · obtain ⟨pool, hpool, rfl⟩ := Option.map_eq_some_iff.mp hp
      exact (hq.pool pool hpool).release (hq.out n hn pool hpool)
    · have hnodup := hq.nodup fun hnone => hne (by simp [hnone])
      rw [hnodes] at hnodup
      exact (List.nodup_cons.mp hnodup).2
    · obtain ⟨pool, hpool, rfl⟩ := Option.map_eq_some_iff.mp hp
      have hnodup := hq.nodup (by simp [hpool])
      rw [hnodes] at hnodup
      have hne : m ≠ n := fun heq => (List.nodup_cons.mp hnodup).1 (heq ▸ hm)
      exact FreeList.mem_out_release.mpr ⟨hne, hq.out m (hmem m hm) pool hpool⟩

/-- The node that is given back came from the cache. -/
theorem Sound.out_of_released (hq : q.Sound) {n : ℕ} (h : q.released = some n) :
    ∃ pool ∈ q.pool, n ∈ pool.out := by
  rw [released] at h
  split at h
  · rename_i m _ _ pool hnodes hpool
    obtain rfl := Option.some.inj h
    exact ⟨pool, hpool, hq.out m (by rw [hnodes]; exact List.mem_cons_self) pool hpool⟩
  · cases h

end QueueChain

end Lidas
