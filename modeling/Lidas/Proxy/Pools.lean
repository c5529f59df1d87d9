import Lidas.Lib.CString
import Lidas.Memory.Queue

/-!
# Opening the connections of a backend

`proxy_heap_handler` opens connections for a node with `slaveTCP` until one fails or the `weight`
of the node is used up, and puts them into a ring of `weight` slots. It opens a connection before
it tests the counter, so one too many, and a ring of `weight` slots has room for `weight - 1`
elements; the next one makes the ring look empty.
-/

namespace Lidas

namespace Proxy

/-- The ring holds the descriptors opened, from slot 0 on, and has room for all but one of those
still counted. -/
structure Filling (cnt : ℕ) (fds : LidaQueue) (opened : List ℕ+) : Prop where
  entries : fds.entries = opened.map PNat.val
  tail : fds.tail = 0
  room : opened.length + cnt = fds.max

section Loop

variable {slaveTCP : ℕ → Option ℕ+} {cnt j : ℕ} {fds : LidaQueue} {opened : List ℕ+}

theorem Filling.full_iff (h : Filling (cnt + 1) fds opened) : fds.Full ↔ cnt = 0 := by
  have hcount : fds.count = opened.length := by
    rw [← fds.length_entries, h.entries, List.length_map]
  have hroom := h.room
  rw [LidaQueue.Full, hcount]
  omega

theorem Filling.queueIn (h : Filling (cnt + 1) fds opened) (hcnt : cnt ≠ 0) (sock : ℕ+) :
    Filling cnt (fds.queueIn sock).2 (opened ++ [sock]) := by
  obtain ⟨-, hentries, htail, hmax⟩ :=
    fds.queueIn_of_not_full sock fun hfull => hcnt (h.full_iff.mp hfull)
  refine ⟨?_, by rw [htail, h.tail], ?_⟩
  · rw [hentries, h.entries, List.map_append, List.map_singleton]
  · rw [hmax, ← h.room, List.length_append, List.length_singleton]
    omega

end Loop

end Proxy

end Lidas
