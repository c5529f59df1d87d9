import Lidas.Rbtree.Bindings

/-!
# Trees from insertions

The trees that `rbtree_insert` builds from a null pointer. With one key, with two, and with a third
one on the other side of the first, they are red-black trees (`Shape`). No other tree is built: a
third key on the side of the second one calls for a rotation at the root, after which the program
follows the fathers of two records for ever, and for a fourth one the uncle is left red, so that its
side has a black node less than the other one.
-/

namespace Lidas

namespace Rbtree

open RbTree

/-- The keys in the order in which they first come. -/
def keyList (es : List Entry) : List (BitVec 32) := (firstBindings es).map Prod.fst

/-- At most two keys, or three of which the first one separates the others. -/
def Spread : List (BitVec 32) → Prop
  | [x, y, z] => x.slt y ≠ x.slt z
  | ks => ks.length ≤ 2

/-- The red-black tree with the first bindings. -/
def IsTree (es : List Entry) (h : ℕ) (m : Heap) : Prop :=
  ∃ t, Rooted m h (some t) ∧ Ordered t ∧ Colored t ∧ (bindings t).Perm (firstBindings es)

/-- After some insertions, each of some further ones returns and leaves the red-black tree. -/
def Builds : List Entry → ℕ → Heap → List Entry → Prop
  | _, _, _, [] => True
  | done, h, m, e :: es => ∃ fuel ret h' m',
    rbtreeInsert fuel h e.1 e.2.1 e.2.2 m = .ok (ret, h', m') ∧
      (e.1 ∉ done.map Prod.fst → ret = 0) ∧ IsTree (done ++ [e]) h' m' ∧
      Builds (done ++ [e]) h' m' es

/-! ### The shapes -/

/-- Where a key belongs below another one. -/
def toward (k key : BitVec 32) : Side := if k.slt key then .right else .left

/-- The trees that insertions build, with their keys in the order in which these came. -/
inductive Shape : List (BitVec 32) → Option Tree → Prop
  | empty : Shape [] none
  | one (v : NodeVal) (a b : ℕ) : Shape [v.key] (some (.node .black v (.leaf a) (.leaf b)))
  | two (v w : NodeVal) (a b c : ℕ) : Shape [v.key, w.key]
      (some (fork (toward v.key w.key) .black v (.node .red w (.leaf a) (.leaf b)) (.leaf c)))
  | three (v w u : NodeVal) (a b c d : ℕ) (hne : toward v.key w.key ≠ toward v.key u.key) :
      Shape [v.key, w.key, u.key] (some (fork (toward v.key w.key) .black v
        (.node .red w (.leaf a) (.leaf b)) (.node .red u (.leaf c) (.leaf d))))

section Shapes

variable {s : Side} {c : Color} {v : NodeVal} {x y t : Tree} {key : BitVec 32} {fs : Place}
  {ks : List (BitVec 32)} {o : Option Tree}

/-- Two keys part at a node if they compare differently with its key. -/
theorem toward_ne {k k' : BitVec 32} : toward key k ≠ toward key k' ↔ key.slt k ≠ key.slt k' := by
  cases h : key.slt k <;> cases h' : key.slt k' <;> simp [toward, h, h']

/-- The descent goes to the side of the key. -/
theorem seek_fork (hne : v.key ≠ key) : seek key fs (fork s c v x y) =
    if toward v.key key = s then seek key (⟨s, c, v, y⟩ :: fs) x
    else seek key (⟨s.other, c, v, x⟩ :: fs) y := by
  cases s <;> rw [fork, seek, if_neg hne, toward] <;> split_ifs <;> simp_all [Side.other]

/-- The same, with the children left and right. -/
theorem seek_node {l r : Tree} (hne : v.key ≠ key) : seek key fs (.node c v l r) =
    seek key (⟨toward v.key key, c, v, (toward v.key key).other.pick l r⟩ :: fs)
      ((toward v.key key).pick l r) := by
  rw [seek, if_neg hne, toward]
  split_ifs <;> rfl

/-- Such a tree is a red-black tree. -/
theorem Shape.colored (h : Shape ks (some t)) : Colored t := by
  cases h with
  | one v a b => exact ⟨rfl, by simp [NoRedRed], 1, by simp [blackHeight]⟩
  | two v w a b c =>
    refine ⟨color_fork _ _ _ _ _, noRedRed_fork.mpr ?_, 1, blackHeight_fork.mpr ⟨0, ?_⟩⟩
    · simp [NoRedRed]
    · simp [blackHeight]
  | three v w u a b c d hne =>
    refine ⟨color_fork _ _ _ _ _, noRedRed_fork.mpr ?_, 1, blackHeight_fork.mpr ⟨0, ?_⟩⟩
    · simp [NoRedRed]
    · simp [blackHeight]

/-- The place of a new key below a node with one key. -/
theorem insertTree_one (hne : v.key ≠ key) (data a b c p q : ℕ) (type : BitVec 4) :
    insertTree key data type a b c (some (.node .black v (.leaf p) (.leaf q))) =
      some (0, fork (toward v.key key) .black v
        (.node .red ⟨(toward v.key key).pick p q, type, key, data⟩ (.leaf c) (.leaf b))
        (.leaf ((toward v.key key).other.pick p q))) := by
  rw [insertTree, seek_node hne]
  cases toward v.key key <;> rfl

/-- With two keys, a third one has its place on the other side of the root, or the rotation would be
there. -/
theorem insertTree_two {w : NodeVal} (hne : v.key ≠ key) (hne' : w.key ≠ key)
    (data a b c p q r : ℕ) (type : BitVec 4) :
    insertTree key data type a b c
        (some (fork s .black v (.node .red w (.leaf p) (.leaf q)) (.leaf r))) =
      if toward v.key key = s then none
      else some (0, fork s .black v (.node .red w (.leaf p) (.leaf q))
        (.node .red ⟨r, type, key, data⟩ (.leaf c) (.leaf b))) := by
  rw [insertTree, seek_fork hne]
  split_ifs with hside
  · rw [seek_node hne']
    cases s <;> cases toward w.key key <;> rfl
  · cases s <;> rfl

/-- With three keys the uncle of a fourth one is left red. -/
theorem insertTree_three {w u : NodeVal} (hne : v.key ≠ key) (hw : w.key ≠ key) (hu : u.key ≠ key)
    (data a b c p q r z : ℕ) (type : BitVec 4) :
    ∃ t, insertTree key data type a b c (some (fork s .black v (.node .red w (.leaf p) (.leaf q))
        (.node .red u (.leaf r) (.leaf z)))) = some (0, t) ∧ t.blackHeight = none := by
  rw [insertTree, seek_fork hne]
  split_ifs with hside
  · rw [seek_node hw]
    cases s <;> cases toward w.key key <;> exact ⟨_, rfl, rfl⟩
  · rw [seek_node hu]
    cases s <;> cases toward u.key key <;> exact ⟨_, rfl, rfl⟩

/-- An insertion of a new key. -/
theorem Shape.insert (h : Shape ks o) (hnew : key ∉ ks) (data a b c : ℕ) (type : BitVec 4) :
    (Spread (ks ++ [key]) ∧ ∃ t, insertTree key data type a b c o = some (0, t) ∧
      Shape (ks ++ [key]) (some t)) ∨
    ¬Spread (ks ++ [key]) ∧ ∀ ret t, insertTree key data type a b c o = some (ret, t) →
      ¬Colored t := by
  cases h with
  | empty => exact .inl ⟨by simp [Spread], _, rfl, .one ⟨a, type, key, data⟩ c b⟩
  | one v p q =>
    have hne : v.key ≠ key := fun heq => hnew (by simp [heq])
    exact .inl ⟨by simp [Spread], _, insertTree_one hne data a b c p q type,
      .two v ⟨(toward v.key key).pick p q, type, key, data⟩ c b _⟩
  | two v w p q r =>
    have hne : v.key ≠ key := fun heq => hnew (by simp [heq])
    have hne' : w.key ≠ key := fun heq => hnew (by simp [heq])
    have htree := insertTree_two (s := toward v.key w.key) hne hne' data a b c p q r type
    rw [List.cons_append, List.cons_append, List.nil_append, Spread, ← toward_ne]
    by_cases hside : toward v.key key = toward v.key w.key
    · right
      rw [htree, if_pos hside]
      exact ⟨fun hne => hne hside.symm, fun ret t h => by cases h⟩
    · left
      rw [htree, if_neg hside]
      exact ⟨Ne.symm hside, _, rfl, .three v w ⟨r, type, key, data⟩ p q c b (Ne.symm hside)⟩
  | three v w u p q r z hne =>
    simp only [List.mem_cons, List.not_mem_nil, or_false, not_or] at hnew
    obtain ⟨t, htree, hheight⟩ := insertTree_three (s := toward v.key w.key) (Ne.symm hnew.1)
      (Ne.symm hnew.2.1) (Ne.symm hnew.2.2) data a b c p q r z type
    refine .inr ⟨by simp [Spread], fun ret t' h hcolored => ?_⟩
    rw [htree] at h
    obtain ⟨-, rfl⟩ := Prod.mk.inj (Option.some.inj h)
    obtain ⟨n, hn⟩ := hcolored.balanced
    rw [hheight] at hn
    cases hn

/-- The keys of such a tree are spread. -/
theorem Shape.spread (h : Shape ks o) : Spread ks := by
  cases h with
  | empty => exact Nat.zero_le _
  | one v a b => exact Nat.le_succ _
  | two v w a b c => exact le_rfl
  | three v w u a b c d hne => exact toward_ne.mp hne

/-- The blocks that an insertion of a new key takes. -/
theorem Shape.blocks (h : Shape ks o) : insertBlocks o 0 + ks.length = 3 + (ks.length - 1) := by
  cases h <;> simp [insertBlocks]

end Shapes

/-! ### The calls -/

/-- What is reached by insertions that leave a red-black tree each, `free` being the number of free
blocks before them. -/
structure Reached (free : ℕ) (done : List Entry) (h : ℕ) (m : Heap) (o : Option Tree) : Prop where
  ok : PoolOk m
  rooted : Rooted m h o
  shape : Shape (keyList done) o
  ordered : ∀ t ∈ o, Ordered t
  bindings : (bindingsOf o).Perm (firstBindings done)
  count : m.pool.free.length + 3 * done.length = free + ((keyList done).length - 1)

/-- There are enough blocks for some further insertions, and their keys are spread. -/
def Fits (free : ℕ) : List Entry → List Entry → Prop
  | _, [] => True
  | done, e :: es => 3 * (done.length + 1) ≤ free + ((keyList done).length - 1) ∧
    Spread (keyList (done ++ [e])) ∧ Fits free (done ++ [e]) es

section Calls

variable {free fuel h h' a b c : ℕ} {done : List Entry} {m m' : Heap} {o : Option Tree} {e : Entry}
  {ret : ℤ} {t : Tree}

/-- A key is entered once. -/
theorem keyList_concat (es : List Entry) (e : Entry) : keyList (es ++ [e]) =
    if e.1 ∈ es.map Prod.fst then keyList es else keyList es ++ [e.1] := by
  rw [keyList, firstBindings_concat, apply_ite (List.map Prod.fst), List.map_append]
  rfl

/-- The keys entered are those of the entries. -/
theorem mem_keyList {es : List Entry} {key : BitVec 32} :
    key ∈ keyList es ↔ key ∈ es.map Prod.fst := mem_keys_firstBindings

/-- A memory holds one tree at a root. -/
theorem Rooted.unique {t' : Tree} (h : Rooted m a (some t)) (h' : Rooted m a (some t')) :
    t = t' :=
  h.2.1.sub.unique h'.2.1.sub (h.1.symm.trans h'.1)

/-- One more insertion, as `insertTree` says. -/
theorem Reached.next (hr : Reached free done h m o)
    (htree : insertTree e.1 e.2.1 e.2.2 a b c o = some (ret, t))
    (hspread : Spread (keyList (done ++ [e])))
    (hins : Inserted m m' h' t (insertBlocks o ret)) :
    (e.1 ∉ done.map Prod.fst → ret = 0) ∧ Reached free (done ++ [e]) h' m' (some t) := by
  have hkeys : (bindingsOf o).map Prod.fst ⊆ keyList done ∧
      keyList done ⊆ (bindingsOf o).map Prod.fst :=
    ⟨(hr.bindings.map Prod.fst).subset, (hr.bindings.map Prod.fst).symm.subset⟩
  have hcount := hr.count
  have hfree := hins.free
  have hlength : (done ++ [e]).length = done.length + 1 := List.length_append
  -- the ledger grows by an entry, the tree only where the key is new
  rcases insertTree_ordered hr.ordered htree with ⟨rfl, rfl, hmem⟩ | ⟨rfl, hnew, hord, hperm⟩
  · -- the key is bound
    have hold : e.1 ∈ done.map Prod.fst := by
      rw [keys_eq_map_bindings] at hmem
      exact mem_keyList.mp (hkeys.1 hmem)
    have hlist : keyList (done ++ [e]) = keyList done := by rw [keyList_concat, if_pos hold]
    refine ⟨fun hnew => absurd hold hnew, hins.ok, hins.rooted, hlist ▸ hr.shape, hr.ordered, ?_,
      ?_⟩
    · rw [firstBindings_concat, if_pos hold]
      exact hr.bindings
    · have hblocks : insertBlocks (some t) (-1) = 3 := rfl
      rw [hlist]
      omega
  · have hold : e.1 ∉ done.map Prod.fst := fun hmem => hnew (hkeys.2 (mem_keyList.mpr hmem))
    have hlist : keyList (done ++ [e]) = keyList done ++ [e.1] := by
      rw [keyList_concat, if_neg hold]
    have hlast : (keyList (done ++ [e])).length = (keyList done).length + 1 := by
      rw [hlist, List.length_append, List.length_singleton]
    -- a spread list of keys never meets the case that is not repaired
    have hshape : Shape (keyList (done ++ [e])) (some t) := by
      rw [hlist] at hspread ⊢
      rcases hr.shape.insert (fun hmem => hold (mem_keyList.mp hmem)) e.2.1 a b c e.2.2 with
        ⟨-, t', htree', hshape⟩ | ⟨hnot, -⟩
      · rw [htree] at htree'
        obtain ⟨-, rfl⟩ := Prod.mk.inj (Option.some.inj htree')
        exact hshape
      · exact absurd hspread hnot
    refine ⟨fun _ => rfl, hins.ok, hins.rooted, hshape, by simpa using hord, ?_, ?_⟩
    · rw [firstBindings_concat, if_neg hold]
      exact hperm.trans ((hr.bindings.cons e).trans (List.perm_append_singleton e _).symm)
    · have hblocks := hr.shape.blocks
      rw [hlast]
      omega

/-- A call of which the rest is right. -/
theorem Reached.of_call (hr : Reached free done h m o)
    (hcall : rbtreeInsert fuel h e.1 e.2.1 e.2.2 m = .ok (ret, h', m'))
    (htree : IsTree (done ++ [e]) h' m') :
    3 ≤ m.pool.free.length ∧ Spread (keyList (done ++ [e])) ∧
      ∃ t, Reached free (done ++ [e]) h' m' (some t) := by
  obtain ⟨a, b, c, rest, t, hfree, htree', hins⟩ := rbtreeInsert_ok hr.ok hr.rooted hcall
  have hspread : Spread (keyList (done ++ [e])) := by
    by_contra hnot
    obtain ⟨t', hrooted, -, hcolored, -⟩ := htree
    obtain rfl := hins.rooted.unique hrooted
    rw [keyList_concat] at hnot
    split_ifs at hnot with hold
    · exact hnot hr.shape.spread
    · rcases hr.shape.insert (fun hmem => hold (mem_keyList.mp hmem)) e.2.1 a b c e.2.2 with
        ⟨hspread, -⟩ | ⟨-, hbad⟩
      · exact hnot hspread
      · exact hbad _ _ htree' hcolored
  refine ⟨?_, hspread, t, (hr.next htree' hspread hins).2⟩
  rw [hfree]
  exact Nat.le_add_left 3 rest.length

/-- A call with enough blocks for a key that keeps the keys spread. -/
theorem Reached.call (hr : Reached free done h m o) (hroom : 3 ≤ m.pool.free.length)
    (hspread : Spread (keyList (done ++ [e]))) :
    ∃ fuel ret h' m' t, rbtreeInsert fuel h e.1 e.2.1 e.2.2 m = .ok (ret, h', m') ∧
      (e.1 ∉ done.map Prod.fst → ret = 0) ∧ Reached free (done ++ [e]) h' m' (some t) := by
  obtain ⟨a, b, c, rest, hfree⟩ := exists_of_three_le hroom
  have hsome : insertTree e.1 e.2.1 e.2.2 a b c o ≠ none := by
    rw [keyList_concat] at hspread
    split_ifs at hspread with hold
    · cases o with
      | none =>
        have hnil : firstBindings done = [] := List.nil_perm.mp hr.bindings
        have hmem := mem_keyList.mpr hold
        rw [keyList, hnil] at hmem
        cases hmem
      | some t =>
        have hmem : e.1 ∈ keys t := by
          rw [keys_eq_map_bindings]
          exact (hr.bindings.map Prod.fst).symm.subset (mem_keyList.mpr hold)
        rw [insertTree, (seek_eq_none e.1 (hr.ordered t rfl) []).mpr hmem]
        exact Option.some_ne_none _
    · rcases hr.shape.insert (fun hmem => hold (mem_keyList.mp hmem)) e.2.1 a b c e.2.2 with
        ⟨-, t, htree, -⟩ | ⟨hnot, -⟩
      · rw [htree]
        exact Option.some_ne_none _
      · exact absurd hspread hnot
  rcases rbtreeInsert_spec e.1 e.2.1 e.2.2 hr.ok hr.rooted hfree
    (insertRounds o + 1) with ⟨ret, t, h', m', hcall, htree, hins⟩ | ⟨-, hnone | hle⟩
  · exact ⟨_, ret, h', m', t, hcall, hr.next htree hspread hins⟩
  · exact absurd hnone hsome
  · exact absurd hle (Nat.not_succ_le_self _)

/-- The calls that are still to come are right if there are enough blocks for them, and their keys
are spread. -/
theorem Reached.builds_iff (hr : Reached free done h m o) (es : List Entry) :
    Builds done h m es ↔ Fits free done es := by
  induction es generalizing done h m o with
  | nil => exact Iff.rfl
  | cons e es ih =>
    have hcount := hr.count
    rw [Builds, Fits]
    constructor
    · rintro ⟨fuel, ret, h', m', hcall, -, htree, hrest⟩
      obtain ⟨hroom, hspread, t, hr'⟩ := hr.of_call hcall htree
      exact ⟨by omega, hspread, (ih hr').mp hrest⟩
    · rintro ⟨hroom, hspread, hrest⟩
      obtain ⟨fuel, ret, h', m', t, hcall, hret, hr'⟩ := hr.call (by omega) hspread
      exact ⟨fuel, ret, h', m', hcall, hret, ⟨t, hr'.rooted, hr'.ordered t rfl, hr'.shape.colored,
        hr'.bindings⟩, (ih hr').mpr hrest⟩

end Calls

/-! ### The condition -/

/-- The blocks for a sequence of calls. A call needs three blocks; it keeps two if it adds a key to
other ones, and three otherwise. -/
def Enough (free : ℕ) (es : List Entry) : Prop :=
  es = [] ∨ 3 * es.length ≤ free + ((keyList es.dropLast).length - 1)

section Condition

variable {free : ℕ} {done es : List Entry}

/-- The first keys of a spread list are spread. -/
theorem Spread.of_prefix {ks ks' : List (BitVec 32)} (h : Spread ks') (hpre : ks <+: ks') :
    Spread ks := by
  obtain ⟨rest, rfl⟩ := hpre
  match ks, rest with
  | [], _ | [_], _ | [_, _], _ => simp [Spread]
  | [x, y, z], [] => simpa using h
  | [x, y, z], _ :: _ => simp [Spread] at h
  | _ :: _ :: _ :: _ :: _, rest => simp [Spread] at h

/-- The keys of the first entries come first. -/
theorem keyList_initial (done es : List Entry) : keyList done <+: keyList (done ++ es) := by
  induction es using List.reverseRecOn with
  | nil => rw [List.append_nil]
  | append_singleton es e ih =>
    rw [← List.append_assoc, keyList_concat]
    split_ifs
    · exact ih
    · exact ih.trans (List.prefix_append _ _)

/-- Each entry has at most one new key. -/
theorem length_keyList_le (done es : List Entry) :
    (keyList (done ++ es)).length ≤ (keyList done).length + es.length := by
  induction es using List.reverseRecOn with
  | nil => rw [List.append_nil, List.length_nil, Nat.add_zero]
  | append_singleton es e ih =>
    rw [← List.append_assoc, keyList_concat, List.length_append, List.length_singleton]
    split_ifs
    · omega
    · rw [List.length_append, List.length_singleton]
      omega

/-- The condition of a whole sequence is that of its last call. -/
theorem fits_cons_iff (e : Entry) :
    Fits free done (e :: es) ↔ Spread (keyList (done ++ e :: es)) ∧
      3 * (done.length + es.length + 1) ≤
        free + ((keyList (done ++ (e :: es).dropLast)).length - 1) := by
  induction es generalizing done e with
  | nil =>
    rw [Fits, Fits, List.dropLast_singleton, List.append_nil, List.length_nil, Nat.add_zero,
      and_true, and_comm]
  | cons e' es ih =>
    have happend (l : List Entry) : done ++ e :: l = done ++ [e] ++ l := by simp
    have hlength := length_keyList_le done (e :: (e' :: es).dropLast)
    simp only [List.length_cons, List.length_dropLast, Nat.add_sub_cancel] at hlength
    rw [Fits, ih, happend (e' :: es), List.dropLast_cons_cons, happend (e' :: es).dropLast,
      List.length_append, List.length_singleton, List.length_cons]
    rw [happend (e' :: es).dropLast] at hlength
    constructor
    · rintro ⟨-, -, hspread, hroom⟩
      exact ⟨hspread, by omega⟩
    · rintro ⟨hspread, hroom⟩
      exact ⟨by omega, hspread.of_prefix (keyList_initial _ _), hspread, by omega⟩

/-- From the start on: the keys are spread, and there are enough blocks. -/
theorem fits_iff : Fits free [] es ↔ Spread (keyList es) ∧ Enough free es := by
  cases es with
  | nil => exact iff_of_true trivial ⟨Nat.zero_le _, .inl rfl⟩
  | cons e es =>
    rw [fits_cons_iff, Enough, or_iff_right (List.cons_ne_nil _ _), List.nil_append,
      List.nil_append, List.length_nil, Nat.zero_add, List.length_cons]

end Condition

/-- A cache from which a tree is built. -/
structure Blocks where
  heap : Heap
  ok : PoolOk heap

namespace Blocks

variable (B : Blocks) (es : List Entry)

/-- The calls into a null pointer are right. -/
def Builds : Prop := Rbtree.Builds [] 0 B.heap es

/-- Before the first insertion. -/
theorem reached : Reached B.heap.pool.free.length [] 0 B.heap none where
  ok := B.ok
  rooted := rfl
  shape := .empty
  ordered := fun t ht => by cases ht
  bindings := List.Perm.refl _
  count := rfl

/-- The program builds a red-black tree of up to two keys, and one of three if the first one is
between the others. -/
theorem builds_iff_spread :
    B.Builds es ↔ Spread (keyList es) ∧ Enough B.heap.pool.free.length es :=
  (B.reached.builds_iff es).trans fits_iff

/-- A cache with nine blocks. -/
def nine : Blocks where
  heap := ⟨fun _ => .zero, ⟨[1, 2, 3, 4, 5, 6, 7, 8, 9], ∅⟩, 10, 11⟩
  ok := ⟨⟨by decide, by decide⟩, by decide, by decide, by decide⟩

/-- The keys 1, 2 and 3 call for a rotation at the root. -/
theorem not_forall_builds : ¬∀ (B : Blocks) (es : List Entry),
    3 * es.length ≤ B.heap.pool.free.length → B.Builds es := by
  intro h
  have hbuilds := h nine [(1, 0, 0), (2, 0, 0), (3, 0, 0)] (by decide)
  have hspread : (1 : BitVec 32).slt 2 ≠ (1 : BitVec 32).slt 3 :=
    (fits_iff.mp ((nine.reached.builds_iff _).mp hbuilds)).1
  exact hspread (by decide)

end Blocks

end Rbtree

end Lidas
