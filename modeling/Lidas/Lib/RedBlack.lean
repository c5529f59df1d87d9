import Mathlib.Data.List.Basic
import Mathlib.Tactic.Common

/-!
# Binary trees with colours

Trees with colours at their nodes, values of their own at the nodes and at the leaves, and no
order: what the operations of a balanced search tree do is described by the word `inorder`, which
they keep when they rebalance.

A place in a tree is a path of `Frame`s, the innermost first, and `plug` puts a tree there. `Side`
makes one statement of two mirror images: `fork` takes the child at the given side first.

`blackHeight` is the number of black nodes on every path to a leaf, if it is the same for all. It is
fixed by the sibling at every place but the root, `blackHeight_eq_of_plug`.
-/

namespace Lidas

inductive Side where
  | left
  | right
  deriving DecidableEq, Repr

namespace Side

def other : Side → Side
  | left => right
  | right => left

@[simp] theorem other_other (s : Side) : s.other.other = s := by cases s <;> rfl

theorem ne_iff {s s' : Side} : s ≠ s' ↔ s = s'.other := by cases s <;> cases s' <;> decide

/-- The component at a side. -/
def pick {β : Type*} (s : Side) (x y : β) : β :=
  match s with
  | left => x
  | right => y

end Side

inductive Color where
  | black
  | red
  deriving DecidableEq, Repr

theorem Color.ne_red {c : Color} : c ≠ red ↔ c = black := by cases c <;> decide

theorem Color.ne_black {c : Color} : c ≠ black ↔ c = red := by cases c <;> decide

/-- A binary tree with colours; `ν` are the values of its nodes, `κ` those of its leaves. -/
inductive RbTree (ν κ : Type) where
  | leaf (k : κ)
  | node (c : Color) (v : ν) (l r : RbTree ν κ)
  deriving DecidableEq

namespace RbTree

variable {ν κ : Type}

/-- A node with the child at side `s` first. -/
def fork (s : Side) (c : Color) (v : ν) (x y : RbTree ν κ) : RbTree ν κ :=
  match s with
  | .left => node c v x y
  | .right => node c v y x

/-- Leaves are black. -/
def color : RbTree ν κ → Color
  | leaf _ => .black
  | node c _ _ _ => c

/-- The tree with the colour of its root set. -/
def paint (c : Color) : RbTree ν κ → RbTree ν κ
  | leaf k => leaf k
  | node _ v l r => node c v l r

/-- The nodes and the leaves in order. -/
def inorder : RbTree ν κ → List (ν ⊕ κ)
  | leaf k => [.inr k]
  | node _ v l r => inorder l ++ .inl v :: inorder r

/-- The values of the nodes, in order. -/
def values (t : RbTree ν κ) : List ν := t.inorder.filterMap Sum.getLeft?

/-- The number of nodes. -/
def size (t : RbTree ν κ) : ℕ := t.values.length

/-- The number of nodes on a longest path. -/
def height : RbTree ν κ → ℕ
  | leaf _ => 0
  | node _ _ l r => max (height l) (height r) + 1

section Lemmas

variable (s : Side) (c c' : Color) (v w : ν) (k : κ) (x y z l r t : RbTree ν κ)

theorem fork_other : fork s.other c v x y = fork s c v y x := by cases s <;> rfl

/-- Any node can be seen from either side. -/
theorem node_eq_fork : node c v l r = fork s c v (s.pick l r) (s.other.pick l r) := by
  cases s <;> rfl

@[simp] theorem color_leaf : (leaf k : RbTree ν κ).color = .black := rfl

@[simp] theorem color_node : (node c v l r).color = c := rfl

@[simp] theorem color_fork : (fork s c v x y).color = c := by cases s <;> rfl

@[simp] theorem paint_fork : (fork s c v x y).paint c' = fork s c' v x y := by cases s <;> rfl

theorem fork_ne_leaf : fork s c v x y ≠ leaf k := by cases s <;> simp [fork]

/-- The inorder walk does not see colours. -/
@[simp] theorem inorder_paint : (t.paint c).inorder = t.inorder := by cases t <;> rfl

/-- The word of a tree is kept by rotations. -/
theorem inorder_rotate (c₁ c₂ c₃ c₄ : Color) :
    (fork s c₁ v x (fork s c₂ w y z)).inorder = (fork s c₃ w (fork s c₄ v x y) z).inorder := by
  cases s <;> simp [fork, inorder]

/-- A node's inorder walk is determined by those of its children. -/
theorem inorder_fork_congr {x' y' : RbTree ν κ} (hx : x.inorder = x'.inorder)
    (hy : y.inorder = y'.inorder) : (fork s c v x y).inorder = (fork s c' v x' y').inorder := by
  cases s <;> simp [fork, inorder, hx, hy]

@[simp] theorem values_leaf : (leaf k : RbTree ν κ).values = [] := rfl

@[simp] theorem values_node : (node c v l r).values = l.values ++ v :: r.values := by
  simp [values, inorder, List.filterMap_append]

theorem values_eq_of_inorder {t t' : RbTree ν κ} (h : t.inorder = t'.inorder) :
    t.values = t'.values := by
  rw [values, h, values]

theorem size_eq_of_inorder {t t' : RbTree ν κ} (h : t.inorder = t'.inorder) : t.size = t'.size :=
  congrArg List.length (values_eq_of_inorder h)

theorem size_node : (node c v l r).size = l.size + r.size + 1 := by simp [size, Nat.add_assoc]

/-- There is one leaf more than there are nodes. -/
theorem length_inorder : t.inorder.length = 2 * t.size + 1 := by
  induction t with
  | leaf k => rfl
  | node c v l r ihl ihr =>
    rw [inorder, List.length_append, List.length_cons, ihl, ihr, size_node]
    omega

/-- A tree is at most as high as it has inner nodes. -/
theorem height_le_size : t.height ≤ t.size := by
  induction t with
  | leaf k => exact Nat.zero_le _
  | node c v l r ihl ihr =>
    rw [height, size_node]
    omega

theorem height_fork : (fork s c v x y).height = max x.height y.height + 1 := by
  cases s
  · rfl
  · exact congrArg (· + 1) (Nat.max_comm _ _)

end Lemmas

/-! ### Places -/

/-- A node on the way down to a place: the side taken, its colour and value, and the child at the
other side. -/
structure Frame (ν κ : Type) where
  side : Side
  color : Color
  val : ν
  sib : RbTree ν κ

namespace Frame

/-- The frame with the colour of its node set. -/
abbrev paint (c : Color) (f : Frame ν κ) : Frame ν κ := { f with color := c }

end Frame

/-- The tree with `t` at a place. -/
def plug : List (Frame ν κ) → RbTree ν κ → RbTree ν κ
  | [], t => t
  | f :: fs, t => plug fs (fork f.side f.color f.val t f.sib)

/-- What is on the left of a place. -/
def before : List (Frame ν κ) → List (ν ⊕ κ)
  | [] => []
  | f :: fs => before fs ++ f.side.pick [] (f.sib.inorder ++ [.inl f.val])

/-- What is on the right of a place. -/
def after : List (Frame ν κ) → List (ν ⊕ κ)
  | [] => []
  | f :: fs => f.side.pick (.inl f.val :: f.sib.inorder) [] ++ after fs

section Places

variable {fs : List (Frame ν κ)} {f : Frame ν κ} {t t' : RbTree ν κ}

@[simp] theorem plug_nil : plug [] t = t := rfl

@[simp] theorem plug_cons : plug (f :: fs) t = plug fs (fork f.side f.color f.val t f.sib) := rfl

/-- The walk of a tree in its place: what is before, the tree, what is after. -/
theorem inorder_plug (fs : List (Frame ν κ)) (t : RbTree ν κ) :
    (plug fs t).inorder = before fs ++ t.inorder ++ after fs := by
  induction fs generalizing t with
  | nil => simp [before, after]
  | cons f fs ih =>
    rw [plug, ih, before, after]
    cases f.side <;> simp [fork, inorder, Side.pick]

/-- The way down to a subtree and the subtree's height fit into the height of the whole. -/
theorem length_add_height_le (fs : List (Frame ν κ)) (t : RbTree ν κ) :
    fs.length + t.height ≤ (plug fs t).height := by
  induction fs generalizing t with
  | nil => simp
  | cons f fs ih =>
    have hle := ih (fork f.side f.color f.val t f.sib)
    rw [height_fork] at hle
    rw [List.length_cons, plug]
    omega

/-- The number of nodes around a place does not depend on the tree there. -/
theorem size_plug_add (fs : List (Frame ν κ)) (t t' : RbTree ν κ) :
    (plug fs t).size + t'.size = (plug fs t').size + t.size := by
  have hlength := length_inorder (plug fs t)
  have hlength' := length_inorder (plug fs t')
  rw [inorder_plug, List.length_append, List.length_append, length_inorder] at hlength hlength'
  omega

/-- A subtree can be exchanged for one of the same walk. -/
theorem inorder_plug_congr (h : t.inorder = t'.inorder) (fs : List (Frame ν κ)) :
    (plug fs t).inorder = (plug fs t').inorder := by
  rw [inorder_plug, inorder_plug, h]

end Places

/-! ### Colours -/

/-- No red node has a red child. -/
def NoRedRed : RbTree ν κ → Prop
  | leaf _ => True
  | node c _ l r =>
    (c = .red → l.color = .black ∧ r.color = .black) ∧ NoRedRed l ∧ NoRedRed r

/-- The number of black nodes on the way to a leaf, if it is the same for every leaf. -/
def blackHeight : RbTree ν κ → Option ℕ
  | leaf _ => some 0
  | node c _ l r =>
    match blackHeight l, blackHeight r with
    | some m, some n => if m = n then some (if c = .black then m + 1 else m) else none
    | _, _ => none

/-- The colours of a red-black tree. -/
structure Colored (t : RbTree ν κ) : Prop where
  root : t.color = .black
  noRedRed : t.NoRedRed
  balanced : ∃ n, t.blackHeight = some n

instance decidableNoRedRed : (t : RbTree ν κ) → Decidable t.NoRedRed
  | leaf _ => isTrue trivial
  | node c _ l r =>
    have := decidableNoRedRed l
    have := decidableNoRedRed r
    inferInstanceAs (Decidable ((c = .red → l.color = .black ∧ r.color = .black) ∧ _ ∧ _))

section Colors

variable {s : Side} {c : Color} {v : ν} {l r x y t t' : RbTree ν κ} {n : ℕ}

/-- No red node has a red child, from either side. -/
theorem noRedRed_fork : (fork s c v x y).NoRedRed ↔
    (c = .red → x.color = .black ∧ y.color = .black) ∧ x.NoRedRed ∧ y.NoRedRed := by
  cases s
  · rfl
  · simp only [fork, NoRedRed, and_comm]

/-- The black height of a node, if both children have the same one. -/
theorem blackHeight_node : (node c v l r).blackHeight = some n ↔
    ∃ m, l.blackHeight = some m ∧ r.blackHeight = some m ∧
      n = if c = .black then m + 1 else m := by
  rw [blackHeight]
  cases hl : l.blackHeight with
  | none => simp
  | some a =>
    cases hr : r.blackHeight with
    | none => simp
    | some b =>
      by_cases hab : a = b
      · subst hab
        simp [eq_comm]
      · refine iff_of_false (by simp [hab]) ?_
        rintro ⟨m, ha, hb, -⟩
        exact hab ((Option.some.inj ha).trans (Option.some.inj hb).symm)

/-- The black height, from either side. -/
theorem blackHeight_fork : (fork s c v x y).blackHeight = some n ↔
    ∃ m, x.blackHeight = some m ∧ y.blackHeight = some m ∧
      n = if c = .black then m + 1 else m := by
  cases s
  · exact blackHeight_node
  · rw [fork, blackHeight_node]
    simp only [and_left_comm]

/-- What is at a place of a balanced tree is balanced. -/
theorem blackHeight_of_plug {fs : List (Frame ν κ)} (h : (plug fs t).blackHeight = some n) :
    ∃ k, t.blackHeight = some k := by
  induction fs generalizing t n with
  | nil => exact ⟨n, h⟩
  | cons f fs ih =>
    obtain ⟨k, hk⟩ := ih h
    obtain ⟨m, ht, -, -⟩ := blackHeight_fork.mp hk
    exact ⟨m, ht⟩

/-- Two trees that a balanced tree can have at a place below the root have the same height. -/
theorem blackHeight_eq_of_plug {f : Frame ν κ} {fs : List (Frame ν κ)} {n' : ℕ}
    (h : (plug (f :: fs) t).blackHeight = some n)
    (h' : (plug (f :: fs) t').blackHeight = some n') : t.blackHeight = t'.blackHeight := by
  rw [plug_cons] at h h'
  obtain ⟨k, hk⟩ := blackHeight_of_plug h
  obtain ⟨k', hk'⟩ := blackHeight_of_plug h'
  obtain ⟨m, ht, hsib, -⟩ := blackHeight_fork.mp hk
  obtain ⟨m', ht', hsib', -⟩ := blackHeight_fork.mp hk'
  rw [ht, ht', ← hsib, ← hsib']

/-- No red node of a subtree has a red child if none of the whole tree has. -/
theorem NoRedRed.of_plug {fs : List (Frame ν κ)} (h : (plug fs t).NoRedRed) : t.NoRedRed := by
  induction fs generalizing t with
  | nil => exact h
  | cons f fs ih => exact (noRedRed_fork.mp (ih h)).2.1

/-- A subtree can be exchanged for one with a black root, or with a root of the same colour. -/
theorem NoRedRed.plug_congr {fs : List (Frame ν κ)} (h : (plug fs t).NoRedRed)
    (ht' : t'.NoRedRed) (hcolor : t'.color = .black ∨ t'.color = t.color) :
    (plug fs t').NoRedRed := by
  induction fs generalizing t t' with
  | nil => exact ht'
  | cons f fs ih =>
    have hfork : (fork f.side f.color f.val t f.sib).NoRedRed := NoRedRed.of_plug h
    obtain ⟨hred, -, hsib⟩ := noRedRed_fork.mp hfork
    refine ih h (noRedRed_fork.mpr ⟨fun hf => ⟨?_, (hred hf).2⟩, ht', hsib⟩)
      (.inr (by rw [color_fork, color_fork]))
    exact hcolor.elim id fun heq => heq.trans (hred hf).1

/-- A subtree can be exchanged for one of the same black height. -/
theorem blackHeight_plug_congr (h : t'.blackHeight = t.blackHeight) (fs : List (Frame ν κ)) :
    (plug fs t').blackHeight = (plug fs t).blackHeight := by
  induction fs generalizing t t' with
  | nil => exact h
  | cons f fs ih =>
    refine ih ?_
    cases f.side <;> simp only [fork, blackHeight, h]

/-- The root's colour depends on the subtree at most through the subtree's colour. -/
theorem color_plug_congr (h : t'.color = t.color) (fs : List (Frame ν κ)) :
    (plug fs t').color = (plug fs t).color := by
  induction fs generalizing t t' with
  | nil => exact h
  | cons f fs ih => exact ih (by rw [color_fork, color_fork])

/-- A tree with a black root can take the place of one with the same number of black nodes. -/
theorem Colored.replace {fs : List (Frame ν κ)} (h : Colored (plug fs t))
    (hheight : t'.blackHeight = t.blackHeight) (ht' : t'.NoRedRed) (hblack : t'.color = .black) :
    Colored (plug fs t') := by
  refine ⟨?_, h.noRedRed.plug_congr ht' (.inl hblack), ?_⟩
  · cases fs with
    | nil => exact hblack
    | cons f fs =>
      have hcolor : (fork f.side f.color f.val t' f.sib).color =
          (fork f.side f.color f.val t f.sib).color := by rw [color_fork, color_fork]
      exact (color_plug_congr hcolor fs).trans h.root
  · rw [blackHeight_plug_congr hheight]
    exact h.balanced

end Colors

end RbTree

end Lidas
