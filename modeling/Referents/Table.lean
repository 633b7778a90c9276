/-!
# Growing tables

A **table** holds items in places that are numbered from zero, and grows at its
end only.  It is kept as a binary tree: the item in place `0` is at the root,
place `2 i + 1` is place `i` of the left subtree, and place `2 i + 2` is place
`i` of the right one.  The tree is always balanced, so an item is found and
replaced in logarithmic time, and the table before a change stays as it was.

* `Table.get?_isSome_iff` — the places that hold an item are those below the size.
* `Table.get?_push`, `Table.get?_set_self`, `Table.get?_set_of_ne`, `Table.get?_map` —
  what each operation does to the items.
* `Table.eq_of_get?` — a table is determined by the items in its places.
-/

namespace Referents

/-- The tree of a table. -/
inductive Table.Tree (α : Type) where
  | leaf
  | node (item : α) (left right : Table.Tree α)
deriving DecidableEq

namespace Table.Tree

variable {α β : Type}

/-- The item in a place. -/
def get? : Tree α → Nat → Option α
  | .leaf, _ => none
  | .node a _ _, 0 => some a
  | .node _ l r, i + 1 => if i % 2 = 0 then l.get? (i / 2) else r.get? (i / 2)

/-- Replaces the item in a place, if there is one. -/
def set : Tree α → Nat → α → Tree α
  | .leaf, _, _ => .leaf
  | .node _ l r, 0, x => .node x l r
  | .node a l r, i + 1, x =>
      if i % 2 = 0 then .node a (l.set (i / 2) x) r else .node a l (r.set (i / 2) x)

/-- Puts an item into the first free place of a tree of size `n`. -/
def push : Tree α → Nat → α → Tree α
  | .leaf, _, x => .node x .leaf .leaf
  | .node a l r, n, x =>
      if n % 2 = 1 then .node a (l.push (n / 2) x) r else .node a l (r.push ((n - 1) / 2) x)

/-- Changes every item. -/
def map (f : α → β) : Tree α → Tree β
  | .leaf => .leaf
  | .node a l r => .node (f a) (l.map f) (r.map f)

/-- Whether a tree has an item in each of the first `n` places, and no others. -/
def Balanced : Tree α → Nat → Prop
  | .leaf, n => n = 0
  | .node _ l r, n => 0 < n ∧ l.Balanced (n / 2) ∧ r.Balanced ((n - 1) / 2)

/-- A balanced tree of `n` leaves has exactly the places below `n`. -/
theorem get?_isSome_iff {t : Tree α} {n : Nat} (ht : t.Balanced n) (i : Nat) :
    (t.get? i).isSome ↔ i < n := by
  induction t generalizing n i with
  | leaf =>
      have hn : n = 0 := ht
      simp [get?, hn]
  | node a l r ihl ihr =>
      obtain ⟨hn, hl, hr⟩ := ht
      cases i with
      | zero => simpa [get?] using hn
      | succ i =>
          simp only [get?]
          split
          · rw [ihl hl]; omega
          · rw [ihr hr]; omega

/-- A balanced tree stays balanced when an element is added. -/
theorem Balanced.push {t : Tree α} {n : Nat} (ht : t.Balanced n) (x : α) :
    (t.push n x).Balanced (n + 1) := by
  induction t generalizing n with
  | leaf =>
      have hn : n = 0 := ht
      subst hn
      exact ⟨Nat.one_pos, rfl, rfl⟩
  | node a l r ihl ihr =>
      obtain ⟨hn, hl, hr⟩ := ht
      simp only [Tree.push]
      split
      · refine ⟨by omega, ?_, ?_⟩
        · rw [show (n + 1) / 2 = n / 2 + 1 by omega]
          exact ihl hl
        · rw [show (n + 1 - 1) / 2 = (n - 1) / 2 by omega]
          exact hr
      · refine ⟨by omega, ?_, ?_⟩
        · rw [show (n + 1) / 2 = n / 2 by omega]
          exact hl
        · rw [show (n + 1 - 1) / 2 = (n - 1) / 2 + 1 by omega]
          exact ihr hr

/-- An added element is found at the end, all others where they were. -/
theorem get?_push {t : Tree α} {n : Nat} (ht : t.Balanced n) (x : α) (i : Nat) :
    (t.push n x).get? i = if i = n then some x else t.get? i := by
  induction t generalizing n i with
  | leaf =>
      have hn : n = 0 := ht
      subst hn
      cases i <;> simp [Tree.push, get?]
  | node a l r ihl ihr =>
      obtain ⟨hn, hl, hr⟩ := ht
      cases i with
      | zero =>
          rw [if_neg (by omega)]
          simp only [Tree.push]
          split <;> rfl
      | succ i =>
          simp only [Tree.push]
          split <;> simp only [get?] <;> split
          · simp only [ihl hl, show i / 2 = n / 2 ↔ i + 1 = n by omega]
          · rw [if_neg (by omega)]
          · rw [if_neg (by omega)]
          · simp only [ihr hr, show i / 2 = (n - 1) / 2 ↔ i + 1 = n by omega]

/-- A balanced tree stays balanced when an element is replaced. -/
theorem Balanced.set {t : Tree α} {n : Nat} (ht : t.Balanced n) (i : Nat) (x : α) :
    (t.set i x).Balanced n := by
  induction t generalizing n i with
  | leaf => exact ht
  | node a l r ihl ihr =>
      obtain ⟨hn, hl, hr⟩ := ht
      cases i with
      | zero => exact ⟨hn, hl, hr⟩
      | succ i =>
          simp only [Tree.set]
          split
          · exact ⟨hn, ihl hl _, hr⟩
          · exact ⟨hn, hl, ihr hr _⟩

/-- A replaced element is found in its place. -/
theorem get?_set_self {t : Tree α} {i : Nat} (h : (t.get? i).isSome) (x : α) :
    (t.set i x).get? i = some x := by
  induction t generalizing i with
  | leaf => simp [get?] at h
  | node a l r ihl ihr =>
      cases i with
      | zero => rfl
      | succ i =>
          simp only [get?] at h
          simp only [Tree.set]
          split <;> simp_all [get?]

/-- The other elements stay in their places. -/
theorem get?_set_of_ne {t : Tree α} {i j : Nat} (h : j ≠ i) (x : α) :
    (t.set i x).get? j = t.get? j := by
  induction t generalizing i j with
  | leaf => rfl
  | node a l r ihl ihr =>
      cases i with
      | zero =>
          cases j with
          | zero => exact absurd rfl h
          | succ j => rfl
      | succ i =>
          simp only [Tree.set]
          cases j with
          | zero => split <;> rfl
          | succ j =>
              split <;> simp only [get?] <;> split
              · exact ihl (by omega)
              · rfl
              · rfl
              · exact ihr (by omega)

/-- A balanced tree stays balanced when its elements are mapped. -/
theorem Balanced.map {t : Tree α} {n : Nat} (ht : t.Balanced n) (f : α → β) :
    (t.map f).Balanced n := by
  induction t generalizing n with
  | leaf => exact ht
  | node a l r ihl ihr => exact ⟨ht.1, ihl ht.2.1, ihr ht.2.2⟩

/-- Mapping the elements changes every place by itself. -/
theorem get?_map (t : Tree α) (f : α → β) (i : Nat) : (t.map f).get? i = (t.get? i).map f := by
  induction t generalizing i with
  | leaf => rfl
  | node a l r ihl ihr =>
      cases i with
      | zero => rfl
      | succ i =>
          simp only [Tree.map, get?]
          split
          · exact ihl _
          · exact ihr _

/-- A balanced tree is determined by its elements: its form is canonical. -/
theorem eq_of_get? {s t : Tree α} {n : Nat} (hs : s.Balanced n) (ht : t.Balanced n)
    (h : ∀ i, s.get? i = t.get? i) : s = t := by
  induction s generalizing t n with
  | leaf =>
      cases t with
      | leaf => rfl
      | node b l r => simpa [get?] using h 0
  | node a l r ihl ihr =>
      cases t with
      | leaf => simpa [get?] using h 0
      | node b l' r' =>
          have hab : a = b := by simpa [get?] using h 0
          have hl : l = l' := ihl hs.2.1 ht.2.1 fun i => by
            have hi := h (2 * i + 1)
            simpa only [get?, show 2 * i % 2 = 0 by omega, if_true,
              show 2 * i / 2 = i by omega] using hi
          have hr : r = r' := ihr hs.2.2 ht.2.2 fun i => by
            have hi := h (2 * i + 1 + 1)
            simpa only [get?, show ¬(2 * i + 1) % 2 = 0 by omega, if_false,
              show (2 * i + 1) / 2 = i by omega] using hi
          rw [hab, hl, hr]

end Table.Tree

/-- Items in places `0` to `size - 1`. -/
structure Table (α : Type) where
  tree : Table.Tree α
  size : Nat
  balanced : tree.Balanced size
deriving DecidableEq

namespace Table

variable {α β : Type}

/-- The table without items. -/
def empty : Table α := ⟨.leaf, 0, rfl⟩

/-- The item in a place, if the table reaches that far. -/
def get? (t : Table α) (i : Nat) : Option α := t.tree.get? i

/-- Adds an item at the end. -/
def push (t : Table α) (x : α) : Table α := ⟨t.tree.push t.size x, t.size + 1, t.balanced.push x⟩

/-- Replaces the item in a place, if the table reaches that far. -/
def set (t : Table α) (i : Nat) (x : α) : Table α := ⟨t.tree.set i x, t.size, t.balanced.set i x⟩

/-- Changes every item. -/
def map (f : α → β) (t : Table α) : Table β := ⟨t.tree.map f, t.size, t.balanced.map f⟩

/-- The items in the order of their places. -/
def toList (t : Table α) : List α := (List.range t.size).filterMap t.get?

/-- A table has exactly the places below its size. -/
theorem get?_isSome_iff {t : Table α} {i : Nat} : (t.get? i).isSome ↔ i < t.size :=
  t.tree.get?_isSome_iff t.balanced i

@[simp] theorem size_empty : (empty : Table α).size = 0 := rfl

@[simp] theorem size_push (t : Table α) (x : α) : (t.push x).size = t.size + 1 := rfl

@[simp] theorem size_set (t : Table α) (i : Nat) (x : α) : (t.set i x).size = t.size := rfl

@[simp] theorem size_map (f : α → β) (t : Table α) : (t.map f).size = t.size := rfl

/-- An added element is found at the end, all others where they were. -/
theorem get?_push (t : Table α) (x : α) (i : Nat) :
    (t.push x).get? i = if i = t.size then some x else t.get? i :=
  Tree.get?_push t.balanced x i

/-- A replaced element is found in its place. -/
theorem get?_set_self {t : Table α} {i : Nat} (hi : i < t.size) (x : α) :
    (t.set i x).get? i = some x :=
  Tree.get?_set_self (get?_isSome_iff.mpr hi) x

/-- The other elements stay in their places. -/
theorem get?_set_of_ne (t : Table α) {i j : Nat} (h : j ≠ i) (x : α) :
    (t.set i x).get? j = t.get? j :=
  Tree.get?_set_of_ne h x

/-- Mapping the elements changes every place by itself. -/
@[simp] theorem get?_map (f : α → β) (t : Table α) (i : Nat) :
    (t.map f).get? i = (t.get? i).map f :=
  t.tree.get?_map f i

/-- Tables with the same elements have the same size. -/
theorem size_eq_of_get? {s t : Table α} (h : ∀ i, s.get? i = t.get? i) : s.size = t.size := by
  have below (i : Nat) : i < s.size ↔ i < t.size := by
    rw [← get?_isSome_iff, ← get?_isSome_iff, h i]
  have hs := below s.size
  have ht := below t.size
  omega

/-- A table is determined by its elements. -/
theorem eq_of_get? {s t : Table α} (h : ∀ i, s.get? i = t.get? i) : s = t := by
  have hn := size_eq_of_get? h
  obtain ⟨s, n, hs⟩ := s
  obtain ⟨t, m, ht⟩ := t
  cases hn
  cases Tree.eq_of_get? hs ht h
  rfl

end Table

end Referents
