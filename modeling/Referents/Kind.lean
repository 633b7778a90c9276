import Referents.Handle

/-!
# Reference kinds, generations and link fields

The four kinds are listed from the strongest to the weakest: soft, weak and
final references are resolved together, the referents of final references are
then kept alive, and phantom references come last.
-/

namespace Referents

/-- The kinds of reference objects. -/
inductive RefKind where
  /-- Cleared when the soft policy says so. -/
  | soft
  /-- Cleared as soon as the referent is not strongly reachable. -/
  | weak
  /-- Carries a finalizer, for which the referent is kept alive. -/
  | final
  /-- Reports that the referent is gone, which is never revived. -/
  | phantom
deriving DecidableEq

/-- What an object is: a reference of some kind, or a plain object. -/
abbrev Kind := Option RefKind

namespace RefKind

/-- Every kind, in the order in which lists are visited. -/
def all : List RefKind := [.soft, .weak, .final, .phantom]

/-- The position of a kind in `RefKind.all`. -/
def position : RefKind → Nat
  | .soft => 0
  | .weak => 1
  | .final => 2
  | .phantom => 3

/-- The name of a kind in log text. -/
def name : RefKind → String
  | .soft => "SoftReference"
  | .weak => "WeakReference"
  | .final => "FinalReference"
  | .phantom => "PhantomReference"

/-- The name of the lists of a kind. -/
def listName : RefKind → String
  | .soft => "SoftRef"
  | .weak => "WeakRef"
  | .final => "FinalRef"
  | .phantom => "PhantomRef"

theorem mem_all (k : RefKind) : k ∈ all := by cases k <;> simp [all]

end RefKind

/-- The name of what an object is. -/
def Kind.name : Kind → String
  | none => "None"
  | some k => k.name

/-- The generation an object lives in. -/
inductive Generation where
  | young
  | old
deriving DecidableEq

/-- The link fields of a reference object. -/
inductive LinkField where
  /-- The weakly held target. -/
  | referent
  /-- The link of the discovered list, and later of the pending chain. -/
  | discovered
  /-- Non-null once a final reference has been processed. -/
  | next
deriving DecidableEq

/-- The place of a link field: the object and which of its fields. -/
structure LinkAddr where
  obj : Handle
  field : LinkField
deriving DecidableEq

/-- One value for each reference kind. -/
structure PerKind (α : Type) where
  soft : α
  weak : α
  final : α
  phantom : α
deriving DecidableEq

namespace PerKind

variable {α β : Type}

/-- The same value for every kind. -/
def replicate (a : α) : PerKind α := ⟨a, a, a, a⟩

/-- The value for kind `k`. -/
def get (t : PerKind α) : RefKind → α
  | .soft => t.soft
  | .weak => t.weak
  | .final => t.final
  | .phantom => t.phantom

/-- Replaces the value for kind `k`. -/
def set (t : PerKind α) (k : RefKind) (a : α) : PerKind α :=
  match k with
  | .soft => { t with soft := a }
  | .weak => { t with weak := a }
  | .final => { t with final := a }
  | .phantom => { t with phantom := a }

/-- The values in the order of `RefKind.all`. -/
def toList (t : PerKind α) : List α := RefKind.all.map t.get

@[simp] theorem get_replicate (a : α) (k : RefKind) : (replicate a).get k = a := by
  cases k <;> rfl

@[simp] theorem get_set_self (t : PerKind α) (k : RefKind) (a : α) : (t.set k a).get k = a := by
  cases k <;> rfl

theorem get_set_of_ne (t : PerKind α) {k j : RefKind} (a : α) (h : j ≠ k) :
    (t.set k a).get j = t.get j := by
  cases k <;> cases j <;> simp_all [get, set]

end PerKind

end Referents
