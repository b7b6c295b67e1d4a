import Mathlib.Data.Option.Basic

/-!
# Three-valued conditions

A condition of SQL is true, false or null. A `WHERE` and a `CASE WHEN` take the branch only when the
condition is true, so what matters of a condition is `IsTrue`, and the lemmas below read it through the
connectives. A comparison with a null is null.
-/

namespace JobScripts.Lib.Sql

/-- The value of a condition; `none` is null. -/
abbrev Truth := Option Bool

/-- The condition holds: a `WHERE` keeps the row, a `CASE WHEN` takes the branch. -/
def Truth.IsTrue (t : Truth) : Prop := t = some true

instance (t : Truth) : Decidable t.IsTrue := inferInstanceAs (Decidable (t = some true))

/-- `a = b`: unknown where one of them is null. -/
def eq {α : Type*} [DecidableEq α] (a b : Option α) : Truth :=
  a.bind fun x => b.map fun y => decide (x = y)

/-- `a IS NULL`: never unknown. -/
def isNull {α : Type*} (a : Option α) : Truth := some a.isNone

/-- `p AND q`: false when one is false, else null when one is null. -/
def and (p q : Truth) : Truth :=
  match p, q with
  | some false, _ | _, some false => some false
  | some true, some true => some true
  | _, _ => none

/-- `p OR q`: true when one is true, else null when one is null. -/
def or (p q : Truth) : Truth :=
  match p, q with
  | some true, _ | _, some true => some true
  | some false, some false => some false
  | _, _ => none

variable {p q : Truth}

/-- A conjunction is true when both are. -/
@[simp]
theorem and_isTrue : (and p q).IsTrue ↔ p.IsTrue ∧ q.IsTrue := by
  rcases p with _ | _ | _ <;> rcases q with _ | _ | _ <;> simp [and, Truth.IsTrue]

/-- A disjunction is true when one is. -/
@[simp]
theorem or_isTrue : (or p q).IsTrue ↔ p.IsTrue ∨ q.IsTrue := by
  rcases p with _ | _ | _ <;> rcases q with _ | _ | _ <;> simp [or, Truth.IsTrue]

/-- A condition that is not null is true where it holds. -/
theorem some_isTrue {b : Bool} : Truth.IsTrue (some b) ↔ b = true := Option.some_inj

/-- A comparison is true when both are there and equal. -/
@[simp]
theorem eq_isTrue {α : Type*} [DecidableEq α] {a b : Option α} :
    (eq a b).IsTrue ↔ ∃ x, a = some x ∧ b = some x := by
  cases a with
  | none => simp [eq, Truth.IsTrue]
  | some x => cases b <;> simp [eq, Truth.IsTrue, eq_comm]

/-- A null test is true of a null. -/
@[simp]
theorem isNull_isTrue {α : Type*} {a : Option α} : (isNull a).IsTrue ↔ a = none := by
  cases a <;> simp [isNull, Truth.IsTrue]

end JobScripts.Lib.Sql
