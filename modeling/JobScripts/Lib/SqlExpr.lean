import Mathlib.Algebra.Order.Ring.Rat
import JobScripts.Lib.Sql

/-!
# Numeric expressions of SQL

Expressions over placeholders of numeric values that may be null, in exact arithmetic, with the conditions of their
`CASE`s. `GREATEST` and `LEAST` pass over a null; arithmetic with a null is null.
-/

namespace JobScripts.Lib.Sql

variable {ν : Type}

mutual

/-- A numeric expression over placeholders `ν`. -/
inductive Expr (ν : Type)
  | var (x : ν)
  | lit (q : ℚ)
  | null
  | add (a b : Expr ν)
  | sub (a b : Expr ν)
  | mul (a b : Expr ν)
  | div (a b : Expr ν)
  | greatest (a b : Expr ν)
  | least (a b : Expr ν)
  | coalesce (a b : Expr ν)
  /-- `CASE WHEN p THEN a ELSE b END`: `b` where `p` is unknown, too. -/
  | case (p : Cond ν) (a b : Expr ν)

/-- A condition over the same placeholders. -/
inductive Cond (ν : Type)
  | flag (x : ν)
  | isNull (a : Expr ν)
  | isNotNull (a : Expr ν)
  | ne (a b : Expr ν)
  | gt (a b : Expr ν)
  | and (p q : Cond ν)
  | or (p q : Cond ν)

end

/-- What the placeholders are bound to: numbers, and truth values. -/
structure Binding (ν : Type) where
  number : ν → Option ℚ
  flag : ν → Truth

/-- An operator on two values that is null where one of them is. -/
def lift (f : ℚ → ℚ → ℚ) (a b : Option ℚ) : Option ℚ := a.bind fun x => b.map (f x)

/-- An operator on two values that passes over a null. -/
def lenient (f : ℚ → ℚ → ℚ) : Option ℚ → Option ℚ → Option ℚ
  | some x, some y => some (f x y)
  | some x, none => some x
  | none, b => b

/-- A comparison, null where a side is. -/
def compare (r : ℚ → ℚ → Bool) (a b : Option ℚ) : Truth := a.bind fun x => b.map (r x)

mutual

/-- The value of an expression. -/
def Expr.eval (β : Binding ν) : Expr ν → Option ℚ
  | .var x => β.number x
  | .lit q => some q
  | .null => none
  | .add a b => lift (· + ·) (a.eval β) (b.eval β)
  | .sub a b => lift (· - ·) (a.eval β) (b.eval β)
  | .mul a b => lift (· * ·) (a.eval β) (b.eval β)
  | .div a b => lift (· / ·) (a.eval β) (b.eval β)
  | .greatest a b => lenient max (a.eval β) (b.eval β)
  | .least a b => lenient min (a.eval β) (b.eval β)
  | .coalesce a b => (a.eval β).or (b.eval β)
  | .case p a b => if (p.eval β).IsTrue then a.eval β else b.eval β

/-- The value of a condition. -/
def Cond.eval (β : Binding ν) : Cond ν → Truth
  | .flag x => β.flag x
  | .isNull a => Sql.isNull (a.eval β)
  | .isNotNull a => some (a.eval β).isSome
  | .ne a b => compare (fun x y => decide (x ≠ y)) (a.eval β) (b.eval β)
  | .gt a b => compare (fun x y => decide (y < x)) (a.eval β) (b.eval β)
  | .and p q => Sql.and (p.eval β) (q.eval β)
  | .or p q => Sql.or (p.eval β) (q.eval β)

end

section Values

variable {x y : ℚ} {a : Option ℚ}

/-- Arithmetic on known values. -/
@[simp]
theorem lift_some (f : ℚ → ℚ → ℚ) : lift f (some x) (some y) = some (f x y) := rfl

/-- Known values, of which one is chosen. -/
@[simp]
theorem lenient_some (f : ℚ → ℚ → ℚ) : lenient f (some x) (some y) = some (f x y) := rfl

/-- A comparison is true of known values that it holds of. -/
@[simp]
theorem compare_isTrue {r : ℚ → ℚ → Bool} {b : Option ℚ} :
    (compare r a b).IsTrue ↔ ∃ x y, a = some x ∧ b = some y ∧ r x y = true := by
  unfold compare Truth.IsTrue
  simp only [Option.bind_eq_some_iff, Option.map_eq_some_iff]
  constructor
  · rintro ⟨x, ha, y, hb, hr⟩
    exact ⟨x, y, ha, hb, hr⟩
  · rintro ⟨x, y, ha, hb, hr⟩
    exact ⟨x, ha, y, hb, hr⟩

/-- A test for a value is true of a known one. -/
@[simp]
theorem isSome_isTrue : Truth.IsTrue (some a.isSome) ↔ ∃ x, a = some x := by
  unfold Truth.IsTrue
  rw [Option.some_inj, Option.isSome_iff_exists]

/-- A default. -/
theorem or_some_eq (a : Option ℚ) (y : ℚ) : a.or (some y) = some (a.getD y) := by
  cases a with
  | none => rfl
  | some x => rfl

end Values

end JobScripts.Lib.Sql
