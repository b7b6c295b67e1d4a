import Mathlib.Algebra.BigOperators.Group.List.Basic
import Mathlib.Data.Int.Log
import Mathlib.Data.Rat.Floor
import Mathlib.Tactic.Linarith
import Mathlib.Tactic.NormNum
import Mathlib.Tactic.Positivity

/-!
# Decimal arithmetic

A context of Python's `decimal` gives a result so many digits, the last of them rounded half even, and its signal
`Overflow` is raised where the exponent would be too large. Numbers are rationals here: a sign of zero and trailing
zeros make no difference to a sum.

What has few enough digits is kept (`round_of_digits`), and a sum that is kept all along is the exact one
(`sum_of_keeps`).
-/

namespace JobScripts.Lib.Decimals

/-! ## Half even -/

/-- The nearest integer, and of two the even one. -/
def halfEven (q : ℚ) : ℤ :=
  if q - ⌊q⌋ < 1 / 2 then ⌊q⌋
  else if 1 / 2 < q - ⌊q⌋ then ⌊q⌋ + 1
  else ⌊q⌋ + ⌊q⌋ % 2

/-- An integer is its own. -/
theorem halfEven_intCast (n : ℤ) : halfEven n = n := by
  unfold halfEven
  rw [Int.floor_intCast, sub_self, if_pos (by norm_num)]

/-- It is at most a half away. -/
theorem sub_halfEven_le (q : ℚ) : q - halfEven q ≤ 1 / 2 := by
  have hfloor := Int.floor_le q
  unfold halfEven
  split_ifs with hbelow habove
  · exact hbelow.le
  · push_cast
    linarith [Int.lt_floor_add_one q]
  · obtain heven | hodd := Int.emod_two_eq_zero_or_one ⌊q⌋
    · rw [heven, add_zero]
      exact not_lt.mp habove
    · rw [hodd]
      push_cast
      linarith [Int.lt_floor_add_one q]

/-- That of a number that is not negative is not negative. -/
theorem halfEven_nonneg {q : ℚ} (h : 0 ≤ q) : 0 ≤ halfEven q := by
  have hfloor := Int.floor_nonneg.mpr h
  unfold halfEven
  split_ifs <;> omega

/-! ## Half up -/

/-- The nearest integer, and of two the one farther from zero. -/
def halfUp (q : ℚ) : ℤ := if 0 ≤ q then ⌊q + 1 / 2⌋ else -⌊-q + 1 / 2⌋

/-- A number with so many decimals, as a column keeps it. -/
def numeric (scale : ℕ) (q : ℚ) : ℚ := halfUp (q * 10 ^ scale) / 10 ^ scale

/-! ## Contexts -/

/-- A context: its precision and the bounds of an adjusted exponent. -/
structure Context where
  prec : ℕ
  emax : ℤ
  emin : ℤ

namespace Context

variable (c : Context)

/-- The exponent of the least digit that a result may have, however small it is. -/
def etiny : ℤ := c.emin - (c.prec - 1)

/-- The exponent of the last digit of a result. -/
def exponent (q : ℚ) : ℤ := max (Int.log 10 |q| - (c.prec - 1)) c.etiny

/-- A number with as many digits as the context has. -/
def round (q : ℚ) : ℚ := halfEven (q / 10 ^ c.exponent q) * 10 ^ c.exponent q

/-- The result of an operation, where `Overflow` is not raised. -/
def result (q : ℚ) : Option ℚ := if 10 ^ (c.emax + 1) ≤ |c.round q| then none else some (c.round q)

/-- A sum from one number on. -/
def sumFrom : ℚ → List ℚ → Option ℚ
  | acc, [] => some acc
  | acc, q :: rest => (c.result (acc + q)).bind fun acc => sumFrom acc rest

/-- `sum(amounts, Decimal(0))`: the amounts added from the left, each sum rounded, if none overflows. -/
def sum (amounts : List ℚ) : Option ℚ := c.sumFrom 0 amounts

/-- The context keeps a number as it is. -/
def Keeps (q : ℚ) : Prop := c.result q = some q

/-! ## What is kept -/

variable {c}

/-- A number with few enough digits is not rounded. -/
theorem round_of_digits {n e : ℤ} (hn : |n| < 10 ^ c.prec) (he : c.etiny ≤ e) :
    c.round (n * 10 ^ e) = n * 10 ^ e := by
  have hexponent : c.exponent (n * 10 ^ e) ≤ e ∨ n = 0 := by
    by_cases hzero : n = 0
    · exact .inr hzero
    · have hpos : (0 : ℚ) < |(n : ℚ) * 10 ^ e| :=
        abs_pos.mpr (mul_ne_zero (Int.cast_ne_zero.mpr hzero) (zpow_ne_zero e (by norm_num)))
      have hlt : |(n : ℚ) * 10 ^ e| < ((10 : ℕ) : ℚ) ^ ((c.prec : ℤ) + e) := by
        have habs : |(n : ℚ)| < 10 ^ c.prec := by exact_mod_cast hn
        rw [abs_mul, abs_of_pos (zpow_pos (by norm_num : (0 : ℚ) < 10) e), Nat.cast_ofNat,
          zpow_add₀ (by norm_num : (10 : ℚ) ≠ 0), zpow_natCast]
        exact mul_lt_mul_of_pos_right habs (zpow_pos (by norm_num) e)
      have hlog : Int.log 10 |(n : ℚ) * 10 ^ e| < c.prec + e := (Int.lt_zpow_iff_log_lt (by norm_num) hpos).mp hlt
      exact .inl (max_le (by omega) he)
  unfold round
  rcases hexponent with hle | rfl
  · -- The last digit that the context has is none after the number's own.
    obtain ⟨k, hk⟩ := Int.le.dest hle
    have hten : (10 : ℚ) ^ c.exponent (n * 10 ^ e) ≠ 0 := zpow_ne_zero _ (by norm_num)
    have hdiv : (n : ℚ) * 10 ^ e / 10 ^ c.exponent (n * 10 ^ e) = ((n * 10 ^ k : ℤ) : ℚ) := by
      rw [div_eq_iff hten]
      push_cast
      rw [mul_assoc, ← zpow_natCast, ← zpow_add₀ (by norm_num : (10 : ℚ) ≠ 0), add_comm (k : ℤ), hk]
    rw [hdiv, halfEven_intCast, ← hdiv, div_mul_cancel₀ _ hten]
  · have hzero : halfEven 0 = 0 := by exact_mod_cast halfEven_intCast 0
    rw [Int.cast_zero, zero_mul, zero_div, hzero, Int.cast_zero, zero_mul]

/-- It is kept, unless it is too large. -/
theorem result_of_digits {n e : ℤ} (hn : |n| < 10 ^ c.prec) (he : c.etiny ≤ e) :
    c.result (n * 10 ^ e) =
      if 10 ^ (c.emax + 1) ≤ |(n : ℚ) * 10 ^ e| then none else some ((n : ℚ) * 10 ^ e) := by
  unfold result
  rw [round_of_digits hn he]

/-- A sum of numbers that is kept all along is the exact one. -/
theorem sumFrom_of_keeps {amounts : List ℚ} : ∀ {acc : ℚ}, (∀ p, p <+: amounts → p ≠ [] → c.Keeps (acc + p.sum)) →
    c.sumFrom acc amounts = some (acc + amounts.sum) := by
  induction amounts with
  | nil =>
    intro acc _
    rw [List.sum_nil, add_zero, sumFrom]
  | cons q rest ih =>
    intro acc h
    have hq : c.result (acc + q) = some (acc + q) := by
      have hkeep := h [q] ⟨rest, rfl⟩ (List.cons_ne_nil q [])
      rwa [List.sum_singleton] at hkeep
    rw [sumFrom, hq, Option.bind_some, ih, List.sum_cons, add_assoc]
    intro p hp hne
    have hkeep := h (q :: p) (List.cons_prefix_cons.mpr ⟨rfl, hp⟩) (List.cons_ne_nil q p)
    rwa [List.sum_cons, ← add_assoc] at hkeep

/-- So it is from zero on. -/
theorem sum_of_keeps {amounts : List ℚ} (h : ∀ p, p <+: amounts → p ≠ [] → c.Keeps p.sum) :
    c.sum amounts = some amounts.sum := by
  have hfrom : c.sumFrom 0 amounts = some (0 + amounts.sum) := sumFrom_of_keeps fun p hp hne => by
    rw [zero_add]
    exact h p hp hne
  rwa [zero_add] at hfrom

end Context

/-- Python's default context. -/
def defaultContext : Context where
  prec := 28
  emax := 999999
  emin := -999999

end JobScripts.Lib.Decimals
