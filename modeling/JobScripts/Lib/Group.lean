import Mathlib.Algebra.BigOperators.Group.List.Basic
import Mathlib.Algebra.Group.WithOne.Defs
import Mathlib.Data.List.Nodup
import Mathlib.Data.List.Perm.Basic

/-!
# Grouped sums

A row is a key with a value, and `group` is `GROUP BY` with every value summed: one row for each key
that occurs. `tally rows k` is the sum at one key as an element of `WithZero`, with `0` for a key that
no row has, so that it says both whether a group exists and what it holds. It is additive over lists,
grouping keeps it (`tally_group`), and lists with the same tallies have the same groups
(`group_perm_of_tally_eq`), also after their keys are cut down to a coarser key
(`tally_map_congr`). Two ways to compute the same sums are compared key by key on their tallies.
-/

namespace JobScripts.Lib

section Tally

variable {K L A E ι : Type*} [DecidableEq K] [DecidableEq L] [AddCommSemigroup A]

/-- The sum of the values at a key, `0` when no row has the key. -/
def tally (rows : List (K × A)) (k : K) : WithZero A :=
  (rows.map fun r => if r.1 = k then (r.2 : WithZero A) else 0).sum

/-- Add a value to the group of its key, a new group when there is none. -/
def addTo (k : K) (a : A) : List (K × A) → List (K × A)
  | [] => [(k, a)]
  | r :: rows => if r.1 = k then (k, a + r.2) :: rows else r :: addTo k a rows

/-- `GROUP BY` the key, with the values of a group summed. -/
def group (rows : List (K × A)) : List (K × A) :=
  rows.foldr (fun r groups => addTo r.1 r.2 groups) []

/-- No rows sum to nothing. -/
@[simp]
theorem tally_nil (k : K) : tally ([] : List (K × A)) k = 0 := rfl

/-- A row adds its value at its own key. -/
@[simp]
theorem tally_cons (r : K × A) (rows : List (K × A)) (k : K) :
    tally (r :: rows) k = (if r.1 = k then (r.2 : WithZero A) else 0) + tally rows k := by
  simp [tally]

/-- The tally is additive over lists of rows. -/
@[simp]
theorem tally_append (xs ys : List (K × A)) (k : K) :
    tally (xs ++ ys) k = tally xs k + tally ys k := by
  simp [tally]

/-- The tally does not see the order of the rows. -/
theorem tally_perm {xs ys : List (K × A)} (h : xs.Perm ys) (k : K) : tally xs k = tally ys k :=
  (h.map _).sum_eq

/-- Adding a value to its group adds it to the sum of every coarser key. -/
theorem tally_map_addTo (f : K → L) (k : K) (a : A) (rows : List (K × A)) (l : L) :
    tally ((addTo k a rows).map fun r => (f r.1, r.2)) l =
      (if f k = l then (a : WithZero A) else 0) + tally (rows.map fun r => (f r.1, r.2)) l := by
  induction rows with
  | nil => simp [addTo]
  | cons r rows ih =>
    unfold addTo
    split
    · rename_i hr
      subst hr
      simp only [List.map_cons, tally_cons]
      split
      · rw [WithZero.coe_add, add_assoc]
      · simp
    · simp only [List.map_cons, tally_cons, ih]
      rw [add_left_comm]

/-- Grouping keeps the sum of every coarser key. -/
theorem tally_map_group (f : K → L) (rows : List (K × A)) (l : L) :
    tally ((group rows).map fun r => (f r.1, r.2)) l =
      tally (rows.map fun r => (f r.1, r.2)) l := by
  induction rows with
  | nil => rfl
  | cons r rows ih =>
    show tally ((addTo r.1 r.2 (group rows)).map _) l = _
    rw [tally_map_addTo, ih]
    simp

/-- Grouping keeps the sum of every key. -/
@[simp]
theorem tally_group (rows : List (K × A)) (k : K) : tally (group rows) k = tally rows k := by
  simpa using tally_map_group id rows k

/-- The keys after adding a value are the keys before, and the value's. -/
theorem mem_keys_addTo {k k' : K} {a : A} {rows : List (K × A)}
    (h : k' ∈ (addTo k a rows).map Prod.fst) : k' = k ∨ k' ∈ rows.map Prod.fst := by
  induction rows with
  | nil => simpa [addTo] using h
  | cons r rows ih =>
    unfold addTo at h
    split at h
    · simp only [List.map_cons, List.mem_cons] at h ⊢
      tauto
    · simp only [List.map_cons, List.mem_cons] at h ⊢
      rcases h with h | h
      · exact .inr (.inl h)
      · exact (ih h).imp id .inr

/-- Adding a value makes no second group of a key. -/
theorem nodup_keys_addTo {k : K} {a : A} {rows : List (K × A)} (h : (rows.map Prod.fst).Nodup) :
    ((addTo k a rows).map Prod.fst).Nodup := by
  induction rows with
  | nil => simp [addTo]
  | cons r rows ih =>
    rw [List.map_cons, List.nodup_cons] at h
    unfold addTo
    split
    · rename_i hr
      rw [List.map_cons, List.nodup_cons]
      exact ⟨hr ▸ h.1, h.2⟩
    · rename_i hr
      rw [List.map_cons, List.nodup_cons]
      refine ⟨fun hmem => ?_, ih h.2⟩
      rcases mem_keys_addTo hmem with heq | hmem
      · exact hr heq
      · exact h.1 hmem

/-- A grouped list has each key once. -/
theorem nodup_keys_group (rows : List (K × A)) : ((group rows).map Prod.fst).Nodup := by
  induction rows with
  | nil => exact List.nodup_nil
  | cons r rows ih => exact nodup_keys_addTo ih

/-- A key that no row has sums to `0`. -/
theorem tally_eq_zero {rows : List (K × A)} {k : K} (h : ∀ r ∈ rows, r.1 ≠ k) :
    tally rows k = 0 := by
  induction rows with
  | nil => rfl
  | cons r rows ih =>
    rw [tally_cons, if_neg (h r (by simp)), zero_add]
    exact ih fun r' hr' => h r' (by simp [hr'])

/-- In a list that has each key once, a row is what its key sums to. -/
theorem mem_iff_tally_eq {rows : List (K × A)} (h : (rows.map Prod.fst).Nodup) (k : K) (a : A) :
    (k, a) ∈ rows ↔ tally rows k = a := by
  induction rows with
  | nil => simp
  | cons r rows ih =>
    rw [List.map_cons, List.nodup_cons] at h
    rw [List.mem_cons, tally_cons]
    by_cases hr : r.1 = k
    · -- The key is not among the other rows, so the head alone is the sum.
      have hrest : ∀ r' ∈ rows, r'.1 ≠ k := by
        intro r' hr' heq
        exact h.1 (hr ▸ heq ▸ List.mem_map_of_mem hr')
      rw [if_pos hr, tally_eq_zero hrest, add_zero, WithZero.coe_inj]
      constructor
      · rintro (heq | hmem)
        · rw [← heq]
        · exact absurd rfl (hrest _ hmem)
      · intro heq
        exact .inl (by rw [← hr, ← heq])
    · rw [if_neg hr, zero_add, ← ih h.2]
      constructor
      · rintro (heq | hmem)
        · exact absurd (by rw [← heq]) hr
        · exact hmem
      · exact .inr

/-- Lists whose every key sums to the same have the same groups. -/
theorem group_perm_of_tally_eq {xs ys : List (K × A)} (h : ∀ k, tally xs k = tally ys k) :
    (group xs).Perm (group ys) := by
  have hx := nodup_keys_group xs
  have hy := nodup_keys_group ys
  refine (List.perm_ext_iff_of_nodup hx.of_map hy.of_map).2 fun ⟨k, a⟩ => ?_
  rw [mem_iff_tally_eq hx, mem_iff_tally_eq hy, tally_group, tally_group, h]

/-- Lists whose every key sums to the same do so for every coarser key. -/
theorem tally_map_congr {xs ys : List (K × A)} (f : K → L) (h : ∀ k, tally xs k = tally ys k)
    (l : L) :
    tally (xs.map fun r => (f r.1, r.2)) l = tally (ys.map fun r => (f r.1, r.2)) l := by
  rw [← tally_map_group f xs, ← tally_map_group f ys]
  exact tally_perm ((group_perm_of_tally_eq h).map _) l

/-- The rows kept by a condition on their keys. -/
theorem tally_filter_key (p : K → Bool) (rows : List (K × A)) (k : K) :
    tally (rows.filter fun r => p r.1) k = if p k then tally rows k else 0 := by
  induction rows with
  | nil => simp
  | cons r rows ih =>
    by_cases hr : r.1 = k
    · subst hr
      by_cases hp : p r.1 <;> simp [hp, ih]
    · by_cases hp : p r.1 <;> simp [hp, hr, ih]

/-! ## Rows selected by a condition -/

/-- Two conditions that agree on the entries of a key select the same sum at that key. -/
theorem tally_filter_congr {f : E → K × A} {p q : E → Bool} {es : List E} {k : K}
    (h : ∀ e ∈ es, (f e).1 = k → p e = q e) :
    tally ((es.filter p).map f) k = tally ((es.filter q).map f) k := by
  induction es with
  | nil => rfl
  | cons e es ih =>
    have ih := ih fun e' he' => h e' (by simp [he'])
    by_cases hk : (f e).1 = k
    · have hpq := h e (by simp) hk
      by_cases hq : q e <;> simp [hpq, hq, ih]
    · by_cases hp : p e <;> by_cases hq : q e <;> simp [hp, hq, hk, ih]

/-- A condition that holds of every entry of a key selects all of its sum. -/
theorem tally_filter_of_forall {f : E → K × A} {p : E → Bool} {es : List E} {k : K}
    (h : ∀ e ∈ es, (f e).1 = k → p e = true) :
    tally ((es.filter p).map f) k = tally (es.map f) k := by
  rw [tally_filter_congr (q := fun _ => true) h, List.filter_true]

/-- A condition that holds of no entry of a key selects nothing of its sum. -/
theorem tally_filter_of_forall_not {f : E → K × A} {p : E → Bool} {es : List E} {k : K}
    (h : ∀ e ∈ es, (f e).1 = k → p e = false) : tally ((es.filter p).map f) k = 0 := by
  rw [tally_filter_congr (q := fun _ => false) h, List.filter_false]
  rfl

/-- Entries selected once for each of a list of distinct parts, where an entry of the key lies in the
part `i₀` and in no other. -/
theorem tally_flatMap_filter {f : E → K × A} {p : ι → E → Bool} {es : List E} {k : K} (i₀ : ι)
    [DecidableEq ι] {parts : List ι} (hnodup : parts.Nodup)
    (h : ∀ e ∈ es, (f e).1 = k → ∀ i, p i e = true ↔ i = i₀) :
    tally ((parts.flatMap fun i => es.filter (p i)).map f) k =
      if i₀ ∈ parts then tally (es.map f) k else 0 := by
  induction parts with
  | nil => simp
  | cons i parts ih =>
    rw [List.nodup_cons] at hnodup
    rw [List.flatMap_cons, List.map_append, tally_append, ih hnodup.2]
    by_cases hi : i = i₀
    · subst hi
      rw [tally_filter_of_forall fun e he hk => (h e he hk i).2 rfl]
      rw [if_neg hnodup.1, add_zero, if_pos List.mem_cons_self]
    · have hnone : ∀ e ∈ es, (f e).1 = k → p i e = false := by
        intro e he hk
        exact Bool.eq_false_iff.2 fun hp => hi ((h e he hk i).1 hp)
      rw [tally_filter_of_forall_not hnone, zero_add]
      have hiff : i₀ ∈ i :: parts ↔ i₀ ∈ parts := by
        rw [List.mem_cons]
        exact or_iff_right (Ne.symm hi)
      simp only [hiff]

end Tally

end JobScripts.Lib
