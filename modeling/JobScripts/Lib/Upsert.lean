import Mathlib.Data.List.Find
import Mathlib.Data.List.Nodup
import Mathlib.Data.List.Pairwise

/-!
# Upserts that pass over a row

A table is a list of rows with keys. `INSERT … ON CONFLICT (key) DO UPDATE` puts a row that is not
there and updates one that is (`Upsert.apply`); with a `WHERE NOT EXISTS` before it, the row that the
filter finds is passed over (`Upsert.applyUnless`). Where passing over a row and updating it come to the
same under a relation of rows, so does a whole statement list (`rel_applyAll`).

Lines that each name the row that they write, no two of them the same, can come in any order (`get_fileAll`).
-/

namespace JobScripts.Lib

variable {K R E : Type} [DecidableEq K]

/-- A table. -/
abbrev Table (K R : Type) := List (K × R)

/-- The row with a key. -/
def Table.get (t : Table K R) (k : K) : Option R := (t.find? fun row => row.1 = k).map Prod.snd

/-- The table with a row put under a key, in place of the one that is there. -/
def Table.put (t : Table K R) (k : K) (r : R) : Table K R :=
  if (t.get k).isSome then t.map fun row => if row.1 = k then (k, r) else row else t ++ [(k, r)]

/-- What a map of the rows under one key leaves to be found under any. -/
theorem find?_map_key (t : Table K R) (k k' : K) (r : R) :
    ((t.map fun row => if row.1 = k then (k, r) else row).find? fun row => row.1 = k').map Prod.snd =
      if k' = k then (t.get k).map fun _ => r else t.get k' := by
  induction t with
  | nil => simp [Table.get]
  | cons row t ih =>
    unfold Table.get at ih ⊢
    rw [List.map_cons, List.find?_cons, List.find?_cons, List.find?_cons]
    by_cases hk' : k' = k
    · subst hk'
      by_cases hrow : row.1 = k'
      · simp [hrow]
      · simpa [hrow] using ih
    · rw [if_neg hk'] at ih ⊢
      by_cases hrow : row.1 = k
      · have hne : row.1 ≠ k' := fun heq => hk' (heq.symm.trans hrow)
        have hne' : k ≠ k' := fun heq => hk' heq.symm
        simpa [hrow, hne'] using ih
      · by_cases hrow' : row.1 = k'
        · simp [hrow', hk']
        · simpa [hrow, hrow'] using ih

/-- The row put is under its key, and the others are as they were. -/
theorem Table.get_put (t : Table K R) (k k' : K) (r : R) :
    (t.put k r).get k' = if k' = k then some r else t.get k' := by
  unfold Table.put
  by_cases hsome : (t.get k).isSome = true
  · obtain ⟨old, hold⟩ := Option.isSome_iff_exists.mp hsome
    rw [if_pos hsome, Table.get, find?_map_key, hold]
    rfl
  · have hnone : t.get k = none := Option.not_isSome_iff_eq_none.mp hsome
    rw [if_neg hsome]
    unfold Table.get at hnone ⊢
    rw [List.find?_append]
    by_cases hk : k' = k
    · rw [if_pos hk, hk, Option.map_eq_none_iff.mp hnone]
      simp
    · have hlast : ([(k, r)] : Table K R).find? (fun row => row.1 = k') = none := by
        simp [Ne.symm hk]
      rw [if_neg hk, hlast, Option.or_none]

/-- An upsert: the key of an incoming row, the row it inserts, and the row it leaves of a stored one. -/
structure Upsert (K R E : Type) where
  key : E → K
  insert : E → R
  update : E → R → R

namespace Upsert

/-- The row that an upsert leaves. -/
def row (u : Upsert K R E) (e : E) : Option R → R
  | none => u.insert e
  | some r => u.update e r

/-- The upsert of one incoming row. -/
def apply (u : Upsert K R E) (t : Table K R) (e : E) : Table K R :=
  t.put (u.key e) (u.row e (t.get (u.key e)))

/-- The upsert of one incoming row, unless the stored row is one that the filter finds. -/
def applyUnless (u : Upsert K R E) (skip : E → R → Bool) (t : Table K R) (e : E) : Table K R :=
  if (t.get (u.key e)).any (skip e) then t else u.apply t e

variable {u : Upsert K R E} {skip : E → R → Bool} {rel : R → R → Prop}

/-- One statement keeps the relation of two tables, the filter being in the first. -/
theorem rel_apply (hinsert : ∀ e, rel (u.insert e) (u.insert e))
    (hskip : ∀ e r r', rel r r' → skip e r = true → rel r (u.update e r'))
    (hupdate : ∀ e r r', rel r r' → skip e r = false → rel (u.update e r) (u.update e r'))
    {t t' : Table K R} (h : ∀ k, Option.Rel rel (t.get k) (t'.get k)) (e : E) (k : K) :
    Option.Rel rel ((u.applyUnless skip t e).get k) ((u.apply t' e).get k) := by
  have hkey := h (u.key e)
  unfold applyUnless
  split
  · next hfound =>
    -- Passed over: the stored row is related to what the other table's row becomes.
    obtain ⟨r, hr, hskipped⟩ := (Option.any_eq_true _ _).mp hfound
    rw [apply, Table.get_put]
    split
    · next heq =>
      subst heq
      rw [hr] at hkey ⊢
      cases hr' : t'.get (u.key e) with
      | none =>
        rw [hr'] at hkey
        exact absurd hkey nofun
      | some r' =>
        rw [hr'] at hkey
        cases hkey with
        | some hrel => exact .some (hskip e r r' hrel hskipped)
    · exact h k
  · next hnot =>
    rw [apply, apply, Table.get_put, Table.get_put]
    split
    · refine .some ?_
      cases hr : t.get (u.key e) with
      | none =>
        cases hr' : t'.get (u.key e) with
        | none => exact hinsert e
        | some r' =>
          rw [hr, hr'] at hkey
          exact absurd hkey nofun
      | some r =>
        cases hr' : t'.get (u.key e) with
        | none =>
          rw [hr, hr'] at hkey
          exact absurd hkey nofun
        | some r' =>
          rw [hr, hr'] at hkey
          rw [hr] at hnot
          cases hkey with
          | some hrel => exact hupdate e r r' hrel (Bool.not_eq_true _ ▸ hnot)
    · exact h k

/-- A whole list of statements keeps the relation of two tables, the filter being in the first. -/
theorem rel_applyAll (hinsert : ∀ e, rel (u.insert e) (u.insert e))
    (hskip : ∀ e r r', rel r r' → skip e r = true → rel r (u.update e r'))
    (hupdate : ∀ e r r', rel r r' → skip e r = false → rel (u.update e r) (u.update e r'))
    {t t' : Table K R} (h : ∀ k, Option.Rel rel (t.get k) (t'.get k)) (es : List E) (k : K) :
    Option.Rel rel ((es.foldl (u.applyUnless skip) t).get k) ((es.foldl u.apply t').get k) := by
  induction es generalizing t t' with
  | nil => exact h k
  | cons e es ih => exact ih (rel_apply hinsert hskip hupdate h e)

/-- A filter that finds only rows that the update leaves as they are makes no difference. -/
theorem get_applyAllUnless (hskip : ∀ e r, skip e r = true → u.update e r = r) (t : Table K R) (es : List E)
    (k : K) : (es.foldl (u.applyUnless skip) t).get k = (es.foldl u.apply t).get k := by
  have hrel : Option.Rel Eq ((es.foldl (u.applyUnless skip) t).get k) ((es.foldl u.apply t).get k) := by
    refine rel_applyAll (fun _ => rfl) ?_ ?_ (fun k' => ?_) es k
    · rintro e r r' rfl hskipped
      exact (hskip e r hskipped).symm
    · rintro e r r' rfl -
      rfl
    · cases t.get k' with
      | none => exact .none
      | some r => exact .some rfl
  generalize (es.foldl (u.applyUnless skip) t).get k = a at hrel ⊢
  generalize (es.foldl u.apply t).get k = b at hrel ⊢
  cases hrel with
  | none => rfl
  | some heq => rw [heq]

/-- Under a key, a list of upserts leaves what its own incoming rows make of the stored row, one after the other. -/
theorem get_applyAll (t : Table K R) (es : List E) (k : K) :
    (es.foldl u.apply t).get k =
      (es.filter fun e => u.key e = k).foldl (fun stored e => some (u.row e stored)) (t.get k) := by
  induction es generalizing t with
  | nil => rfl
  | cons e es ih =>
    rw [List.foldl_cons, ih, apply, Table.get_put]
    by_cases hkey : u.key e = k
    · subst hkey
      rw [if_pos rfl, List.filter_cons_of_pos (by simp), List.foldl_cons]
    · rw [if_neg (Ne.symm hkey), List.filter_cons_of_neg (by simpa using hkey)]

end Upsert

/-- A map of the rows is one of each. -/
theorem Table.get_map (t : Table K R) (f : R → R) (k : K) :
    Table.get (t.map fun row => (row.1, f row.2)) k = (t.get k).map f := by
  unfold Table.get
  rw [List.find?_map, Option.map_map, Option.map_map]
  rfl

/-! ## Lines that name their row -/

/-- The table with the row under a key as a function of the stored one has it, unless that leaves it. -/
def Table.alter (t : Table K R) (k : K) (f : Option R → Option R) : Table K R :=
  match f (t.get k) with
  | none => t
  | some r => t.put k r

/-- What is left stands, and the others are as they were. -/
theorem Table.get_alter (t : Table K R) (k k' : K) (f : Option R → Option R) :
    (t.alter k f).get k' = if k' = k then (f (t.get k)).or (t.get k) else t.get k' := by
  unfold Table.alter
  cases hf : f (t.get k) with
  | none =>
    show t.get k' = if k' = k then t.get k else t.get k'
    split
    · next heq => rw [heq]
    · rfl
  | some r => rw [Table.get_put, Option.some_or]

section Filing

variable {key : E → Option K} {f : E → K → Option R → Option R}

/-- Lines one after the other, each at the row that it names. -/
def fileAll (key : E → Option K) (f : E → K → Option R → Option R) (t : Table K R) (es : List E) : Table K R :=
  es.foldl (fun t e => (key e).elim t fun k => t.alter k (f e k)) t

/-- A line changes no row but the one that it names. -/
theorem get_file (t : Table K R) (e : E) (k : K) :
    ((key e).elim t fun k' => t.alter k' (f e k')).get k =
      if key e = some k then (f e k (t.get k)).or (t.get k) else t.get k := by
  cases hkey : key e with
  | none => rw [Option.elim_none, if_neg nofun]
  | some k' =>
    rw [Option.elim_some, Table.get_alter]
    by_cases hk : k = k'
    · rw [if_pos hk, if_pos (congrArg some hk.symm), hk]
    · rw [if_neg hk, if_neg (fun h => hk (Option.some_inj.mp h).symm)]

/-- Where no two lines name one row, a row is what its own line makes of it. -/
theorem get_fileAll (t : Table K R) {es : List E} (hnodup : (es.filterMap key).Nodup) (k : K) :
    (fileAll key f t es).get k =
      match es.find? fun e => key e = some k with
      | none => t.get k
      | some e => (f e k (t.get k)).or (t.get k) := by
  induction es generalizing t with
  | nil => rfl
  | cons e es ih =>
    have hrest : (es.filterMap key).Nodup := by
      rw [List.filterMap_cons] at hnodup
      split at hnodup
      · exact hnodup
      · exact (List.nodup_cons.mp hnodup).2
    show (fileAll key f ((key e).elim t fun k' => t.alter k' (f e k')) es).get k = _
    rw [ih _ hrest, get_file, List.find?_cons]
    by_cases hkey : key e = some k
    · -- The others name other rows.
      have hnone : (es.find? fun e => key e = some k) = none := by
        rw [List.filterMap_cons, hkey] at hnodup
        refine List.find?_eq_none.mpr fun e' he' heq => (List.nodup_cons.mp hnodup).1 ?_
        exact List.mem_filterMap.mpr ⟨e', he', of_decide_eq_true heq⟩
      rw [hnone, decide_eq_true hkey, if_pos hkey]
    · rw [decide_eq_false hkey, if_neg hkey]

omit [DecidableEq K] in
/-- Where no two lines name one row, a line is the only one that names its own. -/
theorem eq_of_key {es : List E} (hnodup : (es.filterMap key).Nodup) {e e' : E} {k : K} (he : e ∈ es)
    (he' : e' ∈ es) (hkey : key e = some k) (hkey' : key e' = some k) : e = e' := by
  by_contra hne
  have hpair := List.pairwise_filterMap.mp hnodup
  have : Std.Symm fun a b : E => ∀ x, key a = some x → ∀ y, key b = some y → x ≠ y :=
    ⟨fun _ _ h x hx y hy => (h y hy x hx).symm⟩
  exact hpair.forall he he' hne k hkey k hkey' rfl

/-- It is the one that is found. -/
theorem find?_eq_some_iff_of_nodup {es : List E} (hnodup : (es.filterMap key).Nodup) {e : E} {k : K} :
    (es.find? fun e => key e = some k) = some e ↔ e ∈ es ∧ key e = some k := by
  have hfound : ∀ {e'}, (es.find? fun e => key e = some k) = some e' → e' ∈ es ∧ key e' = some k := fun h =>
    ⟨List.mem_of_find?_eq_some h, of_decide_eq_true (List.find?_some (p := fun e => key e = some k) h)⟩
  refine ⟨hfound, fun ⟨hmem, hkey⟩ => ?_⟩
  cases h : es.find? fun e => key e = some k with
  | none => exact absurd (decide_eq_true hkey) (List.find?_eq_none.mp h e hmem)
  | some e' =>
    obtain ⟨hmem', hkey'⟩ := hfound h
    rw [eq_of_key hnodup hmem' hmem hkey' hkey]

/-- The order of the lines does not matter. -/
theorem find?_perm {es es' : List E} (h : es.Perm es') (hnodup : (es.filterMap key).Nodup) (k : K) :
    (es.find? fun e => key e = some k) = es'.find? fun e => key e = some k :=
  List.find?_eq_find?_of_perm h fun _ ha _ hb =>
    eq_of_key hnodup ha.1 hb.1 (of_decide_eq_true ha.2) (of_decide_eq_true hb.2)

/-- So lines in any order leave the same rows. -/
theorem get_fileAll_perm (t : Table K R) {es es' : List E} (h : es.Perm es') (hnodup : (es.filterMap key).Nodup)
    (k : K) : (fileAll key f t es).get k = (fileAll key f t es').get k := by
  rw [get_fileAll t hnodup, get_fileAll t ((h.filterMap key).nodup_iff.mp hnodup), find?_perm h hnodup]

end Filing

end JobScripts.Lib
