import Mathlib.Data.List.Basic
import Mathlib.Data.List.Pairwise

/-!
# One of each key

A list is read in order, and of the elements with one key the first is taken, unless the key is taken already. An
element without a key is always taken. On rows in the order of their age this is `DISTINCT ON` the key.

Which keys are represented does not depend on the order (`represented_iff`).
-/

namespace JobScripts.Lib

variable {α K : Type*} [DecidableEq K]

/-- The elements without a key, and the first of each key that is not taken. -/
def representatives (key : α → Option K) : List K → List α → List α
  | _, [] => []
  | taken, a :: rest =>
    match key a with
    | none => a :: representatives key taken rest
    | some k =>
      if k ∈ taken then representatives key taken rest else a :: representatives key (k :: taken) rest

section Representatives

variable {key : α → Option K} {taken : List K} {l : List α} {a b : α} {k : K}

/-- The first element is taken or not. -/
theorem representatives_cons (key : α → Option K) (taken : List K) (a : α) (l : List α) :
    representatives key taken (a :: l) = match key a with
      | none => a :: representatives key taken l
      | some k => if k ∈ taken then representatives key taken l else a :: representatives key (k :: taken) l := rfl

/-- The representatives are some of the elements, in their order. -/
theorem representatives_sublist (key : α → Option K) : ∀ (taken : List K) (l : List α),
    (representatives key taken l).Sublist l
  | _, [] => .slnil
  | taken, a :: l => by
    rw [representatives_cons]
    split
    · exact (representatives_sublist key taken l).cons_cons a
    · next k _ =>
      split
      · exact (representatives_sublist key taken l).cons a
      · exact (representatives_sublist key (k :: taken) l).cons_cons a

/-- A representative is an element. -/
theorem mem_of_mem_representatives (h : a ∈ representatives key taken l) : a ∈ l :=
  (representatives_sublist key taken l).mem h

/-- An element without a key is taken. -/
theorem mem_representatives_of_none (hkey : key a = none) : ∀ {taken : List K} {l : List α}, a ∈ l →
    a ∈ representatives key taken l
  | taken, b :: l, h => by
    rw [representatives_cons]
    rcases List.mem_cons.mp h with rfl | h
    · rw [hkey]
      exact List.mem_cons_self
    · split
      · exact List.mem_cons_of_mem _ (mem_representatives_of_none hkey h)
      · split
        · exact mem_representatives_of_none hkey h
        · exact List.mem_cons_of_mem _ (mem_representatives_of_none hkey h)

/-- No representative has a key that is taken. -/
theorem notMem_taken : ∀ {taken : List K} {l : List α}, a ∈ representatives key taken l → key a = some k → k ∉ taken
  | taken, b :: l, h, hkey => by
    rw [representatives_cons] at h
    split at h
    · next hnone =>
      rcases List.mem_cons.mp h with rfl | h
      · exact absurd hkey (by rw [hnone]; exact nofun)
      · exact notMem_taken h hkey
    · next k' hsome =>
      split at h
      · exact notMem_taken h hkey
      · next hfree =>
        rcases List.mem_cons.mp h with rfl | h
        · obtain rfl : k' = k := Option.some_inj.mp (hsome.symm.trans hkey)
          exact hfree
        · exact fun hmem => notMem_taken h hkey (List.mem_cons_of_mem _ hmem)

/-- No two representatives have one key. -/
theorem pairwise_representatives (key : α → Option K) : ∀ (taken : List K) (l : List α),
    (representatives key taken l).Pairwise fun a b => ∀ k, key a = some k → key b ≠ some k
  | _, [] => .nil
  | taken, a :: l => by
    rw [representatives_cons]
    split
    · next hnone =>
      refine .cons (fun b _ k hk => ?_) (pairwise_representatives key taken l)
      exact absurd hk (by rw [hnone]; exact nofun)
    · next k' hsome =>
      split
      · exact pairwise_representatives key taken l
      · refine .cons (fun b hb k hk hkb => ?_) (pairwise_representatives key (k' :: taken) l)
        obtain rfl : k' = k := Option.some_inj.mp (hsome.symm.trans hk)
        exact notMem_taken hb hkb List.mem_cons_self

/-- A key has one representative. -/
theorem representative_unique (ha : a ∈ representatives key taken l) (hb : b ∈ representatives key taken l)
    (hka : key a = some k) (hkb : key b = some k) : a = b := by
  have hsymm : Std.Symm fun a b => ∀ k, key a = some k → key b ≠ some k := ⟨fun a b h k hb ha => h k ha hb⟩
  by_contra hne
  exact (pairwise_representatives key taken l).forall ha hb hne k hka hkb

/-- The key of an element is taken, or represented. -/
theorem exists_representative (hkey : key a = some k) : ∀ {taken : List K} {l : List α}, a ∈ l →
    k ∈ taken ∨ ∃ b ∈ representatives key taken l, key b = some k
  | taken, c :: l, h => by
    rw [representatives_cons]
    rcases List.mem_cons.mp h with rfl | h
    · rw [hkey]
      dsimp only
      split
      · next htaken => exact .inl htaken
      · exact .inr ⟨a, List.mem_cons_self, hkey⟩
    · split
      · rcases exists_representative hkey h with htaken | ⟨b, hb, hkb⟩
        · exact .inl htaken
        · exact .inr ⟨b, List.mem_cons_of_mem _ hb, hkb⟩
      · next k' hsome =>
        split
        · exact exists_representative hkey h
        · have hrest : k ∈ k' :: taken ∨ ∃ b ∈ representatives key (k' :: taken) l, key b = some k :=
            exists_representative hkey h
          rcases hrest with htaken | ⟨b, hb, hkb⟩
          · rcases List.mem_cons.mp htaken with heq | htaken
            · exact .inr ⟨c, List.mem_cons_self, heq ▸ hsome⟩
            · exact .inl htaken
          · exact .inr ⟨b, List.mem_cons_of_mem _ hb, hkb⟩

/-- The representative of a key is the first element that has it. -/
theorem find_representative (key : α → Option K) (k : K) : ∀ (taken : List K) (l : List α), k ∉ taken →
    (representatives key taken l).find? (fun a => decide (key a = some k)) =
      l.find? (fun a => decide (key a = some k))
  | _, [], _ => rfl
  | taken, a :: l, hfree => by
    rw [representatives_cons, List.find?_cons]
    rcases hkey : key a with _ | k'
    · rw [decide_eq_false nofun]
      dsimp only
      rw [List.find?_cons, hkey, decide_eq_false nofun]
      exact find_representative key k taken l hfree
    · rcases Classical.em (k' = k) with rfl | hne
      · rw [decide_eq_true rfl]
        dsimp only
        rw [if_neg hfree, List.find?_cons, hkey, decide_eq_true rfl]
      · have hother : ¬some k' = some k := fun h => hne (Option.some_inj.mp h)
        rw [decide_eq_false hother]
        dsimp only
        split
        · exact find_representative key k taken l hfree
        · rw [List.find?_cons, hkey, decide_eq_false hother]
          refine find_representative key k (k' :: taken) l fun hmem => ?_
          rcases List.mem_cons.mp hmem with rfl | hmem
          · exact hne rfl
          · exact hfree hmem

/-- A key is represented exactly if an element has it and it is not taken. -/
theorem represented_iff :
    (∃ b ∈ representatives key taken l, key b = some k) ↔ k ∉ taken ∧ ∃ a ∈ l, key a = some k := by
  constructor
  · rintro ⟨b, hb, hkey⟩
    exact ⟨notMem_taken hb hkey, b, mem_of_mem_representatives hb, hkey⟩
  · rintro ⟨hfree, a, ha, hkey⟩
    exact (exists_representative hkey ha).resolve_left hfree

end Representatives

end JobScripts.Lib
