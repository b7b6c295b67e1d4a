import JobScripts.Board.PayScreen.Ranges

/-!
# What a rejection stands for

A text that is spelled as the patterns read it is rejected for what it states only; any other can be rejected next to
a figure over the bar, or a range tied to a place (`rejects_as_spelled`).
-/

namespace JobScripts.Board.PayScreen

open Lib Lib.Backtracking

section Rejections

variable (py : Python)

/-- Where there is a range, its lower end is a single figure. -/
theorem values_ne_nil {r : Match Char} {text : List Char} (h : r ∈ ranges py text) : values py text ≠ [] := by
  obtain ⟨t, x, hsuffix, hread, -⟩ := of_mem_ranges h
  obtain ⟨low, hlow, -⟩ := Option.bind_eq_some_iff.mp hread
  rw [values_eq]
  exact List.ne_nil_of_mem (List.mem_map_of_mem
    (List.mem_filterMap.mpr ⟨t, (List.mem_tails t text).mpr hsuffix, hlow⟩))

/-- `max` is never asked of nothing. -/
theorem stated_top_ok (text : List Char) : ∃ top, stated_top py text = .ok top := by
  unfold stated_top
  split
  · exact ⟨none, rfl⟩
  · next hscale =>
    split
    · exact ⟨none, rfl⟩
    · rw [Bool.not_eq_true', Bool.not_eq_false, List.any_eq_true] at hscale
      obtain ⟨r, hr, -⟩ := hscale
      rcases hmax : (values py text).max? with _ | top
      · exact absurd (List.max?_eq_none_iff.mp hmax) (values_ne_nil py hr)
      · exact ⟨some top, rfl⟩

/-- The bar is compared with the top. -/
theorem screen_of_top (recipe : PayRecipe) {text : List Char} {top : ℚ} (h : stated_top py text = .ok (some top)) :
    screen py recipe text = .ok (if BARS recipe ≤ top then none
      else
        some ("Stated pay tops out at $" ++ money top ++ ", under the $" ++ money (BARS recipe) ++ " base bar.")) := by
  unfold screen
  rw [h]
  rfl

/-- A posting is rejected where the patterns settle it. -/
theorem screen_iff (recipe : PayRecipe) (text : List Char) :
    (∃ reason, screen py recipe text = .ok (some reason)) ↔ Settles py recipe text := by
  unfold Settles
  by_cases hscale : (ranges py text).any (yearlyScale py · text) = true
  · by_cases hplaced : (ranges py text).any (placed py · text) = true
    · have hscreen : screen py recipe text = .ok none := by
        unfold screen stated_top
        rw [hscale, hplaced]
        rfl
      obtain ⟨r, hr, hplace⟩ := List.any_eq_true.mp hplaced
      constructor
      · rintro ⟨reason, hreason⟩
        rw [hscreen] at hreason
        cases hreason
      · rintro ⟨-, hfree, -⟩
        exact absurd ((hfree r hr).symm.trans hplace) Bool.false_ne_true
    · rw [Bool.not_eq_true] at hplaced
      have hfree : ∀ r ∈ ranges py text, placed py r text = false := by
        intro r hr
        by_contra hplace
        exact Bool.false_ne_true (hplaced.symm.trans
          (List.any_eq_true.mpr ⟨r, hr, eq_true_of_ne_false hplace⟩))
      obtain ⟨r, hr, hyearly⟩ := List.any_eq_true.mp hscale
      rcases hmax : (values py text).max? with _ | top
      · exact absurd (List.max?_eq_none_iff.mp hmax) (values_ne_nil py hr)
      · obtain ⟨hmem, hle⟩ := List.max?_eq_some_iff.mp hmax
        have htop : stated_top py text = .ok (some top) := by
          unfold stated_top
          rw [hscale, hplaced, hmax]
          rfl
        rw [screen_of_top py recipe htop]
        constructor
        · rintro ⟨reason, hreason⟩
          refine ⟨⟨r, hr, hyearly⟩, hfree, ?_⟩
          intro v hv
          by_contra hbar
          have hover : BARS recipe ≤ top := (not_lt.mp hbar).trans (hle v hv)
          rw [if_pos hover] at hreason
          cases hreason
        · rintro ⟨-, -, hall⟩
          exact ⟨_, congrArg Except.ok (if_neg (not_le.mpr (hall top hmem)))⟩
  · have hscreen : screen py recipe text = .ok none := by
      rw [Bool.not_eq_true] at hscale
      unfold screen stated_top
      rw [hscale]
      rfl
    constructor
    · rintro ⟨reason, hreason⟩
      rw [hscreen] at hreason
      cases hreason
    · rintro ⟨⟨r, hr, hyearly⟩, -, -⟩
      exact absurd (List.any_eq_true.mpr ⟨r, hr, hyearly⟩) hscale

/-- A rejection says what it should where what the patterns do not read makes no difference. -/
theorem says_iff {recipe : PayRecipe} {text : List Char} (h : Settles py recipe text) :
    Says py recipe text ↔ Harmless py recipe text := by
  obtain ⟨-, hplaced, hunder⟩ := h
  constructor
  · intro hstated
    refine ⟨fun f hf _ => hstated.under _ (List.mem_append_left _ (List.mem_map_of_mem hf)), fun r hr hside => ?_,
      hstated.yearly, fun r hr _ => hstated.untied r hr⟩
    exact hstated.under _ (List.mem_append_right _ (List.mem_map_of_mem (List.mem_filter.mpr ⟨hr, hside⟩)))
  · intro hharmless
    refine ⟨fun v hv => ?_, hharmless.yearly, fun r hr => ?_⟩
    · rcases List.mem_append.mp hv with hv | hv
      · obtain ⟨f, hf, rfl⟩ := List.mem_map.mp hv
        by_cases hglued : f.glued = true
        · exact hharmless.glued f hf hglued
        · exact hunder _ (worth_mem_values hf (Bool.not_eq_true _ ▸ hglued))
      · obtain ⟨r, hr, rfl⟩ := List.mem_map.mp hv
        exact hharmless.upper r (List.mem_filter.mp hr).1 (List.mem_filter.mp hr).2
    · by_cases hspelled : r.Spelled py text
      · obtain ⟨g, hmem⟩ := read_mem_ranges hr hspelled
        have hfree := hplaced _ hmem
        exact hfree
      · exact hharmless.untied r hr hspelled

/-- In a text that is spelled as the patterns read it, nothing is left that could. -/
theorem harmless_of_spelled {recipe : PayRecipe} {text : List Char} (h : Settles py recipe text)
    (hspelled : Spelled py text) : Harmless py recipe text := by
  obtain ⟨⟨m, hm, hyearly⟩, -, -⟩ := h
  refine ⟨fun f hf hglued => ?_, fun r hr hside => ?_, ?_, fun r hr hnot => absurd (hspelled.ranges r hr) hnot⟩
  · exact absurd ((hspelled.figures f hf).symm.trans hglued) Bool.false_ne_true
  · obtain ⟨⟨hlow, hhigh⟩, -⟩ := hspelled.ranges r hr
    unfold Range.oneSided at hside
    rw [hlow, hhigh] at hside
    exact absurd hside (by decide)
  · obtain ⟨u, x, hu, hread, rfl⟩ := of_mem_ranges hm
    obtain ⟨r, hr, -, -, -, -, hworth⟩ := exists_stated_of_read hu hread
    refine ⟨r, hr, ?_⟩
    rw [← hworth (hspelled.ranges r hr).2.1.2]
    have hdrop : text.drop (text.length - x.1.length) = x.1 :=
      (List.suffix_iff_eq_drop.mp ((readRange_suffix u x hread).1.trans hu)).symm
    unfold yearlyScale yearly at hyearly
    rw [hdrop] at hyearly
    exact of_decide_eq_true hyearly

end Rejections

/-- The characters of ASCII. -/
def ascii : Python where
  engine := {
    same := fun c d => c.toLower = d.toLower
    word := fun c => c.isAlphanum || c = '_'
    space := fun c => c = ' ' || c = '\n'
    digit := Char.isDigit }
  worth := fun c => c.toNat - 48
  word_k := by decide
  word_K := by decide
  digit_of_mark := by
    intro c h
    have hcode : c.toNat ∈ [36, 44, 46, 116, 107, 75, 45] ∨ 0x2010 ≤ c.toNat := by
      simp only [isMark, isK, isDash, Bool.or_eq_true, Bool.and_eq_true, decide_eq_true_eq] at h
      rcases h with ((((rfl | rfl) | rfl) | rfl) | rfl | rfl) | rfl | ⟨h, -⟩
      · exact .inl (by decide)
      · exact .inl (by decide)
      · exact .inl (by decide)
      · exact .inl (by decide)
      · exact .inl (by decide)
      · exact .inl (by decide)
      · exact .inl (by decide)
      · exact .inr h
    by_contra hdigit
    have hbounds : 48 ≤ c.toNat ∧ c.toNat ≤ 57 := by
      simpa [Char.isDigit, UInt32.le_iff_toNat_le] using hdigit
    simp only [List.mem_cons, List.not_mem_nil, or_false] at hcode
    omega
  space_of_mark := by
    intro c h
    by_contra hspace
    rcases Bool.or_eq_true_iff.mp (eq_true_of_ne_false hspace) with hc | hc
    · rw [of_decide_eq_true hc] at h
      exact absurd h (by decide)
    · rw [of_decide_eq_true hc] at h
      exact absurd h (by decide)
  digit_of_space := by
    intro c h
    rcases Bool.or_eq_true_iff.mp h with h | h
    · rw [of_decide_eq_true h]
      decide
    · rw [of_decide_eq_true h]
      decide

/-- What settles a posting is computed. -/
instance (py : Python) (recipe : PayRecipe) (text : List Char) : Decidable (Settles py recipe text) :=
  inferInstanceAs (Decidable (_ ∧ _))

/-- A yearly range and an hourly one. -/
def twoRanges : List Char := "$90,000.50 - $120k or $40-$55/hr".toList

instance (py : Python) (text : List Char) (r : Range) : Decidable (r.Spelled py text) :=
  inferInstanceAs (Decidable (_ ∧ _ ∧ ∀ r' ∈ statedRanges py text, ¬ r'.fromHigh = r.fromLow))

/-- A range with its upper end over the bar. -/
def overBar : List Char := "$100,000 - $120,000 or $140k - 180k".toList

/-- A range that is tied to a place, at a distance from the one that is read. -/
def elsewhere : List Char :=
  "$100,000 - $120,000".toList ++ List.replicate 80 'x' ++ " Candidates in California: $130k - 140k".toList

end JobScripts.Board.PayScreen
