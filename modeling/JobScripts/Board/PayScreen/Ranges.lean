import JobScripts.Board.PayScreen.Ways

/-!
# The ranges of a text

The patterns read a range with a sign on both ends, unless another ends where it begins (`read_mem_ranges`), and each
range that they read is one that is stated.
-/

namespace JobScripts.Board.PayScreen

open Lib Lib.Backtracking

section Ranges

variable {py : Python} {text t t' u : List Char} {f : Figure} {x : List Char × List (ℕ × List Char)}

/-- A number has a digit at least. -/
theorem number_ne_nil {x : List Char × List Char} (h : number py t = some x) : x.1 ≠ [] := by
  unfold number at h
  split at h
  · exact absurd h (Option.some_ne_none x).symm
  · next hsome =>
    obtain rfl := Option.some.inj h
    rw [List.append_assoc]
    exact List.append_ne_nil_of_left_ne_nil hsome _

/-- A figure past its dollar sign is a part of the text, and no dollar sign is in it. -/
theorem figureAfter_append {dollar : Bool} (h : figureAfter py dollar t = some f) :
    f.dollar = dollar ∧ ∃ a, t = a ++ f.rest ∧ a ≠ [] ∧ '$' ∉ a := by
  obtain ⟨⟨d, r⟩, hnumber, rfl⟩ := Option.map_eq_some_iff.mp h
  obtain ⟨happend, hno⟩ := number_append hnumber
  have hne := number_ne_nil hnumber
  dsimp only at happend hno hne ⊢
  rcases hglued : afterK py true r with _ | after
  · obtain ⟨s₁, hs₁, hno₁⟩ := exists_skipSpace py r
    dsimp only
    rcases hk : afterK py false (skipSpace py r) with _ | after
    · refine ⟨rfl, d ++ s₁, ?_, List.append_ne_nil_of_left_ne_nil hne s₁, ?_⟩
      · rw [List.append_assoc, ← hs₁, happend]
      · exact mt List.mem_append.mp (not_or.mpr ⟨hno, hno₁⟩)
    · obtain ⟨s₂, hs₂, hno₂⟩ := afterK_append hk
      refine ⟨rfl, d ++ (s₁ ++ s₂), ?_, List.append_ne_nil_of_left_ne_nil hne _, ?_⟩
      · rw [List.append_assoc, List.append_assoc, ← hs₂, ← hs₁, happend]
      · simp only [List.mem_append, not_or]
        exact ⟨hno, hno₁, hno₂⟩
  · obtain ⟨s₁, hs₁, hno₁⟩ := afterK_append hglued
    refine ⟨rfl, d ++ s₁, ?_, List.append_ne_nil_of_left_ne_nil hne s₁, ?_⟩
    · rw [List.append_assoc, ← hs₁, happend]
    · exact mt List.mem_append.mp (not_or.mpr ⟨hno, hno₁⟩)

/-- A figure is a part of the text, that starts with its dollar sign if it has one. -/
theorem figure_append (h : figure py t = some f) :
    ∃ c a, t = c :: (a ++ f.rest) ∧ '$' ∉ a ∧ (f.dollar = true → c = '$') := by
  unfold figure at h
  split at h
  · next t =>
    obtain ⟨-, a, happend, -, hno⟩ := figureAfter_append h
    obtain ⟨s, hs, hno'⟩ := exists_skipSpace py t
    refine ⟨'$', s ++ a, ?_, mt List.mem_append.mp (not_or.mpr ⟨hno', hno⟩), fun _ => rfl⟩
    rw [List.append_assoc, ← happend, ← hs]
  · obtain ⟨hdollar, a, happend, hne, hno⟩ := figureAfter_append h
    obtain ⟨c, a, rfl⟩ := List.exists_cons_of_ne_nil hne
    refine ⟨c, a, happend, (not_or.mp (mt List.mem_cons.mpr hno)).2, fun htrue => ?_⟩
    exact absurd (hdollar.symm.trans htrue) Bool.false_ne_true

/-- What starts with a dollar sign comes after a part of the text that has none. -/
theorem length_le_of_suffix {w a z : List Char} (h : w <:+ a ++ z) (hdollar : w.head? = some '$')
    (hno : '$' ∉ a) : w.length ≤ z.length := by
  obtain ⟨s, hs⟩ := h
  rcases List.append_eq_append_iff.mp hs with ⟨c, rfl, rfl⟩ | ⟨c, -, rfl⟩
  · cases c with
    | nil => exact le_rfl
    | cons d c =>
      obtain rfl := Option.some.inj hdollar
      exact absurd (List.mem_append_right s List.mem_cons_self) hno
  · rw [List.length_append]
    exact Nat.le_add_left _ _

/-- A dollar figure starts with its sign. -/
theorem head_of_dollar (h : figure py t = some f) (hdollar : f.dollar = true) : t.head? = some '$' := by
  obtain ⟨c, a, rfl, -, hc⟩ := figure_append h
  rw [hc hdollar]
  rfl

/-- Every dollar figure is one of those from left to right. -/
theorem mem_figuresFrom (hu : figure py u = some f) (hdollar : f.dollar = true) : ∀ {fuel : ℕ} {t : List Char},
    t.length < fuel → u <:+ t → (u, f) ∈ figuresFrom py fuel t
  | 0, _, h, _ => absurd h (Nat.not_lt_zero _)
  | fuel + 1, t, h, hut => by
    rw [figuresFrom]
    rcases ht : figure py t with _ | f'
    · have hne : u ≠ t := by
        rintro rfl
        exact absurd (hu.symm.trans ht) (Option.some_ne_none f)
      cases t with
      | nil => exact absurd (List.suffix_nil.mp hut) hne
      | cons c t =>
        have hlt : t.length < fuel := Nat.lt_of_succ_lt_succ h
        exact mem_figuresFrom hu hdollar hlt ((List.suffix_cons_iff.mp hut).resolve_left hne)
    · dsimp only
      by_cases hne : u = t
      · subst hne
        rw [Option.some.inj (hu.symm.trans ht)]
        exact List.mem_cons_self
      · -- It starts after the figure that is found.
        obtain ⟨c, a, rfl, hno, -⟩ := figure_append ht
        have hsuffix := (List.suffix_cons_iff.mp hut).resolve_left hne
        have hle := length_le_of_suffix hsuffix (head_of_dollar hu hdollar) hno
        simp only [List.length_cons, List.length_append] at h
        exact List.mem_cons_of_mem _ (mem_figuresFrom hu hdollar (by omega)
          (List.suffix_of_suffix_length_le hsuffix (List.suffix_append a f'.rest) hle))

/-- And these are figures of the text. -/
theorem of_mem_figuresFrom : ∀ {fuel : ℕ} {t : List Char}, (u, f) ∈ figuresFrom py fuel t →
    u <:+ t ∧ figure py u = some f
  | 0, _, h => absurd h List.not_mem_nil
  | fuel + 1, t, h => by
    rw [figuresFrom] at h
    rcases ht : figure py t with _ | f'
    · rw [ht] at h
      obtain ⟨hsuffix, hf⟩ := of_mem_figuresFrom h
      exact ⟨hsuffix.trans (List.tail_suffix t), hf⟩
    · rw [ht] at h
      rcases List.mem_cons.mp h with heq | h
      · obtain ⟨rfl, rfl⟩ := Prod.mk.inj heq
        exact ⟨List.suffix_rfl, ht⟩
      · obtain ⟨hsuffix, hf⟩ := of_mem_figuresFrom h
        obtain ⟨c, a, happend, -⟩ := figure_append ht
        refine ⟨hsuffix.trans ?_, hf⟩
        rw [happend]
        exact (List.suffix_append a f'.rest).trans (List.suffix_cons c _)

/-- What is between the ends of a range has no dollar sign. -/
theorem separated_append (h : separated py t = some t') : ∃ a, t = a ++ t' ∧ '$' ∉ a := by
  have hspaces : ∀ r : List Char, ∃ a, r = a ++ r.dropWhile py.engine.space ∧ '$' ∉ a := by
    intro r
    refine ⟨_, List.takeWhile_append_dropWhile.symm, fun hmem => ?_⟩
    exact not_space_of_mark py (by decide) (List.mem_takeWhile_imp hmem)
  obtain ⟨s, hs, hno⟩ := hspaces t
  unfold separated at h
  split at h
  · next rest heq =>
    obtain rfl := Option.some.inj h
    obtain ⟨s', hs', hno'⟩ := hspaces rest
    refine ⟨s ++ 't' :: 'o' :: s', ?_, ?_⟩
    · rw [List.append_assoc, List.cons_append, List.cons_append, ← hs', ← heq, ← hs]
    · simp only [List.mem_append, List.mem_cons, not_or]
      exact ⟨hno, by decide, by decide, hno'⟩
  · next c rest _ heq =>
    split at h
    · next hdash =>
      obtain rfl := Option.some.inj h
      obtain ⟨s', hs', hno'⟩ := hspaces rest
      refine ⟨s ++ c :: s', ?_, ?_⟩
      · rw [List.append_assoc, List.cons_append, ← hs', ← heq, ← hs]
      · simp only [List.mem_append, List.mem_cons, not_or]
        refine ⟨hno, ?_, hno'⟩
        rintro rfl
        exact absurd hdash (by decide)
    · exact absurd h.symm (Option.some_ne_none t')
  · exact absurd h.symm (Option.some_ne_none t')

/-- The groups of a lower end are its own. -/
theorem textOf_amount {n m : ℕ} (h : amount py n [] t = some x) (hn : m ≠ n) (hk : m ≠ n + 1) :
    textOf x.2 m = [] := by
  unfold amount at h
  split at h
  · obtain ⟨⟨d, r⟩, -, rfl⟩ := Option.map_eq_some_iff.mp h
    dsimp only
    split
    · rw [textOf_cons_of_ne hk, textOf_cons_of_ne hn]
      rfl
    · rw [textOf_cons_of_ne hn]
      rfl
  · exact absurd h.symm (Option.some_ne_none x)

/-- What the patterns read as a range is one, with a dollar sign on both ends, and worth as much unless a word goes on
after the `k` of the upper one. -/
theorem exists_stated_of_read (hu : u <:+ text) (h : readRange py u = some x) :
    ∃ r ∈ statedRanges py text, r.fromLow = u ∧ (r.low.dollar = true ∧ r.high.dollar = true) ∧
      (∃ a, u = '$' :: (a ++ r.fromHigh) ∧ '$' ∉ a) ∧ (∃ a, r.fromHigh = '$' :: (a ++ x.1) ∧ '$' ∉ a) ∧
      (r.high.glued = false → yearlyOf py 3 x.1 x.2 = r.high.worth py) := by
  obtain ⟨low, hlow, hbind⟩ := Option.bind_eq_some_iff.mp h
  obtain ⟨t', hseparated, hhigh⟩ := Option.bind_eq_some_iff.mp hbind
  obtain ⟨f, hf, hdollar, hrest, hglued⟩ := figure_of_amount hlow
  obtain ⟨f', hf', hdollar', -, -⟩ := figure_of_amount hhigh
  obtain ⟨a, hu', hno⟩ := amount_append u low hlow
  obtain ⟨a', ht', hno'⟩ := amount_append t' x hhigh
  obtain ⟨s, hs, hnos⟩ := separated_append hseparated
  have hunglued : f.glued = false := by
    rw [Bool.eq_false_iff]
    intro htrue
    obtain ⟨c, hc, hk⟩ := hglued htrue
    obtain ⟨rest, heq⟩ := List.head?_eq_some_iff.mp hc
    rw [heq] at hseparated
    exact not_isK_of_separated hseparated hk
  have hrange : rangeOf py u f = some ⟨u, t', f, f'⟩ := by
    unfold rangeOf
    rw [hrest hunglued, hseparated, Option.bind_some, hf', Option.bind_some, if_pos (by rw [hdollar, hdollar']; rfl)]
  have hmem : (u, f) ∈ figures py text := mem_figuresFrom hf hdollar (Nat.lt_succ_self _) hu
  refine ⟨_, List.mem_filterMap.mpr ⟨_, hmem, hrange⟩, rfl, ⟨hdollar, hdollar'⟩, ⟨a ++ s, ?_, ?_⟩, ⟨a', ht', hno'⟩,
    fun hglued' => ?_⟩
  · rw [List.append_assoc, ← hs]
    exact hu'
  · exact mt List.mem_append.mp (not_or.mpr ⟨hno, hnos⟩)
  · obtain ⟨g, hamount, hworth⟩ := amount_of_figure (n := 3) (g := low.2) hf' hdollar' hglued'
      (textOf_amount hlow (by decide) (by decide))
    obtain rfl := Option.some.inj (hamount.symm.trans hhigh)
    exact hworth

/-- It is a part of the text. -/
theorem readRange_suffix (t : List Char) (x : List Char × List (ℕ × List Char)) (h : readRange py t = some x) :
    x.1 <:+ t ∧ x.1.length < t.length := by
  obtain ⟨r, -, -, -, ⟨a, rfl, -⟩, ⟨a', ha', -⟩, -⟩ := exists_stated_of_read (List.suffix_rfl (l := t)) h
  rw [ha']
  constructor
  · exact ((List.suffix_append a' x.1).trans (List.suffix_cons _ _)).trans
      ((List.suffix_append a _).trans (List.suffix_cons _ _))
  · simp only [List.length_cons, List.length_append]
    omega

/-- The ranges that are found are read somewhere in the text. -/
theorem of_mem_ranges {r : Match Char} (h : r ∈ ranges py text) : ∃ u x, u <:+ text ∧ readRange py u = some x ∧
    r = ⟨text.length - u.length, text.length - x.1.length, x.2⟩ :=
  of_mem_scan range_eq (fun t x h => (readRange_suffix t x h).1) (Nat.zero_add _) List.suffix_rfl h

/-- A range that is spelled as the patterns read it is found. -/
theorem read_mem_ranges {r : Range} (hr : r ∈ statedRanges py text) (h : r.Spelled py text) :
    ∃ g, (⟨text.length - r.fromLow.length, text.length - r.high.rest.length, g⟩ : Match Char) ∈ ranges py text := by
  obtain ⟨⟨hlow, hhigh⟩, ⟨hlowGlued, hhighGlued⟩, hapart⟩ := h
  obtain ⟨⟨u, low⟩, hmem, hrange⟩ := List.mem_filterMap.mp hr
  obtain ⟨hsuffix, hfigure⟩ := of_mem_figuresFrom hmem
  unfold rangeOf at hrange
  obtain ⟨t', hseparated, hrange⟩ := Option.bind_eq_some_iff.mp hrange
  obtain ⟨high, hfigure', hrange⟩ := Option.bind_eq_some_iff.mp hrange
  have hboth : low.dollar = true ∧ high.dollar = true ∧ r = ⟨u, t', low, high⟩ := by
    split at hrange
    · next hdollars =>
      rw [Bool.and_eq_true] at hdollars
      exact ⟨hdollars.1, hdollars.2, (Option.some.inj hrange).symm⟩
    · next hdollars =>
      split at hrange
      · obtain rfl := Option.some.inj hrange
        exact absurd (by rw [hlow, hhigh]; rfl) hdollars
      · exact absurd hrange.symm (Option.some_ne_none r)
  obtain ⟨hdollar, hdollar', rfl⟩ := hboth
  obtain ⟨g, hamount, -⟩ := amount_of_figure (n := 1) (g := []) hfigure hdollar hlowGlued rfl
  obtain ⟨g', hamount', -⟩ := amount_of_figure (n := 3) (g := g) hfigure' hdollar' hhighGlued
    (textOf_amount hamount (by decide) (by decide))
  have hread : readRange py u = some (high.rest, g') := by
    rw [readRange, hamount, Option.bind_some, hseparated, Option.bind_some, hamount']
  refine ⟨g', mem_scan range_eq readRange_suffix hread (Nat.lt_succ_self _) (Nat.zero_add _) hsuffix ?_⟩
  -- A range that is read before and goes on into it would end where it begins.
  intro u' y hu' hlength hy
  by_contra hover
  obtain ⟨r', hr', -, -, ⟨a, ha, hno⟩, ⟨a', ha', hno'⟩, -⟩ := exists_stated_of_read hu' hy
  have hhead := head_of_dollar hfigure hdollar
  have hinside : u <:+ u' := List.suffix_of_suffix_length_le hsuffix hu' hlength.le
  refine hapart r' hr' ?_
  rw [ha] at hinside hlength
  rcases List.suffix_cons_iff.mp hinside with heq | hinside
  · rw [heq] at hlength
    exact absurd hlength (lt_irrefl _)
  · have hle := length_le_of_suffix hinside hhead hno
    have hsuffix' := List.suffix_of_suffix_length_le hinside (List.suffix_append a r'.fromHigh) hle
    rw [ha'] at hsuffix' ⊢
    rcases List.suffix_cons_iff.mp hsuffix' with heq | hsuffix'
    · exact heq.symm
    · exact absurd (length_le_of_suffix hsuffix' hhead hno') hover

end Ranges

end JobScripts.Board.PayScreen
