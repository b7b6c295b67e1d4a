import JobScripts.Board.PayScreen.Stated

/-!
# Amounts are read

The patterns read a figure with its own dollar sign, unless a word goes on after its `k` (`worth_mem_values`). What
they try first is what is there by hand.
-/

namespace JobScripts.Board.PayScreen

open Lib Lib.Backtracking

section Amounts

variable {py : Python} {b : Option Char} {t : List Char} {g : List (ℕ × List Char)} {n : ℕ}

theorem Python.digit_dollar (py : Python) : py.engine.digit '$' = false := py.digit_of_mark '$' (by decide)

theorem Python.digit_comma (py : Python) : py.engine.digit ',' = false := py.digit_of_mark ',' (by decide)

theorem Python.space_dollar (py : Python) : py.engine.space '$' = false := py.space_of_mark '$' (by decide)

/-- A space is taken where there is one. -/
theorem finds_space : Finds (opt (one py.engine.space)) ⟨b, t, g⟩ (skipSpace py t) g := by
  unfold skipSpace
  cases t with
  | nil => exact finds_opt_none rfl
  | cons c t =>
    dsimp only
    split
    · next hspace => exact finds_opt (finds_one hspace)
    · next hspace => exact finds_opt_none (if_neg hspace)

/-- No number starts with a space. -/
theorem takeWhile_digit_of_space {c : Char} (h : py.engine.space c = true) :
    (c :: t).takeWhile py.engine.digit = [] := by
  apply List.takeWhile_cons_of_neg
  rw [py.digit_of_space c h]
  exact Bool.false_ne_true

/-- With no number past a space there is none, however the space is taken. -/
theorem takeWhile_of_mem_space {q : Place Char} (h : (skipSpace py t).takeWhile py.engine.digit = [])
    (hq : q ∈ opt (one py.engine.space) ⟨b, t, g⟩) : q.rest.takeWhile py.engine.digit = [] := by
  unfold skipSpace at h
  cases t with
  | nil =>
    obtain rfl := List.mem_singleton.mp hq
    rfl
  | cons c t =>
    dsimp only at h
    unfold opt at hq
    split at h
    · next hspace =>
      rw [one_cons hspace] at hq
      rcases List.mem_pair.mp hq with rfl | rfl
      · exact h
      · exact takeWhile_digit_of_space hspace
    · next hspace =>
      have hnone : one py.engine.space ⟨b, c :: t, g⟩ = [] := if_neg hspace
      rw [hnone] at hq
      obtain rfl := List.mem_singleton.mp hq
      exact h

/-- Decimals are taken where there are some. -/
theorem finds_fraction : Finds (fraction py) ⟨b, t, g⟩ (decimals py t).2 g := by
  unfold fraction
  unfold decimals
  split
  · next rest =>
    split
    · next hnone =>
      apply finds_opt_none
      apply seq_eq_nil
      intro q hq
      rw [one_cons (by decide)] at hq
      obtain rfl := List.mem_singleton.mp hq
      exact seq_eq_nil_left (one_eq_nil_of_takeWhile hnone)
    · next hsome => exact finds_opt (finds_seq (finds_one (by decide)) fun b' => finds_plus hsome)
  · next hpoint =>
    apply finds_opt_none
    apply seq_eq_nil_left
    apply one_eq_nil
    intro c hc
    obtain ⟨rest, rfl⟩ := List.head?_eq_some_iff.mp hc
    apply decide_eq_false
    rintro rfl
    exact hpoint rest rfl

/-- A group of three digits is taken where there is one. -/
theorem finds_thousand {x y z : Char}
    (h : (py.engine.digit x && py.engine.digit y && py.engine.digit z) = true) :
    Finds (thousand py) ⟨b, ',' :: x :: y :: z :: t, g⟩ t g := by
  rw [Bool.and_eq_true, Bool.and_eq_true] at h
  have hdigits : ∀ c ∈ [x, y, z], py.engine.digit c = true := by
    rw [List.forall_mem_cons, List.forall_mem_cons, List.forall_mem_singleton]
    exact ⟨h.1.1, h.1.2, h.2⟩
  exact finds_seq (finds_one (by decide)) fun b' => finds_exactly (a := [x, y, z]) hdigits

/-- What is taken as a group of three digits is one. -/
theorem of_mem_thousand {q : Place Char} (h : q ∈ thousand py ⟨b, t, g⟩) : ∃ x y z,
    t = ',' :: x :: y :: z :: q.rest ∧ (py.engine.digit x && py.engine.digit y && py.engine.digit z) = true := by
  obtain ⟨q', hq', hq⟩ := List.mem_flatMap.mp h
  cases t with
  | nil => exact absurd hq' List.not_mem_nil
  | cons c t =>
    by_cases hc : c = ','
    · subst hc
      rw [one_cons (by decide)] at hq'
      obtain rfl := List.mem_singleton.mp hq'
      obtain ⟨a, rfl, ha, hlength, -⟩ := of_mem_exactly hq
      obtain ⟨x, y, z, rfl⟩ := List.length_eq_three.mp hlength
      rw [List.forall_mem_cons, List.forall_mem_cons, List.forall_mem_singleton] at ha
      obtain ⟨hx, hy, hz⟩ := ha
      exact ⟨x, y, z, rfl, by rw [hx, hy, hz]; rfl⟩
    · have hnone : one (fun d => d = ',') ⟨b, c :: t, g⟩ = [] := if_neg (by simpa using hc)
      rw [hnone] at hq'
      exact absurd hq' List.not_mem_nil

/-- And there is no way to where there is none. -/
theorem thousand_eq_nil (h : (thousands py t).1 = []) : thousand py ⟨b, t, g⟩ = [] := by
  rw [List.eq_nil_iff_forall_not_mem]
  intro q hq
  obtain ⟨x, y, z, rfl, hdigits⟩ := of_mem_thousand hq
  rw [thousands, if_pos hdigits] at h
  exact List.cons_ne_nil _ _ h

/-- All groups of three digits are taken. -/
theorem finds_thousands : ∀ (k : ℕ) (b : Option Char) (t : List Char), t.length ≤ k →
    Finds (upTo (thousand py) k) ⟨b, t, g⟩ (thousands py t).2 g := by
  intro k b t
  induction t using thousands.induct py generalizing k b with
  | case1 x y z rest hdigits ih =>
    intro hlength
    simp only [List.length_cons] at hlength
    obtain ⟨k, rfl⟩ : ∃ n, k = n + 1 := ⟨k - 1, by omega⟩
    rw [thousands, if_pos hdigits]
    exact finds_upTo_succ (finds_thousand hdigits) fun b' => ih k b' (by omega)
  | case2 x y z rest hdigits =>
    intro _
    have hnone : thousands py (',' :: x :: y :: z :: rest) = ([], ',' :: x :: y :: z :: rest) := by
      rw [thousands, if_neg hdigits]
    rw [hnone]
    exact finds_upTo_of_eq_nil (thousand_eq_nil (by rw [hnone]))
  | case3 t hshape =>
    intro _
    have hnone : thousands py t = ([], t) := by
      unfold thousands
      split
      · next x y z rest => exact (hshape _ _ _ _ rfl).elim
      · rfl
    rw [hnone]
    exact finds_upTo_of_eq_nil (thousand_eq_nil (by rw [hnone]))

/-- There is no number where there is no digit. -/
theorem digits_eq_nil (h : t.takeWhile py.engine.digit = []) : digits py ⟨b, t, g⟩ = [] := by
  have hone : one py.engine.digit ⟨b, t, g⟩ = [] := one_eq_nil_of_takeWhile h
  unfold digits alt times exactly plus
  rw [seq_eq_nil_left (seq_eq_nil_left (seq_eq_nil_left hone)), seq_eq_nil_left (seq_eq_nil_left hone)]
  rfl

/-- There are no thousands where no comma is at the start. -/
theorem thousands_of_ne {c : Char} (h : c ≠ ',') : thousands py (c :: t) = ([], c :: t) := by
  unfold thousands
  split
  · next heq => exact absurd (List.cons.inj heq).1 h
  · rfl

/-- Where there are none, all is left. -/
theorem thousands_eq (h : (thousands py t).1 = []) : (thousands py t).2 = t := by
  unfold thousands at h ⊢
  split at h
  · split at h
    · exact absurd h (List.cons_ne_nil _ _)
    · next hdigits => rw [if_neg hdigits]
  · rfl

theorem commas_eq (h : (commas py t).1 = []) : (commas py t).2 = t.dropWhile py.engine.digit := by
  unfold commas at h ⊢
  by_cases hshort : (t.takeWhile py.engine.digit).length ≤ 3
  · rw [if_pos hshort] at h ⊢
    exact thousands_eq h
  · rw [if_neg hshort]

/-- Where no thousands come after the digits, they come after none that are taken one to three. -/
theorem thousand_of_mem_times {q : Place Char} (h : (commas py t).1 = [])
    (hq : q ∈ times (one py.engine.digit) 1 3 ⟨b, t, g⟩) : thousand py q = [] := by
  obtain ⟨a, rfl, ha, -, hlength⟩ := of_mem_times hq
  apply thousand_eq_nil
  cases hcomma : q.rest with
  | nil => rfl
  | cons c rest =>
    by_cases hc : c = ','
    · subst hc
      have hstop : ¬ py.engine.digit ',' = true := by
        rw [py.digit_comma]
        exact Bool.false_ne_true
      -- The digits before the comma are all there are.
      have htake : (a ++ q.rest).takeWhile py.engine.digit = a := by
        rw [List.takeWhile_append_of_pos ha, hcomma, List.takeWhile_cons_of_neg hstop, List.append_nil]
      have hdrop : (a ++ q.rest).dropWhile py.engine.digit = q.rest := by
        rw [List.dropWhile_append_of_pos ha, hcomma, List.dropWhile_cons_of_neg hstop]
      unfold commas at h
      rw [htake, hdrop, if_pos hlength, hcomma] at h
      exact h
    · rw [thousands_of_ne hc]

/-- The number at the start is taken. -/
theorem finds_digits {x : List Char × List Char} (h : number py t = some x) :
    Finds (digits py) ⟨b, t, g⟩ x.2 g := by
  unfold number at h
  split at h
  · exact absurd h (Option.some_ne_none x).symm
  · next hsome =>
    obtain rfl := Option.some.inj h
    dsimp only
    unfold digits
    by_cases hnone : (commas py t).1 = []
    · rw [commas_eq hnone]
      apply finds_alt_right
      · apply seq_eq_nil
        intro q hq
        exact seq_eq_nil_left (seq_eq_nil_left (thousand_of_mem_times hnone hq))
      · exact finds_seq (finds_plus hsome) fun b' => finds_fraction
    · have hshort : (t.takeWhile py.engine.digit).length ≤ 3 := by
        by_contra hlong
        unfold commas at hnone
        rw [if_neg hlong] at hnone
        exact hnone rfl
      have hcommas : commas py t = thousands py (t.dropWhile py.engine.digit) := if_pos hshort
      rw [hcommas] at hnone ⊢
      have hpos : 1 ≤ (t.takeWhile py.engine.digit).length := List.length_pos_of_ne_nil hsome
      apply finds_alt_left
      apply finds_seq (finds_times hpos hshort)
      intro b'
      refine finds_seq ?_ fun b'' => finds_fraction
      generalize t.dropWhile py.engine.digit = rest at hnone ⊢
      unfold thousands at hnone ⊢
      split at hnone
      · split at hnone
        · next hdigits =>
          rw [if_pos hdigits]
          exact finds_seq (finds_thousand hdigits) fun b'' => finds_thousands _ _ _ (le_refl _)
        · exact absurd rfl hnone
      · exact absurd rfl hnone

/-- A `k` is part of a word. -/
theorem word_of_isK (py : Python) {c : Char} (h : isK c = true) : py.engine.word c = true := by
  rcases Bool.or_eq_true_iff.mp h with hc | hc
  · rw [of_decide_eq_true hc, py.word_k]
  · rw [of_decide_eq_true hc, py.word_K]

/-- A multiplier is taken where no word goes on after it. -/
theorem finds_multiplier {rest : List Char} (h : afterK py false t = some rest) :
    Finds (opt (group n (multiplier py))) ⟨b, t, g⟩ rest ((n, t.take 1) :: g) := by
  cases t with
  | nil => exact absurd h.symm (Option.some_ne_none rest)
  | cons c t =>
    rw [afterK] at h
    split at h
    · next hk =>
      obtain rfl := Option.some.inj h
      rw [Bool.and_eq_true, beq_iff_eq] at hk
      have hword := word_of_isK py hk.1
      have hmultiplier : Finds (multiplier py) ⟨b, c :: t, g⟩ t g := by
        refine ⟨some c, ?_⟩
        unfold multiplier
        rw [seq_singleton (one_cons hk.1)]
        unfold boundary
        rw [Option.any_some, hword, hk.2]
        rfl
      have htake : (c :: t).take ((c :: t).length - t.length) = (c :: t).take 1 := by
        rw [List.length_cons, Nat.add_sub_cancel_left]
      have hgroup := finds_group n hmultiplier
      rw [htake] at hgroup
      exact finds_opt hgroup
    · exact absurd h.symm (Option.some_ne_none rest)

/-- And not where one does. -/
theorem finds_multiplier_none (h : afterK py false t = none) :
    Finds (opt (group n (multiplier py))) ⟨b, t, g⟩ t g := by
  apply finds_opt_none
  apply group_eq_nil
  cases t with
  | nil => rfl
  | cons c t =>
    rw [afterK] at h
    split at h
    · exact absurd h (Option.some_ne_none _)
    · next hk =>
      unfold multiplier
      by_cases hc : isK c = true
      · have hword := word_of_isK py hc
        rw [hc, Bool.true_and, beq_iff_eq, Bool.not_eq_false] at hk
        rw [seq_singleton (one_cons hc)]
        unfold boundary
        rw [Option.any_some, hword, hk]
        rfl
      · exact seq_eq_nil_left (if_neg hc)

/-- The amount at the start: what is left, and its groups before others. -/
def amount (py : Python) (n : ℕ) (g : List (ℕ × List Char)) : List Char → Option (List Char × List (ℕ × List Char))
  | '$' :: t =>
    (number py (skipSpace py t)).map fun (digits, rest) =>
      match afterK py false (skipSpace py rest) with
      | some after => (after, (n + 1, (skipSpace py rest).take 1) :: (n, digits) :: g)
      | none => (skipSpace py rest, (n, digits) :: g)
  | _ => none

/-- A space is left out, and no dollar sign. -/
theorem exists_skipSpace (py : Python) (t : List Char) : ∃ a, t = a ++ skipSpace py t ∧ '$' ∉ a := by
  unfold skipSpace
  cases t with
  | nil => exact ⟨[], rfl, List.not_mem_nil⟩
  | cons c t =>
    dsimp only
    split
    · next hspace =>
      refine ⟨[c], rfl, ?_⟩
      intro hmem
      rw [← List.mem_singleton.mp hmem, py.space_dollar] at hspace
      exact Bool.false_ne_true hspace
    · exact ⟨[], rfl, List.not_mem_nil⟩

/-- A digit is no dollar sign. -/
theorem ne_dollar {c : Char} (h : py.engine.digit c = true) : '$' ≠ c := by
  rintro rfl
  rw [py.digit_dollar] at h
  exact Bool.false_ne_true h

/-- There is none among digits. -/
theorem dollar_not_mem_takeWhile : '$' ∉ t.takeWhile py.engine.digit := by
  intro hmem
  exact ne_dollar (List.mem_takeWhile_imp hmem) rfl

/-- Thousands are a part of the text, and no dollar sign is in them. -/
theorem thousands_append (py : Python) (t : List Char) :
    t = (thousands py t).1 ++ (thousands py t).2 ∧ '$' ∉ (thousands py t).1 := by
  induction t using thousands.induct py with
  | case1 x y z rest hdigits ih =>
    rw [thousands, if_pos hdigits]
    rw [Bool.and_eq_true, Bool.and_eq_true] at hdigits
    obtain ⟨⟨hx, hy⟩, hz⟩ := hdigits
    refine ⟨?_, ?_⟩
    · dsimp only [List.cons_append]
      rw [← ih.1]
    · simp only [List.mem_cons, not_or]
      exact ⟨by decide, ne_dollar hx, ne_dollar hy, ne_dollar hz, ih.2⟩
  | case2 x y z rest hdigits =>
    rw [thousands, if_neg hdigits]
    exact ⟨rfl, List.not_mem_nil⟩
  | case3 t hshape =>
    unfold thousands
    split
    · exact (hshape _ _ _ _ rfl).elim
    · exact ⟨rfl, List.not_mem_nil⟩

/-- So are decimals. -/
theorem decimals_append (py : Python) (t : List Char) :
    t = (decimals py t).1 ++ (decimals py t).2 ∧ '$' ∉ (decimals py t).1 := by
  unfold decimals
  split
  · next rest =>
    split
    · exact ⟨rfl, List.not_mem_nil⟩
    · refine ⟨?_, ?_⟩
      · dsimp only [List.cons_append]
        rw [List.takeWhile_append_dropWhile]
      · rw [List.mem_cons, not_or]
        exact ⟨by decide, dollar_not_mem_takeWhile⟩
  · exact ⟨rfl, List.not_mem_nil⟩

/-- So is a number. -/
theorem number_append {x : List Char × List Char} (h : number py t = some x) : t = x.1 ++ x.2 ∧ '$' ∉ x.1 := by
  unfold number at h
  split at h
  · exact absurd h (Option.some_ne_none x).symm
  · obtain rfl := Option.some.inj h
    obtain ⟨hdecimals, hpoint⟩ := decimals_append py (commas py t).2
    have hcommas : t.dropWhile py.engine.digit = (commas py t).1 ++ (commas py t).2 ∧ '$' ∉ (commas py t).1 := by
      unfold commas
      split
      · exact thousands_append py _
      · exact ⟨rfl, List.not_mem_nil⟩
    refine ⟨?_, ?_⟩
    · dsimp only
      rw [List.append_assoc, ← hdecimals, List.append_assoc, ← hcommas.1, List.takeWhile_append_dropWhile]
    · rw [List.mem_append, List.mem_append, not_or, not_or]
      exact ⟨⟨dollar_not_mem_takeWhile, hcommas.2⟩, hpoint⟩

/-- A `k` is a part of the text. -/
theorem afterK_append {glued : Bool} {rest : List Char} (h : afterK py glued t = some rest) :
    ∃ a, t = a ++ rest ∧ '$' ∉ a := by
  cases t with
  | nil => exact absurd h.symm (Option.some_ne_none rest)
  | cons c t =>
    rw [afterK] at h
    split at h
    · next hk =>
      obtain rfl := Option.some.inj h
      refine ⟨[c], rfl, ?_⟩
      intro hmem
      rw [← List.mem_singleton.mp hmem, Bool.and_eq_true] at hk
      exact absurd hk.1 (by decide)
    · exact absurd h.symm (Option.some_ne_none rest)

/-- The first way to match an amount is the one at the start. -/
theorem amount_eq (py : Python) (b : Option Char) (t : List Char) :
    (AMOUNT py n ⟨b, t, g⟩).head?.map (fun q => (q.rest, q.groups)) = amount py n g t := by
  have hfirst : ∀ {x : List Char × List (ℕ × List Char)}, Finds (AMOUNT py n) ⟨b, t, g⟩ x.1 x.2 →
      (AMOUNT py n ⟨b, t, g⟩).head?.map (fun q => (q.rest, q.groups)) = some x := by
    rintro x ⟨b', hb'⟩
    rw [hb']
    rfl
  have hnone : AMOUNT py n ⟨b, t, g⟩ = [] →
      (AMOUNT py n ⟨b, t, g⟩).head?.map (fun q => (q.rest, q.groups)) = none := by
    intro hnil
    rw [hnil]
    rfl
  unfold amount
  split
  · next t =>
    rcases hnumber : number py (skipSpace py t) with _ | ⟨digits, rest⟩
    · apply hnone
      have hdigits : (skipSpace py t).takeWhile py.engine.digit = [] := by
        by_contra hsome
        unfold number at hnumber
        rw [if_neg hsome] at hnumber
        exact absurd hnumber (Option.some_ne_none _)
      unfold AMOUNT
      rw [seq_singleton (one_cons (by decide))]
      apply seq_eq_nil
      intro q hq
      exact seq_eq_nil_left (group_eq_nil n (digits_eq_nil (takeWhile_of_mem_space hdigits hq)))
    · obtain ⟨happend, -⟩ := number_append hnumber
      dsimp only at happend
      have htake : (skipSpace py t).take ((skipSpace py t).length - rest.length) = digits := by
        rw [happend, List.length_append, Nat.add_sub_cancel_right, List.take_left]
      have hgroup : ∀ b, Finds (group n (PayScreen.digits py)) ⟨b, skipSpace py t, g⟩ rest ((n, digits) :: g) := by
        intro b
        have hfinds := finds_group n (finds_digits (b := b) (g := g) hnumber)
        dsimp only at hfinds
        rwa [htake] at hfinds
      dsimp only [Option.map_some]
      split
      · next hk =>
        exact hfirst (finds_seq (finds_one (by decide)) fun b₁ => finds_seq finds_space fun b₂ =>
          finds_seq (hgroup b₂) fun b₃ => finds_seq finds_space fun b₄ => finds_multiplier hk)
      · next hk =>
        exact hfirst (finds_seq (finds_one (by decide)) fun b₁ => finds_seq finds_space fun b₂ =>
          finds_seq (hgroup b₂) fun b₃ => finds_seq finds_space fun b₄ => finds_multiplier_none hk)
  · next hdollar =>
    apply hnone
    apply seq_eq_nil_left
    apply one_eq_nil
    intro c hc
    obtain ⟨rest, rfl⟩ := List.head?_eq_some_iff.mp hc
    apply decide_eq_false
    rintro rfl
    exact hdollar rest rfl

/-- It starts with its dollar sign, which is not inside of it. -/
theorem amount_append (t : List Char) (x : List Char × List (ℕ × List Char)) (h : amount py n g t = some x) :
    ∃ a, t = '$' :: (a ++ x.1) ∧ '$' ∉ a := by
  unfold amount at h
  split at h
  · next t =>
    rcases hnumber : number py (skipSpace py t) with _ | ⟨digits, rest⟩
    · rw [hnumber] at h
      exact absurd h.symm (Option.some_ne_none x)
    · rw [hnumber] at h
      obtain rfl := Option.some.inj h
      obtain ⟨s₁, hs₁, hno₁⟩ := exists_skipSpace py t
      obtain ⟨happend, hno₂⟩ := number_append hnumber
      obtain ⟨s₃, hs₃, hno₃⟩ := exists_skipSpace py rest
      dsimp only at happend hno₂ ⊢
      split
      · next after hk =>
        obtain ⟨s₄, hs₄, hno₄⟩ := afterK_append hk
        refine ⟨s₁ ++ (digits ++ (s₃ ++ s₄)), ?_, ?_⟩
        · simp only [List.append_assoc]
          rw [← hs₄, ← hs₃, ← happend, ← hs₁]
        · simp only [List.mem_append, not_or]
          exact ⟨hno₁, hno₂, hno₃, hno₄⟩
      · refine ⟨s₁ ++ (digits ++ s₃), ?_, ?_⟩
        · simp only [List.append_assoc]
          rw [← hs₃, ← happend, ← hs₁]
        · simp only [List.mem_append, not_or]
          exact ⟨hno₁, hno₂, hno₃⟩
  · exact absurd h.symm (Option.some_ne_none x)

/-- The single figures that are found are the amounts at all places of the text. -/
theorem values_eq (py : Python) (text : List Char) :
    values py text = (text.tails.filterMap (amount py 1 [])).map fun x => yearlyOf py 1 x.1 x.2 := by
  have hall : (finditer (AMOUNT py 1) text).map (fun x => (text.drop x.stop, x.groups)) =
      text.tails.filterMap (amount py 1 []) := finditer_eq text (amount_eq py) amount_append
  rw [← hall, List.map_map]
  rfl

/-- What follows a `k` starts with one. -/
theorem exists_of_afterK {glued : Bool} {rest : List Char} (h : afterK py glued t = some rest) :
    ∃ c, t = c :: rest ∧ isK c = true ∧ rest.head?.any py.engine.word = glued := by
  cases t with
  | nil => exact absurd h.symm (Option.some_ne_none rest)
  | cons c t =>
    rw [afterK] at h
    split at h
    · next hk =>
      obtain rfl := Option.some.inj h
      rw [Bool.and_eq_true, beq_iff_eq] at hk
      exact ⟨c, rfl, hk.1, hk.2⟩
    · exact absurd h.symm (Option.some_ne_none rest)

/-- Nothing is a mark and a space. -/
theorem not_space_of_mark (py : Python) {c : Char} (h : isMark c = true) : ¬ py.engine.space c = true := by
  rw [py.space_of_mark c h]
  exact Bool.false_ne_true

/-- A `k` is a mark. -/
theorem isMark_of_isK {c : Char} (h : isK c = true) : isMark c = true := by
  unfold isMark
  rw [h, Bool.or_true, Bool.true_or]

/-- No space is left out before a mark. -/
theorem skipSpace_of_mark {c : Char} (h : isMark c = true) : skipSpace py (c :: t) = c :: t :=
  if_neg (not_space_of_mark py h)

/-- The text of a group is that of the last capture. -/
theorem textOf_cons_self (n : ℕ) (text : List Char) (g : List (ℕ × List Char)) :
    textOf ((n, text) :: g) n = text := by
  unfold textOf
  rw [List.lookup_cons_self, Option.getD_some]

theorem textOf_cons_of_ne {k : ℕ} (h : n ≠ k) (text : List Char) (g : List (ℕ × List Char)) :
    textOf ((k, text) :: g) n = textOf g n := by
  unfold textOf
  rw [List.lookup_cons, beq_false_of_ne h]

/-- A dollar figure is an amount, and worth what its groups come to, unless a word goes on after its `k`. -/
theorem amount_of_figure {f : Figure} (h : figure py t = some f) (hdollar : f.dollar = true)
    (hglued : f.glued = false) (hg : textOf g (n + 1) = []) :
    ∃ g', amount py n g t = some (f.rest, g') ∧ yearlyOf py n f.rest g' = f.worth py := by
  unfold figure at h
  split at h
  · next t =>
    unfold figureAfter at h
    rcases hnumber : number py (skipSpace py t) with _ | ⟨digits, rest⟩
    · rw [hnumber] at h
      exact absurd h.symm (Option.some_ne_none f)
    · rw [hnumber] at h
      obtain rfl := Option.some.inj h
      rw [amount, hnumber, Option.map_some]
      dsimp only at hglued ⊢
      split at hglued
      · exact absurd hglued.symm Bool.false_ne_true
      · rcases hk : afterK py false (skipSpace py rest) with _ | after
        · refine ⟨_, rfl, ?_⟩
          unfold yearlyOf Figure.worth
          rw [textOf_cons_self, textOf_cons_of_ne (Nat.succ_ne_self n), hg]
          rfl
        · obtain ⟨c, hc, -⟩ := exists_of_afterK hk
          refine ⟨_, rfl, ?_⟩
          unfold yearlyOf Figure.worth
          rw [textOf_cons_self, textOf_cons_of_ne (Nat.succ_ne_self n).symm, textOf_cons_self, hc]
          rfl
  · unfold figureAfter at h
    obtain ⟨x, -, rfl⟩ := Option.map_eq_some_iff.mp h
    dsimp only at hdollar
    split at hdollar
    · exact absurd hdollar Bool.false_ne_true
    · split at hdollar
      · exact absurd hdollar Bool.false_ne_true
      · exact absurd hdollar Bool.false_ne_true

/-- A dollar figure is read as what it is worth, unless a word goes on after its `k`. -/
theorem worth_mem_values {text : List Char} {f : Figure} (h : f ∈ dollars py text) (hglued : f.glued = false) :
    f.worth py ∈ values py text := by
  obtain ⟨hmem, hdollar⟩ := List.mem_filter.mp h
  obtain ⟨t, ht, hf⟩ := List.mem_filterMap.mp hmem
  obtain ⟨g, hamount, hworth⟩ := amount_of_figure (g := []) (n := 1) hf hdollar hglued rfl
  rw [values_eq, List.mem_map]
  exact ⟨_, List.mem_filterMap.mpr ⟨t, ht, hamount⟩, hworth⟩

/-- An amount is a dollar figure, that ends where it does unless a word goes on after its `k`. -/
theorem figure_of_amount {x : List Char × List (ℕ × List Char)} (h : amount py n g t = some x) :
    ∃ f, figure py t = some f ∧ f.dollar = true ∧ (f.glued = false → f.rest = x.1) ∧
      (f.glued = true → ∃ c ∈ x.1.head?, isK c = true) := by
  unfold amount at h
  split at h
  · next t =>
    rcases hnumber : number py (skipSpace py t) with _ | ⟨digits, rest⟩
    · rw [hnumber] at h
      exact absurd h.symm (Option.some_ne_none x)
    · rw [hnumber] at h
      obtain rfl := Option.some.inj h
      refine ⟨_, by rw [figure, figureAfter, hnumber, Option.map_some], ?_⟩
      dsimp only
      rcases hglued : afterK py true rest with _ | after
      · dsimp only
        rcases hk : afterK py false (skipSpace py rest) with _ | after
        · exact ⟨rfl, fun _ => rfl, fun hfalse => absurd hfalse Bool.false_ne_true⟩
        · exact ⟨rfl, fun _ => rfl, fun hfalse => absurd hfalse Bool.false_ne_true⟩
      · -- The pattern leaves the `k` where it is.
        obtain ⟨c, rfl, hc, hword⟩ := exists_of_afterK hglued
        have hnone : afterK py false (c :: after) = none := by
          rw [afterK, hword, hc]
          rfl
        rw [skipSpace_of_mark (isMark_of_isK hc), hnone]
        exact ⟨rfl, fun hfalse => absurd hfalse.symm Bool.false_ne_true, fun _ => ⟨c, rfl, hc⟩⟩
  · exact absurd h.symm (Option.some_ne_none x)

/-- Whether there is an amount does not depend on the groups. -/
theorem amount_eq_none {m : ℕ} {g' : List (ℕ × List Char)} (h : amount py n g t = none) :
    amount py m g' t = none := by
  unfold amount at h ⊢
  split
  · exact Option.map_eq_none_iff.mpr (Option.map_eq_none_iff.mp h)
  · rfl

/-- There is no way to match an amount where there is none. -/
theorem AMOUNT_eq_nil (h : amount py n g t = none) : AMOUNT py n ⟨b, t, g⟩ = [] := by
  have hfirst := amount_eq py (n := n) (g := g) b t
  rw [h, Option.map_eq_none_iff] at hfirst
  exact List.head?_eq_none_iff.mp hfirst

/-- An amount starts with a dollar sign. -/
theorem amount_eq_none_of_ne {c : Char} (h : c ≠ '$') : amount py n g (c :: t) = none := by
  unfold amount
  split
  · next heq => exact absurd (List.cons.inj heq).1 h
  · rfl

end Amounts

end JobScripts.Board.PayScreen
