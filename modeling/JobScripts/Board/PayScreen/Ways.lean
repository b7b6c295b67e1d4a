import JobScripts.Board.PayScreen.Amounts

/-!
# The ways to match a range

`_RANGE` can go back on what it has tried, so each way to match it is looked at: the upper end of any of them is the
whole figure that is there, and the scale of a range does not depend on the way.
-/

namespace JobScripts.Board.PayScreen

open Lib Lib.Backtracking

section Ways

variable {py : Python} {b : Option Char} {t t' : List Char} {g : List (ℕ × List Char)} {n : ℕ} {q : Place Char}

/-- No number goes on at the start. -/
def Stops (py : Python) (t : List Char) : Prop :=
  ∀ c ∈ t.head?, py.engine.digit c = false ∧ c ≠ ',' ∧ c ≠ '.'

/-- No number goes on with a space. -/
theorem stops_space {c : Char} (h : py.engine.space c = true) : Stops py (c :: t) := by
  intro c' hc'
  obtain rfl := Option.some.inj hc'
  refine ⟨py.digit_of_space c h, ?_, ?_⟩
  · rintro rfl
    exact not_space_of_mark py (by decide) h
  · rintro rfl
    exact not_space_of_mark py (by decide) h

/-- Nor with a mark that is no comma or point. -/
theorem stops_mark {c : Char} (h : isMark c = true) (hcomma : c ≠ ',') (hpoint : c ≠ '.') : Stops py (c :: t) := by
  intro c' hc'
  obtain rfl := Option.some.inj hc'
  exact ⟨py.digit_of_mark c h, hcomma, hpoint⟩

/-- Nor with a `k`. -/
theorem stops_isK {c : Char} (h : isK c = true) : Stops py (c :: t) := by
  refine stops_mark (isMark_of_isK h) ?_ ?_
  · rintro rfl
    exact absurd h (by decide)
  · rintro rfl
    exact absurd h (by decide)

/-- Digits end where no number goes on. -/
theorem takeWhile_of_stop {a r : List Char} (ha : ∀ c ∈ a, py.engine.digit c = true)
    (hr : ∀ c ∈ r.head?, py.engine.digit c = false) :
    (a ++ r).takeWhile py.engine.digit = a ∧ (a ++ r).dropWhile py.engine.digit = r := by
  have hnone : r.takeWhile py.engine.digit = [] := by
    cases r with
    | nil => rfl
    | cons c r =>
      apply List.takeWhile_cons_of_neg
      rw [hr c rfl]
      exact Bool.false_ne_true
  rw [List.takeWhile_append_of_pos ha, List.dropWhile_append_of_pos ha, hnone, List.append_nil,
    dropWhile_of_takeWhile hnone]
  exact ⟨rfl, rfl⟩

/-- All decimals are taken, however a way does it that ends where no number goes on. -/
theorem decimals_of_mem (h : q ∈ fraction py ⟨b, t, g⟩) (hstop : Stops py q.rest) :
    (decimals py t).2 = q.rest ∧ (t = q.rest ∨ t.head? = some '.') := by
  rcases List.mem_append.mp h with h | h
  · obtain ⟨q', hq', h⟩ := List.mem_flatMap.mp h
    cases t with
    | nil => exact absurd hq' List.not_mem_nil
    | cons c t =>
      by_cases hc : c = '.'
      · subst hc
        rw [one_cons (by decide)] at hq'
        obtain rfl := List.mem_singleton.mp hq'
        obtain ⟨a, rfl, ha, hne⟩ := of_mem_plus h
        obtain ⟨htake, hdrop⟩ := takeWhile_of_stop ha fun c hc => (hstop c hc).1
        refine ⟨?_, .inr rfl⟩
        rw [decimals, htake, hdrop, if_neg hne]
      · have hnone : one (fun d => d = '.') ⟨b, c :: t, g⟩ = [] := if_neg (by simpa using hc)
        rw [hnone] at hq'
        exact absurd hq' List.not_mem_nil
  · obtain rfl := List.mem_singleton.mp h
    refine ⟨?_, .inl rfl⟩
    unfold decimals
    split
    · next rest => exact absurd rfl (hstop '.' rfl).2.2
    · rfl

/-- All groups of three digits are. -/
theorem thousands_of_mem : ∀ {k : ℕ} {b : Option Char} {t : List Char} {g : List (ℕ × List Char)},
    q ∈ upTo (thousand py) k ⟨b, t, g⟩ → q.rest.head? ≠ some ',' → (thousands py t).2 = q.rest
  | 0, b, t, g, h, hcomma => by
    obtain rfl := List.mem_singleton.mp h
    cases t with
    | nil => rfl
    | cons c t => rw [thousands_of_ne fun hc => hcomma (congrArg some hc)]
  | k + 1, b, t, g, h, hcomma => by
    rcases List.mem_append.mp h with h | h
    · obtain ⟨⟨b', t', g'⟩, hq', hmany⟩ := List.mem_flatMap.mp h
      obtain ⟨x, y, z, rfl, hdigits⟩ := of_mem_thousand hq'
      rw [thousands, if_pos hdigits]
      exact thousands_of_mem hmany hcomma
    · obtain rfl := List.mem_singleton.mp h
      cases t with
      | nil => rfl
      | cons c t => rw [thousands_of_ne fun hc => hcomma (congrArg some hc)]

/-- A number is all that there is of it, however a way takes it that ends where no number goes on. -/
theorem number_of_mem (h : q ∈ digits py ⟨b, t, g⟩) (hstop : Stops py q.rest) :
    ∃ d, number py t = some (d, q.rest) := by
  rcases List.mem_append.mp h with h | h
  · -- Up to three digits, and groups of three after commas.
    obtain ⟨⟨b₁, t₁, g₁⟩, hq₁, h⟩ := List.mem_flatMap.mp h
    obtain ⟨⟨b₂, t₂, g₂⟩, hq₂, h⟩ := List.mem_flatMap.mp h
    obtain ⟨hdecimals, hpoint⟩ := decimals_of_mem h hstop
    obtain ⟨a, rfl, ha, hpos, hlength⟩ := of_mem_times hq₁
    have hplus := hq₂
    obtain ⟨⟨b₃, t₃, g₃⟩, hq₃, -⟩ := List.mem_flatMap.mp hplus
    obtain ⟨x, y, z, rfl, hdigits⟩ := of_mem_thousand hq₃
    obtain ⟨htake, hdrop⟩ := takeWhile_of_stop (r := ',' :: x :: y :: z :: t₃) ha fun c hc => by
      obtain rfl := Option.some.inj hc
      exact py.digit_comma
    have hne : a ≠ [] := List.ne_nil_of_length_pos hpos
    have hcomma : t₂.head? ≠ some ',' := by
      rcases hpoint with heq | hpoint
      · intro hcomma
        rw [heq] at hcomma
        exact (hstop ',' hcomma).2.1 rfl
      · rw [hpoint]
        decide
    have hthousands : (thousands py (',' :: x :: y :: z :: t₃)).2 = t₂ := by
      obtain ⟨q', hq', hmany⟩ := List.mem_flatMap.mp hq₂
      obtain ⟨x', y', z', heq, hdigits'⟩ := of_mem_thousand hq'
      rw [heq, thousands, if_pos hdigits']
      obtain ⟨b', t', g'⟩ := q'
      exact thousands_of_mem hmany hcomma
    unfold number commas
    rw [htake, hdrop, if_neg hne, if_pos hlength, hthousands, hdecimals]
    exact ⟨_, rfl⟩
  · -- Digits alone.
    obtain ⟨⟨b₁, t₁, g₁⟩, hq₁, h⟩ := List.mem_flatMap.mp h
    obtain ⟨hdecimals, hpoint⟩ := decimals_of_mem h hstop
    obtain ⟨a, rfl, ha, hne⟩ := of_mem_plus hq₁
    have hhead : ∀ c ∈ t₁.head?, py.engine.digit c = false ∧ c ≠ ',' := by
      intro c hc
      rcases hpoint with heq | hpoint
      · rw [heq] at hc
        exact ⟨(hstop c hc).1, (hstop c hc).2.1⟩
      · obtain rfl := Option.some.inj (hpoint.symm.trans hc)
        exact ⟨py.digit_of_mark '.' (by decide), by decide⟩
    obtain ⟨htake, hdrop⟩ := takeWhile_of_stop ha fun c hc => (hhead c hc).1
    have hthousands : thousands py t₁ = ([], t₁) := by
      cases t₁ with
      | nil => rfl
      | cons c t₁ => exact thousands_of_ne (hhead c rfl).2
    have hcommas : (commas py (a ++ t₁)).2 = t₁ := by
      unfold commas
      rw [htake, hdrop, hthousands]
      split
      · rfl
      · rfl
    unfold number
    rw [htake, if_neg hne, hcommas, hdecimals]
    exact ⟨_, rfl⟩

/-- Where an upper end may follow, no number goes on. -/
theorem stops_of_separated (h : separated py t = some t') : Stops py t := by
  cases t with
  | nil => exact fun c hc => absurd hc.symm (Option.some_ne_none c)
  | cons c t =>
    by_cases hspace : py.engine.space c = true
    · exact stops_space hspace
    · unfold separated at h
      rw [List.dropWhile_cons_of_neg hspace] at h
      split at h
      · next heq =>
        obtain rfl := (List.cons.inj heq).1
        exact stops_mark (by decide) (by decide) (by decide)
      · next heq =>
        obtain rfl := (List.cons.inj heq).1
        split at h
        · next hdash =>
          refine stops_mark ?_ ?_ ?_
          · unfold isMark
            rw [hdash, Bool.or_true]
          · rintro rfl
            exact absurd hdash (by decide)
          · rintro rfl
            exact absurd hdash (by decide)
        · exact absurd h.symm (Option.some_ne_none t')
      · next heq => exact absurd heq (List.cons_ne_nil c t)

/-- A `k` is not where an upper end may follow. -/
theorem not_isK_of_separated {c : Char} (h : separated py (c :: t) = some t') : ¬ isK c = true := by
  intro hk
  unfold separated at h
  rw [List.dropWhile_cons_of_neg (not_space_of_mark py (isMark_of_isK hk))] at h
  split at h
  · next heq =>
    obtain rfl := (List.cons.inj heq).1
    exact absurd hk (by decide)
  · next heq =>
    obtain rfl := (List.cons.inj heq).1
    split at h
    · next hdash =>
      rcases Bool.or_eq_true_iff.mp hk with hc | hc
      · rw [of_decide_eq_true hc] at hdash
        exact absurd hdash (by decide)
      · rw [of_decide_eq_true hc] at hdash
        exact absurd hdash (by decide)
    · exact absurd h.symm (Option.some_ne_none t')
  · next heq => exact absurd heq (List.cons_ne_nil c t)

/-- A space before a dash or a `to` makes no difference. -/
theorem separated_skipSpace (py : Python) (t : List Char) : separated py (skipSpace py t) = separated py t := by
  have hdrop : (skipSpace py t).dropWhile py.engine.space = t.dropWhile py.engine.space := by
    unfold skipSpace
    cases t with
    | nil => rfl
    | cons c t =>
      dsimp only
      split
      · next hspace => rw [List.dropWhile_cons_of_pos hspace]
      · rfl
  unfold separated
  rw [hdrop]

/-- A space is taken or left. -/
theorem of_mem_space (h : q ∈ opt (one py.engine.space) ⟨b, t, g⟩) :
    q.rest = t ∨ ∃ c, py.engine.space c = true ∧ t = c :: q.rest := by
  rcases List.mem_append.mp h with h | h
  · cases t with
    | nil => exact absurd h List.not_mem_nil
    | cons c t =>
      by_cases hc : py.engine.space c = true
      · rw [one_cons hc] at h
        obtain rfl := List.mem_singleton.mp h
        exact .inr ⟨c, hc, rfl⟩
      · have hnone : one py.engine.space ⟨b, c :: t, g⟩ = [] := if_neg hc
        rw [hnone] at h
        exact absurd h List.not_mem_nil
  · obtain rfl := List.mem_singleton.mp h
    exact .inl rfl

/-- A multiplier is taken or left. -/
theorem of_mem_multiplier (h : q ∈ opt (group n (multiplier py)) ⟨b, t, g⟩) :
    q.rest = t ∨ afterK py false t = some q.rest := by
  rcases List.mem_append.mp h with h | h
  · obtain ⟨q', hq', hrest⟩ := of_mem_group h
    obtain ⟨q'', hq'', hboundary⟩ := List.mem_flatMap.mp hq'
    cases t with
    | nil => exact absurd hq'' List.not_mem_nil
    | cons c t =>
      by_cases hc : isK c = true
      · rw [one_cons hc] at hq''
        obtain rfl := List.mem_singleton.mp hq''
        unfold boundary at hboundary
        rw [Option.any_some, word_of_isK py hc] at hboundary
        split at hboundary
        · next hword =>
          obtain rfl := List.mem_singleton.mp hboundary
          refine .inr ?_
          have hfalse : t.head?.any py.engine.word = false := by simpa using hword
          rw [afterK, hc, hfalse, ← hrest]
          rfl
        · exact absurd hboundary List.not_mem_nil
      · have hnone : one isK ⟨b, c :: t, g⟩ = [] := if_neg hc
        rw [hnone] at hq''
        exact absurd hq'' List.not_mem_nil
  · obtain rfl := List.mem_singleton.mp h
    exact .inl rfl

/-- However a lower end is taken that an upper end may follow, it is the amount that is there. -/
theorem amount_of_mem (h : q ∈ AMOUNT py n ⟨b, t, g⟩) (hseparated : separated py q.rest = some t') :
    ∃ x, amount py n g t = some x ∧ separated py x.1 = some t' := by
  -- The parts of the pattern: the dollar sign, a space, the digits, a space, the multiplier.
  obtain ⟨q₁, hq₁, h⟩ := List.mem_flatMap.mp h
  obtain ⟨⟨b₂, t₂, g₂⟩, hq₂, h⟩ := List.mem_flatMap.mp h
  obtain ⟨⟨b₃, r, g₃⟩, hq₃, h⟩ := List.mem_flatMap.mp h
  obtain ⟨⟨b₄, r', g₄⟩, hq₄, hq⟩ := List.mem_flatMap.mp h
  obtain ⟨q₃, hdigits, hrest⟩ := of_mem_group hq₃
  dsimp only at hrest
  cases t with
  | nil => exact absurd hq₁ List.not_mem_nil
  | cons c t =>
    by_cases hc : c = '$'
    · subst hc
      rw [one_cons (by decide)] at hq₁
      obtain rfl := List.mem_singleton.mp hq₁
      -- After its last digit there is a space, a `k`, or what an upper end may follow.
      have hspace := of_mem_space hq₄
      have hk := of_mem_multiplier hq
      dsimp only at hspace
      have hstop : Stops py r := by
        rcases hspace with rfl | ⟨c, hc, rfl⟩
        · rcases hk with heq | hk
          · rw [← heq]
            exact stops_of_separated hseparated
          · obtain ⟨c, rfl, hc, -⟩ := exists_of_afterK hk
            exact stops_isK hc
        · exact stops_space hc
      -- The digits are read as the number.
      obtain ⟨d, hnumber⟩ := number_of_mem hdigits (hrest ▸ hstop)
      rw [hrest] at hnumber
      have hnumber' : number py (skipSpace py t) = some (d, r) := by
        rcases of_mem_space hq₂ with rfl | ⟨c, hc, heq⟩
        · cases ht₂ : t₂ with
          | nil => rwa [ht₂] at hnumber
          | cons c t₂ =>
            by_cases hc : py.engine.space c = true
            · rw [ht₂, number, if_pos (takeWhile_digit_of_space hc)] at hnumber
              exact absurd hnumber.symm (Option.some_ne_none _)
            · rw [skipSpace, if_neg hc, ← ht₂]
              exact hnumber
        · dsimp only at heq
          rw [heq, skipSpace, if_pos hc]
          exact hnumber
      rw [amount, hnumber', Option.map_some]
      refine ⟨_, rfl, ?_⟩
      dsimp only
      rcases hk with heq | hk
      · -- No `k` is taken, and there is none.
        rw [heq] at hseparated
        have hskip : separated py (skipSpace py r) = some t' := by
          rcases hspace with rfl | ⟨c, hc, rfl⟩
          · rw [separated_skipSpace]
            exact hseparated
          · rw [skipSpace, if_pos hc]
            exact hseparated
        rcases hafter : afterK py false (skipSpace py r) with _ | after
        · exact hskip
        · obtain ⟨c, hc, hk, -⟩ := exists_of_afterK hafter
          rw [hc] at hskip
          exact absurd hk (not_isK_of_separated hskip)
      · have hskip : skipSpace py r = r' := by
          rcases hspace with rfl | ⟨c, hc, rfl⟩
          · obtain ⟨c, heq, hc, -⟩ := exists_of_afterK hk
            rw [heq]
            exact skipSpace_of_mark (isMark_of_isK hc)
          · exact if_pos hc
        rw [hskip, hk]
        exact hseparated
    · have hnone : one (fun d => d = '$') ⟨b, c :: t, g⟩ = [] := if_neg (by simpa using hc)
      rw [hnone] at hq₁
      exact absurd hq₁ List.not_mem_nil

/-- After a lower end, an upper end is matched where one may follow. -/
theorem exists_upperAmount (py : Python) (b : Option Char) (t : List Char) (g : List (ℕ × List Char)) :
    ∃ b', upperAmount py ⟨b, t, g⟩ = (separated py t).elim [] fun t' => AMOUNT py 3 ⟨b', t', g⟩ := by
  -- Where white space is given back no dollar sign follows, and no separator.
  have hdollar : ∀ b c t, py.engine.space c = true → AMOUNT py 3 ⟨b, c :: t, g⟩ = [] := by
    intro b c t hc
    refine AMOUNT_eq_nil (amount_eq_none_of_ne ?_)
    rintro rfl
    exact not_space_of_mark py (by decide) hc
  have hdash : ∀ b c t, isDash c = false → c ≠ 't' →
      alt (one isDash) (seq (one (· = 't')) (one (· = 'o'))) ⟨b, c :: t, g⟩ = [] := by
    intro b c t hc hne
    have hone : one isDash ⟨b, c :: t, g⟩ = [] := if_neg (by rw [hc]; exact Bool.false_ne_true)
    have hto : one (fun d => d = 't') ⟨b, c :: t, g⟩ = [] := if_neg (by simpa using hne)
    unfold alt
    rw [hone, seq_eq_nil_left hto, List.append_nil]
  have hseparator : ∀ b c t, py.engine.space c = true →
      seq (alt (one isDash) (seq (one (· = 't')) (one (· = 'o'))))
        (seq (many (one py.engine.space)) (AMOUNT py 3)) ⟨b, c :: t, g⟩ = [] := by
    intro b c t hc
    refine seq_eq_nil_left (hdash b c t ?_ ?_)
    · rw [Bool.eq_false_iff]
      intro h
      refine not_space_of_mark py ?_ hc
      unfold isMark
      rw [h, Bool.or_true]
    · rintro rfl
      exact not_space_of_mark py (by decide) hc
  obtain ⟨b₁, h₁⟩ := exists_seq_many hseparator (b := b) (t := t)
  unfold upperAmount
  rw [h₁]
  unfold separated
  generalize t.dropWhile py.engine.space = t₁
  split
  -- `to`, a dash, or neither.
  · next rest =>
    have hway : alt (one isDash) (seq (one (· = 't')) (one (· = 'o'))) ⟨b₁, 't' :: 'o' :: rest, g⟩ =
        [⟨some 'o', rest, g⟩] := by
      have hone : one isDash ⟨b₁, 't' :: 'o' :: rest, g⟩ = [] := rfl
      unfold alt
      rw [hone, List.nil_append]
      rfl
    rw [seq_singleton hway]
    exact exists_seq_many hdollar
  · next c rest hto =>
    by_cases hc : isDash c = true
    · have hway : alt (one isDash) (seq (one (· = 't')) (one (· = 'o'))) ⟨b₁, c :: rest, g⟩ =
          [⟨some c, rest, g⟩] := by
        have hne : one (fun d => d = 't') ⟨b₁, c :: rest, g⟩ = [] := by
          refine if_neg ?_
          intro h
          rw [of_decide_eq_true h] at hc
          exact absurd hc (by decide)
        unfold alt
        rw [one_cons hc, seq_eq_nil_left hne, List.append_nil]
      rw [seq_singleton hway, if_pos hc]
      exact exists_seq_many hdollar
    · rw [if_neg hc]
      refine ⟨b₁, seq_eq_nil_left ?_⟩
      by_cases ht : c = 't'
      · subst ht
        have hone : one isDash ⟨b₁, 't' :: rest, g⟩ = [] := rfl
        have ho : one (fun d => d = 'o') ⟨some 't', rest, g⟩ = [] := by
          refine one_eq_nil fun d hd => ?_
          obtain ⟨rest', rfl⟩ := List.head?_eq_some_iff.mp hd
          apply decide_eq_false
          rintro rfl
          exact hto rest' rfl rfl
        unfold alt
        rw [hone, seq_singleton (one_cons (by decide)), ho, List.append_nil]
      · exact hdash b₁ c rest (Bool.not_eq_true _ ▸ hc) ht
  · exact ⟨b₁, seq_eq_nil_left rfl⟩

/-- The range at the start, of two amounts: what is left, and its groups. -/
def readRange (py : Python) (t : List Char) : Option (List Char × List (ℕ × List Char)) :=
  (amount py 1 [] t).bind fun low => (separated py low.1).bind (amount py 3 low.2)

/-- The first way to match a range is the one at the start. -/
theorem range_eq (b : Option Char) (t : List Char) :
    (RANGE py ⟨b, t, []⟩).head?.map (fun q => (q.rest, q.groups)) = readRange py t := by
  rcases hread : readRange py t with _ | x
  · have hnil : RANGE py ⟨b, t, []⟩ = [] := by
      refine seq_eq_nil fun q hq => ?_
      obtain ⟨b', hupper⟩ := exists_upperAmount py q.before q.rest q.groups
      rw [hupper]
      rcases hseparated : separated py q.rest with _ | t'
      · rfl
      · obtain ⟨low, hlow, hsame⟩ := amount_of_mem hq hseparated
        rw [readRange, hlow, Option.bind_some, hsame, Option.bind_some] at hread
        exact AMOUNT_eq_nil (amount_eq_none hread)
    rw [hnil]
    rfl
  · obtain ⟨low, hlow, hbind⟩ := Option.bind_eq_some_iff.mp hread
    obtain ⟨t', hseparated, hhigh⟩ := Option.bind_eq_some_iff.mp hbind
    have hfinds : ∀ {n : ℕ} {g : List (ℕ × List Char)} {t : List Char} {x : List Char × List (ℕ × List Char)}
        (b : Option Char), amount py n g t = some x → Finds (AMOUNT py n) ⟨b, t, g⟩ x.1 x.2 := by
      intro n g t x b h
      have hfirst := amount_eq py (n := n) (g := g) b t
      rw [h, Option.map_eq_some_iff] at hfirst
      obtain ⟨q, hq, rfl⟩ := hfirst
      exact ⟨q.before, hq⟩
    have hrange : Finds (RANGE py) ⟨b, t, []⟩ x.1 x.2 := by
      refine finds_seq (hfinds b hlow) fun b₁ => ?_
      obtain ⟨b₂, hupper⟩ := exists_upperAmount py b₁ low.1 low.2
      unfold Finds
      rw [hupper, hseparated]
      exact hfinds b₂ hhigh
    obtain ⟨b', hb'⟩ := hrange
    rw [hb']
    rfl

end Ways

end JobScripts.Board.PayScreen
