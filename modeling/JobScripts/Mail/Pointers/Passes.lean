import JobScripts.Mail.Pointers.Backfill

/-!
# A second pass

Where all pointers are right a pass writes nothing (`State.Inv.second_pass`), and a pass that goes on alone comes to its
end (`pass_ends`). So the pointers are the newest rows (`current_is_newest`).
-/

namespace JobScripts.Mail.Pointers

open Lib

section Invariant

variable {b : Start} {s s' : State}

/-- A row that a run of the backfill holds was held before, or is the one that it looks at. -/
theorem step_fill_lock {a : Act} (hs : Pointers.step s a = some s') {m k : ℕ} {p : Pair}
    (hlock : s'.locks m = some (.fill k, p)) : s.locks m = some (.fill k, p) ∨ a = .fill k m := by
  have hrelease : ∀ who, s.release who m = some (.fill k, p) → s.locks m = some (.fill k, p) :=
    fun who h => (release_some.mp h).1
  cases a with
  | arrive _ | begin _ | insert _ _ _ | backfill _ | read _ _ =>
    simp only [Pointers.step] at hs
    split at hs
    all_goals first
      | contradiction
      | (obtain rfl := Option.some.inj hs; exact .inl hlock)
      | (rw [Option.ite_none_left_eq_some] at hs; obtain rfl := Option.some.inj hs.2; exact .inl hlock)
      | (rw [Option.ite_none_right_eq_some] at hs; obtain rfl := Option.some.inj hs.2; exact .inl hlock)
  | commit _ | abort _ | filled _ | stop _ =>
    simp only [Pointers.step] at hs
    first
      | (obtain rfl := Option.some.inj hs; exact .inl (hrelease _ hlock))
      | (split at hs
         · obtain rfl := Option.some.inj hs
           exact .inl (hrelease _ hlock)
         · contradiction)
  | point x =>
    simp only [Pointers.step] at hs
    split at hs
    · next r _ =>
      split at hs
      · obtain rfl := Option.some.inj hs
        dsimp only at hlock
        by_cases hm : m = r.message
        · rw [hm, Function.update_self] at hlock
          exact Holder.noConfusion (congrArg Prod.fst (Option.some.inj hlock))
        · rw [Function.update_of_ne hm] at hlock
          exact .inl hlock
      · contradiction
    · contradiction
  | fill j m' =>
    simp only [Pointers.step] at hs
    split at hs
    · rw [Option.ite_none_right_eq_some] at hs
      obtain ⟨-, hs⟩ := hs
      split at hs
      · obtain rfl := Option.some.inj hs
        dsimp only at hlock
        by_cases hm : m = m'
        · rw [hm, Function.update_self] at hlock
          have hj : j = k := Holder.fill.inj (congrArg Prod.fst (Option.some.inj hlock))
          rw [hm, hj]
          exact .inr rfl
        · rw [Function.update_of_ne hm] at hlock
          exact .inl hlock
      · obtain rfl := Option.some.inj hs
        exact .inl hlock
    · contradiction

/-- A run of the backfill holds no row and has none to look at. -/
def State.Quiet (s : State) (k : ℕ) : Prop :=
  (∀ m p, s.locks m ≠ some (.fill k, p)) ∧
    ∀ after chunk newest todo, s.fills k = some (.filling after chunk newest todo) → todo = []

/-- Where all pointers are right, a run that has no row to look at gets none. -/
theorem State.Quiet.step {a : Act} {k : ℕ} (h : s.Quiet k)
    (hright : ∀ m ∈ s.ids, ∀ log, s.Right m log) (hs : Pointers.step s a = some s') : s'.Quiet k := by
  -- The run cannot look at a row, as it has none to look at.
  have hnofill : ∀ m, a ≠ .fill k m := by
    rintro m rfl
    simp only [Pointers.step] at hs
    split at hs
    · next after chunk newest todo hfill =>
      rw [Option.ite_none_right_eq_some, h.2 after chunk newest todo hfill] at hs
      exact absurd hs.1.1 List.not_mem_nil
    · contradiction
  refine ⟨fun m p hlock => ?_, fun after chunk newest todo hfill => ?_⟩
  -- Its locks.
  · rcases step_fill_lock hs hlock with hold | rfl
    · exact h.1 m p hold
    · exact hnofill m rfl
  -- What it has to look at can change only by a statement of the run itself.
  · by_cases hsame : s'.fills k = s.fills k
    · exact h.2 after chunk newest todo (hsame ▸ hfill)
    · cases a with
      | read j limit =>
        simp only [Pointers.step] at hs
        split at hs
        · rw [Option.ite_none_left_eq_some] at hs
          obtain rfl := Option.some.inj hs.2
          dsimp only at hfill hsame
          by_cases hk : k = j
          · rw [hk, Function.update_self] at hfill
            obtain ⟨-, rfl, -, rfl⟩ := Fill.filling.inj (Option.some.inj hfill)
            -- No message of the chunk has a pointer to move.
            refine List.filter_eq_nil_iff.mpr fun m hm hd => ?_
            unfold Pair.distinct at hd
            rw [Bool.or_eq_true, decide_eq_true_eq, decide_eq_true_eq] at hd
            exact hd.elim (fun hne => hne (hright m (mem_chunk hm).1 _))
              fun hne => hne (hright m (mem_chunk hm).1 _)
          · exact absurd (Function.update_of_ne hk ..) hsame
        · contradiction
      | fill j m =>
        have hk : k ≠ j := by
          rintro rfl
          exact hnofill m rfl
        refine absurd ?_ hsame
        simp only [Pointers.step] at hs
        split at hs
        · rw [Option.ite_none_right_eq_some] at hs
          obtain ⟨-, hs⟩ := hs
          split at hs
          all_goals
            obtain rfl := Option.some.inj hs
            exact Function.update_of_ne hk ..
        · contradiction
      -- The other steps of the run leave it no chunk.
      | backfill j =>
        simp only [Pointers.step] at hs
        split at hs
        · obtain rfl := Option.some.inj hs
          dsimp only at hfill hsame
          by_cases hk : k = j
          · rw [hk, Function.update_self] at hfill
            exact Fill.noConfusion (Option.some.inj hfill)
          · exact absurd (Function.update_of_ne hk ..) hsame
        · contradiction
      | filled j =>
        simp only [Pointers.step] at hs
        split at hs
        · next chunk' _ _ =>
          obtain rfl := Option.some.inj hs
          dsimp only at hfill hsame
          by_cases hk : k = j
          · rw [hk, Function.update_self] at hfill
            cases hmax : chunk'.max? with
            | none =>
              rw [hmax] at hfill
              exact Fill.noConfusion (Option.some.inj hfill)
            | some last =>
              rw [hmax] at hfill
              exact Fill.noConfusion (Option.some.inj hfill)
          · exact absurd (Function.update_of_ne hk ..) hsame
        · contradiction
      | stop j =>
        simp only [Pointers.step] at hs
        obtain rfl := Option.some.inj hs
        dsimp only at hfill hsame
        by_cases hk : k = j
        · rw [hk, Function.update_self] at hfill
          contradiction
        · exact absurd (Function.update_of_ne hk ..) hsame
      -- The steps that leave every run as it was.
      | arrive _ | begin _ | insert _ _ _ | point _ | commit _ | abort _ =>
        refine absurd ?_ hsame
        simp only [Pointers.step] at hs
        grind

/-- A statement that has locked no row commits nothing. -/
theorem State.Quiet.filled {k : ℕ} (h : s.Quiet k) (hs : Pointers.step s (.filled k) = some s') :
    s'.pointers = s.pointers := by
  simp only [Pointers.step] at hs
  split at hs
  · obtain rfl := Option.some.inj hs
    exact funext fun m => settle_of_ne (h.1 m)
  · contradiction

/-- Where all pointers are right, a pass that has not begun changes nothing. -/
theorem State.Inv.second_pass (h : s.Inv b) {k : ℕ} (hright : ∀ m ∈ s.ids, ∀ log, s.Right m log)
    (hk : s.fills k = none) (hrun : Run Pointers.step Always s s') : s'.Quiet k := by
  have hquiet : s.Quiet k := by
    refine ⟨h.passes.no_lock fun _ _ _ _ hfill => ?_, fun _ _ _ _ hfill => ?_⟩
    · rw [hk] at hfill
      contradiction
    · rw [hk] at hfill
      contradiction
  have hall := hrun.invariant (I := fun t => (t.Inv b ∧ ∀ m ∈ t.ids, ∀ log, t.Right m log) ∧ t.Quiet k)
    ⟨⟨h, hright⟩, hquiet⟩ ?_
  · exact hall.2
  · rintro t a t' ⟨⟨hi, hall⟩, hq⟩ - hs
    refine ⟨⟨(hi.step hs).1, ?_⟩, hq.step hall hs⟩
    exact hi.stay_right hall (.next a .start trivial hs)

/-! ## A pass ends -/

/-- What one run of the backfill does, with a limit on its chunks. -/
def Act.By (k limit : ℕ) : Act → Prop
  | .read j l => j = k ∧ l = limit
  | .fill j _ | .filled j => j = k
  | _ => False

/-- A statement that is alone gets through its rows. -/
theorem fill_rest (limit : ℕ) {k after : ℕ} {chunk : List ℕ} {newest : ℕ → Pair} (n : ℕ) :
    ∀ {s : State} {todo : List ℕ}, todo.length ≤ n → s.fills k = some (.filling after chunk newest todo) →
      (∀ m, (∃ p, s.locks m = some (.fill k, p)) ∧ m ∉ todo ∨ s.locks m = none) →
      ∃ s', Run Pointers.step (fun _ a => a.By k limit) s s' ∧ s'.ids = s.ids ∧
        s'.fills k = some (.filling after chunk newest []) ∧
        ∀ m, (∃ p, s'.locks m = some (.fill k, p)) ∨ s'.locks m = none := by
  induction n with
  | zero =>
    intro s todo hlen hfill hlocks
    obtain rfl := List.eq_nil_of_length_eq_zero (Nat.le_zero.mp hlen)
    exact ⟨s, .start, rfl, hfill, fun m => (hlocks m).imp_left And.left⟩
  | succ n ih =>
    intro s todo hlen hfill hlocks
    cases todo with
    | nil => exact ⟨s, .start, rfl, hfill, fun m => (hlocks m).imp_left And.left⟩
    | cons m rest =>
      have hfree : s.locks m = none := (hlocks m).resolve_left fun h => h.2 List.mem_cons_self
      have hshort : ((m :: rest).filter (· ≠ m)).length ≤ n := by
        rw [List.filter_cons_of_neg (by simp)]
        have := List.length_filter_le (fun x => decide (x ≠ m)) rest
        rw [List.length_cons] at hlen
        omega
      -- The step exists, and leaves locks of this run only, on rows that are no longer to be looked at.
      obtain ⟨t, hstep, hids, ht, hlocks'⟩ : ∃ t, Pointers.step s (.fill k m) = some t ∧ t.ids = s.ids ∧
          t.fills k = some (.filling after chunk newest ((m :: rest).filter (· ≠ m))) ∧
          ∀ m', (∃ p, t.locks m' = some (.fill k, p)) ∧ m' ∉ (m :: rest).filter (· ≠ m) ∨
            t.locks m' = none := by
        have hkeep : ∀ m', (∃ p, s.locks m' = some (.fill k, p)) ∧ m' ∉ (m :: rest).filter (· ≠ m) ∨
            s.locks m' = none := by
          intro m'
          refine (hlocks m').imp_left fun h => ⟨h.1, fun hin => h.2 (List.mem_filter.mp hin).1⟩
        simp only [Pointers.step, hfill, if_pos (And.intro (List.mem_cons_self (a := m) (l := rest)) hfree)]
        split
        · refine ⟨_, rfl, rfl, Function.update_self .., fun m' => ?_⟩
          dsimp only
          by_cases hm : m' = m
          · rw [hm, Function.update_self]
            refine .inl ⟨⟨_, rfl⟩, fun hin => ?_⟩
            exact (of_decide_eq_true (List.mem_filter.mp hin).2) rfl
          · rw [Function.update_of_ne hm]
            exact hkeep m'
        · exact ⟨_, rfl, rfl, Function.update_self .., hkeep⟩
      obtain ⟨s', hrun, hids', hdone⟩ := ih hshort ht hlocks'
      have hfirst : Run Pointers.step (fun _ a => a.By k limit) s t := .next (.fill k m) .start rfl hstep
      exact ⟨s', hfirst.trans hrun, hids'.trans hids, hdone⟩

/-- A statement that is alone ends the pass, or goes on past a message. -/
theorem fill_chunk {k after limit : ℕ} (hlimit : limit ≠ 0) (hfill : s.fills k = some (.idle after))
    (hfree : ∀ m, s.locks m = none) :
    ∃ s', Run Pointers.step (fun _ a => a.By k limit) s s' ∧ s'.ids = s.ids ∧ (∀ m, s'.locks m = none) ∧
      (s'.fills k = some .done ∨ ∃ last ∈ s.ids, after < last ∧ s'.fills k = some (.idle last)) := by
  set todo := (s.chunk after limit).filter fun m => (s.pointers m).distinct (s.newest m) with htodo
  set s₁ : State := { s with
    fills := Function.update s.fills k (some (.filling after (s.chunk after limit) s.newest todo)) } with hs₁
  have hread : Pointers.step s (.read k limit) = some s₁ := by
    simp only [Pointers.step, hfill, if_neg hlimit]
    rfl
  obtain ⟨s₂, hrun, hids, hfill₂, hlocks⟩ := fill_rest limit todo.length (s := s₁)
    (Nat.le_refl _) (Function.update_self ..) fun m => .inr (hfree m)
  have hfirst : Run Pointers.step (fun _ a => a.By k limit) s s₁ := .next (.read k limit) .start ⟨rfl, rfl⟩ hread
  set s₃ : State := { s₂ with
    pointers := s₂.settle (.fill k)
    fills := Function.update s₂.fills k (some ((s.chunk after limit).max?.elim .done .idle))
    locks := s₂.release (.fill k) } with hs₃
  have hfilled : Pointers.step s₂ (.filled k) = some s₃ := by
    simp only [Pointers.step, hfill₂, hs₃]
    cases (s.chunk after limit).max? <;> rfl
  refine ⟨s₃, .next (.filled k) (hfirst.trans hrun) rfl hfilled, hids, fun m => ?_, ?_⟩
  · rw [hs₃]
    dsimp only
    unfold State.release
    rcases hlocks m with ⟨p, hlock⟩ | hlock
    · rw [hlock, Option.filter_some, if_neg (by simp)]
    · rw [hlock, Option.filter_none]
  · rw [hs₃]
    dsimp only
    rw [Function.update_self]
    cases hmax : (s.chunk after limit).max? with
    | none => exact .inl rfl
    | some last =>
      have hin := mem_chunk (List.max?_eq_some_iff.mp hmax).1
      exact .inr ⟨last, hin.1, hin.2, rfl⟩

/-- A pass that is alone comes to its end: each statement leaves fewer messages after it. -/
theorem pass_ends {k limit : ℕ} (hlimit : limit ≠ 0) (n : ℕ) :
    ∀ {s : State} {after : ℕ}, (s.ids.filter fun m => after < m).length < n →
      s.fills k = some (.idle after) → (∀ m, s.locks m = none) →
      ∃ s', Run Pointers.step (fun _ a => a.By k limit) s s' ∧ s'.fills k = some .done := by
  induction n with
  | zero =>
    intro s after hlen
    contradiction
  | succ n ih =>
    intro s after hlen hfill hfree
    obtain ⟨s₁, hrun, hids, hfree₁, hdone | ⟨last, hmem, hlt, hfill₁⟩⟩ := fill_chunk hlimit hfill hfree
    · exact ⟨s₁, hrun, hdone⟩
    · have hfewer : (s₁.ids.filter fun m => last < m).length < n := by
        have hless : (s.ids.filter fun m => last < m).length < (s.ids.filter fun m => after < m).length := by
          have hnested : (s.ids.filter fun m => last < m) =
              (s.ids.filter fun m => after < m).filter fun m => last < m := by
            rw [List.filter_filter]
            refine List.filter_congr fun m _ => ?_
            rw [← Bool.decide_and]
            exact decide_eq_decide.mpr ⟨fun h => ⟨h, Nat.lt_trans hlt h⟩, And.left⟩
          rw [hnested]
          refine List.length_filter_lt_length_iff_exists.mpr ⟨last, ?_, ?_⟩
          · exact List.mem_filter.mpr ⟨hmem, decide_eq_true hlt⟩
          · rw [decide_eq_true_eq]
            exact Nat.lt_irrefl last
        rw [hids]
        omega
      obtain ⟨s₂, hrun₂, hdone⟩ := ih hfewer hfill₁ hfree₁
      exact ⟨s₂, hrun.trans hrun₂, hdone⟩

/-! ## The pointers are the newest rows -/

/-- In every state that is reached: the pointers of a message that was stored since the start, and a pointer
since which a row was appended, are the newest committed row; no step moves a pointer back; a statement of the
backfill takes messages after those of the statements before it; a pass that is alone ends; and once a pass
has ended the pointers of all messages are the newest rows, from then on, and a pass that begins then locks no
row and leaves every pointer as it is. -/
theorem current_is_newest (b : Start) {s : State} (h : Run Pointers.step Always b.state s) :
    (∀ m ∈ s.ids, m ∉ b.ids → ∀ log, s.Right m log) ∧
    (∀ m log id, ⟨log, id, m⟩ ∈ s.rows → b.next log ≤ id → s.Right m log) ∧
    (∀ a s', Pointers.step s a = some s' → ∀ m log, NotBehind (s'.pointers m log) (s.pointers m log)) ∧
    (∀ k after chunk newest todo, s.fills k = some (.filling after chunk newest todo) →
      ∀ m ∈ chunk, after < m) ∧
    (∀ k after limit, limit ≠ 0 → s.fills k = some (.idle after) → (∀ m, s.locks m = none) →
      ∃ s', Run Pointers.step (fun _ a => a.By k limit) s s' ∧ s'.fills k = some .done) ∧
    ∀ k, s.fills k = some .done → ∀ s', Run Pointers.step Always s s' →
      (∀ m ∈ s'.ids, ∀ log, s'.Right m log) ∧
      ∀ j, s.fills j = none → (∀ m p, s'.locks m ≠ some (.fill j, p)) ∧
        ∀ s'', Pointers.step s' (.filled j) = some s'' → s''.pointers = s'.pointers := by
  have hi := Start.run_inv h
  refine ⟨fun m _ hnew log => hi.committed.right_of_new hnew log,
    fun m log id hrow hid => hi.committed.right_of_appended hrow hid,
    fun a s' hs => (hi.step hs).2.notBehind, fun k after chunk newest todo hk m hm => ?_,
    fun k after limit hlimit hk hfree => ?_, fun k hk s' hrun => ⟨?_, fun j hj => ⟨?_, ?_⟩⟩⟩
  · exact ((hi.passes.filling k after chunk newest todo hk).later m hm).2
  · exact pass_ends hlimit _ (Nat.lt_succ_self _) hk hfree
  · exact hi.stay_right (hi.passes.done k hk) hrun
  · exact (hi.second_pass (hi.passes.done k hk) hj hrun).1
  · exact fun s'' hs => (hi.second_pass (hi.passes.done k hk) hj hrun).filled hs

/-- Two messages of before the pointers, the first with an event. -/
def older : Start := ⟨[1, 2], [⟨.event, 1, 1⟩], fun _ => 2, by decide, by decide⟩

/-- Two appends to message 1, the second of which commits first, beside a statement of the backfill that has
read the logs before either. -/
def crossed : List Act :=
  [.backfill 0, .begin 0, .begin 1, .insert 0 .event 1, .insert 1 .event 1, .read 0 1000, .point 1, .commit 1,
    .point 0, .commit 0, .fill 0 1, .filled 0, .read 0 1000, .filled 0]

/-- The pointer ends on the newer of the two. -/
theorem current_is_newest_crossed : ∃ s, Run Pointers.step Always older.state s ∧
    s.pointers 1 .event = some 3 ∧ s.Right 1 .event ∧ s.fills 0 = some .done := by
  have hany : (runList Pointers.step older.state crossed).any (fun s =>
      s.pointers 1 .event == some 3 && s.rows.contains ⟨.event, 3, 1⟩ &&
        (s.fills 0).any Fill.isDone) = true := by decide +kernel
  obtain ⟨s, hrun, hs⟩ := exists_run_of_any hany
  rw [Bool.and_eq_true, Bool.and_eq_true, beq_iff_eq, List.contains_iff_mem] at hs
  obtain ⟨⟨hptr, hrow⟩, hdone⟩ := hs
  refine ⟨s, hrun, hptr, (current_is_newest older hrun).2.1 1 .event 3 hrow (by decide), ?_⟩
  rw [Option.any_eq_true] at hdone
  obtain ⟨fill, hfill, hover⟩ := hdone
  rw [hfill, Fill.eq_done hover]

end Invariant

end JobScripts.Mail.Pointers
