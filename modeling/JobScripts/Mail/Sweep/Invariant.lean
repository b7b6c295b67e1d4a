import JobScripts.Mail.Sweep.Phases

/-!
# The invariant of sweeps

A message is up to date, or something newer than its match and than every sweep to come will look back to
has been created. This holds as long as every write that changes what `match_message` decides for a message
is one that the selection can see (`Noticed`).
-/

namespace JobScripts.Mail.Sweep

open Lib

/-! ## The tiers one by one -/

section Tiers

variable {R : Reader} {apps apps' : List Application} {row : Row}

/-- The methods of the tiers. -/
def Tier.method : Tier → String
  | .exactLink => "exact_link"
  | .company => "ats_company"
  | .companyAndTitle => "company_title"

/-- What a tier finds has its method. -/
theorem Tier.find_method {tier : Tier} {d : MatchDecision} (h : tier.find R apps row = some d) :
    d.method = tier.method := by
  cases tier with
  | exactLink =>
    simp only [Tier.find, Reader.byExactLink] at h
    rw [Option.ite_none_left_eq_some] at h
    obtain ⟨x, -, rfl⟩ := Option.map_eq_some_iff.mp h.2
    rfl
  | company =>
    simp only [Tier.find, Reader.byCompany] at h
    rw [Option.ite_none_left_eq_some] at h
    obtain ⟨-, h⟩ := h
    split at h
    · rw [Option.ite_none_left_eq_some] at h
      obtain rfl := Option.some.inj h.2
      rfl
    · contradiction
  | companyAndTitle =>
    simp only [Tier.find, Reader.byCompanyAndTitle] at h
    rw [Option.ite_none_left_eq_some] at h
    obtain ⟨-, h⟩ := h
    split at h
    · obtain rfl := Option.some.inj h
      rfl
    · contradiction

/-- The decision for a row through its tiers. -/
theorem rowDecision_eq (hkind : unattachableKinds.contains row.kind = false) :
    rowDecision R apps row = ((Tier.exactLink.find R apps row).or <|
      (Tier.company.find R apps row).or <| Tier.companyAndTitle.find R apps row).getD
        (.unmatched "no candidate matched") := by
  unfold rowDecision
  rw [hkind]
  rfl

/-- The tiers that come before one find nothing. -/
def Tier.NoneBefore (R : Reader) (apps : List Application) (row : Row) : Tier → Prop
  | .exactLink => True
  | .company => Tier.exactLink.find R apps row = none
  | .companyAndTitle => Tier.exactLink.find R apps row = none ∧ Tier.company.find R apps row = none

/-- A decision that does not change keeps the tiers before it as they are: its method names its tier. -/
theorem Tier.NoneBefore.congr (hkind : unattachableKinds.contains row.kind = false)
    (hsame : rowVerdict R apps' row = rowVerdict R apps row) {tier : Tier}
    (h : tier.NoneBefore R apps row) : tier.NoneBefore R apps' row := by
  have hmethod : (rowDecision R apps' row).method = (rowDecision R apps row).method :=
    congrArg (fun v : Verdict => v.2.1) hsame
  rw [rowDecision_eq hkind, rowDecision_eq hkind] at hmethod
  cases hl' : Tier.exactLink.find R apps' row with
  | some d =>
    -- The decision is now a link's, and was one.
    rw [hl', Option.some_or, Option.getD_some, Tier.find_method hl'] at hmethod
    cases tier with
    | exactLink => trivial
    | company =>
      have hl : Tier.exactLink.find R apps row = none := h
      rw [hl, Option.none_or] at hmethod
      cases hc : Tier.company.find R apps row with
      | some d => rw [hc, Option.some_or, Option.getD_some, Tier.find_method hc] at hmethod; contradiction
      | none =>
        rw [hc, Option.none_or] at hmethod
        cases ht : Tier.companyAndTitle.find R apps row with
        | some d => rw [ht, Option.getD_some, Tier.find_method ht] at hmethod; contradiction
        | none => rw [ht] at hmethod; contradiction
    | companyAndTitle =>
      obtain ⟨hl, hc⟩ := h
      rw [hl, Option.none_or, hc, Option.none_or] at hmethod
      cases ht : Tier.companyAndTitle.find R apps row with
      | some d => rw [ht, Option.getD_some, Tier.find_method ht] at hmethod; contradiction
      | none => rw [ht] at hmethod; contradiction
  | none =>
    cases tier with
    | exactLink => trivial
    | company => exact hl'
    | companyAndTitle =>
      refine ⟨hl', ?_⟩
      cases hc' : Tier.company.find R apps' row with
      | none => rfl
      | some d =>
        obtain ⟨hl, hc⟩ := h
        rw [hl', Option.none_or, hc', Option.some_or, Option.getD_some, Tier.find_method hc', hl,
          Option.none_or, hc, Option.none_or] at hmethod
        cases ht : Tier.companyAndTitle.find R apps row with
        | some d => rw [ht, Option.getD_some, Tier.find_method ht] at hmethod; contradiction
        | none => rw [ht] at hmethod; contradiction

end Tiers

/-! ## The invariant -/

section Invariant

variable {R : Reader} {s s' : State}

/-- The rows of `detach_unattachable` have its kinds. -/
def Stage.Fits (stage : Stage) (rows : List Row) : Prop :=
  stage ≠ .pending → ∀ row ∈ rows, unattachableKinds.contains row.kind = true

/-- What a sweep has in hand: the tiers that it asked found nothing and still find nothing, and what it has
decided is still the decision for the row. -/
def Phase.Ok (R : Reader) (apps : List Application) : Phase → Prop
  | .rows stage todo => stage.Fits todo
  | .asking tier row _ =>
    unattachableKinds.contains row.kind = false ∧ tier.NoneBefore R apps row
  | .decided stage row d todo | .passed stage row d todo =>
    verdictOf d = rowVerdict R apps row ∧ stage.Fits todo
  | _ => True

/-- The invariant. A message that is open is right, or every sweep to come will select it; a sweep in its
matching stage has it still to decide, or it is right; and what sweeps have in hand is up to date. -/
structure State.Inv (R : Reader) (s : State) : Prop where
  selected : ∀ id v, s.isOpen id = true → s.wanted R id = some v →
    s.Right R id ∨ ∀ h, s.Horizon h → s.newer id h = true
  staged : ∀ k run id v, s.sweeps k = some run → run.inStage = true → s.isOpen id = true →
    s.wanted R id = some v → s.Right R id ∨ id ∈ run.phase.todo.map Row.id
  agrees : ∀ k run row v, s.sweeps k = some run → row ∈ run.phase.todo →
    s.wanted R row.id = some v → v = rowVerdict R s.applications row
  inHand : ∀ k run, s.sweeps k = some run → run.phase.Ok R s.applications
  listed : ∀ id m, s.messages id = some m → id ∈ s.ids ∧ m.id = id

/-- A write that the sweeps see keeps the invariant. -/
theorem State.Inv.write (h : s.Inv R) {apps : List Application} {messages : ℕ → Option Message}
    {ids : List ℕ} (hlisted : ∀ id m, messages id = some m → id ∈ ids ∧ m.id = id)
    (hn : Noticed R s { s with applications := apps, messages := messages, ids := ids }) :
    State.Inv R { s with applications := apps, messages := messages, ids := ids } := by
  -- A message whose decision does not change is as right as it was.
  have hright : ∀ id v, s.wanted R id = some v →
      State.wanted R { s with applications := apps, messages := messages, ids := ids } id = some v →
      s.Right R id →
      State.Right R { s with applications := apps, messages := messages, ids := ids } id := by
    rintro id v hold hnew ⟨c, hc, hwanted⟩
    refine ⟨c, hc, ?_⟩
    rw [hnew, ← hold]
    exact hwanted
  refine ⟨fun id v hopen hwanted => ?_, fun k run id v hk hst hopen hwanted => ?_,
    hn.agrees, fun k run hk => ?_, hlisted⟩
  · rcases hn.selected id v hopen hwanted with ⟨hold, hnewer⟩ | hnewer
    · rcases h.selected id v hopen hold with hr | hsel
      · exact .inl (hright id v hold hwanted hr)
      · exact .inr fun t ht => hnewer t (hsel t ht)
    · exact .inr hnewer
  · rcases hn.staged k run id v hk hst hopen hwanted with hold | htodo
    · rcases h.staged k run id v hk hst hopen hold with hr | htodo
      · exact .inl (hright id v hold hwanted hr)
      · exact .inr htodo
    · exact .inr htodo
  · have hok := h.inHand k run hk
    have hsame := fun row => hn.inHand k run row hk
    -- The decision for the row in hand has not changed.
    cases hphase : run.phase with
    | asking tier row todo =>
      rw [hphase] at hok hsame
      exact ⟨hok.1, hok.2.congr hok.1 (hsame row rfl)⟩
    | decided stage row d todo =>
      rw [hphase] at hok hsame
      exact ⟨Eq.trans hok.1 (hsame row rfl).symm, hok.2⟩
    | passed stage row d todo =>
      rw [hphase] at hok hsame
      exact ⟨Eq.trans hok.1 (hsame row rfl).symm, hok.2⟩
    | rows stage todo =>
      rw [hphase] at hok
      exact hok
    | started | looked | changed | lowering | matched | skipped => trivial

/-- A sweep after one went on is that one, or one from before. -/
theorem sweeps_goOn {k k' : ℕ} {run' : Option SweepRun} {run : SweepRun}
    (h : (s.goOn k run').sweeps k' = some run) : run' = some run ∨ s.sweeps k' = some run := by
  have heq : Function.update s.sweeps k run' k' = some run := h
  by_cases hk : k' = k
  · subst hk
    rw [Function.update_self] at heq
    exact .inl heq
  · rw [Function.update_of_ne hk] at heq
    exact .inr heq

/-- A sweep goes on. What it will look back to is a time that leaves every message right or newer; what it
has still to decide includes every open message that is not right, once it has selected; and what it has in
hand is up to date. -/
theorem State.Inv.goOn (h : s.Inv R) {k : ℕ} {run' : Option SweepRun}
    (hhorizon : ∀ run t, run' = some run → run.horizon = some t → ∀ id v, s.isOpen id = true →
      s.wanted R id = some v → s.Right R id ∨ s.newer id t = true)
    (hstaged : ∀ run, run' = some run → run.inStage = true → ∀ id v, s.isOpen id = true →
      s.wanted R id = some v → s.Right R id ∨ id ∈ run.phase.todo.map Row.id)
    (hagrees : ∀ run, run' = some run → ∀ row ∈ run.phase.todo, ∀ v, s.wanted R row.id = some v →
      v = rowVerdict R s.applications row)
    (hok : ∀ run, run' = some run → run.phase.Ok R s.applications) : (s.goOn k run').Inv R := by
  refine ⟨fun id v hopen hwanted => ?_, fun k' run id v hk' hst hopen hwanted => ?_,
    fun k' run row v hk' hrow hwanted => ?_, fun k' run hk' => ?_, h.listed⟩
  · by_cases hr : s.Right R id
    · exact .inl hr
    · refine .inr fun t ht => ?_
      have hold : ∀ t, s.Horizon t → s.newer id t = true :=
        (h.selected id v hopen hwanted).resolve_left hr
      rcases ht with hlast | ⟨k', run, hk', hhor⟩
      · exact hold t (.inl hlast)
      · rcases sweeps_goOn hk' with hx | hx
        · exact (hhorizon run t hx hhor id v hopen hwanted).resolve_left hr
        · exact hold t (.inr ⟨k', run, hx, hhor⟩)
  · rcases sweeps_goOn hk' with hx | hx
    · exact hstaged run hx hst id v hopen hwanted
    · exact h.staged k' run id v hx hst hopen hwanted
  · rcases sweeps_goOn hk' with hx | hx
    · exact hagrees run hx row hrow v hwanted
    · exact h.agrees k' run row v hx hrow hwanted
  · rcases sweeps_goOn hk' with hx | hx
    · exact hok run hx
    · exact h.inHand k' run hx

/-- A sweep goes on to `run`. -/
theorem State.Inv.goTo (h : s.Inv R) {k : ℕ} {run : SweepRun}
    (hhorizon : ∀ t, run.horizon = some t → ∀ id v, s.isOpen id = true →
      s.wanted R id = some v → s.Right R id ∨ s.newer id t = true)
    (hstaged : run.inStage = true → ∀ id v, s.isOpen id = true →
      s.wanted R id = some v → s.Right R id ∨ id ∈ run.phase.todo.map Row.id)
    (hagrees : ∀ row ∈ run.phase.todo, ∀ v, s.wanted R row.id = some v →
      v = rowVerdict R s.applications row)
    (hok : run.phase.Ok R s.applications) : (s.goOn k (some run)).Inv R := by
  refine h.goOn (fun x t hx => ?_) (fun x hx => ?_) (fun x hx => ?_) fun x hx => ?_
  · obtain rfl := Option.some.inj hx
    exact hhorizon t
  · obtain rfl := Option.some.inj hx
    exact hstaged
  · obtain rfl := Option.some.inj hx
    exact hagrees
  · obtain rfl := Option.some.inj hx
    exact hok

/-- What a sweep looked back to before, it may look back to. -/
theorem State.Inv.of_horizon (h : s.Inv R) {t : Option ℕ} (ht : s.Horizon t) :
    ∀ id v, s.isOpen id = true → s.wanted R id = some v → s.Right R id ∨ s.newer id t = true := by
  intro id v hopen hwanted
  rcases h.selected id v hopen hwanted with hr | hsel
  · exact .inl hr
  · exact .inr (hsel t ht)

/-- A sweep is over. -/
theorem State.Inv.leave (h : s.Inv R) {k : ℕ} : (s.goOn k none).Inv R := by
  refine h.goOn (fun x t hx => ?_) (fun x hx => ?_) (fun x hx => ?_) fun x hx => ?_ <;> contradiction

/-- A decision is recorded: the message holds an application, a person decided it, or it is right. -/
theorem State.Inv.record (h : s.Inv R) {id : ℕ} {st : Standing}
    (hst : State.isOpen { s with current := Function.update s.current id (some st) } id = true →
      ∀ v, s.wanted R id = some v → v = st.verdict) :
    State.Inv R { s with current := Function.update s.current id (some st) } := by
  -- The message itself, and every other.
  have hself : ∀ v, State.isOpen { s with current := Function.update s.current id (some st) } id = true →
      s.wanted R id = some v →
      State.Right R { s with current := Function.update s.current id (some st) } id := by
    intro v hopen hwanted
    refine ⟨st, Function.update_self _ _ _, ?_⟩
    rw [← hst hopen v hwanted]
    exact hwanted
  have hother : ∀ id', id' ≠ id →
      Function.update s.current id (some st) id' = s.current id' := fun id' hne =>
    Function.update_of_ne hne _ _
  have hopen' : ∀ id', id' ≠ id →
      State.isOpen { s with current := Function.update s.current id (some st) } id' = true →
      s.isOpen id' = true := by
    intro id' hne hopen
    unfold State.isOpen at hopen ⊢
    dsimp only at hopen
    rw [hother id' hne] at hopen
    exact hopen
  have hright : ∀ id', id' ≠ id → s.Right R id' →
      State.Right R { s with current := Function.update s.current id (some st) } id' := by
    rintro id' hne ⟨c, hc, hwanted⟩
    exact ⟨c, (hother id' hne).trans hc, hwanted⟩
  have hnewer : ∀ id' t, id' ≠ id → s.newer id' t = true →
      State.newer { s with current := Function.update s.current id (some st) } id' t = true := by
    intro id' t hne hn
    unfold State.newer at hn ⊢
    dsimp only at hn ⊢
    rw [hother id' hne]
    exact hn
  refine ⟨fun id' v hopen hwanted => ?_, fun k run id' v hk hst' hopen hwanted => ?_, h.agrees,
    h.inHand, h.listed⟩
  · by_cases hid : id' = id
    · subst hid
      exact .inl (hself v hopen hwanted)
    · rcases h.selected id' v (hopen' id' hid hopen) hwanted with hr | hsel
      · exact .inl (hright id' hid hr)
      · exact .inr fun t ht => hnewer id' t hid (hsel t ht)
  · by_cases hid : id' = id
    · subst hid
      exact .inl (hself v hopen hwanted)
    · rcases h.staged k run id' v hk hst' (hopen' id' hid hopen) hwanted with hr | htodo
      · exact .inl (hright id' hid hr)
      · exact .inr htodo

end Invariant

end JobScripts.Mail.Sweep
