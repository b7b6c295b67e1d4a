import Mathlib.Algebra.Order.BigOperators.Group.List
import Mathlib.Algebra.Order.Ring.Nat
import Mathlib.Data.Finset.Card
import Mathlib.Data.List.Forall2
import Mathlib.Data.Prod.Lex
import JobScripts.Lib.Run
import JobScripts.Mail.Sweep.Invariant

/-!
# Full sweeps come to rest

`handle_match_mail` for one user without a time to look back to: messages that describe the person are detached, the
dates of derived applications are lowered, the messages without an application are matched, and applications are
derived from what is left (`fullSweep`). Each stage makes work for the next ones and for the next sweep.

A sweep moves in one direction only (`Advances`): a message that is attached stays where it is unless its kind cannot
be attached, dates go down, an application is created only at a company that had none when the sweep began, and each
row that is recorded brings a message nearer to rest (`Mailbox.unrest`). So sweeps that nothing else interrupts come
to rest (`full_sweeps_converge`). Within a sweep a company may be given several applications
(`two_applications_at_one_company`).
-/

namespace JobScripts.Mail.Converge

open Lib Sweep
open Derived (Evidence Group Reading unmatchedAppliedMessages existingCompanies derivedCap groupsWithinCap
  newApplication derivedDecision appliedKinds companyOf keyOf candidateGroups)

/-! ## The sweep -/

/-- One user's mail, applications and matches, of which the newest is first. -/
structure Mailbox where
  messages : List Message
  applications : List Application
  nextApplication : ℕ
  application_matches : List (ℕ × Standing)
  ids_nodup : (messages.map Message.id).Nodup

/-- `latest`, and the current match. -/
def Mailbox.current (s : Mailbox) (id : ℕ) : Option Standing := s.application_matches.lookup id

/-- What the queries of a sweep read. -/
def Mailbox.view (s : Mailbox) : Sweep.State where
  applications := s.applications
  messages id := s.messages.find? fun m => m.id = id
  ids := s.messages.map Message.id
  current := s.current
  sweeps _ := none
  finished := []

/-- The time of the next write; `clock` counts the rows. -/
def Mailbox.now (clock : ℕ → ℕ) (s : Mailbox) : ℕ :=
  clock (s.application_matches.length + s.applications.length)

/-- A row of `application_matches`. -/
def Mailbox.append (s : Mailbox) (id : ℕ) (standing : Standing) : Mailbox :=
  { s with application_matches := (id, standing) :: s.application_matches }

/-- `record`, for the matcher. -/
def Mailbox.record (clock : ℕ → ℕ) (s : Mailbox) (id : ℕ) (d : MatchDecision) : Mailbox :=
  if goesOn d (s.current id) then s.append id ⟨verdictOf d, none, s.now clock⟩ else s

/-- `detach_unattachable`: what is attached and may not be is refused. -/
def detachUnattachable (clock : ℕ → ℕ) (s : Mailbox) : Mailbox :=
  s.view.unattachableRows.foldl (fun s row => s.record clock row.id (refusal row)) s

/-- The `UPDATE` of `recompute_derived_floors`. -/
def Mailbox.lower (s : Mailbox) (floor : ℕ × ℕ) : Mailbox :=
  { s with applications := s.applications.map (lowerApplied floor.1 floor.2) }

/-- `recompute_derived_floors`: an application goes back to the day of its earliest message. -/
def recomputeDerivedFloors (R : Reader) (s : Mailbox) : Mailbox :=
  (s.view.floors R).foldl Mailbox.lower s

/-- `match_pending`: each message that is pending is matched. -/
def matchPending (R : Reader) (clock : ℕ → ℕ) (since limit : Option ℕ) (s : Mailbox) : Mailbox :=
  (s.view.pendingRows since limit).foldl
    (fun s row => s.record clock row.id (rowDecision R s.applications row)) s

/-- The `INSERT` of an application. -/
def Mailbox.create (s : Mailbox) (app : Application) : Mailbox :=
  { s with
    applications := s.applications ++ [app]
    nextApplication := s.nextApplication + 1 }

/-- What `seed_from_mail` reads. -/
def reading (R : Reader) (lower : String → String) (s : Mailbox) : Reading :=
  ⟨existingCompanies R s.applications, derivedCap lower s.applications,
    unmatchedAppliedMessages s.messages fun id => !s.view.unattached id⟩

/-- A group of `seed_from_mail`: the application, and the match of each message. -/
def seedGroup (R : Reader) (clock : ℕ → ℕ) (r : Reading) (s : Mailbox) (g : Group) : Mailbox :=
  if s.view.unattached g.anchor.id then
    let app := newApplication R r s.nextApplication (s.now clock) g
    g.messages.foldl (fun s m => s.record clock m.id (derivedDecision app.id)) (s.create app)
  else s

/-- `seed_from_mail`: applications are made of the groups of messages that have none, up to the cap of each
company. -/
def seedFromMail (R : Reader) (lower : String → String) (clock : ℕ → ℕ) (s : Mailbox) : Mailbox :=
  (groupsWithinCap R (reading R lower s)).foldl (seedGroup R clock (reading R lower s)) s

/-- `handle_match_mail` for one user, with `since = None` and no limit: `changed_since(None)` is true. -/
def fullSweep (R : Reader) (lower : String → String) (clock : ℕ → ℕ) (s : Mailbox) : Mailbox :=
  seedFromMail R lower clock (matchPending R clock none none (recomputeDerivedFloors R (detachUnattachable clock s)))

/-! ## What a sweep may do -/

/-- The application that a message is attached to. -/
def Mailbox.attachedTo (s : Mailbox) (id : ℕ) : Option ℕ := (s.current id).bind fun c => c.verdict.1

/-- The kind of the message can be attached. -/
def Mailbox.Attachable (s : Mailbox) (id : ℕ) : Prop :=
  ∀ m ∈ s.messages, m.id = id → ∀ e, m.event = some e → unattachableKinds.contains e.kind = false

/-- An application as it was, or with an earlier date. -/
def Lowered (a b : Application) : Prop :=
  b = a ∨ ∃ applied floor, a.applied_at = some applied ∧ floor < applied ∧ b = { a with applied_at := some floor }

/-- The fields of a refusal. -/
def refusalVerdict : Verdict := (none, "not_an_application", "none")

/-- The fields of a miss. -/
def unmatchedVerdict : Verdict := (none, "unmatched", "none")

/-- How many rows the matcher can still record for a message. -/
def unrestOf (e : Event) (current : Option Standing) : ℕ :=
  if current.any (·.actor_user_id.isSome) then 0
  else if unattachableKinds.contains e.kind then if current.map Standing.verdict = some refusalVerdict then 0 else 1
  else if current.any (·.verdict.1.isSome) then 0
  else if current.map Standing.verdict = some unmatchedVerdict then 1
  else 2

/-- How many rows it can still record at all. -/
def Mailbox.unrest (s : Mailbox) : ℕ :=
  (s.messages.map fun m => m.event.elim 0 fun e => unrestOf e (s.current m.id)).sum

/-- An application at a company that is not known, from a message's event. -/
def Mailbox.NewCompany (R : Reader) (known : List (List ℕ)) (s : Mailbox) (company : Option String) : Prop :=
  R.normCompany company ≠ [] ∧ R.normCompany company ∉ known ∧
    ∃ m ∈ s.messages, ∃ e, m.event = some e ∧ R.normCompany e.company = R.normCompany company

/-- The part of a sweep from one state to another, where `known` are the companies of its beginning. -/
structure Advances (R : Reader) (known : List (List ℕ)) (s s' : Mailbox) : Prop where
  messages : s'.messages = s.messages
  /-- What is attached stays so. -/
  attached : ∀ id app, s.attachedTo id = some app → s.Attachable id → s'.attachedTo id = some app
  /-- Dates go down, and applications come at new companies. -/
  applications : ∃ lowered created, s'.applications = lowered ++ created ∧
    List.Forall₂ Lowered s.applications lowered ∧ (∀ a ∈ created, s.NewCompany R known a.company_name) ∧
    s'.nextApplication = s.nextApplication + created.length
  /-- Every row brings a message nearer to rest. -/
  rows : ∃ rows, s'.application_matches = rows ++ s.application_matches ∧ s'.unrest + rows.length ≤ s.unrest

/-- A sweep may decide this for the message. -/
def Mailbox.Decides (s : Mailbox) (id : ℕ) (d : MatchDecision) : Prop :=
  ∃ m ∈ s.messages, m.id = id ∧ ∃ e, m.event = some e ∧
    ((unattachableKinds.contains e.kind = true ∧ verdictOf d = refusalVerdict) ∨
      (unattachableKinds.contains e.kind = false ∧ s.view.unattached id = true ∧
        (d.application_id.isSome = true ∨ verdictOf d = unmatchedVerdict)))

/-- Several decisions recorded in turn. -/
def Mailbox.recordAll (clock : ℕ → ℕ) (s : Mailbox) (decisions : List (ℕ × MatchDecision)) : Mailbox :=
  decisions.foldl (fun s p => s.record clock p.1 p.2) s

section Advances

variable {R : Reader} {known : List (List ℕ)} {s s' s'' : Mailbox} {clock : ℕ → ℕ} {id : ℕ} {d : MatchDecision}

/-- Lowering twice is lowering. -/
theorem Lowered.trans {a b c : Application} (h : Lowered a b) (h' : Lowered b c) : Lowered a c := by
  rcases h with rfl | ⟨applied, floor, happlied, hlt, rfl⟩
  · exact h'
  · rcases h' with rfl | ⟨applied', floor', happlied', hlt', rfl⟩
    · exact .inr ⟨applied, floor, happlied, hlt, rfl⟩
    · obtain rfl : floor = applied' := Option.some_inj.mp happlied'
      exact .inr ⟨applied, floor', happlied, lt_trans hlt' hlt, rfl⟩

/-- Applications as they were. -/
theorem lowered_refl (apps : List Application) : List.Forall₂ Lowered apps apps :=
  List.forall₂_same.mpr fun _ _ => .inl rfl

/-- It keeps the company. -/
theorem Lowered.company_name {a b : Application} (h : Lowered a b) : b.company_name = a.company_name := by
  rcases h with rfl | ⟨applied, floor, -, -, rfl⟩ <;> rfl

/-- Applications that are lowered keep their companies. -/
theorem companies_of_lowered {apps lowered : List Application} (h : List.Forall₂ Lowered apps lowered) :
    existingCompanies R lowered = existingCompanies R apps := by
  have hmap : lowered.map (fun a => R.normCompany a.company_name) =
      apps.map fun a => R.normCompany a.company_name := by
    induction h with
    | nil => rfl
    | cons hab _ ih => rw [List.map_cons, List.map_cons, ih, hab.company_name]
  rw [existingCompanies, existingCompanies, hmap]

/-- What is related to a list in two parts is in two parts. -/
theorem forall₂_append_left {α β : Type} {r : α → β → Prop} : ∀ {l₁ l₂ : List α} {l : List β},
    List.Forall₂ r (l₁ ++ l₂) l → ∃ l₁' l₂', l = l₁' ++ l₂' ∧ List.Forall₂ r l₁ l₁' ∧ List.Forall₂ r l₂ l₂'
  | [], _, l, h => ⟨[], l, rfl, .nil, h⟩
  | _ :: _, _, _, .cons hab h => by
    obtain ⟨l₁', l₂', rfl, h₁, h₂⟩ := forall₂_append_left h
    exact ⟨_ :: l₁', l₂', rfl, .cons hab h₁, h₂⟩

/-- Lists of applications that are lowered twice are lowered. -/
theorem lowered_trans : ∀ {apps apps' apps'' : List Application}, List.Forall₂ Lowered apps apps' →
    List.Forall₂ Lowered apps' apps'' → List.Forall₂ Lowered apps apps''
  | _, _, _, .nil, .nil => .nil
  | _, _, _, .cons hab h, .cons hbc h' => .cons (hab.trans hbc) (lowered_trans h h')

/-- A lowered application comes from one of that company. -/
theorem company_of_lowered {apps : List Application} : ∀ {lowered : List Application},
    List.Forall₂ Lowered apps lowered → ∀ a ∈ lowered, ∃ b ∈ apps, a.company_name = b.company_name := by
  intro lowered h
  induction h with
  | nil => exact nofun
  | cons hab _ ih =>
    intro a ha
    rcases List.mem_cons.mp ha with rfl | ha
    · exact ⟨_, List.mem_cons_self, hab.company_name⟩
    · obtain ⟨b, hb, heq⟩ := ih a ha
      exact ⟨b, List.mem_cons_of_mem _ hb, heq⟩

/-- Nothing need happen. -/
theorem Advances.refl (s : Mailbox) : Advances R known s s where
  messages := rfl
  attached _ _ h _ := h
  applications := ⟨s.applications, [], (List.append_nil _).symm, lowered_refl _, nofun, rfl⟩
  rows := ⟨[], rfl, le_refl _⟩

/-- The parts of a sweep. -/
theorem Advances.trans (h : Advances R known s s') (h' : Advances R known s' s'') : Advances R known s s'' where
  messages := h'.messages.trans h.messages
  attached id app happ hkind := by
    refine h'.attached id app (h.attached id app happ hkind) ?_
    rw [Mailbox.Attachable, h.messages]
    exact hkind
  applications := by
    obtain ⟨lowered, created, happs, hlowered, hnew, hnext⟩ := h.applications
    obtain ⟨lowered', created', happs', hlowered', hnew', hnext'⟩ := h'.applications
    rw [happs] at hlowered'
    obtain ⟨lowered₁, lowered₂, rfl, h₁, h₂⟩ := forall₂_append_left hlowered'
    refine ⟨lowered₁, lowered₂ ++ created', by rw [happs', List.append_assoc], ?_, fun a ha => ?_, ?_⟩
    · exact lowered_trans hlowered h₁
    · rcases List.mem_append.mp ha with ha | ha
      · obtain ⟨b, hb, heq⟩ := company_of_lowered h₂ a ha
        rw [heq]
        exact hnew b hb
      · have hnew := hnew' a ha
        rw [Mailbox.NewCompany, h.messages] at hnew
        exact hnew
    · rw [hnext', hnext, List.length_append, h₂.length_eq]
      omega
  rows := by
    obtain ⟨rows, hrows, hrest⟩ := h.rows
    obtain ⟨rows', hrows', hrest'⟩ := h'.rows
    refine ⟨rows' ++ rows, by rw [hrows', hrows, List.append_assoc], ?_⟩
    rw [List.length_append]
    omega

end Advances

/-! ## The writes -/

section Writes

variable {R : Reader} {known : List (List ℕ)} {s s' : Mailbox} {clock : ℕ → ℕ} {id : ℕ} {d : MatchDecision}

/-- The current match after a row is appended. -/
theorem current_append (s : Mailbox) (id : ℕ) (standing : Standing) (other : ℕ) :
    (s.append id standing).current other = if other = id then some standing else s.current other := by
  rw [Mailbox.current, Mailbox.append, List.lookup_cons]
  rcases Classical.em (other = id) with rfl | hne
  · rw [if_pos rfl, beq_self_eq_true]
  · rw [if_neg hne, beq_eq_false_iff_ne.mpr hne]
    rfl

/-- `record` changes no other message's match. -/
theorem current_record_ne {other : ℕ} (hne : other ≠ id) : (s.record clock id d).current other = s.current other := by
  rw [Mailbox.record]
  split
  · rw [current_append, if_neg hne]
  · rfl

/-- `record` writes no message. -/
theorem messages_record : (s.record clock id d).messages = s.messages := by
  rw [Mailbox.record]
  split <;> rfl

/-- `record` writes no application. -/
theorem applications_record : (s.record clock id d).applications = s.applications := by
  rw [Mailbox.record]
  split <;> rfl

/-- A message without an application by its current match. -/
theorem unattached_iff : s.view.unattached id = true ↔ ∀ c, s.current id = some c → c.verdict.1 = none := by
  show (s.current id).all (fun c => c.verdict.1.isNone) = true ↔ _
  rw [Option.all_eq_true]
  simp only [Option.isNone_iff_eq_none]

/-- `record` goes on where no person decided and the decision is another. -/
theorem goesOn_iff {current : Option Standing} : goesOn d current = true ↔
    ∀ c, current = some c → c.actor_user_id = none ∧ c.verdict ≠ verdictOf d := by
  rw [goesOn, Option.all_eq_true]
  simp only [Bool.and_eq_true, Option.isNone_iff_eq_none, bne_iff_ne]

/-- What is left for a message that the matcher has decided. -/
theorem unrestOf_some (e : Event) (v : Verdict) (created_at : ℕ) : unrestOf e (some ⟨v, none, created_at⟩) =
    if unattachableKinds.contains e.kind then if v = refusalVerdict then 0 else 1
    else if v.1.isSome then 0 else if v = unmatchedVerdict then 1 else 2 := by
  rw [unrestOf, if_neg (show ¬(some (Standing.mk v none created_at)).any (·.actor_user_id.isSome) = true from
    Bool.false_ne_true)]
  simp only [Option.map_some, Option.some_inj, Option.any_some]

/-- A row that is recorded brings its message nearer to rest. -/
theorem unrestOf_lt {e : Event} {current : Option Standing} (created_at : ℕ) (hgoes : goesOn d current = true)
    (hdecides : (unattachableKinds.contains e.kind = true ∧ verdictOf d = refusalVerdict) ∨
      (unattachableKinds.contains e.kind = false ∧ (∀ c, current = some c → c.verdict.1 = none) ∧
        (d.application_id.isSome = true ∨ verdictOf d = unmatchedVerdict))) :
    unrestOf e (some ⟨verdictOf d, none, created_at⟩) < unrestOf e current := by
  have hgoes := goesOn_iff.mp hgoes
  have hactor : ¬current.any (·.actor_user_id.isSome) = true := by
    intro hany
    obtain ⟨c, hc, hsome⟩ := (Option.any_eq_true _ _).mp hany
    rw [(hgoes c hc).1] at hsome
    exact Bool.false_ne_true hsome
  have hverdict : current.map Standing.verdict ≠ some (verdictOf d) := by
    intro hmap
    obtain ⟨c, hc, heq⟩ := Option.map_eq_some_iff.mp hmap
    exact (hgoes c hc).2 heq
  rw [unrestOf_some, unrestOf, if_neg hactor]
  rcases hdecides with ⟨hkind, hd⟩ | ⟨hkind, hunattached, hd⟩
  · -- The message is refused, which it was not.
    rw [hd] at hverdict
    rw [if_pos hkind, if_pos hkind, if_neg hverdict, hd, if_pos rfl]
    exact Nat.one_pos
  · have hopen : ¬current.any (·.verdict.1.isSome) = true := by
      intro hany
      obtain ⟨c, hc, hsome⟩ := (Option.any_eq_true _ _).mp hany
      rw [hunattached c hc] at hsome
      exact Bool.false_ne_true hsome
    have hnot : ¬unattachableKinds.contains e.kind = true := by
      rw [hkind]
      exact Bool.false_ne_true
    rw [if_neg hnot, if_neg hnot, if_neg hopen]
    rcases hd with happ | hd
    · -- It is attached.
      rw [if_pos (show (verdictOf d).1.isSome = true from happ)]
      split <;> omega
    · -- It is looked at for the first time.
      rw [hd] at hverdict
      rw [if_neg hverdict, hd, if_neg (show ¬unmatchedVerdict.1.isSome = true from Bool.false_ne_true), if_pos rfl]
      omega

/-- So the mail is nearer to rest. -/
theorem unrest_append {created_at : ℕ} (hgoes : goesOn d (s.current id) = true) (hdecides : s.Decides id d) :
    (s.append id ⟨verdictOf d, none, created_at⟩).unrest < s.unrest := by
  obtain ⟨m, hm, rfl, e, he, hcases⟩ := hdecides
  simp only [unattached_iff] at hcases
  have hlt := unrestOf_lt created_at hgoes hcases
  refine List.sum_lt_sum _ _ (fun m' hm' => ?_) ⟨m, hm, ?_⟩
  · rcases Classical.em (m'.id = m.id) with heq | hne
    · obtain rfl : m' = m := List.inj_on_of_nodup_map s.ids_nodup hm' hm heq
      rw [he, current_append, if_pos rfl]
      exact hlt.le
    · rw [current_append, if_neg hne]
  · rw [he, current_append, if_pos rfl]
    exact hlt

/-- A decision of a sweep, recorded. -/
theorem advances_record (hdecides : s.Decides id d) : Advances R known s (s.record clock id d) := by
  rw [Mailbox.record]
  split
  · next hgoes =>
    refine ⟨rfl, fun other app happ hkind => ?_,
      ⟨s.applications, [], (List.append_nil _).symm, lowered_refl _, nofun, rfl⟩,
      ⟨[(id, _)], rfl, ?_⟩⟩
    · rw [Mailbox.attachedTo, current_append]
      split
      · -- A message that is decided is not attached, or its kind is not attachable.
        next heq =>
        subst heq
        obtain ⟨m, hm, hid, e, he, ⟨hkind', -⟩ | ⟨-, hunattached, -⟩⟩ := hdecides
        · exact absurd (hkind'.symm.trans (hkind m hm hid e he)) Bool.false_ne_true.symm
        · obtain ⟨c, hc, hverdict⟩ := Option.bind_eq_some_iff.mp happ
          exact absurd ((unattached_iff.mp hunattached c hc).symm.trans hverdict) nofun
      · exact happ
    · exact unrest_append hgoes hdecides
  · exact .refl s

/-- A date lowered. -/
theorem lowered_lowerApplied (app floor : ℕ) (a : Application) : Lowered a (lowerApplied app floor a) := by
  rw [lowerApplied]
  split
  · next h =>
    obtain ⟨applied, happlied, hlt⟩ := (Option.any_eq_true _ _).mp h.2
    exact .inr ⟨applied, floor, happlied, of_decide_eq_true hlt, rfl⟩
  · exact .inl rfl

/-- The `UPDATE` of a date. -/
theorem advances_lower (floor : ℕ × ℕ) : Advances R known s (s.lower floor) where
  messages := rfl
  attached _ _ h _ := h
  applications := ⟨(s.lower floor).applications, [], (List.append_nil _).symm,
    List.forall₂_map_right_iff.mpr (List.forall₂_same.mpr fun a _ => lowered_lowerApplied _ _ a), nofun, rfl⟩
  rows := ⟨[], rfl, le_refl _⟩

/-- The `INSERT` of an application. -/
theorem advances_create {app : Application} (hnew : s.NewCompany R known app.company_name) :
    Advances R known s (s.create app) where
  messages := rfl
  attached _ _ h _ := h
  applications := by
    refine ⟨s.applications, [app], rfl, lowered_refl _, fun a ha => ?_, rfl⟩
    rw [List.mem_singleton.mp ha]
    exact hnew
  rows := ⟨[], rfl, le_refl _⟩

end Writes

/-! ## The stages -/

section Stages

variable {R : Reader} {known : List (List ℕ)} {s s' : Mailbox} {clock : ℕ → ℕ}

/-- A message of the mailbox, by its id. -/
theorem view_messages {id : ℕ} {m : Message} : s.view.messages id = some m ↔ m ∈ s.messages ∧ m.id = id := by
  show s.messages.find? (fun m => m.id = id) = some m ↔ _
  constructor
  · intro h
    have hid : decide (m.id = id) = true := List.find?_some (p := fun m : Message => decide (m.id = id)) h
    exact ⟨List.mem_of_find?_eq_some h, of_decide_eq_true hid⟩
  · rintro ⟨hm, rfl⟩
    have hsome : (s.messages.find? fun m' => m'.id = m.id).isSome :=
      List.find?_isSome.mpr ⟨m, hm, decide_eq_true rfl⟩
    obtain ⟨m', hm'⟩ := Option.isSome_iff_exists.mp hsome
    have hid : decide (m'.id = m.id) = true := List.find?_some (p := fun m' : Message => decide (m'.id = m.id)) hm'
    rw [hm', List.inj_on_of_nodup_map s.ids_nodup (List.mem_of_find?_eq_some hm') hm (of_decide_eq_true hid)]

/-- A message with an event that is about a job. -/
theorem of_jobEvent {id : ℕ} {me : Message × Event} (h : s.view.jobEvent id = some me) :
    me.1 ∈ s.messages ∧ me.1.id = id ∧ me.1.event = some me.2 := by
  obtain ⟨m, hm, hevent⟩ := Option.bind_eq_some_iff.mp h
  obtain ⟨e, he, rfl⟩ := Option.map_eq_some_iff.mp hevent
  obtain ⟨hmem, hid⟩ := view_messages.mp hm
  exact ⟨hmem, hid, (Option.filter_eq_some_iff.mp he).1⟩

/-- What is selected by distinct ids has distinct ids. -/
theorem nodup_selected {ι ρ : Type} {ids : List ι} {select : ι → Option ρ} {idOf : ρ → ι} (hids : ids.Nodup)
    (hselect : ∀ id row, select id = some row → idOf row = id) : ((ids.filterMap select).map idOf).Nodup := by
  have hsub : ((ids.filterMap select).map idOf).Sublist ids := by
    induction ids with
    | nil => exact .slnil
    | cons id ids ih =>
      rw [List.filterMap_cons]
      rcases hrow : select id with _ | row
      · exact (ih hids.of_cons).cons id
      · rw [List.map_cons, hselect id row hrow]
        exact (ih hids.of_cons).cons_cons id
  exact hids.sublist hsub

/-- A decision is still one of a sweep after another message's is recorded. -/
theorem Decides.record {id other : ℕ} {d d' : MatchDecision} (hne : other ≠ id) (h : s.Decides other d) :
    (s.record clock id d').Decides other d := by
  obtain ⟨m, hm, hid, e, he, hcases⟩ := h
  refine ⟨m, by rw [messages_record]; exact hm, hid, e, he, ?_⟩
  rw [unattached_iff, current_record_ne hne, ← unattached_iff]
  exact hcases

/-- Decisions for different messages, recorded in turn. -/
theorem advances_recordAll : ∀ {decisions : List (ℕ × MatchDecision)} {s : Mailbox},
    (decisions.map Prod.fst).Nodup → (∀ p ∈ decisions, s.Decides p.1 p.2) →
    Advances R known s (s.recordAll clock decisions)
  | [], s, _, _ => .refl s
  | p :: decisions, s, hnodup, hdecides => by
    rw [List.map_cons, List.nodup_cons] at hnodup
    have hfirst : Advances R known s (s.record clock p.1 p.2) :=
      advances_record (hdecides p List.mem_cons_self)
    refine hfirst.trans (advances_recordAll hnodup.2 fun q hq => ?_)
    have hne : q.1 ≠ p.1 := by
      rintro heq
      exact hnodup.1 (List.mem_map.mpr ⟨q, hq, heq⟩)
    exact Decides.record hne (hdecides q (List.mem_cons_of_mem _ hq))

/-- They change no other message's match, no message and no application. -/
theorem recordAll_same : ∀ (decisions : List (ℕ × MatchDecision)) (s : Mailbox),
    (s.recordAll clock decisions).messages = s.messages ∧
      (s.recordAll clock decisions).applications = s.applications ∧
      ∀ id ∉ decisions.map Prod.fst, (s.recordAll clock decisions).current id = s.current id
  | [], _ => ⟨rfl, rfl, fun _ _ => rfl⟩
  | p :: decisions, s => by
    obtain ⟨hmessages, happs, hcurrent⟩ := recordAll_same decisions (s.record clock p.1 p.2)
    refine ⟨hmessages.trans messages_record, happs.trans applications_record, fun id hid => ?_⟩
    rw [List.map_cons, List.mem_cons, not_or] at hid
    exact (hcurrent id hid.2).trans (current_record_ne hid.1)

/-- A refusal is a decision of a sweep for a message that describes the person. -/
theorem decides_refusal {m : Message} {e : Event} (hm : m ∈ s.messages) (he : m.event = some e)
    (hkind : unattachableKinds.contains e.kind = true) : s.Decides (rowOf m e).id (refusal (rowOf m e)) :=
  ⟨m, hm, rfl, e, he, .inl ⟨hkind, rfl⟩⟩

/-- `match_message` attaches an application, or nothing matched. -/
theorem matchMessage_cases (apps : List Application) (body company title : Option String) (sent_at : Option ℕ) :
    (R.matchMessage apps body company title sent_at).application_id.isSome = true ∨
      verdictOf (R.matchMessage apps body company title sent_at) = unmatchedVerdict := by
  have hlink : ∀ d ∈ R.byExactLink apps body, d.application_id.isSome = true := by
    intro d hd
    rw [Reader.byExactLink] at hd
    split at hd
    · exact absurd hd (Option.not_mem_none d)
    · obtain ⟨x, -, rfl⟩ := Option.map_eq_some_iff.mp hd
      rfl
  have hcompany : ∀ d ∈ R.byCompany apps company sent_at title, d.application_id.isSome = true := by
    intro d hd
    rw [Reader.byCompany] at hd
    split at hd
    · exact absurd hd (Option.not_mem_none d)
    · split at hd
      · split at hd
        · exact absurd hd (Option.not_mem_none d)
        · obtain rfl := Option.some_inj.mp hd
          rfl
      · exact absurd hd (Option.not_mem_none d)
  have htitle : ∀ d ∈ R.byCompanyAndTitle apps company title sent_at, d.application_id.isSome = true := by
    intro d hd
    rw [Reader.byCompanyAndTitle] at hd
    split at hd
    · exact absurd hd (Option.not_mem_none d)
    · split at hd
      · obtain rfl := Option.some_inj.mp hd
        rfl
      · exact absurd hd (Option.not_mem_none d)
  rw [Reader.matchMessage]
  rcases h₁ : R.byExactLink apps body with _ | d
  · rcases h₂ : R.byCompany apps company sent_at title with _ | d
    · rcases h₃ : R.byCompanyAndTitle apps company title sent_at with _ | d
      · exact .inr rfl
      · exact .inl (htitle d h₃)
    · exact .inl (hcompany d h₂)
  · exact .inl (hlink d h₁)

/-- What `match_pending` decides for a message without an application is a decision of a sweep. -/
theorem decides_row {m : Message} {e : Event} (hm : m ∈ s.messages) (he : m.event = some e)
    (hunattached : s.view.unattached m.id = true) (apps : List Application) :
    s.Decides (rowOf m e).id (rowDecision R apps (rowOf m e)) := by
  rcases hkind : unattachableKinds.contains e.kind with _ | _
  · refine ⟨m, hm, rfl, e, he, .inr ⟨hkind, hunattached, ?_⟩⟩
    have hmatch : rowDecision R apps (rowOf m e) = R.matchMessage apps m.body_text e.company e.role_title m.sent_at :=
      if_neg (by rw [show (rowOf m e).kind = e.kind from rfl, hkind]; exact Bool.false_ne_true)
    rw [hmatch]
    exact matchMessage_cases apps _ _ _ _
  · have hrefuse : rowDecision R apps (rowOf m e) = refusal (rowOf m e) := if_pos hkind
    rw [hrefuse]
    exact decides_refusal hm he hkind

/-- `detach_unattachable` records refusals. -/
theorem detachUnattachable_eq : detachUnattachable clock s =
    s.recordAll clock (s.view.unattachableRows.map fun row => (row.id, refusal row)) := by
  rw [detachUnattachable, Mailbox.recordAll, List.foldl_map]

/-- `detach_unattachable` is a part of a sweep. -/
theorem advances_detach : Advances R known s (detachUnattachable clock s) := by
  have hselect : ∀ id row, ((s.view.jobEvent id).bind fun me =>
      if unattachableKinds.contains me.2.kind && !s.view.unattached id then some (rowOf me.1 me.2) else none) =
        some row → ∃ me, s.view.jobEvent id = some me ∧ unattachableKinds.contains me.2.kind = true ∧
          row = rowOf me.1 me.2 := by
    intro id row hrow
    obtain ⟨me, hme, hrow⟩ := Option.bind_eq_some_iff.mp hrow
    rw [Option.ite_none_right_eq_some, Bool.and_eq_true, Option.some_inj] at hrow
    exact ⟨me, hme, hrow.1.1, hrow.2.symm⟩
  rw [detachUnattachable_eq]
  refine advances_recordAll ?_ fun p hp => ?_
  · rw [List.map_map]
    refine nodup_selected s.ids_nodup fun id row hrow => ?_
    obtain ⟨me, hme, -, rfl⟩ := hselect id row hrow
    exact (of_jobEvent hme).2.1
  · obtain ⟨row, hrow, rfl⟩ := List.mem_map.mp hp
    obtain ⟨id, -, hrow⟩ := List.mem_filterMap.mp hrow
    obtain ⟨me, hme, hkind, rfl⟩ := hselect id row hrow
    exact decides_refusal (of_jobEvent hme).1 (of_jobEvent hme).2.2 hkind

/-- `recompute_derived_floors` is a part of a sweep. -/
theorem advances_floors : Advances R known s (recomputeDerivedFloors R s) := by
  have hall : ∀ (floors : List (ℕ × ℕ)) (s : Mailbox), Advances R known s (floors.foldl Mailbox.lower s) := by
    intro floors
    induction floors with
    | nil => exact .refl
    | cons floor floors ih => exact fun s => (advances_lower floor).trans (ih (s.lower floor))
  exact hall (s.view.floors R) s

/-- It keeps the companies. -/
theorem companies_floors :
    existingCompanies R (recomputeDerivedFloors R s).applications = existingCompanies R s.applications := by
  have hall : ∀ (floors : List (ℕ × ℕ)) (s : Mailbox),
      existingCompanies R (floors.foldl Mailbox.lower s).applications = existingCompanies R s.applications := by
    intro floors
    induction floors with
    | nil => exact fun _ => rfl
    | cons floor floors ih =>
      intro s
      refine (ih (s.lower floor)).trans (companies_of_lowered ?_)
      exact List.forall₂_map_right_iff.mpr (List.forall₂_same.mpr fun a _ => lowered_lowerApplied _ _ a)
  exact hall (s.view.floors R) s

/-- `match_pending` decides against the applications that it finds. -/
theorem matchPending_eq {since limit : Option ℕ} : matchPending R clock since limit s =
    s.recordAll clock
      ((s.view.pendingRows since limit).map fun row => (row.id, rowDecision R s.applications row)) := by
  have hall : ∀ (rows : List Row) (apps : List Application) (s : Mailbox), s.applications = apps →
      rows.foldl (fun s row => s.record clock row.id (rowDecision R s.applications row)) s =
        rows.foldl (fun s row => s.record clock row.id (rowDecision R apps row)) s := by
    intro rows apps
    induction rows with
    | nil => exact fun _ _ => rfl
    | cons row rows ih =>
      rintro s rfl
      exact ih _ applications_record
  rw [matchPending, Mailbox.recordAll, List.foldl_map]
  exact hall _ _ s rfl

/-- What `match_pending` selects. -/
theorem of_selected {since : Option ℕ} {id : ℕ} {row : Row} (h : s.view.selected since id = some row) :
    ∃ me, s.view.jobEvent id = some me ∧ s.view.unattached id = true ∧ row = rowOf me.1 me.2 := by
  rw [State.selected, Option.ite_none_right_eq_some, Bool.and_eq_true] at h
  obtain ⟨me, hme, hrow⟩ := Option.map_eq_some_iff.mp h.2
  exact ⟨me, hme, h.1.1, hrow.symm⟩

/-- `match_pending` is a part of a sweep. -/
theorem advances_matchPending : Advances R known s (matchPending R clock none none s) := by
  have hrows : s.view.pendingRows none none = (s.view.ids.filterMap (s.view.selected none)).mergeSort notLater := rfl
  rw [matchPending_eq]
  refine advances_recordAll ?_ fun p hp => ?_
  · rw [List.map_map, hrows]
    refine (((List.mergeSort_perm _ _).map _).nodup_iff).mpr (nodup_selected s.ids_nodup fun id row hrow => ?_)
    obtain ⟨me, hme, -, rfl⟩ := of_selected hrow
    exact (of_jobEvent hme).2.1
  · obtain ⟨row, hrow, rfl⟩ := List.mem_map.mp hp
    rw [hrows, List.mem_mergeSort] at hrow
    obtain ⟨id, -, hrow⟩ := List.mem_filterMap.mp hrow
    obtain ⟨me, hme, hunattached, rfl⟩ := of_selected hrow
    obtain ⟨hm, rfl, he⟩ := of_jobEvent hme
    exact decides_row hm he hunattached s.applications

end Stages

/-! ## Seeding -/

section Seeding

variable {R : Reader} {known : List (List ℕ)} {s : Mailbox} {clock : ℕ → ℕ} {lower : String → String} {r : Reading}
  {g g' : Group}

/-- The messages of a group have no application, and kinds that can be attached; its first one names a new company. -/
structure Ready (R : Reader) (known : List (List ℕ)) (s : Mailbox) (g : Group) : Prop where
  messages : ∀ m ∈ g.messages, ∃ msg ∈ s.messages, msg.id = m.id ∧ ∃ e, msg.event = some e ∧
    unattachableKinds.contains e.kind = false ∧ s.view.unattached m.id = true
  company : s.NewCompany R known (some g.anchor.company)

/-- Evidence is of a message without an application. -/
theorem of_unmatched {messages : List Message} {attached : ℕ → Bool} {m : Evidence}
    (h : m ∈ unmatchedAppliedMessages messages attached) : ∃ msg ∈ messages, msg.id = m.id ∧ ∃ e,
      msg.event = some e ∧ unattachableKinds.contains e.kind = false ∧ attached m.id = false ∧
      e.company = some m.company := by
  have hkinds : ∀ kind ∈ appliedKinds, unattachableKinds.contains kind = false := by decide
  rw [unmatchedAppliedMessages, List.mem_mergeSort] at h
  obtain ⟨msg, hmsg, hevidence⟩ := List.mem_filterMap.mp h
  obtain ⟨e, he, hevidence⟩ := Option.bind_eq_some_iff.mp hevidence
  rw [Option.ite_none_right_eq_some, Bool.and_eq_true, Bool.not_eq_true', List.contains_iff_mem] at hevidence
  obtain ⟨company, hcompany, rfl⟩ := Option.map_eq_some_iff.mp hevidence.2
  exact ⟨msg, hmsg, rfl, e, he, hkinds _ hevidence.1.1, hevidence.1.2, hcompany⟩

/-- Each message is evidence once. -/
theorem nodup_unmatched {messages : List Message} (hids : (messages.map Message.id).Nodup) (attached : ℕ → Bool) :
    ((unmatchedAppliedMessages messages attached).map Evidence.id).Nodup := by
  rw [unmatchedAppliedMessages]
  refine (((List.mergeSort_perm _ _).map _).nodup_iff).mpr (hids.sublist ?_)
  clear hids
  induction messages with
  | nil => exact .slnil
  | cons m messages ih =>
    rw [List.filterMap_cons]
    split
    · exact ih.cons m.id
    · next evidence hevidence =>
      obtain ⟨e, -, hevidence⟩ := Option.bind_eq_some_iff.mp hevidence
      rw [Option.ite_none_right_eq_some] at hevidence
      obtain ⟨company, -, rfl⟩ := Option.map_eq_some_iff.mp hevidence.2
      exact ih.cons_cons m.id

/-- `eraseDups` leaves no duplicates. -/
theorem nodup_eraseDups {α : Type} [BEq α] [LawfulBEq α] : ∀ l : List α, l.eraseDups.Nodup
  | [] => List.nodup_nil
  | a :: l => by
    rw [List.eraseDups_cons, List.nodup_cons]
    refine ⟨fun h => ?_, nodup_eraseDups _⟩
    have hother := (List.mem_filter.mp (List.mem_eraseDups.mp h)).2
    rw [beq_self_eq_true] at hother
    exact Bool.false_ne_true hother
termination_by l => l.length
decreasing_by exact Nat.lt_succ_of_le (List.length_filter_le _ _)

/-- A group has the messages of its key. -/
theorem messages_of_group (h : g ∈ candidateGroups R r) :
    g.messages = r.messages.filter fun m => keyOf R r m = some g.key := by
  obtain ⟨key, -, hkey⟩ := List.mem_filterMap.mp h
  split at hkey
  · contradiction
  · next anchor rest hfilter =>
    obtain rfl := Option.some_inj.mp hkey
    exact hfilter.symm

/-- Groups have different keys. -/
theorem nodup_keys : ((groupsWithinCap R r).map Group.key).Nodup := by
  have hall : ((candidateGroups R r).map Group.key).Nodup := by
    refine nodup_selected (nodup_eraseDups _) fun key g hkey => ?_
    split at hkey
    · contradiction
    · obtain rfl := Option.some_inj.mp hkey
      rfl
  exact hall.sublist (List.filter_sublist.map _)

/-- No message is in two groups. -/
theorem nodup_groups (hids : (r.messages.map Evidence.id).Nodup) :
    ((groupsWithinCap R r).flatMap fun g => g.messages.map Evidence.id).Nodup := by
  have hmem : ∀ g ∈ groupsWithinCap R r, g ∈ candidateGroups R r := fun g hg => (List.mem_filter.mp hg).1
  rw [List.nodup_flatMap]
  constructor
  · intro g hg
    rw [messages_of_group (hmem g hg)]
    exact hids.sublist (List.filter_sublist.map _)
  · refine (List.pairwise_map.mp nodup_keys).imp_of_mem fun {g g'} hg hg' hne => ?_
    show List.Disjoint _ _
    intro id hid hid'
    obtain ⟨m, hm, rfl⟩ := List.mem_map.mp hid
    obtain ⟨m', hm', heq⟩ := List.mem_map.mp hid'
    rw [messages_of_group (hmem g hg), List.mem_filter, decide_eq_true_eq] at hm
    rw [messages_of_group (hmem g' hg'), List.mem_filter, decide_eq_true_eq] at hm'
    obtain rfl : m' = m := List.inj_on_of_nodup_map hids hm'.1 hm.1 heq
    exact hne (Option.some_inj.mp (hm.2.symm.trans hm'.2))

/-- A group's matches are recorded in turn. -/
theorem seedGroup_eq (hunattached : s.view.unattached g.anchor.id = true) : seedGroup R clock r s g =
    (s.create (newApplication R r s.nextApplication (s.now clock) g)).recordAll clock
      (g.messages.map fun m => (m.id, derivedDecision s.nextApplication)) := by
  rw [seedGroup, if_pos hunattached, Mailbox.recordAll, List.foldl_map]
  rfl

/-- A group changes no other message's match, and no message. -/
theorem seedGroup_same : (seedGroup R clock r s g).messages = s.messages ∧
    ∀ id ∉ g.messages.map Evidence.id, (seedGroup R clock r s g).current id = s.current id := by
  rcases hunattached : s.view.unattached g.anchor.id with _ | _
  · rw [seedGroup, if_neg (by rw [hunattached]; exact Bool.false_ne_true)]
    exact ⟨rfl, fun _ _ => rfl⟩
  · rw [seedGroup_eq hunattached]
    obtain ⟨hmessages, -, hcurrent⟩ := recordAll_same
      (g.messages.map fun m => (m.id, derivedDecision s.nextApplication))
      (s.create (newApplication R r s.nextApplication (s.now clock) g))
    refine ⟨hmessages, fun id hid => hcurrent id ?_⟩
    rw [List.map_map]
    exact hid

/-- A group is ready until its turn comes. -/
theorem Ready.after (h : Ready R known s g') (hdisjoint : ∀ id ∈ g'.messages.map Evidence.id,
    id ∉ g.messages.map Evidence.id) : Ready R known (seedGroup R clock r s g) g' := by
  obtain ⟨hmessages, hcurrent⟩ := @seedGroup_same R s clock r g
  constructor
  · intro m hm
    obtain ⟨msg, hmsg, hid, e, he, hkind, hunattached⟩ := h.messages m hm
    refine ⟨msg, by rw [hmessages]; exact hmsg, hid, e, he, hkind, ?_⟩
    rw [unattached_iff, hcurrent m.id (hdisjoint m.id (List.mem_map_of_mem hm)), ← unattached_iff]
    exact hunattached
  · have hcompany := h.company
    rw [Mailbox.NewCompany, ← hmessages] at hcompany
    exact hcompany

/-- A group is a part of a sweep. -/
theorem advances_seedGroup (h : Ready R known s g) (hnodup : (g.messages.map Evidence.id).Nodup) :
    Advances R known s (seedGroup R clock r s g) := by
  rcases hunattached : s.view.unattached g.anchor.id with _ | _
  · rw [seedGroup, if_neg (by rw [hunattached]; exact Bool.false_ne_true)]
    exact .refl s
  · rw [seedGroup_eq hunattached]
    have hcreate : Advances R known s (s.create (newApplication R r s.nextApplication (s.now clock) g)) :=
      advances_create h.company
    refine hcreate.trans (advances_recordAll ?_ fun p hp => ?_)
    · rw [List.map_map]
      exact hnodup
    · obtain ⟨m, hm, rfl⟩ := List.mem_map.mp hp
      obtain ⟨msg, hmsg, hid, e, he, hkind, hunattached⟩ := h.messages m hm
      exact ⟨msg, hmsg, hid, e, he, .inr ⟨hkind, hunattached, .inl rfl⟩⟩

/-- Groups are a part of a sweep, one after the other. -/
theorem advances_groups : ∀ {groups : List Group} {s : Mailbox},
    (groups.flatMap fun g => g.messages.map Evidence.id).Nodup → (∀ g ∈ groups, Ready R known s g) →
    Advances R known s (groups.foldl (seedGroup R clock r) s)
  | [], s, _, _ => .refl s
  | g :: groups, s, hnodup, hready => by
    rw [List.flatMap_cons, List.nodup_append] at hnodup
    obtain ⟨hfirst, hrest, hdisjoint⟩ := hnodup
    have hgroup : Advances R known s (seedGroup R clock r s g) :=
      advances_seedGroup (hready g List.mem_cons_self) hfirst
    refine hgroup.trans (advances_groups hrest fun g' hg' => ?_)
    refine (hready g' (List.mem_cons_of_mem _ hg')).after fun id hid hid' => ?_
    exact hdisjoint id hid' id (List.mem_flatMap.mpr ⟨g', hg', hid⟩) rfl

/-- `seed_from_mail` is a part of a sweep. -/
theorem advances_seed (hknown : existingCompanies R s.applications = known) :
    Advances R known s (seedFromMail R lower clock s) := by
  subst hknown
  have hread : (reading R lower s).messages =
      unmatchedAppliedMessages s.messages fun id => !s.view.unattached id := rfl
  refine advances_groups (nodup_groups ?_) fun g hg => ?_
  · rw [hread]
    exact nodup_unmatched s.ids_nodup _
  have hmem : g ∈ candidateGroups R (reading R lower s) := (List.mem_filter.mp hg).1
  have hevidence : ∀ m ∈ g.messages, m ∈ (reading R lower s).messages := by
    intro m hm
    rw [messages_of_group hmem] at hm
    exact (List.mem_filter.mp hm).1
  rw [hread] at hevidence
  constructor
  · intro m hm
    obtain ⟨msg, hmsg, hid, e, he, hkind, hattached, -⟩ := of_unmatched (hevidence m hm)
    exact ⟨msg, hmsg, hid, e, he, hkind, (Bool.not_eq_false' _).mp hattached⟩
  · obtain ⟨msg, hmsg, -, e, he, -, -, hcompany⟩ := of_unmatched (hevidence g.anchor List.mem_cons_self)
    obtain ⟨hne, hunknown, -⟩ := Derived.keyOf_spec (Derived.keyOf_of_mem hmem List.mem_cons_self)
    exact ⟨hne, hunknown, msg, hmsg, e, he, by rw [hcompany]⟩

/-- The whole sweep, with the companies of its beginning. -/
theorem advances_fullSweep (R : Reader) (lower : String → String) (clock : ℕ → ℕ) (s : Mailbox) :
    Advances R (existingCompanies R s.applications) s (fullSweep R lower clock s) := by
  have hknown : existingCompanies R (matchPending R clock none none
      (recomputeDerivedFloors R (detachUnattachable clock s))).applications = existingCompanies R s.applications := by
    rw [matchPending_eq, (recordAll_same _ _).2.1, companies_floors, detachUnattachable_eq, (recordAll_same _ _).2.1]
  exact ((advances_detach.trans advances_floors).trans advances_matchPending).trans (advances_seed hknown)

end Seeding

/-! ## Rest -/

section Rest

variable {R : Reader} {s s' : Mailbox}

/-- The companies that the mail names. -/
def Mailbox.companies (R : Reader) (s : Mailbox) : Finset (List ℕ) :=
  (s.messages.filterMap fun m => m.event.map fun e => R.normCompany e.company).toFinset

/-- How many of them have no application. -/
def Mailbox.unknown (R : Reader) (s : Mailbox) : ℕ :=
  (s.companies R \ (existingCompanies R s.applications).toFinset).card

/-- The sum of the dates. -/
def dates (apps : List Application) : ℕ := (apps.map fun a => a.applied_at.getD 0).sum

/-- What sweeps lower: companies without an application, then rows to record, then dates. -/
def Mailbox.potential (R : Reader) (s : Mailbox) : ℕ ×ₗ ℕ ×ₗ ℕ :=
  toLex (s.unknown R, toLex (s.unrest, dates s.applications))

/-- Dates go down, or the applications are as they were. -/
theorem dates_lowered {apps lowered : List Application} (h : List.Forall₂ Lowered apps lowered) :
    lowered = apps ∨ dates lowered < dates apps := by
  induction h with
  | nil => exact .inl rfl
  | @cons a b apps lowered hab _ ih =>
    have hcons : ∀ (a : Application) apps, dates (a :: apps) = a.applied_at.getD 0 + dates apps := by
      intro a apps
      rw [dates, List.map_cons, List.sum_cons, dates]
    rw [hcons, hcons]
    rcases hab with rfl | ⟨applied, floor, happlied, hlt, rfl⟩
    · rcases ih with rfl | ih
      · exact .inl rfl
      · exact .inr (by omega)
    · rw [happlied, Option.getD_some, Option.getD_some]
      rcases ih with rfl | ih
      · exact .inr (by omega)
      · exact .inr (by omega)

/-- The company of an application that has one. -/
theorem mem_existingCompanies {apps : List Application} {company : List ℕ} (hne : company ≠ []) :
    company ∈ existingCompanies R apps ↔ ∃ a ∈ apps, R.normCompany a.company_name = company := by
  rw [existingCompanies, List.mem_filter, List.mem_map, decide_eq_true_eq]
  exact and_iff_left hne

/-- Applications that are added leave no company without one that had one. -/
theorem existingCompanies_append {apps created : List Application} {company : List ℕ}
    (h : company ∈ existingCompanies R apps) : company ∈ existingCompanies R (apps ++ created) := by
  rw [existingCompanies, List.mem_filter, List.mem_map] at h ⊢
  obtain ⟨⟨a, ha, heq⟩, hne⟩ := h
  exact ⟨⟨a, List.mem_append_left _ ha, heq⟩, hne⟩

/-- A sweep that creates an application leaves fewer companies without one. -/
theorem unknown_lt {lowered created : List Application} (h : Advances R (existingCompanies R s.applications) s s')
    (happs : s'.applications = lowered ++ created) (hlowered : List.Forall₂ Lowered s.applications lowered)
    {a : Application} (ha : a ∈ created) (hnew : s.NewCompany R (existingCompanies R s.applications) a.company_name) :
    s'.unknown R < s.unknown R := by
  have hsame : s'.companies R = s.companies R := by
    rw [Mailbox.companies, h.messages, Mailbox.companies]
  obtain ⟨hne, hunknown, m, hm, e, he, hcompany⟩ := hnew
  have hnamed : R.normCompany a.company_name ∈ s.companies R := by
    rw [Mailbox.companies, List.mem_toFinset, List.mem_filterMap]
    exact ⟨m, hm, by rw [he, Option.map_some, hcompany]⟩
  have hnow : R.normCompany a.company_name ∈ existingCompanies R s'.applications := by
    rw [mem_existingCompanies hne, happs]
    exact ⟨a, List.mem_append_right _ ha, rfl⟩
  refine Finset.card_lt_card ⟨fun company hcompany => ?_, fun hsub => ?_⟩
  · rw [hsame, Finset.mem_sdiff, List.mem_toFinset] at hcompany
    rw [Finset.mem_sdiff, List.mem_toFinset]
    refine ⟨hcompany.1, fun hmem => hcompany.2 ?_⟩
    rw [happs]
    apply existingCompanies_append
    rw [companies_of_lowered hlowered]
    exact hmem
  · have hleft := hsub (Finset.mem_sdiff.mpr ⟨hnamed, fun hmem => hunknown (List.mem_toFinset.mp hmem)⟩)
    exact (Finset.mem_sdiff.mp hleft).2 (List.mem_toFinset.mpr hnow)

/-- A sweep that changes anything lowers the potential. -/
theorem potential_lt (h : Advances R (existingCompanies R s.applications) s s') (hchanged : s' ≠ s) :
    s'.potential R < s.potential R := by
  obtain ⟨lowered, created, happs, hlowered, hnew, hnext⟩ := h.applications
  obtain ⟨rows, hrows, hrest⟩ := h.rows
  rw [Mailbox.potential, Mailbox.potential, Prod.Lex.toLex_lt_toLex, Prod.Lex.toLex_lt_toLex]
  rcases created with _ | ⟨a, created⟩
  · -- Without a new application a row is recorded, or a date goes down.
    rw [List.append_nil] at happs
    have hunknown : s'.unknown R = s.unknown R := by
      rw [Mailbox.unknown, Mailbox.companies, h.messages, happs, companies_of_lowered hlowered, Mailbox.unknown,
        Mailbox.companies]
    refine .inr ⟨hunknown, ?_⟩
    dsimp only
    rcases rows with _ | ⟨row, rows⟩
    · rcases dates_lowered hlowered with heq | hlt
      · refine absurd ?_ hchanged
        obtain ⟨messages, applications, nextApplication, application_matches, _⟩ := s
        obtain ⟨messages', applications', nextApplication', application_matches', _⟩ := s'
        obtain rfl : messages' = messages := h.messages
        obtain rfl : applications' = applications := happs.trans heq
        obtain rfl : nextApplication' = nextApplication := hnext
        obtain rfl : application_matches' = application_matches := hrows
        rfl
      · rw [happs]
        rw [List.length_nil] at hrest
        omega
    · rw [List.length_cons] at hrest
      omega
  · exact .inl (unknown_lt h happs hlowered List.mem_cons_self (hnew a List.mem_cons_self))

/-- Repeated full sweeps come to rest. On the way no message that is attached is moved or detached unless its kind
cannot be attached, dates only go down, and no sweep creates an application at a company that had one when it
began. -/
theorem full_sweeps_converge (R : Reader) (lower : String → String) (clock : ℕ → ℕ) (s : Mailbox) :
    (∃ n, ∀ m, n ≤ m → (fullSweep R lower clock)^[m] s = (fullSweep R lower clock)^[n] s) ∧
    (∀ n m, n ≤ m → ∀ id app, ((fullSweep R lower clock)^[n] s).attachedTo id = some app → s.Attachable id →
      ((fullSweep R lower clock)^[m] s).attachedTo id = some app) ∧
    ∀ n, ∃ lowered created, ((fullSweep R lower clock)^[n + 1] s).applications = lowered ++ created ∧
      List.Forall₂ Lowered ((fullSweep R lower clock)^[n] s).applications lowered ∧
      ∀ a ∈ created, ∀ b ∈ ((fullSweep R lower clock)^[n] s).applications,
        R.normCompany a.company_name ≠ R.normCompany b.company_name := by
  have hmessages : ∀ n, ((fullSweep R lower clock)^[n] s).messages = s.messages := by
    intro n
    induction n with
    | zero => rfl
    | succ n ih =>
      rw [Function.iterate_succ_apply']
      exact (advances_fullSweep R lower clock _).messages.trans ih
  refine ⟨iterate_converges (Mailbox.potential R)
    (fun s hchanged => potential_lt (advances_fullSweep R lower clock s) hchanged) s,
    fun n m hnm id app happ hkind => ?_, fun n => ?_⟩
  · -- One more sweep at a time.
    obtain ⟨k, rfl⟩ := Nat.exists_eq_add_of_le hnm
    clear hnm
    induction k with
    | zero => exact happ
    | succ k ih =>
      rw [← Nat.add_assoc, Function.iterate_succ_apply']
      refine (advances_fullSweep R lower clock _).attached id app ih ?_
      rw [Mailbox.Attachable, hmessages]
      exact hkind
  · obtain ⟨lowered, created, happs, hlowered, hnew, -⟩ :=
      (advances_fullSweep R lower clock ((fullSweep R lower clock)^[n] s)).applications
    refine ⟨lowered, created, by rw [Function.iterate_succ_apply', happs], hlowered, fun a ha b hb heq => ?_⟩
    obtain ⟨hne, hunknown, -⟩ := hnew a ha
    exact hunknown ((mem_existingCompanies hne).mpr ⟨b, hb, heq.symm⟩)

end Rest

/-! ## Several roles at one company -/

/-- Two acknowledgements from one company, for two roles, that have matched nothing. -/
def twoRoles : Mailbox where
  messages := [
    ⟨1, none, some 100, none, some ⟨"acknowledgement", some "Acme, Inc.", some "Engineer", 101⟩⟩,
    ⟨2, none, some 200, none, some ⟨"acknowledgement", some "Acme", some "Analyst", 201⟩⟩]
  applications := []
  nextApplication := 1
  application_matches := [(2, ⟨unmatchedVerdict, none, 300⟩), (1, ⟨unmatchedVerdict, none, 300⟩)]
  ids_nodup := by decide

/-- What is read of them. -/
theorem reading_twoRoles : reading asciiReader id twoRoles =
    ⟨[], 15, [⟨1, none, some 100, "Acme, Inc.", some "Engineer"⟩, ⟨2, none, some 200, "Acme", some "Analyst"⟩]⟩ := by
  have hsorted : unmatchedAppliedMessages twoRoles.messages (fun id => !twoRoles.view.unattached id) =
      [⟨1, none, some 100, "Acme, Inc.", some "Engineer"⟩, ⟨2, none, some 200, "Acme", some "Analyst"⟩] :=
    List.mergeSort_of_pairwise (by decide)
  rw [reading, hsorted]
  rfl

/-- A sweep derives an application for each role, and so creates the second one at a company that has one. -/
theorem two_applications_at_one_company :
    twoRoles.applications = [] ∧ ∃ engineer analyst,
      (fullSweep asciiReader id (1000 + ·) twoRoles).applications = [engineer, analyst] ∧
        engineer.created_at < analyst.created_at ∧
        asciiReader.normCompany analyst.company_name = asciiReader.normCompany engineer.company_name ∧
        asciiReader.normCompany analyst.company_name ≠ [] := by
  have hbefore : matchPending asciiReader (1000 + ·) none none
      (recomputeDerivedFloors asciiReader (detachUnattachable (1000 + ·) twoRoles)) = twoRoles := by
    have hdetach : twoRoles.view.unattachableRows = [] := by decide +kernel
    have hfloors : twoRoles.view.floors asciiReader = [] := by decide +kernel
    have hpending : twoRoles.view.pendingRows none none = [] := by decide +kernel
    rw [detachUnattachable, hdetach, List.foldl_nil, recomputeDerivedFloors, hfloors, List.foldl_nil, matchPending,
      hpending, List.foldl_nil]
  refine ⟨rfl, ⟨1, some "Acme, Inc.", some "Engineer", none, "email", some 100, 1002⟩,
    ⟨2, some "Acme", some "Analyst", none, "email", some 200, 1004⟩, ?_, by decide, by decide +kernel,
    by decide +kernel⟩
  rw [fullSweep, hbefore, seedFromMail, reading_twoRoles]
  decide +kernel

end JobScripts.Mail.Converge
