import Mathlib.Data.List.Nodup
import JobScripts.Lib.Run

/-!
# Drafts of application answers

The answers of one person to one posting's form: `put_answer`, `refine_answer`, `add_question` and
`delete_question` (`api/routers/application_answers.py`), `ensure_answer_rows` (`tasks/application.py`), and
`reserve_task`, `apply_result` and `record_result` (`api/apply/writes.py`). A model writes a draft only under
the revision that was taken for it; every edit, refinement and reservation moves the revision on.

Each transaction is a step; `reserve_task` and `ensure_answer_rows`, which hold their locks over a loop, are
one step for each question of the loop. The model calls that may still come back are part of the state, each
with the revision it was made under and the question it was made from. `moves` counts, for every key, the
edits, refinements, reservations, model writes, deletions and additions: it is what a revision stands for,
and no column holds it.

Two paths compare less than that. The write of `refine_answer` finds its row by key and revision, and a
pasted question that was deleted and added again counts its revisions from zero; `ensure_answer_rows` lets a
task change the question under the task's own revision. `model_draft_keeps_newer_intent` holds in every run
in which neither meets a call that is still out (`settled`); `readded_answer_overwritten` is a run in which
one does.
-/

namespace JobScripts.Apply.Drafts

open Lib

/-! ## Rows, tasks and calls -/

/-- A turn of the back-and-forth on an answer. -/
inductive Turn
  /-- The person's own text. -/
  | edit (text : String)
  /-- What the person asks a refinement for. -/
  | instruction (text : String)
  /-- A model's text, with its kind: `refine`, `draft` or `sweep`. -/
  | assistant (kind text : String)
  deriving DecidableEq

/-- A row of `application_answers`. -/
structure Answer where
  id : ℕ
  question : String
  manual : Bool
  required : Bool
  draft : Option String
  turns : List Turn
  model : Option String
  draft_revision : ℕ
  deriving DecidableEq

/-- A revision that was taken for a model call: of which row, and how often its key had been moved then. -/
structure Hold where
  answer_id : ℕ
  revision : ℕ
  moves : ℕ
  deriving DecidableEq

/-- The kinds of tasks that draft. -/
inductive Kind
  | draft | sweep
  deriving DecidableEq

/-- An entry of `draft_results`. -/
inductive Outcome
  | failed | unknownRequest | written | superseded

/-- A task, with its `draft_requests` and `draft_results` for this posting. -/
structure Task where
  kind : Kind
  requests : String → Option Hold
  results : String → Option Outcome

/-- Whose result a model call is. -/
inductive By
  /-- `refine_answer`: ask the model to rewrite the draft of a question. -/
  | refine
  /-- A worker of a task. -/
  | task (k : ℕ)
  deriving DecidableEq

/-- A model call that may still come back. -/
structure Call where
  key : String
  hold : Hold
  question : String
  by_ : By
  deriving DecidableEq

/-- The answers by key, the tasks, and the calls; `applied` are the revisions under which `apply_result` has
written. -/
structure State where
  answers : String → Option Answer
  next_id : ℕ
  tasks : ℕ → Option Task
  calls : List Call
  moves : String → ℕ
  applied : List (ℕ × ℕ)

/-- Nothing there. -/
def State.empty : State := ⟨fun _ => none, 0, fun _ => none, [], fun _ => 0, []⟩

/-! ## Steps -/

/-- What can happen next. -/
inductive Act
  /-- `put_answer`; an empty text clears the draft. -/
  | put (key text : String)
  /-- `refine_answer` takes a revision. -/
  | hold (key instruction : String)
  /-- `refine_answer` writes what the model returned. -/
  | refine (c : Call) (text model : String)
  /-- `add_question`: a person adds a question to the application. -/
  | add (key question : String) (required : Bool)
  /-- `delete_question`: the answer to a question goes, with its drafts. -/
  | delete (key : String)
  /-- `ensure_answer_rows` at one question, for a task or for none. -/
  | ensure (task : Option ℕ) (key label : String) (required : Bool)
  /-- A task is there. -/
  | enqueue (k : ℕ) (kind : Kind)
  /-- `reserve_task` at one answer; `busy` says that another draft of the posting is on its way. -/
  | reserve (k : ℕ) (key : String) (busy : Bool)
  /-- `apply_result` for a collected result, under the request that went out with the call. -/
  | apply (c : Call) (text : Option String) (kind model : String)
  /-- `record_result`, under the task's request. -/
  | record (c : Call) (text : Option String) (kind model : String)
  /-- A call does not come back. -/
  | lose (c : Call)

/-- The row of a key is written, and its key moved. -/
def State.write (s : State) (key : String) (a : Answer) : State :=
  { s with
    answers := Function.update s.answers key (some a)
    moves := Function.update s.moves key (s.moves key + 1) }

/-- A row that `INSERT` makes, with its defaults. -/
def State.insert (s : State) (key question : String) (manual required : Bool) : State :=
  { s.write key ⟨s.next_id, question, manual, required, none, [], none, 0⟩ with next_id := s.next_id + 1 }

/-- `NULLIF(text, '')`: an empty text is stored as null. -/
def nullIf (text : String) : Option String := if text = "" then none else some text

/-- What `put_answer` writes. -/
def Answer.edited (text : String) (a : Answer) : Answer :=
  { a with
    draft := nullIf text
    turns := a.turns ++ [.edit text]
    draft_revision := a.draft_revision + 1 }

/-- What `refine_answer` writes when it takes a revision. -/
def Answer.held (instruction : String) (a : Answer) : Answer :=
  { a with turns := a.turns ++ [.instruction instruction], draft_revision := a.draft_revision + 1 }

/-- What a model's text writes. -/
def Answer.drafted (kind text model : String) (a : Answer) : Answer :=
  { a with
    draft := some text
    model := some model
    turns := a.turns ++ [.assistant kind text]
    draft_revision := a.draft_revision + 1 }

/-- `WHERE id = ... AND draft_revision = ...`: the row is the one that was read, at the revision that was read. -/
def Hold.matches (h : Hold) (a : Answer) : Bool := a.id = h.answer_id && a.draft_revision = h.revision

/-- `apply_result` for a request: the state and the outcome. The row with the id of the request, if it is
still there, is the one under the key that it was reserved with: no statement changes a key. -/
def applyResult (s : State) (key : String) (request : Option Hold) (text : Option String)
    (kind model : String) : State × Outcome :=
  match text, request, s.answers key with
  | none, _, _ => (s, .failed)
  | some _, none, _ => (s, .unknownRequest)
  | some text, some h, some a =>
    if h.matches a then
      ({ s.write key (a.drafted kind text model) with
        applied := (h.answer_id, h.revision) :: s.applied }, .written)
    else (s, .superseded)
  | some _, some _, none => (s, .superseded)

/-- The revision of a key that a task owns. -/
def State.owned (s : State) (task : Option ℕ) (key : String) : Option ℕ :=
  task.bind fun k => (s.tasks k).bind fun t => (t.requests key).map Hold.revision

/-- One step. -/
def step (s : State) : Act → Option State
  | .put key text => (s.answers key).map fun a => s.write key (a.edited text)
  | .hold key instruction => (s.answers key).map fun a =>
      let h : Hold := ⟨a.id, a.draft_revision + 1, s.moves key + 1⟩
      { s.write key (a.held instruction) with calls := ⟨key, h, a.question, .refine⟩ :: s.calls }
  | .refine c text model =>
    if c ∈ s.calls ∧ c.by_ = .refine then
      match s.answers c.key with
      | some a =>
        -- By key and revision: the id of the row is not compared.
        if a.draft_revision = c.hold.revision then some (s.write c.key (a.drafted "refine" text model))
        else some s
      | none => some s
    else none
  | .add key question required =>
    match s.answers key with
    | some a => some { s with answers := Function.update s.answers key (some { a with required := required }) }
    | none => some (s.insert key question true required)
  | .delete key =>
    match s.answers key with
    | some a =>
      if a.manual then some { s with
        answers := Function.update s.answers key none
        moves := Function.update s.moves key (s.moves key + 1) }
      else none
    | none => none
  | .ensure task key label required =>
    match s.answers key with
    | some a =>
      -- A new question moves the revision, unless the task owns the revision.
      let revision := if a.question ≠ label ∧ s.owned task key ≠ some a.draft_revision
        then a.draft_revision + 1 else a.draft_revision
      let row := { a with question := label, required := required, draft_revision := revision }
      some { s with answers := Function.update s.answers key (some row) }
    | none => some (s.insert key label false required)
  | .enqueue k kind =>
    match s.tasks k with
    | none => some { s with
        tasks := Function.update s.tasks k (some ⟨kind, fun _ => none, fun _ => none⟩) }
    | some _ => none
  | .reserve k key busy =>
    match s.tasks k, s.answers key with
    | some t, some a =>
      if (t.results key).isSome then some s
      else
        match t.requests key with
        | some h =>
          -- A replay goes on under the revision that the task took, while it stands.
          if h.matches a then some { s with calls := ⟨key, h, a.question, .task k⟩ :: s.calls } else some s
        | none =>
          if t.kind = .sweep ∧ (a.draft ≠ none ∨ a.turns ≠ [] ∨ busy = true) then some s
          else
            let h : Hold := ⟨a.id, a.draft_revision + 1, s.moves key + 1⟩
            some { s.write key { a with draft_revision := a.draft_revision + 1 } with
              tasks := Function.update s.tasks k
                (some { t with requests := Function.update t.requests key (some h) })
              calls := ⟨key, h, a.question, .task k⟩ :: s.calls }
    | _, _ => none
  | .apply c text kind model =>
    if c ∈ s.calls ∧ c.by_ ≠ .refine then some (applyResult s c.key (some c.hold) text kind model).1 else none
  | .record c text kind model =>
    match c.by_ with
    | .task k =>
      match s.tasks k with
      | some t =>
        if c ∉ s.calls then none
        else if (t.results c.key).isSome then some s
        else
          let r := applyResult s c.key (t.requests c.key) text kind model
          some { r.1 with
            tasks := Function.update s.tasks k
              (some { t with results := Function.update t.results c.key (some r.2) }) }
      | none => none
    | .refine => none
  | .lose c => some { s with calls := s.calls.erase c }

/-- The condition on a step. The row that a refinement's write finds under its key and revision is the row
that it held; and a task that changes a question under its own revision has no call out that was made under
that revision from another question. -/
def settled (s : State) : Act → Bool
  | .refine c _ _ => (s.answers c.key).all fun a =>
      a.draft_revision ≠ c.hold.revision || a.id = c.hold.answer_id
  | .ensure task key label _ => (s.answers key).all fun a =>
      s.owned task key ≠ some a.draft_revision || s.calls.all fun c =>
        c.key ≠ key || !c.hold.matches a || c.question = label
  | _ => true

/-- The condition as a side condition of runs. -/
def Settled (s : State) (a : Act) : Prop := settled s a = true

instance (s : State) (a : Act) : Decidable (Settled s a) := inferInstanceAs (Decidable (_ = _))

/-! ## The invariant -/

/-- A revision was taken under the key: by a call that is out, or in a task's requests. -/
def State.Held (s : State) (key : String) (h : Hold) : Prop :=
  (∃ c ∈ s.calls, c.key = key ∧ c.hold = h) ∨ ∃ k t, s.tasks k = some t ∧ t.requests key = some h

/-- What a taken revision says of the row under its key, if it is still the row it was taken of: every move
of the key since has moved the revision too. -/
structure Hold.Fits (s : State) (key : String) (h : Hold) : Prop where
  known : h.answer_id < s.next_id
  moved : h.moves ≤ s.moves key
  row : ∀ a, s.answers key = some a → a.id = h.answer_id →
    h.revision ≤ a.draft_revision ∧ s.moves key + h.revision ≤ a.draft_revision + h.moves

/-- The invariant. -/
structure State.Inv (s : State) : Prop where
  ids : ∀ key a, s.answers key = some a → a.id < s.next_id
  inj : ∀ key a key' a', s.answers key = some a → s.answers key' = some a' → a.id = a'.id → key = key'
  held : ∀ key h, s.Held key h → h.Fits s key
  question : ∀ c ∈ s.calls, ∀ a, s.answers c.key = some a → c.hold.matches a = true → a.question = c.question
  owner : ∀ c ∈ s.calls, ∀ k, c.by_ = .task k → ∃ t, s.tasks k = some t ∧ t.requests c.key = some c.hold
  sweep : ∀ k t key h a, s.tasks k = some t → t.kind = .sweep → t.requests key = some h →
    s.answers key = some a → h.matches a = true → a.turns = []
  applied : ∀ id v, (id, v) ∈ s.applied → id < s.next_id ∧
    ∀ key a, s.answers key = some a → a.id = id → v < a.draft_revision
  once : s.applied.Nodup

section Invariant

variable {s s' : State} {key : String}

/-- A row that matches a taken revision has not been moved since. -/
theorem Hold.Fits.unmoved {h : Hold} (hfits : h.Fits s key) {a : Answer} (ha : s.answers key = some a)
    (hmatch : h.matches a = true) : s.moves key = h.moves := by
  unfold Hold.matches at hmatch
  rw [Bool.and_eq_true, decide_eq_true_eq, decide_eq_true_eq] at hmatch
  have hrow := hfits.row a ha hmatch.1
  have hmoved := hfits.moved
  omega

/-- A row is rewritten under its id: its revision does not fall, every move of its key has moved it, and
under the same revision the question of a call and the turns stay. -/
theorem State.Inv.writeRow (h : s.Inv) {a a' : Answer} {moves : String → ℕ} (ha : s.answers key = some a)
    (hid : a'.id = a.id) (hrev : a.draft_revision ≤ a'.draft_revision)
    (hother : ∀ k, k ≠ key → moves k = s.moves k) (hmoved : s.moves key ≤ moves key)
    (hmoves : moves key + a.draft_revision ≤ a'.draft_revision + s.moves key)
    (hq : a'.draft_revision = a.draft_revision → ∀ c ∈ s.calls, c.key = key → c.hold.matches a = true →
      a'.question = c.question)
    (ht : a'.draft_revision = a.draft_revision → a'.turns = a.turns) :
    State.Inv { s with answers := Function.update s.answers key (some a'), moves := moves } := by
  -- A row after the write is the new one, or a row of another key.
  have hcases : ∀ k b, Function.update s.answers key (some a') k = some b →
      (k = key ∧ b = a') ∨ (k ≠ key ∧ s.answers k = some b) := by
    intro k b hb
    by_cases hk : k = key
    · subst hk
      rw [Function.update_self] at hb
      exact .inl ⟨rfl, (Option.some.inj hb).symm⟩
    · rw [Function.update_of_ne hk] at hb
      exact .inr ⟨hk, hb⟩
  -- A match of the new row under an unmoved revision is a match of the old one.
  have hback : ∀ hold : Hold, hold.Fits s key → hold.matches a' = true →
      a'.draft_revision = a.draft_revision ∧ hold.matches a = true := by
    intro hold hfits hmatch
    unfold Hold.matches at hmatch ⊢
    rw [Bool.and_eq_true, decide_eq_true_eq, decide_eq_true_eq] at hmatch ⊢
    have hrow := hfits.row a ha (hid ▸ hmatch.1)
    exact ⟨by omega, hid ▸ hmatch.1, by omega⟩
  refine ⟨fun k b hb => ?_, fun k b k' b' hb hb' hids => ?_, fun k hold hheld => ?_,
    fun c hc b hb hmatch => ?_, h.owner, fun k t key' hold b htask hkind hreq hb hmatch => ?_,
    fun id v hmem => ?_, h.once⟩
  -- The ids, the holds, the question of each call, the tasks of the sweep, and what is applied.
  · rcases hcases k b hb with ⟨-, rfl⟩ | ⟨-, hb⟩
    · rw [hid]
      exact h.ids key a ha
    · exact h.ids k b hb
  · rcases hcases k b hb with ⟨rfl, rfl⟩ | ⟨-, hold⟩
    · rcases hcases k' b' hb' with ⟨rfl, rfl⟩ | ⟨-, hold'⟩
      · rfl
      · exact h.inj k a k' b' ha hold' (hid ▸ hids)
    · rcases hcases k' b' hb' with ⟨rfl, rfl⟩ | ⟨-, hold'⟩
      · exact h.inj k b k' a hold ha (hid ▸ hids)
      · exact h.inj k b k' b' hold hold' hids
  · have hfits := h.held k hold hheld
    by_cases hk : k = key
    · subst hk
      refine ⟨hfits.known, Nat.le_trans hfits.moved hmoved, fun b hb hbid => ?_⟩
      rcases hcases k b hb with ⟨-, rfl⟩ | ⟨hne, -⟩
      · have hrow := hfits.row a ha (hid ▸ hbid)
        have hle := hfits.moved
        dsimp only
        omega
      · exact absurd rfl hne
    · refine ⟨hfits.known, ?_, fun b hb hbid => ?_⟩
      · dsimp only
        rw [hother k hk]
        exact hfits.moved
      · rcases hcases k b hb with ⟨rfl, -⟩ | ⟨-, hb⟩
        · exact absurd rfl hk
        · dsimp only
          rw [hother k hk]
          exact hfits.row b hb hbid
  · rcases hcases c.key b hb with ⟨hk, rfl⟩ | ⟨-, hb⟩
    · have hfits := h.held c.key c.hold (.inl ⟨c, hc, rfl, rfl⟩)
      rw [hk] at hfits
      obtain ⟨hsame, hold⟩ := hback c.hold hfits hmatch
      exact hq hsame c hc hk hold
    · exact h.question c hc b hb hmatch
  · rcases hcases key' b hb with ⟨rfl, rfl⟩ | ⟨-, hb⟩
    · have hfits := h.held key' hold (.inr ⟨k, t, htask, hreq⟩)
      obtain ⟨hsame, hmatch'⟩ := hback hold hfits hmatch
      rw [ht hsame]
      exact h.sweep k t key' hold a htask hkind hreq ha hmatch'
    · exact h.sweep k t key' hold b htask hkind hreq hb hmatch
  · obtain ⟨hlt, hrow⟩ := h.applied id v hmem
    refine ⟨hlt, fun k b hb hbid => ?_⟩
    rcases hcases k b hb with ⟨rfl, rfl⟩ | ⟨-, hb⟩
    · exact Nat.lt_of_lt_of_le (hrow k a ha (hid ▸ hbid)) hrev
    · exact hrow k b hb hbid

/-- A row is rewritten with a new revision, and its key moved. -/
theorem State.Inv.write (h : s.Inv) {a a' : Answer} (ha : s.answers key = some a) (hid : a'.id = a.id)
    (hrev : a'.draft_revision = a.draft_revision + 1) : (s.write key a').Inv := by
  refine h.writeRow ha hid (by omega) (fun k hk => Function.update_of_ne hk _ _) ?_ ?_ ?_ ?_
  · rw [Function.update_self]
    omega
  · rw [Function.update_self]
    omega
  · omega
  · omega

/-- A new row. -/
theorem State.Inv.insert (h : s.Inv) (ha : s.answers key = none) (question : String)
    (manual required : Bool) : (s.insert key question manual required).Inv := by
  -- A row after the insertion is the new one, or an old one with a smaller id.
  have hcases : ∀ k b, (s.insert key question manual required).answers k = some b →
      (k = key ∧ b.id = s.next_id ∧ b.turns = [] ∧ b.draft_revision = 0) ∨
        (k ≠ key ∧ s.answers k = some b) := by
    intro k b hb
    have heq : Function.update s.answers key
      (some ⟨s.next_id, question, manual, required, none, [], none, 0⟩) k = some b := hb
    by_cases hk : k = key
    · subst hk
      rw [Function.update_self] at heq
      obtain rfl := Option.some.inj heq
      exact .inl ⟨rfl, rfl, rfl, rfl⟩
    · rw [Function.update_of_ne hk] at heq
      exact .inr ⟨hk, heq⟩
  have hmoves : ∀ k, s.moves k ≤ (s.insert key question manual required).moves k := by
    intro k
    have heq : (s.insert key question manual required).moves k =
      Function.update s.moves key (s.moves key + 1) k := rfl
    rw [heq]
    by_cases hk : k = key
    · subst hk
      rw [Function.update_self]
      omega
    · exact Nat.le_of_eq (Function.update_of_ne hk _ _).symm
  have hsame : ∀ k, k ≠ key → (s.insert key question manual required).moves k = s.moves k := fun k hk =>
    Function.update_of_ne hk _ _
  have hnext : (s.insert key question manual required).next_id = s.next_id + 1 := rfl
  -- No revision was taken of the new row.
  have hnew : ∀ (hold : Hold) b, hold.answer_id < s.next_id → b.id = s.next_id →
      hold.matches b = false := by
    intro hold b hlt hbid
    unfold Hold.matches
    rw [decide_eq_false (by omega), Bool.false_and]
  refine ⟨fun k b hb => ?_, fun k b k' b' hb hb' hids => ?_, fun k hold hheld => ?_,
    fun c hc b hb hmatch => ?_, h.owner, fun k t key' hold b htask hkind hreq hb hmatch => ?_,
    fun id v hmem => ?_, h.once⟩
  -- The fields in the same order; what is new has the next id.
  · rw [hnext]
    rcases hcases k b hb with ⟨-, hbid, -, -⟩ | ⟨-, hb⟩
    · omega
    · have hlt := h.ids k b hb
      omega
  · rcases hcases k b hb with ⟨rfl, hbid, -, -⟩ | ⟨-, hold⟩
    · rcases hcases k' b' hb' with ⟨rfl, -, -, -⟩ | ⟨-, hold'⟩
      · rfl
      · have hlt := h.ids k' b' hold'
        omega
    · rcases hcases k' b' hb' with ⟨rfl, hbid', -, -⟩ | ⟨-, hold'⟩
      · have hlt := h.ids k b hold
        omega
      · exact h.inj k b k' b' hold hold' hids
  · have hfits := h.held k hold hheld
    refine ⟨?_, Nat.le_trans hfits.moved (hmoves k), fun b hb hbid => ?_⟩
    · have hlt := hfits.known
      omega
    · rcases hcases k b hb with ⟨-, hnewid, -, -⟩ | ⟨hk, hb⟩
      · have hlt := hfits.known
        omega
      · rw [hsame k hk]
        exact hfits.row b hb hbid
  · rcases hcases c.key b hb with ⟨-, hbid, -, -⟩ | ⟨-, hb⟩
    · have hfits := h.held c.key c.hold (.inl ⟨c, hc, rfl, rfl⟩)
      rw [hnew c.hold b hfits.known hbid] at hmatch
      contradiction
    · exact h.question c hc b hb hmatch
  · rcases hcases key' b hb with ⟨-, hbid, -, -⟩ | ⟨-, hb⟩
    · have hfits := h.held key' hold (.inr ⟨k, t, htask, hreq⟩)
      rw [hnew hold b hfits.known hbid] at hmatch
      contradiction
    · exact h.sweep k t key' hold b htask hkind hreq hb hmatch
  · obtain ⟨hlt, hrow⟩ := h.applied id v hmem
    refine ⟨by omega, fun k b hb hbid => ?_⟩
    rcases hcases k b hb with ⟨-, hnewid, -, -⟩ | ⟨-, hb⟩
    · omega
    · exact hrow k b hb hbid

/-- A pasted question is deleted. -/
theorem State.Inv.delete (h : s.Inv) : State.Inv { s with
    answers := Function.update s.answers key none
    moves := Function.update s.moves key (s.moves key + 1) } := by
  -- The rows that are left are rows of other keys.
  have hleft : ∀ k b, Function.update s.answers key none k = some b → k ≠ key ∧ s.answers k = some b := by
    intro k b hb
    by_cases hk : k = key
    · subst hk
      rw [Function.update_self] at hb
      contradiction
    · rw [Function.update_of_ne hk] at hb
      exact ⟨hk, hb⟩
  refine ⟨fun k b hb => h.ids k b (hleft k b hb).2, fun k b k' b' hb hb' hids =>
    h.inj k b k' b' (hleft k b hb).2 (hleft k' b' hb').2 hids, fun k hold hheld => ?_,
    fun c hc b hb hmatch => h.question c hc b (hleft _ b hb).2 hmatch, h.owner,
    fun k t key' hold b htask hkind hreq hb hmatch =>
      h.sweep k t key' hold b htask hkind hreq (hleft _ b hb).2 hmatch,
    fun id v hmem => ⟨(h.applied id v hmem).1, fun k b hb hbid =>
      (h.applied id v hmem).2 k b (hleft k b hb).2 hbid⟩, h.once⟩
  have hfits := h.held k hold hheld
  by_cases hk : k = key
  · subst hk
    refine ⟨hfits.known, ?_, fun b hb => absurd rfl (hleft k b hb).1⟩
    dsimp only
    rw [Function.update_self]
    have hle := hfits.moved
    omega
  · refine ⟨hfits.known, ?_, fun b hb hbid => ?_⟩
    · dsimp only
      rw [Function.update_of_ne hk]
      exact hfits.moved
    · dsimp only
      rw [Function.update_of_ne hk]
      exact hfits.row b (hleft k b hb).2 hbid

/-- A call goes out under a revision that fits, from the question of the row that it matches. -/
theorem State.Inv.call (h : s.Inv) {c : Call} (hfits : c.hold.Fits s c.key)
    (hq : ∀ a, s.answers c.key = some a → c.hold.matches a = true → a.question = c.question)
    (howner : ∀ k, c.by_ = .task k → ∃ t, s.tasks k = some t ∧ t.requests c.key = some c.hold) :
    State.Inv { s with calls := c :: s.calls } := by
  refine ⟨h.ids, h.inj, fun key hold hheld => ?_, fun d hd a ha hmatch => ?_, fun d hd k hby => ?_, h.sweep,
    h.applied, h.once⟩
  · rcases hheld with ⟨d, hd, rfl, rfl⟩ | hreq
    · rcases List.mem_cons.mp hd with rfl | hd
      · exact ⟨hfits.known, hfits.moved, hfits.row⟩
      · have hold := h.held d.key d.hold (.inl ⟨d, hd, rfl, rfl⟩)
        exact ⟨hold.known, hold.moved, hold.row⟩
    · have hold := h.held key hold (.inr hreq)
      exact ⟨hold.known, hold.moved, hold.row⟩
  · rcases List.mem_cons.mp hd with rfl | hd
    · exact hq a ha hmatch
    · exact h.question d hd a ha hmatch
  · rcases List.mem_cons.mp hd with rfl | hd
    · exact howner k hby
    · exact h.owner d hd k hby

/-- A task takes a revision. -/
theorem State.Inv.request (h : s.Inv) {k : ℕ} {t : Task} {hold : Hold} (hk : s.tasks k = some t)
    (hnone : t.requests key = none) (hfits : hold.Fits s key)
    (hsweep : t.kind = .sweep → ∀ a, s.answers key = some a → a.turns = []) :
    State.Inv { s with
      tasks := Function.update s.tasks k
        (some { t with requests := Function.update t.requests key (some hold) }) } := by
  -- A request after the step is the new one, or one from before.
  have hcases : ∀ k' t' key' hold', Function.update s.tasks k
      (some { t with requests := Function.update t.requests key (some hold) }) k' = some t' →
      t'.requests key' = some hold' →
      (key' = key ∧ hold' = hold ∧ t'.kind = t.kind) ∨
        ∃ t'', s.tasks k' = some t'' ∧ t''.requests key' = some hold' ∧ t''.kind = t'.kind := by
    intro k' t' key' hold' ht' hreq
    by_cases hkk : k' = k
    · subst hkk
      rw [Function.update_self] at ht'
      obtain rfl := Option.some.inj ht'
      dsimp only at hreq
      by_cases hkey : key' = key
      · subst hkey
        rw [Function.update_self] at hreq
        exact .inl ⟨rfl, (Option.some.inj hreq).symm, rfl⟩
      · rw [Function.update_of_ne hkey] at hreq
        exact .inr ⟨t, hk, hreq, rfl⟩
    · rw [Function.update_of_ne hkk] at ht'
      exact .inr ⟨t', ht', hreq, rfl⟩
  refine ⟨h.ids, h.inj, fun key' hold' hheld => ?_, h.question, fun c hc k' hby => ?_,
    fun k' t' key' hold' a ht' hkind hreq ha hmatch => ?_, h.applied, h.once⟩
  · have hold₀ : hold'.Fits s key' := by
      rcases hheld with hcall | ⟨k', t', ht', hreq⟩
      · exact h.held key' hold' (.inl hcall)
      · rcases hcases k' t' key' hold' ht' hreq with ⟨rfl, rfl, -⟩ | ⟨t'', ht'', hreq'', -⟩
        · exact hfits
        · exact h.held key' hold' (.inr ⟨k', t'', ht'', hreq''⟩)
    exact ⟨hold₀.known, hold₀.moved, hold₀.row⟩
  · obtain ⟨t', ht', hreq⟩ := h.owner c hc k' hby
    by_cases hkk : k' = k
    · subst hkk
      obtain rfl := Option.some.inj (hk.symm.trans ht')
      have hne : c.key ≠ key := by
        rintro hkey
        rw [hkey, hnone] at hreq
        contradiction
      refine ⟨_, Function.update_self _ _ _, ?_⟩
      dsimp only
      rw [Function.update_of_ne hne]
      exact hreq
    · refine ⟨t', ?_, hreq⟩
      dsimp only
      rw [Function.update_of_ne hkk]
      exact ht'
  · rcases hcases k' t' key' hold' ht' hreq with ⟨rfl, -, hsame⟩ | ⟨t'', ht'', hreq'', hsame⟩
    · exact hsweep (hsame ▸ hkind) a ha
    · exact h.sweep k' t'' key' hold' a ht'' (hsame.trans hkind) hreq'' ha hmatch

/-- Tasks that keep their kinds and requests. -/
theorem State.Inv.tasks (h : s.Inv) {tasks : ℕ → Option Task}
    (hback : ∀ k t key hold, tasks k = some t → t.requests key = some hold →
      ∃ t', s.tasks k = some t' ∧ t'.requests key = some hold ∧ t'.kind = t.kind)
    (hforth : ∀ k t key hold, s.tasks k = some t → t.requests key = some hold →
      ∃ t', tasks k = some t' ∧ t'.requests key = some hold) :
    State.Inv { s with tasks := tasks } := by
  refine ⟨h.ids, h.inj, fun key hold hheld => ?_, h.question, fun c hc k hby => ?_,
    fun k t key hold a ht hkind hreq ha hmatch => ?_, h.applied, h.once⟩
  · have hold₀ : hold.Fits s key := by
      rcases hheld with hcall | ⟨k, t, ht, hreq⟩
      · exact h.held key hold (.inl hcall)
      · obtain ⟨t', ht', hreq', -⟩ := hback k t key hold ht hreq
        exact h.held key hold (.inr ⟨k, t', ht', hreq'⟩)
    exact ⟨hold₀.known, hold₀.moved, hold₀.row⟩
  · obtain ⟨t, ht, hreq⟩ := h.owner c hc k hby
    exact hforth k t c.key c.hold ht hreq
  · obtain ⟨t', ht', hreq', hsame⟩ := hback k t key hold ht hreq
    exact h.sweep k t' key hold a ht' (hsame.trans hkind) hreq' ha hmatch

/-- A write under a taken revision is its first, and no later one matches. -/
theorem State.Inv.apply (h : s.Inv) {hold : Hold} {a : Answer} (ha : s.answers key = some a)
    (hmatch : hold.matches a = true) (kind text model : String) :
    State.Inv { s.write key (a.drafted kind text model) with
      applied := (hold.answer_id, hold.revision) :: s.applied } := by
  have hw : (s.write key (a.drafted kind text model)).Inv := h.write ha rfl rfl
  unfold Hold.matches at hmatch
  rw [Bool.and_eq_true, decide_eq_true_eq, decide_eq_true_eq] at hmatch
  obtain ⟨hid, hrev⟩ := hmatch
  refine ⟨hw.ids, hw.inj, fun k g hheld => ?_, hw.question, hw.owner, hw.sweep, fun id v hmem => ?_, ?_⟩
  · have hfits := hw.held k g hheld
    exact ⟨hfits.known, hfits.moved, hfits.row⟩
  · rcases List.mem_cons.mp hmem with heq | hmem
    · obtain ⟨rfl, rfl⟩ := Prod.mk.inj heq
      refine ⟨hid ▸ h.ids key a ha, fun k b hb hbid => ?_⟩
      -- The row with the id is the one that was written.
      have hself : (s.write key (a.drafted kind text model)).answers key =
        some (a.drafted kind text model) := Function.update_self _ _ _
      have hk : k = key := hw.inj k b key _ hb hself (hbid.trans hid.symm)
      subst hk
      obtain rfl := Option.some.inj (hself.symm.trans hb)
      have hnew : (a.drafted kind text model).draft_revision = a.draft_revision + 1 := rfl
      omega
    · exact hw.applied id v hmem
  · refine List.nodup_cons.mpr ⟨fun hmem => ?_, h.once⟩
    have hlt := (h.applied _ _ hmem).2 key a ha hid
    omega

/-- `apply_result` for a request under its key. -/
theorem State.Inv.applyResult (h : s.Inv) (request : Option Hold) (text : Option String)
    (kind model : String) : (applyResult s key request text kind model).1.Inv := by
  unfold Drafts.applyResult
  split
  · exact h
  · exact h
  · next hold a ha =>
    split
    · next hmatch => exact h.apply ha hmatch kind _ model
    · exact h
  · exact h

/-- A new revision of a row fits right after it was taken. -/
theorem fits_taken (h : s.Inv) {a a' : Answer} (ha : s.answers key = some a)
    (hrev : a'.draft_revision = a.draft_revision + 1) :
    Hold.Fits (s.write key a') key ⟨a.id, a.draft_revision + 1, s.moves key + 1⟩ := by
  have hmoves : (s.write key a').moves key = s.moves key + 1 := Function.update_self _ _ _
  refine ⟨h.ids key a ha, ?_, fun b hb _ => ?_⟩
  · exact Nat.le_of_eq hmoves.symm
  · have hself : (s.write key a').answers key = some a' := Function.update_self _ _ _
    obtain rfl := Option.some.inj (hself.symm.trans hb)
    rw [hmoves]
    dsimp only
    omega

/-- The question under a new revision is the one that was read. -/
theorem question_taken {a a' : Answer} {hold : Hold} (hq : a'.question = a.question) :
    ∀ b, (s.write key a').answers key = some b → hold.matches b = true → b.question = a.question := by
  intro b hb _
  have hself : (s.write key a').answers key = some a' := Function.update_self _ _ _
  obtain rfl := Option.some.inj (hself.symm.trans hb)
  exact hq

/-- Every step under the condition keeps the invariant. -/
theorem State.Inv.step (h : s.Inv) {a : Act} (hok : Settled s a) (hs : step s a = some s') : s'.Inv := by
  cases a with
  -- What a person writes: a text, a request for a draft, a question.
  | put key text =>
    obtain ⟨a, ha, rfl⟩ := Option.map_eq_some_iff.mp hs
    exact h.write ha rfl rfl
  | hold key instruction =>
    obtain ⟨a, ha, rfl⟩ := Option.map_eq_some_iff.mp hs
    have hw : (s.write key (a.held instruction)).Inv := h.write ha rfl rfl
    refine hw.call (fits_taken h ha rfl) (question_taken rfl) fun k hby => ?_
    contradiction
  -- A refinement that comes back writes over the revision that it was asked for, or nothing.
  | refine c text model =>
    simp only [Drafts.step] at hs
    rw [Option.ite_none_right_eq_some] at hs
    obtain ⟨-, hs⟩ := hs
    split at hs
    · next a ha =>
      split at hs
      · obtain rfl := Option.some.inj hs
        exact h.write ha rfl rfl
      · obtain rfl := Option.some.inj hs
        exact h
    · obtain rfl := Option.some.inj hs
      exact h
  | add key question required =>
    simp only [Drafts.step] at hs
    split at hs
    · next a ha =>
      obtain rfl := Option.some.inj hs
      refine h.writeRow ha rfl (Nat.le_refl _) (fun _ _ => rfl) (Nat.le_refl _) ?_ ?_ fun _ => rfl
      · dsimp only
        omega
      · intro _ c hc hkey hmatch
        exact h.question c hc a (hkey ▸ ha) hmatch
    · next ha =>
      obtain rfl := Option.some.inj hs
      exact h.insert ha question true required
  -- An answer goes with all of its calls.
  | delete key =>
    simp only [Drafts.step] at hs
    split at hs
    · rw [Option.ite_none_right_eq_some] at hs
      obtain rfl := Option.some.inj hs.2
      exact h.delete
    · contradiction
  -- What a task writes: the questions of the form, and the drafts that it asks for.
  | ensure task key label required =>
    simp only [Drafts.step] at hs
    split at hs
    · next a ha =>
      obtain rfl := Option.some.inj hs
      refine h.writeRow ha rfl ?_ (fun _ _ => rfl) (Nat.le_refl _) ?_ ?_ fun _ => rfl
      · dsimp only
        split <;> omega
      · dsimp only
        split <;> omega
      -- A question that changes takes a new revision, unless the task owns the one that is there.
      · intro hsame c hc hkey hmatch
        dsimp only at hsame ⊢
        have hnot : ¬ (a.question ≠ label ∧ s.owned task key ≠ some a.draft_revision) := by
          intro hboth
          rw [if_pos hboth] at hsame
          omega
        have hcall : a.question = c.question := h.question c hc a (hkey ▸ ha) hmatch
        by_cases hq : a.question = label
        · rw [← hq]
          exact hcall
        · -- The task owns the revision, so the calls under it are from the new question.
          have howned : s.owned task key = some a.draft_revision := by
            by_contra hne
            exact hnot ⟨hq, hne⟩
          unfold Settled settled at hok
          dsimp only at hok
          rw [ha, Option.all_some, Bool.or_eq_true, decide_eq_true_eq, List.all_eq_true] at hok
          have hthis := (hok.resolve_left fun hne => hne howned) c hc
          rw [Bool.or_eq_true, Bool.or_eq_true, decide_eq_true_eq, hmatch, decide_eq_true_eq] at hthis
          rcases hthis with (hne | hno) | heq
          · exact absurd hkey hne
          · contradiction
          · exact heq.symm
    · next ha =>
      obtain rfl := Option.some.inj hs
      exact h.insert ha label false required
  | enqueue k kind =>
    simp only [Drafts.step] at hs
    split at hs
    · next hnone =>
      obtain rfl := Option.some.inj hs
      -- The slot was empty, so that no request is lost.
      refine h.tasks (fun k' t key hold ht hreq => ?_) fun k' t key hold ht hreq => ?_
      · by_cases hk : k' = k
        · subst hk
          rw [Function.update_self] at ht
          obtain rfl := Option.some.inj ht
          contradiction
        · rw [Function.update_of_ne hk] at ht
          exact ⟨t, ht, hreq, rfl⟩
      · have hk : k' ≠ k := by
          rintro rfl
          rw [hnone] at ht
          contradiction
        exact ⟨t, by rw [Function.update_of_ne hk]; exact ht, hreq⟩
    · contradiction
  | reserve k key busy =>
    simp only [Drafts.step] at hs
    split at hs
    -- A task asks for the draft of an answer: it holds the revision, which a first request takes.
    · next t a hk ha =>
      split at hs
      · obtain rfl := Option.some.inj hs
        exact h
      · split at hs
        · next hold hreq =>
          split at hs
          · obtain rfl := Option.some.inj hs
            refine h.call (h.held key hold (.inr ⟨k, t, hk, hreq⟩)) (fun b hb _ => ?_) fun k' hby => ?_
            · obtain rfl := Option.some.inj (ha.symm.trans hb)
              rfl
            · obtain rfl := By.task.inj hby
              exact ⟨t, hk, hreq⟩
          · obtain rfl := Option.some.inj hs
            exact h
        · next hnone =>
          split at hs
          · obtain rfl := Option.some.inj hs
            exact h
          · next hgo =>
            obtain rfl := Option.some.inj hs
            have hw : (s.write key { a with draft_revision := a.draft_revision + 1 }).Inv :=
              h.write ha rfl rfl
            have hfits : Hold.Fits (s.write key { a with draft_revision := a.draft_revision + 1 }) key
                ⟨a.id, a.draft_revision + 1, s.moves key + 1⟩ := fits_taken h ha rfl
            have hr := hw.request hk hnone hfits fun hkind b hb => by
              -- A sweep takes a revision only of an answer without turns.
              have hself : (s.write key { a with draft_revision := a.draft_revision + 1 }).answers key =
                some { a with draft_revision := a.draft_revision + 1 } := Function.update_self _ _ _
              obtain rfl := Option.some.inj (hself.symm.trans hb)
              by_contra hturns
              exact hgo ⟨hkind, .inr (.inl hturns)⟩
            refine hr.call ⟨hfits.known, hfits.moved, hfits.row⟩ (question_taken rfl) fun k' hby => ?_
            obtain rfl := By.task.inj hby
            refine ⟨_, Function.update_self _ _ _, ?_⟩
            dsimp only
            rw [Function.update_self]
    · contradiction
  -- The drafts that come back, for a person or for a task.
  | apply c text kind model =>
    simp only [Drafts.step] at hs
    rw [Option.ite_none_right_eq_some] at hs
    obtain rfl := Option.some.inj hs.2
    exact h.applyResult (some c.hold) text kind model
  | record c text kind model =>
    simp only [Drafts.step] at hs
    split at hs
    · next k hby =>
      split at hs
      · next t hk =>
        rw [Option.ite_none_left_eq_some] at hs
        obtain ⟨-, hs⟩ := hs
        split at hs
        · obtain rfl := Option.some.inj hs
          exact h
        · obtain rfl := Option.some.inj hs
          have hr : (Drafts.applyResult s c.key (t.requests c.key) text kind model).1.Inv :=
            h.applyResult (t.requests c.key) text kind model
          have htasks : (Drafts.applyResult s c.key (t.requests c.key) text kind model).1.tasks = s.tasks := by
            unfold Drafts.applyResult
            repeat' split
            all_goals rfl
          -- What is recorded is said of the task as it is now, with the requests that it had.
          refine hr.tasks (fun k' t' key hold ht' hreq => ?_) fun k' t' key hold ht' hreq => ?_
          · rw [htasks]
            by_cases hkk : k' = k
            · subst hkk
              rw [Function.update_self] at ht'
              obtain rfl := Option.some.inj ht'
              exact ⟨t, hk, hreq, rfl⟩
            · rw [Function.update_of_ne hkk] at ht'
              exact ⟨t', ht', hreq, rfl⟩
          · rw [htasks] at ht'
            by_cases hkk : k' = k
            · subst hkk
              obtain rfl := Option.some.inj (hk.symm.trans ht')
              exact ⟨_, Function.update_self _ _ _, hreq⟩
            · exact ⟨t', by rw [Function.update_of_ne hkk]; exact ht', hreq⟩
      · contradiction
    · contradiction
  -- A call that is lost takes nothing with it but itself.
  | lose c =>
    obtain rfl := Option.some.inj hs
    have hsub : ∀ d ∈ s.calls.erase c, d ∈ s.calls := fun d hd => List.mem_of_mem_erase hd
    refine ⟨h.ids, h.inj, fun key hold hheld => ?_, fun d hd => h.question d (hsub d hd),
      fun d hd => h.owner d (hsub d hd), h.sweep, h.applied, h.once⟩
    have hold₀ : hold.Fits s key := by
      rcases hheld with ⟨d, hd, hkey, hhold⟩ | hreq
      · exact h.held key hold (.inl ⟨d, hsub d hd, hkey, hhold⟩)
      · exact h.held key hold (.inr hreq)
    exact ⟨hold₀.known, hold₀.moved, hold₀.row⟩

/-- The invariant holds in every run under the condition. -/
theorem State.Inv.run (h : Run Drafts.step Settled State.empty s) : s.Inv := by
  refine h.invariant ⟨fun key a ha => ?_, fun key a key' a' ha => ?_, fun key hold hheld => ?_,
    fun c hc => ?_, fun c hc => ?_, fun k t key hold a ht => ?_, fun id v hmem => ?_, List.nodup_nil⟩
    fun s a s' hinv hok hs => hinv.step hok hs
  · contradiction
  · contradiction
  · rcases hheld with ⟨c, hc, -⟩ | ⟨k, t, ht, -⟩
    · exact absurd hc List.not_mem_nil
    · contradiction
  · exact absurd hc List.not_mem_nil
  · exact absurd hc List.not_mem_nil
  · contradiction
  · exact absurd hmem List.not_mem_nil

end Invariant

/-! ## What a model writes -/

/-- The call whose text an action writes. -/
def Act.call : Act → Option Call
  | .refine c _ _ | .apply c _ _ _ | .record c _ _ _ => some c
  | _ => none

section Writes

variable {s s' : State}

/-- A row later: the same one, its turns longer at their end. -/
structure Answer.Grows (a a' : Answer) : Prop where
  id : a'.id = a.id
  turns : a.turns <+: a'.turns

/-- A row under a key after that key, or another one, was written. -/
theorem grows_write {key k : String} {a a' b : Answer} (ha : s.answers key = some a) (hgrows : a.Grows a')
    (hk : s.answers k = some b) :
    ∃ b', (s.write key a').answers k = some b' ∧ b.Grows b' ∧ (k = key → b = a ∧ b' = a') ∧
      (k ≠ key → b' = b) := by
  by_cases hkey : k = key
  · subst hkey
    obtain rfl := Option.some.inj (ha.symm.trans hk)
    exact ⟨a', Function.update_self _ _ _, hgrows, fun _ => ⟨rfl, rfl⟩, fun hne => absurd rfl hne⟩
  · exact ⟨b, (Function.update_of_ne hkey _ _).trans hk, ⟨rfl, List.prefix_refl _⟩,
      fun heq => absurd heq hkey, fun _ => rfl⟩

/-- What `apply_result` does: nothing, or a write to the row that the request matches. -/
theorem applyResult_cases (key : String) (request : Option Hold) (text : Option String)
    (kind model : String) :
    (applyResult s key request text kind model).1 = s ∨
      ∃ h a t, request = some h ∧ s.answers key = some a ∧ h.matches a = true ∧
        (applyResult s key request text kind model).1.answers =
          (s.write key (a.drafted kind t model)).answers := by
  unfold applyResult
  split
  · exact .inl rfl
  · exact .inl rfl
  · next text hold a ha =>
    split
    · next hmatch => exact .inr ⟨hold, a, text, rfl, ha, hmatch, rfl⟩
    · exact .inl rfl
  · exact .inl rfl

/-- A model's text in the row of a call that matches it: nothing has moved the key since the revision was
taken, and the question is the one that the text was made from. -/
theorem State.Inv.matched (h : s.Inv) {c : Call} {a : Answer} (hc : c ∈ s.calls)
    (ha : s.answers c.key = some a) (hmatch : c.hold.matches a = true) :
    s.moves c.key = c.hold.moves ∧ a.question = c.question ∧
      ∀ k t, c.by_ = .task k → s.tasks k = some t → t.kind = .sweep → a.turns = [] := by
  have hfits := h.held c.key c.hold (.inl ⟨c, hc, rfl, rfl⟩)
  refine ⟨hfits.unmoved ha hmatch, h.question c hc a ha hmatch, fun k t hby ht hkind => ?_⟩
  obtain ⟨t', ht', hreq⟩ := h.owner c hc k hby
  obtain rfl := Option.some.inj (ht.symm.trans ht')
  exact h.sweep k t c.key c.hold a ht hkind hreq ha hmatch

/-- What a model's text was written under. -/
structure Unmoved (s : State) (c : Call) (key : String) (a : Answer) : Prop where
  call : c ∈ s.calls
  under : c.key = key
  answer : c.hold.answer_id = a.id
  revision : c.hold.revision = a.draft_revision
  moves : s.moves key = c.hold.moves
  question : a.question = c.question
  sweep : ∀ k t, c.by_ = .task k → s.tasks k = some t → t.kind = .sweep → a.turns = []

/-- A row that a call matches. -/
theorem State.Inv.unmoved (h : s.Inv) {c : Call} {a : Answer} (hc : c ∈ s.calls)
    (ha : s.answers c.key = some a) (hmatch : c.hold.matches a = true) : Unmoved s c c.key a := by
  obtain ⟨hmoves, hq, hsweep⟩ := h.matched hc ha hmatch
  unfold Hold.matches at hmatch
  rw [Bool.and_eq_true, decide_eq_true_eq, decide_eq_true_eq] at hmatch
  exact ⟨hc, rfl, hmatch.1.symm, hmatch.2.symm, hmoves, hq, hsweep⟩

/-- The steps that write no model's text: a row that is left is the same one with its turns, and its draft is
as before unless the person put it. -/
theorem step_other {act : Act} (hcall : act.call = none) (hs : step s act = some s') {key : String}
    {a a' : Answer} (ha : s.answers key = some a) (ha' : s'.answers key = some a') :
    a.Grows a' ∧ (a'.draft = a.draft ∨ ∃ text, act = .put key text) := by
  have hsame : s'.answers = s.answers → a.Grows a' ∧ (a'.draft = a.draft ∨ ∃ text, act = .put key text) := by
    intro heq
    rw [heq] at ha'
    obtain rfl := Option.some.inj (ha.symm.trans ha')
    exact ⟨⟨rfl, List.prefix_refl _⟩, .inl rfl⟩
  -- One row was written, or inserted where there was none.
  have hwrite : ∀ k b b', s.answers k = some b → s'.answers = Function.update s.answers k (some b') →
      b.Grows b' → (b'.draft = b.draft ∨ ∃ text, act = .put k text) →
      a.Grows a' ∧ (a'.draft = a.draft ∨ ∃ text, act = .put key text) := by
    intro k b b' hb heq hgrows hdraft
    rw [heq] at ha'
    by_cases hk : key = k
    · subst hk
      rw [Function.update_self] at ha'
      obtain rfl := Option.some.inj ha'
      obtain rfl := Option.some.inj (ha.symm.trans hb)
      exact ⟨hgrows, hdraft⟩
    · rw [Function.update_of_ne hk] at ha'
      obtain rfl := Option.some.inj (ha.symm.trans ha')
      exact ⟨⟨rfl, List.prefix_refl _⟩, .inl rfl⟩
  have hinsert : ∀ k b', s.answers k = none → s'.answers = Function.update s.answers k b' →
      a.Grows a' ∧ (a'.draft = a.draft ∨ ∃ text, act = .put key text) := by
    intro k b' hnone heq
    have hk : key ≠ k := by
      rintro rfl
      rw [hnone] at ha
      contradiction
    rw [heq, Function.update_of_ne hk] at ha'
    obtain rfl := Option.some.inj (ha.symm.trans ha')
    exact ⟨⟨rfl, List.prefix_refl _⟩, .inl rfl⟩
  -- What a person does: a text of theirs is the one draft that changes.
  cases act with
  | put k text =>
    obtain ⟨b, hb, rfl⟩ := Option.map_eq_some_iff.mp hs
    exact hwrite k b _ hb rfl ⟨rfl, List.prefix_append _ _⟩ (.inr ⟨text, rfl⟩)
  | hold k instruction =>
    obtain ⟨b, hb, rfl⟩ := Option.map_eq_some_iff.mp hs
    exact hwrite k b _ hb rfl ⟨rfl, List.prefix_append _ _⟩ (.inl rfl)
  | add k question required =>
    simp only [step] at hs
    split at hs
    · next b hb =>
      obtain rfl := Option.some.inj hs
      exact hwrite k b _ hb rfl ⟨rfl, List.prefix_refl _⟩ (.inl rfl)
    · next hnone =>
      obtain rfl := Option.some.inj hs
      exact hinsert k _ hnone rfl
  -- The row that is left is another one than the one that goes.
  | delete k =>
    simp only [step] at hs
    split at hs
    · rw [Option.ite_none_right_eq_some] at hs
      obtain rfl := Option.some.inj hs.2
      dsimp only at ha'
      by_cases hk : key = k
      · subst hk
        rw [Function.update_self] at ha'
        contradiction
      · rw [Function.update_of_ne hk] at ha'
        obtain rfl := Option.some.inj (ha.symm.trans ha')
        exact ⟨⟨rfl, List.prefix_refl _⟩, .inl rfl⟩
    · contradiction
  -- What a task does keeps drafts and turns.
  | ensure task k label required =>
    simp only [step] at hs
    split at hs
    · next b hb =>
      obtain rfl := Option.some.inj hs
      exact hwrite k b _ hb rfl ⟨rfl, List.prefix_refl _⟩ (.inl rfl)
    · next hnone =>
      obtain rfl := Option.some.inj hs
      exact hinsert k _ hnone rfl
  | enqueue k kind =>
    simp only [step] at hs
    split at hs
    · obtain rfl := Option.some.inj hs
      exact hsame rfl
    · contradiction
  | reserve k k' busy =>
    simp only [step] at hs
    split at hs
    · next t b hk hb =>
      split at hs
      · obtain rfl := Option.some.inj hs
        exact hsame rfl
      · split at hs
        · split at hs <;> (obtain rfl := Option.some.inj hs; exact hsame rfl)
        · split at hs
          · obtain rfl := Option.some.inj hs
            exact hsame rfl
          · obtain rfl := Option.some.inj hs
            exact hwrite k' b _ hb rfl ⟨rfl, List.prefix_refl _⟩ (.inl rfl)
    · contradiction
  | lose c =>
    obtain rfl := Option.some.inj hs
    exact hsame rfl
  -- The three that write a model's text.
  | refine | apply | record => contradiction

/-- The steps that write a model's text: a row stays the same one with its turns, and a row that changes is
written under an unmoved revision. -/
theorem step_call (h : s.Inv) {act : Act} {c : Call} (hcall : act.call = some c) (hok : Settled s act)
    (hs : step s act = some s') {key : String} {a : Answer} (ha : s.answers key = some a) :
    ∃ a', s'.answers key = some a' ∧ a.Grows a' ∧ (a' ≠ a → Unmoved s c key a) := by
  have hsame : s'.answers = s.answers →
      ∃ a', s'.answers key = some a' ∧ a.Grows a' ∧ (a' ≠ a → Unmoved s c key a) := by
    intro heq
    rw [heq]
    exact ⟨a, ha, ⟨rfl, List.prefix_refl _⟩, fun hne => absurd rfl hne⟩
  -- The row under the key of the call matches it, and was written.
  have hwrite : ∀ b kind text model, c ∈ s.calls → s.answers c.key = some b → c.hold.matches b = true →
      s'.answers = (s.write c.key (b.drafted kind text model)).answers →
      ∃ a', s'.answers key = some a' ∧ a.Grows a' ∧ (a' ≠ a → Unmoved s c key a) := by
    intro b kind text model hc hb hmatch heq
    have hdrafted : b.Grows (b.drafted kind text model) := ⟨rfl, List.prefix_append _ _⟩
    obtain ⟨a', ha', hgrows, hmine, hother⟩ := grows_write hb hdrafted ha
    refine ⟨a', by rw [heq]; exact ha', hgrows, fun hne => ?_⟩
    by_cases hkey : key = c.key
    · subst hkey
      rw [(hmine rfl).1]
      exact h.unmoved hc hb hmatch
    · exact absurd (hother hkey) hne
  cases act with
  | refine d text model =>
    obtain rfl := Option.some.inj hcall
    simp only [step] at hs
    rw [Option.ite_none_right_eq_some] at hs
    obtain ⟨⟨hc, -⟩, hs⟩ := hs
    split at hs
    · next b hb =>
      split at hs
      · next hrev =>
        obtain rfl := Option.some.inj hs
        -- The condition says that the row is the one that was held.
        have hmatch : d.hold.matches b = true := by
          unfold Settled settled at hok
          dsimp only at hok
          rw [hb, Option.all_some, Bool.or_eq_true, decide_eq_true_eq, decide_eq_true_eq] at hok
          unfold Hold.matches
          rw [Bool.and_eq_true, decide_eq_true_eq, decide_eq_true_eq]
          exact ⟨hok.resolve_left fun hne => hne hrev, hrev⟩
        exact hwrite b "refine" text model hc hb hmatch rfl
      · obtain rfl := Option.some.inj hs
        exact hsame rfl
    · obtain rfl := Option.some.inj hs
      exact hsame rfl
  -- A text for a revision that was held is written where the row still matches it.
  | apply d text kind model =>
    obtain rfl := Option.some.inj hcall
    simp only [step] at hs
    rw [Option.ite_none_right_eq_some] at hs
    obtain ⟨⟨hc, -⟩, hs⟩ := hs
    obtain rfl := Option.some.inj hs
    rcases applyResult_cases d.key (some d.hold) text kind model (s := s) with heq | ⟨g, b, t, hg, hb, hm, heq⟩
    · exact hsame (congrArg State.answers heq)
    · obtain rfl := Option.some.inj hg
      exact hwrite b kind t model hc hb hm heq
  | record d text kind model =>
    obtain rfl := Option.some.inj hcall
    simp only [step] at hs
    split at hs
    · next k hby =>
      split at hs
      · next t hk =>
        rw [Option.ite_none_left_eq_some, not_not] at hs
        obtain ⟨hc, hs⟩ := hs
        split at hs
        · obtain rfl := Option.some.inj hs
          exact hsame rfl
        · obtain rfl := Option.some.inj hs
          -- The request of the task is the revision that the call went out under.
          obtain ⟨t', ht', hreq⟩ := h.owner d hc k hby
          obtain rfl := Option.some.inj (hk.symm.trans ht')
          rcases applyResult_cases d.key (t.requests d.key) text kind model (s := s) with
            heq | ⟨g, b, x, hg, hb, hm, heq⟩
          · have hrows : (applyResult s d.key (t.requests d.key) text kind model).1.answers = s.answers :=
              congrArg State.answers heq
            exact hsame hrows
          · obtain rfl := Option.some.inj (hreq.symm.trans hg)
            exact hwrite b kind x model hc hb hm heq
      · contradiction
    · contradiction
  -- No other step brings a model's text.
  | put | hold | add | delete | ensure | enqueue | reserve | lose => contradiction

end Writes

/-- In every run under the condition: a step that writes a model's text into a row does so only while nothing
has moved the row's key since the call's revision was taken of that row, the row holds the question that the
text was made from, and, for a sweep, no turn; no other step changes a draft but the person's own; a row keeps
its turns in order; and no revision is applied twice. -/
theorem model_draft_keeps_newer_intent {s : State} (h : Run step Settled State.empty s) :
    s.applied.Nodup ∧ ∀ act s', Settled s act → step s act = some s' → ∀ key a a',
      s.answers key = some a → s'.answers key = some a' →
      a.Grows a' ∧ (a'.draft ≠ a.draft → (∃ text, act = .put key text) ∨ ∃ c, act.call = some c) ∧
      ∀ c, act.call = some c → a' ≠ a → Unmoved s c key a := by
  have hinv := State.Inv.run h
  refine ⟨hinv.once, fun act s' hok hs key a a' ha ha' => ?_⟩
  cases hcall : act.call with
  | none =>
    obtain ⟨hgrows, hdraft⟩ := step_other hcall hs ha ha'
    refine ⟨hgrows, fun hne => .inl (hdraft.resolve_left hne), fun c hc => ?_⟩
    contradiction
  | some c =>
    obtain ⟨b, hb, hgrows, hwrite⟩ := step_call hinv hcall hok hs ha
    obtain rfl := Option.some.inj (ha'.symm.trans hb)
    refine ⟨hgrows, fun _ => .inr ⟨c, rfl⟩, fun d hd hne => ?_⟩
    obtain rfl := Option.some.inj hd
    exact hwrite hne

/-! ## Runs -/

/-- The revision that a call takes of a new row. -/
def firstHold (moves : ℕ) : Hold := ⟨0, 1, moves⟩

/-- A sweep has taken its revision when the person edits the answer; the sweep's text comes back and is not
written, a refinement's is. -/
theorem model_draft_keeps_newer_intent_edited :
    ∃ s s' : State, Run step Settled State.empty s ∧
      step s (.refine ⟨"why", ⟨0, 3, 4⟩, "Why us?", .refine⟩ "refined" "m") = some s' ∧
      (s.answers "why").bind Answer.draft = some "mine" ∧
      (s'.answers "why").bind Answer.draft = some "refined" ∧ s.applied.Nodup := by
  let acts : List Act := [.ensure none "why" "Why us?" true, .enqueue 0 .sweep, .reserve 0 "why" false,
    .put "why" "mine", .apply ⟨"why", firstHold 2, "Why us?", .task 0⟩ (some "swept") "sweep" "m",
    .hold "why" "shorter"]
  have hp : (runList (guarded step Settled) State.empty acts).any (fun s =>
      (step s (.refine ⟨"why", ⟨0, 3, 4⟩, "Why us?", .refine⟩ "refined" "m")).any fun s' =>
        decide ((s.answers "why").bind Answer.draft = some "mine") &&
        decide ((s'.answers "why").bind Answer.draft = some "refined")) = true := by
    decide +kernel
  obtain ⟨s, hrun, hs⟩ := exists_run_of_any hp
  rw [Option.any_eq_true] at hs
  obtain ⟨s', hstep, hs⟩ := hs
  rw [Bool.and_eq_true, decide_eq_true_eq, decide_eq_true_eq] at hs
  have hsettled := run_of_guarded hrun
  exact ⟨s, s', hsettled, hstep, hs.1, hs.2, (model_draft_keeps_newer_intent hsettled).1⟩

/-- A refinement has taken the first revision of a pasted question; the person deletes the question, adds it
again and writes an answer, which has the first revision too: the model's text overwrites it. -/
theorem readded_answer_overwritten :
    ¬ ∀ (s s' : State) (act : Act) (c : Call) (key : String) (a a' : Answer),
      Run step Always State.empty s → step s act = some s' → act.call = some c →
      s.answers key = some a → s'.answers key = some a' → a' ≠ a → Unmoved s c key a := by
  intro hall
  let c : Call := ⟨"why", firstHold 2, "Why us?", .refine⟩
  let acts : List Act := [.add "why" "Why us?" false, .hold "why" "shorter", .delete "why",
    .add "why" "Why us?" false, .put "why" "mine"]
  have hp : (runList step State.empty acts).any (fun s => (step s (.refine c "model" "m")).any fun s' =>
      (s.answers "why").any fun a => (s'.answers "why").any fun a' => decide (a' ≠ a) &&
        decide (s.moves "why" ≠ c.hold.moves)) = true := by
    decide +kernel
  obtain ⟨s, hrun, hs⟩ := exists_run_of_any hp
  simp only [Option.any_eq_true, Bool.and_eq_true, decide_eq_true_eq] at hs
  obtain ⟨s', hstep, a, ha, a', ha', hne, hmoves⟩ := hs
  exact hmoves (hall s s' _ c "why" a a' hrun hstep rfl ha ha' hne).moves

end JobScripts.Apply.Drafts
