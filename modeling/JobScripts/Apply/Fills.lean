import Mathlib.Data.List.Nodup
import Mathlib.Data.List.Infix
import JobScripts.Lib.Run

/-!
# The answers of an application fill

`api/apply/fill_answers.py` with `resolve_form`, `track_fill` and `fill_submitted` of `api/routers/apply.py`,
for one fill. A fill is a row whose `fields` column is one JSON array. Every operation locks the row, reads
the array and writes it back whole; the model call of a suggestion lies between its `reserve` and its
`complete`, and is bridged by the token that `reserve` leaves on each field.

Each call is a step. The log of a state is what the calls did to which key, newest first: it is not in the
row, and says what "since" means in `fill_keeps_edits_and_freezes`. Fields are only appended, so that a
position stands for one field (`Kept`), and nothing is written to a submitted fill (`Frozen`).
-/

namespace JobScripts.Apply.Fills

open Lib

/-! ## Fields -/

/-- An entry of `answer_history`. -/
inductive Entry
  /-- The person's edit. -/
  | edit (at_ : ℕ) (value feedback : String)
  /-- A generated answer, with the feedback that stood then. -/
  | generated (at_ : ℕ) (value feedback : String)

/-- A field as `resolve` returns it. -/
structure ResolvedField where
  key : String
  label : String
  kind : String
  required : Bool
  options : List String
  fact : Option String
  rung : String
  value : Option String
  hint : Option String

/-- A field of a stored fill; `none` and `[]` stand for a key that the object does not have. -/
structure Field extends ResolvedField where
  answer_revision : Option ℕ := none
  answer_generation : Option String := none
  review_value : Option String := none
  feedback : Option String := none
  answer_history : List Entry := []
  ai_answer : Option String := none
  never_ai : Bool := false
  final : Option (Option String) := none
  changed : Option (Option Bool) := none

/-- `field.get("answer_revision", 0)`: a field without a revision counts as of revision 0. -/
def Field.revision (f : Field) : ℕ := f.answer_revision.getD 0

/-- A row of `application_fills`. -/
structure Fill where
  url : String
  job_id : Option ℕ
  fields : List Field
  submitted_at : Option ℕ
  superseded_by : Option ℕ

/-- The position of `by_key[key]`, the last field with the key. -/
def byKey (key : String) : List Field → Option ℕ
  | [] => none
  | f :: fs =>
    match byKey key fs with
    | some i => some (i + 1)
    | none => if f.key = key then some 0 else none

/-- An update of `by_key[key]`, in place. -/
def atKey (key : String) (update : Field → Field) (fields : List Field) : List Field :=
  match byKey key fields with
  | some i => fields.modify i update
  | none => fields

/-- The token on `by_key[key]`. -/
def generationOf (fields : List Field) (key : String) : Option String :=
  (byKey key fields).bind fun i => fields[i]?.bind Field.answer_generation

/-- The revision of `by_key[key]`. -/
def revisionOf (fields : List Field) (key : String) : ℕ :=
  ((byKey key fields).bind fun i => fields[i]?.map Field.revision).getD 0

/-! ## The operations -/

/-- What a call is refused with. -/
inductive Refusal
  /-- 404 `NOT_FOUND`, "unknown field". -/
  | unknownField
  /-- 409 `FILL_SUBMITTED`, "This application was submitted and cannot be edited." -/
  | fillSubmitted
  /-- 409 `ANSWER_CHANGED`. -/
  | answerChanged
  /-- 409 `FILL_JOB_CHANGED`, "The request does not match this application." -/
  | fillJobChanged
  /-- 422 `INVALID_FIELDS`, "Fields must be unique and belong to this fill." -/
  | invalidFields

/-- What `edit` writes to its field. -/
def Field.edited (revision now : ℕ) (value feedback : String) (f : Field) : Field :=
  { f with
    answer_revision := some (revision + 1)
    answer_generation := none
    review_value := some value
    feedback := some feedback
    answer_history := f.answer_history ++ [.edit now value feedback] }

/-- `edit`: the fields to write. -/
def edit (row : Fill) (key : String) (revision now : ℕ) (value feedback : String) :
    Except Refusal (List Field) :=
  if row.submitted_at ≠ none then .error .fillSubmitted
  else
    match row.fields.findIdx? (fun f => f.key = key) with
    | none => .error .unknownField
    | some i =>
      if (row.fields[i]?.map Field.revision).getD 0 ≠ revision then .error .answerChanged
      else .ok (row.fields.modify i (Field.edited revision now value feedback))

/-- What `reserve` writes to its fields. -/
def Field.reserved (token : String) (f : Field) : Field := { f with answer_generation := some token }

/-- `reserve` with its new token: the fields to write. -/
def reserve (row : Fill) (token : String) (keys : List String) (job_id expected_revision : Option ℕ) :
    Except Refusal (List Field) :=
  if row.submitted_at ≠ none then .error .fillSubmitted
  else if row.job_id ≠ job_id then .error .fillJobChanged
  else if ¬ keys.Nodup ∨ keys.any (fun k => (byKey k row.fields).isNone) = true then .error .invalidFields
  else if expected_revision.any (fun r => keys.any fun k => revisionOf row.fields k ≠ r) = true then
    .error .answerChanged
  else .ok (keys.foldl (fun fields key => atKey key (Field.reserved token) fields) row.fields)

/-- What `complete` is called with besides its token and keys. -/
structure Outcome where
  answers : String → Option String
  raw : String → Option String
  skipped : List String
  review_only : Bool

/-- What `complete` writes to its fields. -/
def Field.completed (o : Outcome) (now : ℕ) (f : Field) : Field :=
  let f := { f with answer_generation := none }
  let f := match o.raw f.key with
    | some text => { f with
        ai_answer := some text
        answer_history := f.answer_history ++ [Entry.generated now text (f.feedback.getD "")] }
    | none => f
  let f := match o.answers f.key with
    | some text =>
      if o.review_only then { f with review_value := some text }
      else { f with rung := "ai", value := some text }
    | none => f
  let f := if o.skipped.contains f.key then { f with never_ai := true } else f
  { f with answer_revision := some (f.revision + 1) }

/-- `complete`: the fields to write, `none` when it returns False. -/
def complete (row : Fill) (token : String) (keys : List String) (o : Outcome) (now : ℕ) :
    Option (List Field) :=
  if row.submitted_at ≠ none ∨ keys.any (fun k => generationOf row.fields k ≠ some token) = true then none
  else some (keys.foldl (fun fields key => atKey key (Field.completed o now) fields) row.fields)

/-- The fields of `resolve_form` for a fill that is open already. -/
def merge (fields : List Field) (request : List ResolvedField) : List Field :=
  fields ++ (request.filter fun f => !(fields.map (·.key)).contains f.key).map fun f => { toResolvedField := f }

/-- `_resume_id`: the resume that a file field was filled with, if its value is a number. -/
def Field.resumeId (f : Field) : Option ℕ :=
  let value := f.value.getD ""
  if f.kind ≠ "file" ∨ f.rung ≠ "resume" ∨ value = "" ∨ !value.all Char.isDigit then none else value.toNat?

/-- `changed`, for an entry with its final. -/
def Field.isChanged (names : ℕ → Option String) (f : Field) (final : Option String) : Option Bool :=
  match f.resumeId with
  | some rid =>
    match names rid, final with
    | some name, some text => some (text != name)
    | _, _ => none
  | none => some (final.getD "" != f.value.getD "")

/-- The entry that `fill_submitted` writes for a field. -/
def Field.submitted (finals : String → Option (Option String)) (names : ℕ → Option String) (f : Field) :
    Field :=
  let final := (finals f.key).getD f.value
  { f with final := some final, changed := some (f.isChanged names final) }

/-- The end of `fill_submitted` for the fill that it records on. -/
def submit (row : Fill) (finals : String → Option (Option String)) (names : ℕ → Option String) (now : ℕ) :
    Fill :=
  if row.submitted_at ≠ none then row
  else { row with fields := row.fields.map (Field.submitted finals names), submitted_at := some now }

/-! ## Runs -/

/-- What a call did to the keys of the fill. -/
inductive Touch
  | edited (key value feedback : String)
  | reserved (token : String) (keys : List String)
  | completed (keys : List String)
  /-- A form with these keys was resolved into the fill. -/
  | requested (keys : List String)

/-- The call edited, reserved or completed the key. -/
def Touch.touches (key : String) : Touch → Bool
  | .edited k _ _ => k = key
  | .reserved _ keys | .completed keys => keys.contains key
  | .requested _ => false

/-- The token is one that a call has reserved. -/
def Touch.hasToken (token : String) : Touch → Bool
  | .reserved t _ => t = token
  | _ => false

/-- A fill, and what was done to it, newest first. -/
structure State where
  fill : Fill
  log : List Touch

/-- The calls. -/
inductive Act
  | edit (key : String) (revision now : ℕ) (value feedback : String)
  /-- `uuid4` gives the token. -/
  | reserve (token : String) (keys : List String) (job_id expected_revision : Option ℕ)
  | complete (token : String) (keys : List String) (o : Outcome) (now : ℕ)
  /-- `resolve_form` with the id of the fill. -/
  | resolve (url : String) (request : List ResolvedField)
  /-- `resolve_form` with `resume_open`, when the fill is the newest one of the query. -/
  | resume (url : String) (job_id : Option ℕ) (request : List ResolvedField)
  /-- `track_fill`, with the posting that it saves. -/
  | track (job_id : ℕ)
  /-- `fill_submitted` of the fill, with the filled sibling that `target` finds if the fill is empty. -/
  | submit (sibling : Option ℕ) (finals : String → Option (Option String)) (names : ℕ → Option String)
      (now : ℕ)
  /-- `fill_submitted` of an empty fill that moves to this one. -/
  | submitFrom (finals : String → Option (Option String)) (names : ℕ → Option String) (now : ℕ)

/-- The fields are written, and the call is logged. -/
def State.write (s : State) (fields : List Field) (t : Touch) : State :=
  ⟨{ s.fill with fields := fields }, t :: s.log⟩

/-- `fields @> ...`: the fill has every field of the request. -/
def holds (fields : List Field) (request : List ResolvedField) : Bool :=
  request.all fun r => fields.any fun f => f.key = r.key && f.label = r.label && f.kind = r.kind

/-- One call. A refused call ends its transaction without a write. -/
def step (s : State) : Act → Option State
  | .edit key revision now value feedback =>
    match edit s.fill key revision now value feedback with
    | .ok fields => some (s.write fields (.edited key value feedback))
    | .error _ => some s
  | .reserve token keys job_id expected_revision =>
    if s.log.any (Touch.hasToken token) then none
    else
      match reserve s.fill token keys job_id expected_revision with
      | .ok fields => some (s.write fields (.reserved token keys))
      | .error _ => some s
  | .complete token keys o now =>
    match complete s.fill token keys o now with
    | some fields => some (s.write fields (.completed keys))
    | none => some s
  | .resolve url request =>
    if s.fill.submitted_at = none ∧ s.fill.superseded_by = none ∧ s.fill.url = url then
      some (s.write (merge s.fill.fields request) (.requested (request.map (·.key))))
    else some s
  | .resume url job_id request =>
    if s.fill.submitted_at = none ∧ s.fill.url = url ∧ s.fill.job_id = job_id ∧ request ≠ [] ∧
        holds s.fill.fields request = true then
      some (s.write (merge s.fill.fields request) (.requested (request.map (·.key))))
    else some s
  | .track job_id =>
    if s.fill.submitted_at = none ∧ s.fill.superseded_by = none then
      some { s with fill := { s.fill with job_id := some job_id } }
    else some s
  | .submit sibling finals names now =>
    if s.fill.superseded_by ≠ none then some s
    else if s.fill.submitted_at ≠ none ∨ s.fill.fields ≠ [] ∨ sibling = none then
      some { s with fill := submit s.fill finals names now }
    else some { s with fill := { s.fill with superseded_by := sibling } }
  | .submitFrom finals names now => some { s with fill := submit s.fill finals names now }

/-- A fill as `resolve_form` opens it. -/
def opened (url : String) (job_id : Option ℕ) (request : List ResolvedField) : State :=
  ⟨⟨url, job_id, request.map fun f => { toResolvedField := f }, none, none⟩, [.requested (request.map (·.key))]⟩

/-! ## What no call loses -/

/-- A field later: the same one, its revision not lower, its history longer at its end. -/
structure Field.Kept (f f' : Field) : Prop where
  key : f'.key = f.key
  revision : f.revision ≤ f'.revision
  history : f.answer_history <+: f'.answer_history

/-- The fields later: each at its place. -/
def Kept (fields fields' : List Field) : Prop :=
  ∀ (i : ℕ) (f : Field), fields[i]? = some f → ∃ f', fields'[i]? = some f' ∧ f.Kept f'

/-- A submitted fill later. -/
def Frozen (row row' : Fill) : Prop :=
  row.submitted_at ≠ none →
    row'.fields = row.fields ∧ row'.submitted_at = row.submitted_at ∧ row'.job_id = row.job_id

/-- Every form that was resolved into the fill named each key once. -/
def State.Unique (s : State) : Prop := ∀ keys, Touch.requested keys ∈ s.log → keys.Nodup

section Kept

variable {fields fields' : List Field} {f : Field} {key : String}

/-- A field is kept as it is. -/
theorem Field.Kept.refl (f : Field) : f.Kept f := ⟨rfl, le_refl _, List.prefix_refl _⟩

/-- A field is kept over two calls. -/
theorem Field.Kept.trans {f f' f'' : Field} (h : f.Kept f') (h' : f'.Kept f'') : f.Kept f'' :=
  ⟨h'.key.trans h.key, h.revision.trans h'.revision, h.history.trans h'.history⟩

/-- The fields are kept as they are. -/
theorem Kept.refl (fields : List Field) : Kept fields fields := fun _ f hf => ⟨f, hf, .refl f⟩

/-- The fields are kept over two calls. -/
theorem Kept.trans {fields'' : List Field} (h : Kept fields fields') (h' : Kept fields' fields'') :
    Kept fields fields'' := by
  intro i f hf
  obtain ⟨f', hf', hkept⟩ := h i f hf
  obtain ⟨f'', hf'', hkept'⟩ := h' i f' hf'
  exact ⟨f'', hf'', hkept.trans hkept'⟩

/-- An update that keeps its field, at one place. -/
theorem kept_modify {update : Field → Field} {i : ℕ}
    (h : ∀ f, fields[i]? = some f → f.Kept (update f)) : Kept fields (fields.modify i update) := by
  intro j f hf
  rw [List.getElem?_modify, hf]
  by_cases hij : i = j
  · subst hij
    exact ⟨update f, by rw [Option.map_eq_map, Option.map_some, if_pos rfl], h f hf⟩
  · exact ⟨f, by rw [Option.map_eq_map, Option.map_some, if_neg hij], .refl f⟩

/-- An update that keeps every field, at a key. -/
theorem kept_atKey {update : Field → Field} (h : ∀ f : Field, f.Kept (update f)) :
    Kept fields (atKey key update fields) := by
  unfold atKey
  split
  · exact kept_modify fun f _ => h f
  · exact .refl fields

/-- An update that keeps every field, at each of the keys. -/
theorem kept_foldl {update : Field → Field} (h : ∀ f : Field, f.Kept (update f)) (keys : List String) :
    Kept fields (keys.foldl (fun fields key => atKey key update fields) fields) := by
  induction keys generalizing fields with
  | nil => exact .refl fields
  | cons key keys ih => exact (kept_atKey h).trans ih

/-- `reserve` keeps a field. -/
theorem kept_reserved (token : String) (f : Field) : f.Kept (f.reserved token) :=
  ⟨rfl, le_refl _, List.prefix_refl _⟩

/-- `complete` raises the revision of a field by one. -/
theorem completed_revision (o : Outcome) (now : ℕ) (f : Field) :
    (f.completed o now).revision = f.revision + 1 := by
  unfold Field.completed Field.revision
  dsimp only
  repeat' split
  all_goals rfl

/-- `complete` keeps a field. -/
theorem kept_completed (o : Outcome) (now : ℕ) (f : Field) : f.Kept (f.completed o now) := by
  refine ⟨?_, ?_, ?_⟩
  · unfold Field.completed
    dsimp only
    repeat' split
    all_goals rfl
  · rw [completed_revision]
    omega
  · unfold Field.completed
    dsimp only
    repeat' split
    all_goals first
      | exact List.prefix_refl _
      | exact List.prefix_append _ _

/-- `fill_submitted` keeps a field. -/
theorem kept_submitted (finals : String → Option (Option String)) (names : ℕ → Option String) (f : Field) :
    f.Kept (f.submitted finals names) :=
  ⟨rfl, le_refl _, List.prefix_refl _⟩

/-- Fields that are kept one by one. -/
theorem kept_map {update : Field → Field} (h : ∀ f : Field, f.Kept (update f)) :
    Kept fields (fields.map update) := by
  intro i f hf
  exact ⟨update f, by rw [List.getElem?_map, hf, Option.map_some], h f⟩

/-- Appended fields keep those before. -/
theorem kept_append (rest : List Field) : Kept fields (fields ++ rest) := by
  intro i f hf
  have hi : i < fields.length := (List.getElem?_eq_some_iff.mp hf).1
  exact ⟨f, by rw [List.getElem?_append_left hi, hf], .refl f⟩

/-- `edit` keeps the fields, and raises the revision of its own. -/
theorem edit_ok {row : Fill} {revision now : ℕ} {value feedback : String}
    (h : edit row key revision now value feedback = .ok fields') :
    row.submitted_at = none ∧ ∃ i f, row.fields[i]? = some f ∧ f.key = key ∧ f.revision = revision ∧
      fields' = row.fields.modify i (Field.edited revision now value feedback) := by
  unfold edit at h
  split at h
  · contradiction
  · next hsub =>
    rw [not_not] at hsub
    split at h
    · contradiction
    · next i hi =>
      split at h
      · contradiction
      · next hrev =>
        rw [not_not] at hrev
        obtain ⟨hlt, hkey, -⟩ := List.findIdx?_eq_some_iff_getElem.mp hi
        rw [List.getElem?_eq_getElem hlt, Option.map_some, Option.getD_some] at hrev
        exact ⟨hsub, i, _, List.getElem?_eq_getElem hlt, of_decide_eq_true hkey, hrev,
          (Except.ok.inj h).symm⟩

/-- `edit` keeps the fields. -/
theorem edit_kept {row : Fill} {revision now : ℕ} {value feedback : String}
    (h : edit row key revision now value feedback = .ok fields') : Kept row.fields fields' := by
  obtain ⟨-, i, f, hf, -, hrev, rfl⟩ := edit_ok h
  refine kept_modify fun f' hf' => ?_
  obtain rfl : f = f' := Option.some.inj (hf.symm.trans hf')
  refine ⟨rfl, ?_, List.prefix_append _ _⟩
  have hnew : (Field.edited revision now value feedback f).revision = revision + 1 := rfl
  omega

/-- `reserve` goes through. -/
theorem reserve_ok {row : Fill} {token : String} {keys : List String} {job_id expected : Option ℕ}
    (h : reserve row token keys job_id expected = .ok fields') :
    row.submitted_at = none ∧ keys.Nodup ∧ (∀ k ∈ keys, ∃ i, byKey k row.fields = some i) ∧
      fields' = keys.foldl (fun fields key => atKey key (Field.reserved token) fields) row.fields := by
  unfold reserve at h
  split at h
  · contradiction
  · next hsub =>
    split at h
    · contradiction
    · split at h
      · contradiction
      · next hkeys =>
        rw [not_or, not_not, List.any_eq_true] at hkeys
        split at h
        · contradiction
        · refine ⟨not_not.mp hsub, hkeys.1, fun k hk => ?_, (Except.ok.inj h).symm⟩
          by_contra hnone
          rw [← Option.isSome_iff_exists, Bool.not_eq_true, Option.isSome_eq_false_iff] at hnone
          exact hkeys.2 ⟨k, hk, hnone⟩

/-- `complete` takes effect. -/
theorem complete_some {row : Fill} {token : String} {keys : List String} {o : Outcome} {now : ℕ}
    (h : complete row token keys o now = some fields') :
    row.submitted_at = none ∧ (∀ k ∈ keys, generationOf row.fields k = some token) ∧
      fields' = keys.foldl (fun fields key => atKey key (Field.completed o now) fields) row.fields := by
  unfold complete at h
  rw [Option.ite_none_left_eq_some, not_or, not_not, List.any_eq_true] at h
  obtain ⟨⟨hsub, hkeys⟩, h⟩ := h
  refine ⟨hsub, fun k hk => ?_, (Option.some.inj h).symm⟩
  by_contra hne
  exact hkeys ⟨k, hk, decide_eq_true hne⟩

/-- `fill_submitted` keeps the fields, and nothing of a submitted fill changes. -/
theorem submit_kept (row : Fill) (finals : String → Option (Option String)) (names : ℕ → Option String)
    (now : ℕ) : Kept row.fields (submit row finals names now).fields ∧
      Frozen row (submit row finals names now) := by
  unfold submit
  split
  · exact ⟨.refl _, fun _ => ⟨rfl, rfl, rfl⟩⟩
  · next hsub => exact ⟨kept_map (kept_submitted finals names), fun h => absurd h hsub⟩

end Kept

/-- A call keeps the fields, and writes nothing to a submitted fill. -/
theorem step_kept {s s' : State} {a : Act} (h : step s a = some s') :
    Kept s.fill.fields s'.fill.fields ∧ Frozen s.fill s'.fill := by
  have hsame : Kept s.fill.fields s.fill.fields ∧ Frozen s.fill s.fill :=
    ⟨.refl _, fun _ => ⟨rfl, rfl, rfl⟩⟩
  cases a with
  | edit key revision now value feedback =>
    simp only [step] at h
    split at h
    · next fields hok =>
      obtain rfl := Option.some.inj h
      exact ⟨edit_kept hok, fun hsub => absurd (edit_ok hok).1 hsub⟩
    · obtain rfl := Option.some.inj h
      exact hsame
  | reserve token keys job_id expected =>
    simp only [step] at h
    split at h
    · contradiction
    · split at h
      · next fields hok =>
        obtain rfl := Option.some.inj h
        obtain ⟨hopen, -, -, rfl⟩ := reserve_ok hok
        exact ⟨kept_foldl (kept_reserved token) keys, fun hsub => absurd hopen hsub⟩
      · obtain rfl := Option.some.inj h
        exact hsame
  | complete token keys o now =>
    simp only [step] at h
    split at h
    · next fields hok =>
      obtain rfl := Option.some.inj h
      obtain ⟨hopen, -, rfl⟩ := complete_some hok
      exact ⟨kept_foldl (kept_completed o now) keys, fun hsub => absurd hopen hsub⟩
    · obtain rfl := Option.some.inj h
      exact hsame
  | resolve url request | resume url job_id request =>
    simp only [step] at h
    split at h
    · next hopen =>
      obtain rfl := Option.some.inj h
      exact ⟨kept_append _, fun hsub => absurd hopen.1 hsub⟩
    · obtain rfl := Option.some.inj h
      exact hsame
  | track job_id =>
    simp only [step] at h
    split at h
    · next hopen =>
      obtain rfl := Option.some.inj h
      exact ⟨.refl _, fun hsub => absurd hopen.1 hsub⟩
    · obtain rfl := Option.some.inj h
      exact hsame
  | submit sibling finals names now =>
    simp only [step] at h
    split at h
    · obtain rfl := Option.some.inj h
      exact hsame
    · split at h
      · obtain rfl := Option.some.inj h
        exact submit_kept s.fill finals names now
      · obtain rfl := Option.some.inj h
        exact ⟨.refl _, fun _ => ⟨rfl, rfl, rfl⟩⟩
  | submitFrom finals names now =>
    obtain rfl := Option.some.inj h
    exact submit_kept s.fill finals names now

/-- Any number of calls keep the fields, and write nothing to a submitted fill. -/
theorem run_kept {s s' : State} (h : Run step Always s s') :
    Kept s.fill.fields s'.fill.fields ∧ Frozen s.fill s'.fill := by
  induction h with
  | start => exact ⟨.refl _, fun _ => ⟨rfl, rfl, rfl⟩⟩
  | next a _ _ hs ih =>
    obtain ⟨hkept, hfrozen⟩ := step_kept hs
    refine ⟨ih.1.trans hkept, fun hsub => ?_⟩
    obtain ⟨hfields, hat, hjob⟩ := ih.2 hsub
    obtain ⟨hfields', hat', hjob'⟩ := hfrozen (hat ▸ hsub)
    exact ⟨hfields'.trans hfields, hat'.trans hat, hjob'.trans hjob⟩

/-! ## Revisions rise -/

section Revisions

variable {fields : List Field} {key : String} {update : Field → Field}

/-- The keys of the fields decide where a key is. -/
theorem byKey_congr {fields' : List Field} (h : fields'.map (·.key) = fields.map (·.key)) :
    byKey key fields' = byKey key fields := by
  induction fields generalizing fields' with
  | nil =>
    rw [List.map_nil, List.map_eq_nil_iff] at h
    rw [h]
  | cons f fs ih =>
    obtain ⟨f', fs', rfl, hf, hfs⟩ := List.map_eq_cons_iff.mp h
    unfold byKey
    rw [ih hfs, hf]

/-- An update that keeps the key of its field, at one place. -/
theorem map_key_modify (h : ∀ f, (update f).key = f.key) (i : ℕ) :
    (fields.modify i update).map (·.key) = fields.map (·.key) := by
  refine List.ext_getElem? fun j => ?_
  rw [List.getElem?_map, List.getElem?_map, List.getElem?_modify]
  cases fields[j]? with
  | none => rfl
  | some f =>
    rw [Option.map_eq_map, Option.map_some, Option.map_some, Option.map_some]
    split
    · exact congrArg some (h f)
    · rfl

/-- An update that keeps the key of its field, at a key. -/
theorem map_key_atKey (h : ∀ f, (update f).key = f.key) :
    (atKey key update fields).map (·.key) = fields.map (·.key) := by
  unfold atKey
  split
  · exact map_key_modify h _
  · rfl

/-- An update that raises the revision of its field raises it at each of its keys. -/
theorem foldl_revision (hkept : ∀ f : Field, f.Kept (update f))
    (hrise : ∀ f : Field, f.revision < (update f).revision) {keys : List String} (hkey : key ∈ keys)
    {i : ℕ} {f : Field} (hi : byKey key fields = some i) (hf : fields[i]? = some f) :
    ∃ f', (keys.foldl (fun fields key => atKey key update fields) fields)[i]? = some f' ∧
      f.revision < f'.revision := by
  induction keys generalizing fields f with
  | nil => contradiction
  | cons k keys ih =>
    rw [List.foldl_cons]
    by_cases hk : k = key
    · -- The field rises here, and no later update lowers it.
      subst hk
      have hrisen : (atKey k update fields)[i]? = some (update f) := by
        unfold atKey
        rw [hi]
        dsimp only
        rw [List.getElem?_modify, hf, Option.map_eq_map, Option.map_some, if_pos rfl]
      obtain ⟨f', hf', hle⟩ := kept_foldl hkept keys i (update f) hrisen
      exact ⟨f', hf', (hrise f).trans_le hle.revision⟩
    · have hmem : key ∈ keys := (List.mem_cons.mp hkey).resolve_left fun heq => hk heq.symm
      have hat : Kept fields (atKey k update fields) := kept_atKey hkept
      obtain ⟨f₁, hf₁, hle⟩ := hat i f hf
      have hi₁ : byKey key (atKey k update fields) = some i := by
        rw [byKey_congr (map_key_atKey fun f => (hkept f).key)]
        exact hi
      obtain ⟨f', hf', hlt⟩ := ih hmem hi₁ hf₁
      exact ⟨f', hf', hle.revision.trans_lt hlt⟩

end Revisions

/-! ## Fills whose keys are unique -/

section Unique

variable {fields : List Field} {key : String} {update : Field → Field}

/-- The position of a key is that of a field with it. -/
theorem byKey_spec {i : ℕ} (h : byKey key fields = some i) :
    ∃ f, fields[i]? = some f ∧ f.key = key := by
  induction fields generalizing i with
  | nil => contradiction
  | cons f fs ih =>
    unfold byKey at h
    split at h
    · next j hj =>
      obtain rfl := Option.some.inj h
      obtain ⟨f', hf', hkey⟩ := ih hj
      exact ⟨f', hf', hkey⟩
    · rw [Option.ite_none_right_eq_some] at h
      obtain ⟨hkey, h⟩ := h
      obtain rfl := Option.some.inj h
      exact ⟨f, rfl, hkey⟩

/-- A key with a field has a position. -/
theorem byKey_of_mem {f : Field} (h : f ∈ fields) : ∃ i, byKey f.key fields = some i := by
  induction fields with
  | nil => contradiction
  | cons f' fs ih =>
    unfold byKey
    rcases List.mem_cons.mp h with rfl | hmem
    · cases byKey f.key fs with
      | none => exact ⟨0, if_pos rfl⟩
      | some i => exact ⟨i + 1, rfl⟩
    · obtain ⟨i, hi⟩ := ih hmem
      rw [hi]
      exact ⟨i + 1, rfl⟩

/-- Two places with one key are one place. -/
theorem place_unique (hnodup : (fields.map (·.key)).Nodup) {i j : ℕ} {f f' : Field}
    (hf : fields[i]? = some f) (hf' : fields[j]? = some f') (hkey : f.key = f'.key) : i = j := by
  obtain ⟨hi, rfl⟩ := List.getElem?_eq_some_iff.mp hf
  obtain ⟨hj, rfl⟩ := List.getElem?_eq_some_iff.mp hf'
  have hi' : i < (fields.map (·.key)).length := by rwa [List.length_map]
  have hj' : j < (fields.map (·.key)).length := by rwa [List.length_map]
  have heq : (fields.map (·.key))[i] = (fields.map (·.key))[j] := by
    rw [List.getElem_map, List.getElem_map]
    exact hkey
  exact hnodup.getElem_inj_iff.mp heq

/-- An update at the place of a key is an update of the fields with the key. -/
theorem modify_eq_map (hnodup : (fields.map (·.key)).Nodup) {i : ℕ} {f : Field}
    (hf : fields[i]? = some f) (hkey : f.key = key) :
    fields.modify i update = fields.map fun f => if f.key = key then update f else f := by
  refine List.ext_getElem? fun j => ?_
  rw [List.getElem?_modify, List.getElem?_map]
  cases hj : fields[j]? with
  | none => rfl
  | some f' =>
    rw [Option.map_eq_map, Option.map_some, Option.map_some]
    by_cases hij : i = j
    · subst hij
      obtain rfl := Option.some.inj (hf.symm.trans hj)
      rw [if_pos rfl, if_pos hkey]
    · have hne : f'.key ≠ key := fun heq => hij (place_unique hnodup hf hj (hkey.trans heq.symm))
      rw [if_neg hij, if_neg hne]

/-- An update at a key is an update of the fields with the key. -/
theorem atKey_eq_map (hnodup : (fields.map (·.key)).Nodup) :
    atKey key update fields = fields.map fun f => if f.key = key then update f else f := by
  unfold atKey
  split
  · next i hi =>
    obtain ⟨f, hf, hkey⟩ := byKey_spec hi
    exact modify_eq_map hnodup hf hkey
  · next hnone =>
    refine (List.map_id' fields).symm.trans (List.map_congr_left fun f hf => ?_)
    have hne : f.key ≠ key := by
      rintro rfl
      obtain ⟨i, hi⟩ := byKey_of_mem hf
      rw [hnone] at hi
      contradiction
    rw [if_neg hne]

/-- The updates of one field at the keys, in order. -/
def Field.updates (update : Field → Field) (keys : List String) (f : Field) : Field :=
  keys.foldl (fun f key => if f.key = key then update f else f) f

/-- Updates at keys are updates of each field. -/
theorem foldl_eq_map (hkept : ∀ f, (update f).key = f.key) (hnodup : (fields.map (·.key)).Nodup)
    (keys : List String) :
    keys.foldl (fun fields key => atKey key update fields) fields =
      fields.map (Field.updates update keys) := by
  induction keys generalizing fields with
  | nil => exact (List.map_id' fields).symm
  | cons k keys ih =>
    have hnodup' : ((atKey k update fields).map (·.key)).Nodup := by
      rw [map_key_atKey hkept]
      exact hnodup
    rw [List.foldl_cons, ih hnodup', atKey_eq_map hnodup, List.map_map]
    rfl

/-- A field whose key is not among the keys stays as it is. -/
theorem updates_of_not_mem {keys : List String} {f : Field} (h : f.key ∉ keys) :
    Field.updates update keys f = f := by
  induction keys with
  | nil => rfl
  | cons k keys ih =>
    rw [List.mem_cons, not_or] at h
    unfold Field.updates
    rw [List.foldl_cons, if_neg h.1]
    exact ih h.2

/-- What every update brings about holds of a field whose key is among the keys. -/
theorem updates_of_mem {P : Field → Prop} (hu : ∀ f, P (update f)) {keys : List String} {f : Field}
    (h : f.key ∈ keys) : P (Field.updates update keys f) := by
  induction keys generalizing f with
  | nil => contradiction
  | cons k keys ih =>
    unfold Field.updates
    rw [List.foldl_cons]
    by_cases hk : f.key = k
    · rw [if_pos hk]
      by_cases hmem : (update f).key ∈ keys
      · exact ih hmem
      · have heq : Field.updates update keys (update f) = update f := updates_of_not_mem hmem
        have hend : P (Field.updates update keys (update f)) := by
          rw [heq]
          exact hu f
        exact hend
    · rw [if_neg hk]
      exact ih ((List.mem_cons.mp h).resolve_left hk)

/-- What every update leaves alone is left alone. -/
theorem updates_same {A : Type} {g : Field → A} (hu : ∀ f, g (update f) = g f) (keys : List String)
    (f : Field) : g (Field.updates update keys f) = g f := by
  induction keys generalizing f with
  | nil => rfl
  | cons k keys ih =>
    unfold Field.updates
    rw [List.foldl_cons]
    split
    · exact (ih (update f)).trans (hu f)
    · exact ih f

end Unique

/-! ## What the log says -/

/-- The token that the newest call on a key left, if it was a `reserve`. -/
def lastToken (log : List Touch) (key : String) : Option String :=
  match log.find? (Touch.touches key) with
  | some (.reserved token _) => some token
  | _ => none

/-- The value and feedback of an edit in a history. -/
def Entry.asEdit : Entry → Option (String × String)
  | .edit _ value feedback => some (value, feedback)
  | .generated .. => none

/-- The value and feedback of an edit of a key. -/
def Touch.editOf (key : String) : Touch → Option (String × String)
  | .edited k value feedback => if k = key then some (value, feedback) else none
  | _ => none

/-- The field holds the token of the newest call on its key, and its history every edit of it in order. -/
structure Field.Fits (log : List Touch) (f : Field) : Prop where
  generation : f.answer_generation = lastToken log f.key
  edits : f.answer_history.filterMap Entry.asEdit = (log.filterMap (Touch.editOf f.key)).reverse

/-- The invariant of a fill whose keys are unique: every field fits the log, and only keys of the fill were
touched. -/
structure State.Inv (s : State) : Prop where
  nodup : (s.fill.fields.map (·.key)).Nodup
  fits : ∀ f ∈ s.fill.fields, f.Fits s.log
  known : ∀ t ∈ s.log, ∀ key, t.touches key = true → ∃ f ∈ s.fill.fields, f.key = key

section Invariant

variable {s s' : State}

/-- A call that does not touch the key of a field leaves its part of the log alone. -/
theorem Field.Fits.other {f : Field} {log : List Touch} {t : Touch} (h : f.Fits log)
    (ht : t.touches f.key = false) (hedit : t.editOf f.key = none) : f.Fits (t :: log) := by
  refine ⟨?_, ?_⟩
  · unfold lastToken
    rw [List.find?_cons_of_neg (by rw [ht]; exact Bool.false_ne_true)]
    exact h.generation
  · rw [List.filterMap_cons_none hedit]
    exact h.edits

/-- A call that does not touch a key does not edit it. -/
theorem editOf_of_not_touches {key : String} {t : Touch} (h : t.touches key = false) :
    t.editOf key = none := by
  cases t with
  | edited k value feedback => exact if_neg (of_decide_eq_false h)
  | reserved | completed | requested => rfl

/-- Updates that a call logs: the fields that it touches fit the new log, and the others stay. -/
theorem State.Inv.update (h : s.Inv) {t : Touch} {change : Field → Field}
    (hkey : ∀ f, (change f).key = f.key)
    (hmine : ∀ f ∈ s.fill.fields, t.touches f.key = true → (change f).Fits (t :: s.log))
    (hother : ∀ f, t.touches f.key = false → change f = f)
    (hknown : ∀ key, t.touches key = true → ∃ f ∈ s.fill.fields, f.key = key) :
    (s.write (s.fill.fields.map change) t).Inv := by
  have hkeys : (s.fill.fields.map change).map (·.key) = s.fill.fields.map (·.key) := by
    rw [List.map_map]
    exact List.map_congr_left fun f _ => hkey f
  refine ⟨?_, fun f' hf' => ?_, fun t' ht' key htouch => ?_⟩
  · have hnodup := h.nodup
    rw [← hkeys] at hnodup
    exact hnodup
  · obtain ⟨f, hf, rfl⟩ := List.mem_map.mp hf'
    cases htouch : t.touches f.key with
    | true => exact hmine f hf htouch
    | false =>
      rw [hother f htouch]
      exact (h.fits f hf).other htouch (editOf_of_not_touches htouch)
  · have hold : ∃ f ∈ s.fill.fields, f.key = key := by
      rcases List.mem_cons.mp ht' with rfl | hmem
      · exact hknown key htouch
      · exact h.known t' hmem key htouch
    obtain ⟨f, hf, rfl⟩ := hold
    exact ⟨change f, List.mem_map.mpr ⟨f, hf, rfl⟩, hkey f⟩

/-- Fields that change in nothing that the log knows. -/
theorem State.Inv.fields (h : s.Inv) {change : Field → Field} {row : Fill}
    (hrow : row.fields = s.fill.fields.map change) (hkey : ∀ f, (change f).key = f.key)
    (hgen : ∀ f, (change f).answer_generation = f.answer_generation)
    (hhist : ∀ f, (change f).answer_history = f.answer_history) :
    State.Inv ⟨row, s.log⟩ := by
  have hkeys : row.fields.map (·.key) = s.fill.fields.map (·.key) := by
    rw [hrow, List.map_map]
    exact List.map_congr_left fun f _ => hkey f
  refine ⟨?_, fun f' hf' => ?_, fun t ht key htouch => ?_⟩
  · rw [hkeys]
    exact h.nodup
  · dsimp only at hf'
    rw [hrow] at hf'
    obtain ⟨f, hf, rfl⟩ := List.mem_map.mp hf'
    obtain ⟨hg, he⟩ := h.fits f hf
    refine ⟨?_, ?_⟩
    · rw [hgen, hkey]
      exact hg
    · rw [hhist, hkey]
      exact he
  · obtain ⟨f, hf, rfl⟩ := h.known t ht key htouch
    refine ⟨change f, ?_, hkey f⟩
    dsimp only
    rw [hrow]
    exact List.mem_map.mpr ⟨f, hf, rfl⟩

/-- New fields join. -/
theorem State.Inv.merge (h : s.Inv) {request : List ResolvedField} (hreq : (request.map (·.key)).Nodup) :
    (s.write (merge s.fill.fields request) (.requested (request.map (·.key)))).Inv := by
  have hfresh : ∀ r ∈ request.filter (fun f => !(s.fill.fields.map (·.key)).contains f.key),
      r.key ∉ s.fill.fields.map (·.key) := by
    intro r hr hmem
    have hno := (List.mem_filter.mp hr).2
    rw [Bool.not_eq_true', List.contains_eq_mem, decide_eq_false_iff_not] at hno
    exact hno hmem
  refine ⟨?_, fun f hf => ?_, fun t ht key htouch => ?_⟩
  · have hkeys : (Fills.merge s.fill.fields request).map (·.key) = s.fill.fields.map (·.key) ++
        (request.filter fun f => !(s.fill.fields.map (·.key)).contains f.key).map (·.key) := by
      unfold Fills.merge
      rw [List.map_append, List.map_map]
      rfl
    have happ : (s.fill.fields.map (·.key) ++
        (request.filter fun f => !(s.fill.fields.map (·.key)).contains f.key).map (·.key)).Nodup := by
      rw [List.nodup_append']
      refine ⟨h.nodup, hreq.sublist (List.filter_sublist.map _), fun key hold hnew => ?_⟩
      obtain ⟨r, hr, rfl⟩ := List.mem_map.mp hnew
      exact hfresh r hr hold
    rw [← hkeys] at happ
    exact happ
  · rcases List.mem_append.mp hf with hold | hnew
    · exact (h.fits f hold).other rfl rfl
    · obtain ⟨r, hr, rfl⟩ := List.mem_map.mp hnew
      -- No call has touched the key of a field that was not there.
      have hnone : ∀ t ∈ s.log, t.touches r.key = false := by
        intro t ht
        by_contra htouch
        rw [Bool.not_eq_false] at htouch
        obtain ⟨f, hf, hkey⟩ := h.known t ht r.key htouch
        exact hfresh r hr (List.mem_map.mpr ⟨f, hf, hkey⟩)
      refine Field.Fits.other ⟨?_, ?_⟩ rfl rfl
      · unfold lastToken
        rw [List.find?_eq_none.mpr fun t ht => by rw [hnone t ht]; exact Bool.false_ne_true]
      · have hempty : s.log.filterMap (Touch.editOf r.key) = [] :=
          List.filterMap_eq_nil_iff.mpr fun t ht => editOf_of_not_touches (hnone t ht)
        dsimp only
        rw [hempty]
        rfl
  · rcases List.mem_cons.mp ht with rfl | hmem
    · contradiction
    · obtain ⟨f, hf, hkey⟩ := h.known t hmem key htouch
      exact ⟨f, List.mem_append_left _ hf, hkey⟩

/-- `complete` leaves no token on a field. -/
theorem completed_generation (o : Outcome) (now : ℕ) (f : Field) :
    (f.completed o now).answer_generation = none := by
  unfold Field.completed
  dsimp only
  repeat' split
  all_goals rfl

/-- `complete` adds no edit to a history. -/
theorem completed_edits (o : Outcome) (now : ℕ) (f : Field) :
    (f.completed o now).answer_history.filterMap Entry.asEdit = f.answer_history.filterMap Entry.asEdit := by
  unfold Field.completed
  dsimp only
  repeat' split
  all_goals first
    | rfl
    | (rw [List.filterMap_append]; exact List.append_nil _)

/-- An edit. -/
theorem State.Inv.edit (h : s.Inv) {key value feedback : String} {revision now : ℕ} {fields : List Field}
    (hok : edit s.fill key revision now value feedback = .ok fields) :
    (s.write fields (.edited key value feedback)).Inv := by
  obtain ⟨-, i, f, hf, hkey, hrev, rfl⟩ := edit_ok hok
  rw [modify_eq_map h.nodup hf hkey]
  refine h.update (fun f => ?_) (fun f hf htouch => ?_) (fun f htouch => ?_) fun k htouch => ?_
  · split <;> rfl
  · have heq : key = f.key := of_decide_eq_true htouch
    rw [if_pos heq.symm]
    have hlast : lastToken (.edited key value feedback :: s.log) f.key = none := by
      unfold lastToken
      rw [List.find?_cons_of_pos htouch]
    refine ⟨hlast.symm, ?_⟩
    · have hedit : (Touch.edited key value feedback).editOf f.key = some (value, feedback) := if_pos heq
      have hhist : (Field.edited revision now value feedback f).answer_history =
          f.answer_history ++ [.edit now value feedback] := rfl
      have hsame : (Field.edited revision now value feedback f).key = f.key := rfl
      rw [hhist, hsame, List.filterMap_append, List.filterMap_cons_some hedit, List.reverse_cons,
        (h.fits f hf).edits]
      rfl
  · have hne : key ≠ f.key := of_decide_eq_false htouch
    exact if_neg fun heq => hne heq.symm
  · obtain rfl : key = k := of_decide_eq_true htouch
    exact ⟨f, List.mem_of_getElem? hf, hkey⟩

/-- A reservation. -/
theorem State.Inv.reserve (h : s.Inv) {token : String} {keys : List String} {job_id expected : Option ℕ}
    {fields : List Field} (hok : reserve s.fill token keys job_id expected = .ok fields) :
    (s.write fields (.reserved token keys)).Inv := by
  obtain ⟨-, -, hknown, rfl⟩ := reserve_ok hok
  have hkept : ∀ f : Field, (f.reserved token).key = f.key := fun _ => rfl
  rw [foldl_eq_map hkept h.nodup]
  have hkeys : ∀ key, (Touch.reserved token keys).touches key = true → key ∈ keys := fun key htouch =>
    List.contains_iff_mem.mp htouch
  refine h.update (fun f => ?_) (fun f hf htouch => ?_) (fun f htouch => ?_) fun k htouch => ?_
  · exact updates_same (g := fun f => f.key) hkept keys f
  · have hsame : (f.updates (Field.reserved token) keys).key = f.key :=
      updates_same (g := fun f => f.key) hkept keys f
    have hhist : (f.updates (Field.reserved token) keys).answer_history = f.answer_history :=
      updates_same (g := fun f => f.answer_history) (fun f => (rfl : (f.reserved token).answer_history = _))
        keys f
    have hgen : (f.updates (Field.reserved token) keys).answer_generation = some token :=
      updates_of_mem (P := fun f => f.answer_generation = some token) (fun _ => rfl) (hkeys _ htouch)
    refine ⟨?_, ?_⟩
    · unfold lastToken
      rw [hgen, hsame, List.find?_cons_of_pos htouch]
    · rw [hhist, hsame, List.filterMap_cons_none rfl]
      exact (h.fits f hf).edits
  · refine updates_of_not_mem fun hmem => ?_
    have htrue : (Touch.reserved token keys).touches f.key = true := List.contains_iff_mem.mpr hmem
    rw [htouch] at htrue
    contradiction
  · obtain ⟨i, hi⟩ := hknown k (hkeys k htouch)
    obtain ⟨f, hf, hkey⟩ := byKey_spec hi
    exact ⟨f, List.mem_of_getElem? hf, hkey⟩

/-- A completion that takes effect. -/
theorem State.Inv.complete (h : s.Inv) {token : String} {keys : List String} {o : Outcome} {now : ℕ}
    {fields : List Field} (hok : complete s.fill token keys o now = some fields) :
    (s.write fields (.completed keys)).Inv := by
  obtain ⟨-, hgens, rfl⟩ := complete_some hok
  have hkept : ∀ f : Field, (f.completed o now).key = f.key := fun f => (kept_completed o now f).key
  rw [foldl_eq_map hkept h.nodup]
  have hkeys : ∀ key, (Touch.completed keys).touches key = true → key ∈ keys := fun key htouch =>
    List.contains_iff_mem.mp htouch
  refine h.update (fun f => ?_) (fun f hf htouch => ?_) (fun f htouch => ?_) fun k htouch => ?_
  · exact updates_same (g := fun f => f.key) hkept keys f
  · have hsame : (f.updates (Field.completed o now) keys).key = f.key :=
      updates_same (g := fun f => f.key) hkept keys f
    have hedits : (f.updates (Field.completed o now) keys).answer_history.filterMap Entry.asEdit =
        f.answer_history.filterMap Entry.asEdit :=
      updates_same (g := fun f => f.answer_history.filterMap Entry.asEdit) (completed_edits o now) keys f
    have hgen : (f.updates (Field.completed o now) keys).answer_generation = none :=
      updates_of_mem (P := fun f => f.answer_generation = none) (completed_generation o now)
        (hkeys _ htouch)
    refine ⟨?_, ?_⟩
    · unfold lastToken
      rw [hgen, hsame, List.find?_cons_of_pos htouch]
    · rw [hedits, hsame, List.filterMap_cons_none rfl]
      exact (h.fits f hf).edits
  · refine updates_of_not_mem fun hmem => ?_
    have htrue : (Touch.completed keys).touches f.key = true := List.contains_iff_mem.mpr hmem
    rw [htouch] at htrue
    contradiction
  · have hgen := hgens k (hkeys k htouch)
    unfold generationOf at hgen
    obtain ⟨i, hi, -⟩ := Option.bind_eq_some_iff.mp hgen
    obtain ⟨f, hf, hkey⟩ := byKey_spec hi
    exact ⟨f, List.mem_of_getElem? hf, hkey⟩

/-- `fill_submitted` changes nothing that the log knows. -/
theorem State.Inv.submit (h : s.Inv) (finals : String → Option (Option String))
    (names : ℕ → Option String) (now : ℕ) : State.Inv ⟨submit s.fill finals names now, s.log⟩ := by
  unfold Fills.submit
  split
  · exact h
  · exact h.fields rfl (fun _ => rfl) (fun _ => rfl) fun _ => rfl

/-- Every call keeps the invariant, if the forms name each key once. -/
theorem State.Inv.step (h : s.Inv) {a : Act} (hs : step s a = some s') (hunique : s'.Unique) : s'.Inv := by
  cases a with
  | edit key revision now value feedback =>
    simp only [Fills.step] at hs
    split at hs
    · next fields hok =>
      obtain rfl := Option.some.inj hs
      exact h.edit hok
    · obtain rfl := Option.some.inj hs
      exact h
  | reserve token keys job_id expected =>
    simp only [Fills.step] at hs
    split at hs
    · contradiction
    · split at hs
      · next fields hok =>
        obtain rfl := Option.some.inj hs
        exact h.reserve hok
      · obtain rfl := Option.some.inj hs
        exact h
  | complete token keys o now =>
    simp only [Fills.step] at hs
    split at hs
    · next fields hok =>
      obtain rfl := Option.some.inj hs
      exact h.complete hok
    · obtain rfl := Option.some.inj hs
      exact h
  | resolve url request | resume url job_id request =>
    simp only [Fills.step] at hs
    split at hs
    · obtain rfl := Option.some.inj hs
      exact h.merge (hunique _ List.mem_cons_self)
    · obtain rfl := Option.some.inj hs
      exact h
  | track job_id =>
    simp only [Fills.step] at hs
    split at hs
    · obtain rfl := Option.some.inj hs
      exact ⟨h.nodup, h.fits, h.known⟩
    · obtain rfl := Option.some.inj hs
      exact h
  | submit sibling finals names now =>
    simp only [Fills.step] at hs
    split at hs
    · obtain rfl := Option.some.inj hs
      exact h
    · split at hs
      · obtain rfl := Option.some.inj hs
        exact h.submit finals names now
      · obtain rfl := Option.some.inj hs
        exact ⟨h.nodup, h.fits, h.known⟩
  | submitFrom finals names now =>
    obtain rfl := Option.some.inj hs
    exact h.submit finals names now

/-- A call keeps what is in the log. -/
theorem step_log {a : Act} {t : Touch} (hs : step s a = some s') (ht : t ∈ s.log) : t ∈ s'.log := by
  cases a <;> simp only [step] at hs
  all_goals
    repeat' split at hs
    all_goals first
      | contradiction
      | (obtain rfl := Option.some.inj hs; first | exact ht | exact List.mem_cons_of_mem _ ht)

/-- The invariant holds in every run whose forms name each key once. -/
theorem State.Inv.run {url : String} {job_id : Option ℕ} {request : List ResolvedField}
    (h : Run Fills.step Always (opened url job_id request) s) (hunique : s.Unique) : s.Inv := by
  induction h with
  | start =>
    have hkeys : (opened url job_id request).fill.fields.map (·.key) = request.map (·.key) := by
      unfold opened
      rw [List.map_map]
      rfl
    refine ⟨?_, fun f hf => ?_, fun t ht key htouch => ?_⟩
    · rw [hkeys]
      exact hunique _ List.mem_cons_self
    · obtain ⟨r, -, rfl⟩ := List.mem_map.mp hf
      exact ⟨rfl, rfl⟩
    · obtain rfl := List.mem_singleton.mp ht
      contradiction
  | next a _ _ hs ih =>
    exact (ih fun keys hkeys => hunique keys (step_log hs hkeys)).step hs hunique

end Invariant

/-! ## Every run -/

/-- The call is refused. -/
def Refused (s : State) : Act → Prop
  | .edit key revision now value feedback =>
    ∃ e, edit s.fill key revision now value feedback = .error e
  | .reserve token keys job_id expected => ∃ e, reserve s.fill token keys job_id expected = .error e
  | .complete token keys o now => complete s.fill token keys o now = none
  | .track _ => s.fill.submitted_at ≠ none ∨ s.fill.superseded_by ≠ none
  | _ => False

/-- In every run from an opened fill: with forms that name each key once, the keys are unique, `complete`
takes effect only while the newest call on each of its keys is the `reserve` of its token, and every edit is
in the history of its field; it takes effect only before submission; a refused call changes nothing; each
field stays at its place with its key, its revision never falls and its history only grows; an edit and a
completion raise the revision; and nothing changes once the fill is submitted. -/
theorem fill_keeps_edits_and_freezes {url : String} {job_id : Option ℕ} {request : List ResolvedField}
    {s : State} (h : Run step Always (opened url job_id request) s) :
    (s.Unique → (s.fill.fields.map (·.key)).Nodup ∧
      (∀ token keys o now fields, complete s.fill token keys o now = some fields →
        ∀ key ∈ keys, ∃ ks, key ∈ ks ∧ s.log.find? (Touch.touches key) = some (.reserved token ks)) ∧
      ∀ f ∈ s.fill.fields, f.answer_history.filterMap Entry.asEdit =
        (s.log.filterMap (Touch.editOf f.key)).reverse) ∧
    (∀ token keys o now fields, complete s.fill token keys o now = some fields →
      s.fill.submitted_at = none ∧ ∀ key ∈ keys, ∃ (i : ℕ) (f f' : Field), byKey key s.fill.fields = some i ∧
        s.fill.fields[i]? = some f ∧ fields[i]? = some f' ∧ f.revision < f'.revision) ∧
    (∀ key revision now value feedback fields, edit s.fill key revision now value feedback = .ok fields →
      s.fill.submitted_at = none ∧ ∃ (i : ℕ) (f f' : Field), s.fill.fields[i]? = some f ∧ f.key = key ∧
        fields[i]? = some f' ∧ f.revision < f'.revision) ∧
    (∀ a s', Refused s a → step s a = some s' → s' = s) ∧
    ∀ s', Run step Always s s' → Kept s.fill.fields s'.fill.fields ∧ Frozen s.fill s'.fill := by
  refine ⟨fun hunique => ?_, fun token keys o now fields hok => ?_,
    fun key revision now value feedback fields hok => ?_, fun a s' href hs => ?_, fun s' hrun => run_kept hrun⟩
  · have hinv := State.Inv.run h hunique
    refine ⟨hinv.nodup, fun token keys o now fields hok key hkey => ?_, fun f hf => (hinv.fits f hf).edits⟩
    obtain ⟨-, hgens, -⟩ := complete_some hok
    have hgen := hgens key hkey
    unfold generationOf at hgen
    obtain ⟨i, hi, hgen⟩ := Option.bind_eq_some_iff.mp hgen
    obtain ⟨f, hf, htoken⟩ := Option.bind_eq_some_iff.mp hgen
    obtain ⟨f', hf', rfl⟩ := byKey_spec hi
    obtain rfl := Option.some.inj (hf.symm.trans hf')
    -- The token on the field is the one of the newest call on the key.
    have hlast := (hinv.fits f (List.mem_of_getElem? hf)).generation
    rw [htoken] at hlast
    unfold lastToken at hlast
    split at hlast
    · next t ks hfind =>
      obtain rfl := Option.some.inj hlast
      have htouch : (Touch.reserved token ks).touches f.key = true := List.find?_some hfind
      exact ⟨ks, List.contains_iff_mem.mp htouch, hfind⟩
    · contradiction
  · obtain ⟨hopen, hgens, rfl⟩ := complete_some hok
    refine ⟨hopen, fun key hkey => ?_⟩
    have hgen := hgens key hkey
    unfold generationOf at hgen
    obtain ⟨i, hi, hgen⟩ := Option.bind_eq_some_iff.mp hgen
    obtain ⟨f, hf, -⟩ := Option.bind_eq_some_iff.mp hgen
    obtain ⟨f', hf', hlt⟩ := foldl_revision (kept_completed o now)
      (fun f => by rw [completed_revision]; omega) hkey hi hf
    exact ⟨i, f, f', hi, hf, hf', hlt⟩
  · obtain ⟨hopen, i, f, hf, hkey, hrev, rfl⟩ := edit_ok hok
    refine ⟨hopen, i, f, Field.edited revision now value feedback f, hf, hkey, ?_, ?_⟩
    · rw [List.getElem?_modify, hf, Option.map_eq_map, Option.map_some, if_pos rfl]
    · have hnew : (Field.edited revision now value feedback f).revision = revision + 1 := rfl
      omega
  · cases a with
    | edit key revision now value feedback =>
      obtain ⟨e, he⟩ := href
      simp only [step, he] at hs
      exact (Option.some.inj hs).symm
    | reserve token keys job_id expected =>
      obtain ⟨e, he⟩ := href
      simp only [step, he] at hs
      split at hs
      · contradiction
      · exact (Option.some.inj hs).symm
    | complete token keys o now =>
      have he : complete s.fill token keys o now = none := href
      simp only [step, he] at hs
      exact (Option.some.inj hs).symm
    | track job_id =>
      have hno : ¬ (s.fill.submitted_at = none ∧ s.fill.superseded_by = none) := by
        rintro ⟨hsub, hsup⟩
        exact href.elim (fun hne => hne hsub) fun hne => hne hsup
      simp only [step, if_neg hno] at hs
      exact (Option.some.inj hs).symm
    | resolve | resume | submit | submitFrom => exact href.elim

/-- A text question. -/
def whyField (key : String) : ResolvedField := ⟨key, "Why?", "long", true, [], none, "", none, none⟩

/-- An answer to one question. -/
def answerOf (key text : String) : Outcome :=
  ⟨fun k => if k = key then some text else none, fun k => if k = key then some text else none, [], false⟩

/-- Two suggestions over overlapping keys: the second one's `reserve` replaces the first one's token on the
shared key, so only the second takes effect; a revealed field joins, and the fill is submitted. -/
theorem fill_keeps_edits_and_freezes_overlap :
    ∃ s : State, Run step Always (opened "u" none [whyField "a", whyField "b"]) s ∧ s.Unique ∧
      s.fill.fields.map (fun f => (f.key, f.revision, f.value)) =
        [("a", 0, none), ("b", 1, some "second"), ("c", 0, none)] ∧
      s.fill.submitted_at = some 9 ∧ (s.fill.fields.map (·.key)).Nodup := by
  let acts : List Act := [.reserve "t1" ["a", "b"] none none, .reserve "t2" ["b"] none none,
    .resolve "u" [whyField "b", whyField "c"], .complete "t1" ["a", "b"] (answerOf "b" "first") 5,
    .complete "t2" ["b"] (answerOf "b" "second") 6, .submit none (fun _ => none) (fun _ => none) 9]
  have hp : (runList step (opened "u" none [whyField "a", whyField "b"]) acts).any (fun s =>
      decide (s.fill.fields.map (fun f => (f.key, f.revision, f.value)) =
        [("a", 0, none), ("b", 1, some "second"), ("c", 0, none)]) &&
      decide (s.fill.submitted_at = some 9) && s.log.all fun t => match t with
        | .requested keys => decide keys.Nodup
        | _ => true) = true := by
    decide +kernel
  obtain ⟨s, hrun, hs⟩ := exists_run_of_any hp
  rw [Bool.and_eq_true, Bool.and_eq_true, decide_eq_true_eq, decide_eq_true_eq, List.all_eq_true] at hs
  obtain ⟨⟨hfields, hsub⟩, hlog⟩ := hs
  have hunique : s.Unique := fun keys hkeys => of_decide_eq_true (hlog _ hkeys)
  exact ⟨s, hrun, hunique, hfields, hsub, ((fill_keeps_edits_and_freezes hrun).1 hunique).1⟩

end JobScripts.Apply.Fills
