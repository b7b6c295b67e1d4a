import Mathlib.Order.Interval.Set.Basic
import Mathlib.Order.WithBot
import JobScripts.Lib.Run

/-!
# Consolidating batch objects

`tasks/batch_objects.py` moves the fields of a bundle from the rows of `batch_requests`, which repeat them, to one
row of `batch_objects`. Readers compose the two (`REF` of `api/ai/request_snapshots.py`). Any number of runs go over
the table, each range in a transaction of its own, while `snapshot_specs` inserts rows of either shape.

A transaction's rows are its own until it commits: the row locks keep other transactions from them, and the statements
pass over rows that are locked. `changes_no_reference` says what follows for every interleaving: the composed
reference of a row never changes, a link names an object that holds what the reference says, and a run that is done
has left the rows of its last pass linked and without the bundle's fields, for good.
-/

namespace JobScripts.Batch.Objects

open Lib

/-! ## References -/

/-- A JSON value in a reference. -/
inductive Value
  | null
  | str (s : String)
  | num (n : ℤ)
  | other (text : String)
  deriving DecidableEq

/-- A `jsonb` object. -/
abbrev Ref := String → Option Value

/-- A row of `batch_objects`. -/
structure Object where
  bucket : String
  key : String
  sha256 : String
  size : ℤ
  version : ℤ

/-- `OBJECT_FIELDS`: the fields by which a reference names a stored object. -/
def objectFields : List String := ["bucket", "key", "sha256", "size", "version"]

/-- `OBJECT`: an object as the reference to it. -/
def Object.json (o : Object) : Ref := fun f =>
  if f = "bucket" then some (.str o.bucket)
  else if f = "key" then some (.str o.key)
  else if f = "sha256" then some (.str o.sha256)
  else if f = "size" then some (.num o.size)
  else if f = "version" then some (.num o.version)
  else none

/-- `a || b`: the fields of both, those of `b` before those of `a`. -/
def Ref.merge (a b : Ref) : Ref := fun f => (b f).or (a f)

/-- `member_fields`, and `-` with the fields of a bundle. -/
def Ref.memberFields (a : Ref) : Ref := fun f => if f ∈ objectFields then none else a f

/-- `a @> OBJECT`: the reference holds the values of the object, types included. -/
def Ref.Contains (a : Ref) (o : Object) : Prop := ∀ f ∈ objectFields, a f = o.json f

/-- `a ?| fields`: the reference has one of the fields of an object. -/
def Ref.holdsAny (a : Ref) : Bool := objectFields.any fun f => (a f).isSome

/-- `a ?& fields`: the reference has all of them. -/
def Ref.holdsAll (a : Ref) : Bool := objectFields.all fun f => (a f).isSome

/-- Both are computed. -/
instance (a : Ref) (o : Object) : Decidable (a.Contains o) := inferInstanceAs (Decidable (∀ f ∈ objectFields, _))

/-- `a->>f`: the field as text, where `null` is none. -/
def Ref.text (a : Ref) (f : String) : Option String :=
  (a f).bind fun
    | .null => none
    | .str s => some s
    | .num n => some (toString n)
    | .other text => some text

/-- `(a->>f)::bigint`. The text of a number is cast back to it. -/
def Ref.int (a : Ref) (f : String) : Option ℤ :=
  (a f).bind fun
    | .num n => some n
    | .str s => s.toInt?
    | _ => none

/-- The object that `_OBJECTS` makes of a reference. A field that is NULL, or that is no number where one is asked
for, fails the statement. -/
def Ref.object (a : Ref) : Option Object := do
  let bucket ← a.text "bucket"
  let key ← a.text "key"
  let sha256 ← a.text "sha256"
  let size ← a.int "size"
  let version ← a.int "version"
  return ⟨bucket, key, sha256, size, version⟩

/-- A row of `batch_requests`. -/
structure Row where
  snapshot_ref : Ref
  object_id : Option ℕ

/-- The row is linked, and holds none of the fields of its bundle. -/
def Row.clean (row : Row) : Bool := row.object_id.isSome && !row.snapshot_ref.holdsAny

/-- `REF`, with the objects that are read. -/
def Row.reference (objects : ℕ → Option Object) (row : Row) : Ref :=
  match row.object_id.bind objects with
  | none => row.snapshot_ref
  | some o => row.snapshot_ref.merge o.json

/-! ## Passes -/

/-- `_COUNTS`: what a pass has counted so far. -/
structure Counts where
  rows : ℕ := 0
  filled : ℕ := 0
  cleared : ℕ := 0
  unpointed : ℕ := 0
  holding : ℕ := 0

/-- The phases. -/
inductive Phase
  | backfill
  | gate
  | clear
  | done
  deriving DecidableEq

variable (κ : Type)

/-- The state of a run. The cursor is below every key at the start. `began` is not in the payload: the keys that
were in the table when the pass started. -/
structure Progress where
  phase : Phase
  cursor : WithBot κ
  counts : Counts
  began : List κ

/-- How far the transaction of a range is. -/
inductive Stage
  | objects
  | fill
  | clear
  | counted (rows unpointed holding : ℕ)

/-- The statement that a range ends with before it counts. -/
def Stage.counts (phase : Phase) : Stage → Bool
  | .fill => phase ≠ .clear
  | .clear => true
  | _ => false

/-- What a process does. `mine` is what a transaction has made of the rows that it has locked. -/
inductive Proc
  | off
  /-- A run between two ranges. -/
  | idle (p : Progress κ)
  /-- A run in the transaction of a range, which ends at `last`. -/
  | chunk (p : Progress κ) (last : κ) (stage : Stage) (filled cleared : ℕ) (mine : κ → Row)
  /-- The transaction of `snapshot_specs`, with the rows that it has inserted. -/
  | freeze (fresh : List κ) (mine : κ → Row)

/-- Whether an object is there. -/
inductive Standing
  | committed
  | pending (r : ℕ)
  | gone
  deriving DecidableEq

/-- The tables and the processes. -/
structure State where
  /-- The keys of `batch_requests` that are committed. -/
  keys : List κ
  /-- The row of a key. -/
  row : κ → Row
  /-- Who has locked the row of a key, or is inserting it. -/
  locks : κ → Option ℕ
  /-- `batch_objects` by id. -/
  objects : List (Object × Standing)
  /-- The states that were written to payloads. -/
  saved : List (Progress κ)
  procs : ℕ → Proc κ

variable {κ} [LinearOrder κ]

/-- `_pass`: a pass at its start, before any key and with nothing counted. -/
def Progress.pass (phase : Phase) (began : List κ) : Progress κ := ⟨phase, ⊥, {}, began⟩

/-- The object of an id that others see. -/
def State.committed (s : State κ) (i : ℕ) : Option Object :=
  s.objects[i]?.bind fun (o, standing) => if standing = .committed then some o else none

/-- The object of an id that a transaction sees. -/
def State.visible (s : State κ) (r i : ℕ) : Option Object :=
  s.objects[i]?.bind fun (o, standing) => if standing = .committed ∨ standing = .pending r then some o else none

/-- The row of a key that a transaction sees. -/
def State.view (s : State κ) (r : ℕ) (mine : κ → Row) (k : κ) : Row :=
  if s.locks k = some r then mine k else s.row k

/-- No other transaction has the row. -/
def State.free (s : State κ) (r : ℕ) (k : κ) : Bool := s.locks k = none || s.locks k = some r

/-- The key is in the range. -/
def Progress.covers (p : Progress κ) (last k : κ) : Bool := p.cursor < (k : WithBot κ) && k ≤ last

/-- `INSERT … ON CONFLICT (bucket, key) DO NOTHING`, which waits for a transaction that inserts the same. -/
def State.addObject (s : State κ) (r : ℕ) (o : Object) : Option (State κ) :=
  if s.objects.any fun (o', standing) =>
      o'.bucket = o.bucket && o'.key = o.key && (standing = .committed || standing = .pending r) then some s
  else if s.objects.any fun (o', standing) => o'.bucket = o.bucket && o'.key = o.key && standing != .gone then none
  else some { s with objects := s.objects ++ [(o, .pending r)] }

/-- A process goes on. -/
def State.go (s : State κ) (r : ℕ) (proc : Proc κ) : State κ := { s with procs := Function.update s.procs r proc }

/-- A transaction has a row as its own. -/
def State.lock (s : State κ) (r : ℕ) (k : κ) : State κ := { s with locks := Function.update s.locks k (some r) }

/-- A transaction ends: its locks are free, and its objects there or gone. -/
def State.release (s : State κ) (r : ℕ) (standing : Standing) : State κ :=
  { s with
    locks := fun k => if s.locks k = some r then none else s.locks k
    objects := s.objects.map fun (o, st) => (o, if st = .pending r then standing else st) }

/-- A transaction's rows become everyone's. -/
def State.publish (s : State κ) (r : ℕ) (fresh : List κ) (mine : κ → Row) : State κ :=
  { s with
    keys := fresh ++ s.keys
    row := s.view r mine }

/-- What can happen next. -/
inductive Act (κ : Type)
  /-- `_resume`: a run takes up a state that was saved. -/
  | resume (r n : ℕ)
  /-- A process is stopped, or its transaction fails. -/
  | stop (r : ℕ)
  /-- `checkpoint`: the progress is stored, so that a later run goes on from it. -/
  | checkpoint (r : ℕ)
  /-- `advance` finds workers behind. -/
  | hold (r : ℕ)
  /-- `advance` finds the gate open. -/
  | enter (r : ℕ)
  /-- `chunk` starts: `_LAST` gives a key. -/
  | chunk (r : ℕ) (last : κ)
  /-- `_OBJECTS`, for one row of the range. -/
  | object (r : ℕ) (k : κ)
  /-- The next statement. -/
  | next (r : ℕ)
  /-- `_FILL`, for one row that is not locked. -/
  | fill (r : ℕ) (k : κ) (i : ℕ)
  /-- `_CLEAR`, for one row that is not locked. -/
  | clear (r : ℕ) (k : κ)
  /-- `_COUNT`: the rows of the chunk are counted. -/
  | count (r : ℕ)
  /-- A transaction commits. -/
  | commit (r : ℕ)
  /-- `chunk` finds no row: a phase ends. -/
  | finish (r : ℕ)
  /-- The transaction of `snapshot_specs` starts. -/
  | freeze (r : ℕ)
  /-- The insert of `object_id`. -/
  | adopt (r : ℕ) (o : Object)
  /-- `INSERT INTO batch_requests`, of a reference whose object is in a row. -/
  | insert (r : ℕ) (k : κ) (ref : Ref) (i : ℕ) (compact : Bool)

/-- The counts after a range. -/
def Counts.add (c : Counts) (rows filled cleared unpointed holding : ℕ) : Counts :=
  ⟨c.rows + rows, c.filled + filled, c.cleared + cleared, c.unpointed + unpointed, c.holding + holding⟩

/-- One step. -/
def step (s : State κ) : Act κ → Option (State κ)
  | .resume r n =>
    match s.procs r, s.saved[n]? with
    | .off, some p => some (s.go r (.idle p))
    | _, _ => none
  | .stop r => some ((s.release r .gone).go r .off)
  | .checkpoint r =>
    match s.procs r with
    | .idle p => some { s with saved := s.saved ++ [p] }
    | _ => none
  | .hold r =>
    match s.procs r with
    | .idle p => if p.phase = .gate ∨ p.phase = .clear then some (s.go r (.idle { p with phase := .gate })) else none
    | _ => none
  | .enter r =>
    match s.procs r with
    | .idle p => if p.phase = .gate then some (s.go r (.idle (.pass .clear s.keys))) else none
    | _ => none
  | .chunk r last =>
    match s.procs r with
    | .idle p =>
      if (p.phase = .backfill ∨ p.phase = .clear) ∧ p.cursor < last ∧ last ∈ s.keys then
        some (s.go r (.chunk p last .objects 0 0 s.row))
      else none
    | _ => none
  | .object r k =>
    match s.procs r with
    | .chunk p last .objects _ _ mine =>
      if p.covers last k ∧ k ∈ s.keys ∧ (s.view r mine k).object_id = none ∧
          (s.view r mine k).snapshot_ref.holdsAll then
        -- A reference that is no object fails the transaction: `stop`.
        (s.view r mine k).snapshot_ref.object.bind (s.addObject r)
      else none
    | _ => none
  | .next r =>
    match s.procs r with
    | .chunk p last .objects filled cleared mine => some (s.go r (.chunk p last .fill filled cleared mine))
    | .chunk p last .fill filled cleared mine =>
      if p.phase = .clear then some (s.go r (.chunk p last .clear filled cleared mine)) else none
    | _ => none
  | .fill r k i =>
    match s.procs r with
    | .chunk p last .fill filled cleared mine =>
      let row := s.view r mine k
      match s.visible r i with
      | some o =>
        if p.covers last k ∧ k ∈ s.keys ∧ s.free r k ∧ row.object_id = none ∧
            row.snapshot_ref.text "bucket" = some o.bucket ∧ row.snapshot_ref.text "key" = some o.key ∧
            row.snapshot_ref.Contains o then
          some ((s.lock r k).go r
            (.chunk p last .fill (filled + 1) cleared (Function.update mine k { row with object_id := some i })))
        else none
      | none => none
    | _ => none
  | .clear r k =>
    match s.procs r with
    | .chunk p last .clear filled cleared mine =>
      let row := s.view r mine k
      match row.object_id.bind (s.visible r) with
      | some o =>
        if p.covers last k ∧ k ∈ s.keys ∧ s.free r k ∧ row.snapshot_ref.holdsAny ∧ row.snapshot_ref.Contains o then
          some ((s.lock r k).go r (.chunk p last .clear filled (cleared + 1)
            (Function.update mine k { row with snapshot_ref := row.snapshot_ref.memberFields })))
        else none
      | none => none
    | _ => none
  | .count r =>
    match s.procs r with
    | .chunk p last stage filled cleared mine =>
      if stage.counts p.phase then
        let rows := s.keys.filter (p.covers last)
        let unpointed := rows.filter fun k => (s.view r mine k).object_id.isNone
        let holding := rows.filter fun k => (s.view r mine k).snapshot_ref.holdsAny
        some (s.go r (.chunk p last (.counted rows.length unpointed.length holding.length) filled cleared mine))
      else none
    | _ => none
  | .commit r =>
    match s.procs r with
    | .chunk p last (.counted rows unpointed holding) filled cleared mine =>
      some (((s.publish r [] mine).release r .committed).go r
        (.idle { p with cursor := last, counts := p.counts.add rows filled cleared unpointed holding }))
    | .freeze fresh mine => some (((s.publish r fresh mine).release r .committed).go r .off)
    | _ => none
  | .finish r =>
    match s.procs r with
    | .idle p =>
      if s.keys.any fun k => p.cursor < (k : WithBot κ) then none
      else
        match p.phase with
        | .backfill => some (s.go r (.idle (.pass .gate [])))
        | .clear =>
          if p.counts.cleared = 0 ∧ p.counts.unpointed = 0 ∧ p.counts.holding = 0 then
            some (s.go r (.idle { p with phase := .done }))
          else some (s.go r (.idle (.pass .clear s.keys)))
        | _ => none
    | _ => none
  | .freeze r =>
    match s.procs r with
    | .off => some (s.go r (.freeze [] s.row))
    | _ => none
  | .adopt r o =>
    match s.procs r with
    | .freeze _ _ => s.addObject r o
    | _ => none
  | .insert r k ref i compact =>
    match s.procs r with
    | .freeze fresh mine =>
      match s.visible r i with
      | some o =>
        -- `ON CONFLICT DO NOTHING`, which waits for a transaction that inserts the same key.
        if ref.Contains o ∧ k ∉ s.keys ∧ s.locks k = none then
          some ((s.lock r k).go r (.freeze (k :: fresh)
            (Function.update mine k ⟨if compact then ref.memberFields else ref, some i⟩)))
        else none
      | none => none
    | _ => none

/-! ## References that stay -/

section References

variable {a : Ref} {o : Object} {objects objects' : ℕ → Option Object} {row : Row} {i : ℕ}

/-- A field of a bundle is one that an object has. -/
theorem Object.json_isSome {f : String} (hf : f ∈ objectFields) : (o.json f).isSome = true := by
  simp only [objectFields, List.mem_cons, List.not_mem_nil, or_false] at hf
  rcases hf with rfl | rfl | rfl | rfl | rfl <;> rfl

/-- The other fields are not. -/
theorem Object.json_eq_none {f : String} (hf : f ∉ objectFields) : o.json f = none := by
  simp only [objectFields, List.mem_cons, List.not_mem_nil, or_false, not_or] at hf
  obtain ⟨h₁, h₂, h₃, h₄, h₅⟩ := hf
  rw [Object.json, if_neg h₁, if_neg h₂, if_neg h₃, if_neg h₄, if_neg h₅]

/-- A composed reference has the fields of its object. -/
theorem merge_json {f : String} (hf : f ∈ objectFields) : a.merge o.json f = o.json f := by
  obtain ⟨v, hv⟩ := Option.isSome_iff_exists.mp (Object.json_isSome (o := o) hf)
  rw [Ref.merge, hv, Option.some_or]

/-- Composing a reference with an object that it holds gives it back. -/
theorem merge_of_contains (h : a.Contains o) : a.merge o.json = a := by
  funext f
  by_cases hf : f ∈ objectFields
  · rw [merge_json hf, h f hf]
  · rw [Ref.merge, Object.json_eq_none hf, Option.none_or]

/-- So does composing what is left of it. -/
theorem memberFields_merge (h : a.Contains o) : a.memberFields.merge o.json = a := by
  funext f
  by_cases hf : f ∈ objectFields
  · rw [merge_json hf, h f hf]
  · rw [Ref.merge, Object.json_eq_none hf, Option.none_or, Ref.memberFields, if_neg hf]

/-- The reference of a row that is not linked is what it holds. -/
theorem reference_unlinked (h : row.object_id = none) : row.reference objects = row.snapshot_ref := by
  rw [Row.reference, h]
  rfl

/-- The reference of a linked row is composed. -/
theorem reference_linked (h : row.object_id = some i) (ho : objects i = some o) :
    row.reference objects = row.snapshot_ref.merge o.json := by
  rw [Row.reference, h, Option.bind_some, ho]

/-- The reference of a row whose object is there does not depend on what else is. -/
theorem reference_congr (hsome : ∀ i, row.object_id = some i → (objects i).isSome = true)
    (hkept : ∀ i o, objects i = some o → objects' i = some o) :
    row.reference objects' = row.reference objects := by
  cases hid : row.object_id with
  | none => rw [reference_unlinked hid, reference_unlinked hid]
  | some i =>
    obtain ⟨o, ho⟩ := Option.isSome_iff_exists.mp (hsome i hid)
    rw [reference_linked hid ho, reference_linked hid (hkept i o ho)]

end References

/-! ## Objects -/

section Standing

omit [LinearOrder κ]

variable {s : State κ} {r r' i : ℕ} {o : Object}

/-- What others see a transaction sees. -/
theorem State.visible_of_committed (h : s.committed i = some o) : s.visible r i = some o := by
  rw [State.committed, Option.bind_eq_some_iff] at h
  obtain ⟨⟨o', standing⟩, hslot, hst⟩ := h
  rw [Option.ite_none_right_eq_some] at hst
  rw [State.visible, hslot, Option.bind_some]
  exact (if_pos (.inl hst.1)).trans hst.2

/-- What a transaction sees is there for all once it commits. -/
theorem State.committed_release : (s.release r .committed).committed i = s.visible r i := by
  unfold State.committed State.visible State.release
  rw [List.getElem?_map]
  cases s.objects[i]? with
  | none => rfl
  | some slot =>
    obtain ⟨o, standing⟩ := slot
    simp only [Option.map_some, Option.bind_some]
    by_cases h : standing = .pending r
    · rw [if_pos h, if_pos rfl, if_pos (.inr h)]
    · rw [if_neg h]
      exact if_congr (or_iff_left h).symm rfl rfl

/-- A transaction that fails changes nothing for others. -/
theorem State.committed_release_gone : (s.release r .gone).committed i = s.committed i := by
  unfold State.committed State.release
  rw [List.getElem?_map]
  cases s.objects[i]? with
  | none => rfl
  | some slot =>
    obtain ⟨o, standing⟩ := slot
    simp only [Option.map_some, Option.bind_some]
    by_cases h : standing = .pending r
    · rw [if_pos h, h]
      rfl
    · rw [if_neg h]

/-- What a transaction sees stays when another one ends. -/
theorem State.visible_release {standing : Standing} (hne : r' ≠ r) (h : s.visible r' i = some o) :
    (s.release r standing).visible r' i = some o := by
  unfold State.visible State.release at *
  rw [List.getElem?_map]
  cases hslot : s.objects[i]? with
  | none => rw [hslot] at h; contradiction
  | some slot =>
    obtain ⟨o', st⟩ := slot
    rw [hslot, Option.bind_some, Option.ite_none_right_eq_some] at h
    have hst : st ≠ .pending r := by
      rcases h.1 with h | h
      · rw [h]; nofun
      · rw [h]
        exact fun heq => hne (Standing.pending.inj heq)
    simp only [Option.map_some, Option.bind_some, if_neg hst]
    exact (if_pos h.1).trans h.2

end Standing

/-! ## The invariant -/

/-- What a saved state says is so: the keys of its pass are there; those that it has gone over are clean unless it
has counted one that is not; and all of them are if it is done. -/
structure Progress.Good (p : Progress κ) (s : State κ) : Prop where
  began : ∀ k ∈ p.began, k ∈ s.keys
  clear : p.phase = .clear → p.counts.unpointed = 0 → p.counts.holding = 0 →
    ∀ k ∈ p.began, (k : WithBot κ) ≤ p.cursor → (s.row k).clean = true
  done : p.phase = .done → ∀ k ∈ p.began, (s.row k).clean = true

/-- A row that a range has changed: it is not clean for the others, and its reference is the same. -/
structure State.Changed (s : State κ) (r : ℕ) (mine : κ → Row) (k : κ) : Prop where
  mem : k ∈ s.keys
  dirty : (s.row k).clean = false
  reference : (mine k).reference (s.visible r) = (s.row k).reference s.committed
  linked : ∃ i o, (mine k).object_id = some i ∧ s.visible r i = some o

/-- A row that `snapshot_specs` has inserted. -/
structure State.Inserted (s : State κ) (r : ℕ) (fresh : List κ) (mine : κ → Row) (k : κ) : Prop where
  not_mem : k ∉ s.keys
  fresh : k ∈ fresh
  linked : ∃ i o, (mine k).object_id = some i ∧ s.visible r i = some o

/-- Where a range has counted: if it counted none that is not clean, the rows of the pass in it are. -/
def State.Counted (s : State κ) (r : ℕ) (p : Progress κ) (last : κ) (mine : κ → Row) : Stage → Prop
  | .counted _ unpointed holding => unpointed = 0 → holding = 0 →
      ∀ k ∈ p.began, p.covers last k = true → (s.view r mine k).clean = true
  | _ => True

/-- What holds of a process. -/
def State.Fits (s : State κ) (r : ℕ) : Proc κ → Prop
  | .off => ∀ k, s.locks k ≠ some r
  | .idle p => (∀ k, s.locks k ≠ some r) ∧ p.Good s
  | .chunk p last stage _ _ mine =>
    p.Good s ∧ (∀ k, s.locks k = some r → s.Changed r mine k) ∧ s.Counted r p last mine stage ∧
      (p.phase = .backfill ∨ p.phase = .clear)
  | .freeze fresh mine =>
    (∀ k, s.locks k = some r → s.Inserted r fresh mine k) ∧ ∀ k ∈ fresh, s.locks k = some r

/-- The invariant. -/
structure State.Inv (s : State κ) : Prop where
  fits : ∀ r, s.Fits r (s.procs r)
  linked : ∀ k ∈ s.keys, ∀ i, (s.row k).object_id = some i → (s.committed i).isSome = true
  saved : ∀ p ∈ s.saved, p.Good s

/-- How the tables grow: rows stay, with their references, and clean ones as they are; objects stay. -/
structure Grows (s s' : State κ) : Prop where
  keys : ∀ k ∈ s.keys, k ∈ s'.keys
  reference : ∀ k ∈ s.keys, (s'.row k).reference s'.committed = (s.row k).reference s.committed
  clean : ∀ k ∈ s.keys, (s.row k).clean = true → s'.row k = s.row k
  committed : ∀ i o, s.committed i = some o → s'.committed i = some o

/-- What a step leaves to a process. -/
structure Frame (r : ℕ) (s s' : State κ) : Prop where
  locks : ∀ k, s'.locks k = some r ↔ s.locks k = some r
  row : ∀ k, s.locks k = some r → s'.row k = s.row k ∧ (k ∈ s'.keys ↔ k ∈ s.keys)
  visible : ∀ i o, s.visible r i = some o → s'.visible r i = some o

section Preserved

variable {s s' : State κ} {r : ℕ} {p : Progress κ} {k : κ} {mine : κ → Row}

omit [LinearOrder κ] in
/-- The same tables. -/
theorem Grows.of_eq (hkeys : s'.keys = s.keys) (hrow : s'.row = s.row) (hobjects : s'.objects = s.objects) :
    Grows s s' := by
  have hcommitted : s'.committed = s.committed := by
    funext i
    rw [State.committed, hobjects]
    rfl
  refine ⟨fun k hk => hkeys ▸ hk, fun k _ => by rw [hrow, hcommitted], fun k _ _ => by rw [hrow], ?_⟩
  intro i o ho
  rw [hcommitted]
  exact ho

omit [LinearOrder κ] in
/-- They grow and grow. -/
theorem Grows.trans {s'' : State κ} (h : Grows s s') (h' : Grows s' s'') : Grows s s'' where
  keys k hk := h'.keys k (h.keys k hk)
  reference k hk := (h'.reference k (h.keys k hk)).trans (h.reference k hk)
  clean k hk hclean := by
    have heq := h.clean k hk hclean
    rw [h'.clean k (h.keys k hk) (heq ▸ hclean), heq]
  committed i o ho := h'.committed i o (h.committed i o ho)

/-- What a state says stays so. -/
theorem Progress.Good.grows (hp : p.Good s) (h : Grows s s') : p.Good s' where
  began k hk := h.keys k (hp.began k hk)
  clear hphase hunpointed hholding k hk hle := by
    have hclean := hp.clear hphase hunpointed hholding k hk hle
    rw [h.clean k (hp.began k hk) hclean]
    exact hclean
  done hphase k hk := by
    have hclean := hp.done hphase k hk
    rw [h.clean k (hp.began k hk) hclean]
    exact hclean

omit [LinearOrder κ] in
/-- A row that another range has changed stays changed. -/
theorem State.Changed.frame (hframe : Frame r s s') (hgrows : Grows s s')
    (hlock : s.locks k = some r) (h : s.Changed r mine k) : s'.Changed r mine k where
  mem := hgrows.keys k h.mem
  dirty := by rw [(hframe.row k hlock).1]; exact h.dirty
  reference := by
    obtain ⟨i, o, hi, ho⟩ := h.linked
    have hmine : (mine k).reference (s'.visible r) = (mine k).reference (s.visible r) :=
      reference_congr (fun j hj => by rw [Option.some.inj (hj.symm.trans hi), ho]; rfl) hframe.visible
    rw [hmine, h.reference, hgrows.reference k h.mem]
  linked := by
    obtain ⟨i, o, hi, ho⟩ := h.linked
    exact ⟨i, o, hi, hframe.visible i o ho⟩

/-- A step that leaves a process what it has leaves what holds of it. -/
theorem State.Fits.frame {proc : Proc κ} (hframe : Frame r s s') (hgrows : Grows s s')
    (h : s.Fits r proc) : s'.Fits r proc := by
  cases proc with
  | off => exact fun k hk => h k ((hframe.locks k).mp hk)
  | idle p => exact ⟨fun k hk => h.1 k ((hframe.locks k).mp hk), h.2.grows hgrows⟩
  | chunk p last stage filled cleared mine =>
    obtain ⟨hgood, hchanged, hcounted, hphase⟩ := h
    refine ⟨hgood.grows hgrows, fun k hk => ?_, ?_, hphase⟩
    · have hlock := (hframe.locks k).mp hk
      exact (hchanged k hlock).frame hframe hgrows hlock
    · cases stage with
      | counted rows unpointed holding =>
        intro hunpointed hholding k hk hcovers
        have hclean := hcounted hunpointed hholding k hk hcovers
        unfold State.view at hclean ⊢
        by_cases hlock : s.locks k = some r
        · rw [if_pos ((hframe.locks k).mpr hlock)]
          rw [if_pos hlock] at hclean
          exact hclean
        · rw [if_neg fun hk' => hlock ((hframe.locks k).mp hk')]
          rw [if_neg hlock] at hclean
          rw [hgrows.clean k (hgood.began k hk) hclean]
          exact hclean
      | objects | fill | clear => trivial
  | freeze fresh mine =>
    refine ⟨fun k hk => ?_, fun k hk => (hframe.locks k).mpr (h.2 k hk)⟩
    have hlock := (hframe.locks k).mp hk
    obtain ⟨hnot, hfresh, i, o, hi, ho⟩ := h.1 k hlock
    exact ⟨fun hmem => hnot ((hframe.row k hlock).2.mp hmem), hfresh, i, o, hi, hframe.visible i o ho⟩

/-- A step of one process keeps the invariant if the tables grow, the others are left what they have, and what holds
of a process holds of the one that took it. -/
theorem State.Inv.of_step (hinv : s.Inv) (hgrows : Grows s s')
    (hothers : ∀ r', r' ≠ r → s'.procs r' = s.procs r' ∧ Frame r' s s') (hactor : s'.Fits r (s'.procs r))
    (hlinked : ∀ k ∈ s'.keys, ∀ i, (s'.row k).object_id = some i → (s'.committed i).isSome = true)
    (hsaved : ∀ p ∈ s'.saved, p ∈ s.saved ∨ p.Good s') : s'.Inv where
  fits r' := by
    by_cases hr : r' = r
    · exact hr ▸ hactor
    · obtain ⟨hproc, hframe⟩ := hothers r' hr
      rw [hproc]
      exact (hinv.fits r').frame hframe hgrows
  linked := hlinked
  saved p hp := (hsaved p hp).elim (fun h => (hinv.saved p h).grows hgrows) id

omit [LinearOrder κ] in
/-- A process that goes on changes nothing for the others. -/
theorem frame_go (s : State κ) (r r' : ℕ) (proc : Proc κ) : Frame r' s (s.go r proc) :=
  ⟨fun _ => Iff.rfl, fun _ _ => ⟨rfl, Iff.rfl⟩, fun _ _ h => h⟩

/-- A process goes on. -/
theorem State.Inv.go (hinv : s.Inv) {proc : Proc κ} (h : s.Fits r proc) : (s.go r proc).Inv := by
  refine hinv.of_step (r := r) (Grows.of_eq rfl rfl rfl)
    (fun r' hr => ⟨Function.update_of_ne hr .., frame_go s r r' proc⟩) ?_ hinv.linked fun p hp => .inl hp
  have hproc : (s.go r proc).procs r = proc := Function.update_self ..
  rw [hproc]
  exact h.frame (frame_go s r r proc) (Grows.of_eq rfl rfl rfl)

/-- A state is saved. -/
theorem State.Inv.save (hinv : s.Inv) (h : p.Good s) : ({ s with saved := s.saved ++ [p] } : State κ).Inv := by
  have hgrows : Grows s { s with saved := s.saved ++ [p] } := Grows.of_eq rfl rfl rfl
  have hframe : ∀ r', Frame r' s { s with saved := s.saved ++ [p] } :=
    fun r' => ⟨fun _ => Iff.rfl, fun _ _ => ⟨rfl, Iff.rfl⟩, fun _ _ h => h⟩
  refine hinv.of_step (r := 0) hgrows (fun r' _ => ⟨rfl, hframe r'⟩) ((hinv.fits 0).frame (hframe 0) hgrows)
    hinv.linked fun q hq => ?_
  rcases List.mem_append.mp hq with hq | hq
  · exact .inl hq
  · rw [List.mem_singleton.mp hq]
    exact .inr (h.grows hgrows)

omit [LinearOrder κ] in
/-- What `INSERT INTO batch_objects` does. -/
theorem addObject_cases {o : Object} (h : s.addObject r o = some s') :
    s' = s ∨ s' = { s with objects := s.objects ++ [(o, .pending r)] } := by
  unfold State.addObject at h
  split at h
  · exact .inl (Option.some.inj h).symm
  · split at h
    · contradiction
    · exact .inr (Option.some.inj h).symm

/-- An object is added. -/
theorem State.Inv.addObject (hinv : s.Inv) {o : Object} (h : s.addObject r o = some s') : Grows s s' ∧ s'.Inv := by
  rcases addObject_cases h with rfl | rfl
  · exact ⟨Grows.of_eq rfl rfl rfl, hinv⟩
  -- The ids that are there keep their objects.
  have hslot : ∀ (i : ℕ) (slot : Object × Standing), s.objects[i]? = some slot →
      (s.objects ++ [(o, Standing.pending r)])[i]? = some slot := by
    intro i slot hi
    rw [List.getElem?_append_left (List.getElem?_eq_some_iff.mp hi).1]
    exact hi
  have hcommitted : ∀ i o', s.committed i = some o' →
      ({ s with objects := s.objects ++ [(o, .pending r)] } : State κ).committed i = some o' := by
    intro i o' hi
    unfold State.committed at hi ⊢
    obtain ⟨slot, hi, ho⟩ := Option.bind_eq_some_iff.mp hi
    rw [hslot i slot hi]
    exact ho
  have hvisible : ∀ r' i o', s.visible r' i = some o' →
      ({ s with objects := s.objects ++ [(o, .pending r)] } : State κ).visible r' i = some o' := by
    intro r' i o' hi
    unfold State.visible at hi ⊢
    obtain ⟨slot, hi, ho⟩ := Option.bind_eq_some_iff.mp hi
    rw [hslot i slot hi]
    exact ho
  have hgrows : Grows s { s with objects := s.objects ++ [(o, .pending r)] } :=
    ⟨fun k hk => hk, fun k hk => reference_congr (hinv.linked k hk) hcommitted, fun _ _ _ => rfl, hcommitted⟩
  have hframe : ∀ r', Frame r' s { s with objects := s.objects ++ [(o, .pending r)] } :=
    fun r' => ⟨fun _ => Iff.rfl, fun _ _ => ⟨rfl, Iff.rfl⟩, hvisible r'⟩
  refine ⟨hgrows, hinv.of_step (r := r) hgrows (fun r' _ => ⟨rfl, hframe r'⟩)
    ((hinv.fits r).frame (hframe r) hgrows) ?_ fun p hp => .inl hp⟩
  intro k hk i hi
  obtain ⟨o', ho'⟩ := Option.isSome_iff_exists.mp (hinv.linked k hk i hi)
  rw [hcommitted i o' ho']
  rfl

/-- A transaction takes a row that is free. -/
theorem State.Inv.lock (hinv : s.Inv) {proc : Proc κ} (hfree : s.locks k = none ∨ s.locks k = some r)
    (h : (s.lock r k).Fits r proc) : Grows s ((s.lock r k).go r proc) ∧ ((s.lock r k).go r proc).Inv := by
  have hgrows : Grows s ((s.lock r k).go r proc) := Grows.of_eq rfl rfl rfl
  have hframe : ∀ r', r' ≠ r → Frame r' s ((s.lock r k).go r proc) := by
    intro r' hr
    refine ⟨fun k' => ?_, fun _ _ => ⟨rfl, Iff.rfl⟩, fun _ _ h => h⟩
    show Function.update s.locks k (some r) k' = some r' ↔ s.locks k' = some r'
    by_cases hk : k' = k
    · rw [hk, Function.update_self]
      rcases hfree with hnone | hown
      · rw [hnone]
        exact ⟨fun heq => absurd (Option.some.inj heq).symm hr, nofun⟩
      · rw [hown]
    · rw [Function.update_of_ne hk]
  refine ⟨hgrows, hinv.of_step (r := r) hgrows
    (fun r' hr => ⟨Function.update_of_ne hr .., hframe r' hr⟩) ?_ hinv.linked fun p hp => .inl hp⟩
  have hproc : ((s.lock r k).go r proc).procs r = proc := Function.update_self ..
  rw [hproc]
  exact h.frame (frame_go (s.lock r k) r r proc) (Grows.of_eq rfl rfl rfl)

/-- A transaction fails. -/
theorem State.Inv.stop (hinv : s.Inv) :
    Grows s ((s.release r .gone).go r .off) ∧ ((s.release r .gone).go r .off).Inv := by
  have hcommitted : ((s.release r .gone).go r .off).committed = s.committed :=
    funext fun i => State.committed_release_gone
  have hgrows : Grows s ((s.release r .gone).go r .off) :=
    ⟨fun _ hk => hk, fun _ _ => by rw [hcommitted]; rfl, fun _ _ _ => rfl, fun i o ho => by rw [hcommitted]; exact ho⟩
  have hframe : ∀ r', r' ≠ r → Frame r' s ((s.release r .gone).go r .off) := by
    intro r' hr
    refine ⟨fun k => ?_, fun _ _ => ⟨rfl, Iff.rfl⟩, fun i o ho => State.visible_release hr ho⟩
    show (if s.locks k = some r then none else s.locks k) = some r' ↔ s.locks k = some r'
    split
    · next hlock =>
      rw [hlock]
      exact ⟨nofun, fun heq => absurd (Option.some.inj heq).symm hr⟩
    · rfl
  refine ⟨hgrows, hinv.of_step (r := r) hgrows
    (fun r' hr => ⟨Function.update_of_ne hr .., hframe r' hr⟩) ?_ ?_ fun p hp => .inl hp⟩
  · have hproc : ((s.release r .gone).go r .off).procs r = .off := Function.update_self ..
    rw [hproc]
    intro k
    show (if s.locks k = some r then none else s.locks k) ≠ some r
    split
    · nofun
    · next hlock => exact hlock
  · intro k hk i hi
    rw [hcommitted]
    exact hinv.linked k hk i hi

/-- A transaction commits rows that it has changed or inserted. -/
theorem State.Inv.publish (hinv : s.Inv) {fresh : List κ} {proc : Proc κ}
    (hlock : ∀ k, s.locks k = some r → s.Changed r mine k ∨ s.Inserted r fresh mine k)
    (hfresh : ∀ k ∈ fresh, s.locks k = some r)
    (hproc : ∀ s', Grows s s' → s'.row = s.view r mine → (∀ k, s'.locks k ≠ some r) → s'.Fits r proc) :
    Grows s (((s.publish r fresh mine).release r .committed).go r proc) ∧
      (((s.publish r fresh mine).release r .committed).go r proc).Inv := by
  -- What is committed now is what the run saw.
  have hcommitted : (((s.publish r fresh mine).release r .committed).go r proc).committed = s.visible r :=
    funext fun i => State.committed_release
  have hgrows : Grows s (((s.publish r fresh mine).release r .committed).go r proc) := by
    refine ⟨fun k hk => List.mem_append_right _ hk, fun k hk => ?_, fun k hk hclean => ?_, fun i o ho => ?_⟩
    · rw [hcommitted]
      show (s.view r mine k).reference (s.visible r) = _
      unfold State.view
      split
      · next hown =>
        rcases hlock k hown with h | h
        · exact h.reference
        · exact absurd hk h.not_mem
      · exact reference_congr (hinv.linked k hk) fun i o ho => State.visible_of_committed ho
    · show s.view r mine k = s.row k
      unfold State.view
      split
      · next hown =>
        rcases hlock k hown with h | h
        · rw [h.dirty] at hclean
          contradiction
        · exact absurd hk h.not_mem
      · rfl
    · rw [hcommitted]
      exact State.visible_of_committed ho
  -- The other runs see their rows and locks as before.
  have hframe : ∀ r', r' ≠ r → Frame r' s (((s.publish r fresh mine).release r .committed).go r proc) := by
    intro r' hr
    refine ⟨fun k => ?_, fun k hk => ⟨?_, fun hmem => ?_, fun hmem => List.mem_append_right _ hmem⟩,
      fun i o ho => State.visible_release hr ho⟩
    · show (if s.locks k = some r then none else s.locks k) = some r' ↔ s.locks k = some r'
      split
      · next hown =>
        rw [hown]
        exact ⟨nofun, fun heq => absurd (Option.some.inj heq).symm hr⟩
      · rfl
    · show s.view r mine k = s.row k
      exact if_neg fun hown => hr (Option.some.inj (hk.symm.trans hown))
    · rcases List.mem_append.mp hmem with hmem | hmem
      · exact absurd (Option.some.inj (hk.symm.trans (hfresh k hmem))) hr
      · exact hmem
  -- The run holds no lock any more.
  have hlocks : ∀ k, (((s.publish r fresh mine).release r .committed).go r proc).locks k ≠ some r := by
    intro k
    show (if s.locks k = some r then none else s.locks k) ≠ some r
    split
    · nofun
    · next hown => exact hown
  -- The growth, the other runs, the run itself, and the link of every row.
  refine ⟨hgrows, hinv.of_step (r := r) hgrows
    (fun r' hr => ⟨Function.update_of_ne hr .., hframe r' hr⟩) ?_ ?_ fun p hp => .inl hp⟩
  · have hself : (((s.publish r fresh mine).release r .committed).go r proc).procs r = proc :=
      Function.update_self ..
    rw [hself]
    exact hproc _ hgrows rfl hlocks
  · intro k hk i hi
    rw [hcommitted]
    change (s.view r mine k).object_id = some i at hi
    unfold State.view at hi
    split at hi
    · next hown =>
      have hlinked : ∃ i o, (mine k).object_id = some i ∧ s.visible r i = some o :=
        (hlock k hown).elim (·.linked) (·.linked)
      obtain ⟨j, o, hj, ho⟩ := hlinked
      rw [Option.some.inj (hi.symm.trans hj), ho]
      rfl
    · next hother =>
      rcases List.mem_append.mp hk with hmem | hmem
      · exact absurd (hfresh k hmem) hother
      · obtain ⟨o, ho⟩ := Option.isSome_iff_exists.mp (hinv.linked k hmem i hi)
        rw [State.visible_of_committed ho]
        rfl

end Preserved

/-! ## Steps -/

section Steps

variable {s s' : State κ} {r : ℕ} {p : Progress κ} {k : κ} {mine : κ → Row}

/-- A pass that starts has gone over nothing. -/
theorem Progress.good_pass {phase : Phase} {began : List κ} (hbegan : ∀ k ∈ began, k ∈ s.keys)
    (hphase : phase ≠ .done) : (Progress.pass phase began).Good s where
  began := hbegan
  clear _ _ _ k _ hle := absurd hle (WithBot.not_coe_le_bot k)
  done h := absurd h hphase

/-- A row that a range has changed before stays so when it takes another. -/
theorem State.Changed.update {k' : κ} {row : Row} (hne : k' ≠ k) (h : s.Changed r mine k') :
    (s.lock r k).Changed r (Function.update mine k row) k' where
  mem := h.mem
  dirty := h.dirty
  reference := by
    rw [Function.update_of_ne hne]
    exact h.reference
  linked := by
    rw [Function.update_of_ne hne]
    exact h.linked

/-- A range takes a row and changes it. -/
theorem State.Inv.change (hinv : s.Inv) {last : κ} {stage : Stage} {filled cleared filled' cleared' : ℕ} {row : Row}
    (hproc : s.procs r = .chunk p last stage filled cleared mine) (hfree : s.free r k = true)
    (hstage : ∀ rows unpointed holding, stage ≠ .counted rows unpointed holding)
    (hchanged : (s.lock r k).Changed r (Function.update mine k row) k) :
    Grows s ((s.lock r k).go r (.chunk p last stage filled' cleared' (Function.update mine k row))) ∧
      ((s.lock r k).go r (.chunk p last stage filled' cleared' (Function.update mine k row))).Inv := by
  have hfits := hinv.fits r
  rw [hproc] at hfits
  obtain ⟨hgood, hmine, -, hphase⟩ := hfits
  rw [State.free, Bool.or_eq_true, decide_eq_true_eq, decide_eq_true_eq] at hfree
  refine hinv.lock hfree ⟨hgood.grows (Grows.of_eq rfl rfl rfl), fun k' hk' => ?_, ?_, hphase⟩
  · by_cases hk : k' = k
    · exact hk ▸ hchanged
    · refine State.Changed.update hk (hmine k' ?_)
      change Function.update s.locks k (some r) k' = some r at hk'
      rwa [Function.update_of_ne hk] at hk'
  · cases stage with
    | counted rows unpointed holding => exact absurd rfl (hstage rows unpointed holding)
    | objects | fill | clear => trivial

/-- `_FILL` of one row. -/
theorem State.Inv.fill (hinv : s.Inv) {last : κ} {filled cleared i : ℕ} {o : Object}
    (hproc : s.procs r = .chunk p last .fill filled cleared mine) (ho : s.visible r i = some o) (hk : k ∈ s.keys)
    (hfree : s.free r k = true) (hnull : (s.view r mine k).object_id = none)
    (hcontains : (s.view r mine k).snapshot_ref.Contains o) :
    Grows s ((s.lock r k).go r (.chunk p last .fill (filled + 1) cleared
        (Function.update mine k { s.view r mine k with object_id := some i }))) ∧
      ((s.lock r k).go r (.chunk p last .fill (filled + 1) cleared
        (Function.update mine k { s.view r mine k with object_id := some i }))).Inv := by
  have hfits := hinv.fits r
  rw [hproc] at hfits
  -- A row that the range has changed is linked, so that this one is as the others see it.
  have hother : s.locks k ≠ some r := by
    intro hown
    obtain ⟨j, -, hj, -⟩ := (hfits.2.1 k hown).linked
    rw [State.view, if_pos hown, hj] at hnull
    contradiction
  have hview : s.view r mine k = s.row k := if_neg hother
  rw [hview] at hnull hcontains ⊢
  refine hinv.change hproc hfree (fun _ _ _ => nofun) ⟨hk, ?_, ?_, ?_⟩
  · show (s.row k).clean = false
    rw [Row.clean, hnull]
    rfl
  · rw [Function.update_self]
    show ({ s.row k with object_id := some i } : Row).reference (s.visible r) = (s.row k).reference s.committed
    rw [reference_linked rfl ho, reference_unlinked hnull]
    exact merge_of_contains hcontains
  · rw [Function.update_self]
    exact ⟨i, o, rfl, ho⟩

/-- `_CLEAR` of one row. -/
theorem State.Inv.clear (hinv : s.Inv) {last : κ} {filled cleared i : ℕ} {o : Object}
    (hproc : s.procs r = .chunk p last .clear filled cleared mine) (hi : (s.view r mine k).object_id = some i)
    (ho : s.visible r i = some o) (hk : k ∈ s.keys) (hfree : s.free r k = true)
    (hholds : (s.view r mine k).snapshot_ref.holdsAny = true)
    (hcontains : (s.view r mine k).snapshot_ref.Contains o) :
    Grows s ((s.lock r k).go r (.chunk p last .clear filled (cleared + 1) (Function.update mine k
        { s.view r mine k with snapshot_ref := (s.view r mine k).snapshot_ref.memberFields }))) ∧
      ((s.lock r k).go r (.chunk p last .clear filled (cleared + 1) (Function.update mine k
        { s.view r mine k with snapshot_ref := (s.view r mine k).snapshot_ref.memberFields }))).Inv := by
  have hfits := hinv.fits r
  rw [hproc] at hfits
  have hsame : (s.view r mine k).reference (s.visible r) = (s.row k).reference s.committed := by
    unfold State.view
    split
    · next hown => exact (hfits.2.1 k hown).reference
    · exact reference_congr (hinv.linked k hk) fun i o ho => State.visible_of_committed ho
  have hdirty : (s.row k).clean = false := by
    by_cases hown : s.locks k = some r
    · exact (hfits.2.1 k hown).dirty
    · rw [State.view, if_neg hown] at hholds
      rw [Row.clean, hholds, Bool.not_true, Bool.and_false]
  refine hinv.change hproc hfree (fun _ _ _ => nofun) ⟨hk, hdirty, ?_, ?_⟩
  · rw [Function.update_self]
    calc ({ s.view r mine k with snapshot_ref := (s.view r mine k).snapshot_ref.memberFields } : Row).reference
          (s.visible r)
        = (s.view r mine k).snapshot_ref.memberFields.merge o.json := reference_linked hi ho
      _ = (s.view r mine k).snapshot_ref := memberFields_merge hcontains
      _ = (s.view r mine k).snapshot_ref.merge o.json := (merge_of_contains hcontains).symm
      _ = (s.view r mine k).reference (s.visible r) := (reference_linked hi ho).symm
      _ = (s.row k).reference s.committed := hsame
  · rw [Function.update_self]
    exact ⟨i, o, hi, ho⟩

/-- `INSERT INTO batch_requests`: a new row comes locked, and points at the object that its run stored. -/
theorem State.Inv.insert (hinv : s.Inv) {fresh : List κ} {i : ℕ} {o : Object} {ref : Ref}
    (hproc : s.procs r = .freeze fresh mine) (ho : s.visible r i = some o) (hk : k ∉ s.keys)
    (hnone : s.locks k = none) :
    Grows s ((s.lock r k).go r (.freeze (k :: fresh) (Function.update mine k ⟨ref, some i⟩))) ∧
      ((s.lock r k).go r (.freeze (k :: fresh) (Function.update mine k ⟨ref, some i⟩))).Inv := by
  have hfits := hinv.fits r
  rw [hproc] at hfits
  refine hinv.lock (.inl hnone) ⟨fun k' hk' => ?_, fun k' hk' => ?_⟩
  · by_cases heq : k' = k
    · subst heq
      refine ⟨hk, List.mem_cons_self, i, o, ?_, ho⟩
      rw [Function.update_self]
    · change Function.update s.locks k (some r) k' = some r at hk'
      rw [Function.update_of_ne heq] at hk'
      obtain ⟨hnot, hfresh, hlinked⟩ := hfits.1 k' hk'
      refine ⟨hnot, List.mem_cons_of_mem k hfresh, ?_⟩
      rw [Function.update_of_ne heq]
      exact hlinked
  · show Function.update s.locks k (some r) k' = some r
    rcases List.mem_cons.mp hk' with rfl | hk'
    · exact Function.update_self ..
    · rw [Function.update_of_ne fun heq => ?_]
      · exact hfits.2 k' hk'
      · rw [heq] at hk'
        rw [hfits.2 k hk'] at hnone
        contradiction

/-- `_COUNT`: what is counted of the chunk is what its run sees. -/
theorem State.Inv.count (hinv : s.Inv) {last : κ} {stage : Stage} {filled cleared : ℕ}
    (hproc : s.procs r = .chunk p last stage filled cleared mine) :
    (s.go r (.chunk p last (.counted (s.keys.filter (p.covers last)).length
      ((s.keys.filter (p.covers last)).filter fun k => (s.view r mine k).object_id.isNone).length
      ((s.keys.filter (p.covers last)).filter fun k => (s.view r mine k).snapshot_ref.holdsAny).length)
      filled cleared mine)).Inv := by
  have hfits := hinv.fits r
  rw [hproc] at hfits
  obtain ⟨hgood, hmine, -, hphase⟩ := hfits
  refine hinv.go ⟨hgood, hmine, ?_, hphase⟩
  intro hunpointed hholding k hk hcovers
  have hmem : k ∈ s.keys.filter (p.covers last) := List.mem_filter.mpr ⟨hgood.began k hk, hcovers⟩
  have hlinked := List.filter_eq_nil_iff.mp (List.eq_nil_of_length_eq_zero hunpointed) k hmem
  have hholds := List.filter_eq_nil_iff.mp (List.eq_nil_of_length_eq_zero hholding) k hmem
  rw [Row.clean, Bool.and_eq_true, Bool.not_eq_true']
  refine ⟨?_, Bool.eq_false_iff.mpr hholds⟩
  rwa [Bool.not_eq_true, Option.isNone_eq_false_iff] at hlinked

/-- The commit of a range. -/
theorem State.Inv.commitChunk (hinv : s.Inv) {last : κ} {rows unpointed holding filled cleared : ℕ}
    (hproc : s.procs r = .chunk p last (.counted rows unpointed holding) filled cleared mine) :
    Grows s (((s.publish r [] mine).release r .committed).go r
        (.idle { p with cursor := last, counts := p.counts.add rows filled cleared unpointed holding })) ∧
      (((s.publish r [] mine).release r .committed).go r
        (.idle { p with cursor := last, counts := p.counts.add rows filled cleared unpointed holding })).Inv := by
  have hfits := hinv.fits r
  rw [hproc] at hfits
  obtain ⟨hgood, hmine, hcounted, hphase⟩ := hfits
  refine hinv.publish (fun k hk => .inl (hmine k hk)) nofun fun s' hgrows hrow hlocks => ⟨hlocks, ?_⟩
  refine ⟨fun k hk => hgrows.keys k (hgood.began k hk), ?_, fun hdone => ?_⟩
  · intro hclear hunpointed hholding k hk hle
    -- Both counts are zero for the ranges before, and for this one.
    have hu : p.counts.unpointed + unpointed = 0 := hunpointed
    have hh : p.counts.holding + holding = 0 := hholding
    by_cases hbefore : (k : WithBot κ) ≤ p.cursor
    · have hclean := hgood.clear hclear (by omega) (by omega) k hk hbefore
      rw [hgrows.clean k (hgood.began k hk) hclean]
      exact hclean
    · have hcovers : p.covers last k = true := by
        rw [Progress.covers, Bool.and_eq_true, decide_eq_true_eq, decide_eq_true_eq]
        exact ⟨not_le.mp hbefore, WithBot.coe_le_coe.mp hle⟩
      rw [hrow]
      exact hcounted (by omega) (by omega) k hk hcovers
  · have hdone : p.phase = .done := hdone
    rw [hdone] at hphase
    exact absurd hphase (by decide)

/-- A step of a process that only goes on. -/
theorem State.Inv.goes (hinv : s.Inv) {proc : Proc κ} (h : s.Fits r proc) :
    Grows s (s.go r proc) ∧ (s.go r proc).Inv := ⟨Grows.of_eq rfl rfl rfl, hinv.go h⟩

/-- One step. -/
theorem State.Inv.step (hinv : s.Inv) {a : Act κ} (h : step s a = some s') : Grows s s' ∧ s'.Inv := by
  cases a with
  -- A run starts at a saved progress, or stops.
  | resume r n =>
    have hfits := hinv.fits r
    dsimp only [Objects.step] at h
    split at h
    · next p hproc hsaved =>
      obtain rfl := Option.some.inj h
      rw [hproc] at hfits
      exact hinv.goes ⟨hfits, hinv.saved p (List.mem_of_getElem? hsaved)⟩
    · contradiction
  | stop r =>
    obtain rfl := Option.some.inj h
    exact hinv.stop
  | checkpoint r =>
    have hfits := hinv.fits r
    dsimp only [Objects.step] at h
    split at h
    · next p hproc =>
      obtain rfl := Option.some.inj h
      rw [hproc] at hfits
      exact ⟨Grows.of_eq rfl rfl rfl, hinv.save hfits.2⟩
    · contradiction
  -- The rows of the pass are locked, and the pass begins.
  | hold r =>
    have hfits := hinv.fits r
    dsimp only [Objects.step] at h
    split at h
    · next p hproc =>
      rw [Option.ite_none_right_eq_some] at h
      obtain ⟨-, h⟩ := h
      obtain rfl := Option.some.inj h
      rw [hproc] at hfits
      exact hinv.goes ⟨hfits.1, hfits.2.began, nofun, nofun⟩
    · contradiction
  | enter r =>
    have hfits := hinv.fits r
    dsimp only [Objects.step] at h
    split at h
    · next p hproc =>
      rw [Option.ite_none_right_eq_some] at h
      obtain ⟨-, h⟩ := h
      obtain rfl := Option.some.inj h
      rw [hproc] at hfits
      exact hinv.goes ⟨hfits.1, Progress.good_pass (fun _ hk => hk) nofun⟩
    · contradiction
  -- A chunk: its objects, its pointers, and the columns that go.
  | chunk r last =>
    have hfits := hinv.fits r
    dsimp only [Objects.step] at h
    split at h
    · next p hproc =>
      rw [Option.ite_none_right_eq_some] at h
      -- A chunk is begun only while a pass is under way.
      obtain ⟨⟨hphase, -, -⟩, h⟩ := h
      obtain rfl := Option.some.inj h
      rw [hproc] at hfits
      exact hinv.goes ⟨hfits.2, fun k hk => absurd hk (hfits.1 k), trivial, hphase⟩
    · contradiction
  | object r k =>
    dsimp only [Objects.step] at h
    split at h
    · rw [Option.ite_none_right_eq_some, Option.bind_eq_some_iff] at h
      obtain ⟨-, o, -, h⟩ := h
      exact hinv.addObject h
    · contradiction
  | next r =>
    have hfits := hinv.fits r
    dsimp only [Objects.step] at h
    split at h
    · next p last filled cleared mine hproc =>
      obtain rfl := Option.some.inj h
      rw [hproc] at hfits
      exact hinv.goes ⟨hfits.1, hfits.2.1, trivial, hfits.2.2.2⟩
    · next p last filled cleared mine hproc =>
      rw [Option.ite_none_right_eq_some] at h
      obtain ⟨-, h⟩ := h
      obtain rfl := Option.some.inj h
      rw [hproc] at hfits
      exact hinv.goes ⟨hfits.1, hfits.2.1, trivial, hfits.2.2.2⟩
    · contradiction
  -- A row is filled where it names no object, by one that contains what the row has.
  | fill r k i =>
    dsimp only [Objects.step] at h
    split at h
    · next p last filled cleared mine hproc =>
      split at h
      · next o ho =>
        rw [Option.ite_none_right_eq_some] at h
        obtain ⟨⟨-, hk, hfree, hnull, -, -, hcontains⟩, h⟩ := h
        obtain rfl := Option.some.inj h
        exact hinv.fill hproc ho hk hfree hnull hcontains
      · contradiction
    · contradiction
  -- A row is cleared where its object contains what the row has.
  | clear r k =>
    dsimp only [Objects.step] at h
    split at h
    · next p last filled cleared mine hproc =>
      split at h
      · next o hobject =>
        rw [Option.ite_none_right_eq_some] at h
        obtain ⟨⟨-, hk, hfree, hholds, hcontains⟩, h⟩ := h
        obtain rfl := Option.some.inj h
        obtain ⟨i, hi, ho⟩ := Option.bind_eq_some_iff.mp hobject
        exact hinv.clear hproc hi ho hk hfree hholds hcontains
      · contradiction
    · contradiction
  -- The chunk is counted and committed, and the pass ends behind the last of them.
  | count r =>
    dsimp only [Objects.step] at h
    split at h
    · next p last stage filled cleared mine hproc =>
      rw [Option.ite_none_right_eq_some] at h
      obtain ⟨-, h⟩ := h
      obtain rfl := Option.some.inj h
      exact ⟨Grows.of_eq rfl rfl rfl, hinv.count hproc⟩
    · contradiction
  | commit r =>
    have hfits := hinv.fits r
    dsimp only [Objects.step] at h
    split at h
    · next p last rows unpointed holding filled cleared mine hproc =>
      obtain rfl := Option.some.inj h
      exact hinv.commitChunk hproc
    · next fresh mine hproc =>
      obtain rfl := Option.some.inj h
      rw [hproc] at hfits
      exact hinv.publish (fun k hk => .inr (hfits.1 k hk)) hfits.2 fun s' _ _ hlocks => hlocks
    · contradiction
  | finish r =>
    have hfits := hinv.fits r
    dsimp only [Objects.step] at h
    split at h
    · next p hproc =>
      rw [hproc] at hfits
      split at h
      · contradiction
      · next hend =>
        -- No key is past the cursor.
        have hbefore : ∀ k ∈ s.keys, (k : WithBot κ) ≤ p.cursor := by
          intro k hk
          rw [Bool.not_eq_true, List.any_eq_false] at hend
          have hnot := hend k hk
          rw [decide_eq_true_eq] at hnot
          exact not_lt.mp hnot
        split at h
        · obtain rfl := Option.some.inj h
          exact hinv.goes ⟨hfits.1, Progress.good_pass nofun nofun⟩
        · next hphase =>
          -- A pass that found nothing to point and nothing to clear ends the phase: then all rows
          -- before the cursor are as they should be.
          split at h
          · next hzero =>
            obtain rfl := Option.some.inj h
            refine hinv.goes ⟨hfits.1, hfits.2.began, nofun, fun _ k hk => ?_⟩
            exact hfits.2.clear hphase hzero.2.1 hzero.2.2 k hk (hbefore k (hfits.2.began k hk))
          · obtain rfl := Option.some.inj h
            exact hinv.goes ⟨hfits.1, Progress.good_pass (fun _ hk => hk) nofun⟩
        · contradiction
    · contradiction
  -- A new request points at its object from the start.
  | freeze r =>
    have hfits := hinv.fits r
    dsimp only [Objects.step] at h
    split at h
    · next hproc =>
      obtain rfl := Option.some.inj h
      rw [hproc] at hfits
      exact hinv.goes ⟨fun k hk => absurd hk (hfits k), nofun⟩
    · contradiction
  | adopt r o =>
    dsimp only [Objects.step] at h
    split at h
    · exact hinv.addObject h
    · contradiction
  | insert r k ref i compact =>
    dsimp only [Objects.step] at h
    split at h
    · next fresh mine hproc =>
      split at h
      · next o ho =>
        rw [Option.ite_none_right_eq_some] at h
        obtain ⟨⟨-, hk, hnone⟩, h⟩ := h
        obtain rfl := Option.some.inj h
        exact hinv.insert hproc ho hk hnone
      · contradiction
    · contradiction

/-- The tables before the first run: links name objects, and only the state to start from is saved. -/
structure State.Initial (s : State κ) : Prop where
  linked : ∀ k ∈ s.keys, ∀ i, (s.row k).object_id = some i → (s.committed i).isSome = true
  locks : ∀ k, s.locks k = none
  procs : ∀ r, s.procs r = .off
  saved : s.saved = [.pass .backfill []]

/-- The tables before the first run meet the invariant. -/
theorem State.Initial.inv (h : s.Initial) : s.Inv where
  fits r := by
    rw [h.procs r]
    intro k hk
    rw [h.locks k] at hk
    contradiction
  linked := h.linked
  saved p hp := by
    rw [h.saved, List.mem_singleton] at hp
    rw [hp]
    exact Progress.good_pass nofun nofun

/-- A whole run keeps the invariant, and the tables grow. -/
theorem State.Inv.run (hinv : s.Inv) (h : Run Objects.step Always s s') : Grows s s' ∧ s'.Inv := by
  refine h.invariant (I := fun t => Grows s t ∧ t.Inv) ⟨Grows.of_eq rfl rfl rfl, hinv⟩ ?_
  intro t a t' ht _ hs
  obtain ⟨hgrows, hinv'⟩ := ht.2.step hs
  exact ⟨ht.1.trans hgrows, hinv'⟩

end Steps

/-- In every state that any number of runs and of `snapshot_specs` reach: the reference of a row never changes again;
a link names an object that has the five fields of the reference; and where a run is done, every row that was there
when its last pass started is linked, holds none of the fields, and never changes again. -/
theorem changes_no_reference {s₀ s : State κ} (h₀ : s₀.Initial) (h : Run step Always s₀ s) :
    (∀ k ∈ s.keys, ∀ s', Run step Always s s' →
      k ∈ s'.keys ∧ (s'.row k).reference s'.committed = (s.row k).reference s.committed) ∧
    (∀ k ∈ s.keys, ∀ i, (s.row k).object_id = some i → ∃ o, s.committed i = some o ∧
      ∀ f ∈ objectFields, (s.row k).reference s.committed f = o.json f) ∧
    ∀ p, (p ∈ s.saved ∨ ∃ r, s.procs r = .idle p) → p.phase = .done → ∀ k ∈ p.began,
      (s.row k).object_id.isSome = true ∧ (∀ f ∈ objectFields, (s.row k).snapshot_ref f = none) ∧
        ∀ s', Run step Always s s' → s'.row k = s.row k := by
  have hinv : s.Inv := (h₀.inv.run h).2
  refine ⟨fun k hk s' hrun => ?_, fun k hk i hi => ?_, fun p hp hdone k hk => ?_⟩
  · have hgrows := (hinv.run hrun).1
    exact ⟨hgrows.keys k hk, hgrows.reference k hk⟩
  · obtain ⟨o, ho⟩ := Option.isSome_iff_exists.mp (hinv.linked k hk i hi)
    refine ⟨o, ho, fun f hf => ?_⟩
    rw [reference_linked hi ho, merge_json hf]
  · have hgood : p.Good s := by
      rcases hp with hp | ⟨r, hr⟩
      · exact hinv.saved p hp
      · have hfits := hinv.fits r
        rw [hr] at hfits
        exact hfits.2
    have hclean := hgood.done hdone k hk
    have hparts := hclean
    rw [Row.clean, Bool.and_eq_true, Bool.not_eq_true', Ref.holdsAny, List.any_eq_false] at hparts
    refine ⟨hparts.1, fun f hf => ?_, fun s' hrun => (hinv.run hrun).1.clean k (hgood.began k hk) hclean⟩
    exact Option.not_isSome_iff_eq_none.mp (hparts.2 f hf)

/-- A whole reference to a member of a bundle. -/
def wholeRef : Ref := Ref.merge (fun f => if f = "member" then some (.str "a") else none)
  (Object.json ⟨"b", "k", "digest", 10, 3⟩)

/-- A table of one row, which holds its whole reference. -/
def oneRow : State ℕ where
  keys := [1]
  row _ := ⟨wholeRef, none⟩
  locks _ := none
  objects := []
  saved := [.pass .backfill []]
  procs _ := .off

/-- A run that goes through: the row is linked, and cleared in the first pass after the gate; the second finds
nothing. -/
def consolidates : List (Act ℕ) :=
  [.resume 0 0, .chunk 0 1, .object 0 1, .next 0, .fill 0 1 0, .count 0, .commit 0, .finish 0, .enter 0,
    .chunk 0 1, .next 0, .next 0, .clear 0 1, .count 0, .commit 0, .finish 0,
    .chunk 0 1, .next 0, .next 0, .count 0, .commit 0, .finish 0]

/-- A run between two ranges. -/
def Proc.isIdle (test : Progress κ → Bool) : Proc κ → Bool
  | .idle p => test p
  | .off | .chunk .. | .freeze .. => false

omit [LinearOrder κ] in
/-- What is known of a run between two ranges. -/
theorem Proc.of_isIdle {test : Progress κ → Bool} {proc : Proc κ} (h : proc.isIdle test = true) :
    ∃ p, proc = .idle p ∧ test p = true := by
  cases proc <;> first | exact ⟨_, rfl, h⟩ | contradiction

/-- The run is done, its row holds no field of its bundle, and the reference is the one that it held. -/
theorem changes_no_reference_cleared :
    ∃ s : State ℕ, Run step Always oneRow s ∧ (s.row 1).object_id.isSome = true ∧
      (∀ f ∈ objectFields, (s.row 1).snapshot_ref f = none) ∧ (s.row 1).reference s.committed = wholeRef := by
  have hacts : (runList step oneRow consolidates).any (fun s =>
      (s.procs 0).isIdle fun p => p.phase = .done && p.began = [1]) = true := by
    decide +kernel
  obtain ⟨s, hrun, hs⟩ := exists_run_of_any hacts
  have hinitial : oneRow.Initial := ⟨fun _ _ _ => nofun, fun _ => rfl, fun _ => rfl, rfl⟩
  obtain ⟨-, -, hdone⟩ := changes_no_reference hinitial hrun
  obtain ⟨hkept, -, -⟩ := changes_no_reference hinitial .start
  have hreference := (hkept 1 (List.mem_singleton_self 1) s hrun).2
  obtain ⟨p, hproc, hs⟩ := Proc.of_isIdle hs
  rw [Bool.and_eq_true, decide_eq_true_eq, decide_eq_true_eq] at hs
  obtain ⟨hlinked, hnone, -⟩ := hdone p (.inr ⟨0, hproc⟩) hs.1 1 (hs.2 ▸ List.mem_singleton_self 1)
  exact ⟨s, hrun, hlinked, hnone, hreference⟩

end JobScripts.Batch.Objects
