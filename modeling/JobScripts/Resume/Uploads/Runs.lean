import Mathlib.Algebra.BigOperators.Group.List.Basic
import Mathlib.Algebra.Order.Ring.Int
import Mathlib.Data.List.Sort
import Mathlib.Logic.Function.Basic
import JobScripts.Lib.Run
import JobScripts.Resume.TextParts

/-!
# Resume uploads

A PDF arrives in parts. `_store_part` of `api/routers/resume_uploads.py` writes a receipt, the object and the acceptance
in three steps, `complete_upload` closes the upload, and any number of runs of `handle_process_resume_upload` of
`tasks/resume_uploads.py` read the parts back, store their text and save the resume. The model is of one upload and the
resume of its name. The object store answers anything; every read is checked against the receipt.
-/

namespace JobScripts.Resume

open Lib

variable {D : Type}

/-! ## Parts and texts -/

/-- A Python `bytes`. -/
abbrev Bytes := List UInt8

/-- `PART_BYTES`: the bytes of one part of a file. -/
def partBytes : ℕ := 1024 * 1024

/-- What the code takes from libraries: `hashlib.sha256`, the texts of the pages of a PDF, and `str.isspace`. -/
structure Env (D : Type) where
  sha256 : Bytes → D
  pages : Bytes → List Text
  isSpace : ℕ → Bool

/-- A request that is refused. -/
structure Problem where
  status : ℕ
  code : String
  detail : String

/-- `page_text`: the texts of the pages, with a line end before each but the first. -/
def pageText (pages : List Text) : List Text :=
  pages.zipIdx.flatMap fun (text, index) => if index ≠ 0 then [[10], text] else [text]

/-- The text of a PDF: its pages, a line each. -/
def Env.text (e : Env D) (pdf : Bytes) : Text := List.intercalate [10] (e.pages pdf)

/-- `BlobPartStore.read`, with what the object store answers. The digest of a receipt has the form of one. -/
def Env.read [DecidableEq D] (e : Env D) (sha256 : D) (size : ℕ) (response : Option Bytes) : Except String Bytes :=
  if size < 1 ∨ size > partBytes then .error "Invalid file part reference"
  else
    match response with
    | none => .error "File part unavailable"
    | some body =>
      let raw := body.take (size + 1)
      if raw.length ≠ size ∨ e.sha256 raw ≠ sha256 then .error "File part integrity check failed" else .ok raw

/-- `BlobPartStore.put`: the store accepts the object, and the bytes are read back. -/
def Env.put [DecidableEq D] (e : Env D) (data : Bytes) (accepted : Bool) (response : Option Bytes) : Except String Unit :=
  if !accepted then .error "File part upload failed"
  else do
    let raw ← e.read (e.sha256 data) data.length response
    if raw ≠ data then .error "File part round-trip mismatch" else .ok ()

/-! ## The tables -/

/-- The status of an upload. -/
inductive Status
  | receiving
  | processing
  | failed
  | ready
  deriving DecidableEq

/-- A row of `resume_uploads`. -/
structure Upload where
  id : ℕ
  filename : String
  size : ℕ
  received_size : ℕ
  next_part : ℕ
  status : Status
  error : Option String
  completed_resume_id : Option ℕ

/-- A row of `resume_upload_parts`. `bytes` is not a column: the bytes that the receipt was written for. -/
structure Part (D : Type) where
  part_index : ℕ
  sha256 : D
  size : ℕ
  verified : Bool
  bytes : Bytes

/-- A row of `user_resumes`, and of `user_resume_revisions`. -/
structure UserResume where
  id : ℕ
  filename : Option String
  pdf_upload_id : Option ℕ
  text_version_id : Option ℕ

/-- A row of `resume_text_versions`. -/
structure Version where
  chars : ℕ := 0
  part_count : ℕ := 0
  ready : Bool := false

/-! ## Requests -/

/-- A request for a part that is no longer taken. -/
def uploadClosed : Problem := ⟨409, "UPLOAD_CLOSED", "this upload is no longer receiving parts"⟩

/-- A part before its turn. -/
def partOrder : Problem := ⟨409, "PART_ORDER", "send the next part first"⟩

/-- Other bytes for a part. -/
def partChanged : Problem := ⟨409, "PART_CHANGED", "this part already has different bytes"⟩

/-- More bytes than were declared. -/
def sizeMismatch : Problem := ⟨409, "SIZE_MISMATCH", "parts exceed the declared file size"⟩

/-- Uploads are off. -/
def uploadsPaused : Problem := ⟨503, "PDF_UPLOADS_PAUSED", "PDF uploads are paused"⟩

/-- Bytes are missing. -/
def uploadIncomplete : Problem := ⟨409, "UPLOAD_INCOMPLETE", "send the remaining parts first"⟩

/-- The first transaction of `_store_part`: whether the request repeats a part, and the receipts. -/
def receipt [DecidableEq D] (e : Env D) (row : Upload) (parts : List (Part D)) (index : ℕ) (data : Bytes) :
    Except Problem (Bool × List (Part D)) :=
  if row.status ≠ .receiving then .error uploadClosed
  else if index > row.next_part then .error partOrder
  else
    let saved := parts.find? fun p => p.part_index = index
    if index < row.next_part then
      match saved with
      | none => .error partChanged
      | some p => if p.sha256 ≠ e.sha256 data ∨ p.size ≠ data.length then .error partChanged else .ok (true, parts)
    else if row.received_size + data.length > row.size then .error sizeMismatch
    else
      match saved with
      | none => .ok (false, parts ++ [⟨index, e.sha256 data, data.length, false, data⟩])
      | some p => if p.sha256 ≠ e.sha256 data ∨ p.size ≠ data.length then .error partChanged else .ok (false, parts)

/-- The second transaction of `_store_part`. A part that another request has accepted is left as it is. -/
def accept (row : Upload) (parts : List (Part D)) (index : ℕ) (data : Bytes) :
    Except Problem (Upload × List (Part D)) :=
  if row.status ≠ .receiving then .error uploadClosed
  else if index = row.next_part then
    .ok ({ row with next_part := row.next_part + 1, received_size := row.received_size + data.length },
      parts.map fun p => if p.part_index = index then { p with verified := true } else p)
  else .ok (row, parts)

/-- `complete_upload`. The task that it enqueues is a run that starts later. -/
def completeUpload (enabled : Bool) (row : Upload) : Except Problem Upload :=
  if !enabled then .error uploadsPaused
  else if row.status = .receiving ∨ row.status = .failed then
    if row.received_size ≠ row.size then .error uploadIncomplete
    else .ok { row with status := .processing, error := none }
  else .ok row

/-! ## Runs -/

/-- A request in flight, after its first transaction. -/
structure Put where
  index : ℕ
  data : Bytes
  replay : Bool
  stored : Bool := false

/-- How far a run of the handler is. -/
inductive Phase (D : Type)
  /-- The row was read. -/
  | marking
  /-- The status is `processing`. -/
  | checking
  /-- `_extract` reads the parts, from the rows that it has fetched. -/
  | copying (rows : List (Part D)) (next_part written : ℕ) (pdf : Bytes)
  /-- `store_text` writes a version, with the parts still to write. -/
  | storing (version : ℕ) (todo : List Text) (index : ℕ) (gathered : Gathered)
  /-- `_save_resume`, with the version. -/
  | saving (version : ℕ)
  /-- An exception was raised. -/
  | failing (message : String)

/-- A run of the handler, with the row that it read. -/
structure Job (D : Type) where
  row : Upload
  phase : Phase D

/-- The tables, the requests and the runs. `saves` counts the writes of the resume. -/
structure State (D : Type) where
  upload : Upload
  parts : List (Part D)
  /-- The row of `user_resumes` with the person and name of the upload. -/
  resume : Option UserResume
  /-- The next identity of `user_resumes`. -/
  next_resume_id : ℕ
  revisions : List UserResume
  versions : ℕ → Option Version
  /-- The rows of `resume_text_parts` of a version: the index and the text. -/
  text_parts : ℕ → List (ℕ × Text)
  saves : ℕ
  puts : ℕ → Option Put
  jobs : ℕ → Option (Job D)

/-- What can happen next. -/
inductive Act
  /-- A request arrives, with at least one byte and at most `PART_BYTES`. -/
  | receive (k index : ℕ) (data : Bytes)
  /-- The object of a request is written, and read back. -/
  | object (k : ℕ) (accepted : Bool) (response : Option Bytes)
  | accept (k : ℕ)
  /-- A request is lost. -/
  | drop (k : ℕ)
  | complete (enabled : Bool)
  /-- A run reads the row. -/
  | start (r : ℕ)
  /-- It writes the status. -/
  | mark (r : ℕ)
  /-- It reads the setting. -/
  | check (r : ℕ) (enabled : Bool)
  /-- `_parts`. -/
  | fetch (r : ℕ)
  /-- `copy_to`, for the next row. -/
  | copy (r : ℕ) (response : Option Bytes)
  /-- `store_text` inserts a version under a fresh id. -/
  | version (r id : ℕ)
  /-- It inserts a part. -/
  | part (r : ℕ)
  /-- It ends. -/
  | ready (r : ℕ)
  /-- `_save_resume`. -/
  | save (r : ℕ) (enabled : Bool)
  /-- Anything in the `try` raises. -/
  | fail (r : ℕ) (message : String)
  /-- The handler's `except`. -/
  | failed (r : ℕ)
  /-- A run is interrupted. -/
  | crash (r : ℕ)

/-- A run goes on. -/
def State.go (s : State D) (r : ℕ) (job : Option (Job D)) : State D := { s with jobs := Function.update s.jobs r job }

/-- A request goes on. -/
def State.request (s : State D) (k : ℕ) (put : Option Put) : State D := { s with puts := Function.update s.puts k put }

/-- The runs, when one goes on. -/
theorem State.go_jobs (s : State D) (r : ℕ) (job : Option (Job D)) (r' : ℕ) :
    (s.go r job).jobs r' = if r' = r then job else s.jobs r' := Function.update_apply ..

/-- The requests, when one goes on. -/
theorem State.request_puts (s : State D) (k : ℕ) (put : Option Put) (k' : ℕ) :
    (s.request k put).puts k' = if k' = k then put else s.puts k' := Function.update_apply ..

/-- `_parts`, from an index. -/
def fetchParts (parts : List (Part D)) (first count : ℕ) : List (Part D) :=
  ((parts.filter fun p => first ≤ p.part_index).insertionSort fun p q => p.part_index ≤ q.part_index).take count

/-- The writes of `_save_resume`: the resume that is replaced is archived first. -/
def State.saveResume (s : State D) (row : Upload) (version : ℕ) : State D :=
  let id := (s.resume.map (·.id)).getD s.next_resume_id
  { s with
    revisions := s.revisions ++ s.resume.toList
    resume := some ⟨id, some row.filename, some row.id, some version⟩
    next_resume_id := if s.resume.isSome then s.next_resume_id else s.next_resume_id + 1
    upload := { s.upload with status := .ready, error := none, completed_resume_id := some id }
    saves := s.saves + 1 }

/-- One step. -/
def step [DecidableEq D] (e : Env D) (s : State D) : Act → Option (State D)
  | .receive k index data =>
    if (s.puts k).isSome ∨ data = [] ∨ data.length > partBytes then none
    else
      match receipt e s.upload s.parts index data with
      | .error _ => some s
      | .ok (replay, parts) => some ({ s with parts := parts }.request k (some ⟨index, data, replay, false⟩))
  | .object k accepted response =>
    match s.puts k with
    | some put =>
      if put.stored then none
      else
        match e.put put.data accepted response with
        -- The receipt stays, and the same bytes can be sent again.
        | .error _ => some (s.request k none)
        | .ok () => some (s.request k (if put.replay then none else some { put with stored := true }))
    | none => none
  | .accept k =>
    match s.puts k with
    | some put =>
      if put.stored then
        match accept s.upload s.parts put.index put.data with
        | .error _ => some (s.request k none)
        | .ok (upload, parts) => some ({ s with upload := upload, parts := parts }.request k none)
      else none
    | none => none
  | .drop k => some (s.request k none)
  | .complete enabled =>
    match completeUpload enabled s.upload with
    | .error _ => some s
    | .ok upload => some { s with upload := upload }
  | .start r =>
    if (s.jobs r).isSome ∨ s.upload.status = .ready then none
    else if (s.upload.status ≠ .processing ∧ s.upload.status ≠ .failed) ∨ s.upload.received_size ≠ s.upload.size then
      none
    else some (s.go r (some ⟨s.upload, .marking⟩))
  | .mark r =>
    match s.jobs r with
    | some ⟨row, .marking⟩ =>
      some ({ s with upload := { s.upload with status := .processing, error := none } }.go r (some ⟨row, .checking⟩))
    | _ => none
  | .check r enabled =>
    match s.jobs r with
    | some ⟨row, .checking⟩ =>
      some (s.go r (some ⟨row, if enabled then .copying [] 0 0 [] else .failing "PDF uploads are paused"⟩))
    | _ => none
  | .fetch r =>
    match s.jobs r with
    | some ⟨row, .copying [] next_part written pdf⟩ =>
      if next_part < row.next_part then
        let rows := fetchParts s.parts next_part 100
        some (s.go r (some ⟨row, if rows.isEmpty then .failing "a stored PDF part is missing"
          else .copying rows next_part written pdf⟩))
      else none
    | _ => none
  | .copy r response =>
    match s.jobs r with
    | some ⟨row, .copying (part :: rows) next_part written pdf⟩ =>
      if part.part_index ≠ next_part then some (s.go r (some ⟨row, .failing "a stored PDF part is missing"⟩))
      else
        match e.read part.sha256 part.size response with
        | .error message => some (s.go r (some ⟨row, .failing message⟩))
        | .ok raw => some (s.go r (some ⟨row, .copying rows (next_part + 1) (written + part.size) (pdf ++ raw)⟩))
    | _ => none
  | .version r id =>
    match s.jobs r with
    | some ⟨row, .copying [] next_part written pdf⟩ =>
      if next_part < row.next_part then none
      else if written ≠ row.size then
        some (s.go r (some ⟨row, .failing "stored PDF size differs from its receipt"⟩))
      else if (s.versions id).isSome then none
      else
        let gathered := gather e.isSpace (pageText (e.pages pdf))
        some ({ s with versions := Function.update s.versions id (some {}) }.go r
          (some ⟨row, .storing id gathered.close 0 gathered⟩))
    | _ => none
  | .part r =>
    match s.jobs r with
    | some ⟨row, .storing id (text :: todo) index gathered⟩ =>
      some ({ s with text_parts := Function.update s.text_parts id (s.text_parts id ++ [(index, text)]) }.go r
        (some ⟨row, .storing id todo (index + 1) gathered⟩))
    | _ => none
  | .ready r =>
    match s.jobs r with
    | some ⟨row, .storing id [] index gathered⟩ =>
      if gathered.has_text then
        some ({ s with versions := Function.update s.versions id (some ⟨gathered.chars, index, true⟩) }.go r
          (some ⟨row, .saving id⟩))
      else some (s.go r (some ⟨row, .failing "that PDF has no extractable text"⟩))
    | _ => none
  | .save r enabled =>
    match s.jobs r with
    | some ⟨row, .saving id⟩ =>
      if !enabled then some (s.go r (some ⟨row, .failing "PDF uploads are paused"⟩))
      else if s.upload.status = .ready then some (s.go r none)
      else some ((s.saveResume row id).go r none)
    | _ => none
  | .fail r message =>
    match s.jobs r with
    | some ⟨_, .marking⟩ => none
    | some ⟨row, _⟩ => some (s.go r (some ⟨row, .failing message⟩))
    | none => none
  | .failed r =>
    match s.jobs r with
    | some ⟨_, .failing message⟩ =>
      if s.upload.status = .ready then some (s.go r none)
      else some ({ s with upload := { s.upload with status := .failed, error := some message } }.go r none)
    | _ => none
  | .crash r => some (s.go r none)

/-- The first write of a run meets an upload that is not saved. -/
def MarksUnsaved (s : State D) (a : Act) : Prop := ∀ r, a = .mark r → s.upload.status ≠ .ready

/-- An upload that has just been started. -/
structure State.Fresh (s : State D) : Prop where
  receiving : s.upload.status = .receiving
  received : s.upload.received_size = 0
  next : s.upload.next_part = 0
  parts : s.parts = []
  text_parts : ∀ id, s.versions id = none → s.text_parts id = []
  saves : s.saves = 0
  puts : ∀ k, s.puts k = none
  jobs : ∀ r, s.jobs r = none

end JobScripts.Resume
