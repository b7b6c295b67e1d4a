import JobScripts.Resume.Uploads.Invariant

/-!
# Saved once, and whole

The first write of the handler sets the status whatever it is, where its last one says `status <> 'ready'`. So a run
that read the row before another run saved the resume opens the upload again, and saves it again (`saved_twice`). Where
no run writes over `ready`, the upload is saved once and whole (`saved_once_and_whole`).
-/

namespace JobScripts.Resume

open Lib

variable {D : Type}

/-- An upload is whole, in a state that was reached from the state that it started in: what is verified are the parts
before the next one, and what is saved is the text of all of them, once. -/
structure Whole (e : Env D) (s₀ s : State D) : Prop where
  /-- The verified parts are those before the next one. -/
  verified : (s.parts.filter fun p => p.verified).map (·.part_index) = List.range s.upload.next_part
  /-- The size received is the sum of theirs. -/
  received : s.upload.received_size = ((s.parts.filter fun p => p.verified).map (·.size)).sum
  /-- It is at most the size declared. -/
  fits : s.upload.received_size ≤ s.upload.size
  /-- The digests are those of the bytes of the parts. -/
  bytes : ∀ p ∈ s.parts, p.sha256 = e.sha256 p.bytes
  /-- An upload is closed with all its bytes. -/
  closed : s.upload.status ≠ .receiving → s.upload.received_size = s.upload.size
  /-- Nothing is saved before the status says so. -/
  unsaved : s.upload.status ≠ .ready → s.resume = s₀.resume ∧ s.revisions = s₀.revisions ∧ s.saves = 0
  /-- Then the resume was saved once and the one before it archived once, and the version that the resume names is
  ready, with the parts of the text. -/
  saved : s.upload.status = .ready → s.saves = 1 ∧ s.revisions = s₀.revisions ++ s₀.resume.toList ∧
    ∃ id version count, s.upload.completed_resume_id = some id ∧
      s.resume = some ⟨id, some s.upload.filename, some s.upload.id, some version⟩ ∧
      s.versions version = some ⟨(e.text (bytesOf s.parts)).length, count, true⟩ ∧
      (s.text_parts version).map Prod.fst = List.range count ∧
      ((s.text_parts version).map Prod.snd).flatten = e.text (bytesOf s.parts)

/-- What later states keep: there is one receipt of each index, with the digest that was recorded, and a saved upload
stays so, with the same resume. -/
structure Kept (s s' : State D) : Prop where
  digest : ∀ p ∈ s.parts, ((s'.parts.filter fun p' => p'.part_index = p.part_index).map (·.sha256)) = [p.sha256]
  ready : s.upload.status = .ready →
    s'.upload.status = .ready ∧ s'.upload.completed_resume_id = s.upload.completed_resume_id

variable {e : Env D} {s₀ s s' : State D}

/-- The invariant says that the upload is whole. -/
theorem State.Inv.whole (h : s.Inv e s₀) : Whole e s₀ s where
  verified := by
    rw [h.parts.filter_verified]
    exact h.parts.map_index h.parts.next
  received := by
    rw [h.parts.filter_verified]
    exact h.parts.received
  fits := by
    have hle := h.parts.received_le
    omega
  bytes p hp := (h.parts.bytes p hp).1
  closed := h.parts.closed
  unsaved := h.saved.unsaved
  saved hready := by
    obtain ⟨hsaves, hrevisions, id, version, hcompleted, -, hresume, count, hstored⟩ := h.saved.saved hready
    exact ⟨hsaves, hrevisions, id, version, count, hcompleted, hresume, hstored⟩

/-- The receipts of an index: one, where there is one. -/
theorem PartsOk.filter_index {upload : Upload} {parts : List (Part D)} (h : PartsOk e upload parts) {i : ℕ} {p : Part D}
    (hp : parts[i]? = some p) : (parts.filter fun p' => p'.part_index = i) = [p] := by
  obtain ⟨hlt, hget⟩ := List.getElem?_eq_some_iff.mp hp
  have hne : ∀ (l : List (Part D)), (∀ q ∈ l, ∃ j, j ≠ i ∧ parts[j]? = some q) →
      (l.filter fun p' => p'.part_index = i) = [] := by
    intro l hl
    rw [List.filter_eq_nil_iff]
    intro q hq
    obtain ⟨j, hj, hjq⟩ := hl q hq
    rw [h.at_index j q hjq, decide_eq_true_eq]
    exact hj
  have hbefore : ((parts.take i).filter fun p' => p'.part_index = i) = [] := by
    refine hne _ fun q hq => ?_
    obtain ⟨j, hj⟩ := List.getElem?_of_mem hq
    rw [List.getElem?_take] at hj
    split at hj
    · exact ⟨j, by omega, hj⟩
    · contradiction
  have hbehind : ((parts.drop (i + 1)).filter fun p' => p'.part_index = i) = [] := by
    refine hne _ fun q hq => ?_
    obtain ⟨j, hj⟩ := List.getElem?_of_mem hq
    rw [List.getElem?_drop] at hj
    exact ⟨i + 1 + j, by omega, hj⟩
  calc (parts.filter fun p' => p'.part_index = i)
      = (parts.take i ++ p :: parts.drop (i + 1)).filter fun p' => p'.part_index = i := by
        rw [← hget, ← List.drop_eq_getElem_cons hlt, List.take_append_drop]
    _ = [p] := by
        rw [List.filter_append, hbefore, List.filter_cons, if_pos (decide_eq_true (h.at_index i p hp)), hbehind]
        rfl

/-- Growing keeps the digests and what is saved. -/
theorem Grows.kept (h : Grows s s') (hinv : s.Inv e s₀) (hinv' : s'.Inv e s₀) : Kept s s' where
  digest p hp := by
    obtain ⟨i, hi⟩ := List.getElem?_of_mem hp
    obtain ⟨p', hp', hsha, -⟩ := h.extends' i p hi
    rw [hinv.parts.at_index i p hi, hinv'.parts.filter_index hp', List.map_singleton, hsha]
  ready hready := by
    rw [h.ready hready]
    exact ⟨hready, rfl⟩

/-- In every run in which no first write of a handler meets a saved upload, whatever requests, object store,
interruptions and retries do: every state is whole, and what later states keep. -/
theorem saved_once_and_whole [DecidableEq D] (hsha : Function.Injective e.sha256) (h₀ : s₀.Fresh)
    (h : Run (step e) MarksUnsaved s₀ s) :
    Whole e s₀ s ∧ ∀ s', Run (step e) MarksUnsaved s s' → Kept s s' := by
  have hinv : s.Inv e s₀ := (h₀.inv.run hsha h).2
  refine ⟨hinv.whole, fun s' hrun => ?_⟩
  obtain ⟨hgrows, hinv'⟩ := hinv.run hsha hrun
  exact hgrows.kept hinv hinv'

/-- Digests that do not collide, and PDFs of one page, each byte a character. -/
def plainEnv : Env Bytes where
  sha256 := id
  pages pdf := [pdf.map UInt8.toNat]
  isSpace c := c = 32

/-- An upload of two bytes, which replaces a resume. -/
def started : State Bytes where
  upload := ⟨5, "cv.pdf", 2, 0, 0, .receiving, none, none⟩
  parts := []
  resume := some ⟨1, none, none, some 7⟩
  next_resume_id := 2
  revisions := []
  versions _ := none
  text_parts _ := []
  saves := 0
  puts _ := none
  jobs _ := none

/-- The bytes arrive in two parts, the first of them twice, and the upload is closed. -/
def arrives : List Act :=
  [.receive 0 0 [65], .object 0 true none, .receive 0 0 [65], .receive 1 0 [65], .object 0 true (some [65]), .accept 0,
    .object 1 true (some [65]), .accept 1, .receive 0 1 [66], .object 0 true (some [66]), .accept 0, .complete true]

/-- A run extracts the text and saves the resume, after its first write. -/
def extracts (r version : ℕ) : List Act :=
  [.check r true, .fetch r, .copy r (some [65]), .copy r (some [66]), .version r version, .part r, .ready r,
    .save r true]

/-- It has just been started. -/
theorem started_fresh : started.Fresh :=
  ⟨rfl, rfl, rfl, rfl, fun _ _ => rfl, rfl, fun _ => rfl, fun _ => rfl⟩

/-- Whether the first write meets a saved upload is decided. -/
instance (s : State Bytes) (a : Act) : Decidable (MarksUnsaved s a) :=
  match a with
  | .mark _ => decidable_of_iff (s.upload.status ≠ .ready) ⟨fun h _ _ => h, fun h => h _ rfl⟩
  | .receive .. | .object .. | .accept _ | .drop _ | .complete _ | .start _ | .check .. | .fetch _ | .copy .. |
    .version .. | .part _ | .ready _ | .save .. | .fail .. | .failed _ | .crash _ => isTrue fun _ => nofun

/-- The run saves the resume, with the text of both parts. -/
theorem saved_once_and_whole_started : ∃ s, Run (step plainEnv) MarksUnsaved started s ∧ s.saves = 1 ∧
    s.revisions = [⟨1, none, none, some 7⟩] ∧ (s.text_parts 8).map Prod.snd = [[65, 66]] := by
  have hacts : (runList (guarded (step plainEnv) MarksUnsaved) started
      (arrives ++ [.start 0, .mark 0] ++ extracts 0 8)).any (fun s =>
        s.upload.status = .ready && s.text_parts 8 = [(0, [65, 66])]) = true := by
    decide +kernel
  obtain ⟨s, hrun, hs⟩ := exists_run_of_any hacts
  rw [Bool.and_eq_true, decide_eq_true_eq, decide_eq_true_eq] at hs
  have hrun' := run_of_guarded hrun
  obtain ⟨hwhole, -⟩ := saved_once_and_whole (show Function.Injective plainEnv.sha256 from Function.injective_id) started_fresh hrun'
  obtain ⟨hsaves, hrevisions, -⟩ := hwhole.saved hs.1
  exact ⟨s, hrun', hsaves, hrevisions, by rw [hs.2]; rfl⟩

/-- Two runs read the row. The second one saves the resume; the first then opens the upload again, and saves it again:
the resume that was just saved is archived too. -/
theorem saved_twice : ∃ s s' s'', Run (step plainEnv) Always started s ∧ Run (step plainEnv) Always s s' ∧
    Run (step plainEnv) Always s' s'' ∧ s.upload.status = .ready ∧ ¬ Kept s s' ∧ s''.saves = 2 ∧
    s''.revisions.length = 2 ∧ ¬ Whole plainEnv started s'' := by
  have hacts : (runList (step plainEnv) started (arrives ++ [.start 0, .start 1, .mark 1] ++ extracts 1 8)).any
      (fun s => s.upload.status = .ready && (runList (step plainEnv) s [.mark 0]).any (fun s' =>
        s'.upload.status = .processing && (runList (step plainEnv) s' (extracts 0 9)).any (fun s'' =>
          s''.upload.status = .ready && s''.saves = 2 && s''.revisions.length = 2))) = true := by
    decide +kernel
  obtain ⟨s, hrun, hs⟩ := exists_run_of_any hacts
  rw [Bool.and_eq_true, decide_eq_true_eq] at hs
  obtain ⟨s', hrun', hs'⟩ := exists_run_of_any hs.2
  rw [Bool.and_eq_true, decide_eq_true_eq] at hs'
  obtain ⟨s'', hrun'', hs''⟩ := exists_run_of_any hs'.2
  rw [Bool.and_eq_true, Bool.and_eq_true, decide_eq_true_eq, decide_eq_true_eq, decide_eq_true_eq] at hs''
  refine ⟨s, s', s'', hrun, hrun', hrun'', hs.1, fun hkept => ?_, hs''.1.2, hs''.2, fun hwhole => ?_⟩
  · have hready := (hkept.ready hs.1).1
    rw [hs'.1] at hready
    contradiction
  · have hsaves := (hwhole.saved hs''.1.1).1
    rw [hs''.1.2] at hsaves
    contradiction

end JobScripts.Resume
