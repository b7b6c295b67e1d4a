import JobScripts.Resume.Uploads.Parts

/-!
# The invariant of an upload

A run holds the bytes of the parts that it has read, the version that it writes is its own, and the resume is saved when
the upload is ready and not before. Each step keeps this, unless a run writes over `ready` (`State.Inv.step`).
-/

namespace JobScripts.Resume

open Lib

variable {D : Type}

/-- A request in flight has its receipt, unless it repeats a part; then it ends with the object. -/
def PutOk (e : Env D) (s : State D) (put : Put) : Prop :=
  (put.replay = false → Receipted e s.upload s.parts put.index put.data) ∧ (put.stored = true → put.replay = false)

/-- A version that is ready and holds the text of the upload. -/
def Stored (e : Env D) (s : State D) (id : ℕ) : Prop :=
  ∃ count, s.versions id = some ⟨(e.text (bytesOf s.parts)).length, count, true⟩ ∧
    (s.text_parts id).map Prod.fst = List.range count ∧
    ((s.text_parts id).map Prod.snd).flatten = e.text (bytesOf s.parts)

/-- What a run has done so far. -/
def PhaseOk (e : Env D) (s : State D) : Phase D → Prop
  | .marking => True
  | .checking => True
  | .copying rows next_part written pdf =>
    (∃ n, rows = (s.parts.drop next_part).take n) ∧ next_part ≤ s.parts.length ∧
      written = sizeOf (s.parts.take next_part) ∧ pdf = bytesOf (s.parts.take next_part)
  | .storing id todo index gathered =>
    s.versions id = some {} ∧ gathered = gather e.isSpace (pageText (e.pages (bytesOf s.parts))) ∧
      (s.text_parts id).map Prod.fst = List.range index ∧
      (s.text_parts id).map Prod.snd ++ todo = gathered.close
  | .saving id => Stored e s id
  | .failing _ => True

/-- The version that a run writes. -/
def Phase.storing? : Phase D → Option ℕ
  | .storing id _ _ _ => some id
  | _ => none

/-- What no step changes in the row of an upload. -/
structure Upload.Same (u u' : Upload) : Prop where
  id : u'.id = u.id
  filename : u'.filename = u.filename
  size : u'.size = u.size
  next_part : u'.next_part = u.next_part

/-- A run works on an upload that is closed, with the row that it read. -/
structure JobOk (e : Env D) (s : State D) (job : Job D) : Prop where
  closed : s.upload.status ≠ .receiving
  row : job.row.Same s.upload
  phase : PhaseOk e s job.phase

/-- The resume is as it was, until it is saved; then it was saved once, the one before it was archived once, and it names
a version that holds the text. -/
structure SavedOk (e : Env D) (s₀ s : State D) : Prop where
  unsaved : s.upload.status ≠ .ready → s.resume = s₀.resume ∧ s.revisions = s₀.revisions ∧ s.saves = 0
  saved : s.upload.status = .ready → s.saves = 1 ∧ s.revisions = s₀.revisions ++ s₀.resume.toList ∧
    ∃ id version, s.upload.completed_resume_id = some id ∧ (∀ old, s₀.resume = some old → id = old.id) ∧
      s.resume = some ⟨id, some s.upload.filename, some s.upload.id, some version⟩ ∧ Stored e s version

/-- The invariant, from the state that a run starts in. -/
structure State.Inv (e : Env D) (s s₀ : State D) : Prop where
  parts : PartsOk e s.upload s.parts
  puts : ∀ k put, s.puts k = some put → PutOk e s put
  text_parts : ∀ id, s.versions id = none → s.text_parts id = []
  jobs : ∀ r job, s.jobs r = some job → JobOk e s job
  apart : ∀ r r' job job' id, s.jobs r = some job → s.jobs r' = some job' → job.phase.storing? = some id →
    job'.phase.storing? = some id → r = r'
  saved : SavedOk e s₀ s

/-- What later states hold of earlier ones. -/
structure Grows (s s' : State D) : Prop where
  extends' : Extends s.parts s'.parts
  ready : s.upload.status = .ready → s'.upload = s.upload

/-- A state is held by itself. -/
theorem Grows.refl (s : State D) : Grows s s := ⟨.refl s.parts, fun _ => rfl⟩

/-- Holding is transitive. -/
theorem Grows.trans {s s' s'' : State D} (h : Grows s s') (h' : Grows s' s'') : Grows s s'' where
  extends' := h.extends'.trans h'.extends'
  ready hready := by
    have hfirst := h.ready hready
    exact (h'.ready (hfirst ▸ hready)).trans hfirst

section Steps

variable {e : Env D} {s₀ s : State D}

/-- A request goes on. -/
theorem State.Inv.request (h : s.Inv e s₀) (k : ℕ) (put : Option Put) (hput : ∀ p, put = some p → PutOk e s p) :
    (s.request k put).Inv e s₀ where
  parts := h.parts
  puts k' p hp := by
    rw [State.request_puts] at hp
    split at hp
    · exact hput p hp
    · exact h.puts k' p hp
  text_parts := h.text_parts
  jobs r job hjob := ⟨(h.jobs r job hjob).closed, (h.jobs r job hjob).row, (h.jobs r job hjob).phase⟩
  apart := h.apart
  saved := ⟨h.saved.unsaved, h.saved.saved⟩

/-- The receipts grow while the upload is open. Then there is no run, and nothing is saved. -/
theorem State.Inv.receive (h : s.Inv e s₀) {upload : Upload} {parts : List (Part D)}
    (hopen : s.upload.status = .receiving) (hstatus : upload.status = .receiving) (hparts : PartsOk e upload parts)
    (hext : Extends s.parts parts) (hnext : s.upload.next_part ≤ upload.next_part) :
    State.Inv e { s with upload := upload, parts := parts } s₀ where
  parts := hparts
  puts k put hput := ⟨fun hreplay => ((h.puts k put hput).1 hreplay).extends hext hnext, (h.puts k put hput).2⟩
  text_parts := h.text_parts
  jobs r job hjob := absurd hopen (h.jobs r job hjob).closed
  apart := h.apart
  saved := by
    refine ⟨fun _ => h.saved.unsaved ?_, fun hready => ?_⟩
    · rw [hopen]
      nofun
    · dsimp only at hready
      rw [hstatus] at hready
      contradiction

/-- The phase of a run goes with the receipts and the versions. -/
theorem PhaseOk.congr {s' : State D} (hparts : s'.parts = s.parts) (hversions : s'.versions = s.versions)
    (htext : s'.text_parts = s.text_parts) {phase : Phase D} (h : PhaseOk e s phase) : PhaseOk e s' phase := by
  unfold PhaseOk Stored at *
  rw [hparts, hversions, htext]
  exact h

/-- The row of a closed upload changes, and the resume. -/
theorem State.Inv.status (h : s.Inv e s₀) {s' : State D} (hsame : s.upload.Same s'.upload)
    (hreceived : s'.upload.received_size = s.upload.received_size) (hclosed : s'.upload.status ≠ .receiving)
    (hfull : s.upload.received_size = s.upload.size) (hparts : s'.parts = s.parts) (hputs : s'.puts = s.puts)
    (hversions : s'.versions = s.versions) (htext : s'.text_parts = s.text_parts) (hjobs : s'.jobs = s.jobs)
    (hsaved : SavedOk e s₀ s') : s'.Inv e s₀ where
  parts := by
    obtain ⟨hat, hbytes, hverified, hnext, hpending, hreceived', hfits, -⟩ := h.parts
    rw [hparts]
    refine ⟨hat, hbytes, ?_, ?_, ?_, ?_, ?_, fun _ => ?_⟩
    · rw [hsame.next_part]
      exact hverified
    · rw [hsame.next_part]
      exact hnext
    · rw [hsame.next_part]
      exact hpending
    · rw [hsame.next_part, hreceived]
      exact hreceived'
    · rw [hsame.size]
      exact hfits
    · rw [hreceived, hsame.size]
      exact hfull
  puts k put hput := by
    rw [hputs] at hput
    refine ⟨fun hreplay => ?_, (h.puts k put hput).2⟩
    rw [hparts]
    exact ((h.puts k put hput).1 hreplay).extends (.refl _) hsame.next_part.ge
  text_parts := by
    rw [hversions, htext]
    exact h.text_parts
  jobs r job hjob := by
    rw [hjobs] at hjob
    have hrow := (h.jobs r job hjob).row
    exact ⟨hclosed, ⟨hsame.id.trans hrow.id, hsame.filename.trans hrow.filename, hsame.size.trans hrow.size,
      hsame.next_part.trans hrow.next_part⟩, (h.jobs r job hjob).phase.congr hparts hversions htext⟩
  apart := by
    rw [hjobs]
    exact h.apart
  saved := hsaved

/-- A run goes on, with a version that no other run writes. -/
theorem State.Inv.go (h : s.Inv e s₀) (r : ℕ) (job : Option (Job D)) (hok : ∀ j, job = some j → JobOk e s j)
    (hapart : ∀ j id, job = some j → j.phase.storing? = some id →
      ∀ r' job', r' ≠ r → s.jobs r' = some job' → job'.phase.storing? ≠ some id) : (s.go r job).Inv e s₀ where
  parts := h.parts
  puts := h.puts
  text_parts := h.text_parts
  jobs r' j hj := by
    rw [State.go_jobs] at hj
    have hjob : JobOk e s j := by
      split at hj
      · exact hok j hj
      · exact h.jobs r' j hj
    exact ⟨hjob.closed, hjob.row, hjob.phase.congr rfl rfl rfl⟩
  apart r₁ r₂ j₁ j₂ id h₁ h₂ hs₁ hs₂ := by
    rw [State.go_jobs] at h₁ h₂
    split at h₁
    · next heq₁ =>
      split at h₂
      · next heq₂ => rw [heq₁, heq₂]
      · next hne₂ => exact absurd hs₂ (hapart j₁ id h₁ hs₁ r₂ j₂ hne₂ h₂)
    · next hne₁ =>
      split at h₂
      · exact absurd hs₁ (hapart j₂ id h₂ hs₂ r₁ j₁ hne₁ h₁)
      · exact h.apart r₁ r₂ j₁ j₂ id h₁ h₂ hs₁ hs₂
  saved := ⟨h.saved.unsaved, h.saved.saved⟩

/-- A phase that writes no other version keeps what it has done, when a version that is not ready is written. -/
theorem PhaseOk.write {s' : State D} {id : ℕ} (hparts : s'.parts = s.parts)
    (hversions : ∀ i, i ≠ id → s'.versions i = s.versions i)
    (htext : ∀ i, i ≠ id → s'.text_parts i = s.text_parts i)
    (hopen : ∀ v, s.versions id = some v → v.ready = false) {phase : Phase D} (h : PhaseOk e s phase)
    (hother : phase.storing? ≠ some id) : PhaseOk e s' phase := by
  match phase with
  | .marking => trivial
  | .checking => trivial
  | .failing _ => trivial
  | .copying rows next_part written pdf =>
    unfold PhaseOk at *
    rw [hparts]
    exact h
  | .storing id' todo index gathered =>
    have hne : id' ≠ id := fun heq => hother (congrArg some heq)
    dsimp only [PhaseOk] at h ⊢
    rw [hparts, hversions id' hne, htext id' hne]
    exact h
  | .saving id' =>
    obtain ⟨count, hversion, hrest⟩ := h
    have hne : id' ≠ id := by
      rintro rfl
      exact absurd (hopen _ hversion) nofun
    refine ⟨count, ?_⟩
    rw [hparts, hversions id' hne, htext id' hne]
    exact ⟨hversion, hrest⟩

/-- The same, for the state that is written. -/
theorem PhaseOk.written {r id : ℕ} {versions : ℕ → Option Version} {text_parts : ℕ → List (ℕ × Text)}
    (hversions : ∀ i, i ≠ id → versions i = s.versions i) (htext : ∀ i, i ≠ id → text_parts i = s.text_parts i)
    (hopen : ∀ v, s.versions id = some v → v.ready = false) {phase : Phase D} (h : PhaseOk e s phase)
    (hother : phase.storing? ≠ some id) (job : Option (Job D)) :
    PhaseOk e (State.go { s with versions := versions, text_parts := text_parts } r job) phase := by
  refine PhaseOk.write ?_ ?_ ?_ hopen h hother
  · rfl
  · exact hversions
  · exact htext

/-- A run writes to a version that is not ready, and that no other run writes. -/
theorem State.Inv.write (h : s.Inv e s₀) {r id : ℕ} {versions : ℕ → Option Version}
    {text_parts : ℕ → List (ℕ × Text)} (hversions : ∀ i, i ≠ id → versions i = s.versions i)
    (htext : ∀ i, i ≠ id → text_parts i = s.text_parts i) (hsome : versions id ≠ none)
    (hopen : ∀ v, s.versions id = some v → v.ready = false)
    (hothers : ∀ r' job, r' ≠ r → s.jobs r' = some job → job.phase.storing? ≠ some id) {job : Job D}
    (hrow : job.row.Same s.upload) (hclosed : s.upload.status ≠ .receiving)
    (hok : PhaseOk e { s with versions := versions, text_parts := text_parts } job.phase)
    (hid : ∀ i, job.phase.storing? = some i → i = id) :
    (State.go { s with versions := versions, text_parts := text_parts } r (some job)).Inv e s₀ where
  parts := h.parts
  puts := h.puts
  text_parts i hi := by
    have hne : i ≠ id := fun heq => hsome (heq ▸ hi)
    have hnone : s.versions i = none := (hversions i hne).symm.trans hi
    exact (htext i hne).trans (h.text_parts i hnone)
  jobs r' j hj := by
    rw [State.go_jobs] at hj
    split at hj
    · obtain rfl := Option.some.inj hj
      exact ⟨hclosed, hrow, hok.congr rfl rfl rfl⟩
    · next hne =>
      have hjob := h.jobs r' j hj
      exact ⟨hjob.closed, hjob.row, hjob.phase.written hversions htext hopen (hothers r' j hne hj) _⟩
  apart r₁ r₂ j₁ j₂ i h₁ h₂ hs₁ hs₂ := by
    rw [State.go_jobs] at h₁ h₂
    split at h₁
    · next heq₁ =>
      obtain rfl := Option.some.inj h₁
      split at h₂
      · next heq₂ => rw [heq₁, heq₂]
      · next hne₂ => exact absurd (hid i hs₁ ▸ hs₂) (hothers r₂ j₂ hne₂ h₂)
    · next hne₁ =>
      split at h₂
      · obtain rfl := Option.some.inj h₂
        exact absurd (hid i hs₂ ▸ hs₁) (hothers r₁ j₁ hne₁ h₁)
      · exact h.apart r₁ r₂ j₁ j₂ i h₁ h₂ hs₁ hs₂
  saved := by
    refine ⟨h.saved.unsaved, fun hready => ?_⟩
    obtain ⟨hsaves, hrevisions, i, version, hcompleted, hold, hresume, hstored⟩ := h.saved.saved hready
    have hsaving : PhaseOk e s (.saving version) := hstored
    exact ⟨hsaves, hrevisions, i, version, hcompleted, hold, hresume,
      hsaving.written hversions htext hopen nofun _⟩

/-- Where receipts and row are as they were, the later state holds the earlier one. -/
theorem Grows.of_eq {s' : State D} (hparts : s'.parts = s.parts) (hupload : s'.upload = s.upload) : Grows s s' := by
  refine ⟨?_, fun _ => hupload⟩
  rw [hparts]
  exact .refl s.parts

/-- A run goes on, and writes no version. -/
theorem State.Inv.phase (h : s.Inv e s₀) {r : ℕ} {row : Upload} {phase phase' : Phase D}
    (hjob : s.jobs r = some ⟨row, phase⟩) (hok : PhaseOk e s phase') (hstoring : phase'.storing? = none) :
    Grows s (s.go r (some ⟨row, phase'⟩)) ∧ (s.go r (some ⟨row, phase'⟩)).Inv e s₀ := by
  have hold := h.jobs r _ hjob
  refine ⟨.of_eq rfl rfl, h.go r _ ?_ ?_⟩
  · intro j hj
    obtain rfl := Option.some.inj hj
    exact ⟨hold.closed, hold.row, hok⟩
  · intro j id hj hid
    obtain rfl := Option.some.inj hj
    rw [hstoring] at hid
    contradiction

/-- A run ends. -/
theorem State.Inv.quit (h : s.Inv e s₀) (r : ℕ) : Grows s (s.go r none) ∧ (s.go r none).Inv e s₀ :=
  ⟨.of_eq rfl rfl, h.go r none (fun _ => nofun) fun _ _ => nofun⟩

/-- An upload with a run has all its bytes. -/
theorem State.Inv.full (h : s.Inv e s₀) {r : ℕ} {job : Job D} (hjob : s.jobs r = some job) :
    s.upload.received_size = s.upload.size := h.parts.closed (h.jobs r job hjob).closed

/-- The status becomes another than `ready`, of an upload that was not `ready`. -/
theorem State.Inv.unsaved (h : s.Inv e s₀) (upload : Upload) (hsame : s.upload.Same upload)
    (hreceived : upload.received_size = s.upload.received_size) (hclosed : upload.status ≠ .receiving)
    (hfull : s.upload.received_size = s.upload.size) (hbefore : s.upload.status ≠ .ready)
    (hafter : upload.status ≠ .ready) :
    Grows s { s with upload := upload } ∧ State.Inv e { s with upload := upload } s₀ := by
  refine ⟨⟨.refl _, fun hready => absurd hready hbefore⟩, h.status hsame hreceived hclosed hfull rfl rfl rfl rfl rfl ?_⟩
  exact ⟨fun _ => h.saved.unsaved hbefore, fun hready => absurd hready hafter⟩

/-- `_parts` gives the next rows. -/
theorem State.Inv.fetch (h : s.Inv e s₀) {r next_part written count : ℕ} {row : Upload} {pdf : Bytes}
    (hjob : s.jobs r = some ⟨row, .copying [] next_part written pdf⟩) :
    PhaseOk e s (.copying (fetchParts s.parts next_part count) next_part written pdf) := by
  obtain ⟨-, hrest⟩ := (h.jobs r _ hjob).phase
  exact ⟨⟨count, h.parts.fetch next_part count⟩, hrest⟩

/-- The bytes of the next part are copied. -/
theorem State.Inv.copy [DecidableEq D] (hsha : Function.Injective e.sha256) (h : s.Inv e s₀)
    {r next_part written : ℕ} {row : Upload} {pdf raw : Bytes} {part : Part D} {rows : List (Part D)}
    {response : Option Bytes} (hjob : s.jobs r = some ⟨row, .copying (part :: rows) next_part written pdf⟩)
    (hread : e.read part.sha256 part.size response = .ok raw) :
    PhaseOk e s (.copying rows (next_part + 1) (written + part.size) (pdf ++ raw)) := by
  obtain ⟨⟨n, hrows⟩, hle, hwritten, hpdf⟩ := (h.jobs r _ hjob).phase
  -- The row is the one at the index that comes next.
  have hlt : next_part < s.parts.length := by
    have hlen := congrArg List.length hrows
    rw [List.length_cons, List.length_take, List.length_drop] at hlen
    omega
  rw [List.drop_eq_getElem_cons hlt] at hrows
  obtain ⟨m, rfl⟩ : ∃ m, n = m + 1 := by
    refine ⟨n - 1, ?_⟩
    rcases n with _ | n
    · rw [List.take_zero] at hrows
      contradiction
    · omega
  rw [List.take_succ_cons] at hrows
  obtain ⟨hpart, hrest⟩ := List.cons.inj hrows
  have htake : s.parts.take (next_part + 1) = s.parts.take next_part ++ [part] := by
    rw [hpart, List.take_append_getElem hlt]
  have hmem : part ∈ s.parts := hpart ▸ List.getElem_mem hlt
  have hraw : raw = part.bytes := Env.read_bytes hsha hread (h.parts.bytes part hmem).1
  refine ⟨⟨m, hrest⟩, hlt, ?_, ?_⟩
  · have hone : sizeOf [part] = part.size := by simp [sizeOf]
    rw [htake, sizeOf_append, hone, hwritten]
  · rw [htake, hpdf, hraw]
    simp [bytesOf]

/-- `store_text` starts: the bytes are those of all parts. -/
theorem State.Inv.version (h : s.Inv e s₀) {r id next_part written : ℕ} {row : Upload} {pdf : Bytes}
    (hjob : s.jobs r = some ⟨row, .copying [] next_part written pdf⟩) (hend : ¬ next_part < row.next_part)
    (hid : s.versions id = none) :
    State.Inv e (State.go { s with versions := Function.update s.versions id (some {}) } r
      (some ⟨row, .storing id (gather e.isSpace (pageText (e.pages pdf))).close 0
        (gather e.isSpace (pageText (e.pages pdf)))⟩)) s₀ := by
  have hok := h.jobs r _ hjob
  obtain ⟨-, hle, -, hpdf⟩ := hok.phase
  have hlen := h.parts.length_eq (h.full hjob)
  have hall : next_part = s.parts.length := by
    have hrow := hok.row.next_part
    dsimp only at hrow
    omega
  rw [hall, List.take_length] at hpdf
  refine h.write (fun i hi => Function.update_of_ne hi _ _) (fun _ _ => rfl) ?_ ?_ ?_ hok.row hok.closed ?_ ?_
  · rw [Function.update_self]
    nofun
  · rw [hid]
    exact fun _ => nofun
  · intro r' job _ hjob' hstoring
    have hphase := (h.jobs r' job hjob').phase
    obtain ⟨row', phase'⟩ := job
    -- Another run that writes the version would have inserted it.
    match phase', hstoring with
    | .storing id' todo index gathered, hstoring =>
      obtain rfl := Option.some.inj hstoring
      rw [hphase.1] at hid
      contradiction
  · refine ⟨Function.update_self .., by rw [hpdf], ?_, ?_⟩
    · show (s.text_parts id).map Prod.fst = _
      rw [h.text_parts id hid]
      rfl
    · show (s.text_parts id).map Prod.snd ++ _ = _
      rw [h.text_parts id hid]
      rfl
  · exact fun i hi => (Option.some.inj hi).symm

/-- The runs that do not write a version that one writes. -/
theorem State.Inv.others (h : s.Inv e s₀) {r id : ℕ} {job : Job D} (hjob : s.jobs r = some job)
    (hstoring : job.phase.storing? = some id) (r' : ℕ) (job' : Job D) (hne : r' ≠ r)
    (hjob' : s.jobs r' = some job') : job'.phase.storing? ≠ some id :=
  fun hstoring' => hne (h.apart r' r job' job id hjob' hjob hstoring' hstoring)

/-- `store_text` inserts a part. -/
theorem State.Inv.part (h : s.Inv e s₀) {r id index : ℕ} {row : Upload} {text : Text} {todo : List Text}
    {gathered : Gathered} (hjob : s.jobs r = some ⟨row, .storing id (text :: todo) index gathered⟩) :
    State.Inv e (State.go { s with
      text_parts := Function.update s.text_parts id (s.text_parts id ++ [(index, text)]) } r
      (some ⟨row, .storing id todo (index + 1) gathered⟩)) s₀ := by
  have hok := h.jobs r _ hjob
  obtain ⟨hversion, hgathered, hindexes, htexts⟩ := hok.phase
  refine h.write (fun _ _ => rfl) (fun i hi => Function.update_of_ne hi _ _) ?_ ?_ (h.others hjob rfl) hok.row
    hok.closed ?_ ?_
  · rw [hversion]
    nofun
  · intro v hv
    rw [hversion] at hv
    rw [← Option.some.inj hv]
  · refine ⟨hversion, hgathered, ?_, ?_⟩
    · dsimp only
      rw [Function.update_self, List.map_append, hindexes, List.range_succ]
      rfl
    · dsimp only
      rw [Function.update_self, List.map_append, List.append_assoc]
      exact htexts
  · exact fun i hi => (Option.some.inj hi).symm

/-- `store_text` ends: the version is ready, and holds the text. -/
theorem State.Inv.ready (h : s.Inv e s₀) {r id index : ℕ} {row : Upload} {gathered : Gathered}
    (hjob : s.jobs r = some ⟨row, .storing id [] index gathered⟩) :
    State.Inv e (State.go { s with
      versions := Function.update s.versions id (some ⟨gathered.chars, index, true⟩) } r
      (some ⟨row, .saving id⟩)) s₀ := by
  have hok := h.jobs r _ hjob
  obtain ⟨hversion, hgathered, hindexes, htexts⟩ := hok.phase
  refine h.write (fun i hi => Function.update_of_ne hi _ _) (fun _ _ => rfl) ?_ ?_ (h.others hjob rfl) hok.row
    hok.closed ?_ nofun
  · rw [Function.update_self]
    nofun
  · intro v hv
    rw [hversion] at hv
    rw [← Option.some.inj hv]
  · rw [List.append_nil, hgathered] at htexts
    refine ⟨index, ?_, hindexes, ?_⟩
    · dsimp only
      rw [Function.update_self, hgathered, e.gather_chars]
    · show ((s.text_parts id).map Prod.snd).flatten = e.text (bytesOf s.parts)
      rw [htexts, e.close_flatten]

/-- `_save_resume` writes the resume of an upload that is not saved. -/
theorem State.Inv.save (h : s.Inv e s₀) {r id : ℕ} {row : Upload} (hjob : s.jobs r = some ⟨row, .saving id⟩)
    (hunsaved : s.upload.status ≠ .ready) : (s.saveResume row id).Inv e s₀ := by
  have hok := h.jobs r _ hjob
  obtain ⟨hresume, hrevisions, hsaves⟩ := h.saved.unsaved hunsaved
  have hstored : PhaseOk e s (.saving id) := hok.phase
  refine h.status ⟨rfl, rfl, rfl, rfl⟩ rfl nofun (h.full hjob) rfl rfl rfl rfl rfl ⟨fun hnot => absurd rfl hnot, fun _ => ?_⟩
  refine ⟨?_, ?_, (s.resume.map (·.id)).getD s.next_resume_id, id, rfl, ?_, ?_, ?_⟩
  · show s.saves + 1 = 1
    omega
  · show s.revisions ++ s.resume.toList = _
    rw [hresume, hrevisions]
  · intro old hold
    rw [hresume, hold]
    rfl
  · show some _ = some _
    have hfilename := hok.row.filename
    have hid := hok.row.id
    dsimp only at hfilename hid
    rw [← hfilename, ← hid]
    rfl
  · exact hstored.congr rfl rfl rfl

/-- What `completeUpload` does: nothing, or it closes an upload with all its bytes. -/
theorem completeUpload_spec {enabled : Bool} {u u' : Upload} (h : completeUpload enabled u = .ok u') :
    u' = u ∨ ((u.status = .receiving ∨ u.status = .failed) ∧ u.received_size = u.size ∧
      u' = { u with status := .processing, error := none }) := by
  unfold completeUpload at h
  split at h
  · contradiction
  split at h
  · next hstatus =>
    split at h
    · contradiction
    · next hfull => exact .inr ⟨hstatus, not_not.mp hfull, (Except.ok.inj h).symm⟩
  · exact .inl (Except.ok.inj h).symm

/-- A step keeps the invariant, and grows what is there. -/
theorem State.Inv.step [DecidableEq D] (hsha : Function.Injective e.sha256) (h : s.Inv e s₀) {a : Act} {s' : State D}
    (hok : MarksUnsaved s a) (hs : step e s a = some s') : Grows s s' ∧ s'.Inv e s₀ := by
  cases a with
  -- The requests of a part: its receipt, its object, and its acceptance.
  | receive k index data =>
    dsimp only [Resume.step] at hs
    split at hs
    · contradiction
    next hguard =>
    split at hs
    · obtain rfl := Option.some.inj hs
      exact ⟨.refl s, h⟩
    · next replay parts hreceipt =>
      obtain rfl := Option.some.inj hs
      -- An empty part is refused before there is a receipt.
      have hdata : data ≠ [] := fun hnil => hguard (.inr (.inl hnil))
      obtain ⟨hopen, hparts, hext, hreceipted⟩ := h.parts.receipt hdata hreceipt
      refine ⟨⟨hext, fun _ => rfl⟩, (h.receive hopen hopen hparts hext le_rfl).request k _ ?_⟩
      intro put hput
      rw [← Option.some.inj hput]
      exact ⟨hreceipted, nofun⟩
  | object k accepted response =>
    dsimp only [Resume.step] at hs
    split at hs
    · next put hput =>
      split at hs
      · contradiction
      split at hs
      · obtain rfl := Option.some.inj hs
        exact ⟨.of_eq rfl rfl, h.request k none fun _ => nofun⟩
      · obtain rfl := Option.some.inj hs
        refine ⟨.of_eq rfl rfl, h.request k _ fun p hp => ?_⟩
        split at hp
        · contradiction
        · next hreplay =>
          rw [← Option.some.inj hp]
          -- Only a request that is no repetition goes on to be accepted.
          exact ⟨(h.puts k put hput).1, fun _ => Bool.eq_false_iff.mpr hreplay⟩
    · contradiction
  | accept k =>
    dsimp only [Resume.step] at hs
    split at hs
    · next put hput =>
      split at hs
      · next hstored =>
        split at hs
        · obtain rfl := Option.some.inj hs
          exact ⟨.of_eq rfl rfl, h.request k none fun _ => nofun⟩
        · next upload parts haccept =>
          obtain rfl := Option.some.inj hs
          obtain ⟨hreceipted, hreplay⟩ := h.puts k put hput
          obtain ⟨hopen, hparts, hext, hupload, hnext⟩ := h.parts.accept (hreceipted (hreplay hstored)) haccept
          have hstatus : upload.status = .receiving := (congrArg Upload.status hupload).trans hopen
          -- The upload was still open when the part was accepted, so that it is not ready yet.
          refine ⟨⟨hext, fun hready => ?_⟩, (h.receive hopen hstatus hparts hext hnext).request k none fun _ => nofun⟩
          rw [hopen] at hready
          contradiction
      · contradiction
    · contradiction
  | drop k =>
    obtain rfl := Option.some.inj hs
    exact ⟨.of_eq rfl rfl, h.request k none fun _ => nofun⟩
  -- The request that closes the upload, which it does only when it is full.
  | complete enabled =>
    dsimp only [Resume.step] at hs
    split at hs
    · obtain rfl := Option.some.inj hs
      exact ⟨.refl s, h⟩
    · next upload hcomplete =>
      obtain rfl := Option.some.inj hs
      rcases completeUpload_spec hcomplete with rfl | ⟨hstatus, hfull, rfl⟩
      · exact ⟨.refl s, h⟩
      · refine h.unsaved _ ⟨rfl, rfl, rfl, rfl⟩ rfl nofun hfull ?_ nofun
        rcases hstatus with hstatus | hstatus <;> rw [hstatus] <;> nofun
  -- The runs: one that starts has found the upload closed.
  | start r =>
    dsimp only [Resume.step] at hs
    split at hs
    · contradiction
    split at hs
    · contradiction
    next hclosed =>
    obtain rfl := Option.some.inj hs
    refine ⟨.of_eq rfl rfl, h.go r _ ?_ ?_⟩
    · intro job hjob
      rw [← Option.some.inj hjob]
      refine ⟨fun hopen => hclosed (.inl ?_), ⟨rfl, rfl, rfl, rfl⟩, trivial⟩
      rw [hopen]
      exact ⟨nofun, nofun⟩
    · intro job id hjob hid
      rw [← Option.some.inj hjob] at hid
      contradiction
  | mark r =>
    dsimp only [Resume.step] at hs
    split at hs
    · next row hjob =>
      obtain rfl := Option.some.inj hs
      -- The run writes the row whatever it is, which the condition allows only before the upload is
      -- ready.
      obtain ⟨hgrows, hinv⟩ := h.unsaved { s.upload with status := .processing, error := none }
        ⟨rfl, rfl, rfl, rfl⟩ rfl nofun (h.full hjob) (hok r rfl) nofun
      obtain ⟨hgrows', hinv'⟩ := hinv.phase hjob (show PhaseOk e _ .checking from trivial) rfl
      exact ⟨hgrows.trans hgrows', hinv'⟩
    · contradiction
  | check r enabled =>
    dsimp only [Resume.step] at hs
    split at hs
    · next row hjob =>
      obtain rfl := Option.some.inj hs
      cases enabled with
      | true => exact h.phase hjob ⟨⟨0, rfl⟩, Nat.zero_le _, rfl, rfl⟩ rfl
      | false => exact h.phase hjob trivial rfl
    · contradiction
  -- The parts are read chunk by chunk, and each of them is checked.
  | fetch r =>
    dsimp only [Resume.step] at hs
    split at hs
    · next row next_part written pdf hjob =>
      split at hs
      · obtain rfl := Option.some.inj hs
        split
        · exact h.phase hjob trivial rfl
        · exact h.phase hjob (h.fetch hjob) rfl
      · contradiction
    · contradiction
  | copy r response =>
    dsimp only [Resume.step] at hs
    split at hs
    · next row part rows next_part written pdf hjob =>
      split at hs
      · obtain rfl := Option.some.inj hs
        exact h.phase hjob trivial rfl
      split at hs
      · obtain rfl := Option.some.inj hs
        exact h.phase hjob trivial rfl
      · next raw hread =>
        obtain rfl := Option.some.inj hs
        exact h.phase hjob (h.copy hsha hjob hread) rfl
    · contradiction
  -- The text goes to a version of its own, part by part.
  | version r id =>
    dsimp only [Resume.step] at hs
    split at hs
    · next row next_part written pdf hjob =>
      split at hs
      · contradiction
      next hend =>
      split at hs
      · obtain rfl := Option.some.inj hs
        exact h.phase hjob trivial rfl
      split at hs
      · contradiction
      next hid =>
      obtain rfl := Option.some.inj hs
      exact ⟨.of_eq rfl rfl, h.version hjob hend (Option.not_isSome_iff_eq_none.mp hid)⟩
    · contradiction
  | part r =>
    dsimp only [Resume.step] at hs
    split at hs
    · next row id text todo index gathered hjob =>
      obtain rfl := Option.some.inj hs
      exact ⟨.of_eq rfl rfl, h.part hjob⟩
    · contradiction
  | ready r =>
    dsimp only [Resume.step] at hs
    split at hs
    · next row id index gathered hjob =>
      split at hs
      · obtain rfl := Option.some.inj hs
        exact ⟨.of_eq rfl rfl, h.ready hjob⟩
      · obtain rfl := Option.some.inj hs
        exact h.phase hjob trivial rfl
    · contradiction
  -- The resume is saved only where the status is not ready yet, and the run is over.
  | save r enabled =>
    dsimp only [Resume.step] at hs
    split at hs
    · next row id hjob =>
      split at hs
      · obtain rfl := Option.some.inj hs
        exact h.phase hjob trivial rfl
      split at hs
      · obtain rfl := Option.some.inj hs
        exact h.quit r
      · next hunsaved =>
        obtain rfl := Option.some.inj hs
        exact ⟨⟨.refl _, fun hready => absurd hready hunsaved⟩, ((h.save hjob hunsaved).quit r).2⟩
    · contradiction
  -- A run that fails says so in the row, unless the upload is ready.
  | fail r message =>
    dsimp only [Resume.step] at hs
    split at hs
    · contradiction
    · next row phase _ hjob =>
      obtain rfl := Option.some.inj hs
      exact h.phase hjob trivial rfl
    · contradiction
  | failed r =>
    dsimp only [Resume.step] at hs
    split at hs
    · next row message hjob =>
      split at hs
      · obtain rfl := Option.some.inj hs
        exact h.quit r
      · next hunsaved =>
        obtain rfl := Option.some.inj hs
        obtain ⟨hgrows, hinv⟩ := h.unsaved { s.upload with status := .failed, error := some message }
          ⟨rfl, rfl, rfl, rfl⟩ rfl nofun (h.full hjob) hunsaved nofun
        exact ⟨hgrows.trans (hinv.quit r).1, (hinv.quit r).2⟩
    · contradiction
  | crash r =>
    obtain rfl := Option.some.inj hs
    exact h.quit r

/-- An upload that has just been started meets the invariant. -/
theorem State.Fresh.inv (h : s.Fresh) : s.Inv e s where
  parts := by
    obtain ⟨hopen, hreceived, hnext, hparts, -⟩ := h
    rw [hparts]
    refine ⟨fun _ _ => nofun, fun _ => nofun, fun _ => nofun, ?_, Nat.zero_le _, ?_, Nat.zero_le _, ?_⟩
    · exact Nat.le_of_eq hnext
    · rw [hreceived, List.take_nil]
      rfl
    · exact fun hclosed => absurd hopen hclosed
  puts k put hput := by
    rw [h.puts k] at hput
    contradiction
  text_parts := h.text_parts
  jobs r job hjob := by
    rw [h.jobs r] at hjob
    contradiction
  apart r r' job job' id hjob := by
    rw [h.jobs r] at hjob
    contradiction
  saved := by
    refine ⟨fun _ => ⟨rfl, rfl, h.saves⟩, fun hready => ?_⟩
    rw [h.receiving] at hready
    contradiction

/-- A whole run keeps the invariant, and grows what is there. -/
theorem State.Inv.run [DecidableEq D] (hsha : Function.Injective e.sha256) (h : s.Inv e s₀) {s' : State D}
    (hrun : Run (Resume.step e) MarksUnsaved s s') : Grows s s' ∧ s'.Inv e s₀ := by
  refine hrun.invariant (I := fun t => Grows s t ∧ t.Inv e s₀) ⟨.refl s, h⟩ ?_
  intro t a t' ht hok hs
  obtain ⟨hgrows, hinv⟩ := ht.2.step hsha hok hs
  exact ⟨ht.1.trans hgrows, hinv⟩

end Steps

end JobScripts.Resume
