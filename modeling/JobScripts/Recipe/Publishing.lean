import JobScripts.Lib.Run
import JobScripts.Recipe.Upload
import Mathlib.Data.List.Nodup
import Mathlib.Data.List.Sort

/-!
# Publishing recipes

`process` and `_publish` of `api/apply/recipe_uploads.py` under any interleaving of calls. A call is one
transaction: it takes the row of its upload, validates a chunk, and writes what that leaves when it commits. The
call on the last chunk publishes; it first waits for the advisory lock of the adapter, and then looks for the
revision, writes its row and disables the others.

The rows of an adapter change only under that lock, so that what a call has looked up is still so when it
commits. At every moment the enabled row of an adapter is the one published last, and the chunks that it points
to chain to its revision (`publishing_all_or_nothing`). No property of the hash is used.
-/

namespace JobScripts.Recipe.Publishing

open Lib

/-! ## State -/

/-- A row of `extension_recipes`, with the time that its publishing call started. -/
structure Row extends PublishedRecipe where
  published_at : ℕ

/-- The unique key of a row. -/
def Row.key (r : Row) : String × List UInt8 := (r.adapter, r.revision)

/-- How far `_publish` is. -/
inductive Stage
  /-- It waits for the advisory lock. -/
  | waiting
  /-- It has it. -/
  | locked
  /-- It has looked for a row with the revision. -/
  | looked (found : Bool)
  /-- It has written that row, and disabled those of the other revisions. -/
  | swept (found : Bool) (others : List (List UInt8))

/-- What a call is to write. -/
inductive Writes
  /-- The row of the upload and its frames. -/
  | row (after : Database)
  /-- A revision. -/
  | publish (upload : Upload) (revision : List UInt8) (stage : Stage)

/-- A call of `process` that holds the row of its upload. -/
structure Call where
  index : ℕ
  now : ℕ
  writes : Writes

/-- The tables as they are committed, the calls by upload, and who holds which advisory lock. -/
structure State where
  uploads : ℕ → Option Upload
  chunks : ℕ → List (List UInt8)
  frames : ℕ → ℕ → Option Frame
  recipes : List Row
  calls : ℕ → Option Call
  locks : ℤ → Option ℕ
  /-- The chunks of an upload that were validated, in the order of the commits. -/
  validated : ℕ → List ℕ
  /-- The revisions that were published, the last one first. -/
  published : List (String × List UInt8)

/-- Nothing is stored. -/
def State.empty : State where
  uploads _ := none
  chunks _ := []
  frames _ _ := none
  recipes := []
  calls _ := none
  locks _ := none
  validated _ := []
  published := []

/-- The revision of an adapter that was published last. -/
def State.last (s : State) (adapter : String) : Option (List UInt8) :=
  (s.published.find? fun p => p.1 = adapter).map Prod.snd

/-- What a call on an upload reads. -/
def State.view (s : State) (u : ℕ) : Database where
  upload := s.uploads u
  chunks i := (s.chunks u)[i]?
  frames := s.frames u
  recipes := s.recipes.map Row.toPublishedRecipe

/-- A call ends, and its locks are free. -/
def State.settle (s : State) (u : ℕ) : State :=
  { s with
    calls := Function.update s.calls u none
    locks := fun key => if s.locks key = some u then none else s.locks key }

/-- What is done to the state. -/
inductive Act
  /-- `publish` of `recipes.py` stores an upload. -/
  | store (u : ℕ) (adapter : String) (published_by : Option String) (chunks : List (List UInt8))
  /-- `process` takes the row and validates. -/
  | call (u index now : ℕ)
  /-- `SELECT pg_advisory_xact_lock`. -/
  | lock (u : ℕ)
  /-- `SELECT id FROM extension_recipes`. -/
  | look (u : ℕ)
  /-- `INSERT INTO extension_recipes` or `UPDATE extension_recipes`, and the `UPDATE` of the others. -/
  | sweep (u : ℕ)
  /-- The transaction commits. -/
  | commit (u : ℕ)
  /-- The transaction is rolled back. -/
  | abort (u : ℕ)

/-! ## Steps -/

section Steps

variable (U : UnicodeData) (sha256 : List UInt8 → List UInt8)

/-- `process` up to its commit, or up to `_publish`. -/
def validate (db : Database) (index : ℕ) : Except ProcessError (Option Writes) :=
  match db.upload with
  | none => .ok none
  | some upload =>
    if upload.status ≠ .pending || upload.next_chunk ≠ index then .ok none
    else
      match db.chunks index with
      | none => .error .incomplete
      | some chunk =>
        let digest := upload.validation_state.elim seed (·.digest)
        match feedChunk U upload db.frames index chunk with
        | .error text =>
          .ok (some (.row { db with upload := some { upload with status := .rejected, error := some text } }))
        | .ok p =>
          let digest := advanceDigest sha256 digest index chunk
          if index + 1 = upload.chunk_count then .ok (some (.publish upload digest .waiting))
          else (saveState db upload index p digest).map fun after => some (.row after)

/-- A row is that of the revision. -/
def Row.is (adapter : String) (revision : List UInt8) (r : Row) : Bool :=
  r.adapter = adapter && r.revision = revision

/-- `UPDATE extension_recipes SET enabled = TRUE`, on the row of the revision. -/
def Row.enable (upload : Upload) (revision : List UInt8) (now : ℕ) (r : Row) : Row :=
  if r.is upload.adapter revision then
    { r with enabled := true, published_at := now, published_by := upload.published_by }
  else r

/-- `UPDATE extension_recipes SET enabled = FALSE`, on the rows of other revisions. -/
def Row.disable (adapter : String) (others : List (List UInt8)) (r : Row) : Row :=
  if r.adapter = adapter && r.revision ∈ others then { r with enabled := false } else r

/-- The rows after `_publish`: that of the revision, found or not, is enabled, and the others are not. -/
def publishRows (u : ℕ) (upload : Upload) (revision : List UInt8) (now : ℕ) (found : Bool)
    (others : List (List UInt8)) (rows : List Row) : List Row :=
  let written :=
    if found then rows.map (Row.enable upload revision now)
    else rows ++ [⟨⟨upload.adapter, revision, u, upload.published_by, true⟩, now⟩]
  written.map (Row.disable upload.adapter others)

/-- The chunks validated after a row is written: one more, unless the upload was rejected. -/
def validatedBy (index : ℕ) (after : Database) (validated : List ℕ) : List ℕ :=
  if after.upload.any fun up => up.status = .pending then validated ++ [index] else validated

variable (hashtext : String → ℤ)

/-- One step. -/
def step (s : State) : Act → Option State
  | .store u adapter published_by chunks =>
    if (s.uploads u).isSome then none
    else some { s with
      uploads := Function.update s.uploads u (some
        { adapter, chunk_count := chunks.length, published_by, status := .pending, revision := none,
          error := none, next_chunk := 0, validation_state := none })
      chunks := Function.update s.chunks u chunks
      validated := Function.update s.validated u [] }
  | .call u index now =>
    if (s.calls u).isSome then none
    else
      match validate U sha256 (s.view u) index with
      | .ok (some writes) => some { s with calls := Function.update s.calls u (some ⟨index, now, writes⟩) }
      -- Nothing to do, or an error that rolls the transaction back.
      | _ => some s
  | .lock u =>
    match s.calls u with
    | some ⟨index, now, .publish upload revision .waiting⟩ =>
      if (s.locks (hashtext upload.adapter)).isSome then none
      else some { s with
        locks := Function.update s.locks (hashtext upload.adapter) (some u)
        calls := Function.update s.calls u (some ⟨index, now, .publish upload revision .locked⟩) }
    | _ => none
  | .look u =>
    match s.calls u with
    | some ⟨index, now, .publish upload revision .locked⟩ =>
      let found := s.recipes.any (Row.is upload.adapter revision)
      some { s with
        calls := Function.update s.calls u (some ⟨index, now, .publish upload revision (.looked found)⟩) }
    | _ => none
  | .sweep u =>
    match s.calls u with
    | some ⟨index, now, .publish upload revision (.looked found)⟩ =>
      -- The constraints of the table roll back a second row for an upload, or for a revision.
      if !found && s.recipes.any (fun r => r.upload_id = u || r.is upload.adapter revision) then
        some (s.settle u)
      else
        let rows := s.recipes.filter fun r => r.adapter = upload.adapter && r.revision ≠ revision
        some { s with
          calls := Function.update s.calls u
            (some ⟨index, now, .publish upload revision (.swept found (rows.map (·.revision)))⟩) }
    | _ => none
  | .commit u =>
    match s.calls u with
    | some ⟨index, _, .row after⟩ =>
      some ({ s with
        uploads := Function.update s.uploads u after.upload
        frames := Function.update s.frames u after.frames
        validated := Function.update s.validated u (validatedBy index after (s.validated u)) }.settle u)
    | some ⟨index, now, .publish upload revision (.swept found others)⟩ =>
      some ({ s with
        recipes := publishRows u upload revision now found others s.recipes
        uploads := Function.update s.uploads u (some { upload with
          status := .published, revision := some revision, next_chunk := upload.chunk_count })
        frames := Function.update s.frames u fun _ => none
        validated := Function.update s.validated u (s.validated u ++ [index])
        published := (upload.adapter, revision) :: s.published }.settle u)
    | _ => none
  | .abort u => if (s.calls u).isSome then some (s.settle u) else none

end Steps

/-! ## What is served -/

/-- `chunk_manifest`: the revision and the number of chunks of the newest enabled row. -/
def chunkManifest (s : State) (adapter : String) : Option (List UInt8 × ℕ) :=
  let rows := s.recipes.filter fun r => r.adapter = adapter && r.enabled && (s.uploads r.upload_id).isSome
  (rows.insertionSort fun a b => b.published_at ≤ a.published_at).head?.bind fun r =>
    (s.uploads r.upload_id).map fun up => (r.revision, up.chunk_count)

/-- `chunk_for`: a chunk of a recipe that is published. -/
def chunkFor (s : State) (adapter : String) (revision : List UInt8) (index : ℕ) : Option (List UInt8) :=
  (s.recipes.find? (Row.is adapter revision)).bind fun r => (s.chunks r.upload_id)[index]?

/-- `advance_digest` over chunks in turn, from the seed. -/
def chain (sha256 : List UInt8 → List UInt8) (chunks : List (List UInt8)) : List UInt8 :=
  chunks.zipIdx.foldl (fun digest (chunk, index) => advanceDigest sha256 digest index chunk) seed

/-! ## One call -/

section Calls

variable {U : UnicodeData} {sha256 : List UInt8 → List UInt8} {db : Database} {index : ℕ}

/-- The chain over one chunk more. -/
theorem chain_append (chunks : List (List UInt8)) (chunk : List UInt8) :
    chain sha256 (chunks ++ [chunk]) = advanceDigest sha256 (chain sha256 chunks) chunks.length chunk := by
  unfold chain
  rw [List.zipIdx_append, List.foldl_append]
  simp

/-- A call that runs alone does what `process` does. -/
theorem process_eq_validate (u : ℕ) :
    process U sha256 u db index =
      (validate U sha256 db index).bind fun
        | none => .ok db
        | some (.row after) => .ok after
        | some (.publish upload revision _) => publish db u upload revision := by
  unfold process validate
  cases db.upload with
  | none => rfl
  | some upload =>
    dsimp only
    split
    · rfl
    · cases db.chunks index with
      | none => rfl
      | some chunk =>
        dsimp only
        cases feedChunk U upload db.frames index chunk with
        | error text => rfl
        | ok p =>
          dsimp only
          split
          · rfl
          · cases saveState db upload index p _ with
            | error e => rfl
            | ok after => rfl

/-- What a call can find to write: the upload is pending at the chunk, and it is rejected, goes on to the next
chunk, or is published when there is none. -/
theorem validate_cases {writes : Writes} (h : validate U sha256 db index = .ok (some writes)) :
    ∃ up chunk, db.upload = some up ∧ up.status = .pending ∧ up.next_chunk = index ∧
      db.chunks index = some chunk ∧
      ((∃ text, writes = .row { db with upload := some { up with status := .rejected, error := some text } }) ∨
      (index + 1 ≠ up.chunk_count ∧ ∃ frames parser, writes = .row { db with
        frames
        upload := some { up with
          next_chunk := index + 1
          validation_state := some ⟨parser,
            advanceDigest sha256 (up.validation_state.elim seed (·.digest)) index chunk⟩ } }) ∨
      (index + 1 = up.chunk_count ∧ writes = .publish up
        (advanceDigest sha256 (up.validation_state.elim seed (·.digest)) index chunk) .waiting)) := by
  unfold validate at h
  cases hup : db.upload with
  | none =>
    rw [hup] at h
    simp at h
  | some up =>
    rw [hup] at h
    dsimp only at h
    split at h
    · simp at h
    · next hpending =>
      simp only [ne_eq, Bool.or_eq_true, decide_eq_true_eq, not_or, not_not] at hpending
      cases hchunk : db.chunks index with
      | none =>
        rw [hchunk] at h
        simp at h
      | some chunk =>
        rw [hchunk] at h
        dsimp only at h
        refine ⟨up, chunk, rfl, hpending.1, hpending.2, rfl, ?_⟩
        split at h
        · next text _ =>
          have hwrites := Option.some.inj (Except.ok.inj h)
          exact .inl ⟨text, hwrites.symm⟩
        · next p _ =>
          split at h
          · next hlast =>
            have hwrites := Option.some.inj (Except.ok.inj h)
            exact .inr (.inr ⟨hlast, hwrites.symm⟩)
          · next hnext =>
            unfold saveState at h
            split at h
            · next frames parser _ _ =>
              have hwrites := Option.some.inj (Except.ok.inj h)
              exact .inr (.inl ⟨hnext, frames, parser, hwrites.symm⟩)
            · simp [Except.map] at h

/-- The revisions that are swept are those of the adapter's other rows. -/
theorem mem_others {adapter : String} {revision rev : List UInt8} {rows : List Row} :
    rev ∈ (rows.filter fun r => r.adapter = adapter && r.revision ≠ revision).map (·.revision) ↔
      rev ≠ revision ∧ ∃ r ∈ rows, r.adapter = adapter ∧ r.revision = rev := by
  simp only [List.mem_map, List.mem_filter, Bool.and_eq_true, decide_eq_true_eq]
  constructor
  · rintro ⟨r, ⟨hmem, hadapter, hne⟩, rfl⟩
    exact ⟨hne, r, hmem, hadapter, rfl⟩
  · rintro ⟨hne, r, hmem, hadapter, rfl⟩
    exact ⟨r, ⟨hmem, hadapter, hne⟩, rfl⟩

/-- The rows that `_publish` writes are those of `publish`, when the row and the others are those that are
there. -/
theorem publishRows_eq_publish {u now : ℕ} {upload : Upload} {revision : List UInt8} {rows : List Row}
    {after : Database} (hdb : db.recipes = rows.map Row.toPublishedRecipe)
    (h : publish db u upload revision = .ok after) :
    (publishRows u upload revision now (rows.any (Row.is upload.adapter revision))
      ((rows.filter fun r => r.adapter = upload.adapter && r.revision ≠ revision).map (·.revision))
      rows).map Row.toPublishedRecipe = after.recipes := by
  -- A row of the table is disabled by either of the two conditions, and the new one by neither.
  have hswept : ∀ r ∈ rows, (r.adapter = upload.adapter && r.revision ∈
      (rows.filter fun r => r.adapter = upload.adapter && r.revision ≠ revision).map (·.revision)) =
      (r.adapter = upload.adapter && r.revision ≠ revision) := by
    intro r hr
    rw [Bool.eq_iff_iff]
    simp only [Bool.and_eq_true, decide_eq_true_eq, mem_others]
    exact ⟨fun h => ⟨h.1, h.2.1⟩, fun h => ⟨h.1, h.2, r, hr, h.1, rfl⟩⟩
  have hnew : revision ∉
      (rows.filter fun r => r.adapter = upload.adapter && r.revision ≠ revision).map (·.revision) :=
    fun hmem => (mem_others.mp hmem).1 rfl
  generalize (rows.filter fun r => r.adapter = upload.adapter && r.revision ≠ revision).map (·.revision) =
    others at hswept hnew ⊢
  have hany : (db.recipes.any fun r => r.adapter = upload.adapter && r.revision = revision) =
      rows.any (Row.is upload.adapter revision) := by
    rw [hdb, List.any_map]
    rfl
  unfold publish at h
  dsimp only at h
  rw [hany] at h
  unfold publishRows
  dsimp only
  cases hfound : rows.any (Row.is upload.adapter revision) with
  | true =>
    rw [hfound, if_pos rfl] at h
    obtain rfl := Except.ok.inj h
    rw [if_pos rfl, hdb]
    simp only [List.map_map]
    refine List.map_congr_left fun r hr => ?_
    have hs := hswept r hr
    by_cases hadapter : r.adapter = upload.adapter <;> by_cases hrev : r.revision = revision <;>
      simp_all [Row.enable, Row.disable, Row.is]
  | false =>
    rw [hfound, if_neg Bool.false_ne_true] at h
    split at h
    · contradiction
    · obtain rfl := Except.ok.inj h
      rw [if_neg Bool.false_ne_true, hdb]
      simp only [List.map_append, List.map_map]
      congr 1
      · refine List.map_congr_left fun r hr => ?_
        have hs := hswept r hr
        simp only [Function.comp_apply, Row.disable, hs]
        split
        · rfl
        · rfl
      · simp [Row.disable, hnew]

end Calls

/-! ## The rows of an adapter -/

section Rows

variable {u now : ℕ} {upload : Upload} {revision : List UInt8} {found : Bool} {others : List (List UInt8)}
  {rows : List Row}

/-- The row of a revision, by its key. -/
theorem Row.is_iff {adapter : String} {r : Row} : r.is adapter revision = true ↔ r.key = (adapter, revision) := by
  unfold Row.is Row.key
  rw [Bool.and_eq_true, decide_eq_true_eq, decide_eq_true_eq, Prod.mk.injEq]

/-- A row is enabled as the row it is. -/
@[simp]
theorem Row.enable_key (r : Row) : (r.enable upload revision now).key = r.key := by
  unfold Row.enable
  split <;> rfl

/-- It keeps its upload. -/
@[simp]
theorem Row.enable_upload_id (r : Row) : (r.enable upload revision now).upload_id = r.upload_id := by
  unfold Row.enable
  split <;> rfl

/-- A row is disabled as the row it is. -/
@[simp]
theorem Row.disable_key {adapter : String} (r : Row) : (r.disable adapter others).key = r.key := by
  unfold Row.disable
  split <;> rfl

/-- It keeps its upload. -/
@[simp]
theorem Row.disable_upload_id {adapter : String} (r : Row) : (r.disable adapter others).upload_id = r.upload_id := by
  unfold Row.disable
  split <;> rfl

/-- The rows of other adapters are left alone. -/
theorem Row.disable_enable_of_ne {r : Row} (h : r.adapter ≠ upload.adapter) :
    (r.enable upload revision now).disable upload.adapter others = r := by
  simp [Row.enable, Row.disable, Row.is, h]

/-- A row that `_publish` leaves was there before, with its key and upload, or is the new one. -/
theorem mem_publishRows {r : Row} (h : r ∈ publishRows u upload revision now found others rows) :
    (∃ r₀ ∈ rows, r.key = r₀.key ∧ r.upload_id = r₀.upload_id ∧ (r₀.adapter ≠ upload.adapter → r = r₀)) ∨
      (found = false ∧ r.key = (upload.adapter, revision) ∧ r.upload_id = u) := by
  unfold publishRows at h
  dsimp only at h
  obtain ⟨r₁, hr₁, rfl⟩ := List.mem_map.mp h
  cases found with
  | true =>
    rw [if_pos rfl] at hr₁
    obtain ⟨r₀, hr₀, rfl⟩ := List.mem_map.mp hr₁
    exact .inl ⟨r₀, hr₀, by simp, by simp, Row.disable_enable_of_ne⟩
  | false =>
    rw [if_neg Bool.false_ne_true, List.mem_append, List.mem_singleton] at hr₁
    rcases hr₁ with hr₁ | rfl
    · refine .inl ⟨r₁, hr₁, by simp, by simp, fun hne => ?_⟩
      simp [Row.disable, hne]
    · exact .inr ⟨rfl, Row.disable_key _, Row.disable_upload_id _⟩

/-- The rows of other adapters are those that were there before. -/
theorem mem_publishRows_of_ne {r : Row} (h : r.adapter ≠ upload.adapter) :
    r ∈ publishRows u upload revision now found others rows ↔ r ∈ rows := by
  constructor
  · intro hr
    rcases mem_publishRows hr with ⟨r₀, hr₀, hkey, -, heq⟩ | ⟨-, hkey, -⟩
    · have ha : r.adapter = r₀.adapter := congrArg Prod.fst hkey
      rw [heq (ha ▸ h)]
      exact hr₀
    · exact absurd (congrArg Prod.fst hkey) h
  · intro hr
    unfold publishRows
    dsimp only
    cases found with
    | true =>
      rw [if_pos rfl]
      exact List.mem_map.mpr ⟨_, List.mem_map_of_mem hr, Row.disable_enable_of_ne h⟩
    | false =>
      rw [if_neg Bool.false_ne_true]
      exact List.mem_map.mpr ⟨r, List.mem_append_left _ hr, by simp [Row.disable, h]⟩

/-- A row that was there before is there after, with its key and upload. -/
theorem exists_mem_publishRows {r₀ : Row} (h : r₀ ∈ rows) :
    ∃ r ∈ publishRows u upload revision now found others rows, r.key = r₀.key ∧ r.upload_id = r₀.upload_id := by
  unfold publishRows
  dsimp only
  cases found with
  | true =>
    rw [if_pos rfl]
    exact ⟨_, List.mem_map_of_mem (List.mem_map_of_mem h), by simp, by simp⟩
  | false =>
    rw [if_neg Bool.false_ne_true]
    exact ⟨_, List.mem_map_of_mem (List.mem_append_left _ h), by simp, by simp⟩

/-- The keys after `_publish`: one more where the revision was not found. -/
theorem map_key_publishRows : (publishRows u upload revision now found others rows).map Row.key =
    rows.map Row.key ++ if found then [] else [(upload.adapter, revision)] := by
  have hdisable : Row.key ∘ Row.disable upload.adapter others = Row.key := funext Row.disable_key
  have henable : Row.key ∘ Row.enable upload revision now = Row.key := funext Row.enable_key
  unfold publishRows
  dsimp only
  rw [List.map_map, hdisable]
  cases found with
  | true => rw [if_pos rfl, if_pos rfl, List.map_map, henable, List.append_nil]
  | false =>
    rw [if_neg Bool.false_ne_true, if_neg Bool.false_ne_true, List.map_append]
    rfl

/-- After `_publish` the row of the revision is there. -/
theorem revision_mem_publishRows (hfound : found = true → ∃ r ∈ rows, r.key = (upload.adapter, revision)) :
    ∃ r ∈ publishRows u upload revision now found others rows, r.key = (upload.adapter, revision) := by
  have hkeys : (upload.adapter, revision) ∈
      (publishRows u upload revision now found others rows).map Row.key := by
    rw [map_key_publishRows, List.mem_append]
    cases found with
    | true =>
      obtain ⟨r, hr, hkey⟩ := hfound rfl
      exact .inl (hkey ▸ List.mem_map_of_mem hr)
    | false => exact .inr (List.mem_singleton_self _)
  exact List.mem_map.mp hkeys

/-- After `_publish` the row of the revision is the one of the adapter that is enabled, if what was looked up is
so. -/
theorem enabled_publishRows (hfound : found = true ↔ ∃ r ∈ rows, r.key = (upload.adapter, revision))
    (hothers : ∀ r ∈ rows, r.adapter = upload.adapter → (r.revision ∈ others ↔ r.revision ≠ revision))
    (hnew : revision ∉ others) {r : Row} (h : r ∈ publishRows u upload revision now found others rows)
    (hadapter : r.adapter = upload.adapter) : r.enabled = true ↔ r.revision = revision := by
  unfold publishRows at h
  dsimp only at h
  obtain ⟨r₁, hr₁, rfl⟩ := List.mem_map.mp h
  cases found with
  | true =>
    rw [if_pos rfl] at hr₁
    obtain ⟨r₀, hr₀, rfl⟩ := List.mem_map.mp hr₁
    have hkey : ((r₀.enable upload revision now).disable upload.adapter others).adapter = r₀.adapter :=
      congrArg Prod.fst ((Row.disable_key _).trans (Row.enable_key r₀))
    have ha : r₀.adapter = upload.adapter := hkey.symm.trans hadapter
    have ho := hothers r₀ hr₀ ha
    by_cases hrev : r₀.revision = revision
    · simp [Row.enable, Row.disable, Row.is, ha, hrev, hnew]
    · simp [Row.enable, Row.disable, Row.is, ha, hrev, ho.mpr hrev]
  | false =>
    rw [if_neg Bool.false_ne_true, List.mem_append, List.mem_singleton] at hr₁
    rcases hr₁ with hr₁ | rfl
    · have hkey : (r₁.disable upload.adapter others).adapter = r₁.adapter :=
        congrArg Prod.fst (Row.disable_key r₁)
      have ha : r₁.adapter = upload.adapter := hkey.symm.trans hadapter
      have hrev : r₁.revision ≠ revision := fun hrev =>
        Bool.false_ne_true (hfound.mpr ⟨r₁, hr₁, Prod.ext ha hrev⟩)
      simp [Row.disable, ha, hrev, (hothers r₁ hr₁ ha).mpr hrev]
    · simp [Row.disable, hnew]

end Rows

/-! ## Invariant -/

section Invariant

variable (sha256 : List UInt8 → List UInt8) (hashtext : String → ℤ)

/-- An upload has validated its chunks in order up to where it is, and its digest is their chain. -/
def Fits (chunks : List (List UInt8)) (validated : List ℕ) (up : Upload) : Prop :=
  up.chunk_count = chunks.length ∧
    match up.status with
    | .pending =>
      up.next_chunk ≤ chunks.length ∧ validated = List.range up.next_chunk ∧
        up.validation_state.elim seed (·.digest) = chain sha256 (chunks.take up.next_chunk)
    | .published => validated = List.range chunks.length ∧ up.revision = some (chain sha256 chunks)
    | .rejected => True

/-- What `_publish` has looked up is so, and it has the lock that keeps it so. -/
def Stage.Fits (s : State) (u : ℕ) (adapter : String) (revision : List UInt8) : Stage → Prop
  | .waiting => True
  | .locked => s.locks (hashtext adapter) = some u
  | .looked found =>
    s.locks (hashtext adapter) = some u ∧ (found = true ↔ ∃ r ∈ s.recipes, r.key = (adapter, revision))
  | .swept found others =>
    s.locks (hashtext adapter) = some u ∧ (found = true ↔ ∃ r ∈ s.recipes, r.key = (adapter, revision)) ∧
      (∀ r ∈ s.recipes, r.adapter = adapter → (r.revision ∈ others ↔ r.revision ≠ revision)) ∧ revision ∉ others

/-- What a call is to write goes with what is there. -/
def Writes.Fits (s : State) (u : ℕ) (up : Upload) (index : ℕ) : Writes → Prop
  | .row after => ∃ up', after.upload = some up' ∧ up'.status ≠ .published ∧
      Publishing.Fits sha256 (s.chunks u) (validatedBy index after (s.validated u)) up'
  | .publish up' revision stage => up' = up ∧ index + 1 = (s.chunks u).length ∧
      revision = chain sha256 (s.chunks u) ∧ stage.Fits hashtext s u up.adapter revision

/-- A call is on a pending upload, at its next chunk. -/
def Call.Fits (s : State) (u : ℕ) (c : Call) : Prop :=
  ∃ up, s.uploads u = some up ∧ up.status = .pending ∧ up.next_chunk = c.index ∧
    c.writes.Fits sha256 hashtext s u up c.index

/-- The invariant. -/
structure State.Inv (s : State) : Prop where
  fits : ∀ u up, s.uploads u = some up → Fits sha256 (s.chunks u) (s.validated u) up
  /-- A row points to a published upload of its adapter, whose chunks chain to its revision. -/
  rows : ∀ r ∈ s.recipes, ∃ up, s.uploads r.upload_id = some up ∧ up.status = .published ∧
    chain sha256 (s.chunks r.upload_id) = r.revision
  keys : (s.recipes.map Row.key).Nodup
  enabled : ∀ r ∈ s.recipes, r.enabled = true ↔ s.last r.adapter = some r.revision
  kept : ∀ p ∈ s.published, ∃ r ∈ s.recipes, r.key = p
  calls : ∀ u c, s.calls u = some c → c.Fits sha256 hashtext s u

variable {sha256 hashtext} {s s' : State} {u : ℕ}

/-- What keeps a stage. -/
theorem Stage.Fits.frame {adapter : String} {revision : List UInt8} {stage : Stage}
    (h : stage.Fits hashtext s u adapter revision)
    (hlocks : ∀ key, s.locks key = some u → s'.locks key = some u)
    (hrows : ∀ adapter, s.locks (hashtext adapter) = some u →
      ∀ r : Row, r.adapter = adapter → (r ∈ s'.recipes ↔ r ∈ s.recipes)) :
    stage.Fits hashtext s' u adapter revision := by
  have hfound : s.locks (hashtext adapter) = some u → ((∃ r ∈ s'.recipes, r.key = (adapter, revision)) ↔
      ∃ r ∈ s.recipes, r.key = (adapter, revision)) := by
    intro hlock
    refine exists_congr fun r => and_congr_left fun hkey => ?_
    exact hrows adapter hlock r (congrArg Prod.fst hkey)
  cases stage with
  | waiting => trivial
  | locked => exact hlocks _ h
  | looked found =>
    obtain ⟨hlock, hf⟩ := h
    exact ⟨hlocks _ hlock, hf.trans (hfound hlock).symm⟩
  | swept found others =>
    obtain ⟨hlock, hf, ho, hnew⟩ := h
    refine ⟨hlocks _ hlock, hf.trans (hfound hlock).symm, fun r hr hadapter => ?_, hnew⟩
    exact ho r ((hrows adapter hlock r hadapter).mp hr) hadapter

/-- What keeps a call: its upload is as it was, it keeps its lock, and the rows of an adapter whose lock it has
are as they were. -/
theorem Call.Fits.frame {c : Call} (h : c.Fits sha256 hashtext s u) (hupload : s'.uploads u = s.uploads u)
    (hchunks : s'.chunks u = s.chunks u) (hvalidated : s'.validated u = s.validated u)
    (hlocks : ∀ key, s.locks key = some u → s'.locks key = some u)
    (hrows : ∀ adapter, s.locks (hashtext adapter) = some u →
      ∀ r : Row, r.adapter = adapter → (r ∈ s'.recipes ↔ r ∈ s.recipes)) :
    c.Fits sha256 hashtext s' u := by
  obtain ⟨up, hup, hstatus, hnext, hwrites⟩ := h
  refine ⟨up, hupload.trans hup, hstatus, hnext, ?_⟩
  obtain ⟨index, now, writes⟩ := c
  cases writes with
  | row after =>
    obtain ⟨up', hafter, hne, hfits⟩ := hwrites
    refine ⟨up', hafter, hne, ?_⟩
    rw [hchunks, hvalidated]
    exact hfits
  | publish up' revision stage =>
    obtain ⟨heq, hlast, hrevision, hstage⟩ := hwrites
    refine ⟨heq, ?_, ?_, hstage.frame hlocks hrows⟩
    · rw [hchunks]
      exact hlast
    · rw [hchunks]
      exact hrevision

/-- A step that only moves one call, and takes no lock from the others, keeps the invariant. -/
theorem State.Inv.of_call (hinv : s.Inv sha256 hashtext) (c : Option Call) (locks : ℤ → Option ℕ)
    (hlocks : ∀ v ≠ u, ∀ key, s.locks key = some v → locks key = some v)
    (hcall : ∀ c', c = some c' →
      c'.Fits sha256 hashtext { s with calls := Function.update s.calls u c, locks := locks } u) :
    State.Inv sha256 hashtext { s with calls := Function.update s.calls u c, locks := locks } := by
  refine ⟨hinv.fits, hinv.rows, hinv.keys, hinv.enabled, hinv.kept, fun v c' hc' => ?_⟩
  dsimp only at hc'
  by_cases hv : v = u
  · subst hv
    rw [Function.update_self] at hc'
    exact hcall c' hc'
  · rw [Function.update_of_ne hv] at hc'
    exact (hinv.calls v c' hc').frame rfl rfl rfl (hlocks v hv) fun _ _ _ _ => Iff.rfl

/-- The other calls keep their locks when one ends. -/
theorem settle_locks {v : ℕ} (hv : v ≠ u) {key : ℤ} (h : s.locks key = some v) :
    (s.settle u).locks key = some v := by
  unfold State.settle
  dsimp only
  rw [h, if_neg fun heq => hv (Option.some.inj heq)]

/-- A call that is rolled back keeps the invariant. -/
theorem State.Inv.settle (hinv : s.Inv sha256 hashtext) : (s.settle u).Inv sha256 hashtext := by
  refine hinv.of_call none (s.settle u).locks (fun _ hv _ h => settle_locks hv h) fun c' h => ?_
  simp at h

/-- An upload that is stored is new. -/
theorem State.Inv.store (hinv : s.Inv sha256 hashtext) (hfree : s.uploads u = none) {up : Upload}
    {chunks : List (List UInt8)} (hfits : Fits sha256 chunks [] up) :
    State.Inv sha256 hashtext { s with
      uploads := Function.update s.uploads u (some up)
      chunks := Function.update s.chunks u chunks
      validated := Function.update s.validated u [] } := by
  have hne : ∀ {v : ℕ} {up' : Upload}, s.uploads v = some up' → v ≠ u := by
    rintro v up' hup' rfl
    rw [hfree] at hup'
    contradiction
  refine ⟨fun v up' hup' => ?_, fun r hr => ?_, hinv.keys, hinv.enabled, hinv.kept, fun v c hc => ?_⟩
  · dsimp only at hup' ⊢
    by_cases hv : v = u
    · subst hv
      rw [Function.update_self] at hup' ⊢
      rw [Function.update_self, ← Option.some.inj hup']
      exact hfits
    · rw [Function.update_of_ne hv] at hup' ⊢
      rw [Function.update_of_ne hv]
      exact hinv.fits v up' hup'
  · obtain ⟨up', hup', hpublished, hchain⟩ := hinv.rows r hr
    refine ⟨up', ?_, hpublished, ?_⟩
    · exact (Function.update_of_ne (hne hup') _ _).trans hup'
    · dsimp only
      rw [Function.update_of_ne (hne hup')]
      exact hchain
  · have hfit := hinv.calls v c hc
    obtain ⟨up', hup', -⟩ := id hfit
    have hv := hne hup'
    exact hfit.frame (Function.update_of_ne hv _ _) (Function.update_of_ne hv _ _)
      (Function.update_of_ne hv _ _) (fun _ h => h) fun _ _ _ _ => Iff.rfl

/-- What a call finds to write fits. -/
theorem State.Inv.validate {U : UnicodeData} (hinv : s.Inv sha256 hashtext) {index now : ℕ} {writes : Writes}
    (h : validate U sha256 (s.view u) index = .ok (some writes)) :
    Call.Fits sha256 hashtext s u ⟨index, now, writes⟩ := by
  obtain ⟨up, chunk, hup, hpending, hnext, hchunk, hwrites⟩ := validate_cases h
  have hupload : s.uploads u = some up := hup
  have hget : (s.chunks u)[index]? = some chunk := hchunk
  obtain ⟨hlt, hbody⟩ := List.getElem?_eq_some_iff.mp hget
  have hfits := hinv.fits u up hupload
  unfold Fits at hfits
  rw [hpending] at hfits
  obtain ⟨hcount, -, hvalidated, hdigest⟩ := hfits
  rw [hnext] at hvalidated hdigest
  -- The digest after the chunk is the chain up to the next one.
  have hchain : advanceDigest sha256 (up.validation_state.elim seed (·.digest)) index chunk =
      chain sha256 ((s.chunks u).take (index + 1)) := by
    have hlength : ((s.chunks u).take index).length = index := by
      rw [List.length_take]
      omega
    rw [List.take_succ_eq_append_getElem hlt, hbody, chain_append, hlength, hdigest]
  refine ⟨up, hupload, hpending, hnext, ?_⟩
  rcases hwrites with ⟨text, rfl⟩ | ⟨-, frames, parser, rfl⟩ | ⟨hlast, rfl⟩
  · refine ⟨_, rfl, ?_, hcount, trivial⟩
    simp
  · refine ⟨_, rfl, ?_, hcount, ?_⟩
    · simp [hpending]
    · dsimp only
      rw [hpending]
      refine ⟨by omega, ?_, hchain⟩
      unfold validatedBy
      dsimp only
      rw [Option.any_some, if_pos (decide_eq_true rfl), hvalidated, List.range_succ]
  · have hlength : index + 1 = (s.chunks u).length := hlast.trans hcount
    refine ⟨rfl, hlength, ?_, trivial⟩
    rw [hchain, hlength, List.take_length]

/-- The row of a pending upload is written, and no call is on it any more. -/
theorem State.Inv.write (hinv : s.Inv sha256 hashtext) (hcall : s.calls u = none) {up up' : Upload}
    (hup : s.uploads u = some up) (hpending : up.status = .pending) {validated : List ℕ}
    (hfits : Fits sha256 (s.chunks u) validated up') (frames : ℕ → Option Frame) :
    State.Inv sha256 hashtext { s with
      uploads := Function.update s.uploads u (some up')
      frames := Function.update s.frames u frames
      validated := Function.update s.validated u validated } := by
  refine ⟨fun v w hw => ?_, fun r hr => ?_, hinv.keys, hinv.enabled, hinv.kept, fun v c hc => ?_⟩
  · dsimp only at hw ⊢
    by_cases hv : v = u
    · subst hv
      rw [Function.update_self] at hw ⊢
      rw [← Option.some.inj hw]
      exact hfits
    · rw [Function.update_of_ne hv] at hw ⊢
      exact hinv.fits v w hw
  -- The rows point to published uploads, and this one was pending.
  · obtain ⟨w, hw, hpublished, hchain⟩ := hinv.rows r hr
    have hne : r.upload_id ≠ u := by
      rintro heq
      rw [heq, hup] at hw
      obtain rfl := Option.some.inj hw
      rw [hpending] at hpublished
      contradiction
    exact ⟨w, (Function.update_of_ne hne _ _).trans hw, hpublished, hchain⟩
  · have hv : v ≠ u := by
      rintro rfl
      rw [hcall] at hc
      contradiction
    exact (hinv.calls v c hc).frame (Function.update_of_ne hv _ _) rfl (Function.update_of_ne hv _ _)
      (fun _ h => h) fun _ _ _ _ => Iff.rfl

/-- The rows are written as `_publish` writes them, for an upload that is published, when nobody has the lock of
the adapter. -/
theorem State.Inv.publish (hinv : s.Inv sha256 hashtext) {upload up : Upload} {revision : List UInt8} {now : ℕ}
    {found : Bool} {others : List (List UInt8)} (hup : s.uploads u = some up) (hpublished : up.status = .published)
    (hchain : chain sha256 (s.chunks u) = revision)
    (hfound : found = true ↔ ∃ r ∈ s.recipes, r.key = (upload.adapter, revision))
    (hothers : ∀ r ∈ s.recipes, r.adapter = upload.adapter → (r.revision ∈ others ↔ r.revision ≠ revision))
    (hnew : revision ∉ others) (hlock : s.locks (hashtext upload.adapter) = none) :
    State.Inv sha256 hashtext { s with
      recipes := publishRows u upload revision now found others s.recipes
      published := (upload.adapter, revision) :: s.published } := by
  refine ⟨hinv.fits, fun r hr => ?_, ?_, fun r hr => ?_, fun p hp => ?_, fun v c hc => ?_⟩
  · rcases mem_publishRows hr with ⟨r₀, hr₀, hkey, hid, -⟩ | ⟨-, hkey, hid⟩
    · obtain ⟨w, hw, hstatus, hrevision⟩ := hinv.rows r₀ hr₀
      have hrev : r.revision = r₀.revision := congrArg Prod.snd hkey
      rw [hid, hrev]
      exact ⟨w, hw, hstatus, hrevision⟩
    · have hrev : r.revision = revision := congrArg Prod.snd hkey
      rw [hid, hrev]
      exact ⟨up, hup, hpublished, hchain⟩
  · dsimp only
    rw [map_key_publishRows]
    cases found with
    | true =>
      rw [if_pos rfl, List.append_nil]
      exact hinv.keys
    | false =>
      rw [if_neg Bool.false_ne_true, List.nodup_append]
      refine ⟨hinv.keys, List.nodup_singleton _, fun p hp q hq => ?_⟩
      rintro rfl
      obtain ⟨r, hr, hkey⟩ := List.mem_map.mp hp
      exact Bool.false_ne_true (hfound.mpr ⟨r, hr, hkey.trans (List.mem_singleton.mp hq)⟩)
  · unfold State.last
    dsimp only
    by_cases hadapter : r.adapter = upload.adapter
    · rw [List.find?_cons_of_pos (by simp [hadapter]), Option.map_some,
        enabled_publishRows hfound hothers hnew hr hadapter, Option.some.injEq]
      exact eq_comm
    · rw [List.find?_cons_of_neg (by simp [Ne.symm hadapter])]
      exact hinv.enabled r ((mem_publishRows_of_ne hadapter).mp hr)
  · rcases List.mem_cons.mp hp with rfl | hp
    · exact revision_mem_publishRows hfound.mp
    · obtain ⟨r₀, hr₀, rfl⟩ := hinv.kept p hp
      obtain ⟨r, hr, hkey, -⟩ := exists_mem_publishRows hr₀
      exact ⟨r, hr, hkey⟩
  -- A call that has looked up rows has the lock of another adapter.
  · refine (hinv.calls v c hc).frame rfl rfl rfl (fun _ h => h) fun adapter hheld r hr => ?_
    refine mem_publishRows_of_ne fun heq => ?_
    rw [← hr, heq, hlock] at hheld
    contradiction

/-- One step keeps the invariant. -/
theorem State.Inv.step {U : UnicodeData} (hinv : s.Inv sha256 hashtext) (a : Act)
    (h : step U sha256 hashtext s a = some s') : s'.Inv sha256 hashtext := by
  unfold Publishing.step at h
  cases a with
  -- A new upload has nothing validated.
  | store u adapter published_by chunks =>
    dsimp only at h
    split at h
    · contradiction
    · next hfree =>
      rw [← Option.some.inj h]
      refine hinv.store (Option.not_isSome_iff_eq_none.mp hfree) ⟨rfl, ?_⟩
      exact ⟨Nat.zero_le _, rfl, rfl⟩
  -- A call reads its chunk without a lock, and holds what it will write.
  | call u index now =>
    dsimp only at h
    split at h
    · contradiction
    · split at h
      · next writes hvalidate =>
        rw [← Option.some.inj h]
        refine hinv.of_call _ s.locks (fun _ _ _ h => h) fun c' hc' => ?_
        obtain rfl := Option.some.inj hc'
        exact (hinv.validate hvalidate).frame rfl rfl rfl (fun _ h => h) fun _ _ _ _ => Iff.rfl
      · rw [← Option.some.inj h]
        exact hinv
  -- The lock on the adapter is taken where it is free, and the look for the revision comes under
  -- it.
  | lock u =>
    dsimp only at h
    split at h
    · next index now upload revision hcall =>
      obtain ⟨up, hup, hpending, hnext, rfl, hlast, hrevision, -⟩ := hinv.calls u _ hcall
      split at h
      · contradiction
      · next hfree =>
        rw [← Option.some.inj h]
        refine hinv.of_call _ _ (fun v _ key hheld => ?_) fun c' hc' => ?_
        · rw [Function.update_of_ne fun hkey => hfree ?_]
          · exact hheld
          · rw [← hkey, hheld]
            rfl
        · obtain rfl := Option.some.inj hc'
          exact ⟨upload, hup, hpending, hnext, rfl, hlast, hrevision, Function.update_self ..⟩
    · contradiction
  | look u =>
    dsimp only at h
    split at h
    · next index now upload revision hcall =>
      obtain ⟨up, hup, hpending, hnext, rfl, hlast, hrevision, hlock⟩ := hinv.calls u _ hcall
      rw [← Option.some.inj h]
      refine hinv.of_call _ s.locks (fun _ _ _ h => h) fun c' hc' => ?_
      obtain rfl := Option.some.inj hc'
      refine ⟨upload, hup, hpending, hnext, rfl, hlast, hrevision, hlock, ?_⟩
      -- What is found is a row with the key of the upload.
      rw [List.any_eq_true]
      exact exists_congr fun r => and_congr_right fun _ => Row.is_iff
    · contradiction
  -- The rows of the adapter are disabled or written with the new one.
  | sweep u =>
    dsimp only at h
    split at h
    · next index now upload revision found hcall =>
      obtain ⟨up, hup, hpending, hnext, rfl, hlast, hrevision, hlock, hfound⟩ := hinv.calls u _ hcall
      split at h
      · rw [← Option.some.inj h]
        exact hinv.settle
      · rw [← Option.some.inj h]
        refine hinv.of_call _ s.locks (fun _ _ _ h => h) fun c' hc' => ?_
        obtain rfl := Option.some.inj hc'
        refine ⟨upload, hup, hpending, hnext, rfl, hlast, hrevision, hlock, hfound, fun r hr hadapter => ?_, ?_⟩
        · rw [mem_others]
          exact ⟨fun h => h.1, fun hne => ⟨hne, r, hr, hadapter, rfl⟩⟩
        · exact fun hmem => (mem_others.mp hmem).1 rfl
    · contradiction
  -- The last chunk publishes the recipe; another one is only validated.
  | commit u =>
    dsimp only at h
    split at h
    · next index now after hcall =>
      obtain ⟨up, hup, hpending, -, up', hafter, -, hfits⟩ := hinv.calls u _ hcall
      rw [← Option.some.inj h, hafter]
      have hsettled : (s.settle u).Inv sha256 hashtext := hinv.settle
      exact hsettled.write (Function.update_self ..) hup hpending hfits _
    · next index now upload revision found others hcall =>
      obtain ⟨up, hup, hpending, hnext, rfl, hlast, hrevision, hlock, hfound, hothers, hnew⟩ :=
        hinv.calls u _ hcall
      obtain ⟨hcount, hrest⟩ := hinv.fits u upload hup
      rw [hpending] at hrest
      obtain ⟨-, hvalidated, -⟩ := hrest
      rw [← Option.some.inj h]
      have hsettled : (s.settle u).Inv sha256 hashtext := hinv.settle
      -- The upload is published with all its chunks validated, and the lock is free with the commit.
      have hfits : Fits sha256 (s.chunks u) (s.validated u ++ [index]) { upload with
          status := .published, revision := some revision, next_chunk := upload.chunk_count } := by
        refine ⟨hcount, ?_, congrArg some hrevision⟩
        rw [hvalidated, hnext, ← hlast, List.range_succ]
      have hwritten := hsettled.write (Function.update_self ..) hup hpending hfits fun _ => none
      refine hwritten.publish (Function.update_self ..) rfl hrevision.symm hfound hothers hnew ?_
      exact if_pos hlock
    · contradiction
  | abort u =>
    dsimp only at h
    split at h
    · rw [← Option.some.inj h]
      exact hinv.settle
    · contradiction

/-- Nothing stored meets the invariant. -/
theorem State.Inv.empty : State.empty.Inv sha256 hashtext := by
  refine ⟨fun u up h => ?_, fun r h => ?_, List.nodup_nil, fun r h => ?_, fun p h => ?_, fun u c h => ?_⟩
  all_goals
    simp [State.empty] at h

end Invariant

/-! ## What stays -/

/-- What is kept from one state to a later one: uploads that are settled, the chunks, and the rows with their
uploads. -/
structure Later (s s' : State) : Prop where
  uploads : ∀ u up, s.uploads u = some up → ∃ up', s'.uploads u = some up' ∧ (up.status ≠ .pending → up' = up)
  chunks : ∀ u up, s.uploads u = some up → s'.chunks u = s.chunks u
  rows : ∀ r ∈ s.recipes, ∃ r' ∈ s'.recipes, r'.key = r.key ∧ r'.upload_id = r.upload_id

namespace Later

variable {s s' s'' : State}

/-- Where the tables are as they were. -/
theorem of_eq (huploads : s'.uploads = s.uploads) (hchunks : s'.chunks = s.chunks)
    (hrecipes : s'.recipes = s.recipes) : Later s s' := by
  refine ⟨fun u up hup => ⟨up, ?_, fun _ => rfl⟩, fun u up _ => ?_, fun r hr => ⟨r, ?_, rfl, rfl⟩⟩
  · rw [huploads]
    exact hup
  · rw [hchunks]
  · rw [hrecipes]
    exact hr

/-- From one state to a later one to a later one. -/
theorem trans (h : Later s s') (h' : Later s' s'') : Later s s'' := by
  refine ⟨fun u up hup => ?_, fun u up hup => ?_, fun r hr => ?_⟩
  · obtain ⟨up', hup', hsame⟩ := h.uploads u up hup
    obtain ⟨up'', hup'', hsame'⟩ := h'.uploads u up' hup'
    refine ⟨up'', hup'', fun hsettled => ?_⟩
    obtain rfl := hsame hsettled
    exact hsame' hsettled
  · obtain ⟨up', hup', -⟩ := h.uploads u up hup
    rw [h'.chunks u up' hup', h.chunks u up hup]
  · obtain ⟨r', hr', hkey, hid⟩ := h.rows r hr
    obtain ⟨r'', hr'', hkey', hid'⟩ := h'.rows r' hr'
    exact ⟨r'', hr'', hkey'.trans hkey, hid'.trans hid⟩

/-- A pending upload that is written keeps the others. -/
theorem write {u : ℕ} {up up' : Upload} (hup : s.uploads u = some up) (hpending : up.status = .pending)
    (huploads : s'.uploads = Function.update s.uploads u (some up')) (hchunks : s'.chunks = s.chunks)
    (hrows : ∀ r ∈ s.recipes, ∃ r' ∈ s'.recipes, r'.key = r.key ∧ r'.upload_id = r.upload_id) : Later s s' := by
  refine ⟨fun v w hw => ?_, fun v _ _ => by rw [hchunks], hrows⟩
  rw [huploads]
  by_cases hv : v = u
  · subst hv
    rw [hup] at hw
    obtain rfl := Option.some.inj hw
    exact ⟨up', Function.update_self .., fun hsettled => absurd hpending hsettled⟩
  · exact ⟨w, (Function.update_of_ne hv _ _).trans hw, fun _ => rfl⟩

end Later

section Runs

variable {U : UnicodeData} {sha256 : List UInt8 → List UInt8} {hashtext : String → ℤ} {s s' : State}

/-- What one step keeps. -/
theorem State.Inv.later_step (hinv : s.Inv sha256 hashtext) (a : Act)
    (h : Publishing.step U sha256 hashtext s a = some s') : Later s s' := by
  unfold Publishing.step at h
  cases a with
  -- A new upload takes the place of none.
  | store u adapter published_by chunks =>
    dsimp only at h
    split at h
    · contradiction
    · next hfree =>
      rw [← Option.some.inj h]
      have hne : ∀ v up, s.uploads v = some up → v ≠ u := by
        rintro v up hup rfl
        exact hfree (Option.isSome_of_mem hup)
      refine ⟨fun v up hup => ?_, fun v up hup => ?_, fun r hr => ⟨r, hr, rfl, rfl⟩⟩
      · exact ⟨up, (Function.update_of_ne (hne v up hup) _ _).trans hup, fun _ => rfl⟩
      · exact Function.update_of_ne (hne v up hup) _ _
  -- Before its commit a call changes nothing that is kept.
  | call u index now =>
    dsimp only at h
    split at h
    · contradiction
    · split at h
      · rw [← Option.some.inj h]
        exact .of_eq rfl rfl rfl
      · rw [← Option.some.inj h]
        exact .of_eq rfl rfl rfl
  | lock u =>
    dsimp only at h
    split at h
    · split at h
      · contradiction
      · rw [← Option.some.inj h]
        exact .of_eq rfl rfl rfl
    · contradiction
  | look u =>
    dsimp only at h
    split at h
    · rw [← Option.some.inj h]
      exact .of_eq rfl rfl rfl
    · contradiction
  | sweep u =>
    dsimp only at h
    split at h
    · split at h
      · rw [← Option.some.inj h]
        exact .of_eq rfl rfl rfl
      · rw [← Option.some.inj h]
        exact .of_eq rfl rfl rfl
    · contradiction
  -- An upload that is pending is written, and the rows of a recipe keep their keys.
  | commit u =>
    dsimp only at h
    split at h
    · next index now after hcall =>
      obtain ⟨up, hup, hpending, -, up', hafter, -⟩ := hinv.calls u _ hcall
      rw [← Option.some.inj h, hafter]
      exact .write hup hpending rfl rfl fun r hr => ⟨r, hr, rfl, rfl⟩
    · next index now upload revision found others hcall =>
      obtain ⟨up, hup, hpending, -⟩ := hinv.calls u _ hcall
      rw [← Option.some.inj h]
      exact .write hup hpending rfl rfl fun r hr => exists_mem_publishRows hr
    · contradiction
  | abort u =>
    dsimp only at h
    split at h
    · rw [← Option.some.inj h]
      exact .of_eq rfl rfl rfl
    · contradiction

/-- Every run keeps the invariant. -/
theorem State.Inv.run (hinv : s.Inv sha256 hashtext) (h : Run (Publishing.step U sha256 hashtext) Always s s') :
    s'.Inv sha256 hashtext :=
  h.invariant (I := State.Inv sha256 hashtext) hinv fun _ a _ hi _ hs => hi.step a hs

/-- What every run keeps. -/
theorem State.Inv.later_run (hinv : s.Inv sha256 hashtext) (h : Run (Publishing.step U sha256 hashtext) Always s s') :
    Later s s' := by
  induction h with
  | start => exact .of_eq rfl rfl rfl
  | next a hrun _ hstep ih => exact ih.trans ((hinv.run hrun).later_step a hstep)

end Runs

/-! ## What is served -/

section Served

variable {sha256 : List UInt8 → List UInt8} {hashtext : String → ℤ} {s s' : State}

/-- Rows with one key are one row. -/
theorem State.Inv.row_ext (hinv : s.Inv sha256 hashtext) {r r' : Row} (hr : r ∈ s.recipes) (hr' : r' ∈ s.recipes)
    (hkey : r.key = r'.key) : r = r' :=
  List.inj_on_of_nodup_map hinv.keys hr hr' hkey

/-- A row serves the chunks of its upload. -/
theorem State.Inv.chunkFor_row (hinv : s.Inv sha256 hashtext) {r : Row} (hr : r ∈ s.recipes) (index : ℕ) :
    chunkFor s r.adapter r.revision index = (s.chunks r.upload_id)[index]? := by
  unfold chunkFor
  cases hfind : s.recipes.find? (Row.is r.adapter r.revision) with
  | none =>
    have hno := List.find?_eq_none.mp hfind r hr
    exact absurd (Row.is_iff.mpr rfl) hno
  | some r' =>
    have hkey := Row.is_iff.mp (List.find?_some hfind)
    rw [hinv.row_ext (List.mem_of_find?_eq_some hfind) hr hkey]
    rfl

/-- A row serves in every later state what it serves in this one. -/
theorem State.Inv.chunkFor_later (hinv : s.Inv sha256 hashtext) (hinv' : s'.Inv sha256 hashtext)
    (hlater : Later s s') {r : Row} (hr : r ∈ s.recipes) (index : ℕ) :
    chunkFor s' r.adapter r.revision index = (s.chunks r.upload_id)[index]? := by
  obtain ⟨r', hr', hkey, hid⟩ := hlater.rows r hr
  obtain ⟨up, hup, -⟩ := hinv.rows r hr
  have hadapter : r'.adapter = r.adapter := congrArg Prod.fst hkey
  have hrevision : r'.revision = r.revision := congrArg Prod.snd hkey
  rw [← hadapter, ← hrevision, hinv'.chunkFor_row hr' index, hid, hlater.chunks r.upload_id up hup]

/-- The manifest is that of the row that is enabled, with the number of its chunks. -/
theorem State.Inv.chunkManifest_some (hinv : s.Inv sha256 hashtext) {adapter : String} {revision : List UInt8}
    {count : ℕ} (h : chunkManifest s adapter = some (revision, count)) :
    ∃ r ∈ s.recipes, r.key = (adapter, revision) ∧ r.enabled = true ∧
      (s.chunks r.upload_id).length = count := by
  unfold chunkManifest at h
  obtain ⟨r, hhead, h⟩ := Option.bind_eq_some_iff.mp h
  obtain ⟨up, hup, h⟩ := Option.map_eq_some_iff.mp h
  have hmem := (List.mem_insertionSort _).mp (List.mem_of_head? hhead)
  rw [List.mem_filter, Bool.and_eq_true, Bool.and_eq_true, decide_eq_true_eq] at hmem
  obtain ⟨hr, ⟨hadapter, henabled⟩, -⟩ := hmem
  obtain ⟨rfl, rfl⟩ := Prod.mk.inj h
  exact ⟨r, hr, Prod.ext hadapter rfl, henabled, (hinv.fits _ up hup).1.symm⟩

/-- There is no manifest only where nothing was published. -/
theorem State.Inv.chunkManifest_none (hinv : s.Inv sha256 hashtext) {adapter : String}
    (h : chunkManifest s adapter = none) : s.last adapter = none := by
  by_contra hlast
  obtain ⟨revision, hrevision⟩ := Option.ne_none_iff_exists'.mp hlast
  have hmem : (adapter, revision) ∈ s.published := by
    obtain ⟨p, hfind, hp⟩ := Option.map_eq_some_iff.mp hrevision
    have hadapter : p.1 = adapter := by simpa using List.find?_some hfind
    rw [← hp, ← hadapter]
    exact List.mem_of_find?_eq_some hfind
  -- Its row is enabled, so that it is one of those that the manifest is taken from.
  obtain ⟨r, hr, hkey⟩ := hinv.kept _ hmem
  obtain ⟨up, hup, -⟩ := hinv.rows r hr
  have hadapter : r.adapter = adapter := congrArg Prod.fst hkey
  have henabled : r.enabled = true := by
    rw [hinv.enabled r hr, hadapter, hrevision]
    exact congrArg some (congrArg Prod.snd hkey).symm
  unfold chunkManifest at h
  rw [Option.bind_eq_none_iff] at h
  generalize hrows : s.recipes.filter (fun r => r.adapter = adapter && r.enabled &&
    (s.uploads r.upload_id).isSome) = rows at h
  have hin : r ∈ rows := by
    rw [← hrows, List.mem_filter]
    simp [hr, hadapter, henabled, hup]
  cases hsorted : rows.insertionSort fun a b => b.published_at ≤ a.published_at with
  | nil =>
    have hnil := (List.mem_insertionSort (fun a b : Row => b.published_at ≤ a.published_at)).mpr hin
    rw [hsorted] at hnil
    exact absurd hnil List.not_mem_nil
  | cons r₁ rest =>
    have hr₁ := (List.mem_insertionSort (fun a b : Row => b.published_at ≤ a.published_at)).mp
      (hsorted ▸ List.mem_cons_self)
    rw [← hrows, List.mem_filter, Bool.and_eq_true] at hr₁
    obtain ⟨up₁, hup₁⟩ := Option.isSome_iff_exists.mp hr₁.2.2
    have hno := h r₁ (by rw [hsorted]; rfl)
    rw [hup₁] at hno
    contradiction

end Served

/-- A recipe for the adapter `a`, in two parts. -/
def halves : List (List UInt8) :=
  [ascii "\x7b\"name\":\"a\",\"mat", ascii "ches\":[\"https://a\"],\"fields\":[]\x7d"]

/-- The recipe in one chunk (upload 0) and in two (upload 1): the first call on the one is over its text before the
other is stored, and gets the lock after the other has published. -/
def crossed : List Act :=
  [.store 0 "a" none [halves.flatten], .call 0 0 5, .store 1 "a" none halves, .call 1 0 6, .commit 1, .call 1 0 7,
    .call 1 1 8, .lock 1, .look 1, .sweep 1, .commit 1, .lock 0, .look 0, .sweep 0, .commit 0]

end JobScripts.Recipe.Publishing
