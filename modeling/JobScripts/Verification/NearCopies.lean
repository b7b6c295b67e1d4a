import JobScripts.Lib.Representatives
import Mathlib.Data.List.MinMax
import Mathlib.Data.List.Nodup

/-!
# Near copies are read once

Postings of one source with the same title and text, places and numbers removed, have one near-copy key. Verification
(`_reuse_near_copies`) and the filters (`_take_twin_verdicts`) both go through their candidates in order: a candidate
with an answered twin takes its verdict, one whose key is read already, here or elsewhere, waits, and any other is
read.

Both loops are `sortOut`, what it should do is `SortsOut`, and they do it (`sortOut_sortsOut`): nothing is lost, since
a candidate waits only for a posting that is read. That posting may be itself in verification, whose candidates
another sweep can have submitted since they were selected (`waits_for_itself`), and not in the filters, whose
candidates are not held.
-/

namespace JobScripts.Verification.NearCopies

open Lib

/-! ## The loop -/

section Loop

variable {α β U S : Type*} [DecidableEq S]

/-- The loop of `_reuse_near_copies` and of `_take_twin_verdicts`: who is answered, with what, and who is read.
`reading` holds the keys in flight or held, and those selected so far. -/
def sortOut (twinOf : S → Option β) (keyOf : α → Option S) : List S → List α → List (α × β) × List α
  | _, [] => ([], [])
  | reading, p :: rest =>
    match keyOf p with
    | none =>
      let r := sortOut twinOf keyOf reading rest
      (r.1, p :: r.2)
    | some key =>
      match twinOf key with
      | some twin =>
        let r := sortOut twinOf keyOf reading rest
        ((p, twin) :: r.1, r.2)
      | none =>
        if key ∈ reading then sortOut twinOf keyOf reading rest
        else
          let r := sortOut twinOf keyOf (key :: reading) rest
          (r.1, p :: r.2)

/-- What becomes of the candidates: `away` are the postings in flight or held, by their keys. A candidate that is
neither answered nor read waits. -/
structure SortsOut (urlOf : α → U) (keyOf : α → Option S) (twinOf : S → Option β) (away : U → S → Prop)
    (candidates : List α) (answered : List (α × β)) (read : List α) : Prop where
  /-- Those with a twin are answered, from it. -/
  answered_iff : ∀ p twin, (p, twin) ∈ answered ↔ p ∈ candidates ∧ (keyOf p).bind twinOf = some twin
  /-- The others may be read. -/
  of_read : ∀ p ∈ read, p ∈ candidates ∧ (keyOf p).bind twinOf = none
  /-- Those without a key are read. -/
  keyless : ∀ p ∈ candidates, keyOf p = none → p ∈ read
  /-- Of one key at most one is read. -/
  once : ∀ p ∈ read, ∀ q ∈ read, ∀ k, keyOf p = some k → keyOf q = some k → p = q
  /-- None is read whose key is away. -/
  apart : ∀ p ∈ read, ∀ k, keyOf p = some k → ∀ u, ¬away u k
  /-- One that waits is away itself, or waits for another posting that is read or away. -/
  waits : ∀ p ∈ candidates, (∀ twin, (p, twin) ∉ answered) → p ∉ read → ∃ k, keyOf p = some k ∧
    (away (urlOf p) k ∨ (∃ q ∈ read, urlOf q ≠ urlOf p ∧ keyOf q = some k) ∨ ∃ u, u ≠ urlOf p ∧ away u k)

/-- Two runs that differ only in which one of a key is read. -/
structure SameSets (keyOf : α → Option S) (answered answered' : List (α × β)) (read read' : List α) : Prop where
  answered_iff : ∀ a, a ∈ answered ↔ a ∈ answered'
  keyless_iff : ∀ p, keyOf p = none → (p ∈ read ↔ p ∈ read')
  group_iff : ∀ k, (∃ p ∈ read, keyOf p = some k) ↔ ∃ p ∈ read', keyOf p = some k

end Loop

/-! ## The tables -/

/-- `check_type`, of the checks that are copied. -/
inductive Check
  | closed
  | clearance
  | custom
  deriving DecidableEq

/-- `status` of a verdict. -/
inductive Status
  | passed
  | rejected
  deriving DecidableEq

/-- A row of `verdicts`, by what `ai_result_row` is given here. -/
structure Verdict where
  url : String
  status : Status
  reason : Option String
  check_type : Check
  model : Option String := none
  filter_name : Option String := none
  prompt_hash : Option String := none
  parsed_json : Option String := none
  company : Option String
  job_title : Option String
  config_name : Option String

/-- A row of `jobs`, whose `id` counts. -/
structure Job (K : Type) where
  id : ℕ
  url : String
  source : String
  near_copy_key : Option K

/-- A prompt of a managed board that is published or not, or of a filter that is enabled or not. -/
structure Prompt where
  prompt_hash : String
  live : Bool

/-- The tables. The newest verdict is first. -/
structure Database (K : Type) where
  jobs : List (Job K)
  verdicts : List Verdict
  managed_boards : List Prompt
  user_filters : List Prompt

/-- A row of `candidates_for`. -/
structure Candidate where
  url : String
  company : Option String
  title : Option String
  source : String
  deriving DecidableEq

/-- A row of `candidates_sql` or `listed_sql`, with its text. -/
structure Posting extends Candidate where
  input_content : Option String
  needs_closed : Bool
  needs_clearance : Bool
  deriving DecidableEq

/-- The source and the key of a posting that has a key. -/
def Job.sourceKey {K : Type} (j : Job K) : Option (String × K) := j.near_copy_key.map fun k => (j.source, k)

section Tables

variable {K : Type}

/-- `has_verdict`: a posting has a verdict on a check. -/
def Database.hasVerdict (db : Database K) (url : String) (check : Check) : Bool :=
  db.verdicts.any fun v => v.url = url && v.check_type = check

/-- `latest_checks`, for one posting and check. -/
def Database.latestCheck (db : Database K) (url : String) (check : Check) : Option Verdict :=
  db.verdicts.find? fun v => v.url = url && v.check_type = check

/-- The latest answer of some models to a prompt, for one posting. -/
def Database.latestCustom (db : Database K) (url prompt_hash : String) (models : List String) : Option Verdict :=
  db.verdicts.find? fun v =>
    v.url = url && v.check_type = .custom && v.prompt_hash = some prompt_hash && v.model.any models.contains

/-- A posting that verification selects lacks one of its verdicts. -/
def Database.missingVerdict (db : Database K) (url : String) : Bool :=
  !db.hasVerdict url .closed || !db.hasVerdict url .clearance

/-- A published board or an enabled filter asks this prompt. -/
def Database.livePrompt (db : Database K) (prompt_hash : Option String) : Bool :=
  prompt_hash.any fun hash => (db.managed_boards ++ db.user_filters).any fun p => p.live && p.prompt_hash = hash

/-- `add_ai_results`: the last row is the newest. -/
def Database.addAiResults (db : Database K) (rows : List Verdict) : Database K :=
  { db with verdicts := rows.reverse ++ db.verdicts }

/-- `_in_flight` or `held`, with the keys of these postings. -/
def Database.Away (db : Database K) (urls : List String) (url : String) (key : String × K) : Prop :=
  url ∈ urls ∧ ∃ j ∈ db.jobs, j.url = url ∧ j.sourceKey = some key

end Tables

/-! ## Verification -/

section Verification

variable {K : Type} [DecidableEq K] (key : String → String → K)

/-- `near_copy.key` of a candidate's title and text. -/
def nearCopyKey (p : Posting) : K := key (p.title.getD "") (p.input_content.getD "")

/-- The key under which twins are looked up. -/
def sourceKey (p : Posting) : String × K := (p.source, nearCopyKey key p)

/-- `near_copy_keys`, by url. -/
def nearCopyKeys (candidates : List Posting) (url : String) : Option K :=
  (candidates.find? fun p => p.url = url).map (nearCopyKey key)

/-- `set_near_copy_keys`: the keys that were computed are stored with their postings. -/
def setNearCopyKeys (keys : String → Option K) (db : Database K) : Database K :=
  { db with
    jobs := db.jobs.map fun j => { j with near_copy_key := (keys j.url).or j.near_copy_key } }

/-- `verified_twins`: the newest posting of the key, of those that are not candidates and have both verdicts. -/
def verifiedTwin (db : Database K) (candidates : List Posting) (source_key : String × K) : Option String :=
  ((db.jobs.filter fun j => j.sourceKey = some source_key && !(candidates.map (·.url)).contains j.url &&
    db.hasVerdict j.url .closed && db.hasVerdict j.url .clearance).argmax (·.id)).map (·.url)

/-- `in_flight_source_keys`: the keys of the postings that are being verified, each with its source. -/
def inFlightSourceKeys (db : Database K) (in_flight : List String) : List (String × K) :=
  (db.jobs.filter fun j => in_flight.contains j.url).filterMap Job.sourceKey

/-- `needs_closed` and `needs_clearance`: a posting needs a verdict on a check. -/
def Posting.needs (p : Posting) : Check → Bool
  | .closed => p.needs_closed
  | .clearance => p.needs_clearance
  | .custom => false

/-- The row for a check of verification. -/
def checkCopy (job : Posting) (check : Check) (verdict : Verdict) : Verdict :=
  { url := job.url, status := verdict.status, reason := verdict.reason, check_type := check,
    company := job.company, job_title := job.title, config_name := some "verify-near-copy" }

/-- The copy of a twin's verdict on a check that the candidate needs. -/
def checkRows (db : Database K) (job : Posting) (twin : String) (check : Check) : List Verdict :=
  match db.latestCheck twin check with
  | some verdict => if job.needs check then [checkCopy job check verdict] else []
  | none => []

/-- `customs` of one twin: its latest answer under each live prompt and model. -/
def customs (db : Database K) (twin : String) : List Verdict :=
  representatives (fun v : Verdict => some (v.prompt_hash, v.model)) []
    (db.verdicts.filter fun v => v.url = twin && v.check_type = .custom && db.livePrompt v.prompt_hash)

/-- A custom verdict of the posting under this prompt and model. -/
def decidedCustom (db : Database K) (url : String) (prompt_hash model : Option String) : Bool :=
  db.verdicts.any fun v => v.url = url && v.check_type = .custom && v.prompt_hash = prompt_hash && v.model = model

/-- The row for a prompt. -/
def customCopy (job : Posting) (verdict : Verdict) : Verdict :=
  { url := job.url, status := verdict.status, reason := verdict.reason, check_type := .custom,
    model := verdict.model, filter_name := verdict.filter_name, prompt_hash := verdict.prompt_hash,
    parsed_json := verdict.parsed_json, company := job.company, job_title := job.title,
    config_name := some "verify-near-copy" }

/-- The copies of a twin's answers that the candidate has none for. -/
def customRows (db : Database K) (job : Posting) (twin : String) : List Verdict :=
  ((customs db twin).filter fun verdict => !decidedCustom db job.url verdict.prompt_hash verdict.model).map
    (customCopy job)

/-- The rows of `_copy_twin_verdicts` for one candidate. -/
def twinRows (db : Database K) (reuse : Posting × String) : List Verdict :=
  checkRows db reuse.1 reuse.2 .closed ++ checkRows db reuse.1 reuse.2 .clearance ++ customRows db reuse.1 reuse.2

/-- `_copy_twin_verdicts`: the verdicts of each twin are written for its posting. -/
def copyTwinVerdicts (db : Database K) (reuse : List (Posting × String)) : Database K :=
  db.addAiResults (reuse.flatMap (twinRows db))

/-- The state of `_reuse_near_copies` that its queries read. -/
def keyed (db : Database K) (candidates : List Posting) : Database K :=
  setNearCopyKeys (nearCopyKeys key candidates) db

/-- `twin_reuse` and `postings_to_verify`: the postings that take a twin's verdicts, and those that are verified. -/
def sortedOut (db : Database K) (in_flight : List String) (candidates : List Posting) :
    List (Posting × String) × List Posting :=
  sortOut (verifiedTwin (keyed key db candidates) candidates) (fun p => some (sourceKey key p))
    (inFlightSourceKeys (keyed key db candidates) in_flight) candidates

/-- `_reuse_near_copies`, with what its second `_in_flight` returns. -/
def reuseNearCopies (db : Database K) (in_flight : List String) (candidates : List Posting) :
    List Posting × Database K :=
  ((sortedOut key db in_flight candidates).2,
    copyTwinVerdicts (keyed key db candidates) (sortedOut key db in_flight candidates).1)

/-- The rows that `_select_postings` returns, of one posting each. -/
structure Candidates (db : Database K) (candidates : List Posting) : Prop where
  urls_nodup : (candidates.map (·.url)).Nodup
  needs_eq : ∀ p ∈ candidates, ∀ check, check ≠ .custom → p.needs check = !db.hasVerdict p.url check

/-- Verification reads near copies once, and loses none. -/
structure ReusesNearCopies (db : Database K) (in_flight : List String) (candidates : List Posting) : Prop where
  /-- Each candidate is answered, read or waits. -/
  sorts : SortsOut (·.url) (fun p => some (sourceKey key p)) (verifiedTwin (keyed key db candidates) candidates)
    ((keyed key db candidates).Away in_flight) candidates (sortedOut key db in_flight candidates).1
    (reuseNearCopies key db in_flight candidates).1
  /-- One that is answered has the twin's latest verdict on each check that it needed. -/
  receives : ∀ p twin, (p, twin) ∈ (sortedOut key db in_flight candidates).1 → ∀ check, p.needs check = true →
    ∃ v ∈ db.latestCheck twin check,
      ∃ w ∈ (reuseNearCopies key db in_flight candidates).2.latestCheck p.url check,
        w.status = v.status ∧ w.reason = v.reason
  /-- And under each live prompt and model that it has no verdict under. -/
  receives_custom : ∀ p twin, (p, twin) ∈ (sortedOut key db in_flight candidates).1 → ∀ prompt_hash model,
    db.livePrompt (some prompt_hash) = true → decidedCustom db p.url (some prompt_hash) (some model) = false →
    ∀ v ∈ db.latestCustom twin prompt_hash [model],
      ∃ w ∈ (reuseNearCopies key db in_flight candidates).2.latestCustom p.url prompt_hash [model],
        w.status = v.status ∧ w.reason = v.reason ∧ w.parsed_json = v.parsed_json
  /-- It is not selected again. -/
  settled : ∀ p twin, (p, twin) ∈ (sortedOut key db in_flight candidates).1 →
    (reuseNearCopies key db in_flight candidates).2.missingVerdict p.url = false
  /-- The order decides only which one of a key is read. -/
  order : ∀ candidates', candidates.Perm candidates' → SameSets (fun p => some (sourceKey key p))
    (sortedOut key db in_flight candidates).1 (sortedOut key db in_flight candidates').1
    (reuseNearCopies key db in_flight candidates).1 (reuseNearCopies key db in_flight candidates').1

end Verification

/-! ## Filters -/

section Filters

variable {K : Type} [DecidableEq K]

/-- `answering_models("custom", model)`, of the groups for `custom`. -/
def answeringModels (groups : List (List String)) (model : String) : List String :=
  (groups.find? fun group => group.contains model).getD [model]

/-- `decided_custom_urls`: the postings that have a verdict on a prompt by one of some models. -/
def decidedCustomUrls (db : Database K) (urls : List String) (prompt_hash : String) (models : List String) :
    List String :=
  urls.filter fun url => (db.latestCustom url prompt_hash models).isSome

/-- `keys`, of a posting that has one. -/
def Database.keyOf (db : Database K) (url : String) : Option (String × K) :=
  (db.jobs.find? fun j => j.url = url).bind Job.sourceKey

/-- `decided`: the latest verdict under the prompt, by a model that counts, of a posting of the key that is not asked
for. -/
def decidedTwin (db : Database K) (todo : List Candidate) (prompt_hash : String) (models : List String)
    (key : String × K) : Option Verdict :=
  db.verdicts.find? fun v => v.check_type = .custom && v.prompt_hash = some prompt_hash &&
    v.model.any models.contains && !(todo.map (·.url)).contains v.url && db.keyOf v.url = some key

/-- The row for a candidate with a decided twin. -/
def filterCopy (prompt_hash model : String) (answered : Candidate × Verdict) : Verdict :=
  { url := answered.1.url, status := answered.2.status, reason := answered.2.reason, check_type := .custom,
    model := some model, filter_name := answered.2.filter_name, prompt_hash := some prompt_hash,
    parsed_json := answered.2.parsed_json, company := answered.1.company, job_title := answered.1.title,
    config_name := some "filter-near-copy" }

/-- The candidates with their twins' verdicts, and `still`. -/
def sortedTodo (db : Database K) (todo : List Candidate) (prompt_hash : String) (models held : List String) :
    List (Candidate × Verdict) × List Candidate :=
  sortOut (decidedTwin db todo prompt_hash models) (fun p => db.keyOf p.url) (held.filterMap db.keyOf) todo

/-- `_take_twin_verdicts`, with `verify_near_copy_reuse` and the groups of models. -/
def takeTwinVerdicts (enabled : Bool) (groups : List (List String)) (db : Database K) (todo : List Candidate)
    (prompt_hash model : String) (held : List String) : List Candidate × Database K :=
  if todo.isEmpty || !enabled then (todo, db)
  else if (todo.filterMap fun p => db.keyOf p.url).isEmpty then (todo, db)
  else
    let r := sortedTodo db todo prompt_hash (answeringModels groups model) held
    (r.2, db.addAiResults (r.1.map (filterCopy prompt_hash model)))

/-- `todo` of `_run_filters` for one filter, before the near copies. -/
def filterTodo (groups : List (List String)) (screened : Candidate → Bool) (db : Database K)
    (candidates : List Candidate) (prompt_hash model : String) (held : List String) : List Candidate :=
  let unheld := candidates.filter fun j => !held.contains j.url
  let decided := decidedCustomUrls db (unheld.map (·.url)) prompt_hash (answeringModels groups model)
  (unheld.filter fun j => !decided.contains j.url).filter fun j => !screened j

/-- One filter of `_run_filters`: the postings that its chunks read. -/
def runFilter (enabled : Bool) (groups : List (List String)) (screened : Candidate → Bool) (db : Database K)
    (candidates : List Candidate) (prompt_hash model : String) (held : List String) : List Candidate × Database K :=
  takeTwinVerdicts enabled groups db (filterTodo groups screened db candidates prompt_hash model held) prompt_hash
    model held

/-- A filter reads near copies once, and loses none. -/
structure TakesTwinVerdicts (groups : List (List String)) (screened : Candidate → Bool) (db : Database K)
    (candidates : List Candidate) (prompt_hash model : String) (held : List String) : Prop where
  /-- Each posting to judge is answered, read or waits. -/
  sorts : SortsOut (·.url) (fun p => db.keyOf p.url)
    (decidedTwin db (filterTodo groups screened db candidates prompt_hash model held) prompt_hash
      (answeringModels groups model))
    (fun url key => url ∈ held ∧ db.keyOf url = some key)
    (filterTodo groups screened db candidates prompt_hash model held)
    (sortedTodo db (filterTodo groups screened db candidates prompt_hash model held) prompt_hash
      (answeringModels groups model) held).1
    (runFilter true groups screened db candidates prompt_hash model held).1
  /-- None of them is held itself. -/
  unheld : ∀ p ∈ filterTodo groups screened db candidates prompt_hash model held, p.url ∉ held
  /-- One that is answered has the twin's latest verdict. -/
  receives : ∀ p twin, (p, twin) ∈ (sortedTodo db (filterTodo groups screened db candidates prompt_hash model held)
      prompt_hash (answeringModels groups model) held).1 →
    ∃ w ∈ (runFilter true groups screened db candidates prompt_hash model held).2.latestCustom p.url prompt_hash
        (answeringModels groups model),
      w.model = some model ∧ w.status = twin.status ∧ w.reason = twin.reason ∧ w.parsed_json = twin.parsed_json
  /-- It is not judged again. -/
  settled : ∀ p twin, (p, twin) ∈ (sortedTodo db (filterTodo groups screened db candidates prompt_hash model held)
      prompt_hash (answeringModels groups model) held).1 → ∀ candidates' held',
    p ∉ filterTodo groups screened (runFilter true groups screened db candidates prompt_hash model held).2 candidates'
      prompt_hash model held'
  /-- The order decides only which one of a key is read. -/
  order : ∀ candidates', candidates.Perm candidates' → SameSets (fun p => db.keyOf p.url)
    (sortedTodo db (filterTodo groups screened db candidates prompt_hash model held) prompt_hash
      (answeringModels groups model) held).1
    (sortedTodo db (filterTodo groups screened db candidates' prompt_hash model held) prompt_hash
      (answeringModels groups model) held).1
    (runFilter true groups screened db candidates prompt_hash model held).1
    (runFilter true groups screened db candidates' prompt_hash model held).1

end Filters

/-! ## What the loop does -/

section SortsOut

variable {α β U S : Type*} {twinOf : S → Option β} {keyOf : α → Option S} {urlOf : α → U} {away : U → S → Prop}
  {candidates : List α}

/-- A key is read exactly if a candidate without a twin has it and it is not away. -/
theorem SortsOut.represented_iff {answered : List (α × β)} {read : List α} {k : S}
    (h : SortsOut urlOf keyOf twinOf away candidates answered read) : (∃ p ∈ read, keyOf p = some k) ↔
      (∃ p ∈ candidates, keyOf p = some k ∧ twinOf k = none) ∧ ∀ u, ¬away u k := by
  constructor
  · rintro ⟨p, hp, hkey⟩
    obtain ⟨hcandidate, htwin⟩ := h.of_read p hp
    rw [hkey] at htwin
    exact ⟨⟨p, hcandidate, hkey, htwin⟩, h.apart p hp k hkey⟩
  · rintro ⟨⟨p, hp, hkey, htwin⟩, haway⟩
    rcases Classical.em (p ∈ read) with hread | hread
    · exact ⟨p, hread, hkey⟩
    · have hanswered : ∀ twin, (p, twin) ∉ answered := by
        intro twin hmem
        have hsome := ((h.answered_iff p twin).mp hmem).2
        rw [hkey] at hsome
        exact absurd (htwin.symm.trans hsome) nofun
      obtain ⟨k', hkey', hwaits⟩ := h.waits p hp hanswered hread
      obtain rfl : k = k' := Option.some_inj.mp (hkey.symm.trans hkey')
      rcases hwaits with hself | ⟨q, hq, -, hkq⟩ | ⟨u, -, hu⟩
      · exact absurd hself (haway _)
      · exact ⟨q, hq, hkq⟩
      · exact absurd hu (haway u)

/-- Two runs over the same candidates differ only in which one of a key is read. -/
theorem SortsOut.sameSets {candidates' : List α} {answered answered' : List (α × β)} {read read' : List α}
    (h : SortsOut urlOf keyOf twinOf away candidates answered read)
    (h' : SortsOut urlOf keyOf twinOf away candidates' answered' read')
    (hmem : ∀ p, p ∈ candidates ↔ p ∈ candidates') : SameSets keyOf answered answered' read read' := by
  refine ⟨fun a => ?_, fun p hkey => ?_, fun k => ?_⟩
  · rw [show a = (a.1, a.2) from rfl, h.answered_iff, h'.answered_iff, hmem]
  · exact ⟨fun hp => h'.keyless p ((hmem p).mp (h.of_read p hp).1) hkey,
      fun hp => h.keyless p ((hmem p).mpr (h'.of_read p hp).1) hkey⟩
  · rw [h.represented_iff, h'.represented_iff]
    simp only [hmem]

variable [DecidableEq S] {reading : List S} {p : α}

/-- A candidate without a key is read. -/
theorem sortOut_keyless (hkey : keyOf p = none) : sortOut twinOf keyOf reading (p :: candidates) =
    ((sortOut twinOf keyOf reading candidates).1, p :: (sortOut twinOf keyOf reading candidates).2) := by
  rw [sortOut, hkey]

/-- A candidate with a twin is answered. -/
theorem sortOut_twin {k : S} {twin : β} (hkey : keyOf p = some k) (htwin : twinOf k = some twin) :
    sortOut twinOf keyOf reading (p :: candidates) =
      ((p, twin) :: (sortOut twinOf keyOf reading candidates).1, (sortOut twinOf keyOf reading candidates).2) := by
  rw [sortOut, hkey]
  dsimp only
  rw [htwin]

/-- Another one is read, unless its key is. -/
theorem sortOut_asked {k : S} (hkey : keyOf p = some k) (htwin : twinOf k = none) :
    sortOut twinOf keyOf reading (p :: candidates) =
      if k ∈ reading then sortOut twinOf keyOf reading candidates
      else ((sortOut twinOf keyOf (k :: reading) candidates).1,
        p :: (sortOut twinOf keyOf (k :: reading) candidates).2) := by
  rw [sortOut, hkey]
  dsimp only
  rw [htwin]

/-- Answered are the candidates with a twin. -/
theorem sortOut_fst : ∀ (reading : List S) (candidates : List α), (sortOut twinOf keyOf reading candidates).1 =
    candidates.filterMap fun p => ((keyOf p).bind twinOf).map fun twin => (p, twin)
  | _, [] => rfl
  | reading, p :: rest => by
    rcases hkey : keyOf p with _ | k
    · rw [sortOut_keyless hkey, List.filterMap_cons, hkey]
      exact sortOut_fst reading rest
    · rcases htwin : twinOf k with _ | twin
      · rw [sortOut_asked hkey htwin, List.filterMap_cons, hkey, Option.bind_some, htwin]
        split
        · exact sortOut_fst reading rest
        · exact sortOut_fst (k :: reading) rest
      · rw [sortOut_twin hkey htwin, List.filterMap_cons, hkey, Option.bind_some, htwin]
        show (p, twin) :: _ = (p, twin) :: _
        rw [sortOut_fst reading rest]

/-- Read is one of each key of the others. -/
theorem sortOut_snd : ∀ (reading : List S) (candidates : List α), (sortOut twinOf keyOf reading candidates).2 =
    representatives keyOf reading (candidates.filter fun p => ((keyOf p).bind twinOf).isNone)
  | _, [] => rfl
  | reading, p :: rest => by
    rcases hkey : keyOf p with _ | k
    · rw [sortOut_keyless hkey, List.filter_cons, hkey, Option.bind_none, Option.isNone_none, if_pos rfl,
        representatives, hkey]
      show p :: _ = p :: _
      rw [sortOut_snd reading rest]
    · rcases htwin : twinOf k with _ | twin
      · rw [sortOut_asked hkey htwin, List.filter_cons, hkey, Option.bind_some, htwin, Option.isNone_none, if_pos rfl,
          representatives, hkey]
        dsimp only
        split
        · exact sortOut_snd reading rest
        · rw [← sortOut_snd (k :: reading) rest]
      · rw [sortOut_twin hkey htwin, List.filter_cons, hkey, Option.bind_some, htwin, Option.isNone_some,
          if_neg Bool.false_ne_true]
        exact sortOut_snd reading rest

/-- Without keys all are read. -/
theorem sortOut_of_keyless : ∀ {reading : List S} {candidates : List α}, (∀ p ∈ candidates, keyOf p = none) →
    sortOut twinOf keyOf reading candidates = ([], candidates)
  | _, [], _ => rfl
  | _, p :: rest, h => by
    rw [sortOut_keyless (h p List.mem_cons_self), sortOut_of_keyless fun q hq => h q (List.mem_cons_of_mem _ hq)]

/-- The loop loses nothing. -/
theorem sortOut_sortsOut (hurls : (candidates.map urlOf).Nodup) (haway : ∀ k, k ∈ reading ↔ ∃ u, away u k) :
    SortsOut urlOf keyOf twinOf away candidates (sortOut twinOf keyOf reading candidates).1
      (sortOut twinOf keyOf reading candidates).2 := by
  rw [sortOut_fst, sortOut_snd]
  have hasked : ∀ q, q ∈ candidates.filter (fun p => ((keyOf p).bind twinOf).isNone) ↔
      q ∈ candidates ∧ (keyOf q).bind twinOf = none := by
    intro q
    rw [List.mem_filter, Option.isNone_iff_eq_none]
  refine ⟨fun p twin => ?_, fun p hp => ?_, fun p hp hkey => ?_, fun p hp q hq k hkp hkq => ?_,
    fun p hp k hkey u hu => ?_, fun p hp hanswered hread => ?_⟩
  · rw [List.mem_filterMap]
    constructor
    · rintro ⟨q, hq, hmap⟩
      obtain ⟨t, ht, heq⟩ := Option.map_eq_some_iff.mp hmap
      obtain ⟨rfl, rfl⟩ := Prod.mk.inj heq
      exact ⟨hq, ht⟩
    · rintro ⟨hp, htwin⟩
      exact ⟨p, hp, by rw [htwin]; rfl⟩
  · exact (hasked p).mp (mem_of_mem_representatives hp)
  · exact mem_representatives_of_none hkey ((hasked p).mpr ⟨hp, by rw [hkey]; rfl⟩)
  · exact representative_unique hp hq hkp hkq
  · exact notMem_taken hp hkey ((haway k).mpr ⟨u, hu⟩)
  · -- Without a twin its key is away, or another candidate of the key is read.
    have hnone : (keyOf p).bind twinOf = none := by
      rcases htwin : (keyOf p).bind twinOf with _ | twin
      · rfl
      · exact absurd (List.mem_filterMap.mpr ⟨p, hp, by rw [htwin]; rfl⟩) (hanswered twin)
    have hmem := (hasked p).mpr ⟨hp, hnone⟩
    rcases hkey : keyOf p with _ | k
    · exact absurd (mem_representatives_of_none hkey hmem) hread
    · refine ⟨k, rfl, ?_⟩
      have hrep : k ∈ reading ∨ ∃ q ∈ representatives keyOf reading _, keyOf q = some k :=
        exists_representative hkey hmem
      rcases hrep with htaken | ⟨q, hq, hkq⟩
      · obtain ⟨u, hu⟩ := (haway k).mp htaken
        rcases Classical.em (u = urlOf p) with rfl | hne
        · exact .inl hu
        · exact .inr (.inr ⟨u, hne, hu⟩)
      · have hne : urlOf q ≠ urlOf p := by
          intro heq
          have hqp : q = p := List.inj_on_of_nodup_map hurls ((hasked q).mp (mem_of_mem_representatives hq)).1 hp heq
          exact hread (hqp ▸ hq)
        exact .inr (.inl ⟨q, hq, hne, hkq⟩)

end SortsOut

/-! ## What the statements do -/

section Statements

variable {K : Type}

/-- The newest row of a kind, if the rows that are added have one of it. -/
theorem latest_of_unique {rows old : List Verdict} {kind : Verdict → Bool} {w : Verdict} (hw : w ∈ rows)
    (hkind : kind w = true) (hunique : ∀ v ∈ rows, kind v = true → v = w) :
    (rows.reverse ++ old).find? kind = some w := by
  have hsome : (rows.reverse.find? kind).isSome := List.find?_isSome.mpr ⟨w, List.mem_reverse.mpr hw, hkind⟩
  obtain ⟨v, hv⟩ := Option.isSome_iff_exists.mp hsome
  have hmem : v ∈ rows := List.mem_reverse.mp (List.mem_of_find?_eq_some hv)
  rw [List.find?_append, hv, hunique v hmem (List.find?_some hv), Option.some_or]

/-- A posting has a verdict exactly if it has a latest one. -/
theorem Database.hasVerdict_eq (db : Database K) (url : String) (check : Check) :
    db.hasVerdict url check = (db.latestCheck url check).isSome := by
  rw [Database.hasVerdict, Database.latestCheck, Bool.eq_iff_iff, List.any_eq_true, List.find?_isSome]

/-- Verdicts stay. -/
theorem Database.hasVerdict_addAiResults {db : Database K} {url : String} {check : Check} (rows : List Verdict)
    (h : db.hasVerdict url check = true) : (db.addAiResults rows).hasVerdict url check = true := by
  obtain ⟨v, hv, hkind⟩ := List.any_eq_true.mp h
  exact List.any_eq_true.mpr ⟨v, List.mem_append_right _ hv, hkind⟩

/-- The check of a row and the posting that it is about. -/
theorem Database.kind_iff {v : Verdict} {url : String} {check : Check} :
    (v.url = url && v.check_type = check) = true ↔ v.url = url ∧ v.check_type = check := by
  rw [Bool.and_eq_true, decide_eq_true_eq, decide_eq_true_eq]

/-- The kind of a row of `latestCustom`. -/
theorem Database.customKind_iff {v : Verdict} {url prompt_hash : String} {models : List String} :
    (v.url = url && v.check_type = .custom && v.prompt_hash = some prompt_hash &&
        v.model.any models.contains) = true ↔
      v.url = url ∧ v.check_type = .custom ∧ v.prompt_hash = some prompt_hash ∧ ∃ m ∈ models, v.model = some m := by
  simp only [Bool.and_eq_true, decide_eq_true_eq, Option.any_eq_true, List.contains_iff_mem, and_assoc]
  constructor
  · rintro ⟨hurl, hcheck, hhash, m, hm, hmodels⟩
    exact ⟨hurl, hcheck, hhash, m, hmodels, hm⟩
  · rintro ⟨hurl, hcheck, hhash, m, hmodels, hm⟩
    exact ⟨hurl, hcheck, hhash, m, hm, hmodels⟩

/-- What a row of `latestCustom` is. -/
theorem Database.of_latestCustom {db : Database K} {v : Verdict} {url prompt_hash : String} {models : List String}
    (h : db.latestCustom url prompt_hash models = some v) : v.url = url ∧ v.check_type = .custom ∧
      v.prompt_hash = some prompt_hash ∧ ∃ m ∈ models, v.model = some m := by
  rw [Database.latestCustom] at h
  have hkind := List.find?_some h
  exact Database.customKind_iff.mp hkind

/-- A row for a check is the copy of the twin's latest verdict on it. -/
theorem mem_checkRows {db : Database K} {job : Posting} {twin : String} {check : Check} {v : Verdict} :
    v ∈ checkRows db job twin check ↔
      job.needs check = true ∧ ∃ verdict ∈ db.latestCheck twin check, v = checkCopy job check verdict := by
  rw [checkRows]
  rcases hlatest : db.latestCheck twin check with _ | verdict
  · constructor
    · exact fun h => absurd h List.not_mem_nil
    · rintro ⟨-, verdict, hverdict, -⟩
      exact absurd hverdict (Option.not_mem_none verdict)
  · dsimp only
    split
    · next hneeds =>
      rw [List.mem_singleton]
      constructor
      · exact fun h => ⟨hneeds, verdict, rfl, h⟩
      · rintro ⟨-, verdict', hverdict, h⟩
        obtain rfl : verdict = verdict' := Option.some_inj.mp hverdict
        exact h
    · next hneeds => exact ⟨fun h => absurd h List.not_mem_nil, fun h => absurd h.1 hneeds⟩

/-- A row for a prompt is the copy of an answer of the twin that the candidate has none for. -/
theorem mem_customRows {db : Database K} {job : Posting} {twin : String} {v : Verdict} : v ∈ customRows db job twin ↔
    ∃ verdict ∈ customs db twin, decidedCustom db job.url verdict.prompt_hash verdict.model = false ∧
      v = customCopy job verdict := by
  rw [customRows, List.mem_map]
  simp only [List.mem_filter, Bool.not_eq_true']
  constructor
  · rintro ⟨verdict, ⟨hmem, hdecided⟩, rfl⟩
    exact ⟨verdict, hmem, hdecided, rfl⟩
  · rintro ⟨verdict, hmem, hdecided, rfl⟩
    exact ⟨verdict, ⟨hmem, hdecided⟩, rfl⟩

/-- The rows of a candidate are about it, on a check that it needs or under a prompt. -/
theorem mem_twinRows {db : Database K} {reuse : Posting × String} {v : Verdict} : v ∈ twinRows db reuse ↔
    v ∈ checkRows db reuse.1 reuse.2 .closed ∨ v ∈ checkRows db reuse.1 reuse.2 .clearance ∨
      v ∈ customRows db reuse.1 reuse.2 := by
  rw [twinRows, List.mem_append, List.mem_append, or_assoc]

/-- The rows of a candidate are about it. -/
theorem url_of_mem_twinRows {db : Database K} {reuse : Posting × String} {v : Verdict} (h : v ∈ twinRows db reuse) :
    v.url = reuse.1.url := by
  rcases mem_twinRows.mp h with h | h | h
  · obtain ⟨-, verdict, -, rfl⟩ := mem_checkRows.mp h
    rfl
  · obtain ⟨-, verdict, -, rfl⟩ := mem_checkRows.mp h
    rfl
  · obtain ⟨verdict, -, -, rfl⟩ := mem_customRows.mp h
    rfl

/-- The rows of a candidate on a check of verification. -/
theorem mem_checkRows_of_twinRows {db : Database K} {reuse : Posting × String} {v : Verdict}
    (h : v ∈ twinRows db reuse) (hcheck : v.check_type ≠ .custom) : v ∈ checkRows db reuse.1 reuse.2 v.check_type := by
  rcases mem_twinRows.mp h with h | h | h
  · obtain ⟨-, verdict, -, heq⟩ := mem_checkRows.mp h
    have htype : v.check_type = .closed := by rw [heq, checkCopy]
    rw [htype]
    exact h
  · obtain ⟨-, verdict, -, heq⟩ := mem_checkRows.mp h
    have htype : v.check_type = .clearance := by rw [heq, checkCopy]
    rw [htype]
    exact h
  · obtain ⟨verdict, -, -, rfl⟩ := mem_customRows.mp h
    exact absurd rfl hcheck

/-- The rows of a candidate under prompts. -/
theorem mem_customRows_of_twinRows {db : Database K} {reuse : Posting × String} {v : Verdict}
    (h : v ∈ twinRows db reuse) (hcheck : v.check_type = .custom) : v ∈ customRows db reuse.1 reuse.2 := by
  rcases mem_twinRows.mp h with h | h | h
  · obtain ⟨-, verdict, -, rfl⟩ := mem_checkRows.mp h
    exact absurd hcheck nofun
  · obtain ⟨-, verdict, -, rfl⟩ := mem_checkRows.mp h
    exact absurd hcheck nofun
  · exact h

/-- The twin's latest answer under a live prompt is among its `customs`. -/
theorem mem_customs_of_latestCustom {db : Database K} {twin prompt_hash model : String} {v : Verdict}
    (hlive : db.livePrompt (some prompt_hash) = true) (h : v ∈ db.latestCustom twin prompt_hash [model]) :
    v ∈ customs db twin := by
  have hfind : (customs db twin).find? (fun v => decide (some (v.prompt_hash, v.model) =
      some (some prompt_hash, some model))) = db.latestCustom twin prompt_hash [model] := by
    rw [customs, find_representative (fun v : Verdict => some (v.prompt_hash, v.model)) _ [] _ List.not_mem_nil,
      List.find?_filter, Database.latestCustom]
    refine congrArg (db.verdicts.find? ·) (funext fun v => ?_)
    rw [Bool.eq_iff_iff, Database.customKind_iff]
    simp only [decide_eq_true_eq, Bool.and_eq_true, Option.some_inj, Prod.mk.injEq, List.mem_singleton,
      exists_eq_left]
    constructor
    · rintro ⟨⟨⟨hurl, hcheck⟩, -⟩, hhash, hmodel⟩
      exact ⟨hurl, hcheck, hhash, hmodel⟩
    · rintro ⟨hurl, hcheck, hhash, hmodel⟩
      exact ⟨⟨⟨hurl, hcheck⟩, by rw [hhash, hlive]⟩, hhash, hmodel⟩
  exact List.mem_of_find?_eq_some (hfind.trans (Option.mem_def.mp h))

/-- A prompt and a model have one answer among the `customs`. -/
theorem customs_unique {db : Database K} {twin : String} {v w : Verdict} (hv : v ∈ customs db twin)
    (hw : w ∈ customs db twin) (hhash : v.prompt_hash = w.prompt_hash) (hmodel : v.model = w.model) : v = w :=
  representative_unique hv hw (k := (w.prompt_hash, w.model)) (by rw [hhash, hmodel]) rfl

end Statements

/-! ## Verification reads near copies once -/

section Verification

variable {K : Type} {key : String → String → K} {db : Database K} {in_flight : List String}
  {candidates candidates' : List Posting} {p : Posting} {twin : String}

/-- The keys in flight are those of the postings in flight. -/
theorem mem_inFlightSourceKeys {k : String × K} :
    k ∈ inFlightSourceKeys db in_flight ↔ ∃ u, db.Away in_flight u k := by
  rw [inFlightSourceKeys, List.mem_filterMap]
  constructor
  · rintro ⟨j, hj, hkey⟩
    obtain ⟨hmem, hurl⟩ := List.mem_filter.mp hj
    exact ⟨j.url, List.contains_iff_mem.mp hurl, j, hmem, rfl, hkey⟩
  · rintro ⟨u, hu, j, hj, rfl, hkey⟩
    exact ⟨j, List.mem_filter.mpr ⟨hj, List.contains_iff_mem.mpr hu⟩, hkey⟩

/-- A url finds its candidate. -/
theorem find_url (hurls : (candidates.map (·.url)).Nodup) {url : String} :
    candidates.find? (fun p => p.url = url) = some p ↔ p ∈ candidates ∧ p.url = url := by
  constructor
  · intro h
    have hurl : decide (p.url = url) = true := List.find?_some (p := fun p : Posting => decide (p.url = url)) h
    exact ⟨List.mem_of_find?_eq_some h, of_decide_eq_true hurl⟩
  · rintro ⟨hp, rfl⟩
    have hsome : (candidates.find? fun q => q.url = p.url).isSome :=
      List.find?_isSome.mpr ⟨p, hp, decide_eq_true rfl⟩
    obtain ⟨q, hq⟩ := Option.isSome_iff_exists.mp hsome
    have hurl : decide (q.url = p.url) = true := List.find?_some (p := fun q : Posting => decide (q.url = p.url)) hq
    rw [hq, List.inj_on_of_nodup_map hurls (List.mem_of_find?_eq_some hq) hp (of_decide_eq_true hurl)]

/-- The keys do not depend on the order. -/
theorem keyed_perm (hurls : (candidates.map (·.url)).Nodup) (hperm : candidates.Perm candidates') :
    keyed key db candidates' = keyed key db candidates := by
  have hurls' : (candidates'.map (·.url)).Nodup := (hperm.map _).nodup_iff.mp hurls
  have hkeys : nearCopyKeys key candidates' = nearCopyKeys key candidates := by
    funext url
    rw [nearCopyKeys, nearCopyKeys]
    refine congrArg (Option.map _) (Option.ext fun p => ?_)
    rw [find_url hurls', find_url hurls, hperm.mem_iff]
  rw [keyed, keyed, hkeys]

variable [DecidableEq K]

/-- Nor do the twins. -/
theorem verifiedTwin_perm (hperm : candidates.Perm candidates') :
    verifiedTwin db candidates' = verifiedTwin db candidates := by
  have hcontains : ∀ u, (candidates'.map (·.url)).contains u = (candidates.map (·.url)).contains u := by
    intro u
    rw [Bool.eq_iff_iff, List.contains_iff_mem, List.contains_iff_mem, (hperm.map _).mem_iff]
  funext k
  rw [verifiedTwin, verifiedTwin]
  simp only [hcontains]

/-- A twin has both verdicts. -/
theorem hasVerdict_of_verifiedTwin {k : String × K} (h : verifiedTwin db candidates k = some twin) :
    db.hasVerdict twin .closed = true ∧ db.hasVerdict twin .clearance = true := by
  obtain ⟨j, hj, rfl⟩ := Option.map_eq_some_iff.mp h
  have hfilter := (List.mem_filter.mp (List.argmax_mem hj)).2
  simp only [Bool.and_eq_true] at hfilter
  exact ⟨hfilter.1.2, hfilter.2⟩

/-- Each candidate of verification is answered, read or waits. -/
theorem sortedOut_sortsOut (hurls : (candidates.map (·.url)).Nodup) :
    SortsOut (·.url) (fun p => some (sourceKey key p)) (verifiedTwin (keyed key db candidates) candidates)
      ((keyed key db candidates).Away in_flight) candidates (sortedOut key db in_flight candidates).1
      (sortedOut key db in_flight candidates).2 :=
  sortOut_sortsOut hurls fun _ => mem_inFlightSourceKeys

/-- A candidate is answered from one twin, which has both verdicts. -/
theorem hasVerdict_of_sortedOut (hurls : (candidates.map (·.url)).Nodup)
    (h : (p, twin) ∈ (sortedOut key db in_flight candidates).1) :
    p ∈ candidates ∧ verifiedTwin (keyed key db candidates) candidates (sourceKey key p) = some twin ∧
      ∀ check, check ≠ .custom → db.hasVerdict twin check = true := by
  obtain ⟨hp, htwin⟩ := ((sortedOut_sortsOut hurls).answered_iff p twin).mp h
  obtain ⟨hclosed, hclearance⟩ := hasVerdict_of_verifiedTwin htwin
  refine ⟨hp, htwin, fun check hcheck => ?_⟩
  cases check with
  | closed => exact hclosed
  | clearance => exact hclearance
  | custom => exact absurd rfl hcheck

/-- The rows that are about a candidate are those of its twin. -/
theorem mem_twinRows_of_url (hurls : (candidates.map (·.url)).Nodup) {v : Verdict}
    (h : (p, twin) ∈ (sortedOut key db in_flight candidates).1)
    (hv : v ∈ (sortedOut key db in_flight candidates).1.flatMap (twinRows (keyed key db candidates)))
    (hurl : v.url = p.url) : v ∈ twinRows (keyed key db candidates) (p, twin) := by
  obtain ⟨⟨q, twin'⟩, hq, hv⟩ := List.mem_flatMap.mp hv
  obtain ⟨hp, htwin, -⟩ := hasVerdict_of_sortedOut hurls h
  obtain ⟨hqmem, htwin', -⟩ := hasVerdict_of_sortedOut hurls hq
  have hqp : q = p := List.inj_on_of_nodup_map hurls hqmem hp ((url_of_mem_twinRows hv).symm.trans hurl)
  subst hqp
  obtain rfl : twin = twin' := Option.some_inj.mp (htwin.symm.trans htwin')
  exact hv

/-- An answered candidate has the twin's verdict on a check that it needed. -/
theorem latestCheck_reuse (hurls : (candidates.map (·.url)).Nodup)
    (h : (p, twin) ∈ (sortedOut key db in_flight candidates).1) {check : Check} (hneeds : p.needs check = true) :
    ∃ v ∈ db.latestCheck twin check,
      ∃ w ∈ (reuseNearCopies key db in_flight candidates).2.latestCheck p.url check,
        w.status = v.status ∧ w.reason = v.reason := by
  have hcheck : check ≠ .custom := by
    rintro rfl
    exact Bool.false_ne_true hneeds
  have hhas := (hasVerdict_of_sortedOut hurls h).2.2 check hcheck
  rw [Database.hasVerdict_eq] at hhas
  obtain ⟨v, hv⟩ := Option.isSome_iff_exists.mp hhas
  refine ⟨v, hv, checkCopy p check v, ?_, rfl, rfl⟩
  have hrow : checkCopy p check v ∈ checkRows (keyed key db candidates) p twin check :=
    mem_checkRows.mpr ⟨hneeds, v, hv, rfl⟩
  have htwin : checkCopy p check v ∈ twinRows (keyed key db candidates) (p, twin) := by
    rw [mem_twinRows]
    cases check with
    | closed => exact .inl hrow
    | clearance => exact .inr (.inl hrow)
    | custom => exact absurd rfl hcheck
  refine latest_of_unique (List.mem_flatMap.mpr ⟨(p, twin), h, htwin⟩) (Database.kind_iff.mpr ⟨rfl, rfl⟩)
    fun w hw hkind => ?_
  obtain ⟨hurl, rfl⟩ := Database.kind_iff.mp hkind
  have hw := mem_checkRows_of_twinRows (mem_twinRows_of_url hurls h hw hurl) hcheck
  obtain ⟨-, v', hv', heq⟩ := mem_checkRows.mp hw
  obtain rfl : v = v' := Option.some_inj.mp (hv.symm.trans hv')
  exact heq

/-- And the twin's answer to a live prompt that it had none to. -/
theorem latestCustom_reuse (hurls : (candidates.map (·.url)).Nodup)
    (h : (p, twin) ∈ (sortedOut key db in_flight candidates).1) {prompt_hash model : String}
    (hlive : db.livePrompt (some prompt_hash) = true)
    (hdecided : decidedCustom db p.url (some prompt_hash) (some model) = false) {v : Verdict}
    (hv : v ∈ db.latestCustom twin prompt_hash [model]) :
    ∃ w ∈ (reuseNearCopies key db in_flight candidates).2.latestCustom p.url prompt_hash [model],
      w.status = v.status ∧ w.reason = v.reason ∧ w.parsed_json = v.parsed_json := by
  obtain ⟨-, -, hhash, m, hm, hmodel⟩ := Database.of_latestCustom (Option.mem_def.mp hv)
  obtain rfl := List.mem_singleton.mp hm
  have hcustoms : v ∈ customs (keyed key db candidates) twin := mem_customs_of_latestCustom hlive hv
  have hrow : customCopy p v ∈ customRows (keyed key db candidates) p twin := by
    refine mem_customRows.mpr ⟨v, hcustoms, ?_, rfl⟩
    rw [hhash, hmodel]
    exact hdecided
  refine ⟨customCopy p v, ?_, rfl, rfl, rfl⟩
  have htwin : customCopy p v ∈ twinRows (keyed key db candidates) (p, twin) := mem_twinRows.mpr (.inr (.inr hrow))
  refine latest_of_unique (List.mem_flatMap.mpr ⟨(p, twin), h, htwin⟩)
    (Database.customKind_iff.mpr ⟨rfl, rfl, hhash, m, List.mem_singleton_self m, hmodel⟩) fun w hw hkind => ?_
  obtain ⟨hurl, hcheck, hhash', m', hm', hmodel'⟩ := Database.customKind_iff.mp hkind
  obtain rfl := List.mem_singleton.mp hm'
  have hw := mem_customRows_of_twinRows (mem_twinRows_of_url hurls h hw hurl) hcheck
  obtain ⟨v', hv', -, rfl⟩ := mem_customRows.mp hw
  rw [customs_unique hv' hcustoms (hhash'.trans hhash.symm) (hmodel'.trans hmodel.symm)]

/-- An answered candidate has both verdicts. -/
theorem missingVerdict_reuse (hcandidates : Candidates db candidates)
    (h : (p, twin) ∈ (sortedOut key db in_flight candidates).1) :
    (reuseNearCopies key db in_flight candidates).2.missingVerdict p.url = false := by
  have hp := (hasVerdict_of_sortedOut hcandidates.urls_nodup h).1
  have hhas : ∀ check, check ≠ .custom →
      (reuseNearCopies key db in_flight candidates).2.hasVerdict p.url check = true := by
    intro check hcheck
    rcases hneeds : p.needs check with _ | _
    · -- What it did not need it had.
      have hhad := hcandidates.needs_eq p hp check hcheck
      rw [hneeds, eq_comm, Bool.not_eq_false'] at hhad
      have hkept : (keyed key db candidates).hasVerdict p.url check = true := hhad
      exact Database.hasVerdict_addAiResults _ hkept
    · obtain ⟨-, -, w, hw, -⟩ := latestCheck_reuse hcandidates.urls_nodup h hneeds
      rw [Database.hasVerdict_eq, Option.mem_def.mp hw, Option.isSome_some]
  rw [Database.missingVerdict, hhas .closed nofun, hhas .clearance nofun]
  rfl

/-- Verification reads near copies once, and loses none. -/
theorem reusesNearCopies (hcandidates : Candidates db candidates) :
    ReusesNearCopies key db in_flight candidates := by
  refine ⟨sortedOut_sortsOut hcandidates.urls_nodup, fun p twin h check hneeds => ?_,
    fun p twin h prompt_hash model hlive hdecided v hv => ?_, fun p twin h => missingVerdict_reuse hcandidates h,
    fun candidates' hperm => ?_⟩
  · exact latestCheck_reuse hcandidates.urls_nodup h hneeds
  · exact latestCustom_reuse hcandidates.urls_nodup h hlive hdecided hv
  · have hurls' : (candidates'.map (·.url)).Nodup := (hperm.map _).nodup_iff.mp hcandidates.urls_nodup
    have hother := @sortedOut_sortsOut K key db in_flight candidates' _ hurls'
    rw [keyed_perm hcandidates.urls_nodup hperm, verifiedTwin_perm hperm] at hother
    exact (sortedOut_sortsOut hcandidates.urls_nodup).sameSets hother fun _ => hperm.mem_iff

end Verification

/-! ## Filters read near copies once -/

section Filters

variable {K : Type} {groups : List (List String)} {screened : Candidate → Bool} {db : Database K}
  {candidates candidates' todo todo' : List Candidate} {prompt_hash model : String} {models held : List String}
  {p : Candidate} {twin : Verdict}

/-- A model answers for itself. -/
theorem mem_answeringModels (groups : List (List String)) (model : String) :
    model ∈ answeringModels groups model := by
  rw [answeringModels]
  rcases hgroup : groups.find? fun group => group.contains model with _ | group
  · rw [hgroup]
    exact List.mem_singleton_self model
  · rw [hgroup]
    have hmem : group.contains model = true := List.find?_some (p := fun g : List String => g.contains model) hgroup
    exact List.contains_iff_mem.mp hmem

/-- A filter judges the candidates that are not held, have no verdict that counts, and are not screened. -/
theorem mem_filterTodo : p ∈ filterTodo groups screened db candidates prompt_hash model held ↔
    p ∈ candidates ∧ p.url ∉ held ∧ db.latestCustom p.url prompt_hash (answeringModels groups model) = none ∧
      screened p = false := by
  rw [filterTodo, decidedCustomUrls]
  simp only [List.mem_filter, Bool.not_eq_true', ← Bool.not_eq_true, List.contains_iff_mem, List.mem_map,
    Option.isSome_iff_ne_none]
  constructor
  · rintro ⟨⟨⟨hp, hheld⟩, hundecided⟩, hscreen⟩
    refine ⟨hp, hheld, ?_, hscreen⟩
    by_contra hdecided
    exact hundecided ⟨⟨p, ⟨hp, hheld⟩, rfl⟩, hdecided⟩
  · rintro ⟨hp, hheld, hundecided, hscreen⟩
    exact ⟨⟨⟨hp, hheld⟩, fun h => h.2 hundecided⟩, hscreen⟩

/-- The candidates of a filter are some of them, in their order. -/
theorem filterTodo_sublist :
    (filterTodo groups screened db candidates prompt_hash model held).Sublist candidates := by
  rw [filterTodo]
  exact (List.filter_sublist.trans List.filter_sublist).trans List.filter_sublist

variable [DecidableEq K]

/-- The twins do not depend on the order. -/
theorem decidedTwin_congr (hmem : ∀ p, p ∈ todo ↔ p ∈ todo') :
    decidedTwin db todo' prompt_hash models = decidedTwin db todo prompt_hash models := by
  have hcontains : ∀ u, (todo'.map (·.url)).contains u = (todo.map (·.url)).contains u := by
    intro u
    rw [Bool.eq_iff_iff, List.contains_iff_mem, List.contains_iff_mem, List.mem_map, List.mem_map]
    simp only [hmem]
  funext k
  rw [decidedTwin, decidedTwin]
  simp only [hcontains]

/-- `_take_twin_verdicts` returns early only where its loop would read every posting. -/
theorem takeTwinVerdicts_eq : takeTwinVerdicts true groups db todo prompt_hash model held =
    ((sortedTodo db todo prompt_hash (answeringModels groups model) held).2,
      db.addAiResults ((sortedTodo db todo prompt_hash (answeringModels groups model) held).1.map
        (filterCopy prompt_hash model))) := by
  rw [takeTwinVerdicts]
  rcases todo with _ | ⟨p, rest⟩
  · rfl
  · rw [if_neg (by simp)]
    split
    · next hkeys =>
      have hkeyless : ∀ q ∈ p :: rest, db.keyOf q.url = none := by
        rw [List.isEmpty_iff, List.filterMap_eq_nil_iff] at hkeys
        exact hkeys
      rw [sortedTodo, sortOut_of_keyless hkeyless]
      rfl
    · rfl

/-- Each posting to judge is answered, read or waits. -/
theorem sortedTodo_sortsOut (hurls : (todo.map (·.url)).Nodup) :
    SortsOut (·.url) (fun p => db.keyOf p.url) (decidedTwin db todo prompt_hash models)
      (fun url key => url ∈ held ∧ db.keyOf url = some key) todo (sortedTodo db todo prompt_hash models held).1
      (sortedTodo db todo prompt_hash models held).2 :=
  sortOut_sortsOut hurls fun _ => List.mem_filterMap

/-- An answered posting has the twin's verdict. -/
theorem latestCustom_take (hurls : (todo.map (·.url)).Nodup)
    (h : (p, twin) ∈ (sortedTodo db todo prompt_hash (answeringModels groups model) held).1) :
    (takeTwinVerdicts true groups db todo prompt_hash model held).2.latestCustom p.url prompt_hash
      (answeringModels groups model) = some (filterCopy prompt_hash model (p, twin)) := by
  rw [takeTwinVerdicts_eq]
  refine latest_of_unique (List.mem_map_of_mem h)
    (Database.customKind_iff.mpr ⟨rfl, rfl, rfl, model, mem_answeringModels groups model, rfl⟩) fun v hv hkind => ?_
  obtain ⟨⟨q, twin'⟩, hq, rfl⟩ := List.mem_map.mp hv
  obtain ⟨hp, htwin⟩ := ((sortedTodo_sortsOut hurls).answered_iff p twin).mp h
  obtain ⟨hqmem, htwin'⟩ := ((sortedTodo_sortsOut hurls).answered_iff q twin').mp hq
  have hqp : q = p := List.inj_on_of_nodup_map hurls hqmem hp (Database.customKind_iff.mp hkind).1
  subst hqp
  obtain rfl : twin = twin' := Option.some_inj.mp (htwin.symm.trans htwin')
  rfl

/-- A filter reads near copies once, and loses none. -/
theorem takesTwinVerdicts (hurls : (candidates.map (·.url)).Nodup) :
    TakesTwinVerdicts groups screened db candidates prompt_hash model held := by
  have htodo : ∀ candidates : List Candidate, (candidates.map (·.url)).Nodup →
      ((filterTodo groups screened db candidates prompt_hash model held).map (·.url)).Nodup := by
    intro candidates hurls
    exact hurls.sublist (filterTodo_sublist.map _)
  refine ⟨?_, fun p hp => (mem_filterTodo.mp hp).2.1, fun p twin h => ?_, fun p twin h candidates' held' hagain => ?_,
    fun candidates' hperm => ?_⟩
  · rw [runFilter, takeTwinVerdicts_eq]
    exact sortedTodo_sortsOut (htodo candidates hurls)
  · exact ⟨_, latestCustom_take (htodo candidates hurls) h, rfl, rfl, rfl, rfl⟩
  · have hdecided := latestCustom_take (htodo candidates hurls) h
    have hnone := (mem_filterTodo.mp hagain).2.2.1
    exact absurd (hdecided.symm.trans hnone) nofun
  · have hmem : ∀ p, p ∈ filterTodo groups screened db candidates prompt_hash model held ↔
        p ∈ filterTodo groups screened db candidates' prompt_hash model held := by
      intro p
      rw [mem_filterTodo, mem_filterTodo, hperm.mem_iff]
    have hother := @sortedTodo_sortsOut K db _ prompt_hash (answeringModels groups model) held _
      (htodo candidates' ((hperm.map _).nodup_iff.mp hurls))
    rw [decidedTwin_congr hmem] at hother
    rw [runFilter, runFilter, takeTwinVerdicts_eq, takeTwinVerdicts_eq]
    exact (sortedTodo_sortsOut (htodo candidates hurls)).sameSets hother hmem

end Filters

/-! ## The two together -/

/-- Near copies are read once, and none is lost: by verification and by the filters. -/
theorem near_copies_read_once {K : Type} [DecidableEq K] (key : String → String → K) (db : Database K)
    (in_flight : List String) {candidates : List Posting} (hcandidates : Candidates db candidates)
    (groups : List (List String)) (screened : Candidate → Bool) {judged : List Candidate}
    (hjudged : (judged.map (·.url)).Nodup) (prompt_hash model : String) (held : List String) :
    ReusesNearCopies key db in_flight candidates ∧
      TakesTwinVerdicts groups screened db judged prompt_hash model held :=
  ⟨reusesNearCopies hcandidates, takesTwinVerdicts hjudged⟩

/-- A posting without a verdict. -/
def storeAssociate : Posting where
  url := "store"
  company := none
  title := some "Store Associate"
  source := "board"
  input_content := some " Stock shelves."
  needs_closed := true
  needs_clearance := true

/-- A catalog of two copies of it. -/
def twoStores : Database String where
  jobs := [⟨1, "store", "board", some "Store Associate Stock shelves."⟩,
    ⟨2, "warehouse", "board", some "Store Associate Stock shelves."⟩]
  verdicts := []
  managed_boards := []
  user_filters := []

/-- The posting has no verdict, and needs both. -/
theorem candidates_storeAssociate : Candidates twoStores [storeAssociate] := by
  refine ⟨List.nodup_singleton _, fun p hp check hcheck => ?_⟩
  obtain rfl := List.mem_singleton.mp hp
  cases check with
  | closed => rfl
  | clearance => rfl
  | custom => exact absurd rfl hcheck

/-- The other copy as a candidate of the filters. -/
def warehouse : Candidate where
  url := "warehouse"
  company := none
  title := some "Store Associate"
  source := "board"

/-- A posting of the board without a verdict. -/
def unread (url title text : String) : Posting where
  url := url
  company := none
  title := some title
  source := "board"
  input_content := some text
  needs_closed := true
  needs_clearance := true

/-- Postings of which one is a copy of one that has its verdicts, one of one in flight, and two of each other. -/
def fourUnread : List Posting :=
  [unread "warehouse" "Associate" " Stock shelves.", unread "till" "Cashier" " Count.",
    unread "office" "Clerk" " File.", unread "annex" "Clerk" " File."]

/-- The postings with the two that they are copies of, which have their keys. -/
def sixPostings : Database String where
  jobs := [⟨1, "store", "board", some "Associate Stock shelves."⟩, ⟨2, "counter", "board", some "Cashier Count."⟩,
    ⟨3, "warehouse", "board", some "Associate Stock shelves."⟩, ⟨4, "till", "board", some "Cashier Count."⟩,
    ⟨5, "office", "board", some "Clerk File."⟩, ⟨6, "annex", "board", some "Clerk File."⟩]
  verdicts := [
    { url := "store", status := .rejected, reason := some "retail", check_type := .custom, model := some "model",
      prompt_hash := some "prompt", company := none, job_title := none, config_name := none },
    { url := "store", status := .passed, reason := none, check_type := .closed, company := none, job_title := none,
      config_name := none },
    { url := "store", status := .passed, reason := none, check_type := .clearance, company := none, job_title := none,
      config_name := none }]
  managed_boards := []
  user_filters := [⟨"prompt", true⟩]

/-- None of the four has a verdict. -/
theorem candidates_fourUnread : Candidates sixPostings fourUnread := by
  refine ⟨by decide, fun p hp check hcheck => ?_⟩
  have hunread : ∀ q ∈ fourUnread, ∀ c ∈ [Check.closed, .clearance],
      q.needs c = !sixPostings.hasVerdict q.url c := by decide +kernel
  refine hunread p hp check ?_
  cases check with
  | closed => exact List.mem_cons_self
  | clearance => exact List.mem_cons_of_mem _ List.mem_cons_self
  | custom => exact absurd rfl hcheck

/-- One is answered from its twin, under the checks and the prompt, and one of the two copies is read; the other two
wait, for it and for the one in flight. -/
theorem near_copies_read_once_six_postings :
    (ReusesNearCopies (· ++ ·) sixPostings ["counter"] fourUnread ∧
      (sortedOut (· ++ ·) sixPostings ["counter"] fourUnread).1.map (fun a => (a.1.url, a.2)) =
        [("warehouse", "store")] ∧
      (reuseNearCopies (· ++ ·) sixPostings ["counter"] fourUnread).1.map (·.url) = ["office"]) ∧
    TakesTwinVerdicts [] (fun _ => false) sixPostings (fourUnread.map (·.toCandidate)) "prompt" "model" ["counter"] ∧
      (sortedTodo sixPostings (fourUnread.map (·.toCandidate)) "prompt" ["model"] ["counter"]).1.map
        (fun a => (a.1.url, a.2.url, a.2.status)) = [("warehouse", "store", .rejected)] ∧
      (runFilter true [] (fun _ => false) sixPostings (fourUnread.map (·.toCandidate)) "prompt" "model"
        ["counter"]).1.map (·.url) = ["office"] := by
  have hnodup : ((fourUnread.map (·.toCandidate)).map (·.url)).Nodup := by decide
  obtain ⟨hreuses, htakes⟩ := near_copies_read_once (· ++ ·) sixPostings ["counter"] candidates_fourUnread []
    (fun _ => false) hnodup "prompt" "model" ["counter"]
  exact ⟨⟨hreuses, by decide +kernel, by decide +kernel⟩, htakes, by decide +kernel, by decide +kernel⟩

/-- A candidate that another sweep submitted since it was selected waits, and no other posting of its key is read or
in flight. And without `verify_near_copy_reuse` a filter reads two copies. -/
theorem waits_for_itself :
    (Candidates twoStores [storeAssociate] ∧
      sortedOut (· ++ ·) twoStores ["store"] [storeAssociate] = ([], []) ∧
      ∀ u, (keyed (· ++ ·) twoStores [storeAssociate]).Away ["store"] u (sourceKey (· ++ ·) storeAssociate) →
        u = storeAssociate.url) ∧
    (takeTwinVerdicts false [] twoStores [storeAssociate.toCandidate, warehouse] "prompt" "model" []).1 =
        [storeAssociate.toCandidate, warehouse] ∧
      twoStores.keyOf storeAssociate.url = twoStores.keyOf warehouse.url ∧
      (twoStores.keyOf warehouse.url).isSome = true := by
  refine ⟨⟨candidates_storeAssociate, by decide +kernel, fun u hu => ?_⟩, rfl, by decide +kernel, by decide +kernel⟩
  exact List.mem_singleton.mp hu.1

end JobScripts.Verification.NearCopies
