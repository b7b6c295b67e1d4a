import JobScripts.Board.PublicJobLists
import JobScripts.Lib.Run
import Mathlib.Data.List.Nodup

/-!
# Tags of the public job lists

The public index and each job list are sent with an `ETag`, and a client that has the tag already is answered that
nothing has changed. The tag of the index is made of the slugs and the public revisions of the boards
(`list_public_job_lists`), that of a job list of these, of the request and of the cards (`get_public_job_list`). A
public revision goes up with each change of a board that is or becomes public, and with each of its projections.

The revisions are counted board by board, and a slug can go from one board to another. `tag_tells_body` says that
equal tags are of equal bodies where no two boards are ever public under one slug at one revision, whatever the
history; else they may not be (`moved_slug_hides`).
-/

namespace JobScripts.Board.Revalidation

open Lib PublicJobLists

/-! ## Boards -/

/-- A small letter or a digit. -/
def isAlnum (c : ℕ) : Bool := 0x61 ≤ c && c ≤ 0x7A || 0x30 ≤ c && c ≤ 0x39

/-- `^[a-z0-9]+(-[a-z0-9]+)*$`, where a hyphen may come next or not. -/
def isKebab : Bool → Text → Bool
  | hyphen, [] => hyphen
  | hyphen, c :: t => if isAlnum c then isKebab true t else c = 0x2D && hyphen && isKebab false t

/-- A slug. -/
structure Slug where
  text : Text
  kebab : isKebab false text = true
  deriving DecidableEq

/-- A row of `managed_boards`, with its sources and its rows of `managed_board_jobs`. What nothing public reads of it
is in `settings`. -/
structure Row (σ : Type) where
  id : ℕ
  slug : Slug
  name : Text
  description : Text
  settings : σ
  sources : List Text
  published : Bool
  revision : ℕ
  public_revision : Option ℕ
  projection_updated_at : Option ℤ
  members : List ℤ

/-- A slug and a public revision at which a board has been public. -/
structure Shown where
  slug : Slug
  public_revision : Option ℕ
  id : ℕ

/-- The boards and the postings, with what has been public so far. -/
structure State (α σ : Type) where
  boards : List (Row σ)
  postings : List (Posting α)
  distinct : (postings.map Posting.job_id).Nodup
  shown : List Shown

/-- What a board is made of. -/
structure Draft (σ : Type) where
  slug : Slug
  name : Text
  description : Text
  settings : σ
  sources : List Text

/-- `ManagedBoardPatch`: the fields that a request changes, and the revision that it was made from. -/
structure Patch (σ : Type) where
  expected_revision : ℕ
  slug : Option Slug
  name : Option Text
  description : Option Text
  settings : Option (σ → σ)
  sources : Option (List Text)
  published : Option Bool

/-- The checks of a request's models, modes, gates, sources and sponsor. -/
structure Checks (σ : Type) where
  draft : Draft σ → Bool
  patch : Row σ → Patch σ → Bool

/-- What changes boards and postings. -/
inductive Op (α σ : Type)
  | create (id : ℕ) (draft : Draft σ)
  | bootstrap (drafts : List (ℕ × Draft σ))
  | patch (id : ℕ) (body : Patch σ)
  | project (id revision : ℕ) (members : List ℤ) (now : ℤ)
  | delete_source (name : Text)
  | postings (postings : List (Posting α)) (distinct : (postings.map Posting.job_id).Nodup)

section Steps

variable {α σ : Type}

/-- A board that has just been made. -/
def Draft.row (d : Draft σ) (id : ℕ) : Row σ where
  id := id
  slug := d.slug
  name := d.name
  description := d.description
  settings := d.settings
  sources := d.sources
  published := false
  revision := 1
  public_revision := none
  projection_updated_at := none
  members := []

/-- `INSERT INTO managed_boards`: the id and the slug are new. -/
def insert (boards : List (Row σ)) (id : ℕ) (d : Draft σ) : Option (List (Row σ)) :=
  if boards.any fun b => b.id = id || b.slug = d.slug then none else some (boards ++ [d.row id])

/-- A board is as the bootstrap made it. -/
def Row.matches [DecidableEq σ] (b : Row σ) (d : Draft σ) : Bool :=
  b.name = d.name && b.description = d.description && b.settings = d.settings && b.sources = d.sources &&
    !b.published && b.revision = 1

/-- `bootstrap_managed_boards`: the boards of a list that are not there are made; one that is there has to be as it
was made. -/
def bootstrapBoards [DecidableEq σ] : List (ℕ × Draft σ) → List (Row σ) → Option (List (Row σ))
  | [], boards => some boards
  | (id, d) :: rest, boards =>
    match boards.find? fun b => b.slug = d.slug with
    | some b => if b.matches d then bootstrapBoards rest boards else none
    | none => (insert boards id d).bind (bootstrapBoards rest)

/-- The public revision after a change, where that is public. -/
def Row.advanced (b : Row σ) (isPublic : Bool) : Option ℕ :=
  if isPublic then some (b.public_revision.getD 0 + 1) else b.public_revision

/-- A patch names no field. -/
def Patch.isEmpty (p : Patch σ) : Bool :=
  p.slug.isNone && p.name.isNone && p.description.isNone && p.settings.isNone && p.sources.isNone &&
    p.published.isNone

/-- The `UPDATE` of `patch_managed_board`. -/
def Row.patched (b : Row σ) (p : Patch σ) : Row σ :=
  { b with
    slug := p.slug.getD b.slug
    name := p.name.getD b.name
    description := p.description.getD b.description
    settings := (p.settings.getD fun settings => settings) b.settings
    sources := p.sources.getD b.sources
    published := p.published.getD b.published
    revision := b.revision + 1
    public_revision := b.advanced (b.published || p.published.getD b.published ≠ b.published) }

/-- `patch_managed_board` refuses a patch of a board. -/
def refuses (checks : Checks σ) (boards : List (Row σ)) (b : Row σ) (p : Patch σ) : Bool :=
  p.isEmpty || b.revision ≠ p.expected_revision || !checks.patch b p ||
    (p.slug.any fun slug => boards.any fun c => c.slug = slug && c.id ≠ b.id) ||
    (p.published.getD b.published && (p.sources.getD b.sources).isEmpty)

/-- One board changes. -/
def update (boards : List (Row σ)) (id : ℕ) (f : Row σ → Row σ) : List (Row σ) :=
  boards.map fun b => if b.id = id then f b else b

/-- The rows that `replace_projection` writes. -/
def Row.projected (b : Row σ) (members : List ℤ) (now : ℤ) : Row σ :=
  { b with
    members := members
    projection_updated_at := some now
    public_revision := b.advanced b.published }

/-- A board whose source is deleted. -/
def Row.withoutSource (b : Row σ) (name : Text) : Row σ :=
  if name ∈ b.sources then
    { b with
      sources := b.sources.filter (· ≠ name)
      revision := b.revision + 1
      public_revision := b.advanced b.published }
  else b

variable [DecidableEq σ] (checks : Checks σ)

/-- The boards after a change, where it is not refused. -/
def boardsAfter (boards : List (Row σ)) : Op α σ → Option (List (Row σ))
  | .create id d => if checks.draft d then insert boards id d else none
  | .bootstrap drafts => bootstrapBoards drafts boards
  | .patch id p =>
    match boards.find? fun b => b.id = id with
    | some b => if refuses checks boards b p then none else some (update boards id fun b => b.patched p)
    | none => none
  | .project id revision members now =>
    match boards.find? fun b => b.id = id && b.revision = revision with
    | some _ => some (update boards id fun b => b.projected members now)
    | none => none
  | .delete_source name => some (boards.map fun b => b.withoutSource name)
  | .postings _ _ => some boards

/-- What is public. -/
def publics (boards : List (Row σ)) : List Shown :=
  (boards.filter Row.published).map fun b => ⟨b.slug, b.public_revision, b.id⟩

/-- A change. -/
def step (s : State α σ) (op : Op α σ) : Option (State α σ) :=
  (boardsAfter checks s.boards op).map fun boards =>
    match op with
    | .postings postings distinct => ⟨boards, postings, distinct, s.shown ++ publics boards⟩
    | _ => ⟨boards, s.postings, s.distinct, s.shown ++ publics boards⟩

/-- No two boards have been public under one slug at one revision. -/
def OneBoard (s : State α σ) : Prop :=
  ∀ b ∈ s.boards, b.published = true → ∀ t ∈ s.shown, t.slug = b.slug → t.public_revision = b.public_revision →
    t.id = b.id

/-- A change makes no board public under a slug at a revision at which another board has been. -/
def Keeps (s : State α σ) (op : Op α σ) : Prop := ∀ s' ∈ step checks s op, OneBoard s'

end Steps

/-! ## Tags and bodies -/

/-- `"\n".join(parts)`: the parts as lines. -/
def joinLines : List Text → Text
  | [] => []
  | [part] => part
  | part :: next :: rest => part ++ 0x0A :: joinLines (next :: rest)

/-- What is asked of Python, of the database and of SHA-256: the tag of a text is that of no other. -/
structure Server (α β : Type) where
  py : Python
  db : Database
  /-- `_card`: what a page shows of a posting. -/
  card : Posting α → β
  /-- `card.model_dump_json()`: one line. -/
  model_dump_json : β → Text
  one_line : ∀ c, 0x0A ∉ model_dump_json c
  json_injective : Function.Injective model_dump_json
  /-- The digest in quotes. -/
  sha256 : Text → Text
  collision_free : Function.Injective sha256

/-- A link of the index. -/
structure Link where
  slug : Text
  name : Text
  description : Text
  job_count : ℕ
  updated_at : Option ℤ
  deriving DecidableEq

/-- `str(public_revision)`: the revision as text, where there may be none. -/
def revisionText : Option ℕ → Text
  | some n => Dumps.digits n
  | none => codes "None"

/-- The link of a board. -/
def Row.link {σ : Type} (b : Row σ) : Link :=
  ⟨b.slug.text, b.name, b.description, b.members.length, b.projection_updated_at⟩

/-- `f"{row.slug}:{row.public_revision}"`: the line of a board in the tag of the index. -/
def Row.entry {σ : Type} (b : Row σ) : Text := b.slug.text ++ 0x3A :: revisionText b.public_revision

/-- A request for a page of a job list: with the slug, and what its tag has of the other parameters. -/
structure ListRequest (α : Type) extends Request α where
  slug : Text
  q : Option Text
  location : Option Text
  remote : Option Bool
  hide_restricted : Bool
  wanted_terms : List Text
  /-- `str(min_comp)`: the lowest pay that is asked for, as the request has it. -/
  min_comp_text : Text
  /-- `canonical_compensation_period(comp_period)`: the period that is asked for, if it is one. -/
  canonical_period : Option Text

/-- A job list, as it is sent. -/
structure JobList (β : Type) where
  slug : Text
  name : Text
  description : Text
  job_count : ℕ
  matched_count : ℕ
  updated_at : Option ℤ
  jobs : List β
  next_cursor : Option Text
  has_more : Bool

/-- `str` of a flag that may be missing. -/
def flagText : Option Bool → Text
  | some true => codes "True"
  | some false => codes "False"
  | none => codes "None"

/-- `"\0".join(terms)`: the terms as one text, with NULs between. -/
def joinTerms : List Text → Text
  | [] => []
  | [term] => term
  | term :: next :: rest => term ++ 0 :: joinTerms (next :: rest)

section Responses

variable {α β σ : Type} (server : Server α β)

/-- The rows of the index: `ORDER BY b.slug`. -/
def indexRows (s : State α σ) : List (Row σ) :=
  (s.boards.filter Row.published).insertionSort fun a b => (server.db.collate a.slug.text b.slug.text).isLE

/-- The tag of the index. -/
def indexTag (s : State α σ) : Text := server.sha256 (joinLines ((indexRows server s).map Row.entry))

/-- The body of the index. -/
def indexBody (s : State α σ) : List Link := (indexRows server s).map Row.link

/-- The postings of a board. -/
def State.managed (s : State α σ) (b : Row σ) : ManagedBoard α where
  jobs := s.postings.filter fun p => p.job_id ∈ b.members
  primary_key := s.distinct.sublist (List.filter_sublist.map Posting.job_id)

/-- The tag of a page of a job list. -/
def listTag (r : ListRequest α) (b : Row σ) (page : Page α) : Text :=
  server.sha256 (joinLines
    (b.slug.text :: revisionText b.public_revision :: r.cursor.getD [] :: Dumps.digits r.limit :: r.sort.name ::
      r.dir.name :: r.q.getD [] :: r.location.getD [] :: flagText r.remote :: r.min_comp_text ::
      r.comp_currency.getD [] :: r.canonical_period.getD [] :: flagText (some r.hide_restricted) ::
      Dumps.digits page.matched_count :: joinTerms r.wanted_terms :: page.next_cursor.getD [] ::
      page.jobs.map fun p => server.model_dump_json (server.card p)))

/-- The body of a page of a job list. -/
def listBody (b : Row σ) (page : Page α) : JobList β where
  slug := b.slug.text
  name := b.name
  description := b.description
  job_count := b.members.length
  matched_count := page.matched_count
  updated_at := b.projection_updated_at
  jobs := page.jobs.map server.card
  next_cursor := page.next_cursor
  has_more := page.has_more

/-- The board that is public under a slug. -/
def State.shownUnder (s : State α σ) (slug : Text) : Option (Row σ) :=
  s.boards.find? fun b => b.slug.text = slug && b.published

/-- What is sent for a job list: the tag and the body. -/
def respond (s : State α σ) (r : ListRequest α) : Except Failure (Text × JobList β) :=
  match s.shownUnder r.slug with
  | none => (getPublicJobList server.db server.py none r.toRequest).bind fun _ => .error .not_found
  | some b =>
    match getPublicJobList server.db server.py (some (s.managed b)) r.toRequest with
    | .error e => .error e
    | .ok page => .ok (listTag server r b page, listBody server b page)

/-- `_not_modified`: the client has the tag, and is answered 304. -/
def notModified (if_none_match : List Text) (tag : Text) : Bool := tag ∈ if_none_match

/-- A client that has the tag of one moment is answered at another that nothing has changed only if the body is the
same. -/
def TagsTell (s s' : State α σ) : Prop :=
  (notModified [indexTag server s] (indexTag server s') = true → indexBody server s = indexBody server s') ∧
  ∀ r tag tag' body body', respond server s r = .ok (tag, body) → respond server s' r = .ok (tag', body') →
    notModified [tag] tag' = true → body = body'

end Responses

/-! ## A public revision goes up -/

section Boards

variable {α σ : Type}

/-- What is public of a board, and that it is. -/
def Row.view (b : Row σ) : Slug × Text × Text × Bool × Option ℕ × Option ℤ × List ℤ :=
  (b.slug, b.name, b.description, b.published, b.public_revision, b.projection_updated_at, b.members)

/-- A board at a later moment: its public revision has not gone down, and if it is the same, what was public is. -/
structure Evolves (b b' : Row σ) : Prop where
  id : b'.id = b.id
  le : b.public_revision.getD 0 ≤ b'.public_revision.getD 0
  view : b.published = true → b'.public_revision.getD 0 = b.public_revision.getD 0 → b'.view = b.view

theorem Evolves.refl (b : Row σ) : Evolves b b := ⟨rfl, le_rfl, fun _ _ => rfl⟩

/-- Moments later it still is so. -/
theorem Evolves.trans {a b c : Row σ} (hab : Evolves a b) (hbc : Evolves b c) : Evolves a c := by
  refine ⟨hbc.id.trans hab.id, hab.le.trans hbc.le, fun hpublic hrevision => ?_⟩
  have hle := hab.le
  have hle' := hbc.le
  have hab' := hab.view hpublic (by omega)
  have hpublic' : b.published = true := (congrArg (fun v => v.2.2.2.1) hab').trans hpublic
  exact (hbc.view hpublic' (by omega)).trans hab'

/-- A board whose public revision has gone up is a later one. -/
theorem evolves_of_advanced {b b' : Row σ} {isPublic : Bool} (hid : b'.id = b.id)
    (hrevision : b'.public_revision = b.advanced isPublic) (hpublic : b.published = true → isPublic = true) :
    Evolves b b' := by
  have hadvanced : (b.advanced isPublic).getD 0 = if isPublic then b.public_revision.getD 0 + 1 else
      b.public_revision.getD 0 := by
    unfold Row.advanced
    split <;> rfl
  rw [← hrevision] at hadvanced
  refine ⟨hid, ?_, fun hpublished heq => ?_⟩
  · rw [hadvanced]
    split <;> omega
  · rw [hadvanced, if_pos (hpublic hpublished)] at heq
    omega

/-- A patched board is a later one. -/
theorem evolves_patched (b : Row σ) (p : Patch σ) : Evolves b (b.patched p) := by
  refine evolves_of_advanced rfl rfl fun hpublished => ?_
  rw [hpublished, Bool.true_or]

/-- So is one with a new projection. -/
theorem evolves_projected (b : Row σ) (members : List ℤ) (now : ℤ) : Evolves b (b.projected members now) :=
  evolves_of_advanced rfl rfl id

/-- So is one whose source is deleted. -/
theorem evolves_withoutSource (b : Row σ) (name : Text) : Evolves b (b.withoutSource name) := by
  unfold Row.withoutSource
  split
  · exact evolves_of_advanced rfl rfl id
  · exact Evolves.refl b

/-- The boards at a later moment: each is still there, and no two have one id. -/
structure Later (boards boards' : List (Row σ)) : Prop where
  evolves : ∀ b ∈ boards, ∃ b' ∈ boards', Evolves b b'
  nodup : (boards.map Row.id).Nodup → (boards'.map Row.id).Nodup

theorem Later.refl (boards : List (Row σ)) : Later boards boards := ⟨fun b hb => ⟨b, hb, .refl b⟩, id⟩

theorem Later.trans {boards boards' boards'' : List (Row σ)} (h : Later boards boards')
    (h' : Later boards' boards'') : Later boards boards'' := by
  refine ⟨fun b hb => ?_, h'.nodup ∘ h.nodup⟩
  obtain ⟨b', hb', hevolves⟩ := h.evolves b hb
  obtain ⟨b'', hb'', hevolves'⟩ := h'.evolves b' hb'
  exact ⟨b'', hb'', hevolves.trans hevolves'⟩

/-- Boards that each change into a later one. -/
theorem later_map {f : Row σ → Row σ} (h : ∀ b, Evolves b (f b)) (boards : List (Row σ)) :
    Later boards (boards.map f) := by
  refine ⟨fun b hb => ⟨f b, List.mem_map_of_mem hb, h b⟩, fun hnodup => ?_⟩
  have hids : (boards.map f).map Row.id = boards.map Row.id := by
    rw [List.map_map]
    exact List.map_congr_left fun b _ => (h b).id
  rwa [hids]

/-- One board that changes into a later one. -/
theorem later_update {f : Row σ → Row σ} (h : ∀ b, Evolves b (f b)) (boards : List (Row σ)) (id : ℕ) :
    Later boards (update boards id f) := by
  refine later_map (fun b => ?_) boards
  split
  · exact h b
  · exact .refl b

/-- A new board leaves the others as they are. -/
theorem later_insert {boards boards' : List (Row σ)} {id : ℕ} {d : Draft σ} (h : insert boards id d = some boards') :
    Later boards boards' := by
  unfold insert at h
  split at h
  · exact absurd h nofun
  · next hnew =>
    rw [← Option.some.inj h]
    refine ⟨fun b hb => ⟨b, List.mem_append_left _ hb, .refl b⟩, fun hnodup => ?_⟩
    rw [List.map_append, List.nodup_append_comm]
    refine List.nodup_cons.mpr ⟨fun hmem => hnew ?_, hnodup⟩
    obtain ⟨b, hb, hid⟩ := List.mem_map.mp hmem
    exact List.any_eq_true.mpr ⟨b, hb, by rw [hid]; exact Bool.or_eq_true_iff.mpr (.inl (decide_eq_true rfl))⟩

variable [DecidableEq σ] {checks : Checks σ}

/-- So do those of the bootstrap. -/
theorem later_bootstrap : ∀ {drafts : List (ℕ × Draft σ)} {boards boards' : List (Row σ)},
    bootstrapBoards drafts boards = some boards' → Later boards boards'
  | [], boards, boards', h => by
    rw [← Option.some.inj h]
    exact .refl boards
  | (id, d) :: rest, boards, boards', h => by
    unfold bootstrapBoards at h
    split at h
    · split at h
      · exact later_bootstrap h
      · exact absurd h nofun
    · obtain ⟨boards₁, hinsert, hrest⟩ := Option.bind_eq_some_iff.mp h
      exact (later_insert hinsert).trans (later_bootstrap hrest)

/-- A change leads to a later moment. -/
theorem later_boardsAfter {boards boards' : List (Row σ)} {op : Op α σ}
    (h : boardsAfter checks boards op = some boards') : Later boards boards' := by
  cases op with
  | create id d =>
    rw [boardsAfter] at h
    split at h
    · exact later_insert h
    · exact absurd h nofun
  | bootstrap drafts => exact later_bootstrap h
  | patch id p =>
    rw [boardsAfter] at h
    split at h
    · split at h
      · exact absurd h nofun
      · rw [← Option.some.inj h]
        exact later_update (fun b => evolves_patched b p) boards id
    · exact absurd h nofun
  | project id revision members now =>
    rw [boardsAfter] at h
    split at h
    · rw [← Option.some.inj h]
      exact later_update (fun b => evolves_projected b members now) boards id
    · exact absurd h nofun
  | delete_source name =>
    rw [boardsAfter, Option.some.injEq] at h
    rw [← h]
    exact later_map (fun b => evolves_withoutSource b name) boards
  | postings postings distinct =>
    rw [boardsAfter, Option.some.injEq] at h
    rw [← h]
    exact .refl boards

end Boards

/-! ## Tags are read apart -/

/-- A text goes up to the first of a character. -/
theorem append_cons_inj {d : ℕ} : ∀ {a a' x y : Text}, d ∉ a → d ∉ a' → a ++ d :: x = a' ++ d :: y → a = a' ∧ x = y
  | [], [], x, y, _, _, h => ⟨rfl, (List.cons.inj h).2⟩
  | [], c :: a', x, y, _, h', h => absurd (List.mem_cons.mpr (.inl (List.cons.inj h).1)) h'
  | c :: a, [], x, y, h', _, h => absurd (List.mem_cons.mpr (.inl (List.cons.inj h).1.symm)) h'
  | c :: a, c' :: a', x, y, hc, hc', h => by
    obtain ⟨rfl, htail⟩ := List.cons.inj h
    obtain ⟨rfl, hxy⟩ := append_cons_inj (not_or.mp (mt List.mem_cons.mpr hc)).2
      (not_or.mp (mt List.mem_cons.mpr hc')).2 htail
    exact ⟨rfl, hxy⟩

/-- A part that others come after. -/
theorem joinLines_cons {part : Text} {rest : List Text} (h : rest ≠ []) :
    joinLines (part :: rest) = part ++ 0x0A :: joinLines rest := by
  cases rest with
  | nil => exact absurd rfl h
  | cons next rest => rfl

/-- Parts after some that are the same. -/
theorem joinLines_same {rest rest' : List Text} (h : rest ≠ []) (h' : rest' ≠ []) : ∀ parts : List Text,
    joinLines (parts ++ rest) = joinLines (parts ++ rest') → joinLines rest = joinLines rest'
  | [], heq => heq
  | part :: parts, heq => by
    rw [List.cons_append, List.cons_append, joinLines_cons (List.append_ne_nil_of_right_ne_nil parts h),
      joinLines_cons (List.append_ne_nil_of_right_ne_nil parts h')] at heq
    exact joinLines_same h h' parts (List.cons.inj (List.append_cancel_left heq)).2

/-- A part of one line, and the parts after it. -/
theorem joinLines_line {part part' : Text} {rest rest' : List Text} (hpart : 0x0A ∉ part) (hpart' : 0x0A ∉ part')
    (h : rest ≠ []) (h' : rest' ≠ []) (heq : joinLines (part :: rest) = joinLines (part' :: rest')) :
    part = part' ∧ joinLines rest = joinLines rest' := by
  rw [joinLines_cons h, joinLines_cons h'] at heq
  exact append_cons_inj hpart hpart' heq

/-- Parts of one line each are told apart, where there are any. -/
theorem joinLines_inj : ∀ {l l' : List Text}, (∀ part ∈ l, 0x0A ∉ part) → (∀ part ∈ l', 0x0A ∉ part) → l ≠ [] →
    l' ≠ [] → joinLines l = joinLines l' → l = l'
  | [], _, _, _, h, _, _ => absurd rfl h
  | _, [], _, _, _, h', _ => absurd rfl h'
  | [part], [part'], _, _, _, _, heq => congrArg (fun p => [p]) heq
  | [part], part' :: next :: rest, h, _, _, _, heq => by
    have hmem : 0x0A ∈ part := by
      have hpart : part = part' ++ 0x0A :: joinLines (next :: rest) := heq
      rw [hpart]
      exact List.mem_append_right _ List.mem_cons_self
    exact absurd hmem (h part List.mem_cons_self)
  | part :: next :: rest, [part'], _, h', _, _, heq => by
    have hmem : 0x0A ∈ part' := by
      have hpart : part ++ 0x0A :: joinLines (next :: rest) = part' := heq
      rw [← hpart]
      exact List.mem_append_right _ List.mem_cons_self
    exact absurd hmem (h' part' List.mem_cons_self)
  | part :: next :: rest, part' :: next' :: rest', h, h', _, _, heq => by
    obtain ⟨hpart, htail⟩ := List.forall_mem_cons.mp h
    obtain ⟨hpart', htail'⟩ := List.forall_mem_cons.mp h'
    obtain ⟨rfl, hrest⟩ := joinLines_line hpart hpart' (List.cons_ne_nil _ _) (List.cons_ne_nil _ _) heq
    rw [joinLines_inj htail htail' (List.cons_ne_nil _ _) (List.cons_ne_nil _ _) hrest]

/-- The characters of a slug are letters, digits and hyphens. -/
theorem isAlnum_of_isKebab : ∀ {hyphen : Bool} {t : Text}, isKebab hyphen t = true →
    ∀ c ∈ t, isAlnum c = true ∨ c = 0x2D
  | _, [], _, c, hc => absurd hc List.not_mem_nil
  | hyphen, d :: t, h, c, hc => by
    unfold isKebab at h
    split at h
    · next hd =>
      rcases List.mem_cons.mp hc with rfl | hc
      · exact .inl hd
      · exact isAlnum_of_isKebab h c hc
    · rw [Bool.and_eq_true, Bool.and_eq_true, decide_eq_true_iff] at h
      rcases List.mem_cons.mp hc with rfl | hc
      · exact .inr h.1.1
      · exact isAlnum_of_isKebab h.2 c hc

/-- So there is no line end in it, and no colon. -/
theorem Slug.not_mem (slug : Slug) : 0x0A ∉ slug.text ∧ 0x3A ∉ slug.text := by
  constructor
  · intro h
    exact absurd (isAlnum_of_isKebab slug.kebab _ h) (by decide)
  · intro h
    exact absurd (isAlnum_of_isKebab slug.kebab _ h) (by decide)

/-- A number is one line, and its text is that of no other. -/
theorem not_mem_digits (n : ℕ) : 0x0A ∉ Dumps.digits n :=
  fun h => absurd (Dumps.isDigit_of_mem_digits h) (by decide)

theorem digits_inj {m n : ℕ} (h : Dumps.digits m = Dumps.digits n) : m = n := by
  rw [← Dumps.natOf_digits m, h, Dumps.natOf_digits]

/-- So is that of a revision. -/
theorem not_mem_revisionText (revision : Option ℕ) : 0x0A ∉ revisionText revision := by
  cases revision with
  | none => decide
  | some n => exact not_mem_digits n

theorem revisionText_inj {r r' : Option ℕ} (h : revisionText r = revisionText r') : r = r' := by
  have hnone : ∀ n, revisionText (some n) ≠ revisionText none := by
    intro n hn
    have hmem : 0x4E ∈ Dumps.digits n := by
      have htext : Dumps.digits n = codes "None" := hn
      rw [htext]
      decide
    exact absurd (Dumps.isDigit_of_mem_digits hmem) (by decide)
  cases r with
  | none =>
    cases r' with
    | none => rfl
    | some n => exact absurd h.symm (hnone n)
  | some m =>
    cases r' with
    | none => exact absurd h (hnone m)
    | some n => exact congrArg some (digits_inj h)

/-- The cursor of a page is one line, and is there where there is more. -/
theorem cursor_of_getPublicJobList {α : Type} {db : Database} {py : Python} {board : ManagedBoard α} {r : Request α}
    {page : Page α} (h : getPublicJobList db py (some board) r = .ok page) :
    ∀ c ∈ page.next_cursor, 0x0A ∉ c ∧ c ≠ [] := by
  obtain ⟨rows, rfl⟩ := exists_pageOf h
  intro c hc
  unfold pageOf at hc
  dsimp only at hc
  split at hc
  · obtain ⟨p, -, rfl⟩ := Option.map_eq_some_iff.mp hc
    refine ⟨fun hmem => ?_, encodeCursor_ne_nil p.id_pos p.id_lt⟩
    unfold encodeCursor at hmem
    rw [Base64.unpadded_encode (lt_of_mem_write (readable_payload p.id_pos p.id_lt))] at hmem
    exact absurd (Base64.ge_of_mem_letters hmem) (by decide)
  · exact absurd hc (Option.not_mem_none c)

/-! ## Equal tags -/

section Tags

variable {α β σ : Type} {server : Server α β}

/-- A slug is its text. -/
theorem Slug.ext_text {slug slug' : Slug} (h : slug.text = slug'.text) : slug = slug' := by
  cases slug
  cases slug'
  cases h
  rfl

/-- The entry of a board tells its slug and its public revision. -/
theorem entry_inj {b b' : Row σ} (h : b.entry = b'.entry) :
    b.slug = b'.slug ∧ b.public_revision = b'.public_revision := by
  obtain ⟨hslug, hrevision⟩ := append_cons_inj b.slug.not_mem.2 b'.slug.not_mem.2 h
  exact ⟨Slug.ext_text hslug, revisionText_inj hrevision⟩

/-- An entry is one line. -/
theorem not_mem_entry (b : Row σ) : 0x0A ∉ b.entry := by
  unfold Row.entry
  rw [List.mem_append, List.mem_cons, not_or, not_or]
  exact ⟨b.slug.not_mem.1, by decide, not_mem_revisionText _⟩

/-- Equal tags of the index are of equal entries. -/
theorem entries_of_indexTag {s s' : State α σ} (h : indexTag server s = indexTag server s') :
    (indexRows server s).map Row.entry = (indexRows server s').map Row.entry := by
  have hlines := server.collision_free h
  have hentry : ∀ {rows : List (Row σ)}, ∀ part ∈ rows.map Row.entry, 0x0A ∉ part := by
    intro rows part hpart
    obtain ⟨b, -, rfl⟩ := List.mem_map.mp hpart
    exact not_mem_entry b
  have hne : ∀ (b : Row σ) rows, joinLines ((b :: rows).map Row.entry) ≠ [] := by
    intro b rows hnil
    have hcolon : (0x3A : ℕ) ∈ joinLines ((b :: rows).map Row.entry) := by
      have hmem : 0x3A ∈ b.entry := List.mem_append_right _ List.mem_cons_self
      cases rows with
      | nil => exact hmem
      | cons b' rows => exact List.mem_append_left _ hmem
    rw [hnil] at hcolon
    exact absurd hcolon List.not_mem_nil
  rcases hrows : indexRows server s with _ | ⟨b, rows⟩
  · rcases hrows' : indexRows server s' with _ | ⟨b', rows'⟩
    · rfl
    · rw [hrows, hrows'] at hlines
      exact absurd hlines.symm (hne b' rows')
  · rcases hrows' : indexRows server s' with _ | ⟨b', rows'⟩
    · rw [hrows, hrows'] at hlines
      exact absurd hlines (hne b rows)
    · rw [hrows, hrows'] at hlines
      exact joinLines_inj hentry hentry (List.cons_ne_nil _ _) (List.cons_ne_nil _ _) hlines

/-- Equal tags of a job list are of one revision and of one page, as it is sent. -/
theorem page_of_listTag {r : ListRequest α} {b b' : Row σ} {page page' : Page α}
    (hslug : b.slug.text = b'.slug.text) (hcursor : ∀ c ∈ page.next_cursor, 0x0A ∉ c ∧ c ≠ [])
    (hcursor' : ∀ c ∈ page'.next_cursor, 0x0A ∉ c ∧ c ≠ [])
    (h : listTag server r b page = listTag server r b' page') :
    b.public_revision = b'.public_revision ∧ page.matched_count = page'.matched_count ∧
      page.next_cursor = page'.next_cursor ∧ page.jobs.map server.card = page'.jobs.map server.card := by
  have hlines := server.collision_free h
  rw [hslug] at hlines
  -- The parameters of the request are the same, whatever line ends they have.
  have hrest := joinLines_same (List.cons_ne_nil _ _) (List.cons_ne_nil _ _) [_] hlines
  obtain ⟨hrevision, hrest⟩ := joinLines_line (not_mem_revisionText _) (not_mem_revisionText _)
    (List.cons_ne_nil _ _) (List.cons_ne_nil _ _) hrest
  have hmatched := joinLines_same (List.cons_ne_nil _ _) (List.cons_ne_nil _ _)
    [_, _, _, _, _, _, _, _, _, _, _] hrest
  obtain ⟨hcount, hterms⟩ := joinLines_line (not_mem_digits _) (not_mem_digits _) (List.cons_ne_nil _ _)
    (List.cons_ne_nil _ _) hmatched
  have hpage := joinLines_same (List.cons_ne_nil _ _) (List.cons_ne_nil _ _) [_] hterms
  have hline : ∀ {page : Page α}, (∀ c ∈ page.next_cursor, 0x0A ∉ c ∧ c ≠ []) →
      ∀ part ∈ page.next_cursor.getD [] :: page.jobs.map fun p => server.model_dump_json (server.card p),
        0x0A ∉ part := by
    intro page hcursor part hpart
    rcases List.mem_cons.mp hpart with rfl | hpart
    · cases hnext : page.next_cursor with
      | none => exact List.not_mem_nil
      | some c => exact (hcursor c hnext).1
    · obtain ⟨p, -, rfl⟩ := List.mem_map.mp hpart
      exact server.one_line _
  obtain ⟨hnext, hcards⟩ := List.cons.inj (joinLines_inj (hline hcursor) (hline hcursor') (List.cons_ne_nil _ _)
    (List.cons_ne_nil _ _) hpage)
  refine ⟨revisionText_inj hrevision, digits_inj hcount, ?_, ?_⟩
  · rcases hc : page.next_cursor with _ | c
    · rcases hc' : page'.next_cursor with _ | c'
      · rfl
      · rw [hc, hc'] at hnext
        exact absurd hnext.symm (hcursor' c' hc').2
    · rcases hc' : page'.next_cursor with _ | c'
      · rw [hc, hc'] at hnext
        exact absurd hnext (hcursor c hc).2
      · rw [hc, hc'] at hnext
        exact congrArg some hnext
  · have hmap : (page.jobs.map server.card).map server.model_dump_json =
        (page'.jobs.map server.card).map server.model_dump_json := by
      rw [List.map_map, List.map_map]
      exact hcards
    exact List.map_injective_iff.mpr server.json_injective hmap

/-- The same is public of a board: so its link is the same. -/
theorem link_of_view {b b' : Row σ} (h : b'.view = b.view) : b.link = b'.link := by
  unfold Row.view at h
  simp only [Prod.mk.injEq] at h
  obtain ⟨hslug, hname, hdescription, -, -, hupdated, hmembers⟩ := h
  unfold Row.link
  rw [hslug, hname, hdescription, hupdated, hmembers]

/-- Lists that have one image under a function have one under any other that it tells. -/
theorem map_congr_of_map {γ δ ε : Type} {f : γ → δ} {g : γ → ε} : ∀ {l l' : List γ}, l.map f = l'.map f →
    (∀ a ∈ l, ∀ b ∈ l', f a = f b → g a = g b) → l.map g = l'.map g
  | [], [], _, _ => rfl
  | [], b :: l', h, _ => absurd h.symm (List.cons_ne_nil _ _)
  | a :: l, [], h, _ => absurd h (List.cons_ne_nil _ _)
  | a :: l, b :: l', h, hg => by
    obtain ⟨hab, hl⟩ := List.cons.inj h
    rw [List.map_cons, List.map_cons, hg a List.mem_cons_self b List.mem_cons_self hab,
      map_congr_of_map hl fun c hc d hd => hg c (List.mem_cons_of_mem _ hc) d (List.mem_cons_of_mem _ hd)]

/-- A row of the index is of a public board. -/
theorem mem_indexRows {s : State α σ} {b : Row σ} (h : b ∈ indexRows server s) :
    b ∈ s.boards ∧ b.published = true := by
  unfold indexRows at h
  rw [List.mem_insertionSort] at h
  exact List.mem_filter.mp h

/-- What is sent for a job list is of a public board that has the slug, and of a page of its postings. -/
theorem of_respond {s : State α σ} {r : ListRequest α} {tag : Text} {body : JobList β}
    (h : respond server s r = .ok (tag, body)) :
    ∃ b ∈ s.boards, ∃ page, b.published = true ∧ b.slug.text = r.slug ∧
      getPublicJobList server.db server.py (some (s.managed b)) r.toRequest = .ok page ∧
      tag = listTag server r b page ∧ body = listBody server b page := by
  unfold respond at h
  split at h
  · cases hpage : getPublicJobList server.db server.py (none : Option (ManagedBoard α)) r.toRequest with
    | error e =>
      rw [hpage] at h
      exact absurd h nofun
    | ok page =>
      rw [hpage] at h
      exact absurd h nofun
  · next b hb =>
    split at h
    · exact absurd h nofun
    · next page hpage =>
      obtain ⟨htag, hbody⟩ := Prod.mk.inj (Except.ok.inj h)
      have hfind := List.find?_some hb
      rw [Bool.and_eq_true, decide_eq_true_iff] at hfind
      exact ⟨b, List.mem_of_find?_eq_some hb, page, hfind.2, hfind.1, hpage, htag.symm, hbody.symm⟩

end Tags

/-! ## Moment after moment -/

section Runs

variable {α β σ : Type} [DecidableEq σ] {checks : Checks σ} {server : Server α β}

/-- What holds of the boards at each moment: no two have one id, and what is public has been shown. -/
structure Inv (s : State α σ) : Prop where
  nodup : (s.boards.map Row.id).Nodup
  shown : ∀ b ∈ s.boards, b.published = true → ⟨b.slug, b.public_revision, b.id⟩ ∈ s.shown
  one : OneBoard s

/-- A change leads to boards that are later ones, and what has been shown stays. -/
theorem later_step {s s' : State α σ} {op : Op α σ} (h : step checks s op = some s') :
    Later s.boards s'.boards ∧ s'.shown = s.shown ++ publics s'.boards := by
  obtain ⟨boards, hboards, hs'⟩ := Option.map_eq_some_iff.mp h
  cases op with
  | _ =>
    subst hs'
    exact ⟨later_boardsAfter hboards, rfl⟩

/-- The invariant is kept. -/
theorem Inv.step {s s' : State α σ} {op : Op α σ} (h : Inv s) (hkeeps : Keeps checks s op)
    (hstep : step checks s op = some s') : Inv s' := by
  obtain ⟨hlater, hshown⟩ := later_step hstep
  refine ⟨hlater.nodup h.nodup, fun b hb hpublished => ?_, hkeeps s' hstep⟩
  rw [hshown]
  refine List.mem_append_right _ (List.mem_map.mpr ⟨b, List.mem_filter.mpr ⟨hb, hpublished⟩, rfl⟩)

/-- From one moment on, the boards are later ones, and what has been shown stays. -/
theorem later_run {s s' : State α σ} (h : Run (step checks) (Keeps checks) s s') :
    Later s.boards s'.boards ∧ s.shown ⊆ s'.shown := by
  induction h with
  | start => exact ⟨.refl _, List.Subset.refl _⟩
  | next op _ _ hstep ih =>
    obtain ⟨hlater, hshown⟩ := later_step hstep
    refine ⟨ih.1.trans hlater, fun t ht => ?_⟩
    rw [hshown]
    exact List.mem_append_left _ (ih.2 ht)

/-- A board that is public at two moments under one slug and at one revision is the same, with all that is public. -/
theorem view_eq {s s' : State α σ} (hs : Inv s) (hs' : Inv s') (h : Run (step checks) (Keeps checks) s s')
    {b b' : Row σ} (hb : b ∈ s.boards) (hpublished : b.published = true) (hb' : b' ∈ s'.boards)
    (hpublished' : b'.published = true)
    (hslug : b.slug = b'.slug) (hrevision : b.public_revision = b'.public_revision) : b'.view = b.view := by
  obtain ⟨hlater, hshown⟩ := later_run h
  have hid : b.id = b'.id :=
    hs'.one b' hb' hpublished' _ (hshown (hs.shown b hb hpublished)) hslug hrevision
  obtain ⟨c, hc, hevolves⟩ := hlater.evolves b hb
  obtain rfl : c = b' := List.inj_on_of_nodup_map hs'.nodup hc hb' (hevolves.id.trans hid)
  exact hevolves.view hpublished (by rw [hrevision])

/-- Tags tell bodies at two moments. -/
theorem tagsTell_of_run {s s' : State α σ} (hs : Inv s) (hs' : Inv s') (h : Run (step checks) (Keeps checks) s s') :
    TagsTell server s s' := by
  constructor
  · intro hnot
    have htag : indexTag server s' = indexTag server s := List.mem_singleton.mp (of_decide_eq_true hnot)
    refine map_congr_of_map (entries_of_indexTag htag.symm) fun b hb b' hb' hentry => ?_
    obtain ⟨hmem, hpublished⟩ := mem_indexRows hb
    obtain ⟨hmem', hpublished'⟩ := mem_indexRows hb'
    obtain ⟨hslug, hrevision⟩ := entry_inj hentry
    exact link_of_view (view_eq hs hs' h hmem hpublished hmem' hpublished' hslug hrevision)
  · intro r tag tag' body body' hsent hsent' hnot
    have htag : tag' = tag := List.mem_singleton.mp (of_decide_eq_true hnot)
    obtain ⟨b, hb, page, hpublished, hslug, hpage, rfl, rfl⟩ := of_respond hsent
    obtain ⟨b', hb', page', hpublished', hslug', hpage', rfl, rfl⟩ := of_respond hsent'
    obtain ⟨hrevision, hcount, hnext, hcards⟩ := page_of_listTag (hslug.trans hslug'.symm)
      (cursor_of_getPublicJobList hpage) (cursor_of_getPublicJobList hpage') htag.symm
    have hsame : b.slug = b'.slug := Slug.ext_text (hslug.trans hslug'.symm)
    have hlink := link_of_view (view_eq hs hs' h hb hpublished hb' hpublished' hsame hrevision)
    have hmore : page.has_more = page'.has_more := by
      rw [(of_getPublicJobList hpage).2, (of_getPublicJobList hpage').2, hnext]
    unfold Row.link at hlink
    simp only [Link.mk.injEq] at hlink
    obtain ⟨-, hname, hdescription, hmembers, hupdated⟩ := hlink
    unfold listBody
    rw [hslug, hslug', hname, hdescription, hmembers, hcount, hupdated, hcards, hnext, hmore]

end Runs

/-! ## Results -/

/-- Before there are boards. -/
def State.start {α : Type} (σ : Type) (postings : List (Posting α)) (distinct : (postings.map Posting.job_id).Nodup) :
    State α σ :=
  ⟨[], postings, distinct, []⟩

/-- A tag that a client has tells the body at any later moment, whatever is asked and whatever has happened to boards
and postings, if no two boards have been public under one slug at one revision. -/
theorem tag_tells_body {α β σ : Type} [DecidableEq σ] (checks : Checks σ) (server : Server α β)
    (postings : List (Posting α)) (distinct : (postings.map Posting.job_id).Nodup) {s s' : State α σ}
    (hs : Run (step checks) (Keeps checks) (.start σ postings distinct) s)
    (hs' : Run (step checks) (Keeps checks) s s') : TagsTell server s s' := by
  have hstart : Inv (State.start σ postings distinct) :=
    ⟨List.nodup_nil, fun b hb => absurd hb List.not_mem_nil, fun b hb => absurd hb List.not_mem_nil⟩
  have hinv : Inv s := hs.invariant hstart fun _ _ _ h hkeeps hstep => h.step hkeeps hstep
  exact tagsTell_of_run hinv (hs'.invariant hinv fun _ _ _ h hkeeps hstep => h.step hkeeps hstep) hs'

/-- It can be decided whether two boards have. -/
instance {α σ : Type} (s : State α σ) : Decidable (OneBoard s) :=
  inferInstanceAs (Decidable (∀ b ∈ s.boards, b.published = true → ∀ t ∈ s.shown, t.slug = b.slug →
    t.public_revision = b.public_revision → t.id = b.id))

/-- A server without cards. -/
def plain : Server Unit Unit where
  py := thousandDeep
  db := byLength
  card _ := ()
  model_dump_json _ := []
  one_line _ := List.not_mem_nil
  json_injective _ _ _ := rfl
  sha256 := id
  collision_free _ _ h := h

/-- Everything passes the checks. -/
def allow : Checks Unit := ⟨fun _ => true, fun _ _ => true⟩

/-- A board of a name. -/
def draft (slug : Slug) (name : Text) : Draft Unit := ⟨slug, name, [], (), [codes "ats"]⟩

/-- A patch of what is public. -/
def publish (expected_revision : ℕ) (slug : Option Slug) (published : Bool) : Patch Unit :=
  ⟨expected_revision, slug, none, none, none, none, some published⟩

/-- Three slugs. -/
def jobs : Slug := ⟨codes "jobs", by decide⟩
def past : Slug := ⟨codes "past", by decide⟩
def next : Slug := ⟨codes "next", by decide⟩

/-- The first page of the list. -/
def firstPage : ListRequest Unit where
  limit := 50
  ge := by decide
  le := by decide
  cursor := none
  sort := .posted
  dir := .desc
  min_comp := none
  comp_currency := none
  comp_period := none
  selection _ := some true
  slug := codes "jobs"
  q := none
  location := none
  remote := none
  hide_restricted := false
  wanted_terms := []
  min_comp_text := codes "None"
  canonical_period := none

/-- It can be decided what a change does. -/
instance {α σ : Type} [DecidableEq σ] (checks : Checks σ) (s : State α σ) (op : Op α σ) :
    Decidable (Keeps checks s op) :=
  decidable_of_iff ((step checks s op).all fun s' => decide (OneBoard s')) (by simp [Keeps, Option.all_eq_true])

/-- The state after some changes. -/
def after (s : State Unit Unit) (ops : List (Op Unit Unit)) : State Unit Unit := (runList (step allow) s ops).getD s

/-- A server whose cards are the ids of the postings. -/
def listing : Server Unit ℕ where
  py := thousandDeep
  db := byLength
  card p := p.job_id.toNat
  model_dump_json := Dumps.digits
  one_line := not_mem_digits
  json_injective _ _ h := digits_inj h
  sha256 := id
  collision_free _ _ h := h

/-- The number of the first posting has less than three digits. -/
theorem first_lt : 0 < 100 := by decide

/-- One posting has one number. -/
theorem nodup_first : ([unknown 0 first_lt].map Posting.job_id).Nodup := List.nodup_singleton _

/-- One posting and no boards. -/
def posted : State Unit Unit := .start Unit [unknown 0 first_lt] nodup_first

/-- A board is published under `jobs`, and the posting is projected to it. -/
def filled : List (Op Unit Unit) :=
  [.create 1 (draft jobs (codes "One")), .patch 1 (publish 1 none true), .project 1 2 [1] 5]

/-- Another is published under `next`, with the posting. Once the first has given `jobs` up, it moves there, at its
third public revision, where the first was shown at its first two. -/
def handed : List (Op Unit Unit) :=
  [.create 2 (draft next (codes "Two")), .patch 2 (publish 1 none true), .project 2 2 [1] 6,
    .patch 1 (publish 2 (some past) false), .patch 2 (publish 2 (some jobs) true)]

/-- A third board, which is not public, and a posting that is on no board. -/
def beside : List (Op Unit Unit) :=
  [.create 3 (draft next (codes "Three")), .postings twoUnknown.jobs twoUnknown.primary_key]

/-- A slug that moves at a fresh revision has another tag, with a page of one card before and after; and what goes on
beside it leaves the tag as it is, and the body. -/
theorem tag_tells_body_handed : ∃ s s' s'' : State Unit Unit,
    (TagsTell listing s s' ∧ ∃ tag tag' body body', respond listing s firstPage = .ok (tag, body) ∧
      respond listing s' firstPage = .ok (tag', body') ∧ body.jobs = [1] ∧ body'.jobs = [1] ∧
      body.name ≠ body'.name ∧ tag ≠ tag') ∧
    TagsTell listing s' s'' ∧ s'.boards.length ≠ s''.boards.length ∧ ∃ tag body body',
      respond listing s' firstPage = .ok (tag, body) ∧ respond listing s'' firstPage = .ok (tag, body') ∧
      body = body' := by
  have hfilled : runList (guarded (step allow) (Keeps allow)) posted filled = some (after posted filled) := rfl
  have hhanded : runList (guarded (step allow) (Keeps allow)) (after posted filled) handed =
      some (after (after posted filled) handed) := rfl
  have hbeside : runList (guarded (step allow) (Keeps allow)) (after (after posted filled) handed) beside =
      some (after (after (after posted filled) handed) beside) := rfl
  have hrun := run_of_guarded (run_of_runList hfilled)
  have hrun' := run_of_guarded (run_of_runList hhanded)
  have hrun'' := run_of_guarded (run_of_runList hbeside)
  have hsame := tag_tells_body allow listing _ _ (hrun.trans hrun') hrun''
  refine ⟨_, _, _, ⟨tag_tells_body allow listing _ _ hrun hrun', _, _, _, _, rfl, rfl, by decide, by decide, by decide,
    by decide⟩, hsame, by decide, _, _, _, rfl, rfl, ?_⟩
  -- The tags are equal, and so the bodies are.
  exact hsame.2 firstPage _ _ _ _ rfl rfl (decide_eq_true (List.mem_singleton.mpr rfl))

/-- No boards. -/
def nothing : State Unit Unit := .start Unit [] List.nodup_nil

/-- A board is published. -/
def opened : List (Op Unit Unit) := [.create 1 (draft jobs (codes "One")), .patch 1 (publish 1 none true)]

/-- It gives its slug up, and another is published under it at the same revision. -/
def moved : List (Op Unit Unit) :=
  [.patch 1 (publish 2 (some past) false), .create 2 (draft jobs (codes "Two")), .patch 2 (publish 1 none true)]

/-- The tags of the index and of the list are those of before, and the names are others. -/
theorem moved_slug_hides : ∃ s s' : State Unit Unit, Run (step allow) Always nothing s ∧
    Run (step allow) Always s s' ∧
    indexTag plain s = indexTag plain s' ∧ indexBody plain s ≠ indexBody plain s' ∧
    (∃ tag body body', respond plain s firstPage = .ok (tag, body) ∧ respond plain s' firstPage = .ok (tag, body') ∧
      body.name ≠ body'.name) ∧ ¬ TagsTell plain s s' := by
  have hrun : runList (step allow) nothing opened = some (after nothing opened) := rfl
  have hrun' : runList (step allow) (after nothing opened) moved = some (after (after nothing opened) moved) := rfl
  have htag : indexTag plain (after nothing opened) = indexTag plain (after (after nothing opened) moved) := by
    decide
  have hbody : indexBody plain (after nothing opened) ≠ indexBody plain (after (after nothing opened) moved) := by
    decide
  refine ⟨_, _, run_of_runList hrun, run_of_runList hrun', htag, hbody, ⟨_, _, _, rfl, rfl, ?_⟩,
    fun h => hbody (h.1 ?_)⟩
  · decide
  · exact decide_eq_true (List.mem_singleton.mpr htag.symm)

end JobScripts.Board.Revalidation
