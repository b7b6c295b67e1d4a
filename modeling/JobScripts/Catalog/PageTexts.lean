import Mathlib.Data.List.Sort
import Mathlib.Data.List.Dedup
import Mathlib.Logic.Equiv.List
import JobScripts.Catalog.Listings

/-!
# The text of a page fetch

`core/page_fetches.py` and `tasks/page_text_tiering.py`. The text of a fetch is held inline, or by reference to
a member of a bundle object, with its length beside. `move` swaps inline texts that a rule selects for
references, `pull_back` swaps references that the rule no longer selects for texts; each reads its rows, then
talks to object storage, then writes the rows, under a guard on the shape of the row alone.

Any number of executions overlap, each statement and each exchange with object storage a step; an `UPDATE`
takes its rows one by one, in any order. The rule is an argument of the reads, so that it may change from one
to the next; so may whether object storage answers. What it has stored it keeps. `recorded` is the text that
each fetch was recorded with, which no column holds once the text has moved.
-/

namespace JobScripts.Catalog.PageTexts

open Lib Listings

/-! ## Texts in object storage -/

/-- A JSON value, as far as the code tells them apart. -/
inductive Value
  | text (s : String)
  | other (n : ℕ)
  deriving DecidableEq

/-- What the code uses of the encoding of values: the SHA-256 of `encode_payload` and its length, and the
SHA-256 and the length of a bundle. -/
structure Coding (D : Type) where
  digest : Value → D
  size : Value → ℕ
  link : List (D × Value) → Link D

/-- No two values have one digest, and bundles with one digest and length have the same members. -/
structure Coding.CollisionFree {D : Type} [DecidableEq D] (cd : Coding D) : Prop where
  digest : Function.Injective cd.digest
  link : ∀ a b, cd.link a = cd.link b → ∀ d, a.lookup d = b.lookup d

variable {D : Type} [DecidableEq D]

/-- What object storage serves of the bundles that it has. -/
def serve (cd : Coding D) (objects : List (List (D × Value))) : Store Value D := fun object size member =>
  (objects.find? fun bundle => cd.link bundle = (object, size)).bind fun bundle => bundle.lookup member

/-! ## Rows -/

/-- A row of `page_fetches`: its id and the columns of its text. -/
structure Fetch (D : Type) where
  id : ℕ
  content : Option String
  content_sha256 : Option D
  content_object : Option D
  content_object_size : Option ℕ
  content_chars : Option ℕ

/-- The row holds a text inline. -/
def Fetch.inlineText (f : Fetch D) : Bool := f.content.any (· ≠ "")

/-- The condition of the view `page_texts`. -/
def Fetch.hasText (f : Fetch D) : Bool := f.inlineText || f.content_object.isSome

/-- `page_texts.chars`: the length of the text of a fetch, where it has text. -/
def Fetch.chars (f : Fetch D) : Option ℕ :=
  if f.hasText then f.content_chars.or (f.content.map String.length) else none

/-- `page_texts.content_ref`: the object, its size and the member. -/
def Fetch.ref (f : Fetch D) : Option (D × Option ℕ × Option D) :=
  f.content_object.map fun object => (object, f.content_object_size, f.content_sha256)

/-- `resolve` on one row: the text, or `none` for `PayloadUnavailable`. -/
def resolve (cd : Coding D) (store : Store Value D) (content : Option String) :
    Option (D × Option ℕ × Option D) → Option (Option String)
  | none => some content
  | some (object, some size, some member) =>
    match getDigestMember cd.digest store object size member with
    | some (.text t) => some (some t)
    | _ => none
  | some _ => none

/-- `text_of`, from the row that its query finds. -/
def textOf (cd : Coding D) (store : Store Value D) (row : Option (Fetch D)) : Option (Option String) :=
  match row with
  | some f => if f.hasText then resolve cd store f.content f.ref else some none
  | none => some none

/-- The row is in the inline shape: no reference column is set. -/
def Fetch.Inline (f : Fetch D) : Prop :=
  f.content_object = none ∧ f.content_sha256 = none ∧ f.content_object_size = none ∧ f.content_chars = none

/-- The row is in the reference shape: the text is not there, and all reference columns are set. -/
def Fetch.Referenced (f : Fetch D) : Prop :=
  f.content = none ∧ f.content_object.isSome ∧ f.content_sha256.isSome ∧ f.content_object_size.isSome ∧
    f.content_chars.isSome

/-! ## Executions -/

/-- A row of `move`'s `unnest`. -/
structure Moved (D : Type) where
  id : ℕ
  member : D
  object : D
  size : ℕ
  chars : ℕ
  deriving DecidableEq

/-- An execution of `move` or `pull_back` between two statements. -/
inductive Job (D : Type)
  /-- `move` has read its rows. -/
  | moving (rows : List (ℕ × String))
  /-- `move` has uploaded them, and these are still to be written. -/
  | clearing (rows : List (Moved D))
  /-- `pull_back` has read its rows. -/
  | pulling (rows : List (ℕ × Option String × Option (D × Option ℕ × Option D)))
  /-- `pull_back` has their texts, and these are still to be written. -/
  | restoring (rows : List (ℕ × Option String))

/-- The table, object storage, the executions, and what each fetch was recorded with. -/
structure State (D : Type) where
  fetches : List (Fetch D)
  objects : List (List (D × Value))
  jobs : ℕ → Option (Job D)
  recorded : ℕ → Option (Option String)

/-- Nothing is stored. -/
def State.empty : State D := ⟨[], [], fun _ => none, fun _ => none⟩

/-- The row with an id. -/
def State.fetch (s : State D) (id : ℕ) : Option (Fetch D) := s.fetches.find? fun f => f.id = id

/-- The lengths that `page_texts` reports. -/
def State.chars (s : State D) (id : ℕ) : Option ℕ := (s.fetch id).bind Fetch.chars

/-- Rows in the order of their ids, up to a limit. -/
def firstRows (limit : ℕ) (rows : List (Fetch D)) : List (Fetch D) :=
  (rows.insertionSort fun f g => f.id ≤ g.id).take limit

/-- The rows that `move` reads. -/
def State.toMove (s : State D) (cold : ℕ → Bool) (limit : ℕ) : List (Fetch D) :=
  firstRows limit (s.fetches.filter fun f => f.inlineText && cold f.id)

/-- The rows that `pull_back` reads. -/
def State.toPull (s : State D) (cold : ℕ → Bool) (limit : ℕ) : List (Fetch D) :=
  firstRows limit (s.fetches.filter fun f => f.hasText && f.content_object.isSome && !cold f.id)

/-- The values that `move` uploads, by digest. -/
def Coding.values (cd : Coding D) (rows : List (ℕ × String)) : List (D × Value) :=
  (rows.map fun r => (cd.digest (.text r.2), Value.text r.2)).dedup

/-- The rows of `move`'s `unnest`, from the bundles of the values. -/
def Coding.unnest (cd : Coding D) (links : List (D × Link D)) (rows : List (ℕ × String)) :
    Option (List (Moved D)) :=
  rows.mapM fun r => (links.lookup (cd.digest (.text r.2))).map fun link =>
    ⟨r.1, cd.digest (.text r.2), link.1, link.2, r.2.length⟩

/-- One row of `move`'s `UPDATE`. -/
def Moved.clear (m : Moved D) (f : Fetch D) : Fetch D :=
  if f.id = m.id ∧ f.content.isSome then
    ⟨f.id, none, some m.member, some m.object, some m.size, some m.chars⟩
  else f

/-- One row of `pull_back`'s `UPDATE`. -/
def restore (r : ℕ × Option String) (f : Fetch D) : Fetch D :=
  if f.id = r.1 ∧ f.content_object.isSome then ⟨f.id, r.2, none, none, none, none⟩ else f

/-! ## Steps -/

/-- What can happen next. -/
inductive Act (D : Type)
  /-- `record`: a fetch is recorded, with its text if it has one. -/
  | record (id : ℕ) (content : Option String)
  /-- `move` reads its rows, under the rule as it is. -/
  | move (k limit : ℕ) (cold : ℕ → Bool)
  /-- It uploads them, if object storage answers. -/
  | upload (k : ℕ) (up : Bool)
  /-- It writes one of them. -/
  | clear (k : ℕ) (row : Moved D)
  /-- `pull_back` reads its rows, under the rule as it is. -/
  | pull (k limit : ℕ) (cold : ℕ → Bool)
  /-- It reads their texts, if object storage answers. -/
  | resolve (k : ℕ) (up : Bool)
  /-- It writes one of them. -/
  | restore (k : ℕ) (row : ℕ × Option String)
  /-- It has written all of them. -/
  | finish (k : ℕ)
  /-- It dies. -/
  | stop (k : ℕ)

/-- An execution goes on, or ends. -/
def State.turn (s : State D) (k : ℕ) (job : Option (Job D)) : State D :=
  { s with jobs := Function.update s.jobs k job }

/-- One step. -/
def step (cd : Coding D) (s : State D) : Act D → Option (State D)
  | .record id content =>
    if s.recorded id = none then
      some { s with
        fetches := s.fetches ++ [⟨id, content, none, none, none, none⟩]
        recorded := Function.update s.recorded id (some content) }
    else none
  | .move k limit cold =>
    match s.jobs k with
    | none =>
      match s.toMove cold limit with
      | [] => some s
      | rows => some (s.turn k (some (.moving (rows.map fun f => (f.id, f.content.getD "")))))
    | some _ => none
  | .upload k up =>
    match s.jobs k with
    | some (.moving rows) =>
      if up then
        let groups := bundleGroups (fun item => cd.size item.2) (cd.values rows)
        -- Each bundle is stored and read back before a row is written.
        match (putValues cd.size (fun group => some (cd.link group)) (cd.values rows)).bind
            fun links => cd.unnest links rows with
        | some moved => some ({ s with objects := s.objects ++ groups }.turn k (some (.clearing moved)))
        | none => some (s.turn k none)
      else some (s.turn k none)
    | _ => none
  | .clear k row =>
    match s.jobs k with
    | some (.clearing rows) =>
      if row ∈ rows then
        some ({ s with fetches := s.fetches.map row.clear }.turn k (some (.clearing (rows.erase row))))
      else none
    | _ => none
  | .pull k limit cold =>
    match s.jobs k with
    | none =>
      match s.toPull cold limit with
      | [] => some s
      | rows => some (s.turn k (some (.pulling (rows.map fun f => (f.id, f.content, f.ref)))))
    | some _ => none
  | .resolve k up =>
    match s.jobs k with
    | some (.pulling rows) =>
      if up then
        match rows.mapM fun r => (resolve cd (serve cd s.objects) r.2.1 r.2.2).map fun text => (r.1, text) with
        | some texts => some (s.turn k (some (.restoring texts)))
        | none => some (s.turn k none)
      else some (s.turn k none)
    | _ => none
  | .restore k row =>
    match s.jobs k with
    | some (.restoring rows) =>
      if row ∈ rows then
        some ({ s with fetches := s.fetches.map (PageTexts.restore row) }.turn k
          (some (.restoring (rows.erase row))))
      else none
    | _ => none
  | .finish k =>
    match s.jobs k with
    | some (.clearing []) | some (.restoring []) => some (s.turn k none)
    | _ => none
  | .stop k => some (s.turn k none)

/-! ## Object storage -/

section Objects

variable {cd : Coding D} {objects : List (List (D × Value))}

/-- Object storage serves the text under its own digest. -/
def Served (cd : Coding D) (objects : List (List (D × Value))) (object : D) (size : ℕ) (text : String) : Prop :=
  serve cd objects object size (cd.digest (.text text)) = some (.text text)

/-- What is served stays so when bundles are added. -/
theorem Served.append {object : D} {size : ℕ} {text : String} (h : Served cd objects object size text)
    (more : List (List (D × Value))) : Served cd (objects ++ more) object size text := by
  unfold Served serve at h ⊢
  rw [List.find?_append]
  obtain ⟨bundle, hfind, hmember⟩ := Option.bind_eq_some_iff.mp h
  rw [hfind]
  exact hmember

/-- A bundle that is stored is served, whichever one with its digest and length is found. -/
theorem served_of_mem (hcd : cd.CollisionFree) {bundle : List (D × Value)} {text : String}
    (hmem : bundle ∈ objects) (hlookup : bundle.lookup (cd.digest (.text text)) = some (.text text)) :
    Served cd objects (cd.link bundle).1 (cd.link bundle).2 text := by
  unfold Served serve
  have hsome : (objects.find? fun b => decide (cd.link b = ((cd.link bundle).1, (cd.link bundle).2))).isSome := by
    rw [List.find?_isSome]
    exact ⟨bundle, hmem, decide_eq_true rfl⟩
  obtain ⟨found, hfound⟩ := Option.isSome_iff_exists.mp hsome
  have hfits := List.find?_some hfound
  have hsame : cd.link found = cd.link bundle := of_decide_eq_true hfits
  rw [hfound]
  exact (hcd.link found bundle hsame _).trans hlookup

/-- What is served is what a reader of the reference gets. -/
theorem Served.resolve {object : D} {size : ℕ} {text : String} (h : Served cd objects object size text)
    (content : Option String) :
    PageTexts.resolve cd (serve cd objects) content
      (some (object, some size, some (cd.digest (.text text)))) = some (some text) := by
  have hget : getDigestMember cd.digest (serve cd objects) object size (cd.digest (.text text)) =
      some (.text text) := by
    unfold getDigestMember
    rw [h, Option.filter_some, if_pos (beq_self_eq_true _)]
  simp only [PageTexts.resolve, hget]

omit [DecidableEq D] in
/-- The bundles of `put_values` where object storage answers. -/
theorem putValues_some (cd : Coding D) (values : List (D × Value)) :
    putValues cd.size (fun group => some (cd.link group)) values =
      some ((bundleGroups (fun item => cd.size item.2) values).flatMap fun group =>
        group.map fun item => (item.1, cd.link group)) := by
  unfold putValues
  induction bundleGroups (fun item => cd.size item.2) values with
  | nil => rfl
  | cons group rest ih =>
    rw [List.foldr_cons, ih]
    rfl

/-- A value that is found under a key is there. -/
theorem mem_of_lookup {K V : Type} [DecidableEq K] {k : K} {v : V} :
    ∀ {l : List (K × V)}, l.lookup k = some v → (k, v) ∈ l
  | (k', v') :: rest, h => by
    rw [List.lookup_cons] at h
    split at h
    · next hk =>
      rw [beq_iff_eq.mp hk, Option.some.inj h]
      exact List.mem_cons_self
    · exact List.mem_cons_of_mem _ (mem_of_lookup h)

/-- A key that is there is found. -/
theorem lookup_isSome_of_mem {K V : Type} [DecidableEq K] {k : K} {v : V} :
    ∀ {l : List (K × V)}, (k, v) ∈ l → ∃ w, l.lookup k = some w
  | (k', v') :: rest, h => by
    rw [List.lookup_cons]
    split
    · exact ⟨v', rfl⟩
    · next hk =>
      rcases List.mem_cons.mp h with he | h
      · rw [(Prod.mk.inj he).1, beq_self_eq_true] at hk
        contradiction
      · exact lookup_isSome_of_mem h

/-- The results of a loop that went through, each from its row. -/
theorem mem_of_mapM {A B : Type} {f : A → Option B} :
    ∀ {rows : List A} {ys : List B}, rows.mapM f = some ys → ∀ y ∈ ys, ∃ r ∈ rows, f r = some y
  | [], ys, h, y, hy => by
    obtain rfl := Option.some.inj h
    exact absurd hy List.not_mem_nil
  | r :: rest, ys, h, y, hy => by
    rw [List.mapM_cons, Option.bind_eq_bind, Option.bind_eq_some_iff] at h
    obtain ⟨z, hz, h⟩ := h
    rw [Option.bind_eq_bind, Option.bind_eq_some_iff] at h
    obtain ⟨zs, hzs, h⟩ := h
    obtain rfl := Option.some.inj h
    rcases List.mem_cons.mp hy with rfl | hy
    · exact ⟨r, List.mem_cons_self, hz⟩
    · obtain ⟨r', hr', hf⟩ := mem_of_mapM hzs y hy
      exact ⟨r', List.mem_cons_of_mem _ hr', hf⟩

/-- A loop whose every row goes through does, with a result for each. -/
theorem mapM_of_forall {A B : Type} {f : A → Option B} :
    ∀ {rows : List A}, (∀ r ∈ rows, ∃ y, f r = some y) →
      ∃ ys, rows.mapM f = some ys ∧ ∀ r ∈ rows, ∃ y ∈ ys, f r = some y
  | [], _ => ⟨[], rfl, fun r hr => absurd hr List.not_mem_nil⟩
  | r :: rest, h => by
    obtain ⟨y, hy⟩ := h r List.mem_cons_self
    obtain ⟨ys, hys, hall⟩ := mapM_of_forall fun r' hr' => h r' (List.mem_cons_of_mem _ hr')
    refine ⟨y :: ys, ?_, fun r' hr' => ?_⟩
    · rw [List.mapM_cons, hy, hys]
      rfl
    · rcases List.mem_cons.mp hr' with rfl | hr'
      · exact ⟨y, List.mem_cons_self, hy⟩
      · obtain ⟨z, hz, hf⟩ := hall r' hr'
        exact ⟨z, List.mem_cons_of_mem _ hz, hf⟩

/-- An upload where object storage answers: every row gets the reference of its text, which is served. -/
theorem upload_spec (hcd : cd.CollisionFree) (objects : List (List (D × Value))) (rows : List (ℕ × String)) :
    ∃ moved, (putValues cd.size (fun group => some (cd.link group)) (cd.values rows)).bind
        (fun links => cd.unnest links rows) = some moved ∧
      (∀ r ∈ rows, ∃ m ∈ moved, m.id = r.1) ∧
      ∀ m ∈ moved, ∃ r ∈ rows, m.id = r.1 ∧ m.member = cd.digest (.text r.2) ∧ m.chars = r.2.length ∧
        Served cd (objects ++ bundleGroups (fun item => cd.size item.2) (cd.values rows)) m.object m.size r.2 := by
  set groups := bundleGroups (fun item => cd.size item.2) (cd.values rows) with hgroups
  set links := groups.flatMap fun group => group.map fun item => (item.1, cd.link group) with hlinks
  have hflat : groups.flatten = cd.values rows := flatten_bundleGroups _ _
  -- The link that is found for a text is that of a bundle that holds it.
  have hserved : ∀ r ∈ rows, ∀ link, links.lookup (cd.digest (.text r.2)) = some link →
      Served cd (objects ++ groups) link.1 link.2 r.2 := by
    intro r hr link hlink
    obtain ⟨group, hgroup, hitem⟩ := List.mem_flatMap.mp (mem_of_lookup hlink)
    obtain ⟨item, hitem, he⟩ := List.mem_map.mp hitem
    rw [Prod.mk.injEq] at he
    rw [← he.2]
    refine served_of_mem hcd (List.mem_append_right _ hgroup) ?_
    obtain ⟨v, hv⟩ := lookup_isSome_of_mem (k := cd.digest (.text r.2)) (v := item.2) (l := group)
      (by rw [← he.1]; exact hitem)
    have hin : (cd.digest (.text r.2), v) ∈ cd.values rows := by
      rw [← hflat]
      exact List.mem_flatten.mpr ⟨group, hgroup, mem_of_lookup hv⟩
    obtain ⟨r', -, hr'⟩ := List.mem_map.mp (List.mem_dedup.mp hin)
    rw [Prod.mk.injEq] at hr'
    rw [hv, ← hr'.2, hcd.digest hr'.1]
  have hfound : ∀ r ∈ rows, ∃ m, (links.lookup (cd.digest (.text r.2))).map (fun link =>
      (⟨r.1, cd.digest (.text r.2), link.1, link.2, r.2.length⟩ : Moved D)) = some m := by
    intro r hr
    have hin : (cd.digest (.text r.2), Value.text r.2) ∈ groups.flatten := by
      rw [hflat]
      exact List.mem_dedup.mpr (List.mem_map_of_mem (f := fun r => (cd.digest (.text r.2), Value.text r.2)) hr)
    obtain ⟨group, hgroup, hitem⟩ := List.mem_flatten.mp hin
    have hpair : (cd.digest (.text r.2), cd.link group) ∈ links := List.mem_flatMap.mpr
      ⟨group, hgroup, List.mem_map_of_mem (f := fun item : D × Value => (item.1, cd.link group)) hitem⟩
    obtain ⟨link, hlink⟩ := lookup_isSome_of_mem hpair
    exact ⟨_, by rw [hlink]; rfl⟩
  obtain ⟨moved, hmoved, hall⟩ := mapM_of_forall hfound
  refine ⟨moved, ?_, fun r hr => ?_, fun m hm => ?_⟩
  · rw [putValues_some]
    exact hmoved
  · obtain ⟨m, hm, hf⟩ := hall r hr
    obtain ⟨link, -, rfl⟩ := Option.map_eq_some_iff.mp hf
    exact ⟨_, hm, rfl⟩
  · obtain ⟨r, hr, hf⟩ := mem_of_mapM hmoved m hm
    obtain ⟨link, hlink, rfl⟩ := Option.map_eq_some_iff.mp hf
    exact ⟨r, hr, rfl, rfl, rfl, hserved r hr link hlink⟩

end Objects

/-! ## The invariant -/

/-- The row stands for what was recorded: it is there, with no reference, or a text that is not empty is served
under the reference, with its length beside. -/
def Stands (cd : Coding D) (objects : List (List (D × Value))) (f : Fetch D) (recorded : Option String) : Prop :=
  f = ⟨f.id, recorded, none, none, none, none⟩ ∨
    ∃ t o n, recorded = some t ∧ t ≠ "" ∧
      f = ⟨f.id, none, some (cd.digest (.text t)), some o, some n, some t.length⟩ ∧ Served cd objects o n t

/-- What an execution holds is what was recorded. -/
def Job.Fits (cd : Coding D) (objects : List (List (D × Value))) (recorded : ℕ → Option (Option String)) :
    Job D → Prop
  | .moving rows => ∀ r ∈ rows, recorded r.1 = some (some r.2) ∧ r.2 ≠ ""
  | .clearing rows => ∀ m ∈ rows, ∃ t, recorded m.id = some (some t) ∧ t ≠ "" ∧
      m.member = cd.digest (.text t) ∧ m.chars = t.length ∧ Served cd objects m.object m.size t
  | .pulling rows => ∀ r ∈ rows, ∃ t o n, recorded r.1 = some (some t) ∧ t ≠ "" ∧
      r.2 = (none, some (o, some n, some (cd.digest (.text t)))) ∧ Served cd objects o n t
  | .restoring rows => ∀ r ∈ rows, ∃ t, recorded r.1 = some (some t) ∧ t ≠ "" ∧ r.2 = some t

/-- The invariant. -/
structure State.Inv (cd : Coding D) (s : State D) : Prop where
  rows : ∀ f ∈ s.fetches, ∃ r, s.recorded f.id = some r ∧ Stands cd s.objects f r
  ids : (s.fetches.map Fetch.id).Nodup
  known : ∀ id r, s.recorded id = some r → ∃ f ∈ s.fetches, f.id = id
  jobs : ∀ k job, s.jobs k = some job → job.Fits cd s.objects s.recorded

section Invariant

variable {cd : Coding D} {s s' : State D}

/-- A row that stands for its text does so when bundles are added. -/
theorem Stands.append {objects : List (List (D × Value))} {f : Fetch D} {r : Option String}
    (h : Stands cd objects f r) (more : List (List (D × Value))) : Stands cd (objects ++ more) f r := by
  rcases h with hinline | ⟨t, o, n, hr, hne, hf, hserved⟩
  · exact .inl hinline
  · exact .inr ⟨t, o, n, hr, hne, hf, hserved.append more⟩

/-- What an execution holds is so when bundles are added. -/
theorem Job.Fits.append {objects : List (List (D × Value))} {recorded : ℕ → Option (Option String)} {job : Job D}
    (h : job.Fits cd objects recorded) (more : List (List (D × Value))) :
    job.Fits cd (objects ++ more) recorded := by
  cases job with
  | moving rows => exact h
  | clearing rows =>
    intro m hm
    obtain ⟨t, hrec, hne, hmember, hchars, hserved⟩ := h m hm
    exact ⟨t, hrec, hne, hmember, hchars, hserved.append more⟩
  | pulling rows =>
    intro r hr
    obtain ⟨t, o, n, hrec, hne, hread, hserved⟩ := h r hr
    exact ⟨t, o, n, hrec, hne, hread, hserved.append more⟩
  | restoring rows => exact h

/-- What an execution holds is so when a fetch is recorded. -/
theorem Job.Fits.record {objects : List (List (D × Value))} {recorded : ℕ → Option (Option String)} {job : Job D}
    (h : job.Fits cd objects recorded) {id : ℕ} (hnew : recorded id = none) (content : Option String) :
    job.Fits cd objects (Function.update recorded id (some content)) := by
  have hkeep : ∀ i t, recorded i = some (some t) →
      Function.update recorded id (some content) i = some (some t) := by
    intro i t hi
    have hne : i ≠ id := by
      rintro rfl
      rw [hnew] at hi
      contradiction
    rw [Function.update_of_ne hne]
    exact hi
  cases job with
  | moving rows => exact fun r hr => ⟨hkeep _ _ (h r hr).1, (h r hr).2⟩
  | clearing rows =>
    intro m hm
    obtain ⟨t, hrec, hrest⟩ := h m hm
    exact ⟨t, hkeep _ _ hrec, hrest⟩
  | pulling rows =>
    intro r hr
    obtain ⟨t, o, n, hrec, hrest⟩ := h r hr
    exact ⟨t, o, n, hkeep _ _ hrec, hrest⟩
  | restoring rows =>
    intro r hr
    obtain ⟨t, hrec, hrest⟩ := h r hr
    exact ⟨t, hkeep _ _ hrec, hrest⟩

/-- An execution goes on with something that it may hold, or ends. -/
theorem State.Inv.turn (h : s.Inv cd) {k : ℕ} {job : Option (Job D)}
    (hjob : ∀ j, job = some j → j.Fits cd s.objects s.recorded) : (s.turn k job).Inv cd := by
  refine ⟨h.rows, h.ids, h.known, fun i j hij => ?_⟩
  unfold State.turn at hij
  dsimp only at hij
  by_cases hi : i = k
  · rw [hi, Function.update_self] at hij
    exact hjob j hij
  · rw [Function.update_of_ne hi] at hij
    exact h.jobs i j hij

/-- An execution ends. -/
theorem State.Inv.over (h : s.Inv cd) (k : ℕ) : (s.turn k none).Inv cd := by
  refine h.turn fun j hj => ?_
  contradiction

/-- Rows are rewritten in place, each standing for what it stood for. -/
theorem State.Inv.rewrite (h : s.Inv cd) {g : Fetch D → Fetch D} (hid : ∀ f, (g f).id = f.id)
    (hg : ∀ f ∈ s.fetches, ∀ r, s.recorded f.id = some r → Stands cd s.objects f r →
      Stands cd s.objects (g f) r) : ({ s with fetches := s.fetches.map g } : State D).Inv cd := by
  refine ⟨fun f hf => ?_, ?_, fun id r hr => ?_, h.jobs⟩
  · obtain ⟨f', hf', rfl⟩ := List.mem_map.mp hf
    obtain ⟨r, hr, hstands⟩ := h.rows f' hf'
    refine ⟨r, ?_, hg f' hf' r hr hstands⟩
    rw [hid]
    exact hr
  · have hsame : (s.fetches.map g).map Fetch.id = s.fetches.map Fetch.id := by
      rw [List.map_map]
      exact List.map_congr_left fun f _ => hid f
    dsimp only
    rw [hsame]
    exact h.ids
  · obtain ⟨f, hf, rfl⟩ := h.known id r hr
    exact ⟨g f, List.mem_map_of_mem hf, hid f⟩

omit [DecidableEq D] in
/-- A row of `move`'s `UPDATE` keeps its id. -/
theorem clear_id (m : Moved D) (f : Fetch D) : (m.clear f).id = f.id := by
  unfold Moved.clear
  split
  · rfl
  · rfl

omit [DecidableEq D] in
/-- A row of `pull_back`'s `UPDATE` keeps its id. -/
theorem restore_id (r : ℕ × Option String) (f : Fetch D) : (restore r f).id = f.id := by
  unfold restore
  split
  · rfl
  · rfl

/-- A row that holds a text inline holds the one that was recorded. -/
theorem Stands.text_of_inline {objects : List (List (D × Value))} {f : Fetch D} {r : Option String}
    (h : Stands cd objects f r) (hinline : f.inlineText = true) :
    ∃ t, r = some t ∧ t ≠ "" ∧ f.content = some t := by
  rcases h with hf | ⟨t, o, n, -, -, hf, -⟩
  · have hcontent : f.content = r := by rw [hf]
    unfold Fetch.inlineText at hinline
    rw [Option.any_eq_true] at hinline
    obtain ⟨t, ht, hne⟩ := hinline
    exact ⟨t, hcontent.symm.trans ht, of_decide_eq_true hne, ht⟩
  · rw [hf] at hinline
    contradiction

/-- A row with a reference has that of the text that was recorded. -/
theorem Stands.text_of_object {objects : List (List (D × Value))} {f : Fetch D} {r : Option String}
    (h : Stands cd objects f r) (hobject : f.content_object.isSome = true) :
    ∃ t o n, r = some t ∧ t ≠ "" ∧ f.content = none ∧ f.ref = some (o, some n, some (cd.digest (.text t))) ∧
      Served cd objects o n t := by
  rcases h with hf | ⟨t, o, n, hr, hne, hf, hserved⟩
  · rw [hf] at hobject
    contradiction
  · refine ⟨t, o, n, hr, hne, ?_, ?_, hserved⟩
    · rw [hf]
    · rw [hf]
      rfl

omit [DecidableEq D] in
/-- The rows of a read are rows of the table. -/
theorem mem_firstRows {limit : ℕ} {rows : List (Fetch D)} {f : Fetch D} (h : f ∈ firstRows limit rows) :
    f ∈ rows :=
  (List.mem_insertionSort _).mp (List.mem_of_mem_take h)

/-- Every step keeps the invariant. -/
theorem State.Inv.step (hcd : cd.CollisionFree) (h : s.Inv cd) {a : Act D}
    (hs : PageTexts.step cd s a = some s') : s'.Inv cd := by
  cases a with
  -- A fetch is recorded under an id that is new.
  | record id content =>
    simp only [PageTexts.step] at hs
    rw [Option.ite_none_right_eq_some] at hs
    obtain ⟨hnew, hs⟩ := hs
    obtain rfl := Option.some.inj hs
    have hother : ∀ f ∈ s.fetches, f.id ≠ id := by
      rintro f hf rfl
      obtain ⟨r, hr, -⟩ := h.rows f hf
      rw [hnew] at hr
      contradiction
    -- The rows, their ids, the records and the runs.
    refine ⟨fun f hf => ?_, ?_, fun i r hi => ?_, fun k job hk => (h.jobs k job hk).record hnew content⟩
    · rcases List.mem_append.mp hf with hf | hf
      · dsimp only
        rw [Function.update_of_ne (hother f hf)]
        exact h.rows f hf
      · obtain rfl := List.mem_singleton.mp hf
        exact ⟨content, Function.update_self .., .inl rfl⟩
    · dsimp only
      rw [List.map_append, List.nodup_append]
      refine ⟨h.ids, List.nodup_singleton _, fun i hi j hj => ?_⟩
      obtain ⟨f, hf, rfl⟩ := List.mem_map.mp hi
      obtain rfl := List.mem_singleton.mp hj
      exact hother f hf
    · dsimp only at hi
      by_cases he : i = id
      · subst he
        exact ⟨_, List.mem_append_right _ (List.mem_singleton_self _), rfl⟩
      · rw [Function.update_of_ne he] at hi
        obtain ⟨f, hf, hid⟩ := h.known i r hi
        exact ⟨f, List.mem_append_left _ hf, hid⟩
  -- A run that moves texts out: it reads its rows, uploads them, and clears their columns.
  | move k limit cold =>
    simp only [PageTexts.step] at hs
    split at hs
    · split at hs
      · obtain rfl := Option.some.inj hs
        exact h
      · obtain rfl := Option.some.inj hs
        refine h.turn fun j hj => ?_
        obtain rfl := Option.some.inj hj
        intro r hr
        obtain ⟨f, hf, rfl⟩ := List.mem_map.mp hr
        obtain ⟨hmem, hcond⟩ := List.mem_filter.mp (mem_firstRows hf)
        rw [Bool.and_eq_true] at hcond
        obtain ⟨r, hrec, hstands⟩ := h.rows f hmem
        -- Only rows with the text in their column are taken.
        obtain ⟨t, rfl, hne, hcontent⟩ := hstands.text_of_inline hcond.1
        dsimp only
        rw [hcontent]
        exact ⟨hrec, hne⟩
    · contradiction
  | upload k up =>
    simp only [PageTexts.step] at hs
    split at hs
    · next rows hk =>
      have hfits := h.jobs k _ hk
      obtain ⟨moved, hmoved, -, hspec⟩ := upload_spec hcd s.objects rows
      rw [hmoved] at hs
      split at hs
      · obtain rfl := Option.some.inj hs
        -- The objects are there before any row points at them.
        set groups := bundleGroups (fun item => cd.size item.2) (cd.values rows) with hgroups
        have hmore : ({ s with objects := s.objects ++ groups } : State D).Inv cd := by
          refine ⟨fun f hf => ?_, h.ids, h.known, fun i job hi => (h.jobs i job hi).append groups⟩
          obtain ⟨r, hr, hstands⟩ := h.rows f hf
          exact ⟨r, hr, hstands.append groups⟩
        refine hmore.turn fun j hj => ?_
        obtain rfl := Option.some.inj hj
        intro m hm
        obtain ⟨r, hr, hid, hmember, hchars, hserved⟩ := hspec m hm
        obtain ⟨hrec, hne⟩ := hfits r hr
        rw [hid]
        exact ⟨r.2, hrec, hne, hmember, hchars, hserved⟩
      · obtain rfl := Option.some.inj hs
        exact h.over k
    · contradiction
  | clear k row =>
    simp only [PageTexts.step] at hs
    split at hs
    · next rows hk =>
      rw [Option.ite_none_right_eq_some] at hs
      obtain ⟨hrow, hs⟩ := hs
      obtain rfl := Option.some.inj hs
      have hfits := h.jobs k _ hk
      refine (h.rewrite (clear_id row) fun f hf r hr hstands => ?_).turn fun j hj => ?_
      · unfold Moved.clear
        split
        · next hmine =>
          -- The row is cleared only if it still is as it was read; what the run uploaded for it is
          -- its text.
          obtain ⟨t, hrec, hne, hmember, hchars, hserved⟩ := hfits row hrow
          rw [hmine.1, hrec] at hr
          rw [hmember, hchars]
          exact .inr ⟨t, row.object, row.size, (Option.some.inj hr).symm, hne, rfl, hserved⟩
        · exact hstands
      · obtain rfl := Option.some.inj hj
        exact fun m hm => hfits m (List.mem_of_mem_erase hm)
    · contradiction
  -- A run that moves texts back: it reads its rows, resolves their objects, and writes their
  -- columns.
  | pull k limit cold =>
    simp only [PageTexts.step] at hs
    split at hs
    · split at hs
      · obtain rfl := Option.some.inj hs
        exact h
      · obtain rfl := Option.some.inj hs
        refine h.turn fun j hj => ?_
        obtain rfl := Option.some.inj hj
        intro r hr
        obtain ⟨f, hf, rfl⟩ := List.mem_map.mp hr
        obtain ⟨hmem, hcond⟩ := List.mem_filter.mp (mem_firstRows hf)
        rw [Bool.and_eq_true, Bool.and_eq_true] at hcond
        obtain ⟨r, hrec, hstands⟩ := h.rows f hmem
        -- Only rows with an object are taken.
        obtain ⟨t, o, n, rfl, hne, hcontent, href, hserved⟩ := hstands.text_of_object hcond.1.2
        refine ⟨t, o, n, hrec, hne, ?_, hserved⟩
        rw [hcontent, href]
    · contradiction
  | resolve k up =>
    simp only [PageTexts.step] at hs
    split at hs
    · next rows hk =>
      have hfits := h.jobs k _ hk
      split at hs
      · split at hs
        · next texts htexts =>
          obtain rfl := Option.some.inj hs
          refine h.turn fun j hj => ?_
          obtain rfl := Option.some.inj hj
          intro r hr
          obtain ⟨row, hrow, hread⟩ := mem_of_mapM htexts r hr
          obtain ⟨t, o, n, hrec, hne, hval, hserved⟩ := hfits row hrow
          -- What an object serves is the text of its row.
          rw [hval, hserved.resolve] at hread
          obtain rfl := Option.some.inj hread
          exact ⟨t, hrec, hne, rfl⟩
        · obtain rfl := Option.some.inj hs
          exact h.over k
      · obtain rfl := Option.some.inj hs
        exact h.over k
    · contradiction
  | restore k row =>
    simp only [PageTexts.step] at hs
    split at hs
    · next rows hk =>
      rw [Option.ite_none_right_eq_some] at hs
      obtain ⟨hrow, hs⟩ := hs
      obtain rfl := Option.some.inj hs
      have hfits := h.jobs k _ hk
      refine (h.rewrite (restore_id row) fun f hf r hr hstands => ?_).turn fun j hj => ?_
      · unfold PageTexts.restore
        split
        · next hmine =>
          obtain ⟨t, hrec, hne, htext⟩ := hfits row hrow
          rw [hmine.1, hrec] at hr
          rw [htext, Option.some.inj hr]
          exact .inl rfl
        · exact hstands
      · obtain rfl := Option.some.inj hj
        exact fun m hm => hfits m (List.mem_of_mem_erase hm)
    · contradiction
  -- A run ends, or stops anywhere.
  | finish k =>
    simp only [PageTexts.step] at hs
    split at hs
    · obtain rfl := Option.some.inj hs
      exact h.over k
    · obtain rfl := Option.some.inj hs
      exact h.over k
    · contradiction
  | stop k =>
    obtain rfl := Option.some.inj hs
    exact h.over k

/-- What a fetch was recorded with stays. -/
theorem recorded_step {a : Act D} (hs : PageTexts.step cd s a = some s') {id : ℕ} {r : Option String}
    (h : s.recorded id = some r) : s'.recorded id = some r := by
  cases a with
  | record i content =>
    simp only [PageTexts.step] at hs
    rw [Option.ite_none_right_eq_some] at hs
    obtain ⟨hnew, hs⟩ := hs
    obtain rfl := Option.some.inj hs
    have hne : id ≠ i := by
      rintro rfl
      rw [hnew] at h
      contradiction
    dsimp only
    rw [Function.update_of_ne hne]
    exact h
  | stop k =>
    obtain rfl := Option.some.inj hs
    exact h
  | move _ _ _ | upload _ _ | clear _ _ | pull _ _ _ | resolve _ _ | restore _ _ | finish _ =>
    simp only [PageTexts.step] at hs
    repeat' split at hs
    all_goals first
      | contradiction
      | (obtain rfl := Option.some.inj hs; exact h)

/-- The invariant holds in every state that is reached. -/
theorem State.inv_of_run (hcd : cd.CollisionFree) (h : Run (PageTexts.step cd) Always State.empty s) :
    s.Inv cd := by
  have hstart : (State.empty : State D).Inv cd := by
    refine ⟨fun f hf => ?_, List.nodup_nil, fun id r hr => ?_, fun k job hk => ?_⟩
    · exact absurd hf List.not_mem_nil
    · contradiction
    · contradiction
  exact h.invariant hstart fun _ _ _ hi _ hs => hi.step hcd hs

/-! ## What readers see -/

/-- The text of a fetch: an empty one is none. -/
def recordedText (recorded : Option String) : Option String := recorded.filter (· ≠ "")

/-- A text that is not empty. -/
theorem recordedText_of_ne {t : String} (h : t ≠ "") : recordedText (some t) = some t := by
  unfold recordedText
  rw [Option.filter_some, if_pos (decide_eq_true h)]

/-- A reader of an inline row gets its text. -/
theorem textOf_inline (store : Store Value D) (id : ℕ) (r : Option String) :
    textOf cd store (some ⟨id, r, none, none, none, none⟩) = some (recordedText r) := by
  cases r with
  | none => rfl
  | some t =>
    by_cases ht : t = ""
    · subst ht
      rfl
    · rw [recordedText_of_ne ht]
      simp [textOf, Fetch.hasText, Fetch.inlineText, Fetch.ref, resolve, ht]

/-- A reader of a row gets what was recorded, or raises, whatever object storage serves. -/
theorem Stands.textOf_cases {objects : List (List (D × Value))} {f : Fetch D} {r : Option String}
    (hcd : cd.CollisionFree) (h : Stands cd objects f r) (store : Store Value D) :
    textOf cd store (some f) = none ∨ textOf cd store (some f) = some (recordedText r) := by
  rcases h with hf | ⟨t, o, n, rfl, hne, hf, -⟩
  · rw [hf]
    exact .inr (textOf_inline store f.id r)
  · rw [hf]
    simp only [textOf, Fetch.hasText, Fetch.inlineText, Fetch.ref, resolve, recordedText_of_ne hne, Option.isSome_some, Bool.or_true,
      if_true, Option.map_some, getDigestMember]
    cases hread : store o n (cd.digest (.text t)) with
    | none => exact .inl rfl
    | some v =>
      rw [Option.filter_some]
      split
      · next w hw =>
        split at hw
        -- The member passed the digest check, so it is the text.
        · next hd =>
          have hv := hcd.digest (beq_iff_eq.mp hd)
          rw [hv] at hw
          rw [Value.text.inj (Option.some.inj hw)]
          exact .inr rfl
        · contradiction
      · exact .inl rfl

/-- A reader gets what was recorded when object storage answers, with what it had when the row was read or
more. -/
theorem Stands.textOf_served {objects : List (List (D × Value))} {f : Fetch D} {r : Option String}
    (h : Stands cd objects f r) (more : List (List (D × Value))) :
    textOf cd (serve cd (objects ++ more)) (some f) = some (recordedText r) := by
  rcases h with hf | ⟨t, o, n, rfl, hne, hf, hserved⟩
  · rw [hf]
    exact textOf_inline _ f.id r
  · have href : f.ref = some (o, some n, some (cd.digest (.text t))) := by
      rw [hf]
      rfl
    have hhas : f.hasText = true := by
      rw [hf]
      rfl
    simp only [textOf, hhas, if_true]
    rw [href, (hserved.append more).resolve, recordedText_of_ne hne]

/-- The length that is reported is that of what was recorded. -/
theorem Stands.chars {objects : List (List (D × Value))} {f : Fetch D} {r : Option String}
    (h : Stands cd objects f r) : f.chars = (recordedText r).map String.length := by
  rcases h with hf | ⟨t, o, n, rfl, hne, hf, -⟩
  · rw [hf]
    cases r with
    | none => rfl
    | some t =>
      by_cases ht : t = ""
      · subst ht
        rfl
      · rw [recordedText_of_ne ht]
        simp [Fetch.chars, Fetch.hasText, Fetch.inlineText, ht]
  · rw [hf, recordedText_of_ne hne]
    rfl

/-- A row is in one shape and not in the other. -/
theorem Stands.shape {objects : List (List (D × Value))} {f : Fetch D} {r : Option String}
    (h : Stands cd objects f r) : (f.Inline ∧ ¬f.Referenced) ∨ (f.Referenced ∧ ¬f.Inline) := by
  rcases h with hf | ⟨t, o, n, -, -, hf, -⟩
  · rw [hf]
    refine .inl ⟨⟨rfl, rfl, rfl, rfl⟩, fun href => ?_⟩
    exact absurd href.2.1 Bool.false_ne_true
  · rw [hf]
    refine .inr ⟨⟨rfl, rfl, rfl, rfl, rfl⟩, fun hinline => ?_⟩
    exact absurd hinline.1 (Option.some_ne_none _)

omit [DecidableEq D] in
/-- The row that is found under an id. -/
theorem fetch_some {id : ℕ} {f : Fetch D} (h : s.fetch id = some f) : f ∈ s.fetches ∧ f.id = id := by
  have hid := List.find?_some h
  exact ⟨List.mem_of_find?_eq_some h, of_decide_eq_true hid⟩

/-- The lengths that are reported are those of what was recorded. -/
theorem State.Inv.chars (h : s.Inv cd) (id : ℕ) :
    s.chars id = ((s.recorded id).bind recordedText).map String.length := by
  unfold State.chars
  cases hf : s.fetch id with
  | none =>
    cases hr : s.recorded id with
    | none => rfl
    | some r =>
      obtain ⟨f, hmem, hid⟩ := h.known id r hr
      have := List.find?_eq_none.mp hf f hmem
      rw [decide_eq_true_eq] at this
      exact absurd hid this
  | some f =>
    obtain ⟨hmem, rfl⟩ := fetch_some hf
    obtain ⟨r, hr, hstands⟩ := h.rows f hmem
    rw [hr]
    exact hstands.chars

/-! ## Rounds of one execution -/

/-- What one execution does, with a limit on its reads and a rule that reads the lengths of the texts, while
object storage answers. -/
def Act.By (k limit : ℕ) (rule : (ℕ → Option ℕ) → ℕ → Bool) (s : State D) : Act D → Prop
  | .move j l cold | .pull j l cold => j = k ∧ l = limit ∧ cold = rule s.chars
  | .upload j up | .resolve j up => j = k ∧ up = true
  | .clear j _ | .restore j _ | .finish j => j = k
  | _ => False

/-- The row is not where the rule has it. -/
def Fetch.misplaced (cold : ℕ → Bool) (f : Fetch D) : Bool :=
  (f.content_object.isSome && !cold f.id) || (f.inlineText && cold f.id)

section Rounds

variable {k limit : ℕ} {rule : (ℕ → Option ℕ) → ℕ → Bool} {cold : ℕ → Bool}

omit [DecidableEq D] in
/-- Rewriting rows one after the other: a row that is rewritten is where the rule has it from then on. -/
theorem foldl_placed {R : Type} (g : R → Fetch D → Fetch D) (key : R → ℕ) (hid : ∀ r f, (g r f).id = f.id)
    (hother : ∀ r f, f.id ≠ key r → g r f = f) :
    ∀ (rows : List R), (∀ r ∈ rows, ∀ f, f.id = key r → (g r f).misplaced cold = false) →
      (∀ f, (rows.foldl (fun f r => g r f) f).misplaced cold = true → f.misplaced cold = true) ∧
      ∀ r ∈ rows, ∀ f, f.id = key r → (rows.foldl (fun f r => g r f) f).misplaced cold = false
  | [], _ => ⟨fun f h => h, fun r hr => absurd hr List.not_mem_nil⟩
  | r :: rest, hfix => by
    obtain ⟨hback, hplaced⟩ := foldl_placed g key hid hother rest fun r' hr' => hfix r' (List.mem_cons_of_mem _ hr')
    refine ⟨fun f hf => ?_, fun r' hr' f hf => ?_⟩
    · have hstep := hback (g r f) hf
      by_cases hmine : f.id = key r
      · rw [hfix r List.mem_cons_self f hmine] at hstep
        contradiction
      · rw [hother r f hmine] at hstep
        exact hstep
    · rcases List.mem_cons.mp hr' with rfl | hr'
      · refine Bool.eq_false_iff.mpr fun hmis => ?_
        have hstep := hback (g r' f) hmis
        rw [hfix r' List.mem_cons_self f hf] at hstep
        contradiction
      · exact hplaced r' hr' (g r f) ((hid r f).trans hf)

omit [DecidableEq D] in
/-- A row that `move` writes is where the rule has it. -/
theorem clear_placed {m : Moved D} (hcold : cold m.id = true) (f : Fetch D) (hf : f.id = m.id) :
    (m.clear f).misplaced cold = false := by
  unfold Moved.clear
  split
  · simp [Fetch.misplaced, Fetch.inlineText, hf, hcold]
  · next hnot =>
    have hnone : f.content = none := by
      rw [not_and, Option.isSome_iff_ne_none, not_not] at hnot
      exact hnot hf
    simp [Fetch.misplaced, Fetch.inlineText, hf, hcold, hnone]

omit [DecidableEq D] in
/-- A row that `pull_back` writes is where the rule has it. -/
theorem restore_placed {r : ℕ × Option String} (hcold : cold r.1 = false) (f : Fetch D) (hf : f.id = r.1) :
    (restore r f).misplaced cold = false := by
  unfold restore
  split
  · simp [Fetch.misplaced, hf, hcold]
  · next hnot =>
    have hnone : f.content_object = none := by
      rw [not_and, Option.isSome_iff_ne_none, not_not] at hnot
      exact hnot hf
    simp [Fetch.misplaced, hf, hcold, hnone]

omit [DecidableEq D] in
/-- A rewrite that misplaces no row, and places one, leaves fewer rows misplaced. -/
theorem countP_map_lt {rows : List (Fetch D)} {g : Fetch D → Fetch D}
    (hback : ∀ f, (g f).misplaced cold = true → f.misplaced cold = true)
    (hplaced : ∃ f ∈ rows, f.misplaced cold = true ∧ (g f).misplaced cold = false) :
    (rows.map g).countP (Fetch.misplaced cold) < rows.countP (Fetch.misplaced cold) := by
  have hnested : (rows.filter fun f => (g f).misplaced cold) =
      (rows.filter (Fetch.misplaced cold)).filter fun f => (g f).misplaced cold := by
    rw [List.filter_filter]
    refine List.filter_congr fun f _ => ?_
    cases hg : (g f).misplaced cold with
    | false => rfl
    | true =>
      rw [hback f hg]
      rfl
  rw [List.countP_map, List.countP_eq_length_filter, List.countP_eq_length_filter]
  change (rows.filter fun f => (g f).misplaced cold).length < _
  rw [hnested]
  obtain ⟨f, hf, hmis, hok⟩ := hplaced
  refine List.length_filter_lt_length_iff_exists.mpr ⟨f, List.mem_filter.mpr ⟨hf, hmis⟩, ?_⟩
  rw [hok]
  exact Bool.false_ne_true

/-- `move` writes all of its rows. -/
theorem clear_all (cd : Coding D) (k limit : ℕ) (rule : (ℕ → Option ℕ) → ℕ → Bool) :
    ∀ (rows : List (Moved D)) {s : State D}, s.jobs k = some (.clearing rows) →
    ∃ s', Run (step cd) (Act.By k limit rule) s s' ∧ s'.jobs k = none ∧ s'.recorded = s.recorded ∧
      s'.fetches = s.fetches.map fun f => rows.foldl (fun f m => m.clear f) f
  | [], s, hk => by
    refine ⟨s.turn k none, .next (.finish k) .start rfl ?_, Function.update_self .., rfl, ?_⟩
    · simp only [step, hk]
    · exact (List.map_id' s.fetches).symm
  | m :: rest, s, hk => by
    set s₁ := ({ s with fetches := s.fetches.map m.clear }.turn k (some (.clearing rest)) : State D) with hs₁
    have hstep : step cd s (.clear k m) = some s₁ := by
      simp only [step, hk, if_pos (List.mem_cons_self (a := m) (l := rest)), List.erase_cons_head]
      rfl
    obtain ⟨s', hrun, hjob, hrec, hfetches⟩ := clear_all cd k limit rule rest (s := s₁) (Function.update_self ..)
    have hfirst : Run (step cd) (Act.By k limit rule) s s₁ := .next (.clear k m) .start rfl hstep
    refine ⟨s', hfirst.trans hrun, hjob, hrec, ?_⟩
    rw [hfetches]
    exact List.map_map

/-- `pull_back` writes all of its rows. -/
theorem restore_all (cd : Coding D) (k limit : ℕ) (rule : (ℕ → Option ℕ) → ℕ → Bool) :
    ∀ (rows : List (ℕ × Option String)) {s : State D}, s.jobs k = some (.restoring rows) →
    ∃ s', Run (step cd) (Act.By k limit rule) s s' ∧ s'.jobs k = none ∧ s'.recorded = s.recorded ∧
      s'.fetches = s.fetches.map fun f => rows.foldl (fun f r => restore r f) f
  | [], s, hk => by
    refine ⟨s.turn k none, .next (.finish k) .start rfl ?_, Function.update_self .., rfl, ?_⟩
    · simp only [step, hk]
    · exact (List.map_id' s.fetches).symm
  | r :: rest, s, hk => by
    set s₁ := ({ s with fetches := s.fetches.map (restore r) }.turn k (some (.restoring rest)) : State D) with hs₁
    have hstep : step cd s (.restore k r) = some s₁ := by
      simp only [step, hk, if_pos (List.mem_cons_self (a := r) (l := rest)), List.erase_cons_head]
      rfl
    obtain ⟨s', hrun, hjob, hrec, hfetches⟩ := restore_all cd k limit rule rest (s := s₁) (Function.update_self ..)
    have hfirst : Run (step cd) (Act.By k limit rule) s s₁ := .next (.restore k r) .start rfl hstep
    refine ⟨s', hfirst.trans hrun, hjob, hrec, ?_⟩
    rw [hfetches]
    exact List.map_map

omit [DecidableEq D] in
/-- A read of rows that are there gets one. -/
theorem firstRows_ne_nil (hlimit : limit ≠ 0) {rows : List (Fetch D)} (h : rows ≠ []) :
    firstRows limit rows ≠ [] := by
  intro hnil
  rcases List.take_eq_nil_iff.mp hnil with hzero | hempty
  · exact hlimit hzero
  · have hlen := List.length_insertionSort (fun f g : Fetch D => f.id ≤ g.id) rows
    rw [hempty] at hlen
    exact h (List.eq_nil_of_length_eq_zero hlen.symm)

/-- A `pull_back` with a row to bring back leaves fewer rows misplaced. -/
theorem pull_round (h : s.Inv cd) (hlimit : limit ≠ 0) (hk : s.jobs k = none) (hcold : cold = rule s.chars)
    (hrows : (s.fetches.filter fun f => f.hasText && f.content_object.isSome && !cold f.id) ≠ []) :
    ∃ s', Run (step cd) (Act.By k limit rule) s s' ∧ s'.jobs k = none ∧ s'.recorded = s.recorded ∧
      s'.fetches.countP (Fetch.misplaced cold) < s.fetches.countP (Fetch.misplaced cold) := by
  have hread : s.toPull cold limit ≠ [] := firstRows_ne_nil hlimit hrows
  have hselected : ∀ f ∈ s.toPull cold limit, f ∈ s.fetches ∧ f.content_object.isSome = true ∧
      cold f.id = false := by
    intro f hf
    obtain ⟨hmem, hcond⟩ := List.mem_filter.mp (mem_firstRows hf)
    rw [Bool.and_eq_true, Bool.and_eq_true, Bool.not_eq_true'] at hcond
    exact ⟨hmem, hcond.1.2, hcond.2⟩
  set rows := (s.toPull cold limit).map fun f => (f.id, f.content, f.ref) with hrowsdef
  have hpull : step cd s (.pull k limit cold) = some (s.turn k (some (.pulling rows))) := by
    simp only [step, hk]
    rfl
  -- Every text is read, as object storage has it.
  have htexts : ∀ r ∈ rows, ∃ y, (resolve cd (serve cd s.objects) r.2.1 r.2.2).map
      (fun text => (r.1, text)) = some y := by
    intro r hr
    obtain ⟨f, hf, rfl⟩ := List.mem_map.mp hr
    obtain ⟨hmem, hobject, -⟩ := hselected f hf
    obtain ⟨r, -, hstands⟩ := h.rows f hmem
    obtain ⟨t, o, n, -, -, hcontent, href, hserved⟩ := hstands.text_of_object hobject
    refine ⟨(f.id, some t), ?_⟩
    rw [href, hserved.resolve]
    rfl
  obtain ⟨texts, hmap, hall⟩ := mapM_of_forall htexts
  have hresolve : step cd (s.turn k (some (.pulling rows))) (.resolve k true) =
      some ((s.turn k (some (.pulling rows))).turn k (some (.restoring texts))) := by
    have hjob : (s.turn k (some (.pulling rows))).jobs k = some (.pulling rows) := Function.update_self ..
    have hobjects : (s.turn k (some (.pulling rows))).objects = s.objects := rfl
    simp only [step, hjob, hobjects, hmap, if_true]
  obtain ⟨s', hrun, hjob, hrec, hfetches⟩ := restore_all cd k limit rule texts
    (s := (s.turn k (some (.pulling rows))).turn k (some (.restoring texts))) (Function.update_self ..)
  have hfirst : Run (step cd) (Act.By k limit rule) s
      ((s.turn k (some (.pulling rows))).turn k (some (.restoring texts))) :=
    .next (.resolve k true) (.next (.pull k limit cold) .start ⟨rfl, rfl, hcold⟩ hpull) ⟨rfl, rfl⟩ hresolve
  refine ⟨s', hfirst.trans hrun, hjob, hrec, ?_⟩
  -- The ids that are written are those that were read.
  have hids : ∀ r ∈ texts, cold r.1 = false := by
    intro r hr
    obtain ⟨row, hrow, hy⟩ := mem_of_mapM hmap r hr
    obtain ⟨text, -, rfl⟩ := Option.map_eq_some_iff.mp hy
    obtain ⟨f, hf, rfl⟩ := List.mem_map.mp hrow
    exact (hselected f hf).2.2
  obtain ⟨hback, hplaced⟩ := foldl_placed (D := D) restore Prod.fst restore_id
    (fun r f hne => if_neg fun hc => hne hc.1) texts fun r hr f hf => restore_placed (hids r hr) f hf
  rw [hfetches]
  refine countP_map_lt hback ?_
  obtain ⟨f, hf⟩ := List.exists_mem_of_ne_nil _ hread
  obtain ⟨hmem, hobject, hcoldf⟩ := hselected f hf
  obtain ⟨y, hy, hval⟩ := hall _ (List.mem_map_of_mem hf)
  obtain ⟨text, -, rfl⟩ := Option.map_eq_some_iff.mp hval
  refine ⟨f, hmem, ?_, hplaced _ hy f rfl⟩
  unfold Fetch.misplaced
  rw [hobject, hcoldf]
  rfl

/-- A `move` with a row to move leaves fewer rows misplaced. -/
theorem move_round (hcd : cd.CollisionFree) (hlimit : limit ≠ 0) (hk : s.jobs k = none)
    (hcold : cold = rule s.chars) (hrows : (s.fetches.filter fun f => f.inlineText && cold f.id) ≠ []) :
    ∃ s', Run (step cd) (Act.By k limit rule) s s' ∧ s'.jobs k = none ∧ s'.recorded = s.recorded ∧
      s'.fetches.countP (Fetch.misplaced cold) < s.fetches.countP (Fetch.misplaced cold) := by
  have hread : s.toMove cold limit ≠ [] := firstRows_ne_nil hlimit hrows
  have hselected : ∀ f ∈ s.toMove cold limit, f ∈ s.fetches ∧ f.inlineText = true ∧ cold f.id = true := by
    intro f hf
    obtain ⟨hmem, hcond⟩ := List.mem_filter.mp (mem_firstRows hf)
    rw [Bool.and_eq_true] at hcond
    exact ⟨hmem, hcond.1, hcond.2⟩
  set rows := (s.toMove cold limit).map fun f => (f.id, f.content.getD "") with hrowsdef
  have hmove : step cd s (.move k limit cold) = some (s.turn k (some (.moving rows))) := by
    simp only [step, hk]
    rfl
  obtain ⟨moved, hmoved, hall, hspec⟩ := upload_spec hcd s.objects rows
  set s₁ : State D := ({ s.turn k (some (.moving rows)) with
    objects := s.objects ++ bundleGroups (fun item => cd.size item.2) (cd.values rows) } : State D).turn k
      (some (.clearing moved)) with hs₁
  have hupload : step cd (s.turn k (some (.moving rows))) (.upload k true) = some s₁ := by
    have hjob : (s.turn k (some (.moving rows))).jobs k = some (.moving rows) := Function.update_self ..
    simp only [step, hjob, hmoved, if_true]
    rfl
  obtain ⟨s', hrun, hjob, hrec, hfetches⟩ := clear_all cd k limit rule moved (s := s₁)
    (Function.update_self ..)
  have hfirst : Run (step cd) (Act.By k limit rule) s s₁ :=
    .next (.upload k true) (.next (.move k limit cold) .start ⟨rfl, rfl, hcold⟩ hmove) ⟨rfl, rfl⟩ hupload
  refine ⟨s', hfirst.trans hrun, hjob, hrec, ?_⟩
  have hids : ∀ m ∈ moved, cold m.id = true := by
    intro m hm
    obtain ⟨r, hr, hid, -⟩ := hspec m hm
    obtain ⟨f, hf, rfl⟩ := List.mem_map.mp hr
    rw [hid]
    exact (hselected f hf).2.2
  obtain ⟨hback, hplaced⟩ := foldl_placed (D := D) Moved.clear Moved.id clear_id
    (fun m f hne => if_neg fun hc => hne hc.1) moved fun m hm f hf => clear_placed (hids m hm) f hf
  rw [hfetches]
  refine countP_map_lt hback ?_
  obtain ⟨f, hf⟩ := List.exists_mem_of_ne_nil _ hread
  obtain ⟨hmem, hinline, hcoldf⟩ := hselected f hf
  obtain ⟨m, hm, hid⟩ := hall _ (List.mem_map_of_mem hf)
  refine ⟨f, hmem, ?_, hplaced m hm f hid.symm⟩
  unfold Fetch.misplaced
  rw [hinline, hcoldf, Bool.and_true, Bool.or_true]

/-- Rounds of one execution come to a state in which no row is misplaced, when the rule changes no more. -/
theorem settles (hcd : cd.CollisionFree) (hlimit : limit ≠ 0) (n : ℕ) :
    ∀ {s : State D}, s.Inv cd → s.jobs k = none → s.fetches.countP (Fetch.misplaced (rule s.chars)) ≤ n →
      ∃ s', Run (step cd) (Act.By k limit rule) s s' ∧ s'.Inv cd ∧ s'.recorded = s.recorded ∧
        ∀ f ∈ s'.fetches, f.misplaced (rule s'.chars) = false := by
  induction n with
  | zero =>
    intro s hi hk hcount
    refine ⟨s, .start, hi, rfl, fun f hf => ?_⟩
    rw [Nat.le_zero, List.countP_eq_zero] at hcount
    exact Bool.eq_false_iff.mpr (hcount f hf)
  | succ n ih =>
    intro s hi hk hcount
    -- One round, then the rest: what is recorded is as it was, and so is what the rule reads.
    have hgo : ∀ s₁, Run (step cd) (Act.By k limit rule) s s₁ → s₁.jobs k = none → s₁.recorded = s.recorded →
        s₁.fetches.countP (Fetch.misplaced (rule s.chars)) < s.fetches.countP (Fetch.misplaced (rule s.chars)) →
        ∃ s', Run (step cd) (Act.By k limit rule) s s' ∧ s'.Inv cd ∧ s'.recorded = s.recorded ∧
          ∀ f ∈ s'.fetches, f.misplaced (rule s'.chars) = false := by
      intro s₁ hrun hk₁ hrec hless
      have hi₁ : s₁.Inv cd := hrun.invariant hi fun _ _ _ hj _ hs => hj.step hcd hs
      have hchars : s₁.chars = s.chars := by
        funext id
        rw [hi₁.chars, hi.chars, hrec]
      obtain ⟨s', hrun', hi', hrec', hplaced⟩ := ih hi₁ hk₁ (by rw [hchars]; omega)
      exact ⟨s', hrun.trans hrun', hi', hrec'.trans hrec, hplaced⟩
    by_cases hpull : (s.fetches.filter fun f =>
        f.hasText && f.content_object.isSome && !rule s.chars f.id) = []
    · by_cases hmove : (s.fetches.filter fun f => f.inlineText && rule s.chars f.id) = []
      · refine ⟨s, .start, hi, rfl, fun f hf => Bool.eq_false_iff.mpr fun hmis => ?_⟩
        unfold Fetch.misplaced at hmis
        rw [Bool.or_eq_true] at hmis
        rcases hmis with hmis | hmis
        · refine List.filter_eq_nil_iff.mp hpull f hf ?_
          have hobject := (Bool.and_eq_true _ _ ▸ hmis).1
          unfold Fetch.hasText
          rw [hobject, Bool.or_true, Bool.true_and, Bool.true_and]
          exact (Bool.and_eq_true _ _ ▸ hmis).2
        · exact List.filter_eq_nil_iff.mp hmove f hf hmis
      · obtain ⟨s₁, hrun, hk₁, hrec, hless⟩ := move_round hcd hlimit hk rfl hmove
        exact hgo s₁ hrun hk₁ hrec hless
    · obtain ⟨s₁, hrun, hk₁, hrec, hless⟩ := pull_round hi hlimit hk rfl hpull
      exact hgo s₁ hrun hk₁ hrec hless

end Rounds

/-! ## Tiering keeps the text -/

/-- A row that is not misplaced holds a text by reference exactly when the rule selects it. -/
theorem Stands.placed {objects : List (List (D × Value))} {f : Fetch D} {t : String} {cold : ℕ → Bool}
    (h : Stands cd objects f (some t)) (hne : t ≠ "") (hplaced : f.misplaced cold = false) :
    f.Referenced ↔ cold f.id = true := by
  unfold Fetch.misplaced at hplaced
  rw [Bool.or_eq_false_iff] at hplaced
  rcases h with hf | ⟨t', o, n, -, -, hf, -⟩
  · have hinline : f.inlineText = true := by
      rw [hf]
      exact decide_eq_true hne
    rw [hinline, Bool.true_and] at hplaced
    rw [hplaced.2]
    refine ⟨fun href => ?_, fun hc => ?_⟩
    · have hobject := href.2.1
      rw [hf] at hobject
      contradiction
    · contradiction
  · have hobject : f.content_object.isSome = true := by rw [hf]; rfl
    rw [hobject, Bool.true_and, Bool.not_eq_false'] at hplaced
    refine ⟨fun _ => hplaced.1, fun _ => ?_⟩
    rw [hf]
    exact ⟨rfl, rfl, rfl, rfl, rfl⟩

/-- In every state that is reached, for every fetch that was recorded: a reader of its row gets the text that it
was recorded with, or raises, whatever object storage serves, and gets it from what object storage has then or
later; the length that is reported is that of the text, and never changes; the row is in one shape and not in
the other. And from every such state an execution that is free comes, by `pull_back` and `move` under a rule
that changes no more, to a state in which every fetch with a text is held by reference exactly when the rule
selects it. -/
theorem tiering_keeps_text (hcd : cd.CollisionFree) (h : Run (step cd) Always State.empty s) :
    (∀ id r, s.recorded id = some r →
      (∀ store, textOf cd store (s.fetch id) = none ∨ textOf cd store (s.fetch id) = some (recordedText r)) ∧
      (∀ more, textOf cd (serve cd (s.objects ++ more)) (s.fetch id) = some (recordedText r)) ∧
      s.chars id = (recordedText r).map String.length ∧
      (∀ s', Run (step cd) Always s s' → s'.recorded id = some r ∧ s'.chars id = s.chars id) ∧
      ∃ f, s.fetch id = some f ∧ ((f.Inline ∧ ¬f.Referenced) ∨ (f.Referenced ∧ ¬f.Inline))) ∧
    ∀ k limit rule, s.jobs k = none → limit ≠ 0 → ∃ s', Run (step cd) (Act.By k limit rule) s s' ∧
      s'.recorded = s.recorded ∧
      ∀ f ∈ s'.fetches, ∀ t, s'.recorded f.id = some (some t) → t ≠ "" →
        (f.Referenced ↔ rule s'.chars f.id = true) := by
  have hi := State.inv_of_run hcd h
  refine ⟨fun id r hr => ?_, fun k limit rule hk hlimit => ?_⟩
  · obtain ⟨f, hf⟩ : ∃ f, s.fetch id = some f := by
      obtain ⟨f, hmem, hid⟩ := hi.known id r hr
      refine Option.isSome_iff_exists.mp (List.find?_isSome.mpr ⟨f, hmem, decide_eq_true hid⟩)
    obtain ⟨hmem, rfl⟩ := fetch_some hf
    obtain ⟨r', hr', hstands⟩ := hi.rows f hmem
    obtain rfl : r = r' := Option.some.inj (hr.symm.trans hr')
    have hchars : ∀ t : State D, t.Inv cd → t.recorded f.id = some r →
        t.chars f.id = (recordedText r).map String.length := by
      intro t ht hrt
      rw [ht.chars, hrt]
      rfl
    rw [hf]
    refine ⟨hstands.textOf_cases hcd, hstands.textOf_served, hchars s hi hr, fun s' hrun => ?_, f, rfl,
      hstands.shape⟩
    -- What was recorded stays.
    have hkept : s'.Inv cd ∧ s'.recorded f.id = some r := by
      refine hrun.invariant (I := fun t => t.Inv cd ∧ t.recorded f.id = some r) ⟨hi, hr⟩ ?_
      rintro t a t' ⟨ht, hrt⟩ - hs
      exact ⟨ht.step hcd hs, recorded_step hs hrt⟩
    exact ⟨hkept.2, (hchars s' hkept.1 hkept.2).trans (hchars s hi hr).symm⟩
  · obtain ⟨s', hrun, hi', hrec, hplaced⟩ := settles hcd hlimit _ hi hk (Nat.le_refl _)
    refine ⟨s', hrun, hrec, fun f hf t ht hne => ?_⟩
    obtain ⟨r, hr, hstands⟩ := hi'.rows f hf
    obtain rfl : r = some t := Option.some.inj (hr.symm.trans ht)
    exact hstands.placed hne (hplaced f hf)

end Invariant

/-- A number for each value, in place of its SHA-256. -/
def number : Value → ℕ
  | .text s => Encodable.encode (Sum.inl (s.toList.map Char.toNat) : List ℕ ⊕ ℕ)
  | .other n => Encodable.encode (Sum.inr n : List ℕ ⊕ ℕ)

/-- Values have numbers of their own. -/
theorem number_injective : Function.Injective number := by
  intro v w h
  cases v with
  | text s =>
    cases w with
    | text t =>
      have hcodes := Sum.inl.inj (Encodable.encode_injective h)
      have hchars : Function.Injective (List.map Char.toNat) :=
        List.map_injective_iff.mpr fun a b hab => Char.toNat_inj.mp hab
      exact congrArg Value.text (String.toList_injective (hchars hcodes))
    | other n => exact absurd (Encodable.encode_injective h) Sum.inl_ne_inr
  | other m =>
    cases w with
    | text t => exact absurd (Encodable.encode_injective h) Sum.inr_ne_inl
    | other n => exact congrArg Value.other (Sum.inr.inj (Encodable.encode_injective h))

/-- A coding with numbers for digests. -/
def numbered : Coding ℕ where
  digest := number
  size _ := 1
  link bundle := (Encodable.encode (bundle.map fun item => (item.1, number item.2)), bundle.length)

/-- It is collision free. -/
theorem numbered_collisionFree : numbered.CollisionFree := by
  refine ⟨number_injective, fun a b hab d => ?_⟩
  have hpairs := Encodable.encode_injective (Prod.mk.inj hab).1
  have hinj : Function.Injective fun item : ℕ × Value => (item.1, number item.2) := by
    rintro ⟨d, v⟩ ⟨e, w⟩ he
    rw [Prod.mk.injEq] at he
    rw [Prod.mk.injEq]
    exact ⟨he.1, number_injective he.2⟩
  rw [List.map_injective_iff.mpr hinj hpairs]

/-- A page is recorded, and a rule that selects every text of more than three characters moves it: it is read as
it was recorded. -/
theorem tiering_keeps_text_engineer : ∃ s s' : State ℕ, ∃ f,
    Run (step numbered) Always State.empty s ∧
    Run (step numbered) (Act.By 0 1 fun chars id => (chars id).any (3 < ·)) s s' ∧ s'.fetch 7 = some f ∧
    f.Referenced ∧ textOf numbered (serve numbered s'.objects) (s'.fetch 7) = some (some "Engineer") := by
  set s : State ℕ := ⟨[⟨7, some "Engineer", none, none, none, none⟩], [], fun _ => none,
    Function.update (fun _ => none) 7 (some (some "Engineer"))⟩ with hs
  have hrun : Run (step numbered) Always State.empty s := .next (.record 7 (some "Engineer")) .start trivial rfl
  have hrec : s.recorded 7 = some (some "Engineer") := rfl
  obtain ⟨s', hrun', hrec', hplaced⟩ := (tiering_keeps_text numbered_collisionFree hrun).2 0 1
    (fun chars id => (chars id).any (3 < ·)) rfl Nat.one_ne_zero
  have hplain : Run (step numbered) Always s s' := hrun'.mono fun _ _ _ => trivial
  have hall := hrun.trans hplain
  rw [← hrec'] at hrec
  obtain ⟨-, hserved, hchars, -, f, hf, -⟩ := (tiering_keeps_text numbered_collisionFree hall).1 7 _ hrec
  have htext := hserved []
  rw [List.append_nil] at htext
  obtain ⟨hmem, hid⟩ := fetch_some hf
  refine ⟨s, s', f, hrun, hrun', hf, (hplaced f hmem "Engineer" (hid ▸ hrec) (by decide)).mpr ?_, htext⟩
  rw [hid, hchars]
  decide

end JobScripts.Catalog.PageTexts
