import JobScripts.Recipe.Schema
import Mathlib.Algebra.Order.Ring.Int
import Mathlib.Data.List.Induction

/-!
# Recipes in chunks

`process` validates one stored chunk of an upload: it builds a parser from the stored state, feeds
it, and either rejects the upload, publishes it, or stores the state that the parser leaves, which
is its checkpoint and the frames that it holds. The strings in that state are JSON in the database.
There a string with U+0000 or an unpaired surrogate is refused, and a surrogate pair comes back as
the character it stands for, so that the stored state is the parser's own only where the parser
kept no such character (`CapturesStorable`). With it, the parser that a chunk begins with stands
for the same machine as the one that read all the bytes before (`Resumes`), and the fate of the
upload is that of the whole text, however it is split.
-/

namespace JobScripts.Recipe

open Lib Lib.Json

/-! ## The database -/

/-- The status of an upload. -/
inductive Status
  | pending | rejected | published
  deriving DecidableEq

/-- `validation_state`: what the parser and the digest were after the last chunk. -/
structure ValidationState where
  parser : Checkpoint
  digest : List UInt8

/-- A row of `extension_recipe_uploads`. -/
structure Upload where
  adapter : String
  chunk_count : ℕ
  published_by : Option String
  status : Status
  revision : Option (List UInt8)
  error : Option String
  next_chunk : ℕ
  validation_state : Option ValidationState

/-- A row of `extension_recipes`. -/
structure PublishedRecipe where
  adapter : String
  revision : List UInt8
  upload_id : ℕ
  published_by : Option String
  enabled : Bool

/-- What one upload reads and writes: its row, its chunks and its frames, and the recipes. -/
structure Database where
  upload : Option Upload
  chunks : ℕ → Option (List UInt8)
  frames : ℕ → Option Frame
  recipes : List PublishedRecipe

/-- An error that `process` does not catch; its transaction is rolled back. -/
inductive ProcessError
  /-- `ValueError`: a chunk is missing. -/
  | incomplete
  /-- The database refuses a value of type `jsonb`. -/
  | jsonb
  /-- The database refuses a second recipe for one upload. -/
  | unique

/-! ## JSON in the database -/

/-- A string as the database gives it back: pairs are joined, and U+0000 and what is left of the
surrogates are refused. -/
def storeString (s : List ℕ) : Option (List ℕ) :=
  if (joinPairs s).any fun u => u = 0 || isSurrogate u then none else some (joinPairs s)

/-- A frame as the database gives it back. -/
def storeFrame (frame : Frame) : Option Frame := do
  let key ← storeString frame.key
  let seen ← frame.seen.mapM storeString
  return { frame with key, seen }

/-- A checkpoint as the database gives it back. -/
def storeCheckpoint (checkpoint : Checkpoint) : Option Checkpoint := do
  let prefix_ ← storeString checkpoint.prefix_
  return { checkpoint with prefix_ }

/-- `DELETE FROM extension_recipe_frames`, from a depth on. -/
def deleteFrames (deleted_from : Option ℕ) (frames : ℕ → Option Frame) : ℕ → Option Frame :=
  match deleted_from with
  | none => frames
  | some d => fun depth => if d ≤ depth then none else frames depth

/-- `INSERT INTO extension_recipe_frames`, over what is there. -/
def upsertFrames (changed : ℕ → Option Frame) (depth : ℕ) (frames : ℕ → Option Frame) :
    Option (ℕ → Option Frame) :=
  (List.range depth).foldlM (fun frames i =>
    match changed i with
    | none => some frames
    | some frame => (storeFrame frame).map fun body => Function.update frames i (some body)) frames

/-! ## Processing -/

section

variable (U : UnicodeData) (sha256 : List UInt8 → List UInt8)

/-- `int.to_bytes(8, "big")`: a number in eight bytes, the highest first. -/
def toBytes8 (n : ℕ) : List UInt8 := (List.range 8).reverse.map fun i => UInt8.ofNat (n / 256 ^ i)

/-- `_DOMAIN`: what the digest of a chunk starts with. -/
def domain : List UInt8 := ascii "recipe-chunk-v2" ++ [0]

/-- `_SEED`: the digest before the first chunk. -/
def seed : List UInt8 := List.replicate 32 0

/-- `advance_digest`: the digest of the chunks so far and one more, which it names by its index and its length. -/
def advanceDigest (previous : List UInt8) (index : ℕ) (chunk : List UInt8) : List UInt8 :=
  sha256 (domain ++ previous ++ toBytes8 index ++ toBytes8 chunk.length ++ sha256 chunk)

/-- `_publish`: the recipe of an upload is published under its revision, or enabled where it is there. -/
def publish (db : Database) (upload_id : ℕ) (upload : Upload) (revision : List UInt8) :
    Except ProcessError Database := do
  let current (r : PublishedRecipe) : Bool := r.adapter = upload.adapter && r.revision = revision
  let recipes ←
    if db.recipes.any current then
      pure (db.recipes.map fun r =>
        if current r then { r with enabled := true, published_by := upload.published_by } else r)
    else if db.recipes.any fun r => r.upload_id = upload_id then throw .unique
    else pure (db.recipes ++
      [⟨upload.adapter, revision, upload_id, upload.published_by, true⟩])
  return { db with
    recipes := recipes.map fun r =>
      if r.adapter = upload.adapter && r.revision ≠ revision then { r with enabled := false } else r
    upload := some { upload with
      status := .published, revision := some revision, next_chunk := upload.chunk_count }
    frames := fun _ => none }

/-- The part of `process` that may raise `InvalidRecipe`. -/
def feedChunk (upload : Upload) (frames : ℕ → Option Frame) (index : ℕ) (chunk : List UInt8) :
    Except String Parser := do
  let p ← (Parser.init (upload.validation_state.map (·.parser))).feed U upload.adapter frames chunk
  if index + 1 = upload.chunk_count then p.finish
  return p

/-- What `process` stores after a chunk that is not the last. -/
def saveState (db : Database) (upload : Upload) (index : ℕ) (p : Parser) (digest : List UInt8) :
    Except ProcessError Database :=
  match upsertFrames p.changedFrames p.depth (deleteFrames p.deleted_from db.frames),
    storeCheckpoint p.checkpoint with
  | some frames, some parser =>
    .ok { db with
      frames
      upload := some { upload with
        next_chunk := index + 1, validation_state := some ⟨parser, digest⟩ } }
  | _, _ => .error .jsonb

/-- `process`: the next chunk of a pending upload is read, and the last one publishes the recipe. -/
def process (upload_id : ℕ) (db : Database) (index : ℕ) : Except ProcessError Database :=
  match db.upload with
  | none => .ok db
  | some upload =>
    if upload.status ≠ .pending || upload.next_chunk ≠ index then .ok db
    else
      match db.chunks index with
      | none => .error .incomplete
      | some chunk =>
        let digest := upload.validation_state.elim seed (·.digest)
        match feedChunk U upload db.frames index chunk with
        | .error text =>
          .ok { db with upload := some { upload with status := .rejected, error := some text } }
        | .ok p =>
          let digest := advanceDigest sha256 digest index chunk
          if index + 1 = upload.chunk_count then publish db upload_id upload digest
          else saveState db upload index p digest

end

/-- An upload as `publish` of `recipes.py` stores it, before its first chunk is processed: its row
is new, so that no recipe refers to it yet. -/
structure Start where
  upload_id : ℕ
  adapter : String
  published_by : Option String
  chunks : List (List UInt8)
  recipes : List PublishedRecipe
  chunks_ne_nil : chunks ≠ []
  fresh : ∀ r ∈ recipes, r.upload_id ≠ upload_id

/-- The rows of an upload that is stored. -/
def Start.database (s : Start) : Database where
  upload := some
    { adapter := s.adapter, chunk_count := s.chunks.length, published_by := s.published_by,
      status := .pending, revision := none, error := none, next_chunk := 0,
      validation_state := none }
  chunks i := s.chunks[i]?
  frames _ := none
  recipes := s.recipes

/-- `process` for each chunk in turn. -/
def Start.run (U : UnicodeData) (sha256 : List UInt8 → List UInt8) (s : Start) :
    Except ProcessError Database :=
  (List.range s.chunks.length).foldlM (process U sha256 s.upload_id) s.database

/-- Whatever the chunks, the upload ends as the whole text does in one parser: published when it is
read, rejected when it raises. -/
def SameFate (U : UnicodeData) (sha256 : List UInt8 → List UInt8) (s : Start) : Prop :=
  ∃ db upload, s.run U sha256 = .ok db ∧ db.upload = some upload ∧
    (upload.status = .published ↔
      parse U s.adapter (fun _ => none) s.chunks.flatten = .ok ()) ∧
    (upload.status = .rejected ↔
      ∃ text, parse U s.adapter (fun _ => none) s.chunks.flatten = .error text)

/-- A string that the database gives back as it is. -/
def Storable (s : List ℕ) : Prop := ∀ u ∈ s, u ≠ 0 ∧ isSurrogate u = false

/-- Wherever the text is cut, what a parser that read the first part has kept of a string is
storable. -/
def CapturesStorable (U : UnicodeData) (adapter : String) (bytes : List UInt8) : Prop :=
  ∀ pre p, pre <+: bytes → (Parser.init none).feed U adapter (fun _ => none) pre = .ok p →
    Storable p.prefix_

/-! ## What is stored -/

/-- Nothing kept is storable. -/
theorem storable_nil : Storable [] := by simp [Storable]

/-- A storable string comes back as it is. -/
theorem storeString_of_storable {s : List ℕ} (h : Storable s) : storeString s = some s := by
  have hpair : hasPair s = false := by
    by_contra hne
    obtain ⟨u, hu, hsur⟩ := exists_isSurrogate_of_hasPair (by simpa using hne)
    rw [(h u hu).2] at hsur
    contradiction
  unfold storeString
  rw [joinPairs_of_not_hasPair hpair, if_neg]
  simp only [List.any_eq_true, Bool.or_eq_true, decide_eq_true_eq, not_exists, not_and, not_or]
  intro u hu
  exact ⟨(h u hu).1, by simp [(h u hu).2]⟩

/-- A pair needs a surrogate before the last character. -/
theorem hasPair_append_singleton {s : List ℕ} (h : Storable s) (c : ℕ) :
    hasPair (s ++ [c]) = false := by
  induction s with
  | nil => rfl
  | cons u s ih =>
    have hrest := ih fun v hv => h v (List.mem_cons_of_mem _ hv)
    have hu := (h u List.mem_cons_self).2
    have hhigh : isHigh u = false := by
      simp only [isSurrogate, isHigh, Bool.and_eq_false_iff, decide_eq_false_iff_not] at hu ⊢
      omega
    cases s with
    | nil => simp [hasPair, hhigh]
    | cons v s =>
      simp only [List.cons_append] at hrest ⊢
      unfold hasPair
      rw [hhigh, hrest]
      rfl

/-- A first character that is not storable is refused. -/
theorem storeString_append_singleton {s : List ℕ} (h : Storable s) {c : ℕ}
    (hc : ¬(c ≠ 0 ∧ isSurrogate c = false)) : storeString (s ++ [c]) = none := by
  unfold storeString
  rw [joinPairs_of_not_hasPair (hasPair_append_singleton h c), if_pos]
  simp only [List.any_eq_true, Bool.or_eq_true, decide_eq_true_eq]
  refine ⟨c, by simp, ?_⟩
  by_contra hne
  rw [not_or] at hne
  exact hc ⟨hne.1, by simpa using hne.2⟩

/-- The strings of a frame are storable. -/
def Frame.Storable (frame : Frame) : Prop :=
  Recipe.Storable frame.key ∧ ∀ key ∈ frame.seen, Recipe.Storable key

/-- A storable frame comes back as it is. -/
theorem storeFrame_of_storable {frame : Frame} (h : frame.Storable) :
    storeFrame frame = some frame := by
  have hseen : ∀ {seen : List (List ℕ)}, (∀ key ∈ seen, Storable key) →
      seen.mapM storeString = some seen := by
    intro seen
    induction seen with
    | nil => exact fun _ => rfl
    | cons key seen ih =>
      intro h
      rw [List.mapM_cons, storeString_of_storable (h key List.mem_cons_self),
        ih fun k hk => h k (List.mem_cons_of_mem _ hk)]
      rfl
  unfold storeFrame
  rw [storeString_of_storable h.1, hseen h.2]
  rfl

/-- Storable frames are written over what is there. -/
theorem upsertFrames_of_storable {changed : ℕ → Option Frame} (depth : ℕ)
    (h : ∀ i < depth, ∀ frame, changed i = some frame → frame.Storable)
    (frames : ℕ → Option Frame) :
    upsertFrames changed depth frames =
      some fun i => if i < depth then (changed i).or (frames i) else frames i := by
  unfold upsertFrames
  induction depth with
  | zero => simp
  | succ depth ih =>
    rw [List.range_succ, List.foldlM_append, ih fun i hi => h i (Nat.lt_succ_of_lt hi)]
    simp only [Option.bind_eq_bind, Option.bind_some, List.foldlM_cons, List.foldlM_nil]
    cases hc : changed depth with
    | none =>
      simp only [Option.pure_def, Option.bind_some, Option.some.injEq]
      funext i
      by_cases hi : i = depth
      · simp [hi, hc]
      · have hiff : i < depth + 1 ↔ i < depth := by omega
        simp only [hiff]
    | some frame =>
      have hstore := storeFrame_of_storable (h depth (Nat.lt_succ_self _) frame hc)
      simp only [hstore, Option.map_some, Option.pure_def, Option.bind_some, Option.some.injEq]
      funext i
      by_cases hi : i = depth
      · simp [hi, hc]
      · have hiff : i < depth + 1 ↔ i < depth := by omega
        simp only [hiff, Function.update_of_ne hi]

/-! ## What is kept of a string -/

section

variable {U : UnicodeData} {adapter : String} {load_frame : ℕ → Option Frame} {p p' : Parser}

/-- Reading the current frame keeps the checkpoint. -/
theorem frame_checkpoint {f : Frame} (h : p.frame load_frame = .ok (f, p')) :
    p'.toCheckpoint = p.toCheckpoint := by
  unfold Parser.frame at h
  dsimp only at h
  split at h
  · rw [← (Prod.mk.inj (Except.ok.inj h)).2]
  · split at h
    · contradiction
    · rw [← (Prod.mk.inj (Except.ok.inj h)).2]

/-- Leaving a container keeps what was kept. -/
theorem pop_kept (h : p.pop load_frame = .ok p') : p'.prefix_ = p.prefix_ := by
  obtain ⟨⟨f, q⟩, hq, h⟩ := exists_of_bind_eq_ok h
  have hcheck := frame_checkpoint hq
  dsimp only at h
  split at h
  · contradiction
  · obtain rfl := Except.ok.inj h
    rw [← hcheck]

/-- A character is kept or dropped. -/
theorem capture_kept {character : ℕ} (h : p.capture adapter load_frame character = .ok p') :
    (p'.prefix_ = p.prefix_ ∨ p'.prefix_ = p.prefix_ ++ [character]) ∧ p'.mode = p.mode := by
  obtain ⟨⟨f, q⟩, hq, h⟩ := exists_of_bind_eq_ok h
  have hcheck := frame_checkpoint hq
  dsimp only at h
  split at h
  · obtain rfl := Except.ok.inj h
    rw [hcheck]
    exact ⟨.inr rfl, rfl⟩
  · obtain rfl := Except.ok.inj h
    rw [hcheck]
    exact ⟨.inl rfl, rfl⟩

/-- The end of a string keeps what was kept. -/
theorem endString_kept (h : p.endString U adapter load_frame = .ok p') :
    p'.prefix_ = p.prefix_ := by
  obtain ⟨⟨f, q⟩, hq, h⟩ := exists_of_bind_eq_ok h
  have hframe := frame_checkpoint hq
  have hcheck : q.prefix_ = p.prefix_ := by rw [hframe]
  rw [← hcheck]
  dsimp only at h
  split_ifs at h <;> first
    | contradiction
    | (obtain rfl := Except.ok.inj h; rfl)

/-- The beginning of a value keeps what was kept, or nothing. -/
theorem startValue_kept {byte : UInt8} (h : p.startValue load_frame byte = .ok p') :
    p'.prefix_ = p.prefix_ ∨ p'.prefix_ = [] := by
  obtain ⟨⟨f, q⟩, hq, h⟩ := exists_of_bind_eq_ok h
  have hcheck : q.prefix_ = p.prefix_ := congrArg Checkpoint.prefix_ (frame_checkpoint hq)
  rw [← hcheck]
  dsimp only at h
  split at h
  · contradiction
  · cases hkind : kindOf byte with
    | object =>
      simp only [hkind] at h
      obtain rfl := Except.ok.inj h
      exact .inl rfl
    | array =>
      simp only [hkind] at h
      split_ifs at h <;> obtain rfl := Except.ok.inj h <;> exact .inl rfl
    | string =>
      simp only [hkind] at h
      obtain rfl := Except.ok.inj h
      exact .inr rfl
    | number =>
      simp only [hkind] at h
      obtain ⟨⟨inside, r⟩, hr, h⟩ := exists_of_bind_eq_ok h
      obtain rfl := Except.ok.inj h
      obtain ⟨state, -, hr⟩ := exists_of_bind_eq_ok hr
      cases state with
      | none =>
        obtain rfl := (Prod.mk.inj (Except.ok.inj hr)).2
        exact .inl rfl
      | some state =>
        obtain rfl := (Prod.mk.inj (Except.ok.inj hr)).2
        exact .inl rfl
    | literal =>
      simp only [hkind] at h
      split at h
      · obtain rfl := Except.ok.inj h
        exact .inl rfl
      · contradiction

/-- A byte between tokens keeps what was kept, or nothing. -/
theorem stepDefault_kept {byte : UInt8} (h : p.stepDefault load_frame byte = .ok p') :
    p'.prefix_ = p.prefix_ ∨ p'.prefix_ = [] := by
  unfold Parser.stepDefault at h
  split at h
  · obtain rfl := Except.ok.inj h
    exact .inl rfl
  · dsimp only at h
    split at h
    · contradiction
    · obtain ⟨⟨f, q⟩, hq, h⟩ := exists_of_bind_eq_ok h
      have hcheck : q.prefix_ = p.prefix_ := congrArg Checkpoint.prefix_ (frame_checkpoint hq)
      have hset : ∀ g, Except.ok (q.setFrame g) = (Except.ok p' : Parser.Result) →
          p'.prefix_ = q.prefix_ ∨ p'.prefix_ = [] := by
        intro g hg
        obtain rfl := Except.ok.inj hg
        exact .inl rfl
      have hkey : Except.ok (q.startString .key) = (Except.ok p' : Parser.Result) →
          p'.prefix_ = q.prefix_ ∨ p'.prefix_ = [] := by
        intro hk
        obtain rfl := Except.ok.inj hk
        exact .inr rfl
      rw [← hcheck]
      dsimp only at h
      -- Each branch pops, begins a value or a key, or changes the frame.
      split at h <;> (repeat' split at h) <;> first
        | contradiction
        | exact .inl (pop_kept h)
        | exact startValue_kept h
        | exact hkey h
        | exact hset _ h

/-- A byte adds a character to what is kept of the string that is read, leaves it, or starts
anew. -/
theorem step_kept {byte : UInt8} (h : p.step U adapter load_frame byte = .ok p') :
    p'.prefix_ = p.prefix_ ∨ p'.prefix_ = [] ∨
      ∃ c, p'.prefix_ = p.prefix_ ++ [c] ∧ p'.mode = .string := by
  -- One lemma for each kind of step: a character is captured, is captured after an escape, or the
  -- step is outside a string.
  have hcapture : ∀ {q : Parser} {c : ℕ}, q.capture adapter load_frame c = .ok p' →
      q.prefix_ = p.prefix_ → q.mode = .string →
      p'.prefix_ = p.prefix_ ∨ p'.prefix_ = [] ∨
        ∃ c, p'.prefix_ = p.prefix_ ++ [c] ∧ p'.mode = .string := by
    intro q c hc hq hm
    obtain ⟨hsame | hmore, hmode⟩ := capture_kept hc
    · exact .inl (hsame.trans hq)
    · exact .inr (.inr ⟨c, by rw [hmore, hq], hmode.trans hm⟩)
  have hback : ∀ {q : Parser} {c : ℕ}, (q.capture adapter load_frame c >>= fun q' =>
      pure { q' with mode := .string }) = .ok p' → q.prefix_ = p.prefix_ →
      p'.prefix_ = p.prefix_ ∨ p'.prefix_ = [] ∨
        ∃ c, p'.prefix_ = p.prefix_ ++ [c] ∧ p'.mode = .string := by
    intro q c hc hq
    obtain ⟨q', hq', hp'⟩ := exists_of_bind_eq_ok hc
    obtain rfl := Except.ok.inj hp'
    obtain ⟨hsame | hmore, -⟩ := capture_kept hq'
    · exact .inl (hsame.trans hq)
    · exact .inr (.inr ⟨c, by rw [← hq]; exact hmore, rfl⟩)
  have hdefault : ∀ {q : Parser}, q.stepDefault load_frame byte = .ok p' →
      q.prefix_ = p.prefix_ → p'.prefix_ = p.prefix_ ∨ p'.prefix_ = [] ∨
        ∃ c, p'.prefix_ = p.prefix_ ++ [c] ∧ p'.mode = .string := by
    intro q hstep hq
    rcases stepDefault_kept hstep with hsame | hnone
    · exact .inl (hsame.trans hq)
    · exact .inr (.inl hnone)
  -- The modes in the order of the code.
  unfold Parser.step at h
  split at h
  next => split_ifs at h <;> obtain rfl := Except.ok.inj h <;> exact .inl rfl
  -- Inside a string.
  next hmode =>
    unfold Parser.string Parser.continueUtf8 at h
    dsimp only at h
    split_ifs at h
    · exact hcapture h rfl hmode
    · obtain rfl := Except.ok.inj h
      exact .inl rfl
    · exact .inl (endString_kept h)
    · obtain rfl := Except.ok.inj h
      exact .inl rfl
    · exact hcapture h rfl hmode
    all_goals
      obtain rfl := Except.ok.inj h
      exact .inl rfl
  -- After a backslash, and within a `\u` escape.
  next =>
    split at h
    · obtain rfl := Except.ok.inj h
      exact .inl rfl
    · split at h
      · exact hback h rfl
      · contradiction
  next =>
    split at h
    · contradiction
    · dsimp only at h
      split at h
      · exact hback h rfl
      · obtain rfl := Except.ok.inj h
        exact .inl rfl
  -- The end of a number closes it, and the byte is read again.
  next =>
    obtain ⟨⟨inside, q⟩, hq, h⟩ := exists_of_bind_eq_ok h
    have hsame : q.prefix_ = p.prefix_ := by
      obtain ⟨state, -, hq⟩ := exists_of_bind_eq_ok hq
      cases state with
      | none => rw [← (Prod.mk.inj (Except.ok.inj hq)).2]
      | some state => rw [← (Prod.mk.inj (Except.ok.inj hq)).2]
    dsimp only at h
    split at h
    · obtain rfl := Except.ok.inj h
      exact .inl hsame
    · exact hdefault h hsame
  next =>
    dsimp only at h
    split_ifs at h <;> obtain rfl := Except.ok.inj h <;> exact .inl rfl
  next => exact hdefault h rfl

/-- The mode `"string"` stands for a machine inside a string, and what is kept is the same. -/
theorem Represents.captured {m : Machine} (h : Represents load_frame p m) (hm : p.mode = .string) :
    ∃ s utf8, m.mode = .string s utf8 ∧ s.prefix_ = p.prefix_ := by
  obtain ⟨stack, facts, mode⟩ := m
  have hreads : p.Reads mode := h.mode
  cases mode with
  | string s utf8 =>
    cases utf8 with
    | none => exact ⟨s, none, rfl, by rw [← hreads.2.1]; rfl⟩
    | some utf8 => exact ⟨s, some utf8, rfl, by rw [← hreads.2.1]; rfl⟩
  | root | default =>
    rw [show p.mode = _ from hreads] at hm
    contradiction
  | escape | unicode | number | literal =>
    rw [hreads.1] at hm
    contradiction

/-! ## The frames of the machine -/

/-- The strings of the open frames are storable. -/
def FramesStorable (stack : List Frame) : Prop := ∀ frame ∈ stack, frame.Storable

/-- A frame with the same key and keys seen. -/
theorem Frame.Storable.of_eq {f g : Frame} (h : f.Storable) (hkey : g.key = f.key)
    (hseen : g.seen = f.seen) : g.Storable := by
  unfold Frame.Storable
  rw [hkey, hseen]
  exact h

/-- The key that ends is storable when what is kept of it is. -/
theorem endKey_storable {f g : Frame} {s : Captured} (hf : f.Storable)
    (hs : Storable s.prefix_) (h : endKey f s = .ok g) : g.Storable := by
  unfold endKey at h
  dsimp only at h
  have hkey : Storable (if (!s.truncated) = true then s.prefix_ else []) := by
    split
    · exact hs
    · exact storable_nil
  generalize (if (!s.truncated) = true then s.prefix_ else []) = key at h hkey
  split_ifs at h
  · obtain rfl := Except.ok.inj h
    refine ⟨hkey, fun k hk => ?_⟩
    rcases List.mem_append.mp hk with hmem | hmem
    · exact hf.2 k hmem
    · rw [List.mem_singleton.mp hmem]
      exact hkey
  · obtain rfl := Except.ok.inj h
    exact ⟨hkey, hf.2⟩

/-- The end of a string value keeps the key and the keys seen. -/
theorem endText_storable {f g : Frame} {facts facts' : Facts} {s : Captured} (hf : f.Storable)
    (h : endText U adapter f facts s = .ok (g, facts')) : g.Storable := by
  unfold endText at h
  split_ifs at h <;> obtain ⟨rfl, rfl⟩ := Prod.mk.inj (Except.ok.inj h) <;>
    exact hf.of_eq rfl rfl

/-- A value that begins keeps the frames storable. -/
theorem beginValue_storable {f : Frame} {rest : List Frame} {facts : Facts} {byte : UInt8}
    {m : Machine} (hstack : FramesStorable (f :: rest))
    (h : beginValue f rest facts byte = .ok m) : FramesStorable m.stack := by
  have hnew : ∀ {kind scope state}, Frame.Storable { kind, scope, state } := by
    intro kind scope state
    exact ⟨storable_nil, by simp⟩
  have hparent : Frame.Storable { f with state := .commaOrEnd } :=
    (hstack f List.mem_cons_self).of_eq rfl rfl
  have hopen : (Frame.openArray { f with state := .commaOrEnd }).Storable := by
    unfold Frame.openArray
    split
    · exact hparent.of_eq rfl rfl
    · exact hparent
  have hrest : FramesStorable rest := fun g hg => hstack g (List.mem_cons_of_mem _ hg)
  obtain ⟨-, rfl⟩ | ⟨-, rfl⟩ | ⟨-, rfl⟩ | ⟨state, -, rfl⟩ | ⟨l, w, -, -, rfl⟩ := beginValue_cases h
  · exact List.forall_mem_cons.mpr ⟨hnew, List.forall_mem_cons.mpr ⟨hparent, hrest⟩⟩
  · exact List.forall_mem_cons.mpr ⟨hnew, List.forall_mem_cons.mpr ⟨hopen, hrest⟩⟩
  · exact List.forall_mem_cons.mpr ⟨hparent, hrest⟩
  · exact List.forall_mem_cons.mpr ⟨hparent, hrest⟩
  · exact List.forall_mem_cons.mpr ⟨hparent, hrest⟩

/-- A byte between tokens keeps the frames storable. -/
theorem stepDefault_storable {m m' : Machine} {byte : UInt8} (hstack : FramesStorable m.stack)
    (h : m.stepDefault byte = .ok m') : FramesStorable m'.stack := by
  obtain ⟨stack, facts, mode⟩ := m
  unfold Machine.stepDefault at h
  split at h
  · obtain rfl := Except.ok.inj h
    exact hstack
  · match stack, hstack with
    | [], _ => contradiction
    | f :: rest, hstack =>
      have hrest : FramesStorable rest := fun g hg => hstack g (List.mem_cons_of_mem _ hg)
      have hset : ∀ {state}, Except.ok ⟨{ f with state } :: rest, facts, .default⟩ =
          (Except.ok m' : MachineResult) → FramesStorable m'.stack := by
        intro state hg
        obtain rfl := Except.ok.inj hg
        exact List.forall_mem_cons.mpr ⟨(hstack f List.mem_cons_self).of_eq rfl rfl, hrest⟩
      have hkey : Except.ok ⟨f :: rest, facts, .string ⟨.key, [], false⟩ none⟩ =
          (Except.ok m' : MachineResult) → FramesStorable m'.stack := by
        intro hk
        obtain rfl := Except.ok.inj hk
        exact hstack
      have hpop : popFrame f rest facts = .ok m' → FramesStorable m'.stack := by
        intro hp
        unfold popFrame at hp
        split at hp
        · contradiction
        · obtain rfl := Except.ok.inj hp
          exact hrest
      dsimp only at h
      -- Each branch pops, begins a value or a key, or changes the frame's state.
      split at h <;> (repeat' split at h) <;> first
        | contradiction
        | exact hpop h
        | exact beginValue_storable hstack h
        | exact hkey h
        | exact hset h

/-- The end of a string keeps the frames storable, when what is kept of it is. -/
theorem endString_storable {m m' : Machine} {s : Captured} (hstack : FramesStorable m.stack)
    (hs : Storable s.prefix_) (h : m.endString U adapter s = .ok m') :
    FramesStorable m'.stack := by
  obtain ⟨stack, facts, mode⟩ := m
  match stack, hstack with
  | [], _ => contradiction
  | f :: rest, hstack =>
    have hf := hstack f List.mem_cons_self
    have hrest : FramesStorable rest := fun g hg => hstack g (List.mem_cons_of_mem _ hg)
    unfold Machine.endString at h
    dsimp only at h
    split at h
    · split at h
      next hend =>
        obtain rfl := Except.ok.inj h
        exact List.forall_mem_cons.mpr ⟨endKey_storable hf hs hend, hrest⟩
      next => contradiction
    · split at h
      next hend =>
        obtain rfl := Except.ok.inj h
        exact List.forall_mem_cons.mpr ⟨endText_storable hf hend, hrest⟩
      next => contradiction

/-- A byte keeps the frames storable, when what is kept of the string that is read is. -/
theorem step_storable {m m' : Machine} {byte : UInt8} (hstack : FramesStorable m.stack)
    (hs : ∀ s utf8, m.mode = .string s utf8 → Storable s.prefix_)
    (h : m.step U adapter byte = .ok m') : FramesStorable m'.stack := by
  have hcapture : ∀ {s c}, m.capture adapter s c = .ok m' → FramesStorable m'.stack := by
    intro s c hc
    unfold Machine.capture at hc
    split at hc
    · contradiction
    · obtain rfl := Except.ok.inj hc
      exact hstack
  have hmode : ∀ {mode}, Except.ok { m with mode } = (Except.ok m' : MachineResult) →
      FramesStorable m'.stack := by
    intro mode hm
    obtain rfl := Except.ok.inj hm
    exact hstack
  unfold Machine.step at h
  split at h
  next =>
    split_ifs at h
    · obtain rfl := Except.ok.inj h
      exact hstack
    · exact hmode h
  next s hstring =>
    unfold Machine.stepString at h
    split_ifs at h
    · exact endString_storable hstack (hs s none hstring) h
    · exact hmode h
    · exact hcapture h
    · exact hmode h
    · exact hmode h
    · exact hmode h
  next s utf8 hstring =>
    unfold Machine.stepUtf8 at h
    dsimp only at h
    split_ifs at h
    · exact hcapture h
    · exact hmode h
  next =>
    split at h
    · exact hmode h
    · split at h
      · exact hcapture h
      · contradiction
  next =>
    split_ifs at h
    · exact hcapture h
    · exact hmode h
  next =>
    split at h
    · exact hmode h
    · exact stepDefault_storable hstack h
    · contradiction
  next =>
    split at h
    · contradiction
    · split_ifs at h
      · exact hmode h
      · exact hmode h
  next => exact stepDefault_storable hstack h

/-! ## From one chunk to the next -/

/-- What the parser and its machine keep, and what is stored of it. -/
structure Stored (p : Parser) (m : Machine) : Prop where
  kept : Storable p.prefix_
  frames : FramesStorable m.stack

/-- Frames that the dictionary holds are on the stack. -/
theorem mem_of_holds {frames : ℕ → Option Frame} : ∀ {stack : List Frame}, Holds frames stack →
    ∀ {i : ℕ} {f : Frame}, i < stack.length → frames i = some f → f ∈ stack
  | top :: rest, h, i, f, hi, hf => by
    by_cases heq : i = rest.length
    · rw [heq, h.1] at hf
      obtain rfl := Option.some.inj hf
      exact List.mem_cons_self
    · rw [List.length_cons] at hi
      exact List.mem_cons_of_mem _ (mem_of_holds h.2 (by omega) hf)

/-- What is stored after a chunk stands for the machine: the checkpoint, with the frames that were
held written over those that were not popped. -/
theorem represents_stored {m : Machine} (h : Represents load_frame p m) (hs : Stored p m) :
    ∃ frames, upsertFrames p.changedFrames p.depth (deleteFrames p.deleted_from load_frame) =
        some frames ∧ storeCheckpoint p.checkpoint = some p.checkpoint ∧
      Represents frames (Parser.init (some p.checkpoint)) m := by
  have hchanged : ∀ i < p.depth, ∀ f, p.changedFrames i = some f → f.Storable := by
    intro i hi f hf
    unfold Parser.changedFrames at hf
    rw [if_pos hi] at hf
    have hmem : f ∈ m.stack := by
      refine mem_of_holds h.stack.frames (i := i) (by rw [← h.stack.depth]; exact hi) ?_
      simp [hf]
    exact hs.frames f hmem
  refine ⟨_, upsertFrames_of_storable p.depth hchanged _, ?_, ⟨⟨h.stack.depth, ?_, ?_⟩, h.facts,
    h.mode, h.inside⟩⟩
  · unfold storeCheckpoint Parser.checkpoint
    rw [storeString_of_storable hs.kept]
    rfl
  · refine h.stack.frames.congr fun i hi => ?_
    rw [← h.stack.depth] at hi
    simp only [Parser.init, Option.none_or, if_pos hi, Parser.changedFrames]
    -- A frame that was deleted and is open again is held.
    unfold deleteFrames
    cases hd : p.deleted_from with
    | none => rfl
    | some d =>
      by_cases hdi : d ≤ i
      · obtain ⟨f, hf⟩ := Option.isSome_iff_exists.mp (h.stack.held d hd i hdi hi)
        simp [hf]
      · simp [hdi]
  · intro d hd
    simp [Parser.init] at hd

/-- A byte that parser and machine read keeps what they hold storable. -/
theorem stored_step {m m' : Machine} {byte : UInt8} (h : Stored p m)
    (hs : ∀ s utf8, m.mode = .string s utf8 → Storable s.prefix_)
    (hs' : ∀ s utf8, m'.mode = .string s utf8 → Storable s.prefix_)
    (hp : p.step U adapter load_frame byte = .ok p') (hm : m.step U adapter byte = .ok m')
    (hrep : Represents load_frame p' m') : Stored p' m' := by
  refine ⟨?_, step_storable h.frames hs hm⟩
  rcases step_kept hp with hsame | hnone | ⟨c, -, hmode⟩
  · rw [hsame]
    exact h.kept
  · rw [hnone]
    exact storable_nil
  · obtain ⟨s, utf8, hstring, hkept⟩ := hrep.captured hmode
    rw [← hkept]
    exact hs' s utf8 hstring

/-- Two texts, one after the other. -/
theorem run_append (m : Machine) (a b : List UInt8) :
    m.run U adapter (a ++ b) = m.run U adapter a >>= fun m => m.run U adapter b :=
  List.foldlM_append

/-- What a machine keeps of the string it is in is what the parser of the whole text does. -/
theorem captures_machine {bytes pre : List UInt8} (h : CapturesStorable U adapter bytes)
    (hpre : pre <+: bytes) {m : Machine} (hm : Machine.run U adapter .initial pre = .ok m)
    (s : Captured) (utf8 : Option Utf8) (hmode : m.mode = .string s utf8) :
    Storable s.prefix_ := by
  have hagrees := feed_agrees U adapter pre (represents_init fun _ => none)
  rw [hm] at hagrees
  match hp : (Parser.init none).feed U adapter (fun _ => none) pre with
  | .error e =>
    rw [hp] at hagrees
    exact hagrees.elim
  | .ok q =>
    rw [hp] at hagrees
    have hreads := Represents.mode hagrees
    rw [hmode] at hreads
    have hcaptured : q.captured = s := by cases utf8 <;> exact hreads.2.1
    rw [← hcaptured]
    exact h pre q hpre hp

/-- A chunk keeps what parser and machine hold storable. -/
theorem stored_feed {bytes : List UInt8} (h : CapturesStorable U adapter bytes) :
    ∀ (chunk : List UInt8) {pre : List UInt8} {p p' : Parser} {m m' : Machine},
    pre ++ chunk <+: bytes → Machine.run U adapter .initial pre = .ok m →
    Represents load_frame p m → Stored p m → p.feed U adapter load_frame chunk = .ok p' →
    m.run U adapter chunk = .ok m' → Stored p' m'
  | [], pre, p, p', m, m', _, _, _, hstored, hp, hm => by
    obtain rfl := Except.ok.inj hp
    obtain rfl := Except.ok.inj hm
    exact hstored
  | b :: chunk, pre, p, p', m, m', hpre, hrun, hrep, hstored, hp, hm => by
    obtain ⟨p₁, hp₁, hp⟩ := exists_of_bind_eq_ok hp
    obtain ⟨m₁, hm₁, hm⟩ := exists_of_bind_eq_ok hm
    dsimp only at hp₁ hm₁
    have hrep₁ := step_agrees U adapter hrep b
    rw [hp₁, hm₁] at hrep₁
    have hrun₁ : Machine.run U adapter .initial (pre ++ [b]) = .ok m₁ := by
      rw [run_append, hrun]
      show (m.step U adapter b >>= _) = _
      rw [hm₁]
      rfl
    have hpre₁ : pre ++ [b] ++ chunk <+: bytes := by simpa using hpre
    have hshort : pre <+: bytes := (List.prefix_append _ _).trans hpre
    have hstored₁ := stored_step hstored (captures_machine h hshort hrun)
      (captures_machine h ((List.prefix_append _ _).trans hpre₁) hrun₁) hp₁ hm₁ hrep₁
    exact stored_feed h chunk hpre₁ hrun₁ hrep₁ hstored₁ hp hm

/-! ## The run of an upload -/

/-- The upload waits for a chunk: its row is pending there, and what is stored stands for the
machine that read all chunks before it. -/
structure Resumes (U : UnicodeData) (s : Start) (db : Database) (i : ℕ) (row : Upload)
    (m : Machine) : Prop where
  upload : db.upload = some row
  status : row.status = .pending
  next_chunk : row.next_chunk = i
  adapter : row.adapter = s.adapter
  chunk_count : row.chunk_count = s.chunks.length
  chunks : db.chunks = fun i => s.chunks[i]?
  recipes : db.recipes = s.recipes
  read : Machine.run U s.adapter .initial (s.chunks.take i).flatten = .ok m
  represents : Represents db.frames (Parser.init (row.validation_state.map (·.parser))) m
  stored : Stored (Parser.init (row.validation_state.map (·.parser))) m

/-- A new upload waits for its first chunk. -/
theorem resumes_start (s : Start) :
    ∃ upload, Resumes U s s.database 0 upload .initial := by
  refine ⟨_, rfl, rfl, rfl, rfl, rfl, rfl, rfl, rfl, represents_init _, storable_nil, ?_⟩
  intro f hf
  rw [Machine.initial, List.mem_singleton] at hf
  subst hf
  exact ⟨storable_nil, by simp [rootFrame]⟩

/-- An upload that is settled stays as it is. -/
theorem process_settled {sha256 : List UInt8 → List UInt8} {upload_id : ℕ} {db : Database}
    {upload : Upload} (hu : db.upload = some upload) (hs : upload.status ≠ .pending) :
    ∀ indices : List ℕ, indices.foldlM (process U sha256 upload_id) db = .ok db
  | [] => rfl
  | i :: indices => by
    have hstep : process U sha256 upload_id db i = .ok db := by
      unfold process
      rw [hu]
      simp [hs]
    rw [List.foldlM_cons, hstep]
    exact process_settled hu hs indices

/-- A new upload can be published. -/
theorem publish_fresh (s : Start) {db : Database} (hr : db.recipes = s.recipes) (upload : Upload)
    (revision : List UInt8) :
    ∃ db' upload', publish db s.upload_id upload revision = .ok db' ∧ db'.upload = some upload' ∧
      upload'.status = .published := by
  have hfresh : (db.recipes.any fun r => r.upload_id = s.upload_id) = false := by
    rw [hr, List.any_eq_false]
    intro r hmem
    simpa using s.fresh r hmem
  unfold publish
  dsimp only
  rw [hfresh]
  split
  · exact ⟨_, _, rfl, rfl, rfl⟩
  · exact ⟨_, _, rfl, rfl, rfl⟩

/-- Accepting a text whose first part goes through. -/
theorem accepts_append_iff {m m' : Machine} {a : List UInt8} (h : m.run U adapter a = .ok m')
    (b : List UInt8) : Accepts U adapter m (a ++ b) ↔ Accepts U adapter m' b := by
  unfold Accepts
  rw [run_append, h]
  rfl

/-- A text whose first part raises is not accepted. -/
theorem not_accepts_append {m : Machine} {a : List UInt8} {e : String}
    (h : m.run U adapter a = .error e) (b : List UInt8) : ¬Accepts U adapter m (a ++ b) := by
  rintro ⟨m', hm', -⟩
  rw [run_append, h] at hm'
  contradiction

/-- At the end of the text the machine is looked at. -/
theorem accepts_nil_iff {m : Machine} : Accepts U adapter m [] ↔ m.Done := by
  constructor
  · rintro ⟨m', hm', hdone⟩
    obtain rfl := Except.ok.inj hm'
    exact hdone
  · intro hdone
    exact ⟨m, rfl, hdone⟩

section Chunk

variable {s : Start} {db : Database} {i : ℕ} {row : Upload} {m : Machine}
  (h : CapturesStorable U s.adapter s.chunks.flatten) (hres : Resumes U s db i row m)
  (hi : i < s.chunks.length)

include h hres hi

/-- A chunk raises only if the text is not accepted; otherwise parser and machine have read it, and
have accepted the text if it was the last. -/
theorem feedChunk_cases :
    (∃ text, feedChunk U row db.frames i s.chunks[i] = .error text ∧
      ¬Accepts U s.adapter m (s.chunks.drop i).flatten) ∨
    ∃ p m', feedChunk U row db.frames i s.chunks[i] = .ok p ∧
      m.run U s.adapter s.chunks[i] = .ok m' ∧ Represents db.frames p m' ∧ Stored p m' ∧
      (i + 1 = s.chunks.length → Accepts U s.adapter m (s.chunks.drop i).flatten) := by
  have hdrop : (s.chunks.drop i).flatten = s.chunks[i] ++ (s.chunks.drop (i + 1)).flatten := by
    rw [List.drop_eq_getElem_cons hi, List.flatten_cons]
  have hpre : (s.chunks.take i).flatten ++ s.chunks[i] ++ (s.chunks.drop (i + 1)).flatten =
      s.chunks.flatten := by
    rw [List.append_assoc, ← hdrop, ← List.flatten_append, List.take_append_drop]
  have hagrees := feed_agrees U s.adapter s.chunks[i] hres.represents
  have hstored : ∀ p m', (Parser.init (row.validation_state.map (·.parser))).feed U s.adapter
      db.frames s.chunks[i] = .ok p → m.run U s.adapter s.chunks[i] = .ok m' → Stored p m' :=
    fun p m' => stored_feed h s.chunks[i] ⟨_, hpre⟩ hres.read hres.represents hres.stored
  unfold feedChunk
  rw [hres.adapter, hres.chunk_count, hdrop]
  generalize (Parser.init (row.validation_state.map (·.parser))).feed U s.adapter db.frames
    s.chunks[i] = fed at hagrees hstored ⊢
  match fed, hm : m.run U s.adapter s.chunks[i], hagrees with
  | .error e, .error e', _ => exact .inl ⟨e, rfl, not_accepts_append hm _⟩
  | .ok p, .ok m', hrep =>
    rw [accepts_append_iff hm]
    by_cases hlast : i + 1 = s.chunks.length
    · -- The last chunk: the parser finishes or raises.
      have hnone : (s.chunks.drop (i + 1)).flatten = [] := by
        rw [hlast, List.drop_length]
        rfl
      rw [hnone, accepts_nil_iff, ← finish_eq_ok_iff hrep]
      simp only [bind, Except.bind, if_pos hlast]
      cases hfinish : p.finish with
      | ok u => exact .inr ⟨p, m', rfl, rfl, hrep, hstored p m' rfl hm, fun _ => rfl⟩
      | error e => exact .inl ⟨e, rfl, by simp⟩
    · refine .inr ⟨p, m', ?_, rfl, hrep, hstored p m' rfl hm, fun hc => absurd hc hlast⟩
      simp only [bind, Except.bind, if_neg hlast]
      rfl

/-- A chunk settles the upload as its text deserves, or the upload waits for the next one. -/
theorem process_step (sha256 : List UInt8 → List UInt8) :
    ∃ db' row', process U sha256 s.upload_id db i = .ok db' ∧ db'.upload = some row' ∧
      ((row'.status = .rejected ∧ ¬Accepts U s.adapter m (s.chunks.drop i).flatten) ∨
      (row'.status = .published ∧ i + 1 = s.chunks.length ∧
        Accepts U s.adapter m (s.chunks.drop i).flatten) ∨
      (i + 1 < s.chunks.length ∧ ∃ m', m.run U s.adapter s.chunks[i] = .ok m' ∧
        Resumes U s db' (i + 1) row' m')) := by
  have hrow : db.chunks i = some s.chunks[i] := by
    rw [hres.chunks]
    exact List.getElem?_eq_getElem hi
  unfold process
  rw [hres.upload]
  dsimp only
  rw [if_neg (by simp [hres.status, hres.next_chunk]), hrow]
  dsimp only
  rcases feedChunk_cases h hres hi with ⟨text, hfeed, hno⟩ | ⟨p, m', hfeed, hm, hrep, hstored, hyes⟩
  · rw [hfeed]
    refine ⟨_, _, rfl, rfl, .inl ⟨?_, hno⟩⟩
    rfl
  · rw [hfeed]
    dsimp only
    rw [hres.chunk_count]
    by_cases hlast : i + 1 = s.chunks.length
    · rw [if_pos hlast]
      obtain ⟨db', row', hpublish, hrow', hstatus⟩ := publish_fresh s hres.recipes row _
      exact ⟨db', row', hpublish, hrow', .inr (.inl ⟨hstatus, hlast, hyes hlast⟩)⟩
    · rw [if_neg hlast]
      obtain ⟨frames, hframes, hcheck, hresumed⟩ := represents_stored hrep hstored
      unfold saveState
      rw [hframes, hcheck]
      refine ⟨_, _, rfl, rfl, .inr (.inr ⟨by omega, m', hm, ?_⟩)⟩
      refine ⟨rfl, hres.status, rfl, hres.adapter, hres.chunk_count, hres.chunks, hres.recipes, ?_,
        hresumed, hstored.kept, hstored.frames⟩
      have htake : (s.chunks.take (i + 1)).flatten =
          (s.chunks.take i).flatten ++ s.chunks[i] := by
        rw [List.take_succ_eq_append_getElem hi, List.flatten_append]
        simp
      rw [htake, run_append, hres.read]
      exact hm

end Chunk

/-- From where the upload waits, the remaining chunks settle it as their text deserves. -/
theorem process_rest (sha256 : List UInt8 → List UInt8) {s : Start}
    (h : CapturesStorable U s.adapter s.chunks.flatten) (n : ℕ) :
    ∀ {i : ℕ} {db : Database} {row : Upload} {m : Machine}, Resumes U s db i row m →
    i + (n + 1) = s.chunks.length →
    ∃ db' row', (List.range' i (n + 1)).foldlM (process U sha256 s.upload_id) db = .ok db' ∧
      db'.upload = some row' ∧
      (row'.status = .rejected ∧ ¬Accepts U s.adapter m (s.chunks.drop i).flatten ∨
      row'.status = .published ∧ Accepts U s.adapter m (s.chunks.drop i).flatten) := by
  induction n with
  | zero =>
    intro i db row m hres hlen
    obtain ⟨db', row', hstep, hrow', hcases⟩ := process_step h hres (by omega) sha256
    rw [show List.range' i (0 + 1) = [i] from rfl, List.foldlM_cons, hstep]
    rcases hcases with hno | ⟨hstatus, -, hyes⟩ | ⟨hlt, -⟩
    · exact ⟨db', row', rfl, hrow', .inl hno⟩
    · exact ⟨db', row', rfl, hrow', .inr ⟨hstatus, hyes⟩⟩
    · omega
  | succ n ih =>
    intro i db row m hres hlen
    obtain ⟨db', row', hstep, hrow', hcases⟩ := process_step h hres (by omega) sha256
    rw [List.range'_succ, List.foldlM_cons, hstep]
    rcases hcases with ⟨hstatus, hno⟩ | ⟨-, hlast, -⟩ | ⟨hlt, m', hm, hnext⟩
    · exact ⟨db', row', process_settled hrow' (by simp [hstatus]) _, hrow', .inl ⟨hstatus, hno⟩⟩
    · omega
    · obtain ⟨db'', row'', hrest, hrow'', hfate⟩ := ih hnext (by omega)
      refine ⟨db'', row'', hrest, hrow'', ?_⟩
      rw [List.drop_eq_getElem_cons (by omega), List.flatten_cons, accepts_append_iff hm]
      exact hfate

/-- Where nothing unstorable is captured, the upload ends as the whole text does. -/
theorem sameFate_of_capturesStorable {sha256 : List UInt8 → List UInt8} (s : Start)
    (h : CapturesStorable U s.adapter s.chunks.flatten) : SameFate U sha256 s := by
  obtain ⟨row, hres⟩ := resumes_start (U := U) s
  obtain ⟨n, hn⟩ := Nat.exists_eq_succ_of_ne_zero (mt List.length_eq_zero_iff.mp s.chunks_ne_nil)
  obtain ⟨db, row', hrun, hrow', hfate⟩ :=
    process_rest sha256 h n hres (by omega)
  rw [List.drop_zero, ← parse_ok_iff fun _ => none] at hfate
  refine ⟨db, row', ?_, hrow', ?_⟩
  · unfold Start.run
    rw [List.range_eq_range', hn]
    exact hrun
  · cases hparse : parse U s.adapter (fun _ => none) s.chunks.flatten with
    | ok u =>
      rw [hparse] at hfate
      rcases hfate with ⟨-, hno⟩ | ⟨hstatus, -⟩
      · exact absurd rfl hno
      · simp [hstatus]
    | error e =>
      rw [hparse] at hfate
      rcases hfate with ⟨hstatus, -⟩ | ⟨-, hyes⟩
      · simp [hstatus]
      · contradiction

/-- A text in two chunks. -/
def Start.halves (adapter : String) (first second : List UInt8) : Start where
  upload_id := 0
  adapter := adapter
  published_by := none
  chunks := [first, second]
  recipes := []
  chunks_ne_nil := by simp
  fresh := by simp

/-- A first chunk whose state the database refuses leaves the upload pending. -/
theorem run_halves_refused {sha256 : List UInt8 → List UInt8} {first : List UInt8}
    (hfeed : (Parser.init none).feed U adapter (fun _ => none) first = .ok p)
    (hstore : storeString p.prefix_ = none) (second : List UInt8) :
    (Start.halves adapter first second).run U sha256 = .error .jsonb := by
  have hcheck : storeCheckpoint p.checkpoint = none := by
    unfold storeCheckpoint Parser.checkpoint
    rw [hstore]
    rfl
  have hsave : ∀ db row digest, saveState db row 0 p digest = .error .jsonb := by
    intro db row digest
    unfold saveState
    rw [hcheck]
    cases upsertFrames p.changedFrames p.depth (deleteFrames p.deleted_from db.frames) <;> rfl
  have hfirst : process U sha256 0 (Start.halves adapter first second).database 0 =
      .error .jsonb := by
    unfold process
    simp only [Start.database, Start.halves, feedChunk]
    simp [hfeed, bind, Except.bind, pure, Except.pure, hsave]
  unfold Start.run
  show (process U sha256 0 (Start.halves adapter first second).database 0 >>= _) = _
  rw [hfirst]
  rfl

/-- Chunking keeps the fate of every upload of a text, however it is split, exactly when nothing is
captured that the database does not give back. -/
theorem chunking_keeps_fate (U : UnicodeData) (sha256 : List UInt8 → List UInt8)
    (adapter : String) (bytes : List UInt8) :
    (∀ s : Start, s.adapter = adapter → s.chunks.flatten = bytes → SameFate U sha256 s) ↔
      CapturesStorable U adapter bytes := by
  constructor
  · intro hall pre
    -- One byte more: a character that is not storable is the last one captured, and the text is
    -- cut there.
    induction pre using List.reverseRecOn with
    | nil =>
      intro p _ hp
      obtain rfl := Except.ok.inj hp
      exact storable_nil
    | append_singleton pre b ih =>
      intro p hpre hp
      have hfeed := hp
      unfold Parser.feed at hp
      rw [List.foldlM_append] at hp
      obtain ⟨q, hq, hlast⟩ := exists_of_bind_eq_ok hp
      obtain ⟨p₁, hstep, hp₁⟩ := exists_of_bind_eq_ok hlast
      obtain rfl : p₁ = p := Except.ok.inj hp₁
      have hbefore := ih q ((List.prefix_append _ _).trans hpre) hq
      rcases step_kept hstep with hsame | hnone | ⟨c, hmore, -⟩
      · rw [hsame]
        exact hbefore
      · rw [hnone]
        exact storable_nil
      · by_contra hbad
        have hc : ¬(c ≠ 0 ∧ isSurrogate c = false) := by
          intro hgood
          apply hbad
          intro u hu
          rw [hmore] at hu
          rcases List.mem_append.mp hu with hmem | hmem
          · exact hbefore u hmem
          · rw [List.mem_singleton.mp hmem]
            exact hgood
        obtain ⟨rest, rfl⟩ := hpre
        have hstore : storeString p₁.prefix_ = none := by
          rw [hmore]
          exact storeString_append_singleton hbefore hc
        obtain ⟨db, row, hrun, -⟩ :=
          hall (Start.halves adapter (pre ++ [b]) rest) rfl (by simp [Start.halves])
        rw [run_halves_refused hfeed hstore rest] at hrun
        contradiction
  · rintro h s rfl rfl
    exact sameFate_of_capturesStorable s h

/-- A recipe for the adapter `a` with a key U+0000, cut after the key's character. -/
def nulUpload : Start :=
  .halves "a" (ascii "\x7b\"\\u0000")
    (ascii "\":0,\"name\":\"a\",\"matches\":[\"https://a\"],\"fields\":[]\x7d")

/-- The whole text is read without an error, and yet the database refuses the checkpoint, and the
upload stays pending. -/
theorem nul_in_key_stays_pending :
    parse deseretData "a" (fun _ => none) nulUpload.chunks.flatten = .ok () ∧
      nulUpload.run deseretData (fun _ => seed) = .error .jsonb ∧
      ¬SameFate deseretData (fun _ => seed) nulUpload := by
  have hkept : ((Parser.init none).feed deseretData "a" (fun _ => none)
      (ascii "\x7b\"\\u0000")).map (·.prefix_) = .ok [0] := by decide
  have hrun : nulUpload.run deseretData (fun _ => seed) = .error .jsonb := by
    cases hfeed : (Parser.init none).feed deseretData "a" (fun _ => none)
        (ascii "\x7b\"\\u0000") with
    | error e =>
      rw [hfeed] at hkept
      contradiction
    | ok p =>
      rw [hfeed] at hkept
      have hstore : storeString p.prefix_ = none := by
        rw [show p.prefix_ = [0] from Except.ok.inj hkept]
        rfl
      exact run_halves_refused hfeed hstore _
  refine ⟨by decide +kernel, hrun, ?_⟩
  rintro ⟨db, row, hok, -⟩
  rw [hrun] at hok
  contradiction

end

end JobScripts.Recipe
