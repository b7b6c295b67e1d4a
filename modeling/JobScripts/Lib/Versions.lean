import Mathlib.Data.List.Basic

/-!
# Row versions of a transaction

A transaction that writes a table under read committed leaves the committed rows alone and keeps row
versions of its own: it hides the rows it replaced or deleted and adds the rows it wrote. What it reads
is `Versions.view`, the committed rows as they then stand under its own versions, and committing makes
the view the table. A `Change` is what one statement does to a table, with the transition tables that
its statement-level triggers see (`Change.old` and `Change.new`). Rows are told apart by a key, their
primary key.
-/

namespace JobScripts.Lib

variable {R : Type*}

/-- What a statement does to the rows of one table: new rows, rows written over those of the same key,
or rows deleted by their keys. -/
inductive Change (R : Type*)
  | insert (rows : List R)
  | update (rows : List R)
  | delete (keys : List ℕ)

/-- The row versions of a transaction in flight: the keys of the rows it replaced or deleted, and the
rows it wrote. -/
structure Versions (R : Type*) where
  hidden : List ℕ := []
  added : List R := []

namespace Change

/-- The keys that a statement takes: those of its rows. -/
def keys (key : R → ℕ) : Change R → List ℕ
  | insert rows => rows.map key
  | update rows => rows.map key
  | delete ks => ks

/-- The keys whose earlier rows a statement replaces or deletes. -/
def replaced (key : R → ℕ) : Change R → List ℕ
  | insert _ => []
  | update rows => rows.map key
  | delete ks => ks

/-- The transition table `OLD TABLE`: the rows that the statement replaces or deletes. -/
def old (key : R → ℕ) (ch : Change R) (table : List R) : List R :=
  table.filter fun r => key r ∈ ch.replaced key

/-- The transition table `NEW TABLE`: the rows that the statement writes. -/
def new : Change R → List R
  | insert rows => rows
  | update rows => rows
  | delete _ => []

/-- A statement can run: rows inserted have keys of their own, rows updated or deleted are there, and
no key is locked by another transaction. -/
def Admitted (key : R → ℕ) (ch : Change R) (table : List R) (v : Versions R) (view : List R)
    (locked : List ℕ) : Prop :=
  (ch.keys key).Nodup ∧
  match ch with
  | insert rows => ∀ k ∈ rows.map key,
      k ∉ table.map key ∧ k ∉ v.hidden ∧ k ∉ v.added.map key ∧ k ∉ locked
  | update rows => ∀ k ∈ rows.map key, k ∈ view.map key ∧ k ∉ locked
  | delete ks => ∀ k ∈ ks, k ∈ view.map key ∧ k ∉ locked

/-- Whether a statement can run is decidable. -/
instance (key : R → ℕ) (ch : Change R) (table : List R) (v : Versions R) (view : List R)
    (locked : List ℕ) : Decidable (ch.Admitted key table v view locked) :=
  match ch with
  | insert rows => inferInstanceAs (Decidable ((rows.map key).Nodup ∧ ∀ k ∈ rows.map key,
      k ∉ table.map key ∧ k ∉ v.hidden ∧ k ∉ v.added.map key ∧ k ∉ locked))
  | update rows => inferInstanceAs (Decidable ((rows.map key).Nodup ∧ ∀ k ∈ rows.map key,
      k ∈ view.map key ∧ k ∉ locked))
  | delete ks => inferInstanceAs (Decidable (ks.Nodup ∧ ∀ k ∈ ks, k ∈ view.map key ∧ k ∉ locked))

/-- The keys that a statement replaces are among those it takes. -/
theorem mem_keys_of_replaced {key : R → ℕ} {ch : Change R} {k : ℕ} (h : k ∈ ch.replaced key) :
    k ∈ ch.keys key :=
  match ch, h with
  | update _, h => h
  | delete _, h => h

/-- The keys of the rows that a statement writes are among those it takes. -/
theorem mem_keys_of_new {key : R → ℕ} {ch : Change R} {r : R} (h : r ∈ ch.new) :
    key r ∈ ch.keys key :=
  match ch, h with
  | insert _, h => List.mem_map_of_mem h
  | update _, h => List.mem_map_of_mem h

/-- The keys of a statement that can run are locked by no other transaction. -/
theorem Admitted.not_locked {key : R → ℕ} {ch : Change R} {table : List R} {v : Versions R}
    {view : List R} {locked : List ℕ} (h : ch.Admitted key table v view locked) {k : ℕ}
    (hk : k ∈ ch.keys key) : k ∉ locked := by
  obtain ⟨-, h⟩ := h
  match ch, h, hk with
  | insert rows, h, hk => exact (h k hk).2.2.2
  | update rows, h, hk => exact (h k hk).2
  | delete ks, h, hk => exact (h k hk).2

end Change

namespace Versions

variable {key : R → ℕ} {v : Versions R} {table : List R} {ch : Change R}

/-- The versions after one more statement. -/
def write (key : R → ℕ) (v : Versions R) (ch : Change R) : Versions R where
  hidden := v.hidden ++ ch.replaced key
  added := v.added.filter (fun r => key r ∉ ch.replaced key) ++ ch.new

/-- What the transaction reads: the committed rows that it does not hide, and its own. -/
def view (key : R → ℕ) (v : Versions R) (table : List R) : List R :=
  table.filter (fun r => key r ∉ v.hidden) ++ v.added

/-- The keys of the rows that the transaction has written, which others cannot take. -/
def touched (key : R → ℕ) (v : Versions R) : List ℕ :=
  v.hidden ++ v.added.map key

/-- A row read is a committed row that is not hidden, or one of the transaction's own. -/
theorem mem_view {r : R} :
    r ∈ v.view key table ↔ (r ∈ table ∧ key r ∉ v.hidden) ∨ r ∈ v.added := by
  unfold view
  simp

/-- A row added after a statement was added before it and not replaced, or is one that it wrote. -/
theorem mem_added_write {r : R} (h : r ∈ (v.write key ch).added) :
    (r ∈ v.added ∧ key r ∉ ch.replaced key) ∨ r ∈ ch.new := by
  unfold write at h
  simpa using h

/-- A committed row hidden after a statement was hidden before it or is in its `OLD TABLE`. -/
theorem mem_hidden_write {r : R} (hr : r ∈ table) (h : key r ∈ (v.write key ch).hidden) :
    key r ∈ v.hidden ∨ r ∈ ch.old key (v.view key table) := by
  by_cases hv : key r ∈ v.hidden
  · exact .inl hv
  · right
    unfold write at h
    have hrep : key r ∈ ch.replaced key := by
      simpa [hv] using h
    unfold Change.old
    simp only [List.mem_filter, decide_eq_true_eq]
    exact ⟨mem_view.2 (.inl ⟨hr, hv⟩), hrep⟩

/-- The keys taken after a statement are those taken before it and the statement's own. -/
theorem mem_touched_write {k : ℕ} (h : k ∈ (v.write key ch).touched key) :
    k ∈ v.touched key ∨ k ∈ ch.keys key := by
  unfold touched at h ⊢
  rw [List.mem_append] at h ⊢
  rcases h with h | h
  · rcases List.mem_append.1 h with h | h
    · exact .inl (.inl h)
    · exact .inr (Change.mem_keys_of_replaced h)
  · obtain ⟨r, hr, rfl⟩ := List.mem_map.1 h
    rcases mem_added_write hr with ⟨hr, -⟩ | hr
    · exact .inl (.inr (List.mem_map_of_mem hr))
    · exact .inr (Change.mem_keys_of_new hr)

/-- A condition that no row written or hidden by the transaction meets selects the same rows from its
view as from the table. -/
theorem filter_view {p : R → Bool} (hhid : ∀ r ∈ table, key r ∈ v.hidden → p r = false)
    (hadd : ∀ r ∈ v.added, p r = false) : (v.view key table).filter p = table.filter p := by
  unfold view
  rw [List.filter_append, List.filter_filter]
  have hnone : v.added.filter p = [] := by
    rw [List.filter_eq_nil_iff]
    intro r hr
    simp [hadd r hr]
  rw [hnone, List.append_nil]
  refine List.filter_congr fun r hr => ?_
  by_cases hh : key r ∈ v.hidden
  · simp [hh, hhid r hr hh]
  · simp [hh]

end Versions

end JobScripts.Lib
