import Mathlib.Data.List.Dedup
import Mathlib.Data.List.Sort
import Mathlib.Data.Set.Insert
import Mathlib.Logic.Function.Basic
import Mathlib.Order.SetNotation

/-!
# Selections of sources

`change`, `replace`, `join_group` and `delete_group` of `api/source_selection.py` on the rows of `user_sources`,
`user_source_groups` and `source_groups`, under READ COMMITTED. A statement finds its rows in what is committed when it
starts, and in what its transaction wrote; it then works on them one by one, in any order. It waits for a row that
another transaction wrote, and passes over one that is no longer the version that it found. A follow locks its bundle
against deletion until its transaction ends, and deleting a bundle deletes the follows that are there.
-/

namespace JobScripts.Catalog.Selection

/-! ## Meanings -/

/-- The members of the bundles and the switches of the sources, which stay as they are. -/
structure Offer where
  members : String → List String
  active : String → Bool

/-- The active members of a bundle. -/
def Offer.reach (c : Offer) (group : String) : List String := (c.members group).filter c.active

/-- A call. -/
inductive Op
  | change (user_id : ℕ) (add remove : List String)
  | replace (user_id : ℕ) (names : List String)
  | joinGroup (user_id : ℕ) (group : String) (only : Bool)
  | deleteGroup (name : String)
  deriving DecidableEq

/-- What each person holds. -/
abbrev Held := ℕ → Set String

/-- What a call means. -/
def Op.meaning (c : Offer) (H : Held) : Op → Held
  | .change u add remove =>
    Function.update H u ((H u ∪ {x | x ∈ add}) \ ({x | x ∈ remove} \ {x | x ∈ add}))
  | .replace u names => Function.update H u {x | x ∈ names}
  | .joinGroup u group only =>
    Function.update H u ((if only then {x ∈ H u | c.active x = false} else H u) ∪ {x | x ∈ c.reach group})
  | .deleteGroup _ => H

/-! ## Rows -/

/-- A row: of `users`, `user_sources`, `user_source_groups` or `source_groups`. -/
inductive Key
  | user (user_id : ℕ)
  | pick (user_id : ℕ) (source : String)
  | follow (user_id : ℕ) (group_name : String)
  | group (name : String)
  deriving DecidableEq

/-- Which rows there are, with the version of each. -/
abbrev Rows := Key → Option ℕ

/-- `user_source_set`: a person has a source, picked or through a bundle that is followed. -/
def Holds (c : Offer) (rows : Rows) (u : ℕ) (x : String) : Prop :=
  (rows (.pick u x)).isSome ∨
    ∃ g, (rows (.follow u g)).isSome ∧ (rows (.group g)).isSome ∧ x ∈ c.reach g

/-- The key is a follow of the person's that reaches the source. -/
def Key.reaches (c : Offer) (rows : Rows) (u : ℕ) (x : String) : Key → Bool
  | .follow u' g => u' = u && (rows (.follow u' g)).isSome && (rows (.group g)).isSome && (c.reach g).contains x
  | _ => false

/-- `user_source_set`, evaluated over the keys that there are. -/
def holds (c : Offer) (keys : List Key) (rows : Rows) (u : ℕ) (x : String) : Bool :=
  (rows (.pick u x)).isSome || keys.any (Key.reaches c rows u x)

/-! ## Statements -/

/-- What a statement still does to a row. -/
inductive RowAct
  /-- `DELETE`, of the version that it found. -/
  | erase (x : Key) (version : ℕ)
  /-- The `DELETE` of `_unfollow`, with its `INSERT` from what it returns. -/
  | unfollow (u : ℕ) (group : String) (version : ℕ)
  /-- `INSERT ... ON CONFLICT DO NOTHING`: a pick, if there is none. -/
  | put (u : ℕ) (source : String)
  /-- `INSERT`: a pick, which must not be there. -/
  | insert (u : ℕ) (source : String)
  /-- `INSERT INTO user_source_groups`, with its foreign key. -/
  | follow (u : ℕ) (group : String)
  /-- `DELETE FROM source_groups`, with its cascade. -/
  | remove (group : String) (version : ℕ)
  deriving DecidableEq

/-- An operation of one person, by what its statements select: the names whose rows it reads before and after, the
follows that it drops and whether it keeps what they reached, the picks that it deletes, the names that it inserts, and
the bundle that it follows. A statement that an operation does not have selects nothing. -/
structure Edit (c : Offer) where
  touched : List String := []
  leaves : String → Bool := fun _ => false
  keeps : Bool := false
  clears : String → Bool := fun _ => false
  puts : List String := []
  plain : Bool := false
  joins : Option String := none
  /-- No operation keeps what it leaves, and follows. -/
  alone : keeps = true → joins = none
  /-- A follow is dropped if a name that it reaches is. -/
  left : ∀ g, ∀ x ∈ c.reach g, clears x = true → leaves g = true
  /-- What a dropped follow reached is kept, or dropped as well. -/
  lost : ∀ g, leaves g = true → keeps = false → ∀ x ∈ c.reach g, clears x = true

/-- `sorted(set(names))`: each name once, in order. -/
def sortedSet (names : List String) : List String := names.dedup.insertionSort (· ≤ ·)

/-- `change`: some sources are added and others taken away, and a bundle that loses one is left. -/
def change (c : Offer) (add remove : List String) : Edit c where
  touched := sortedSet (add ++ remove)
  leaves g := (c.reach g).any fun x => remove.contains x && !add.contains x
  keeps := true
  clears x := remove.contains x && !add.contains x
  puts := sortedSet add
  alone _ := rfl
  left _ x hx hclears := List.any_eq_true.mpr ⟨x, hx, hclears⟩
  lost _ _ := nofun

/-- `replace`: all is left and cleared, and the named sources are picked. -/
def replace (c : Offer) (names : List String) : Edit c where
  leaves _ := true
  clears _ := true
  puts := sortedSet names
  plain := true
  alone _ := rfl
  left _ _ _ _ := rfl
  lost _ _ _ _ _ := rfl

/-- `join_group`: a bundle is followed, alone or with what there is. -/
def joinGroup (c : Offer) (group : String) (only : Bool) : Edit c where
  leaves _ := only
  clears x := only && c.active x
  joins := some group
  alone h := absurd h Bool.false_ne_true
  left _ _ _ hclears := (Bool.and_eq_true _ _ ▸ hclears).1
  lost _ honly _ _ hx := by
    rw [Bool.and_eq_true]
    exact ⟨honly, (List.mem_filter.mp hx).2⟩

/-- The operations of one person. -/
def Op.edit (c : Offer) : Op → Option (ℕ × Edit c)
  | .change u add remove => some (u, Selection.change c add remove)
  | .replace u names => some (u, Selection.replace c names)
  | .joinGroup u group only => some (u, Selection.joinGroup c group only)
  | .deleteGroup _ => none

/-! ## Transactions -/

/-- A transaction: how many of its statements have been started, the rows that the current one has still to work on,
and what it has read. `followers` are those that `delete_group` has still to go through. -/
structure Tx where
  op : Op
  pc : ℕ := 0
  now : List RowAct := []
  followers : List ℕ := []
  before : List String := []
  after : List String := []

/-- A call that has been committed, with the lists that `change` returns. -/
structure Done where
  op : Op
  added : List String
  removed : List String
  deriving DecidableEq

/-- What is committed, and what is written but not committed: by which transaction, and the version, or none for a
deleted row. `keys` are those that ever had a row; `shares` are the bundles that transactions have locked by a follow. -/
structure State where
  rows : Rows
  writes : Key → Option (ℕ × Option ℕ)
  keys : List Key
  shares : List (ℕ × String)
  txs : ℕ → Option Tx
  next : ℕ
  log : List Done

/-- What a transaction has written. -/
def State.own (s : State) (k : ℕ) (x : Key) : Option (Option ℕ) :=
  (s.writes x).bind fun w => if w.1 = k then some w.2 else none

/-- What one sees that has written `own`. -/
def view (rows : Rows) (own : Key → Option (Option ℕ)) (x : Key) : Option ℕ := (own x).getD (rows x)

/-- What a transaction sees. -/
def State.view (s : State) (k : ℕ) : Rows := Selection.view s.rows (s.own k)

/-- No other transaction has written the row. -/
def State.free (s : State) (k : ℕ) (x : Key) : Bool := (s.writes x).all fun w => w.1 = k

/-- No other transaction has locked the bundle by a follow. -/
def State.unshared (s : State) (k : ℕ) (g : String) : Bool := s.shares.all fun share => share.1 = k || share.2 ≠ g

/-- A transaction writes a row. -/
def State.write (s : State) (k : ℕ) (x : Key) (version : Option ℕ) : State :=
  { s with
    writes := Function.update s.writes x (some (k, version))
    keys := if s.keys.contains x then s.keys else s.keys ++ [x]
    next := s.next + 1 }

/-- A transaction goes on. -/
def State.go (s : State) (k : ℕ) (t : Tx) : State := { s with txs := Function.update s.txs k (some t) }

/-- Its writes and locks go. -/
def State.ended (s : State) (k : ℕ) : State :=
  { s with
    writes := fun x => (s.writes x).filter fun w => w.1 ≠ k
    shares := s.shares.filter fun share => share.1 ≠ k
    txs := Function.update s.txs k none }

/-- What is committed with the writes of a transaction. -/
def State.committed (s : State) (k : ℕ) : State := { s.ended k with rows := s.view k }

/-- The names of `touched` that the person holds. -/
def State.reading (s : State) (c : Offer) (k u : ℕ) (touched : List String) : List String :=
  touched.filter (holds c s.keys (s.view k) u)

/-- The rows of a statement that drops follows. -/
def State.leaving (s : State) {c : Offer} (k u : ℕ) (e : Edit c) : List RowAct :=
  s.keys.filterMap fun
    | .follow u' g =>
      if u' = u && e.leaves g && (s.view k (.group g)).isSome then
        (s.view k (.follow u g)).map fun v => if e.keeps then .unfollow u g v else .erase (.follow u g) v
      else none
    | _ => none

/-- The rows of a statement that deletes picks. -/
def State.clearing (s : State) {c : Offer} (k u : ℕ) (e : Edit c) : List RowAct :=
  s.keys.filterMap fun
    | .pick u' x => if u' = u && e.clears x then (s.view k (.pick u x)).map (.erase (.pick u x)) else none
    | _ => none

/-- The follows of a bundle. -/
def State.followers (s : State) (k : ℕ) (g : String) : List (ℕ × ℕ) :=
  s.keys.filterMap fun
    | .follow u g' => if g' = g then (s.view k (.follow u g)).map fun v => (u, v) else none
    | _ => none

/-- The next statement of an operation of one person. -/
def State.advance (s : State) {c : Offer} (k u : ℕ) (e : Edit c) (t : Tx) : Option State :=
  match t.pc with
  -- `_lock`.
  | 0 => if s.free k (.user u) then some ((s.write k (.user u) (s.rows (.user u))).go k { t with pc := 1 }) else none
  | 1 => some (s.go k { t with pc := 2, before := s.reading c k u e.touched })
  | 2 => some (s.go k { t with pc := 3, now := s.leaving k u e })
  | 3 => some (s.go k { t with pc := 4, now := s.clearing k u e })
  | 4 => some (s.go k { t with pc := 5, now := e.puts.map fun x => if e.plain then .insert u x else .put u x })
  | 5 => some (s.go k { t with pc := 6, now := e.joins.toList.map (.follow u) })
  | 6 => some (s.go k { t with pc := 7, after := s.reading c k u e.touched })
  | _ => none

/-- The next statement of `delete_group`. -/
def State.deleting (s : State) (k : ℕ) (g : String) (t : Tx) : Option State :=
  match t.pc, t.followers with
  | 0, _ => some (s.go k { t with
      pc := 1
      followers := ((s.followers k g).map Prod.fst).insertionSort (· ≤ ·) })
  | 1, u :: rest => some (s.go k { t with
      now := (s.view k (.follow u g)).toList.map (.unfollow u g)
      followers := rest })
  | 1, [] => some (s.go k { t with pc := 2, now := (s.view k (.group g)).toList.map (.remove g) })
  | _, _ => none

/-- A row of the current statement. `none` where it has to wait. -/
def State.exec (s : State) (c : Offer) (k : ℕ) (t : Tx) : RowAct → Option State
  | .erase x v =>
    if !s.free k x then none
    else if s.view k x = some v then some ((s.write k x none).go k t)
    else some (s.go k t)
  | .unfollow u g v =>
    if !s.free k (.follow u g) then none
    else if s.view k (.follow u g) = some v then
      some ((s.write k (.follow u g) none).go k { t with now := t.now ++ (c.reach g).map (.put u) })
    else some (s.go k t)
  | .put u x =>
    if !s.free k (.pick u x) then none
    else if (s.view k (.pick u x)).isSome then some (s.go k t)
    else some ((s.write k (.pick u x) (some s.next)).go k t)
  | .insert u x =>
    if !s.free k (.pick u x) then none
    else if (s.view k (.pick u x)).isSome then some (s.ended k)
    else some ((s.write k (.pick u x) (some s.next)).go k t)
  | .follow u g =>
    if !s.free k (.follow u g) then none
    else if (s.view k (.follow u g)).isSome then some (s.go k t)
    else if !s.free k (.group g) then none
    else if (s.view k (.group g)).isNone then some (s.ended k)
    else some { (s.write k (.follow u g) (some s.next)).go k t with shares := (k, g) :: s.shares }
  | .remove g v =>
    if !s.free k (.group g) || !s.unshared k g then none
    else if s.view k (.group g) = some v then
      -- `ON DELETE CASCADE`.
      some ((s.write k (.group g) none).go k
        { t with now := t.now ++ (s.followers k g).map fun (u, v) => .erase (.follow u g) v })
    else some (s.go k t)

/-- The transaction has run all its statements. -/
def Tx.finished (c : Offer) (t : Tx) : Bool := t.now = [] && t.pc = if (t.op.edit c).isSome then 7 else 2

/-- What can happen next. -/
inductive Act
  | call (k : ℕ) (op : Op)
  /-- A transaction starts its next statement. -/
  | statement (k : ℕ)
  /-- It works on the `i`-th of the rows that are left. -/
  | row (k i : ℕ)
  | commit (k : ℕ)
  /-- It is rolled back: it fails, or is the victim of a deadlock. -/
  | abort (k : ℕ)

/-- One step. -/
def step (c : Offer) (s : State) : Act → Option State
  | .call k op => if (s.txs k).isSome then none else some (s.go k { op := op })
  | .statement k =>
    match s.txs k with
    | some t =>
      if t.now ≠ [] then none
      else
        match t.op, t.op.edit c with
        | _, some (u, e) => s.advance k u e t
        | .deleteGroup g, none => s.deleting k g t
        | _, none => none
    | none => none
  | .row k i =>
    match s.txs k with
    | some t =>
      match t.now[i]? with
      | some act => s.exec c k { t with now := t.now.eraseIdx i } act
      | none => none
    | none => none
  | .commit k =>
    match s.txs k with
    | some t =>
      if t.finished c then
        some { s.committed k with
          log := s.log ++ [⟨t.op, t.after.filter (!t.before.contains ·), t.before.filter (!t.after.contains ·)⟩] }
      else none
    | none => none
  | .abort k => if (s.txs k).isSome then some (s.ended k) else none

/-- What a step has to meet: when `delete_group` deletes its bundle, no follow of it is left to go with it. -/
def State.unfollowed (s : State) : Act → Bool
  | .row k i => ((s.txs k).bind fun t => t.now[i]?).all fun
    | .remove g _ => (s.followers k g).isEmpty
    | _ => true
  | _ => true

end JobScripts.Catalog.Selection
