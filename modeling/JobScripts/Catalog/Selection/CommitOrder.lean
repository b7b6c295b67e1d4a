import JobScripts.Lib.Run
import JobScripts.Catalog.Selection.Steps

/-!
# Selections in the order of their commits

What a person holds is what the operations mean in the order of their commits (`selects_in_commit_order`), unless a
bundle is deleted while it has followers: `delete_group` reads them without a lock, and a follow that comes later goes
with the bundle (`follow_lost`).
-/

namespace JobScripts.Catalog.Selection

open Lib

/-- What each person holds, by the rows. -/
def heldOf (c : Offer) (rows : Rows) : Held := fun u => {x | Holds c rows u x}

/-- No call has begun. -/
structure State.Fresh (s : State) : Prop where
  writes : ∀ x, s.writes x = none
  shares : s.shares = []
  txs : ∀ k, s.txs k = none
  log : s.log = []
  keys : ∀ x, (s.rows x).isSome → x ∈ s.keys
  follows : ∀ u g, (s.rows (.follow u g)).isSome → (s.rows (.group g)).isSome

/-- The invariant holds before the first call. -/
theorem State.Fresh.inv {s : State} (h : s.Fresh) (c : Offer) : s.Inv c (heldOf c s.rows) := by
  have hlive : ∀ {k : ℕ} {t : Tx}, s.txs k ≠ some t := by
    intro k t hk
    rw [h.txs k] at hk
    contradiction
  constructor
  case follows => exact h.follows
  case shares =>
    intro k g hg
    rw [h.shares] at hg
    exact absurd hg List.not_mem_nil
  case live =>
    intro x k v hw
    rw [h.writes x] at hw
    contradiction
  case keys =>
    rintro x (hx | hx)
    · exact h.keys x hx
    · rw [h.writes x] at hx
      contradiction
  case edits => exact fun k t u e hk => absurd hk hlive
  case deletes => exact fun k t g hk => absurd hk hlive
  case held =>
    intro u x
    rw [h.log]
    exact Iff.rfl
  case exact =>
    intro pre d post hlog
    rw [h.log] at hlog
    exact absurd hlog.symm (List.append_ne_nil_of_right_ne_nil _ (List.cons_ne_nil _ _))

/-- What every person holds is what the calls mean in the order of their commits, and the lists that `change` returned
are exact, if no bundle is deleted while a follow of it is left. -/
theorem selects_in_commit_order (c : Offer) {s₀ s : State} (h₀ : s₀.Fresh)
    (hrun : Run (step c) (fun s act => s.unfollowed act = true) s₀ s) :
    (∀ u x, Holds c s.rows u x ↔ x ∈ replay c (heldOf c s₀.rows) (s.log.map Done.op) u) ∧
      ∀ pre d post, s.log = pre ++ d :: post → d.Exact c (replay c (heldOf c s₀.rows) (pre.map Done.op)) := by
  have hinv := hrun.invariant (I := State.Inv c (heldOf c s₀.rows)) (h₀.inv c) fun _ _ _ h hcond hs => h.step hcond hs
  exact ⟨hinv.held, hinv.exact⟩

/-! ## A follow that is lost -/

/-- A bundle of two boards. -/
def twoBoards : Offer := ⟨fun g => if g = "g" then ["a", "b"] else [], fun _ => true⟩

/-- The bundle is there, and no one follows it. -/
def bundle : State where
  rows x := if x = .group "g" then some 0 else none
  writes _ := none
  keys := [.group "g"]
  shares := []
  txs _ := none
  next := 1
  log := []

/-- Nothing has begun. -/
theorem bundle_fresh : bundle.Fresh where
  writes _ := rfl
  shares := rfl
  txs _ := rfl
  log := rfl
  keys x hx := by
    dsimp only [bundle] at hx
    split at hx
    · next heq => exact heq ▸ List.mem_singleton_self _
    · contradiction
  follows u g hf := by
    have hnone : bundle.rows (.follow u g) = none := rfl
    rw [hnone] at hf
    contradiction

/-- No one holds anything. -/
theorem not_holds_bundle (u : ℕ) (x : String) : x ∉ heldOf twoBoards bundle.rows u := by
  rintro (hpick | ⟨g, hf, -, -⟩)
  · have hnone : bundle.rows (.pick u x) = none := rfl
    rw [hnone] at hpick
    contradiction
  · have hnone : bundle.rows (.follow u g) = none := rfl
    rw [hnone] at hf
    contradiction

/-- A person follows the bundle, from the first statement to the commit. -/
def joins (k u : ℕ) : List Act :=
  .call k (.joinGroup u "g" false) :: List.replicate 6 (.statement k) ++ [.row k 0, .statement k, .commit k]

/-- A person follows the bundle, and leaves one of its boards for another one. -/
theorem selects_in_commit_order_change : ∃ s, Run (step twoBoards) (fun s act => s.unfollowed act = true) bundle s ∧
    s.log = [⟨.joinGroup 1 "g" false, [], []⟩, ⟨.change 1 ["c"] ["a"], ["c"], ["a"]⟩] ∧
    ∀ x, Holds twoBoards s.rows 1 x ↔ x = "b" ∨ x = "c" := by
  have hacts : (runList (guarded (step twoBoards) fun s act => s.unfollowed act = true) bundle
      (joins 0 1 ++ .call 1 (.change 1 ["c"] ["a"]) :: List.replicate 3 (.statement 1) ++
        [.row 1 0, .row 1 0, .row 1 0, .statement 1, .row 1 0, .statement 1, .row 1 0, .statement 1, .statement 1,
          .commit 1])).any (fun s =>
        s.log = [⟨.joinGroup 1 "g" false, [], []⟩, ⟨.change 1 ["c"] ["a"], ["c"], ["a"]⟩]) = true := by
    decide +kernel
  obtain ⟨s, hrun, hlog⟩ := exists_run_of_any hacts
  rw [decide_eq_true_eq] at hlog
  have hrun' := run_of_guarded hrun
  refine ⟨s, hrun', hlog, fun x => ?_⟩
  rw [(selects_in_commit_order twoBoards bundle_fresh hrun').1, hlog]
  have hreach : twoBoards.reach "g" = ["a", "b"] := by decide
  have hempty := not_holds_bundle 1
  simp only [replay, Op.meaning, List.map_cons, List.map_nil, List.foldl_cons, List.foldl_nil, Function.update_self,
    hreach, Set.mem_sdiff, Set.mem_union, Set.mem_ofPred_eq, List.mem_cons, List.not_mem_nil, or_false,
    Bool.false_eq_true, if_false]
  constructor
  · rintro ⟨((hnone | rfl | rfl) | rfl), hkept⟩
    · exact absurd hnone (hempty x)
    · exact absurd ⟨rfl, by decide⟩ hkept
    · exact .inl rfl
    · exact .inr rfl
  · rintro (rfl | rfl)
    · exact ⟨.inl (.inr (.inr rfl)), by decide⟩
    · exact ⟨.inr rfl, by decide⟩

/-- A person follows a bundle after `delete_group` has read its followers: the follow goes with the bundle, and whatever
the order of the two calls, the person should hold its boards. -/
theorem follow_lost : ∃ s, Run (step twoBoards) Always bundle s ∧ s.txs 0 = none ∧ s.txs 1 = none ∧
    s.log.map Done.op = [.joinGroup 1 "g" false, .deleteGroup "g"] ∧
    ∀ ops, ops.Perm (s.log.map Done.op) →
      "a" ∈ replay twoBoards (heldOf twoBoards bundle.rows) ops 1 ∧ ¬Holds twoBoards s.rows 1 "a" := by
  have hacts : (runList (step twoBoards) bundle
      ([.call 1 (.deleteGroup "g"), .statement 1] ++ joins 0 1 ++ [.statement 1, .row 1 0, .row 1 0, .commit 1])).any
      (fun s => (s.txs 0).isNone && (s.txs 1).isNone &&
        s.log.map Done.op = [.joinGroup 1 "g" false, .deleteGroup "g"] &&
        (s.rows (.pick 1 "a")).isNone && (s.rows (.group "g")).isNone) = true := by
    decide +kernel
  obtain ⟨s, hrun, hs⟩ := exists_run_of_any hacts
  simp only [Bool.and_eq_true, decide_eq_true_eq, Option.isNone_iff_eq_none] at hs
  obtain ⟨⟨⟨⟨hzero, hone⟩, hlog⟩, hpick⟩, hgroup⟩ := hs
  refine ⟨s, hrun, hzero, hone, hlog, fun ops hops => ⟨?_, ?_⟩⟩
  · rw [hlog] at hops
    have hreach : "a" ∈ twoBoards.reach "g" := by decide
    -- Whichever call comes first, the person follows the bundle.
    obtain ⟨op, op', rfl⟩ := List.length_eq_two.mp hops.length_eq
    rcases List.mem_pair.mp (hops.mem_iff.mp (List.mem_cons_self (a := op))) with rfl | rfl
    · obtain rfl := List.singleton_perm_singleton.mp (List.perm_cons _ |>.mp hops)
      exact .inr hreach
    · obtain rfl := List.singleton_perm_singleton.mp (List.perm_cons _ |>.mp (hops.trans (.swap ..)))
      exact .inr hreach
  · rintro (hseen | ⟨g, -, hg, hx⟩)
    · rw [hpick] at hseen
      contradiction
    · have hmember : "a" ∈ twoBoards.members g := List.mem_of_mem_filter hx
      unfold twoBoards at hmember
      dsimp only at hmember
      split at hmember
      · next heq =>
        rw [heq, hgroup] at hg
        contradiction
      · exact absurd hmember List.not_mem_nil

end JobScripts.Catalog.Selection
