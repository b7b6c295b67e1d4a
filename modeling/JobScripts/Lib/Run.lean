import Mathlib.Data.Option.Basic
import Mathlib.Logic.Function.Iterate
import Mathlib.Logic.Relation
import Mathlib.Order.WellFounded

/-!
# Runs of a step function

A system is a partial step function on a state and an action, `step : σ → α → Option σ`: `none`
says that the action is not enabled. `Run step ok s₀ s` says that `s` is reached from `s₀` by
steps that are enabled and that meet the side condition `ok`, a predicate on the state before the
step and the action. The plain runs are those whose side condition is `Always`.

Every safety result about a system has one shape: an invariant holds at the start, one step keeps
it, and so every run does (`Run.invariant`). A concrete run is a list of actions that goes through
(`exists_run_of_any`), under a decidable side condition where there is one (`run_of_guarded`).

A total function that is applied again and again comes to rest if a measure goes down wherever it changes anything
(`iterate_converges`).
-/

namespace JobScripts.Lib

variable {σ α : Type*}

/-- The side condition that every step meets. -/
def Always (_ : σ) (_ : α) : Prop := True

/-- The states that a run from `s₀` reaches, by enabled steps that meet `ok`. -/
inductive Run (step : σ → α → Option σ) (ok : σ → α → Prop) (s₀ : σ) : σ → Prop
  | start : Run step ok s₀ s₀
  | next {s s' : σ} (a : α) : Run step ok s₀ s → ok s a → step s a = some s' → Run step ok s₀ s'

namespace Run

variable {step : σ → α → Option σ} {ok ok' : σ → α → Prop} {s₀ s s' : σ}

/-- The invariant rule: what holds at the start and is kept by every step of the run holds in
every state reached. -/
theorem invariant {I : σ → Prop} (h₀ : I s₀)
    (hstep : ∀ s a s', I s → ok s a → step s a = some s' → I s') (h : Run step ok s₀ s) : I s := by
  induction h with
  | start => exact h₀
  | next a _ hok hs ih => exact hstep _ a _ ih hok hs

/-- A run under a side condition is a run under any weaker one. -/
theorem mono (himp : ∀ s a, ok s a → ok' s a) (h : Run step ok s₀ s) : Run step ok' s₀ s := by
  induction h with
  | start => exact .start
  | next a _ hok hs ih => exact .next a ih (himp _ _ hok) hs

/-- A run under a side condition is a run under one that it implies wherever an invariant holds. -/
theorem mono_of_invariant {I : σ → Prop} (h₀ : I s₀)
    (hstep : ∀ s a s', I s → ok s a → step s a = some s' → I s')
    (himp : ∀ s a, I s → ok s a → ok' s a) (h : Run step ok s₀ s) : Run step ok' s₀ s := by
  induction h with
  | start => exact .start
  | next a hrun hok hs ih => exact .next a ih (himp _ _ (hrun.invariant h₀ hstep) hok) hs

/-- A run continued by another. -/
theorem trans {s₁ : σ} (h : Run step ok s₀ s₁) (h' : Run step ok s₁ s) : Run step ok s₀ s := by
  induction h' with
  | start => exact h
  | next a _ hok hs ih => exact .next a ih hok hs

end Run

/-! ## Fallible computations that agree -/

/-- Two computations agree when they fail with the same error, or both succeed with results that are
related. -/
def Agrees {ε A B : Type} (R : A → B → Prop) : Except ε A → Except ε B → Prop
  | .ok a, .ok b => R a b
  | .error e, .error e' => e = e'
  | _, _ => False

/-- Agreement goes through sequencing. -/
theorem Agrees.bind {ε A A' B B' : Type} {R : A → B → Prop} {S : A' → B' → Prop}
    {x : Except ε A} {y : Except ε B} {f : A → Except ε A'} {g : B → Except ε B'}
    (h : Agrees R x y) (hfg : ∀ a b, R a b → Agrees S (f a) (g b)) :
    Agrees S (x >>= f) (y >>= g) := by
  match x, y, h with
  | .ok a, .ok b, h => exact hfg a b h
  | .error e, .error e', h => exact h

/-- A sequence that goes through: its first part does, and then its second. -/
theorem exists_of_bind_eq_ok {ε A B : Type} {x : Except ε A} {f : A → Except ε B} {b : B}
    (h : x >>= f = .ok b) : ∃ a, x = .ok a ∧ f a = .ok b := by
  cases x with
  | error e => contradiction
  | ok a => exact ⟨a, rfl, h⟩

/-- Continuations that agree on the result agree. -/
theorem bind_congr_ok {ε A B : Type} {x : Except ε A} {f g : A → Except ε B}
    (h : ∀ a, x = .ok a → f a = g a) : x >>= f = x >>= g := by
  cases x with
  | error e => rfl
  | ok a => exact h a rfl

/-- The state after a list of actions, `none` when one of them is not enabled. -/
def runList (step : σ → α → Option σ) : σ → List α → Option σ
  | s, [] => some s
  | s, a :: as => (step s a).bind fun s' => runList step s' as

/-- A list of actions that goes through is a plain run. -/
theorem run_of_runList {step : σ → α → Option σ} {s s' : σ} :
    ∀ {as : List α}, runList step s as = some s' → Run step Always s s'
  | [], h => by
    obtain rfl : s = s' := by simpa [runList] using h
    exact .start
  | a :: as, h => by
    simp only [runList, Option.bind_eq_some_iff] at h
    obtain ⟨t, ht, hrest⟩ := h
    exact (Run.start.next a trivial ht).trans (run_of_runList hrest)

/-- A list of actions that goes through to a state with a property reaches one. -/
theorem exists_run_of_any {step : σ → α → Option σ} {s : σ} {as : List α} {p : σ → Bool}
    (h : (runList step s as).any p = true) : ∃ s', Run step Always s s' ∧ p s' = true := by
  rw [Option.any_eq_true] at h
  obtain ⟨s', hs', hp⟩ := h
  exact ⟨s', run_of_runList hs', hp⟩

/-- The step function that also refuses an action that does not meet a decidable side condition. -/
def guarded (step : σ → α → Option σ) (ok : σ → α → Prop) [∀ s a, Decidable (ok s a)] (s : σ)
    (a : α) : Option σ :=
  if ok s a then step s a else none

/-- A run of the guarded step function is a run under the side condition. -/
theorem run_of_guarded {step : σ → α → Option σ} {ok : σ → α → Prop} [∀ s a, Decidable (ok s a)]
    {s₀ s : σ} (h : Run (guarded step ok) Always s₀ s) : Run step ok s₀ s := by
  induction h with
  | start => exact .start
  | next a _ _ hs ih =>
    simp only [guarded, Option.ite_none_right_eq_some] at hs
    exact .next a ih hs.1 hs.2

/-- A function that lowers a measure wherever it changes anything comes to rest. -/
theorem iterate_converges {β : Type*} [Preorder β] [WellFoundedLT β] {f : α → α} (measure : α → β)
    (hlower : ∀ a, f a ≠ a → measure (f a) < measure a) (a : α) : ∃ n, ∀ m, n ≤ m → f^[m] a = f^[n] a := by
  induction a using (InvImage.wf measure wellFounded_lt).induction with
  | _ a ih =>
    rcases Classical.em (f a = a) with hfixed | hchanged
    · exact ⟨0, fun m _ => Function.iterate_fixed hfixed m⟩
    obtain ⟨n, hn⟩ := ih (f a) (hlower a hchanged)
    refine ⟨n + 1, fun m hm => ?_⟩
    obtain ⟨m, rfl⟩ : ∃ k, m = k + 1 := ⟨m - 1, by omega⟩
    rw [Function.iterate_succ_apply, Function.iterate_succ_apply]
    exact hn m (by omega)

end JobScripts.Lib
