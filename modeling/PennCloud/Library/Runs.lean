import Mathlib.Logic.Relation
import Mathlib.Data.List.Basic

/-!
# Event-labelled machines

A machine reads one event at a time; an event that is not enabled has no successor state.
Reachability is relative to a condition on the state and the event of every step, so that
a law can be stated for exactly the runs whose steps all satisfy it. Each induction over
runs is done once here; a safety law is then its base case and one step lemma.
-/

namespace PennCloud.Library.Runs

/-- A partial deterministic step function; all nondeterminism is in the choice of events. -/
structure Machine (σ ε : Type*) where
  step : σ → ε → Option σ

variable {σ ε : Type*} (M : Machine σ ε)

/-- Execute a list of events, stopping with `none` at the first one that is not enabled. -/
def run : σ → List ε → Option σ
  | s, [] => some s
  | s, e :: es => (M.step s e).bind fun t ↦ run t es

/-- States reached from `s` by steps that all satisfy `ok` in the state before the step. -/
inductive Reaches (ok : σ → ε → Prop) (s : σ) : σ → Prop
  | refl : Reaches ok s s
  | tail {t u : σ} {e : ε} :
      Reaches ok s t → ok t e → M.step t e = some u → Reaches ok s u

/-- Every event is allowed. -/
abbrev anyStep : σ → ε → Prop := fun _ _ ↦ True

variable {M} {ok : σ → ε → Prop}

theorem Reaches.trans {s t u : σ} (hst : Reaches M ok s t) (htu : Reaches M ok t u) :
    Reaches M ok s u := by
  induction htu with
  | refl => exact hst
  | tail _ hok hstep ih => exact ih.tail hok hstep

theorem Reaches.single {s t : σ} {e : ε} (hok : ok s e) (hstep : M.step s e = some t) :
    Reaches M ok s t :=
  Reaches.refl.tail hok hstep

theorem Reaches.mono {ok' : σ → ε → Prop} (himp : ∀ s e, ok s e → ok' s e) {s t : σ}
    (h : Reaches M ok s t) : Reaches M ok' s t := by
  induction h with
  | refl => exact Reaches.refl
  | tail _ hok hstep ih => exact ih.tail (himp _ _ hok) hstep

/-- The run lemma: what every allowed step preserves holds in every reached state. -/
theorem Reaches.invariant {I : σ → Prop} {s t : σ} (h : Reaches M ok s t) (hinit : I s)
    (hstep : ∀ t e u, I t → ok t e → M.step t e = some u → I u) : I t := by
  induction h with
  | refl => exact hinit
  | tail _ hok hs ih => exact hstep _ _ _ ih hok hs

/-- Simulation: where every allowed step of `M` is matched by a step of `N` or by none, every
reached state is related to a state that `N` reaches. -/
theorem Reaches.simulate {τ δ : Type*} {N : Machine τ δ} {ok' : τ → δ → Prop} (R : σ → τ → Prop)
    {s t : σ} {u : τ} (h : Reaches M ok s t) (hinit : R s u)
    (hstep : ∀ a e b c, R a c → ok a e → M.step a e = some b →
      ∃ d, R b d ∧ (d = c ∨ ∃ e', ok' c e' ∧ N.step c e' = some d)) :
    ∃ v, R t v ∧ Reaches N ok' u v := by
  induction h with
  | refl => exact ⟨u, hinit, Reaches.refl⟩
  | tail _ hok hs ih =>
    obtain ⟨c, hrel, hreach⟩ := ih
    obtain ⟨d, hrel', rfl | ⟨e', hok', hs'⟩⟩ := hstep _ _ _ c hrel hok hs
    · exact ⟨d, hrel', hreach⟩
    · exact ⟨d, hrel', hreach.tail hok' hs'⟩

theorem reaches_of_run {s t : σ} {es : List ε} (h : run M s es = some t) :
    Reaches M anyStep s t := by
  induction es generalizing s with
  | nil =>
    cases h
    exact Reaches.refl
  | cons e es ih =>
    simp only [run, Option.bind_eq_some_iff] at h
    obtain ⟨u, hstep, hrest⟩ := h
    exact (Reaches.single trivial hstep).trans (ih hrest)

theorem run_concat (s : σ) (es : List ε) (e : ε) :
    run M s (es ++ [e]) = (run M s es).bind fun t ↦ M.step t e := by
  induction es generalizing s with
  | nil => simp [run]
  | cons e' es ih =>
    rw [List.cons_append, run, run, Option.bind_assoc]
    exact congrArg _ (funext ih)

theorem run_append (s : σ) (es es' : List ε) :
    run M s (es ++ es') = (run M s es).bind fun t ↦ run M t es' := by
  induction es generalizing s with
  | nil => rfl
  | cons e es ih =>
    rw [List.cons_append, run, run, Option.bind_assoc]
    exact congrArg _ (funext ih)

/-- A rank that no step raises and the own ones lower bounds the number of own steps in a run. -/
theorem countP_run_le {own : ε → Bool} (rank : σ → ℕ) {I : σ → Prop}
    (hkeep : ∀ s e t, I s → M.step s e = some t → I t)
    (hrank : ∀ s e t, I s → M.step s e = some t → rank t + (if own e then 1 else 0) ≤ rank s)
    {s t : σ} {es : List ε} (hs : I s) (h : run M s es = some t) :
    es.countP own + rank t ≤ rank s := by
  induction es generalizing s with
  | nil =>
    cases h
    exact Nat.le_of_eq (Nat.zero_add _)
  | cons e es ih =>
    simp only [run, Option.bind_eq_some_iff] at h
    obtain ⟨u, hstep, hrest⟩ := h
    have hle := ih (hkeep s e u hs hstep) hrest
    have hlower := hrank s e u hs hstep
    rw [List.countP_cons]
    omega

/-- Evaluate a predicate at the end of a concrete run. -/
theorem reaches_of_run_check {s : σ} {es : List ε} {p : σ → Bool}
    (h : (run M s es).map p = some true) : ∃ t, Reaches M anyStep s t ∧ p t = true := by
  rw [Option.map_eq_some_iff] at h
  obtain ⟨t, hrun, hp⟩ := h
  exact ⟨t, reaches_of_run hrun, hp⟩

/-- Only the steps that pass a test. -/
def Machine.restrict (M : Machine σ ε) (test : σ → ε → Bool) : Machine σ ε where
  step s e := if test s e then M.step s e else none

/-- A concrete run whose steps all pass the test, with a predicate at its end. -/
theorem reaches_of_run_restrict {test : σ → ε → Bool} (htest : ∀ s e, test s e = true → ok s e)
    {s : σ} {es : List ε} {p : σ → Bool} (h : (run (M.restrict test) s es).map p = some true) :
    ∃ t, Reaches M ok s t ∧ p t = true := by
  obtain ⟨t, hrun, hp⟩ := Option.map_eq_some_iff.mp h
  refine ⟨t, ?_, hp⟩
  clear h hp
  induction es generalizing s with
  | nil =>
    cases hrun
    exact Reaches.refl
  | cons e es ih =>
    obtain ⟨u, hstep, hrest⟩ := Option.bind_eq_some_iff.mp hrun
    simp only [Machine.restrict] at hstep
    split at hstep
    · next hpass => exact (Reaches.single (htest s e hpass) hstep).trans (ih hrest)
    · cases hstep

end PennCloud.Library.Runs
