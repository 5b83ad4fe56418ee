import Mathlib.Logic.Function.Basic

/-!
# Transducers and their refinement

A transducer reads one input at a time and answers each. It refines another one when an
abstraction of its states commutes with every step and with the observation of every answer,
from states that satisfy an invariant and for inputs the environment may send. Refinement of
single steps lifts to whole runs.
-/

namespace PennCloud.Library.Transducer

variable {σ τ ι ο ω : Type*}

/-- Feed a list of inputs and collect the answers. -/
def run (step : σ → ι → σ × ο) : σ → List ι → σ × List ο
  | s, [] => (s, [])
  | s, i :: is =>
    let (t, answer) := step s i
    let (u, answers) := run step t is
    (u, answer :: answers)

/-- One step of the implementation is one step of the specification. -/
structure StepRefines (step : σ → ι → σ × ο) (spec : τ → ι → τ × ω) (abs : σ → τ)
    (observe : ο → ω) (inv : σ → Prop) (allowed : ι → Prop) : Prop where
  preserves : ∀ s i, inv s → allowed i → inv (step s i).1
  state : ∀ s i, inv s → allowed i → abs (step s i).1 = (spec (abs s) i).1
  answer : ∀ s i, inv s → allowed i → observe (step s i).2 = (spec (abs s) i).2

variable {step : σ → ι → σ × ο} {spec : τ → ι → τ × ω} {abs : σ → τ} {observe : ο → ω}
  {inv : σ → Prop} {allowed : ι → Prop}

/-- Every run of the implementation is the run of the specification on the same inputs. -/
theorem StepRefines.run (h : StepRefines step spec abs observe inv allowed) {s : σ} {is : List ι}
    (hinv : inv s) (hallowed : ∀ i ∈ is, allowed i) :
    abs (run step s is).1 = (run spec (abs s) is).1 ∧
      (run step s is).2.map observe = (run spec (abs s) is).2 := by
  induction is generalizing s with
  | nil => exact ⟨rfl, rfl⟩
  | cons i is ih =>
    have hi := hallowed i List.mem_cons_self
    have htail := ih (h.preserves s i hinv hi) fun j hj ↦ hallowed j (List.mem_cons_of_mem _ hj)
    rw [h.state s i hinv hi] at htail
    refine ⟨htail.1, ?_⟩
    simp only [Transducer.run, List.map_cons, h.answer s i hinv hi, htail.2]

/-! ## Specifications that leave answers open -/

/-- A run that a relation allows, step by step. -/
inductive Allows (spec : τ → ι → ω → τ → Prop) : τ → List ι → List ω → τ → Prop
  | nil (t : τ) : Allows spec t [] [] t
  | cons {t u v : τ} {i : ι} {o : ω} {is : List ι} {os : List ω} (hstep : spec t i o u)
      (hrest : Allows spec u is os v) : Allows spec t (i :: is) (o :: os) v

/-- Where every step is one that the relation allows, every run is. -/
theorem run_allows {spec : τ → ι → ο → τ → Prop} {R : σ → τ → Prop}
    (hstep : ∀ s t i, R s t → ∃ u, spec t i (step s i).2 u ∧ R (step s i).1 u) {s : σ} {t : τ}
    (h : R s t) (is : List ι) :
    ∃ u, Allows spec t is (run step s is).2 u ∧ R (run step s is).1 u := by
  induction is generalizing s t with
  | nil => exact ⟨t, .nil t, h⟩
  | cons i is ih =>
    obtain ⟨u, hspec, hrel⟩ := hstep s t i h
    obtain ⟨v, hrest, hend⟩ := ih hrel
    exact ⟨v, .cons hspec hrest, hend⟩

end PennCloud.Library.Transducer
