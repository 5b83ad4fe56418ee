import Mathlib.Data.List.Nodup
import Mathlib.Data.Finset.Card

/-!
# Following a partial function

`trail next fuel a` lists what is visited from `a` along `next`, for at most `fuel` hops. Where a
measure grows with every hop no place is visited twice; where moreover all places lie in a
finite set, as many hops as it has elements lead to a place without a successor.
-/

namespace PennCloud.Library.Trail

variable {α : Type*}

def trail (next : α → Option α) : ℕ → α → List α
  | 0, a => [a]
  | fuel + 1, a =>
    match next a with
    | none => [a]
    | some b => a :: trail next fuel b

/-- The place where the trail ends. -/
def final (next : α → Option α) : ℕ → α → α
  | 0, a => a
  | fuel + 1, a =>
    match next a with
    | none => a
    | some b => final next fuel b

variable {next : α → Option α}

theorem trail_succ_none {a : α} (h : next a = none) (fuel : ℕ) :
    trail next (fuel + 1) a = [a] := by
  simp only [trail, h]

theorem trail_succ_some {a b : α} (h : next a = some b) (fuel : ℕ) :
    trail next (fuel + 1) a = a :: trail next fuel b := by
  simp only [trail, h]

theorem final_succ_none {a : α} (h : next a = none) (fuel : ℕ) :
    final next (fuel + 1) a = a := by
  simp only [final, h]

theorem final_succ_some {a b : α} (h : next a = some b) (fuel : ℕ) :
    final next (fuel + 1) a = final next fuel b := by
  simp only [final, h]

theorem getLast?_trail (fuel : ℕ) (a : α) :
    (trail next fuel a).getLast? = some (final next fuel a) := by
  induction fuel generalizing a with
  | zero => rfl
  | succ fuel ih =>
    cases hnext : next a with
    | none => rw [trail_succ_none hnext, final_succ_none hnext, List.getLast?_singleton]
    | some b =>
      rw [trail_succ_some hnext, final_succ_some hnext, List.getLast?_cons, ih, Option.getD_some]

/-- What a hop preserves holds along the whole trail. -/
theorem forall_mem_trail {P : α → Prop} (hnext : ∀ a b, P a → next a = some b → P b) (fuel : ℕ)
    {a : α} (ha : P a) : ∀ b ∈ trail next fuel a, P b := by
  induction fuel generalizing a with
  | zero => simpa [trail] using ha
  | succ fuel ih =>
    cases hb : next a with
    | none => simpa [trail_succ_none hb] using ha
    | some b =>
      rw [trail_succ_some hb]
      exact List.forall_mem_cons.mpr ⟨ha, ih (hnext a b ha hb)⟩

section Measure

variable {μ : α → ℕ} (hμ : ∀ a b, next a = some b → μ a < μ b)

include hμ

theorem trail_lt (fuel : ℕ) (a : α) : (trail next fuel a).Pairwise fun b c ↦ μ b < μ c := by
  induction fuel generalizing a with
  | zero => exact List.pairwise_singleton _ _
  | succ fuel ih =>
    cases hb : next a with
    | none =>
      rw [trail_succ_none hb]
      exact List.pairwise_singleton _ _
    | some b =>
      rw [trail_succ_some hb, List.pairwise_cons]
      refine ⟨?_, ih b⟩
      have hafter : ∀ c ∈ trail next fuel b, μ b ≤ μ c := by
        refine forall_mem_trail (P := fun c ↦ μ b ≤ μ c) ?_ fuel le_rfl
        exact fun c d hc hcd ↦ hc.trans (hμ c d hcd).le
      exact fun c hc ↦ (hμ a b hb).trans_le (hafter c hc)

theorem trail_nodup (fuel : ℕ) (a : α) : (trail next fuel a).Nodup :=
  (trail_lt hμ fuel a).imp fun hlt heq ↦ hlt.ne (congrArg μ heq)

omit hμ in
/-- A trail that could still go on has used all its fuel. -/
theorem length_trail {fuel : ℕ} {a : α} (h : next (final next fuel a) ≠ none) :
    (trail next fuel a).length = fuel + 1 := by
  induction fuel generalizing a with
  | zero => rfl
  | succ fuel ih =>
    cases hb : next a with
    | none =>
      rw [final_succ_none hb] at h
      exact absurd hb h
    | some b =>
      rw [final_succ_some hb] at h
      rw [trail_succ_some hb, List.length_cons, ih h]

variable [DecidableEq α] {places : Finset α}

theorem length_trail_le (hplaces : ∀ a b, a ∈ places → next a = some b → b ∈ places) (fuel : ℕ)
    {a : α} (ha : a ∈ places) : (trail next fuel a).length ≤ places.card := by
  calc
    (trail next fuel a).length = (trail next fuel a).toFinset.card :=
      (List.toFinset_card_of_nodup (trail_nodup hμ fuel a)).symm
    _ ≤ places.card := by
      refine Finset.card_le_card fun b hb ↦ ?_
      exact forall_mem_trail hplaces fuel ha b (List.mem_toFinset.mp hb)

/-- With one hop for every place the trail comes to its end. -/
theorem next_final (hplaces : ∀ a b, a ∈ places → next a = some b → b ∈ places) {fuel : ℕ}
    (hfuel : places.card ≤ fuel) {a : α} (ha : a ∈ places) :
    next (final next fuel a) = none := by
  by_contra hnext
  have hlength := length_trail hnext
  have hle := length_trail_le hμ hplaces fuel ha
  omega

end Measure

end PennCloud.Library.Trail
