import Mathlib.Order.Basic
import Mathlib.Data.Nat.Notation

/-!
# Loops with a bound on their turns

One turn of a loop tests its condition and, where it holds, executes the body, which may throw. A
loop that has not ended after a number of turns is reported as such. Total correctness follows from
an invariant and a variant that every turn decreases.
-/

namespace PennCloud.Library.Loops

/-- The state after a turn: whether another one follows. -/
inductive Turn (σ : Type*)
  | again (s : σ)
  | done (s : σ)

variable {σ τ ε : Type*}

def Turn.map (f : σ → τ) : Turn σ → Turn τ
  | .again s => .again (f s)
  | .done s => .done (f s)

/-- At most this number of turns. -/
def loop (looping : ε) (turn : σ → Except ε (Turn σ)) : ℕ → σ → Except ε σ
  | 0, _ => .error looping
  | n + 1, s =>
    match turn s with
    | .ok (.again s) => loop looping turn n s
    | .ok (.done s) => .ok s
    | .error e => .error e

/-- Total correctness: with a turn for each value of the variant and one for the end, the loop ends
in a state that satisfies the postcondition. -/
theorem loop_total {looping : ε} {turn : σ → Except ε (Turn σ)} {I Q : σ → Prop} (variant : σ → ℕ)
    (hturn : ∀ s, I s → (∃ t, turn s = .ok (.done t) ∧ Q t) ∨
      ∃ t, turn s = .ok (.again t) ∧ I t ∧ variant t < variant s)
    {s : σ} (hs : I s) {n : ℕ} (hn : variant s < n) :
    ∃ t, loop looping turn n s = .ok t ∧ Q t := by
  induction n generalizing s with
  | zero => exact absurd hn (Nat.not_lt_zero _)
  | succ n ih =>
    rcases hturn s hs with ⟨t, hdone, hQ⟩ | ⟨t, hagain, ht, hlt⟩
    · exact ⟨t, by rw [loop, hdone], hQ⟩
    · obtain ⟨u, hloop, hQ⟩ := ih ht (Nat.lt_of_lt_of_le hlt (Nat.le_of_lt_succ hn))
      exact ⟨u, by rw [loop, hagain]; exact hloop, hQ⟩

/-- Partial correctness: what every turn keeps and the last one turns into the postcondition. -/
theorem loop_partial {looping : ε} {turn : σ → Except ε (Turn σ)} {I Q : σ → Prop}
    (hagain : ∀ s t, I s → turn s = .ok (.again t) → I t)
    (hdone : ∀ s t, I s → turn s = .ok (.done t) → Q t) {n : ℕ} {s t : σ} (hs : I s)
    (h : loop looping turn n s = .ok t) : Q t := by
  induction n generalizing s with
  | zero => cases h
  | succ n ih =>
    rw [loop] at h
    cases hturn : turn s with
    | error e =>
      rw [hturn] at h
      cases h
    | ok next =>
      rw [hturn] at h
      cases next with
      | again u => exact ih (hagain s u hs hturn) h
      | done u =>
        obtain rfl := Except.ok.inj h
        exact hdone s u hs hturn

/-- A loop whose state is a function of another one's, turn for turn. -/
theorem loop_map {looping : ε} {turn : σ → Except ε (Turn σ)} {turn' : τ → Except ε (Turn τ)}
    (f : σ → τ) (hturn : ∀ s, turn' (f s) = (turn s).map (Turn.map f)) (n : ℕ) (s : σ) :
    loop looping turn' n (f s) = (loop looping turn n s).map f := by
  induction n generalizing s with
  | zero => rfl
  | succ n ih =>
    rw [loop, loop, hturn]
    cases turn s with
    | error e => rfl
    | ok next =>
      cases next with
      | again t => exact ih t
      | done t => rfl

end PennCloud.Library.Loops
