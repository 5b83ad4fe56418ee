import PennCloud.Library.Programs

/-!
# Programs on top of programs

Every operation of a program may itself be a program for a service further down; an exception that
one of these raises is the answer of the operation. Run to its end, the program on top of the others
is a run of it with a service whose answers are their runs. And two services that
agree on the operations met along a run lead to one result.
-/

namespace PennCloud.Library.Programs.Prog

variable {Op Op' : Type} {Ans : Op → Type} {Ans' : Op' → Type} {ε α β : Type}

/-- Go on with the outcome, whether it is a value or an exception. -/
def andThen : Prog Op Ans ε α → (Except ε α → Prog Op Ans ε β) → Prog Op Ans ε β
  | ret a, f => f (.ok a)
  | raise e, f => f (.error e)
  | call op next, f => call op fun answer ↦ (next answer).andThen f

/-- A program in the place of every operation. -/
def expand (f : (op : Op) → Prog Op' Ans' ε (Ans op)) : Prog Op Ans ε α → Prog Op' Ans' ε α
  | ret a => ret a
  | raise e => raise e
  | call op next => (f op).andThen fun answer ↦ (next answer).expand f

/-- The condition holds of every operation of a run, in the state in which it is called. -/
def Along {σ : Type} (exec : (op : Op) → σ → σ × Except ε (Ans op)) (P : σ → Op → Prop) :
    Prog Op Ans ε α → σ → Prop
  | ret _, _ => True
  | raise _, _ => True
  | call op next, s => P s op ∧ (next (exec op s).2).Along exec P (exec op s).1

section Run

variable {σ τ : Type}

/-- A program whose result is only passed on. -/
theorem run_bind_pure {exec : (op : Op) → σ → σ × Except ε (Ans op)} (p : Prog Op Ans ε α)
    (f : α → β) (s : σ) :
    (p >>= fun a ↦ pure (f a)).run exec s = ((p.run exec s).1, (p.run exec s).2.map f) := by
  rw [run_bind]
  generalize p.run exec s = outcome
  obtain ⟨t, result⟩ := outcome
  cases result with
  | ok a => rfl
  | error e => rfl

theorem run_andThen {exec : (op : Op) → σ → σ × Except ε (Ans op)} (p : Prog Op Ans ε α)
    (f : Except ε α → Prog Op Ans ε β) (s : σ) :
    (p.andThen f).run exec s = (f (p.run exec s).2).run exec (p.run exec s).1 := by
  induction p generalizing s with
  | ret a => rfl
  | raise e => rfl
  | call op next ih => exact ih _ _

theorem run_expand {exec : (op : Op') → σ → σ × Except ε (Ans' op)}
    (f : (op : Op) → Prog Op' Ans' ε (Ans op)) (p : Prog Op Ans ε α) (s : σ) :
    (p.expand f).run exec s = p.run (fun op ↦ (f op).run exec) s := by
  induction p generalizing s with
  | ret a => rfl
  | raise e => rfl
  | call op next ih =>
    rw [expand, run_andThen]
    exact ih _ _

/-- What every operation keeps, a run keeps. -/
theorem run_keeps {exec : (op : Op) → σ → σ × Except ε (Ans op)} {I : σ → Prop}
    (hstep : ∀ op s, I s → I (exec op s).1) (p : Prog Op Ans ε α) {s : σ} (h : I s) :
    I (p.run exec s).1 := by
  induction p generalizing s with
  | ret a => exact h
  | raise e => exact h
  | call op next ih => exact ih _ (hstep op s h)

/-- Where the operations of a run keep two services related and get the same answers, both run the
program alike. -/
theorem run_simulates {exec : (op : Op) → σ → σ × Except ε (Ans op)}
    {spec : (op : Op) → τ → τ × Except ε (Ans op)} {R : σ → τ → Prop} {P : τ → Op → Prop}
    (hstep : ∀ op s t, R s t → P t op →
      R (exec op s).1 (spec op t).1 ∧ (exec op s).2 = (spec op t).2)
    {p : Prog Op Ans ε α} {s : σ} {t : τ} (hrel : R s t) (halong : p.Along spec P t) :
    R (p.run exec s).1 (p.run spec t).1 ∧ (p.run exec s).2 = (p.run spec t).2 := by
  induction p generalizing s t with
  | ret a => exact ⟨hrel, rfl⟩
  | raise e => exact ⟨hrel, rfl⟩
  | call op next ih =>
    obtain ⟨hrel', hanswer⟩ := hstep op s t hrel halong.1
    rw [run, run, hanswer]
    exact ih _ hrel' halong.2

end Run

end PennCloud.Library.Programs.Prog
