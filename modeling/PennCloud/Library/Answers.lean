import PennCloud.Library.Programs

/-!
# What a program can do with the answers it gets

Of a service one often knows less than its state: which answers it can give at all. Under such an
assumption about the answers, a program calls only some operations and has only some outcomes. Where a
service keeps an invariant as long as it is called so, and the invariant justifies the assumption,
jobs that share it stay within these bounds in every interleaving.
-/

open PennCloud.Library.Runs

namespace PennCloud.Library.Programs.Prog

variable {Op : Type} {Ans : Op → Type} {ε α β ξ : Type}

/-- As long as the answers are such, only such operations are called, and such is the outcome. -/
def Given (A : (op : Op) → Except ε (Ans op) → Prop) (P : Op → Prop) (Q : Except ε α → Prop) :
    Prog Op Ans ε α → Prop
  | ret a => Q (.ok a)
  | raise e => Q (.error e)
  | call op next => P op ∧ ∀ answer, A op answer → (next answer).Given A P Q

variable {A : (op : Op) → Except ε (Ans op) → Prop} {P : Op → Prop} {Q : Except ε α → Prop}

theorem Given.mono {Q' : Except ε α → Prop} {p : Prog Op Ans ε α} (h : p.Given A P Q)
    (himp : ∀ outcome, Q outcome → Q' outcome) : p.Given A P Q' := by
  induction p with
  | ret a => exact himp _ h
  | raise e => exact himp _ h
  | call op next ih => exact ⟨h.1, fun answer hanswer ↦ ih answer (h.2 answer hanswer)⟩

theorem Given.forall {ξ : Type} {R : ξ → Except ε α → Prop} {p : Prog Op Ans ε α}
    (hp : p.Given A P Q) (h : ∀ x, p.Given A P (R x)) :
    p.Given A P fun outcome ↦ ∀ x, R x outcome := by
  induction p with
  | ret a => exact h
  | raise e => exact h
  | call op next ih =>
    exact ⟨hp.1, fun answer hanswer ↦ ih answer (hp.2 answer hanswer) fun x ↦ (h x).2 answer hanswer⟩

theorem Given.bind {R : Except ε β → Prop} {p : Prog Op Ans ε α} {f : α → Prog Op Ans ε β}
    (hp : p.Given A P Q) (hf : ∀ a, Q (.ok a) → (f a).Given A P R)
    (herror : ∀ e, Q (.error e) → R (.error e)) : (p >>= f).Given A P R := by
  induction p with
  | ret a => exact hf a hp
  | raise e => exact herror e hp
  | call op next ih => exact ⟨hp.1, fun answer hanswer ↦ ih answer (hp.2 answer hanswer)⟩

theorem Given.handle {R : Except ε α → Prop} {p : Prog Op Ans ε α} {f : ε → Prog Op Ans ε α}
    (hp : p.Given A P Q) (hok : ∀ a, Q (.ok a) → R (.ok a))
    (hf : ∀ e, Q (.error e) → (f e).Given A P R) : (p.handle f).Given A P R := by
  induction p with
  | ret a => exact hok a hp
  | raise e => exact hf e hp
  | call op next ih => exact ⟨hp.1, fun answer hanswer ↦ ih answer (hp.2 answer hanswer)⟩

theorem given_perform (op : Op) {Q : Except ε (Ans op) → Prop} (hop : P op)
    (hanswer : ∀ answer, A op answer → Q answer) :
    (perform op : Prog Op Ans ε (Ans op)).Given A P Q := by
  refine ⟨hop, fun answer h ↦ ?_⟩
  cases answer with
  | ok a => exact hanswer _ h
  | error e => exact hanswer _ h

theorem given_ofExcept {x : Except ε α} (h : Q x) : (ofExcept x : Prog Op Ans ε α).Given A P Q := by
  cases x with
  | ok a => exact h
  | error e => exact h

theorem given_forEach {Q : Except ε Unit → Prop} {f : ξ → Prog Op Ans ε Unit} {xs : List ξ}
    (hend : Q (.ok ())) (h : ∀ x ∈ xs, (f x).Given A P Q) : (forEach f xs).Given A P Q := by
  induction xs with
  | nil => exact hend
  | cons x xs ih =>
    refine (h x List.mem_cons_self).bind (fun _ _ ↦ ?_) fun _ he ↦ he
    exact ih fun y hy ↦ h y (List.mem_cons_of_mem x hy)

theorem given_mapEach {Q : Except ε (List β) → Prop} {f : ξ → Prog Op Ans ε β} {xs : List ξ}
    (hend : ∀ ys, Q (.ok ys))
    (h : ∀ x ∈ xs, (f x).Given A P fun outcome ↦ ∀ e, outcome = .error e → Q (.error e)) :
    (mapEach f xs).Given A P Q := by
  induction xs generalizing Q with
  | nil => exact hend []
  | cons x xs ih =>
    refine (h x List.mem_cons_self).bind (fun y _ ↦ ?_) fun e he ↦ he e rfl
    refine (ih hend fun z hz ↦ h z (List.mem_cons_of_mem x hz)).bind (fun ys _ ↦ hend _) ?_
    exact fun e he ↦ he

/-! ## Jobs that share a service -/

section Shared

variable {ι χ σ : Type} [DecidableEq ι] {exec : χ → (op : Op) → σ → σ × Except ε (Ans op)}
  {jobs : ι → Job Op Ans ε α} {I : σ → Prop} {Q : ι → Except ε (Pass α) → Prop} {store : σ}
  {ok : Shared ι Op Ans ε α σ → ι × χ → Prop} {s : Shared ι Op Ans ε α σ}

theorem reaches_given (hkeep : ∀ c op s, I s → P op → I (exec c op s).1)
    (hanswer : ∀ c op s, I s → P op → A op (exec c op s).2)
    (hjobs : ∀ i n, (jobs i n).Given A P (Q i)) (hstore : I store)
    (h : Reaches (machine exec jobs) ok (Shared.start jobs store) s) :
    I s.store ∧ ∀ i, (s.now i).Given A P (Q i) := by
  apply h.invariant (I := fun s ↦ I s.store ∧ ∀ i, (s.now i).Given A P (Q i))
    ⟨hstore, fun i ↦ hjobs i 0⟩
  rintro t event u ⟨hI, hnow⟩ - hstep
  have hresume : ∀ {w : World ι Op Ans ε σ} {p : Prog Op Ans ε (Pass α)},
      p.Given A P (Q event.1) → ∀ i, ((t.resume w event.1 p).now i).Given A P (Q i) := by
    intro w p hp i
    by_cases hi : i = event.1
    · subst hi
      rwa [Shared.resume_now]
    · rw [Shared.resume_now_of_ne _ _ hi]
      exact hnow i
  cases stepped_of_step hstep with
  | call op next hcall =>
    have hown := hnow event.1
    rw [hcall] at hown
    refine ⟨hkeep event.2 op t.store hI hown.1, hresume ?_⟩
    exact hown.2 _ (hanswer event.2 op t.store hI hown.1)
  | again n hagain => exact ⟨hI, hresume (hjobs event.1 n)⟩

omit [DecidableEq ι] in
/-- The outcome of a job that has returned. -/
theorem outcome_of_returned {i : ι} {a : α} (h : (s.now i).Given A P (Q i))
    (hreturned : s.Returned i a) : Q i (.ok (.done a)) := by
  rw [hreturned] at h
  exact h

end Shared

end PennCloud.Library.Programs.Prog
