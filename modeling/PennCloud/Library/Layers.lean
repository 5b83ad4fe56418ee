import PennCloud.Library.Linking

/-!
# Jobs on top of a client

A client carries out each operation by several calls of a service further down. Where one of these
calls makes the operation take effect and ends it, and the others change nothing, the operations are
atomic to the jobs: whatever jobs do that interleave in the calls of the service, they do also where
they interleave in whole operations.
-/

open PennCloud.Library.Runs

namespace PennCloud.Library.Programs

variable {Op Op' : Type} {Ans : Op → Type} {Ans' : Op' → Type} {ε α σ τ χ χ' : Type}

namespace Prog

section Layer

variable (exec : χ' → (op : Op') → σ → σ × Except ε (Ans' op))
  (spec : χ → (op : Op) → τ → τ × Except ε (Ans op)) (R : σ → τ → Prop)

/-- What is left of an operation that has not taken effect yet. Its next call leaves it so, or is
the last one, and has the effect and the answer of the operation. -/
def Pending (op : Op) : Prog Op' Ans' ε (Ans op) → Prop
  | ret _ => False
  | raise _ => False
  | call op' next => ∀ c s t, R s t →
      R (exec c op' s).1 t ∧ (next (exec c op' s).2).Pending op ∨
      ∃ d, R (exec c op' s).1 (spec d op t).1 ∧ next (exec c op' s).2 = ofExcept (spec d op t).2

variable (f : (op : Op) → Prog Op' Ans' ε (Ans op))

/-- A program below stands where the program on top of it stands. -/
def Follows : Prog Op Ans ε α → Prog Op' Ans' ε α → Prop
  | ret a, q => q = ret a
  | raise e, q => q = raise e
  | call op next, q => ∃ rest : Prog Op' Ans' ε (Ans op), rest.Pending exec spec R op ∧
      q = rest.andThen fun answer ↦ (next answer).expand f

variable {exec spec R f}

theorem andThen_ofExcept {β : Type} (x : Except ε α) (g : Except ε α → Prog Op Ans ε β) :
    (ofExcept x : Prog Op Ans ε α).andThen g = g x := by
  cases x with
  | ok a => rfl
  | error e => rfl

theorem follows_expand (hf : ∀ op, (f op).Pending exec spec R op) (p : Prog Op Ans ε α) :
    Follows exec spec R f p (p.expand f) := by
  cases p with
  | ret a => rfl
  | raise e => rfl
  | call op next => exact ⟨f op, hf op, rfl⟩

/-- A program below that calls is in the middle of an operation. -/
theorem Follows.of_call {p : Prog Op Ans ε α} {op' : Op'} {next : Except ε (Ans' op') → Prog Op' Ans' ε α}
    (h : Follows exec spec R f p (.call op' next)) :
    ∃ op upper rest, p = .call op upper ∧ (call op' rest).Pending exec spec R op ∧
      ∀ answer, next answer = (rest answer).andThen fun answer ↦ (upper answer).expand f := by
  cases p with
  | ret a => cases h
  | raise e => cases h
  | call op upper =>
    obtain ⟨rest, hpending, heq⟩ := h
    cases rest with
    | ret a => exact hpending.elim
    | raise e => exact hpending.elim
    | call _ rest =>
      cases heq
      exact ⟨op, upper, rest, rfl, hpending, fun _ ↦ rfl⟩

theorem Follows.of_ret {p : Prog Op Ans ε α} {a : α} (h : Follows exec spec R f p (.ret a)) :
    p = .ret a := by
  cases p with
  | ret b =>
    cases h
    rfl
  | raise e => cases h
  | call op upper =>
    obtain ⟨rest, hpending, heq⟩ := h
    cases rest with
    | ret b => exact hpending.elim
    | raise e => exact hpending.elim
    | call _ rest => cases heq

theorem Follows.of_raise {p : Prog Op Ans ε α} {e : ε} (h : Follows exec spec R f p (.raise e)) :
    p = .raise e := by
  cases p with
  | ret b => cases h
  | raise e' =>
    cases h
    rfl
  | call op upper =>
    obtain ⟨rest, hpending, heq⟩ := h
    cases rest with
    | ret b => exact hpending.elim
    | raise e' => exact hpending.elim
    | call _ rest => cases heq

end Layer

end Prog

/-! ## Interleavings -/

variable {ι : Type} [DecidableEq ι] {exec : χ' → (op : Op') → σ → σ × Except ε (Ans' op)}
  {spec : χ → (op : Op) → τ → τ × Except ε (Ans op)} {R : σ → τ → Prop}
  {f : (op : Op) → Prog Op' Ans' ε (Ans op)} {jobs : ι → Job Op Ans ε α}

/-- The jobs over the service stand where jobs over whole operations stand. -/
def Layered (exec : χ' → (op : Op') → σ → σ × Except ε (Ans' op))
    (spec : χ → (op : Op) → τ → τ × Except ε (Ans op)) (R : σ → τ → Prop)
    (f : (op : Op) → Prog Op' Ans' ε (Ans op)) (s : Shared ι Op' Ans' ε α σ)
    (t : Shared ι Op Ans ε α τ) : Prop :=
  R s.store t.store ∧ ∀ i, Prog.Follows exec spec R f (t.now i) (s.now i)

omit [DecidableEq ι] in
theorem Layered.returned {s : Shared ι Op' Ans' ε α σ} {t : Shared ι Op Ans ε α τ}
    (h : Layered exec spec R f s t) {i : ι} {a : α} (hreturned : s.Returned i a) :
    t.Returned i a := by
  have hfollows := h.2 i
  rw [hreturned] at hfollows
  exact hfollows.of_ret

/-- Steps of other jobs do not matter to a job. -/
theorem follows_resume {s : Shared ι Op' Ans' ε α σ} {t : Shared ι Op Ans ε α τ}
    {u : World ι Op' Ans' ε σ} {v : World ι Op Ans ε τ} {i : ι} {p : Prog Op Ans ε (Pass α)}
    {q : Prog Op' Ans' ε (Pass α)} (h : ∀ j, Prog.Follows exec spec R f (t.now j) (s.now j))
    (hown : Prog.Follows exec spec R f p q) (j : ι) :
    Prog.Follows exec spec R f ((t.resume v i p).now j) ((s.resume u i q).now j) := by
  by_cases hj : j = i
  · subst hj
    rwa [Shared.resume_now, Shared.resume_now]
  · rw [Shared.resume_now_of_ne _ _ hj, Shared.resume_now_of_ne _ _ hj]
    exact h j

variable [Inhabited χ]

/-- The step lemma: a call is the call of an operation, or nothing. -/
theorem Layered.step (hf : ∀ op, (f op).Pending exec spec R op) {s s' : Shared ι Op' Ans' ε α σ}
    {t : Shared ι Op Ans ε α τ} {event : ι × χ'} (h : Layered exec spec R f s t)
    (hstep : (machine exec fun i n ↦ (jobs i n).expand f).step s event = some s') :
    ∃ t', Layered exec spec R f s' t' ∧
      (t' = t ∨ ∃ event', (machine spec jobs).step t event' = some t') := by
  obtain ⟨hstore, hnow⟩ := h
  have hown := hnow event.1
  cases stepped_of_step hstep with
  | call op' next hcall =>
    rw [hcall] at hown
    obtain ⟨op, upper, rest, hupper, hpending, hnext⟩ := hown.of_call
    rcases hpending event.2 s.store t.store hstore with ⟨hkept, hrest⟩ | ⟨d, hdone, hrest⟩
    · have hsame : t = t.resume t.toWorld event.1 (t.now event.1) := by
        rw [Shared.resume, Function.update_eq_self]
      refine ⟨t.resume t.toWorld event.1 (t.now event.1), ⟨hkept, ?_⟩, .inl hsame.symm⟩
      refine follows_resume hnow ?_
      rw [hupper]
      exact ⟨_, hrest, hnext _⟩
    · refine ⟨t.resume (t.toWorld.answer spec event.1 d op) event.1 (upper (spec d op t.store).2),
        ⟨hdone, follows_resume hnow ?_⟩, .inr ⟨(event.1, d), ?_⟩⟩
      · rw [hnext, hrest, Prog.andThen_ofExcept]
        exact Prog.follows_expand hf _
      · simp only [machine, Shared.step, hupper]
  | again n hagain =>
    rw [hagain] at hown
    have hupper := hown.of_ret
    refine ⟨t.resume t.toWorld event.1 (jobs event.1 n),
      ⟨hstore, follows_resume hnow (Prog.follows_expand hf _)⟩, ?_⟩
    refine .inr ⟨(event.1, default), ?_⟩
    simp only [machine, Shared.step, hupper]

/-- Every interleaving over the service is one over whole operations, with some calls of
operations that have not taken effect yet. -/
theorem reaches_layered (hf : ∀ op, (f op).Pending exec spec R op) {store : σ} {store' : τ}
    (hstore : R store store') {ok : Shared ι Op' Ans' ε α σ → ι × χ' → Prop}
    {s : Shared ι Op' Ans' ε α σ}
    (h : Reaches (machine exec fun i n ↦ (jobs i n).expand f) ok
      (Shared.start (fun i n ↦ (jobs i n).expand f) store) s) :
    ∃ t, Layered exec spec R f s t ∧
      Reaches (machine spec jobs) anyStep (Shared.start jobs store') t := by
  refine h.simulate (Layered exec spec R f) ⟨hstore, fun i ↦ Prog.follows_expand hf _⟩ ?_
  rintro a e b c hlayered - hstep
  obtain ⟨d, hnext, rfl | ⟨e', hstep'⟩⟩ := hlayered.step hf hstep
  · exact ⟨d, hnext, .inl rfl⟩
  · exact ⟨d, hnext, .inr ⟨e', trivial, hstep'⟩⟩

end PennCloud.Library.Programs
