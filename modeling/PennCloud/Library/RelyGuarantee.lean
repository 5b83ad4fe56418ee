import PennCloud.Library.Programs
import Mathlib.Logic.Relation

/-!
# Rely and guarantee

A contract says of one job which calls are allowed, what it relies on between its own calls and
what each of its calls guarantees. A program meets its contract with a postcondition when this
can be read off call by call, from the world in which it stands; loops go by an invariant of the
passes. Where every guarantee is what the other jobs rely on, each job keeps its postcondition
in every interleaving.
-/

open PennCloud.Library.Runs PennCloud.Library.Programs

namespace PennCloud.Library.RelyGuarantee

variable {ι Op : Type} {Ans : Op → Type} {ε α β σ χ : Type}

structure Contract (ι Op : Type) (Ans : Op → Type) (ε σ : Type) : Type where
  allowed : Op → World ι Op Ans ε σ → Prop
  rely : World ι Op Ans ε σ → World ι Op Ans ε σ → Prop
  guarantee : World ι Op Ans ε σ → World ι Op Ans ε σ → Prop
  rely_refl : ∀ w, rely w w
  rely_trans : ∀ {u v w}, rely u v → rely v w → rely u w

variable [DecidableEq ι]

/-- What can happen between two calls of a job. -/
def Contract.Others (C : Contract ι Op Ans ε σ) (i : ι) (w v : World ι Op Ans ε σ) : Prop :=
  C.rely w v ∧ v.calls i = w.calls i

theorem Contract.others_refl (C : Contract ι Op Ans ε σ) (i : ι) (w : World ι Op Ans ε σ) :
    C.Others i w w := ⟨C.rely_refl w, rfl⟩

theorem Contract.Others.trans {C : Contract ι Op Ans ε σ} {i : ι} {u v w : World ι Op Ans ε σ}
    (huv : C.Others i u v) (hvw : C.Others i v w) : C.Others i u w :=
  ⟨C.rely_trans huv.1 hvw.1, hvw.2.trans huv.2⟩

variable (exec : χ → (op : Op) → σ → σ × Except ε (Ans op)) (C : Contract ι Op Ans ε σ) (i : ι)

/-- It holds now, and whatever the other jobs do next. -/
def Lasting (C : Contract ι Op Ans ε σ) (i : ι) (P : World ι Op Ans ε σ → Prop)
    (w : World ι Op Ans ε σ) : Prop := ∀ v, C.Others i w v → P v

/-- The program keeps its part of the contract; it returns into `P` and throws into `E`. -/
def Meets (P : α → World ι Op Ans ε σ → Prop) (E : ε → World ι Op Ans ε σ → Prop) :
    Prog Op Ans ε α → World ι Op Ans ε σ → Prop
  | .ret a, w => Lasting C i (P a) w
  | .raise e, w => Lasting C i (E e) w
  | .call op next, w => ∀ v, C.Others i w v → C.allowed op v → ∀ c,
      C.guarantee v (v.answer exec i c op) ∧
        Meets P E (next (exec c op v.store).2) (v.answer exec i c op)

/-- The same for an answer. -/
def Ends (P : α → World ι Op Ans ε σ → Prop) (E : ε → World ι Op Ans ε σ → Prop) :
    Except ε α → World ι Op Ans ε σ → Prop
  | .ok a => P a
  | .error e => E e

variable {exec C i} {P : α → World ι Op Ans ε σ → Prop} {E : ε → World ι Op Ans ε σ → Prop}

theorem Lasting.now {P : World ι Op Ans ε σ → Prop} {w : World ι Op Ans ε σ}
    (h : Lasting C i P w) : P w := h w (C.others_refl i w)

theorem Lasting.later {P : World ι Op Ans ε σ → Prop} {w v : World ι Op Ans ε σ}
    (h : Lasting C i P w) (hv : C.Others i w v) : Lasting C i P v := fun u hu ↦ h u (hv.trans hu)

/-- What the other jobs do meanwhile does not matter. -/
theorem Meets.later {p : Prog Op Ans ε α} {w v : World ι Op Ans ε σ}
    (h : Meets exec C i P E p w) (hv : C.Others i w v) : Meets exec C i P E p v := by
  cases p with
  | ret a => exact Lasting.later h hv
  | raise e => exact Lasting.later h hv
  | call op next => exact fun u hu ↦ h u (hv.trans hu)

theorem Meets.mono {P' : α → World ι Op Ans ε σ → Prop} {E' : ε → World ι Op Ans ε σ → Prop}
    {p : Prog Op Ans ε α} {w : World ι Op Ans ε σ} (h : Meets exec C i P E p w)
    (hreturn : ∀ a v, P a v → P' a v) (hthrow : ∀ e v, E e v → E' e v) :
    Meets exec C i P' E' p w := by
  induction p generalizing w with
  | ret a => exact fun v hv ↦ hreturn _ v (h v hv)
  | raise e => exact fun v hv ↦ hthrow _ v (h v hv)
  | call op next ih => exact fun v hv hallowed c ↦ ⟨(h v hv hallowed c).1, ih _ (h v hv hallowed c).2⟩

theorem Meets.bind {P' : β → World ι Op Ans ε σ → Prop} {p : Prog Op Ans ε α}
    {f : α → Prog Op Ans ε β} {w : World ι Op Ans ε σ} (h : Meets exec C i P E p w)
    (hnext : ∀ a v, Lasting C i (P a) v → Meets exec C i P' E (f a) v) :
    Meets exec C i P' E (p >>= f) w := by
  induction p generalizing w with
  | ret a => exact hnext a w h
  | raise e => exact h
  | call op next ih => exact fun v hv hallowed c ↦ ⟨(h v hv hallowed c).1, ih _ (h v hv hallowed c).2⟩

theorem Meets.handle {E' : ε → World ι Op Ans ε σ → Prop} {p : Prog Op Ans ε α}
    {f : ε → Prog Op Ans ε α} {w : World ι Op Ans ε σ} (h : Meets exec C i P E' p w)
    (hcaught : ∀ e v, Lasting C i (E' e) v → Meets exec C i P E (f e) v) :
    Meets exec C i P E (p.handle f) w := by
  induction p generalizing w with
  | ret a => exact h
  | raise e => exact hcaught e w h
  | call op next ih => exact fun v hv hallowed c ↦ ⟨(h v hv hallowed c).1, ih _ (h v hv hallowed c).2⟩

theorem meets_perform {op : Op} {P : Ans op → World ι Op Ans ε σ → Prop} {w : World ι Op Ans ε σ}
    (h : ∀ v, C.Others i w v → C.allowed op v → ∀ c, C.guarantee v (v.answer exec i c op) ∧
      Lasting C i (Ends P E (exec c op v.store).2) (v.answer exec i c op)) :
    Meets exec C i P E (Prog.perform op) w := by
  intro v hv hallowed c
  refine ⟨(h v hv hallowed c).1, ?_⟩
  have hend := (h v hv hallowed c).2
  cases hanswer : (exec c op v.store).2 with
  | ok a =>
    rw [hanswer] at hend
    exact hend
  | error e =>
    rw [hanswer] at hend
    exact hend

/-- A loop over a list, by an invariant about what is left of the list. -/
theorem meets_forEach {ξ : Type} {f : ξ → Prog Op Ans ε Unit}
    {I : List ξ → World ι Op Ans ε σ → Prop} {xs : List ξ} {w : World ι Op Ans ε σ}
    (hinit : Lasting C i (I xs) w)
    (hstep : ∀ x xs v, Lasting C i (I (x :: xs)) v → Meets exec C i (fun _ ↦ I xs) E (f x) v) :
    Meets exec C i (fun _ ↦ I []) E (Prog.forEach f xs) w := by
  induction xs generalizing w with
  | nil => exact hinit
  | cons x xs ih => exact (hstep x xs w hinit).bind fun _ v hv ↦ ih hv

/-- A loop that collects results, by an invariant and a relation between members and results. -/
theorem meets_mapEach {ξ : Type} {f : ξ → Prog Op Ans ε β} {Q : ξ → β → Prop}
    {I : World ι Op Ans ε σ → Prop} {xs : List ξ} {w : World ι Op Ans ε σ} (hinit : Lasting C i I w)
    (hstep : ∀ x ∈ xs, ∀ v, Lasting C i I v → Meets exec C i (fun y u ↦ Q x y ∧ I u) E (f x) v) :
    Meets exec C i (fun ys u ↦ List.Forall₂ Q xs ys ∧ I u) E (Prog.mapEach f xs) w := by
  induction xs generalizing w with
  | nil => exact fun v hv ↦ ⟨.nil, hinit v hv⟩
  | cons x xs ih =>
    refine (hstep x List.mem_cons_self w hinit).bind fun y v hy ↦ ?_
    have hrest := ih (fun u hu ↦ (hy u hu).2) fun z hz ↦ hstep z (List.mem_cons_of_mem x hz)
    refine hrest.bind fun ys u hys x hx ↦ ?_
    exact ⟨.cons hy.now.1 (hys x hx).1, (hys x hx).2⟩

/-! ## A job alone -/

/-- Nobody else calls the service. -/
def alone : Contract Unit Op Ans ε σ where
  allowed := fun _ _ ↦ True
  rely := Eq
  guarantee := fun _ _ ↦ True
  rely_refl := fun _ ↦ rfl
  rely_trans := Eq.trans

theorem lasting_alone {P : World Unit Op Ans ε σ → Prop} {w : World Unit Op Ans ε σ} (h : P w) :
    Lasting alone () P w := by
  rintro v ⟨rfl, -⟩
  exact h

/-- What a program that nobody disturbs meets is so of its run. -/
theorem Meets.run {P : α → World Unit Op Ans ε σ → Prop} {E : ε → World Unit Op Ans ε σ → Prop}
    {p : Prog Op Ans ε α} {w : World Unit Op Ans ε σ} (h : Meets exec alone () P E p w) (c : χ) :
    ∃ v, v.store = (p.run (exec c) w.store).1 ∧ Ends P E (p.run (exec c) w.store).2 v := by
  induction p generalizing w with
  | ret a => exact ⟨w, rfl, Lasting.now h⟩
  | raise e => exact ⟨w, rfl, Lasting.now h⟩
  | call op next ih => exact ih _ (h w (alone.others_refl () w) trivial c).2

/-! ## Jobs that take turns -/

/-- A relation says what a turn of each job can do; a job relies on the turns of the others. -/
def turns (allowed : Op → World ι Op Ans ε σ → Prop)
    (turn : ι → World ι Op Ans ε σ → World ι Op Ans ε σ → Prop) (i : ι) :
    Contract ι Op Ans ε σ where
  allowed := allowed
  rely := Relation.ReflTransGen fun w v ↦ ∃ j, j ≠ i ∧ turn j w v
  guarantee := turn i
  rely_refl := fun _ ↦ .refl
  rely_trans := Relation.ReflTransGen.trans

/-- What a turn of another job preserves lasts. -/
theorem lasting_turns {allowed : Op → World ι Op Ans ε σ → Prop}
    {turn : ι → World ι Op Ans ε σ → World ι Op Ans ε σ → Prop} {P : World ι Op Ans ε σ → Prop}
    (hstable : ∀ j w v, j ≠ i → turn j w v → P w → P v) {w : World ι Op Ans ε σ} (h : P w) :
    Lasting (turns allowed turn i) i P w := by
  rintro v ⟨hrely, -⟩
  change Relation.ReflTransGen (fun w v ↦ ∃ j, j ≠ i ∧ turn j w v) w v at hrely
  induction hrely with
  | refl => exact h
  | tail _ hturn ih =>
    obtain ⟨j, hj, hturn⟩ := hturn
    exact hstable j _ _ hj hturn ih

/-! ## All jobs together -/

/-- Every call is allowed by the contract of its job. -/
def AllowedStep (C : ι → Contract ι Op Ans ε σ) (s : Shared ι Op Ans ε α σ) (event : ι × χ) :
    Prop :=
  ∀ op next, s.now event.1 = .call op next → (C event.1).allowed op s.toWorld

variable {jobs : ι → Job Op Ans ε α} {C : ι → Contract ι Op Ans ε σ}
  {P : ι → Pass α → World ι Op Ans ε σ → Prop} {E : ι → ε → World ι Op Ans ε σ → Prop} {store : σ}
  {s : Shared ι Op Ans ε α σ}

theorem reaches_meets (hstart : ∀ i, Lasting (C i) i (P i (.again 0)) { store := store })
    (hpass : ∀ i n w, Lasting (C i) i (P i (.again n)) w →
      Meets exec (C i) i (P i) (E i) (jobs i n) w)
    (hcompatible : ∀ i j w v, i ≠ j → (C i).guarantee w v → (C j).rely w v)
    (h : Reaches (machine exec jobs) (AllowedStep C) (Shared.start jobs store) s) :
    ∀ i, Meets exec (C i) i (P i) (E i) (s.now i) s.toWorld := by
  apply h.invariant fun i ↦ hpass i 0 _ (hstart i)
  intro t event u ht hallowed hstep
  cases stepped_of_step hstep with
  | call op next hcall =>
    have hown := ht event.1
    rw [hcall] at hown
    obtain ⟨hguarantee, hnext⟩ :=
      hown t.toWorld ((C event.1).others_refl _ _) (hallowed op next hcall) event.2
    intro i
    by_cases hi : i = event.1
    · subst hi
      rw [Shared.resume_now]
      exact hnext
    · rw [Shared.resume_now_of_ne _ _ hi]
      exact (ht i).later ⟨hcompatible event.1 i _ _ (Ne.symm hi) hguarantee,
        World.calls_answer_of_ne exec _ (Ne.symm hi) _ _⟩
  | again n hagain =>
    intro i
    by_cases hi : i = event.1
    · subst hi
      rw [Shared.resume_now]
      have hown := ht event.1
      rw [hagain] at hown
      exact hpass _ n _ hown
    · rw [Shared.resume_now_of_ne _ _ hi]
      exact ht i

/-- What every guarantee implies holds between the first world and every later one. -/
theorem reaches_guarantee {T : World ι Op Ans ε σ → World ι Op Ans ε σ → Prop}
    (hrefl : ∀ w, T w w) (htrans : ∀ u v w, T u v → T v w → T u w)
    (hguarantee : ∀ i w v, (C i).guarantee w v → T w v)
    (hmeets : ∀ t : Shared ι Op Ans ε α σ,
      Reaches (machine exec jobs) (AllowedStep C) (Shared.start jobs store) t →
        ∀ i, Meets exec (C i) i (P i) (E i) (t.now i) t.toWorld)
    (h : Reaches (machine exec jobs) (AllowedStep C) (Shared.start jobs store) s) :
    T { store := store } s.toWorld := by
  induction h with
  | refl => exact hrefl _
  | @tail t u event hreach hallowed hstep ih =>
    apply htrans _ _ _ ih
    cases stepped_of_step hstep with
    | call op next hcall =>
      have hown := hmeets t hreach event.1
      rw [hcall] at hown
      exact hguarantee _ _ _
        (hown t.toWorld ((C event.1).others_refl _ _) (hallowed op next hcall) event.2).1
    | again n hagain => exact hrefl _

/-- A job that has returned is in its postcondition. -/
theorem post_of_returned {i : ι} {a : α}
    (h : Meets exec (C i) i (P i) (E i) (s.now i) s.toWorld) (hreturned : s.Returned i a) :
    P i (.done a) s.toWorld := by
  rw [hreturned] at h
  exact Lasting.now h

end PennCloud.Library.RelyGuarantee
