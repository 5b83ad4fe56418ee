import PennCloud.Library.Runs
import Mathlib.Logic.Function.Basic

/-!
# Programs that call a service

A program returns, raises an exception, or calls an operation and goes on with the answer, which may
be an exception too. A job is the body of a loop: every pass of it asks for another pass or
is the last one. Jobs share a service and interleave call by call; the world of a run
is the state of the service and the calls answered so far.
-/

open PennCloud.Library.Runs

namespace PennCloud.Library.Programs

inductive Prog (Op : Type) (Ans : Op → Type) (ε α : Type) : Type
  | ret (a : α)
  | raise (e : ε)
  | call (op : Op) (next : Except ε (Ans op) → Prog Op Ans ε α)

/-- The end of a pass. -/
inductive Pass (α : Type) : Type
  | again (n : ℕ)
  | done (a : α)
  deriving DecidableEq

namespace Prog

variable {Op : Type} {Ans : Op → Type} {ε α β : Type}

def bind : Prog Op Ans ε α → (α → Prog Op Ans ε β) → Prog Op Ans ε β
  | ret a, f => f a
  | raise e, _ => raise e
  | call op next, f => call op fun answer ↦ (next answer).bind f

/-- `try p catch f`. -/
def handle : Prog Op Ans ε α → (ε → Prog Op Ans ε α) → Prog Op Ans ε α
  | ret a, _ => ret a
  | raise e, f => f e
  | call op next, f => call op fun answer ↦ (next answer).handle f

instance : Monad (Prog Op Ans ε) where
  pure := ret
  bind := bind

/-- Call one operation. -/
def perform (op : Op) : Prog Op Ans ε (Ans op) :=
  call op fun
    | .ok a => ret a
    | .error e => raise e

def ofExcept : Except ε α → Prog Op Ans ε α
  | .ok a => ret a
  | .error e => raise e

/-- `for x in xs`. -/
def forEach {ξ : Type} (f : ξ → Prog Op Ans ε Unit) : List ξ → Prog Op Ans ε Unit
  | [] => ret ()
  | x :: xs => do
    f x
    forEach f xs

/-- `for x in xs`, collecting the results. -/
def mapEach {ξ : Type} (f : ξ → Prog Op Ans ε β) : List ξ → Prog Op Ans ε (List β)
  | [] => ret []
  | x :: xs => do
    let y ← f x
    let ys ← mapEach f xs
    return y :: ys

@[simp]
theorem ret_bind (a : α) (f : α → Prog Op Ans ε β) : ret a >>= f = f a := rfl

theorem bind_assoc {γ : Type} (p : Prog Op Ans ε α) (f : α → Prog Op Ans ε β)
    (g : β → Prog Op Ans ε γ) : p >>= f >>= g = p >>= fun a ↦ f a >>= g := by
  induction p with
  | ret a => rfl
  | raise e => rfl
  | call op next ih => exact congrArg (call op) (funext ih)

theorem forEach_map {ξ χ : Type} (f : ξ → Prog Op Ans ε Unit) (g : χ → ξ) (xs : List χ) :
    forEach f (xs.map g) = forEach (fun x ↦ f (g x)) xs := by
  induction xs with
  | nil => rfl
  | cons x xs ih => rw [List.map_cons, forEach, forEach, ih]

/-! ## The operations of a program -/

/-- Whatever the answers are, only such operations are called. -/
def Only (P : Op → Prop) : Prog Op Ans ε α → Prop
  | ret _ => True
  | raise _ => True
  | call op next => P op ∧ ∀ answer, (next answer).Only P

variable {P : Op → Prop}

theorem Only.bind {p : Prog Op Ans ε α} {f : α → Prog Op Ans ε β} (hp : p.Only P)
    (hf : ∀ a, (f a).Only P) : (p >>= f).Only P := by
  induction p with
  | ret a => exact hf a
  | raise e => exact trivial
  | call op next ih => exact ⟨hp.1, fun answer ↦ ih answer (hp.2 answer)⟩

theorem Only.handle {p : Prog Op Ans ε α} {f : ε → Prog Op Ans ε α} (hp : p.Only P)
    (hf : ∀ e, (f e).Only P) : (p.handle f).Only P := by
  induction p with
  | ret a => exact trivial
  | raise e => exact hf e
  | call op next ih => exact ⟨hp.1, fun answer ↦ ih answer (hp.2 answer)⟩

theorem only_of_forall (h : ∀ op, P op) (p : Prog Op Ans ε α) : p.Only P := by
  induction p with
  | ret a => exact trivial
  | raise e => exact trivial
  | call op next ih => exact ⟨h op, ih⟩

theorem only_perform {op : Op} (h : P op) : (perform op : Prog Op Ans ε (Ans op)).Only P := by
  refine ⟨h, fun answer ↦ ?_⟩
  cases answer with
  | ok a => exact trivial
  | error e => exact trivial

theorem only_ofExcept (x : Except ε α) : (ofExcept x : Prog Op Ans ε α).Only P := by
  cases x with
  | ok a => exact trivial
  | error e => exact trivial

theorem only_ite {c : Prop} [Decidable c] {p q : Prog Op Ans ε α} (hp : p.Only P) (hq : q.Only P) :
    (if c then p else q).Only P := by
  split
  · exact hp
  · exact hq

theorem only_forEach {ξ : Type} {f : ξ → Prog Op Ans ε Unit} {xs : List ξ}
    (h : ∀ x ∈ xs, (f x).Only P) : (forEach f xs).Only P := by
  induction xs with
  | nil => exact trivial
  | cons x xs ih =>
    exact (h x List.mem_cons_self).bind fun _ ↦ ih fun y hy ↦ h y (List.mem_cons_of_mem x hy)

theorem only_mapEach {ξ : Type} {f : ξ → Prog Op Ans ε β} {xs : List ξ}
    (h : ∀ x ∈ xs, (f x).Only P) : (mapEach f xs).Only P := by
  induction xs with
  | nil => exact trivial
  | cons x xs ih =>
    apply (h x List.mem_cons_self).bind
    intro y
    apply (ih fun z hz ↦ h z (List.mem_cons_of_mem x hz)).bind
    exact fun _ ↦ trivial

theorem Only.mono {Q : Op → Prop} (himp : ∀ op, P op → Q op) {p : Prog Op Ans ε α}
    (h : p.Only P) : p.Only Q := by
  induction p with
  | ret a => exact trivial
  | raise e => exact trivial
  | call op next ih => exact ⟨himp op h.1, fun answer ↦ ih answer (h.2 answer)⟩

/-- Whatever the answers are, the program returns only such values. -/
def Returns (Q : α → Prop) : Prog Op Ans ε α → Prop
  | ret a => Q a
  | raise _ => True
  | call _ next => ∀ answer, (next answer).Returns Q

variable {Q : α → Prop}

theorem Returns.mono {Q' : α → Prop} (himp : ∀ a, Q a → Q' a) {p : Prog Op Ans ε α}
    (h : p.Returns Q) : p.Returns Q' := by
  induction p with
  | ret a => exact himp a h
  | raise e => exact trivial
  | call op next ih => exact fun answer ↦ ih answer (h answer)

theorem returns_of_forall (h : ∀ a, Q a) (p : Prog Op Ans ε α) : p.Returns Q := by
  induction p with
  | ret a => exact h a
  | raise e => exact trivial
  | call op next ih => exact ih

theorem returns_bind {p : Prog Op Ans ε β} {f : β → Prog Op Ans ε α}
    (h : ∀ b, (f b).Returns Q) : (p >>= f).Returns Q := by
  induction p with
  | ret b => exact h b
  | raise e => exact trivial
  | call op next ih => exact fun answer ↦ ih answer

/-! ## Alone with the service -/

/-- Run a program to its end. -/
def run {σ : Type} (exec : (op : Op) → σ → σ × Except ε (Ans op)) :
    Prog Op Ans ε α → σ → σ × Except ε α
  | ret a, s => (s, .ok a)
  | raise e, s => (s, .error e)
  | call op next, s => (next (exec op s).2).run exec (exec op s).1

section Run

variable {σ : Type} {exec : (op : Op) → σ → σ × Except ε (Ans op)}

@[simp]
theorem run_ret (a : α) (s : σ) : (ret a : Prog Op Ans ε α).run exec s = (s, .ok a) := rfl

@[simp]
theorem run_perform (op : Op) (s : σ) :
    (perform op : Prog Op Ans ε (Ans op)).run exec s = exec op s := by
  simp only [perform, run]
  generalize exec op s = outcome
  obtain ⟨t, answer⟩ := outcome
  cases answer with
  | ok a => rfl
  | error e => rfl

theorem run_bind (p : Prog Op Ans ε α) (f : α → Prog Op Ans ε β) (s : σ) :
    (p >>= f).run exec s =
      match p.run exec s with
      | (t, .ok a) => (f a).run exec t
      | (t, .error e) => (t, .error e) := by
  induction p generalizing s with
  | ret a => rfl
  | raise e => rfl
  | call op next ih => exact ih _ _

/-- A loop whose body changes the state and returns. -/
theorem run_forEach {ξ : Type} {f : ξ → Prog Op Ans ε Unit} {g : σ → ξ → σ} {xs : List ξ}
    (h : ∀ x ∈ xs, ∀ s, (f x).run exec s = (g s x, .ok ())) (s : σ) :
    (forEach f xs).run exec s = (xs.foldl g s, .ok ()) := by
  induction xs generalizing s with
  | nil => rfl
  | cons x xs ih =>
    rw [forEach, run_bind, h x List.mem_cons_self]
    exact ih (fun y hy ↦ h y (List.mem_cons_of_mem x hy)) _

/-- A loop with a member that never gets through. -/
theorem run_mapEach_error {ξ : Type} {f : ξ → Prog Op Ans ε β} {P : ε → Prop} {xs : List ξ}
    (herror : ∀ x ∈ xs, ∀ s e, ((f x).run exec s).2 = .error e → P e)
    (hstuck : ∃ x ∈ xs, ∀ s a, ((f x).run exec s).2 ≠ .ok a) (s : σ) :
    ∃ t e, (mapEach f xs).run exec s = (t, .error e) ∧ P e := by
  induction xs generalizing s with
  | nil =>
    obtain ⟨x, hx, -⟩ := hstuck
    exact absurd hx List.not_mem_nil
  | cons x xs ih =>
    obtain ⟨hhead, htail⟩ := List.forall_mem_cons.mp herror
    rw [mapEach, run_bind]
    cases hrun : (f x).run exec s with
    | mk t outcome =>
      cases outcome with
      | error e => exact ⟨t, e, rfl, hhead s e (by rw [hrun])⟩
      | ok y =>
        obtain ⟨z, hz, hnever⟩ := hstuck
        have hrest : ∃ z ∈ xs, ∀ s a, ((f z).run exec s).2 ≠ .ok a := by
          rcases List.mem_cons.mp hz with rfl | hlater
          · exact absurd (by rw [hrun]) (hnever s y)
          · exact ⟨z, hlater, hnever⟩
        obtain ⟨u, e, hmap, he⟩ := ih htail hrest t
        refine ⟨u, e, ?_, he⟩
        dsimp only
        rw [run_bind, hmap]

theorem run_handle (p : Prog Op Ans ε α) (f : ε → Prog Op Ans ε α) (s : σ) :
    (p.handle f).run exec s =
      match p.run exec s with
      | (t, .ok a) => (t, .ok a)
      | (t, .error e) => (f e).run exec t := by
  induction p generalizing s with
  | ret a => rfl
  | raise e => rfl
  | call op next ih => exact ih _ _

end Run

end Prog

/-! ## Jobs -/

/-- The body of the outermost loop, for every number of a pass. -/
abbrev Job (Op : Type) (Ans : Op → Type) (ε α : Type) := ℕ → Prog Op Ans ε (Pass α)

/-- A job without a loop. -/
def once {Op : Type} {Ans : Op → Type} {ε α : Type} (p : Prog Op Ans ε α) : Job Op Ans ε α :=
  fun _ ↦ do return .done (← p)

/-- Alone, pass after pass up to the last one; no more than so many. -/
def runJob {Op : Type} {Ans : Op → Type} {ε α σ : Type}
    (exec : (op : Op) → σ → σ × Except ε (Ans op)) (job : Job Op Ans ε α) :
    ℕ → ℕ → σ → Option (σ × Except ε α)
  | 0, _, _ => none
  | passes + 1, n, s =>
    match (job n).run exec s with
    | (t, .ok (.again m)) => runJob exec job passes m t
    | (t, .ok (.done a)) => some (t, .ok a)
    | (t, .error e) => some (t, .error e)

/-- Without a loop the first pass is the last one. -/
theorem runJob_once {Op : Type} {Ans : Op → Type} {ε α σ : Type}
    (exec : (op : Op) → σ → σ × Except ε (Ans op)) (p : Prog Op Ans ε α) (passes n : ℕ) (s : σ) :
    runJob exec (once p) (passes + 1) n s = some (p.run exec s) := by
  have hpass : (once p n).run exec s = match p.run exec s with
      | (t, .ok a) => (t, .ok (.done a))
      | (t, .error e) => (t, .error e) := Prog.run_bind p _ s
  rw [runJob, hpass]
  generalize p.run exec s = outcome
  obtain ⟨t, answer⟩ := outcome
  cases answer with
  | ok a => rfl
  | error e => rfl

/-- An answered call. -/
structure Call (ι Op : Type) (Ans : Op → Type) (ε : Type) : Type where
  caller : ι
  op : Op
  answer : Except ε (Ans op)

structure World (ι Op : Type) (Ans : Op → Type) (ε σ : Type) : Type where
  store : σ
  past : List (Call ι Op Ans ε) := []

/-- Jobs that share a service: the world, and what each job still has to do in its pass. -/
structure Shared (ι Op : Type) (Ans : Op → Type) (ε α σ : Type) : Type
    extends World ι Op Ans ε σ where
  now : ι → Prog Op Ans ε (Pass α)

section

variable {ι Op : Type} [DecidableEq ι] {Ans : Op → Type} {ε α σ χ : Type}

/-- The calls of one job. -/
def World.calls (w : World ι Op Ans ε σ) (i : ι) : List (Call ι Op Ans ε) :=
  w.past.filter fun call ↦ call.caller = i

/-- The service answers a call. -/
def World.answer (exec : χ → (op : Op) → σ → σ × Except ε (Ans op)) (w : World ι Op Ans ε σ)
    (i : ι) (c : χ) (op : Op) : World ι Op Ans ε σ where
  store := (exec c op w.store).1
  past := w.past ++ [{ caller := i, op := op, answer := (exec c op w.store).2 }]

variable (exec : χ → (op : Op) → σ → σ × Except ε (Ans op))

theorem World.calls_answer (w : World ι Op Ans ε σ) (i : ι) (c : χ) (op : Op) :
    (w.answer exec i c op).calls i =
      w.calls i ++ [{ caller := i, op := op, answer := (exec c op w.store).2 }] := by
  simp [World.calls, World.answer]

theorem World.calls_answer_of_ne (w : World ι Op Ans ε σ) {i j : ι} (h : i ≠ j) (c : χ)
    (op : Op) : (w.answer exec i c op).calls j = w.calls j := by
  simp [World.calls, World.answer, h]

/-- The job goes on with this in this world. -/
def Shared.resume (s : Shared ι Op Ans ε α σ) (w : World ι Op Ans ε σ) (i : ι)
    (p : Prog Op Ans ε (Pass α)) : Shared ι Op Ans ε α σ where
  toWorld := w
  now := Function.update s.now i p

@[simp]
theorem Shared.resume_toWorld (s : Shared ι Op Ans ε α σ) (w : World ι Op Ans ε σ) (i : ι)
    (p : Prog Op Ans ε (Pass α)) : (s.resume w i p).toWorld = w := rfl

theorem Shared.resume_now (s : Shared ι Op Ans ε α σ) (w : World ι Op Ans ε σ) (i : ι)
    (p : Prog Op Ans ε (Pass α)) : (s.resume w i p).now i = p := Function.update_self _ _ _

theorem Shared.resume_now_of_ne (s : Shared ι Op Ans ε α σ) (w : World ι Op Ans ε σ) {i j : ι}
    (h : j ≠ i) (p : Prog Op Ans ε (Pass α)) : (s.resume w i p).now j = s.now j :=
  Function.update_of_ne h _ _

/-- One call, or the start of another pass. The service may answer in several ways. -/
def Shared.step (jobs : ι → Job Op Ans ε α) (s : Shared ι Op Ans ε α σ) (event : ι × χ) :
    Option (Shared ι Op Ans ε α σ) :=
  match s.now event.1 with
  | .call op next =>
    some (s.resume (s.toWorld.answer exec event.1 event.2 op) event.1
      (next (exec event.2 op s.store).2))
  | .ret (.again n) => some (s.resume s.toWorld event.1 (jobs event.1 n))
  | .ret (.done _) => none
  | .raise _ => none

def machine (jobs : ι → Job Op Ans ε α) : Machine (Shared ι Op Ans ε α σ) (ι × χ) where
  step := Shared.step exec jobs

/-- All jobs before their first call. -/
def Shared.start (jobs : ι → Job Op Ans ε α) (store : σ) : Shared ι Op Ans ε α σ where
  store := store
  now := fun i ↦ jobs i 0

/-- The job has returned this. -/
def Shared.Returned (s : Shared ι Op Ans ε α σ) (i : ι) (a : α) : Prop := s.now i = .ret (.done a)

variable {exec} {jobs : ι → Job Op Ans ε α}

/-- What a step can do. -/
inductive Stepped (exec : χ → (op : Op) → σ → σ × Except ε (Ans op)) (jobs : ι → Job Op Ans ε α)
    (s : Shared ι Op Ans ε α σ) (event : ι × χ) : Shared ι Op Ans ε α σ → Prop
  | call (op : Op) (next : Except ε (Ans op) → Prog Op Ans ε (Pass α))
      (hnow : s.now event.1 = .call op next) :
      Stepped exec jobs s event (s.resume (s.toWorld.answer exec event.1 event.2 op) event.1
        (next (exec event.2 op s.store).2))
  | again (n : ℕ) (hnow : s.now event.1 = .ret (.again n)) :
      Stepped exec jobs s event (s.resume s.toWorld event.1 (jobs event.1 n))

theorem stepped_of_step {s t : Shared ι Op Ans ε α σ} {event : ι × χ}
    (h : (machine exec jobs).step s event = some t) : Stepped exec jobs s event t := by
  simp only [machine, Shared.step] at h
  split at h
  · next op next hnow =>
    obtain rfl := Option.some.inj h
    exact .call op next hnow
  · next n hnow =>
    obtain rfl := Option.some.inj h
    exact .again n hnow
  · cases h
  · cases h

/-- What has been done keeps within bounds, and so does what is left of each pass. -/
structure Confined (P : ι → Op → Prop) (Q : ι → Pass α → Prop) (s : Shared ι Op Ans ε α σ) :
    Prop where
  calls : ∀ i, (s.now i).Only (P i)
  returns : ∀ i, (s.now i).Returns (Q i)
  past : ∀ call ∈ s.past, P call.caller call.op

theorem reaches_confined {P : ι → Op → Prop} {Q : ι → Pass α → Prop}
    (hcalls : ∀ i n, (jobs i n).Only (P i)) (hreturns : ∀ i n, (jobs i n).Returns (Q i)) {store : σ}
    {ok : Shared ι Op Ans ε α σ → ι × χ → Prop} {s : Shared ι Op Ans ε α σ}
    (h : Reaches (machine exec jobs) ok (Shared.start jobs store) s) : Confined P Q s := by
  apply h.invariant ⟨fun i ↦ hcalls i 0, fun i ↦ hreturns i 0,
    fun call hmem ↦ absurd hmem List.not_mem_nil⟩
  intro t event u ht _ hstep
  -- The pass that goes on is the only one that changes.
  have hresume : ∀ w p, p.Only (P event.1) → p.Returns (Q event.1) →
      (∀ call ∈ w.past, P call.caller call.op) → Confined P Q (t.resume w event.1 p) := by
    intro w p honly hret hpast
    refine ⟨fun i ↦ ?_, fun i ↦ ?_, hpast⟩
    · by_cases hi : i = event.1
      · subst hi
        rwa [Shared.resume_now]
      · rw [Shared.resume_now_of_ne _ _ hi]
        exact ht.calls i
    · by_cases hi : i = event.1
      · subst hi
        rwa [Shared.resume_now]
      · rw [Shared.resume_now_of_ne _ _ hi]
        exact ht.returns i
  cases stepped_of_step hstep with
  | call op next hcall =>
    have honly := ht.calls event.1
    have hret := ht.returns event.1
    rw [hcall] at honly hret
    apply hresume _ _ (honly.2 _) (hret _)
    intro call hmem
    rcases List.mem_append.mp hmem with hold | hnew
    · exact ht.past call hold
    · obtain rfl := List.mem_singleton.mp hnew
      exact honly.1
  | again n hagain => exact hresume _ _ (hcalls _ n) (hreturns _ n) ht.past

/-- A job that calls nothing stands where it began. -/
theorem reaches_now_eq {i : ι} {p : Prog Op Ans ε (Pass α)} (hjob : ∀ n, jobs i n = p)
    (hcalls : p.Only fun _ ↦ False) {store : σ} {ok : Shared ι Op Ans ε α σ → ι × χ → Prop}
    {s : Shared ι Op Ans ε α σ}
    (h : Reaches (machine exec jobs) ok (Shared.start jobs store) s) : s.now i = p := by
  apply h.invariant (hjob 0)
  intro t event u ht _ hstep
  by_cases hi : i = event.1
  · subst hi
    cases stepped_of_step hstep with
    | call op next hcall =>
      rw [hcall] at ht
      subst ht
      exact hcalls.1.elim
    | again n hagain => rw [Shared.resume_now, hjob n]
  · cases stepped_of_step hstep with
    | call op next hcall => rwa [Shared.resume_now_of_ne _ _ hi]
    | again n hagain => rwa [Shared.resume_now_of_ne _ _ hi]

omit [DecidableEq ι] in
theorem Confined.returned {P : ι → Op → Prop} {Q : ι → Pass α → Prop} {s : Shared ι Op Ans ε α σ}
    (h : Confined P Q s) {i : ι} {a : α} (hreturned : s.Returned i a) : Q i (.done a) := by
  have hreturns := h.returns i
  rw [hreturned] at hreturns
  exact hreturns

end

end PennCloud.Library.Programs
