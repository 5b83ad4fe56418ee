import PennCloud.Library.Programs
import Mathlib.Data.List.Induction

/-!
# Sessions of many clients

A client works off a list of requests, each of them a job, one after the other. The clients share a
service and interleave call by call. Where the calls of different clients touch different parts of
the service, every client gets the answers that it gets alone, and all of them after a number
of steps of its own that does not depend on the others.
-/

open PennCloud.Library.Runs PennCloud.Library.Programs

namespace PennCloud.Library.Sessions

variable {Op : Type} {Ans : Op → Type} {ε α σ ρ : Type}

/-- The request at hand with what is left of its pass, the requests to come, and the answers. -/
structure Session (ρ Op : Type) (Ans : Op → Type) (ε α : Type) : Type where
  now : Option (ρ × Prog Op Ans ε (Pass α)) := none
  todo : List ρ
  answers : List (Except ε α) := []

namespace Session

/-- The request at hand has been answered. -/
def answer (c : Session ρ Op Ans ε α) (a : Except ε α) : Session ρ Op Ans ε α where
  todo := c.todo
  answers := c.answers ++ [a]

/-- The next request, a call, another pass, or the end of a request. -/
def step (exec : (op : Op) → σ → σ × Except ε (Ans op)) (jobs : ρ → Job Op Ans ε α)
    (c : Session ρ Op Ans ε α) (s : σ) : Option (σ × Session ρ Op Ans ε α) :=
  match c.now with
  | none =>
    match c.todo with
    | [] => none
    | request :: rest => some (s, { c with now := some (request, jobs request 0), todo := rest })
  | some (request, .call op next) =>
    some ((exec op s).1, { c with now := some (request, next (exec op s).2) })
  | some (request, .ret (.again n)) => some (s, { c with now := some (request, jobs request n) })
  | some (_, .ret (.done a)) => some (s, c.answer (.ok a))
  | some (_, .raise e) => some (s, c.answer (.error e))

/-- What a step of a client can do. -/
inductive Stepped (exec : (op : Op) → σ → σ × Except ε (Ans op)) (jobs : ρ → Job Op Ans ε α)
    (c : Session ρ Op Ans ε α) (s : σ) : σ → Session ρ Op Ans ε α → Prop
  | take {request : ρ} {rest : List ρ} (hnow : c.now = none) (htodo : c.todo = request :: rest) :
      Stepped exec jobs c s s { c with now := some (request, jobs request 0), todo := rest }
  | call {request : ρ} {op : Op} {next : Except ε (Ans op) → Prog Op Ans ε (Pass α)}
      (hnow : c.now = some (request, .call op next)) :
      Stepped exec jobs c s (exec op s).1 { c with now := some (request, next (exec op s).2) }
  | again {request : ρ} {n : ℕ} (hnow : c.now = some (request, .ret (.again n))) :
      Stepped exec jobs c s s { c with now := some (request, jobs request n) }
  | done {request : ρ} {a : α} (hnow : c.now = some (request, .ret (.done a))) :
      Stepped exec jobs c s s (c.answer (.ok a))
  | raised {request : ρ} {e : ε} (hnow : c.now = some (request, .raise e)) :
      Stepped exec jobs c s s (c.answer (.error e))

theorem step_eq_some_iff {exec : (op : Op) → σ → σ × Except ε (Ans op)}
    {jobs : ρ → Job Op Ans ε α} {c d : Session ρ Op Ans ε α} {s t : σ} :
    c.step exec jobs s = some (t, d) ↔ Stepped exec jobs c s t d := by
  constructor
  · intro h
    unfold step at h
    split at h
    · next hnow =>
      split at h
      · cases h
      · next htodo =>
        cases h
        exact .take hnow htodo
    · next hnow =>
      cases h
      exact .call hnow
    · next hnow =>
      cases h
      exact .again hnow
    · next hnow =>
      cases h
      exact .done hnow
    · next hnow =>
      cases h
      exact .raised hnow
  · intro h
    cases h with
    | take hnow htodo => simp only [step, hnow, htodo]
    | call hnow => simp only [step, hnow]
    | again hnow => simp only [step, hnow]
    | done hnow => simp only [step, hnow]
    | raised hnow => simp only [step, hnow]

end Session

variable (exec : (op : Op) → σ → σ × Except ε (Ans op))

/-- One client with a service for itself. -/
def single (jobs : ρ → Job Op Ans ε α) : Machine (σ × Session ρ Op Ans ε α) Unit where
  step s _ := s.2.step exec jobs s.1

/-- The service and its clients. -/
structure Clients (ι ρ Op : Type) (Ans : Op → Type) (ε α σ : Type) : Type where
  store : σ
  clients : ι → Session ρ Op Ans ε α

variable {ι : Type} [DecidableEq ι]

/-- Every event is the step of one client. -/
def together (jobs : ρ → Job Op Ans ε α) : Machine (Clients ι ρ Op Ans ε α σ) ι where
  step s i := ((s.clients i).step exec jobs s.store).map fun next ↦
    { store := next.1, clients := Function.update s.clients i next.2 }

/-- Before the first request. -/
def Clients.start (sessions : ι → List ρ) (store : σ) : Clients ι ρ Op Ans ε α σ where
  store := store
  clients i := { todo := sessions i }

/-- The requests handled one after the other; no job may take more than so many passes. -/
def serve (jobs : ρ → Job Op Ans ε α) (passes : ℕ) :
    List ρ → σ → Option (σ × List (Except ε α))
  | [], s => some (s, [])
  | request :: rest, s => do
    let (t, a) ← runJob exec (jobs request) passes 0 s
    let (u, answers) ← serve jobs passes rest t
    return (u, a :: answers)

/-! ## One client -/

section Alone

variable {exec} {jobs : ρ → Job Op Ans ε α}

/-- So many steps of the client. -/
def steps (exec : (op : Op) → σ → σ × Except ε (Ans op)) (jobs : ρ → Job Op Ans ε α) (n : ℕ)
    (s : σ × Session ρ Op Ans ε α) : Option (σ × Session ρ Op Ans ε α) :=
  run (single exec jobs) s (List.replicate n ())

theorem steps_add (m n : ℕ) (s : σ × Session ρ Op Ans ε α) :
    steps exec jobs (m + n) s = (steps exec jobs m s).bind (steps exec jobs n) := by
  rw [steps, List.replicate_add, run_append]
  rfl

theorem steps_succ (n : ℕ) (s : σ × Session ρ Op Ans ε α) :
    steps exec jobs (n + 1) s = (s.2.step exec jobs s.1).bind (steps exec jobs n) := rfl

/-- A pass up to its end. -/
theorem steps_prog (jobs : ρ → Job Op Ans ε α) (request : ρ) (todo : List ρ)
    (answers : List (Except ε α)) (p : Prog Op Ans ε (Pass α)) (s : σ) :
    ∃ n, steps exec jobs n (s, ⟨some (request, p), todo, answers⟩) =
      some ((p.run exec s).1, ⟨some (request, .ofExcept (p.run exec s).2), todo, answers⟩) := by
  induction p generalizing s with
  | ret a => exact ⟨0, rfl⟩
  | raise e => exact ⟨0, rfl⟩
  | call op next ih =>
    obtain ⟨n, hn⟩ := ih (exec op s).2 (exec op s).1
    exact ⟨n + 1, hn⟩

/-- All passes of a request. -/
theorem steps_job {request : ρ} {passes n : ℕ} {s t : σ} {a : Except ε α}
    (h : runJob exec (jobs request) passes n s = some (t, a)) (todo : List ρ)
    (answers : List (Except ε α)) :
    ∃ m, steps exec jobs m (s, ⟨some (request, jobs request n), todo, answers⟩) =
      some (t, ⟨none, todo, answers ++ [a]⟩) := by
  induction passes generalizing n s with
  | zero => cases h
  | succ passes ih =>
    obtain ⟨m, hm⟩ := @steps_prog _ _ _ _ _ _ exec jobs request todo answers (jobs request n) s
    rw [runJob] at h
    cases hrun : (jobs request n).run exec s with
    | mk u outcome =>
      rw [hrun] at h hm
      cases outcome with
      | error e =>
        cases h
        refine ⟨m + 1, ?_⟩
        rw [steps_add, hm]
        rfl
      | ok pass =>
        cases pass with
        | done a =>
          cases h
          refine ⟨m + 1, ?_⟩
          rw [steps_add, hm]
          rfl
        | again k =>
          obtain ⟨l, hl⟩ := ih h
          refine ⟨m + (l + 1), ?_⟩
          rw [steps_add, hm]
          exact hl

/-- A whole session. -/
theorem steps_serve {passes : ℕ} {todo : List ρ} {s t : σ} {more : List (Except ε α)}
    (h : serve exec jobs passes todo s = some (t, more)) (answers : List (Except ε α)) :
    ∃ n, steps exec jobs n (s, ⟨none, todo, answers⟩) = some (t, ⟨none, [], answers ++ more⟩) := by
  induction todo generalizing s answers more with
  | nil =>
    cases h
    exact ⟨0, by rw [List.append_nil]; rfl⟩
  | cons request todo ih =>
    simp only [serve, Option.bind_eq_bind, Option.bind_eq_some_iff, Option.pure_def,
      Option.some.injEq, Prod.mk.injEq] at h
    obtain ⟨⟨u, a⟩, hjob, ⟨v, rest⟩, hrest, rfl, rfl⟩ := h
    obtain ⟨m, hm⟩ := steps_job hjob todo answers
    obtain ⟨n, hn⟩ := ih hrest (answers ++ [a])
    refine ⟨m + n + 1, ?_⟩
    rw [steps_succ]
    change steps exec jobs (m + n) (s, ⟨some (request, jobs request 0), todo, answers⟩) = _
    rw [steps_add, hm, Option.bind_some, hn, List.append_assoc]
    rfl

/-- Whether a client can go on does not depend on the service. -/
theorem Session.isSome_step (c : Session ρ Op Ans ε α) (s t : σ) :
    (c.step exec jobs s).isSome = (c.step exec jobs t).isSome := by
  unfold step
  split
  · split
    · rfl
    · rfl
  · rfl
  · rfl
  · rfl
  · rfl

theorem Session.answers_step {c d : Session ρ Op Ans ε α} {s t : σ}
    (h : c.step exec jobs s = some (t, d)) : c.answers <+: d.answers := by
  cases step_eq_some_iff.mp h with
  | take _ _ => exact List.prefix_refl _
  | call _ => exact List.prefix_refl _
  | again _ => exact List.prefix_refl _
  | done _ => exact List.prefix_append _ _
  | raised _ => exact List.prefix_append _ _

theorem answers_steps {n : ℕ} {s t : σ} {c d : Session ρ Op Ans ε α}
    (h : steps exec jobs n (s, c) = some (t, d)) : c.answers <+: d.answers := by
  induction n generalizing s c with
  | zero =>
    cases h
    exact List.prefix_refl _
  | succ n ih =>
    rw [steps_succ, Option.bind_eq_some_iff] at h
    obtain ⟨⟨u, e⟩, hstep, hrest⟩ := h
    exact (Session.answers_step hstep).trans (ih hrest)

end Alone

/-! ## Clients that keep apart -/

/-- What a client calls depends on its own part of the service and leaves the other parts. -/
structure Apart (P : ι → Op → Prop) (Same : ι → σ → σ → Prop) : Prop where
  refl : ∀ i s, Same i s s
  trans : ∀ i s t u, Same i s t → Same i t u → Same i s u
  own : ∀ i op s t, P i op → Same i s t →
    Same i (exec op s).1 (exec op t).1 ∧ (exec op s).2 = (exec op t).2
  others : ∀ i j op s, j ≠ i → P j op → Same i s (exec op s).1

section Together

variable {exec} {P : ι → Op → Prop} {Same : ι → σ → σ → Prop} {jobs : ρ → Job Op Ans ε α}

/-- The requests call only such operations. -/
structure Session.Only (jobs : ρ → Job Op Ans ε α) (Q : Op → Prop) (c : Session ρ Op Ans ε α) :
    Prop where
  now : ∀ request p, c.now = some (request, p) → p.Only Q ∧ ∀ n, (jobs request n).Only Q
  todo : ∀ request ∈ c.todo, ∀ n, (jobs request n).Only Q

theorem Session.Only.step {Q : Op → Prop} {c d : Session ρ Op Ans ε α} {s t : σ}
    (honly : c.Only jobs Q) (h : c.step exec jobs s = some (t, d)) : d.Only jobs Q := by
  cases step_eq_some_iff.mp h with
  | take _ htodo =>
    obtain ⟨hrequest, hrest⟩ := List.forall_mem_cons.mp (htodo ▸ honly.todo)
    refine ⟨fun _ _ hp ↦ ?_, hrest⟩
    cases hp
    exact ⟨hrequest 0, hrequest⟩
  | call hnow =>
    obtain ⟨hcalls, hjob⟩ := honly.now _ _ hnow
    refine ⟨fun _ _ hp ↦ ?_, honly.todo⟩
    cases hp
    exact ⟨hcalls.2 _, hjob⟩
  | again hnow =>
    have hjob := (honly.now _ _ hnow).2
    refine ⟨fun _ _ hp ↦ ?_, honly.todo⟩
    cases hp
    exact ⟨hjob _, hjob⟩
  | done _ =>
    refine ⟨fun _ _ hp ↦ ?_, honly.todo⟩
    cases hp
  | raised _ =>
    refine ⟨fun _ _ hp ↦ ?_, honly.todo⟩
    cases hp

omit [DecidableEq ι] in
/-- A step in another service whose own part is the same. -/
theorem Apart.step_own (h : Apart exec P Same) {i : ι} {c d : Session ρ Op Ans ε α} {s s' t : σ}
    (honly : c.Only jobs (P i)) (hsame : Same i t s) (hstep : c.step exec jobs s = some (s', d)) :
    ∃ t', c.step exec jobs t = some (t', d) ∧ Same i t' s' := by
  cases Session.step_eq_some_iff.mp hstep with
  | take hnow htodo => exact ⟨t, Session.step_eq_some_iff.mpr (.take hnow htodo), hsame⟩
  | call hnow =>
    obtain ⟨hstore, hanswer⟩ := h.own i _ t s (honly.now _ _ hnow).1.1 hsame
    refine ⟨_, ?_, hstore⟩
    rw [← hanswer]
    exact Session.step_eq_some_iff.mpr (.call hnow)
  | again hnow => exact ⟨t, Session.step_eq_some_iff.mpr (.again hnow), hsame⟩
  | done hnow => exact ⟨t, Session.step_eq_some_iff.mpr (.done hnow), hsame⟩
  | raised hnow => exact ⟨t, Session.step_eq_some_iff.mpr (.raised hnow), hsame⟩

omit [DecidableEq ι] in
/-- A step of another client. -/
theorem Apart.step_other (h : Apart exec P Same) {i j : ι} (hne : j ≠ i)
    {c d : Session ρ Op Ans ε α} {s t : σ} (honly : c.Only jobs (P j))
    (hstep : c.step exec jobs s = some (t, d)) : Same i s t := by
  cases Session.step_eq_some_iff.mp hstep with
  | take _ _ => exact h.refl i s
  | call hnow => exact h.others i j _ s hne (honly.now _ _ hnow).1.1
  | again _ => exact h.refl i s
  | done _ => exact h.refl i s
  | raised _ => exact h.refl i s

variable {sessions : ι → List ρ} {store : σ}

/-- A client stands where its own steps have taken it alone, with the same part of the service. -/
def Follows (exec : (op : Op) → σ → σ × Except ε (Ans op)) (Same : ι → σ → σ → Prop)
    (jobs : ρ → Job Op Ans ε α) (sessions : ι → List ρ) (store : σ) (i : ι) (n : ℕ)
    (s : Clients ι ρ Op Ans ε α σ) : Prop :=
  ∃ t, steps exec jobs n (store, { todo := sessions i }) = some (t, s.clients i) ∧
    Same i t s.store

/-- The step lemma: an own step is a step alone, and a step of another client is none. -/
theorem Follows.step (h : Apart exec P Same) {s u : Clients ι ρ Op Ans ε α σ} {i j : ι} {n : ℕ}
    (honly : ∀ i, (s.clients i).Only jobs (P i))
    (hfollows : Follows exec Same jobs sessions store i n s)
    (hstep : (together exec jobs).step s j = some u) :
    Follows exec Same jobs sessions store i (n + if j = i then 1 else 0) u := by
  obtain ⟨⟨t', d⟩, hclient, rfl⟩ := Option.map_eq_some_iff.mp hstep
  obtain ⟨t, hsteps, hsame⟩ := hfollows
  by_cases hj : j = i
  · subst hj
    obtain ⟨v, hown, hsame'⟩ := h.step_own (honly j) hsame hclient
    refine ⟨v, ?_, hsame'⟩
    rw [if_pos rfl, steps_add, hsteps, Option.bind_some, steps_succ, hown]
    dsimp only
    rw [Function.update_self]
    rfl
  · refine ⟨t, ?_, h.trans i t s.store t' hsame (h.step_other hj (honly j) hclient)⟩
    rw [if_neg hj]
    dsimp only
    rwa [Function.update_of_ne (Ne.symm hj)]

/-- The run lemma. -/
theorem follows_run (h : Apart exec P Same)
    (hjobs : ∀ i, ∀ request ∈ sessions i, ∀ n, (jobs request n).Only (P i))
    {s : Clients ι ρ Op Ans ε α σ} {events : List ι}
    (hrun : run (together exec jobs) (.start sessions store) events = some s) :
    (∀ i, (s.clients i).Only jobs (P i)) ∧
      ∀ i, Follows exec Same jobs sessions store i (events.count i) s := by
  induction events using List.reverseRecOn generalizing s with
  | nil =>
    cases hrun
    refine ⟨fun i ↦ ⟨fun _ _ hp ↦ ?_, hjobs i⟩, fun i ↦ ⟨store, rfl, h.refl i store⟩⟩
    cases hp
  | append_singleton events j ih =>
    rw [run_concat, Option.bind_eq_some_iff] at hrun
    obtain ⟨t, hbefore, hstep⟩ := hrun
    obtain ⟨honly, hfollows⟩ := ih hbefore
    constructor
    · intro i
      obtain ⟨⟨t', d⟩, hclient, rfl⟩ := Option.map_eq_some_iff.mp hstep
      by_cases hi : i = j
      · subst hi
        dsimp only
        rw [Function.update_self]
        exact (honly i).step hclient
      · dsimp only
        rw [Function.update_of_ne hi]
        exact honly i
    · intro i
      have hnext := (hfollows i).step h honly hstep
      rw [List.count_append, List.count_singleton]
      simpa only [beq_iff_eq] using hnext

/-- In every interleaving a client has got the first of the answers that it gets alone, and after a
fixed number of its own steps it has got all of them. -/
theorem answers_alone (h : Apart exec P Same)
    (hjobs : ∀ i, ∀ request ∈ sessions i, ∀ n, (jobs request n).Only (P i)) {passes : ℕ} {i : ι} {after : σ}
    {answers : List (Except ε α)}
    (halone : serve exec jobs passes (sessions i) store = some (after, answers)) :
    ∃ n, ∀ events s, run (together exec jobs) (.start sessions store) events = some s →
      (s.clients i).answers <+: answers ∧ events.count i ≤ n ∧
      (events.count i < n → ((together exec jobs).step s i).isSome) ∧
      (events.count i = n → (s.clients i).answers = answers ∧ Same i after s.store) := by
  obtain ⟨n, hn⟩ := steps_serve halone []
  refine ⟨n, fun events s hrun ↦ ?_⟩
  obtain ⟨t, hsteps, hsame⟩ := (follows_run h hjobs hrun).2 i
  have hle : events.count i ≤ n := by
    by_contra hgt
    obtain ⟨k, hk⟩ := Nat.exists_eq_add_of_lt (Nat.lt_of_not_le hgt)
    rw [hk, Nat.add_assoc, steps_add, hn] at hsteps
    cases hsteps
  obtain ⟨k, rfl⟩ := Nat.exists_eq_add_of_le hle
  rw [steps_add, hsteps, Option.bind_some] at hn
  refine ⟨answers_steps hn, hle, fun hlt ↦ ?_, fun heq ↦ ?_⟩
  · cases k with
    | zero => exact absurd hlt (Nat.lt_irrefl _)
    | succ k =>
      rw [steps_succ, Option.bind_eq_some_iff] at hn
      obtain ⟨next, hnext, -⟩ := hn
      have hthere : ((s.clients i).step exec jobs t).isSome := Option.isSome_of_eq_some hnext
      rw [Session.isSome_step _ t s.store] at hthere
      exact Option.isSome_map.trans hthere
  · obtain rfl : k = 0 := Nat.left_eq_add.mp heq
    obtain ⟨rfl, hclient⟩ := Prod.mk.inj (Option.some.inj hn)
    exact ⟨congrArg Session.answers hclient, hsame⟩

end Together

end PennCloud.Library.Sessions
