import PennCloud.Frontend.ClientLoops

/-!
# What `cput` makes of the replies

The front end tells a mismatch from an outage by the class of the exception: it computes a new value
and tries again after `KVNoMatch`, and gives up after any other `KVError`. `cput` means to draw the line
by the status code, but looks at a `status` that it never assigns, while the replies are stored in
`stt`. A refusal is taken for a failed attempt and repeated; in the end it is a plain `KVError`.
-/

open PennCloud.Library.Programs
open PennCloud.KV.TabletCells PennCloud.KV.PrimaryView PennCloud.KV.Handlers
open PennCloud.Frontend.ClientLoops

namespace PennCloud.Frontend.ServerVerdict

/-- How a call ends, and after how many attempts. -/
structure CPutCall where
  result : Except KVException Int32
  attempts : ℕ

abbrev stub : Prog Unit (fun _ ↦ Reply) KVException Reply := Prog.perform ()

/-- The stub meets the replies one after the other; its state is their number. -/
def answer (reply : ℕ → Reply) (_ : Unit) (n : ℕ) : ℕ × Except KVException Reply :=
  (n + 1, .ok (reply n))

/-- The loop of `cput` over these replies; both variables start with their default. -/
def cput (reply : ℕ → Reply) : CPutCall :=
  let loop := cputLoop stub id { code := .ok } { code := .ok } 5
  let (attempts, result) := loop.run (answer reply) 0
  { result, attempts }

/-! ## The verdict -/

/-- A reply after which there is nothing to try again. -/
def Definitive (reply : Reply) : Prop :=
  reply.status.code = .ok ∨ reply.status.code = .failedPrecondition ∨
    reply.status.code = .notFound

instance : DecidablePred Definitive := fun reply ↦ inferInstanceAs
  (Decidable (reply.status.code = .ok ∨ reply.status.code = .failedPrecondition ∨
    reply.status.code = .notFound))

/-- What a definitive reply says. -/
def verdict (reply : Reply) : Except KVException Int32 :=
  match reply.status.code with
  | .ok => .ok reply.size.toInt32
  | .failedPrecondition => .error (.kvNoMatch reply.status)
  | .notFound => .error (.kvNotFound reply.status)
  | _ => .error (.kvError reply.status)

/-- The call ends at the first definitive reply and reports it; without one it makes five attempts and
reports the last. -/
structure ReportsVerdict (reply : ℕ → Reply) (call : CPutCall) : Prop where
  attempts : call.attempts ≤ 5
  settled : ∀ n < 5, Definitive (reply n) → (∀ i < n, ¬Definitive (reply i)) →
    call = { result := verdict (reply n), attempts := n + 1 }
  exhausted : (∀ i < 5, ¬Definitive (reply i)) →
    call = { result := .error (.kvError (reply 4).status), attempts := 5 }

section Loop

variable {reply : ℕ → Reply} {m : ℕ}

/-- What is left of the loop after `k` attempts. -/
def remaining (reply : ℕ → Reply) (stt : Status) (m k : ℕ) : ℕ × Except KVException Int32 :=
  (writeLoop stub id stt m).run (answer reply) k

theorem remaining_succ (stt : Status) (k : ℕ) :
    remaining reply stt (m + 1) k =
      if (reply k).status.code = .ok then (k + 1, .ok (reply k).size.toInt32)
      else remaining reply (reply k).status m (k + 1) := by
  rw [remaining, writeLoop, Prog.run_bind, Prog.run_perform]
  dsimp only [answer]
  split
  · rfl
  · rfl

theorem cput_eq (reply : ℕ → Reply) : cput reply =
    { result := (remaining reply { code := .ok } 5 0).2
      attempts := (remaining reply { code := .ok } 5 0).1 } := by
  simp only [cput, remaining, cputLoop_eq]

/-- The loop ends at the first OK. -/
theorem remaining_of_ok (stt : Status) {n k : ℕ} (hn : n < m)
    (hok : (reply (k + n)).status.code = .ok)
    (hbefore : ∀ i < n, (reply (k + i)).status.code ≠ .ok) :
    remaining reply stt m k = (k + n + 1, .ok (reply (k + n)).size.toInt32) := by
  induction m generalizing stt n k with
  | zero => exact absurd hn (Nat.not_lt_zero n)
  | succ m ih =>
    rw [remaining_succ]
    cases n with
    | zero => exact if_pos hok
    | succ n =>
      have hfirst : (reply k).status.code ≠ .ok := hbefore 0 (Nat.succ_pos n)
      rw [if_neg hfirst]
      have hshift : ∀ i, k + 1 + i = k + (i + 1) := fun i ↦ by omega
      have hrest := ih (n := n) (k := k + 1) (reply k).status (Nat.lt_of_succ_lt_succ hn)
        (hshift n ▸ hok) fun i hi ↦ hshift i ▸ hbefore (i + 1) (Nat.succ_lt_succ hi)
      rw [hrest, hshift]

/-- Without an OK it makes all its attempts and throws the last status. -/
theorem remaining_of_not_ok (stt : Status) {k : ℕ}
    (h : ∀ i < m + 1, (reply (k + i)).status.code ≠ .ok) :
    remaining reply stt (m + 1) k = (k + m + 1, .error (.kvError (reply (k + m)).status)) := by
  induction m generalizing stt k with
  | zero =>
    have hfirst : (reply k).status.code ≠ .ok := h 0 (Nat.succ_pos 0)
    rw [remaining_succ, if_neg hfirst]
    rfl
  | succ m ih =>
    have hfirst : (reply k).status.code ≠ .ok := h 0 (Nat.succ_pos _)
    have hshift : ∀ i, k + 1 + i = k + (i + 1) := fun i ↦ by omega
    rw [remaining_succ, if_neg hfirst,
      ih (k := k + 1) (reply k).status fun i hi ↦ hshift i ▸ h (i + 1) (Nat.succ_lt_succ hi), hshift]

end Loop

theorem cput_of_ok {reply : ℕ → Reply} {n : ℕ} (hn : n < 5) (hok : (reply n).status.code = .ok)
    (hbefore : ∀ i < n, (reply i).status.code ≠ .ok) :
    cput reply = { result := .ok (reply n).size.toInt32, attempts := n + 1 } := by
  have hloop := remaining_of_ok (k := 0) { code := .ok } hn (by rwa [Nat.zero_add]) fun i hi ↦ by
    rw [Nat.zero_add]
    exact hbefore i hi
  rw [Nat.zero_add] at hloop
  rw [cput_eq, hloop]

theorem cput_of_not_ok {reply : ℕ → Reply} (h : ∀ i < 5, (reply i).status.code ≠ .ok) :
    cput reply = { result := .error (.kvError (reply 4).status), attempts := 5 } := by
  have hloop := remaining_of_not_ok (m := 4) (k := 0) { code := .ok } fun i hi ↦ by
    rw [Nat.zero_add]
    exact h i hi
  rw [cput_eq, hloop]

/-- No refusal comes before the first OK. -/
def RefusedBeforeOk (reply : ℕ → Reply) : Prop :=
  ∃ n < 5, (∀ i < n, (reply i).status.code ≠ .ok) ∧
    ((reply n).status.code = .failedPrecondition ∨ (reply n).status.code = .notFound)

/-- Either an attempt is answered with an OK, or all five fail. -/
theorem cput_cases (reply : ℕ → Reply) :
    (∃ n < 5, (reply n).status.code = .ok ∧
      cput reply = { result := .ok (reply n).size.toInt32, attempts := n + 1 }) ∨
    ((∀ i < 5, (reply i).status.code ≠ .ok) ∧
      cput reply = { result := .error (.kvError (reply 4).status), attempts := 5 }) := by
  by_cases hok : ∃ n < 5, (reply n).status.code = .ok
  · have hfirst := Nat.find_spec hok
    refine .inl ⟨Nat.find hok, hfirst.1, hfirst.2, cput_of_ok hfirst.1 hfirst.2 fun i hi ↦ ?_⟩
    exact fun hcode ↦ Nat.find_min hok hi ⟨hi.trans hfirst.1, hcode⟩
  · have hnone : ∀ i < 5, (reply i).status.code ≠ .ok := fun i hi hcode ↦ hok ⟨i, hi, hcode⟩
    exact .inr ⟨hnone, cput_of_not_ok hnone⟩

/-- So the exceptions for a refusal are never thrown. -/
theorem cput_ne_refusal (reply : ℕ → Reply) (status : Status) :
    (cput reply).result ≠ .error (.kvNoMatch status) ∧
      (cput reply).result ≠ .error (.kvNotFound status) := by
  rcases cput_cases reply with ⟨n, -, -, hcall⟩ | ⟨-, hcall⟩
  · rw [hcall]
    exact ⟨by simp, by simp⟩
  · rw [hcall]
    exact ⟨by simp, by simp⟩

theorem verdict_of_refused {reply : Reply}
    (h : reply.status.code = .failedPrecondition ∨ reply.status.code = .notFound) :
    verdict reply = .error (.kvNoMatch reply.status) ∨
      verdict reply = .error (.kvNotFound reply.status) := by
  unfold verdict
  cases h with
  | inl hcode => exact .inl (by rw [hcode])
  | inr hcode => exact .inr (by rw [hcode])

theorem reportsVerdict_iff (reply : ℕ → Reply) :
    ReportsVerdict reply (cput reply) ↔ ¬RefusedBeforeOk reply := by
  constructor
  · rintro hreports ⟨n, hn, hbefore, hrefused⟩
    have hdefinitive : ∃ k, Definitive (reply k) := ⟨n, .inr hrefused⟩
    -- the first definitive reply is a refusal too
    have hle : Nat.find hdefinitive ≤ n := Nat.find_min' hdefinitive (.inr hrefused)
    have hfirst : (reply (Nat.find hdefinitive)).status.code = .failedPrecondition ∨
        (reply (Nat.find hdefinitive)).status.code = .notFound := by
      rcases Nat.find_spec hdefinitive with hok | hfirst
      · rcases Nat.lt_or_eq_of_le hle with hlt | heq
        · exact absurd hok (hbefore _ hlt)
        · exact heq ▸ hrefused
      · exact hfirst
    have hcall := hreports.settled _ (lt_of_le_of_lt hle hn) (.inr hfirst)
      fun i hi ↦ Nat.find_min hdefinitive hi
    have hresult := congrArg CPutCall.result hcall
    rcases verdict_of_refused hfirst with hverdict | hverdict
    · exact (cput_ne_refusal reply _).1 (hresult.trans hverdict)
    · exact (cput_ne_refusal reply _).2 (hresult.trans hverdict)
  · intro hunrefused
    constructor
    · rcases cput_cases reply with ⟨n, hn, -, hcall⟩ | ⟨-, hcall⟩
      · rw [hcall]
        exact hn
      · rw [hcall]
    · intro n hn hdefinitive hbefore
      have hnotOk : ∀ i < n, (reply i).status.code ≠ .ok := fun i hi hok ↦ hbefore i hi (.inl hok)
      rcases hdefinitive with hok | hrefused
      · rw [cput_of_ok hn hok hnotOk, verdict, hok]
      · exact absurd ⟨n, hn, hnotOk, hrefused⟩ hunrefused
    · intro hnone
      exact cput_of_not_ok fun i hi hok ↦ hnone i hi (.inl hok)

/-- Every reply is a mismatch. -/
def alwaysMismatch (_ : ℕ) : Reply := { status := { code := .failedPrecondition } }

/-- The call is repeated to the end, and the mismatch becomes a plain error. -/
theorem mismatch_is_plain_error :
    cput alwaysMismatch = { result := .error (.kvError (alwaysMismatch 4).status), attempts := 5 } ∧
      ¬ReportsVerdict alwaysMismatch (cput alwaysMismatch) := by
  have hcall : cput alwaysMismatch =
      { result := .error (.kvError (alwaysMismatch 4).status), attempts := 5 } := rfl
  refine ⟨hcall, fun hreports ↦ ?_⟩
  have hsettled := hreports.settled 0 (by decide) (.inr (.inl rfl))
    fun i hi ↦ absurd hi (Nat.not_lt_zero i)
  have hattempts := congrArg CPutCall.attempts hsettled
  rw [hcall] at hattempts
  cases hattempts

end PennCloud.Frontend.ServerVerdict
