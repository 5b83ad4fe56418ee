import PennCloud.Frontend.KVClient

/-!
# The loops of the storage client

`put`, `cput` and `del` send their request up to five times, until one attempt is answered with an OK.
The modules that follow put different things behind the stub, and keep an exception with its status
or as a handler of the front end sees it; the loops are the same for all of them.
-/

open PennCloud.Library.Programs
open PennCloud.KV.PrimaryView PennCloud.KV.Handlers
open PennCloud.Frontend.KVClient (Thrown)

namespace PennCloud.Frontend.ClientLoops

/-- The exceptions of the client with the status they carry. -/
inductive KVException
  | kvError (status : Status)
  | kvNoMatch (status : Status)
  | kvNotFound (status : Status)
  deriving DecidableEq, Repr

/-- What a handler sees of an exception. -/
def KVException.thrown : KVException → Thrown
  | .kvError _ => .kvError
  | .kvNoMatch _ => .kvNoMatch
  | .kvNotFound _ => .kvNotFound

section Loops

variable {Op : Type} {Ans : Op → Type} {ε β : Type} (send : Prog Op Ans ε Reply)
  (throw : KVException → ε)

/-- The loop of `put` and `del`; `stt` is the status of the last reply. -/
def writeLoop (stt : Status) : ℕ → Prog Op Ans ε Int32
  | 0 => .raise (throw (.kvError stt))
  | n + 1 => do
    let reply ← send
    let stt := reply.status
    if stt.code = .ok then return reply.size.toInt32 else writeLoop stt n

/-- The loop of `cput`; the replies are in `stt`, and the codes that are looked for are those of
`status`. -/
def cputLoop (status stt : Status) : ℕ → Prog Op Ans ε Int32
  | 0 => .raise (throw (.kvError stt))
  | n + 1 => do
    let reply ← send
    let stt := reply.status
    if stt.code = .ok then return reply.size.toInt32
    else if status.code = .failedPrecondition then .raise (throw (.kvNoMatch stt))
    else if status.code = .notFound then .raise (throw (.kvNotFound stt))
    else cputLoop status stt n

/-- `status` keeps its default, so that `cput` tries again after a mismatch as well. -/
theorem cputLoop_eq (stt : Status) (n : ℕ) :
    cputLoop send throw { code := .ok } stt n = writeLoop send throw stt n := by
  induction n generalizing stt with
  | zero => rfl
  | succ n ih =>
    rw [cputLoop, writeLoop]
    simp [ih]

theorem writeLoop_bind (stt : Status) (n : ℕ) (f : Int32 → Prog Op Ans ε β) :
    writeLoop send throw stt (n + 1) >>= f = send >>= fun reply ↦
      if reply.status.code = .ok then f reply.size.toInt32
      else writeLoop send throw reply.status n >>= f := by
  rw [writeLoop, Prog.bind_assoc]
  refine congrArg (send >>= ·) (funext fun reply ↦ ?_)
  dsimp only
  split
  · rfl
  · rfl

end Loops

/-- The status of a failed attempt is not seen in the end. -/
theorem writeLoop_thrown {Op : Type} {Ans : Op → Type} (send : Prog Op Ans Thrown Reply)
    (stt stt' : Status) (n : ℕ) :
    writeLoop send KVException.thrown stt n = writeLoop send KVException.thrown stt' n := by
  cases n with
  | zero => rfl
  | succ n => rfl

end PennCloud.Frontend.ClientLoops
