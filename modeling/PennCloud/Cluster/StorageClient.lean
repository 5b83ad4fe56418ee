import PennCloud.Frontend.ClientLoops
import PennCloud.Library.Linking
import PennCloud.Replication.Visibility

/-!
# The storage client and its cluster

`KVStorageClient` spreads the rows over the partitions by the first byte of their MD5 digest. A call is
up to five requests to the partition of its row; each goes to whichever node the channel of the
partition picks, and that node serves it or forwards it as `Replication.Serving` has it. While
calls come one after another, the coordinator's rounds go on and nodes get shut down or crash
between any two requests.
-/

open PennCloud.Library.Programs PennCloud.Library.CppString
open PennCloud.KV.TabletCells PennCloud.KV.PrimaryView PennCloud.KV.Handlers
open PennCloud.Replication.Serving
open PennCloud.Frontend.KVClient (Thrown KVOp)
open PennCloud.Frontend.ClientLoops (KVException writeLoop_thrown)

namespace PennCloud.Cluster.StorageClient

/-! ## The nodes -/

inductive Rpc
  | get (grq : GetRequest)
  | write (req : WriteRequest)

/-- A request that the channel of the partition hands to node `i`. A write that is forwarded without
end has no reply. -/
def receive (s : Replicas) (i : ℕ) : Rpc → Option (Replicas × Reply)
  | .get grq =>
    match s.nodes[i]? with
    | none => some (s, unreachable)
    | some node => some (s, if i ∈ s.dead then unreachable else KV.Handlers.get node grq)
  | .write req => s.serve (s.nodes.length + 1) i req

/-- What else happens at a partition: the coordinator's turn with it in a round, an admin, or
the end of a process. -/
inductive Incident
  | round (garbage : Bool)
  | shutdown (node : ℕ)
  | crash (node : ℕ)

def Incident.happen (p : ℕ) (s : Replicas) : Incident → Replicas
  | .round garbage => s.withControl (s.control.step p (.round garbage))
  | .shutdown i => s.withControl (s.control.step p (.shutdown i))
  | .crash i => s.kill i

/-- What comes before the next request, by partitions, and the node that the channel of each
partition would pick for it. -/
structure Turn where
  incidents : List (ℕ × Incident)
  node : ℕ → ℕ

/-- The partitions, and the turns that are still to come. -/
structure Backend where
  partitions : List Replicas
  turns : ℕ → Turn

/-- The partitions when the next request is sent. -/
def Backend.current (backend : Backend) : List Replicas :=
  (backend.turns 0).incidents.foldl
    (fun partitions incident ↦ partitions.modify incident.1 fun s ↦
      incident.2.happen incident.1 s) backend.partitions

/-- The stub of a partition is called. -/
structure StubCall where
  partition : ℕ
  rpc : Rpc

/-- One request with its reply; an index out of range and a request without a reply count as
undefined. -/
def execute (call : StubCall) (backend : Backend) : Backend × Except Thrown Reply :=
  let turns := fun n ↦ backend.turns (n + 1)
  match backend.current[call.partition]?.bind
      (receive · ((backend.turns 0).node call.partition) call.rpc) with
  | some (s, reply) =>
    ({ partitions := backend.current.set call.partition s, turns }, .ok reply)
  | none => ({ partitions := backend.current, turns }, .error .undefined)

/-! ## The client -/

/-- The digest, and the number of partitions that the coordinator's view lists. -/
structure Client where
  MD5 : Bytes → Vector UInt8 16
  partitions : ℕ

/-- `row_partition`; without partitions the remainder is undefined. -/
def Client.rowPartition (client : Client) (rr : Bytes) : Option ℕ :=
  let pSize := sizeToInt client.partitions
  if pSize = 0 then none else some (Int.tmod (client.MD5 rr)[0].toNat pSize).toNat

abbrev ClientProg (α : Type) := Prog StubCall (fun _ ↦ Reply) Thrown α

/-- A call that sends its requests to the partition of a row. -/
def Client.atRow {α : Type} (client : Client) (row : Bytes) (f : ℕ → ClientProg α) : ClientProg α :=
  (client.rowPartition row).elim (.raise .undefined) f

/-- `grsp.data().value()`. -/
def dataValue (reply : Reply) : Bytes := (reply.data.map KeyValue.value).getD []

/-- The loop of `get`. -/
def getLoop (tgtR : ℕ) (grq : GetRequest) : ℕ → ClientProg Bytes
  | 0 => .raise .kvError
  | n + 1 => do
    let reply ← Prog.perform { partition := tgtR, rpc := .get grq }
    if reply.status.code = .ok then return dataValue reply
    else if reply.status.code = .notFound then .raise .kvNotFound
    else getLoop tgtR grq n

/-- The loop of `put` and `del`. -/
def writeLoop (tgtR : ℕ) (req : WriteRequest) : ℕ → ClientProg Int32 :=
  Frontend.ClientLoops.writeLoop (Prog.perform { partition := tgtR, rpc := .write req }) KVException.thrown
    { code := .ok }

/-- The loop of `cput`. -/
def cputLoop (status : Status) (tgtR : ℕ) (crq : CPutRequest) : ℕ → ClientProg Int32 :=
  Frontend.ClientLoops.cputLoop (Prog.perform { partition := tgtR, rpc := .write (.cPut crq) })
    KVException.thrown status { code := .ok }

section Calls

variable (client : Client)

def Client.get (row col : Bytes) : ClientProg Bytes :=
  client.atRow row fun tgtR ↦ getLoop tgtR { row := row, col := col } 5

def Client.put (row col data : Bytes) : ClientProg Int32 :=
  client.atRow row fun tgtR ↦ writeLoop tgtR (.put { row := row, col := col, value := data }) 5

def Client.getdefault (r c v : Bytes) : ClientProg Bytes :=
  (client.get r c).handle fun e ↦ if e = .kvNotFound then .ret v else .raise e

/-- The replies are stored in `stt`; `status` keeps its default. -/
def Client.cput (rr cc v1 v2 : Bytes) : ClientProg Int32 :=
  client.atRow rr fun xxx ↦
    cputLoop { code := .ok } xxx { row := rr, col := cc, v1 := v1, v2 := v2 } 5

def Client.del (rr cc : Bytes) : ClientProg Int32 :=
  client.atRow rr fun xxx ↦ writeLoop xxx (.delete { row := rr, col := cc }) 5

/-- A call as the handlers of a frontend make it: they do not look at the numbers. -/
def Client.call : (op : KVOp) → ClientProg op.Answer
  | .get row col => client.get row col
  | .put row col data => do
    let _ ← client.put row col data
    return ()
  | .cput row col v1 v2 => do
    let _ ← client.cput row col v1 v2
    return ()
  | .del row col => do
    let _ ← client.del row col
    return ()

/-- What a program can ask of the store. -/
inductive Request
  | get (row col : Bytes)
  | getdefault (r c v : Bytes)
  | put (row col data : Bytes)
  | cput (rr cc v1 v2 : Bytes)
  | del (rr cc : Bytes)
  deriving DecidableEq

/-- A text or a number is returned. -/
inductive Value
  | text (value : Bytes)
  | number (n : Int32)
  deriving DecidableEq

def Client.request : Request → ClientProg Value
  | .get row col => do return .text (← client.get row col)
  | .getdefault r c v => do return .text (← client.getdefault r c v)
  | .put row col data => do return .number (← client.put row col data)
  | .cput rr cc v1 v2 => do return .number (← client.cput rr cc v1 v2)
  | .del rr cc => do return .number (← client.del rr cc)

end Calls

/-! ## Rows and partitions -/

/-- Only with a multiple of 2 ^ 32 partitions there is no remainder. -/
theorem rowPartition_lt {client : Client} {rr : Bytes} {p : ℕ}
    (h : client.rowPartition rr = some p) : p < client.partitions := by
  unfold Client.rowPartition at h
  dsimp only at h
  split at h
  · cases h
  · next hsize =>
    obtain rfl := Option.some.inj h
    obtain ⟨k, hk⟩ := exists_sizeToInt_eq client.partitions
    have hnonneg := Int.tmod_nonneg (sizeToInt client.partitions)
      (Int.natCast_nonneg (client.MD5 rr)[0].toNat)
    have habs := Int.natAbs_tmod ((client.MD5 rr)[0].toNat : ℤ) (sizeToInt client.partitions)
    have hlt := Nat.mod_lt (((client.MD5 rr)[0].toNat : ℤ)).natAbs
      (Int.natAbs_pos.mpr hsize)
    -- Seen as negative, the number is at least 2 ^ 31.
    have hle : (sizeToInt client.partitions).natAbs ≤ client.partitions := by
      have hrange := sizeToInt_range client.partitions
      omega
    omega

/-! ## The loops -/

theorem writeLoop_succ (tgtR : ℕ) (req : WriteRequest) (n : ℕ) :
    writeLoop tgtR req (n + 1) =
      Prog.perform { partition := tgtR, rpc := .write req } >>= fun reply ↦
        if reply.status.code = .ok then pure reply.size.toInt32 else writeLoop tgtR req n := by
  rw [writeLoop, Frontend.ClientLoops.writeLoop]
  refine congrArg (Prog.perform _ >>= ·) (funext fun reply ↦ ?_)
  dsimp only
  rw [writeLoop_thrown _ reply.status { code := .ok }]

/-- `cput` takes a mismatch for one more failure. -/
theorem cputLoop_eq (tgtR : ℕ) (crq : CPutRequest) (n : ℕ) :
    cputLoop { code := .ok } tgtR crq n = writeLoop tgtR (.cPut crq) n :=
  Frontend.ClientLoops.cputLoop_eq _ _ _ n

end PennCloud.Cluster.StorageClient
