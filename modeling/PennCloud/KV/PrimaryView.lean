import PennCloud.KV.TabletCells

/-!
# A node's view of its partition

The fields of `KVClass` that decide who executes a write: the node's own address, the
addresses of its peers in the order of their stubs, the admin switch `status_serv`, and
`primary_idx`. The last is `mStatus` where the node believes itself the primary, `ukStatus`
where it knows none, and otherwise the index of the peer to which writes are forwarded.
The view changes when the coordinator pushes `PrimaryUpdate`, which a shut-down node
rejects, and when a request finds `UK_STATUS` and asks the coordinator.
-/

open PennCloud.KV.TabletCells

namespace PennCloud.KV.PrimaryView

/-- `grpc::StatusCode`. -/
inductive StatusCode
  | ok
  | cancelled
  | unknown
  | invalidArgument
  | deadlineExceeded
  | notFound
  | alreadyExists
  | permissionDenied
  | unauthenticated
  | resourceExhausted
  | failedPrecondition
  | aborted
  | outOfRange
  | unimplemented
  | internal
  | unavailable
  | dataLoss
  deriving DecidableEq, Repr

/-- `grpc::Status`. -/
structure Status where
  code : StatusCode
  message : String := ""
  deriving DecidableEq, Repr

def mStatus : ℤ := -1

def ukStatus : ℤ := -5

structure NodeView where
  addr : Bytes
  peerAddrs : List Bytes
  statusServ : Bool := true
  primaryIdx : ℤ := ukStatus
  deriving DecidableEq

/-- The index of a peer by its address, or `-1`. -/
def retrieveIdxForPeer (view : NodeView) (addrPeerThis : Bytes) : ℤ :=
  match view.peerAddrs.idxOf? addrPeerThis with
  | some idx => idx
  | none => -1

/-- Take over the address of a new primary. -/
def renewIdxForPm (view : NodeView) (addrPmThis : Bytes) : NodeView :=
  if addrPmThis = view.addr then
    { view with primaryIdx := mStatus }
  else
    let pId := retrieveIdxForPeer view addrPmThis
    if pId ≠ -1 then { view with primaryIdx := pId } else { view with primaryIdx := ukStatus }

/-- The `PrimaryUpdate` handler. -/
def primaryUpdate (view : NodeView) (addrThis : Bytes) : NodeView × Status :=
  if view.statusServ then
    (renewIdxForPm view addrThis, { code := .ok })
  else
    (view, { code := .unavailable, message := "Admin has terminated the node!" })

/-- The `HealthCheck` handler. -/
def healthCheck (view : NodeView) : Status :=
  if view.statusServ then
    { code := .ok }
  else
    { code := .unavailable, message := "Admin has terminated the node!" }

/-- Only the flag changes, here and in `adminStartup`. -/
def adminShutdown (view : NodeView) : NodeView := { view with statusServ := false }

def adminStartup (view : NodeView) : NodeView := { view with statusServ := true }

/-- `recover_partition`, with the address that `GetPartitionPrimary` returns; `none` is a failed
call, which throws `KVError`. The flag is false where the primary is still unknown. -/
def recoverPartition (view : NodeView) (pmAddr : Option Bytes) : Option (NodeView × Bool) :=
  if view.primaryIdx = ukStatus then
    pmAddr.map fun addr ↦
      let view := renewIdxForPm view addr
      (view, view.primaryIdx ≠ ukStatus)
  else
    some (view, true)

/-- What a node does with a write request before it touches its tablet. -/
inductive Route
  | reply (status : Status)
  | forward (peer : ℤ)
  | primary
  deriving DecidableEq

/-- The common head of `Put`, `CPut` and `Delete`. An exception that leaves the handler is
answered with `UNKNOWN`. -/
def routeWrite (terminated : String) (checkKeys : Bool) (view : NodeView) (pmAddr : Option Bytes)
    (rk ck : Bytes) : NodeView × Route :=
  if ¬view.statusServ then
    (view, .reply { code := .unavailable, message := terminated })
  else if checkKeys && (rk.isEmpty || ck.isEmpty) then
    (view, .reply { code := .invalidArgument, message := "Empty row and/or column!" })
  else
    match recoverPartition view pmAddr with
    | none => (view, .reply { code := .unknown, message := "Unexpected error in RPC handling" })
    | some (view, false) =>
      (view, .reply { code := .unavailable, message := "Unconnected node for parititon!" })
    | some (view, true) =>
      if view.primaryIdx ≠ mStatus then (view, .forward view.primaryIdx) else (view, .primary)

def putRoute : NodeView → Option Bytes → Bytes → Bytes → NodeView × Route :=
  routeWrite "Operation failed!" true

def cPutRoute : NodeView → Option Bytes → Bytes → Bytes → NodeView × Route :=
  routeWrite "Admin has terminated the node!" true

/-- `Delete` does not look at the keys. -/
def deleteRoute : NodeView → Option Bytes → Bytes → Bytes → NodeView × Route :=
  routeWrite "Admin has terminated the node!" false

/-- The address behind `peers[primary_idx]`. -/
def peerAddr? (view : NodeView) : Option Bytes :=
  if 0 ≤ view.primaryIdx then view.peerAddrs[view.primaryIdx.toNat]? else none

/-! ## Effects on the view -/

@[simp]
theorem renewIdxForPm_addr (view : NodeView) (addr : Bytes) :
    (renewIdxForPm view addr).addr = view.addr := by
  unfold renewIdxForPm
  split
  · rfl
  · dsimp only
    split <;> rfl

@[simp]
theorem renewIdxForPm_peerAddrs (view : NodeView) (addr : Bytes) :
    (renewIdxForPm view addr).peerAddrs = view.peerAddrs := by
  unfold renewIdxForPm
  split
  · rfl
  · dsimp only
    split <;> rfl

@[simp]
theorem renewIdxForPm_statusServ (view : NodeView) (addr : Bytes) :
    (renewIdxForPm view addr).statusServ = view.statusServ := by
  unfold renewIdxForPm
  split
  · rfl
  · dsimp only
    split <;> rfl

/-- A node takes itself for the primary only under its own address. -/
theorem renewIdxForPm_eq_mStatus_iff (view : NodeView) (addr : Bytes) :
    (renewIdxForPm view addr).primaryIdx = mStatus ↔ addr = view.addr := by
  unfold renewIdxForPm
  split
  · next h => exact iff_of_true rfl h
  · next h =>
    refine iff_of_false ?_ h
    dsimp only
    split
    · next hid => exact hid
    · exact (by decide : ukStatus ≠ mStatus)

/-- Under the address of a peer the view names a stub with this address. -/
theorem renewIdxForPm_peerAddr {view : NodeView} {addr : Bytes} (hself : addr ≠ view.addr)
    (hpeer : addr ∈ view.peerAddrs) :
    peerAddr? (renewIdxForPm view addr) = some addr ∧
      0 ≤ (renewIdxForPm view addr).primaryIdx := by
  obtain ⟨idx, hidx⟩ : ∃ idx, view.peerAddrs.idxOf? addr = some idx := by
    rw [← Option.isSome_iff_exists, List.isSome_idxOf?]
    exact hpeer
  have hget : view.peerAddrs[idx]? = some addr := by
    obtain ⟨hlt, haddr, -⟩ := List.idxOf?_eq_some_iff.mp hidx
    rw [List.getElem?_eq_getElem hlt, haddr]
  have hrenew : renewIdxForPm view addr = { view with primaryIdx := (idx : ℤ) } := by
    have hne : (idx : ℤ) ≠ -1 := by omega
    simp only [renewIdxForPm, if_neg hself, retrieveIdxForPeer, hidx, ne_eq, hne,
      not_false_eq_true, if_true]
  rw [hrenew]
  exact ⟨by simpa [peerAddr?] using hget, by simp⟩

/-- An address that is neither the node's own nor a peer's leaves the primary unknown. -/
theorem renewIdxForPm_unknown {view : NodeView} {addr : Bytes} (hself : addr ≠ view.addr)
    (hpeer : addr ∉ view.peerAddrs) : (renewIdxForPm view addr).primaryIdx = ukStatus := by
  have hidx : view.peerAddrs.idxOf? addr = none := by
    rw [List.idxOf?_eq_none_iff]
    exact hpeer
  simp only [renewIdxForPm, if_neg hself, retrieveIdxForPeer, hidx, ne_eq, not_true_eq_false,
    if_false]

/-- A node that knows its primary does not ask the coordinator. -/
theorem recoverPartition_known {view : NodeView} (h : view.primaryIdx ≠ ukStatus)
    (pmAddr : Option Bytes) : recoverPartition view pmAddr = some (view, true) :=
  if_neg h

end PennCloud.KV.PrimaryView
