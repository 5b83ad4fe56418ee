import PennCloud.KV.PrimaryView

/-!
# Request handlers of a storage node

The handlers of `KVClass` as functions of one node. A write handler first decides by its view
whether to reply, to forward the request to a peer, or to execute it as the primary. The primary
multicasts the record to its peers, appends it to its log and applies it to its tablet; `PPut`
and `PDelete` do the last two on behalf of the primary. What happens elsewhere enters as data:
the coordinator's answer, the reply of the peer a request was forwarded to, and, on the way
out, the record that is multicast. The log is kept as its list of
records, each taken to be written completely.
-/

open PennCloud.KV.TabletCells PennCloud.KV.PrimaryView

namespace PennCloud.KV.Handlers

structure KVNode extends NodeView where
  tablet : Tablet := ∅
  log : List LogRecord := []

structure GetRequest where
  row : Bytes
  col : Bytes
  deriving DecidableEq

structure PutRequest where
  row : Bytes
  col : Bytes
  value : Bytes
  deriving DecidableEq

structure CPutRequest where
  row : Bytes
  col : Bytes
  v1 : Bytes
  v2 : Bytes
  deriving DecidableEq

structure DeleteRequest where
  row : Bytes
  col : Bytes
  deriving DecidableEq

/-- The message a `Get` returns. -/
structure KeyValue where
  row : Bytes
  col : Bytes
  value : Bytes
  deriving DecidableEq

/-- A reply: the status, `bytes_written` or `keys_deleted`, and the data of a `Get`. -/
structure Reply where
  status : Status
  size : UInt32 := 0
  data : Option KeyValue := none
  deriving DecidableEq

/-- What the rest of the system answers while a write request is handled. -/
structure Surroundings where
  pmAddr : Option Bytes
  peerReply : Reply

/-- `Get` reads the node's own tablet, whoever is the primary. -/
def get (node : KVNode) (prq : GetRequest) : Reply :=
  if ¬node.statusServ then
    { status := { code := .unavailable, message := "Operation failed!" } }
  else
    match node.tablet.lookup prq.row with
    | none => { status := { code := .notFound, message := "Row non-existent!" } }
    | some thisR =>
      match thisR.lookup prq.col with
      | none => { status := { code := .notFound, message := "Column non-existent!" } }
      | some value =>
        { status := { code := .ok }
          data := some { row := prq.row, col := prq.col, value := value } }

/-- The reply of a `Get` reports this content of the cell. -/
def Reports (cell : Bytes × Bytes) (content : Option Bytes) (reply : Reply) : Prop :=
  match content with
  | some value => reply.status.code = .ok ∧
      reply.data = some { row := cell.1, col := cell.2, value := value }
  | none => reply.status.code = .notFound

/-- Append a record to the log and apply it to the tablet. -/
def logAndConduct (node : KVNode) (record : LogRecord) : KVNode :=
  { node with tablet := conduct node.tablet record, log := node.log ++ [record] }

/-- The reply that reports the size of an executed record. -/
def okReply (node : KVNode) (record : LogRecord) : Reply :=
  { status := { code := .ok }, size := conductSize node.tablet record }

/-- `PPut` and `PDelete`: execute what the primary sends. -/
def executePeer (node : KVNode) (record : LogRecord) : KVNode × Reply :=
  if ¬node.statusServ then
    (node, { status := { code := .unavailable, message := "Admin has terminated the node!" } })
  else
    (logAndConduct node record, okReply node record)

def pPut (node : KVNode) (req : PutRequest) : KVNode × Reply :=
  executePeer node (.put req.row req.col req.value)

def pDelete (node : KVNode) (req : DeleteRequest) : KVNode × Reply :=
  executePeer node (.delete req.row req.col)

/-- A write handler's effect on its node, its reply, and the record it multicasts. -/
structure Outcome where
  node : KVNode
  reply : Reply
  multicast : Option LogRecord := none

/-- The branch of a write handler at the primary. -/
def executePrimary (node : KVNode) (record : LogRecord) : Outcome where
  node := logAndConduct node record
  reply := okReply node record
  multicast := some record

/-- Follow the routing decision of a write handler. -/
def followRoute (node : KVNode) (around : Surroundings) (routed : NodeView × Route)
    (execute : KVNode → Outcome) : Outcome :=
  let node := { node with toNodeView := routed.1 }
  match routed.2 with
  | .reply status => { node := node, reply := { status := status } }
  | .forward _ => { node := node, reply := around.peerReply }
  | .primary => execute node

def put (node : KVNode) (around : Surroundings) (prq : PutRequest) : Outcome :=
  followRoute node around (putRoute node.toNodeView around.pmAddr prq.row prq.col) fun node ↦
    executePrimary node (.put prq.row prq.col prq.value)

def delete (node : KVNode) (around : Surroundings) (prq : DeleteRequest) : Outcome :=
  followRoute node around (deleteRoute node.toNodeView around.pmAddr prq.row prq.col) fun node ↦
    executePrimary node (.delete prq.row prq.col)

/-- How `CPut` judges the present value. -/
inductive CPutVerdict
  | abort
  | refuse (status : Status)
  | accept
  deriving DecidableEq

/-- The tests of `CPut` under the row lock. The row is created before the column is looked at,
and `at` is called on the column whether or not it is there; on a missing one it aborts the
process. -/
def cPutCheck (tablet : Tablet) (rk ck v1 : Bytes) : Tablet × CPutVerdict :=
  let cond1 := v1.isEmpty
  if !(cond1 || (tablet.lookup rk).isSome) then
    (tablet, .refuse { code := .notFound, message := "Row non-existent!" })
  else
    let (tablet, thisR) := mutableRow tablet rk
    let cond2 := (thisR.lookup ck).isSome
    if !(cond1 || cond2) then
      (tablet, .refuse { code := .notFound, message := "Column non-existent!" })
    else
      match thisR.lookup ck with
      | none => (tablet, .abort)
      | some value =>
        let checkCond1 := cond1 && !cond2
        let checkCond2 := value = v1 && cond2
        if checkCond1 || checkCond2 then
          (tablet, .accept)
        else
          (tablet, .refuse { code := .failedPrecondition, message := "Mismatch value!" })

/-- `CPut`; `none` is an aborted process. -/
def cPut (node : KVNode) (around : Surroundings) (prq : CPutRequest) : Option Outcome :=
  let routed := cPutRoute node.toNodeView around.pmAddr prq.row prq.col
  let node := { node with toNodeView := routed.1 }
  match routed.2 with
  | .reply status => some { node := node, reply := { status := status } }
  | .forward _ => some { node := node, reply := around.peerReply }
  | .primary =>
    let (tablet, verdict) := cPutCheck node.tablet prq.row prq.col prq.v1
    let node := { node with tablet := tablet }
    match verdict with
    | .abort => none
    | .refuse status => some { node := node, reply := { status := status } }
    | .accept => some (executePrimary node (.put prq.row prq.col prq.v2))

/-! ## Specifications of the handlers -/

/-- The code and the data of a `Get` depend on the cell only. -/
theorem get_code (node : KVNode) (prq : GetRequest) :
    (get node prq).status.code =
      if node.statusServ then
        if (cells node.tablet (prq.row, prq.col)).isSome then .ok else .notFound
      else .unavailable := by
  unfold get cells
  cases node.statusServ with
  | false => rfl
  | true =>
    cases node.tablet.lookup prq.row with
    | none => rfl
    | some row =>
      cases hcol : row.lookup prq.col with
      | none => simp [hcol]
      | some value => simp [hcol]

theorem get_data (node : KVNode) (prq : GetRequest) :
    (get node prq).data =
      if node.statusServ then
        (cells node.tablet (prq.row, prq.col)).map fun value ↦
          { row := prq.row, col := prq.col, value := value }
      else none := by
  unfold get cells
  cases node.statusServ with
  | false => rfl
  | true =>
    cases node.tablet.lookup prq.row with
    | none => rfl
    | some row =>
      cases hcol : row.lookup prq.col with
      | none => simp [hcol]
      | some value => simp [hcol]

theorem reports_get_iff {node : KVNode} (hserving : node.statusServ = true)
    (cell : Bytes × Bytes) (content : Option Bytes) :
    Reports cell content (get node { row := cell.1, col := cell.2 }) ↔
      cells node.tablet cell = content := by
  have hcode := get_code node { row := cell.1, col := cell.2 }
  have hdata := get_data node { row := cell.1, col := cell.2 }
  rw [hserving] at hcode hdata
  simp only [if_true] at hcode hdata
  cases hcell : cells node.tablet cell with
  | none =>
    rw [hcell] at hcode hdata
    cases content with
    | none => simp [Reports, hcode]
    | some value => simp [Reports, hcode]
  | some present =>
    rw [hcell] at hcode hdata
    cases content with
    | none => simp [Reports, hcode]
    | some value => simp [Reports, hcode, hdata]

theorem get_size (node : KVNode) (prq : GetRequest) : (get node prq).size = 0 := by
  unfold get
  split
  · rfl
  · split
    · rfl
    · split
      · rfl
      · rfl

theorem logAndConduct_cells (node : KVNode) (record : LogRecord) :
    cells (logAndConduct node record).tablet = Library.WriteLog.write (cells node.tablet) record :=
  conduct_cells node.tablet record

/-- The routing decision alone determines the view after a write request. -/
theorem followRoute_view (node : KVNode) (around : Surroundings) (routed : NodeView × Route)
    {execute : KVNode → Outcome} (h : ∀ node, (execute node).node.toNodeView = node.toNodeView) :
    (followRoute node around routed execute).node.toNodeView = routed.1 := by
  unfold followRoute
  dsimp only
  split
  · rfl
  · rfl
  · exact h _

/-- The tests of `CPut` change no cell. -/
theorem cPutCheck_cells (tablet : Tablet) (rk ck v1 : Bytes) :
    cells (cPutCheck tablet rk ck v1).1 = cells tablet := by
  unfold cPutCheck
  dsimp only
  split
  · rfl
  · split
    · exact mutableRow_cells tablet rk
    · split
      · exact mutableRow_cells tablet rk
      · split
        · exact mutableRow_cells tablet rk
        · exact mutableRow_cells tablet rk

/-- Where the column is present, `CPut` compares its value and never aborts. -/
theorem cPutCheck_of_some {tablet : Tablet} {rk ck value : Bytes}
    (h : cells tablet (rk, ck) = some value) (v1 : Bytes) :
    (cPutCheck tablet rk ck v1).2 =
      if value = v1 then .accept
      else .refuse { code := .failedPrecondition, message := "Mismatch value!" } := by
  have hrow : (tablet.lookup rk).isSome := by
    unfold cells at h
    cases hlookup : tablet.lookup rk with
    | none => simp [hlookup] at h
    | some row => rfl
  have hcol : (mutableRow tablet rk).2.lookup ck = some value := by
    rw [mutableRow_lookup]
    exact h
  simp only [cPutCheck, hrow, hcol, Bool.or_true, Bool.not_true, Bool.false_eq_true, if_false,
    Option.isSome_some, Bool.and_false, Bool.false_or, Bool.and_true, decide_eq_true_eq]
  split
  · rfl
  · rfl

/-- Where the column is missing, `CPut` refuses a comparison value and aborts without one. -/
theorem cPutCheck_of_none {tablet : Tablet} {rk ck : Bytes} (h : cells tablet (rk, ck) = none)
    (v1 : Bytes) :
    if v1 = [] then (cPutCheck tablet rk ck v1).2 = .abort
    else ∃ message, (cPutCheck tablet rk ck v1).2 = .refuse { code := .notFound, message } := by
  have hcol : (mutableRow tablet rk).2.lookup ck = none := by
    rw [mutableRow_lookup]
    exact h
  split
  · next hv1 =>
    subst hv1
    simp [cPutCheck, hcol]
  · next hv1 =>
    have hempty : v1.isEmpty = false := by simpa using hv1
    cases hrow : (tablet.lookup rk).isSome with
    | false => exact ⟨"Row non-existent!", by simp [cPutCheck, hempty, hrow]⟩
    | true => exact ⟨"Column non-existent!", by simp [cPutCheck, hempty, hrow, hcol]⟩

end PennCloud.KV.Handlers
