import PennCloud.Cluster.StorageClient
import PennCloud.Library.Transducer

/-!
# The cluster as one map

The purpose of the cluster, stated without partitions, nodes and attempts: one map from (row, column) to
bytes, of which a call may also report that it has failed. Calls that come one after another see
exactly that, whatever nodes their requests reach, and whoever is shut down, crashes or is
elected in between: a call that fails has changed nothing, and every other call has been executed
once. Each node that serves holds the part of the map that belongs to its partition.
-/

open PennCloud.Library PennCloud.Library.Programs PennCloud.Library.CppString
open PennCloud.Library.WriteLog (write write_self write_of_ne)
open PennCloud.KV.TabletCells PennCloud.KV.PrimaryView PennCloud.KV.Handlers
open PennCloud.Coordinator.Views PennCloud.Coordinator.Forwarding
open PennCloud.Replication PennCloud.Replication.Serving
open PennCloud.Frontend.KVClient (Thrown Store)
open PennCloud.Cluster.StorageClient

namespace PennCloud.Cluster.OneMap

/-! ## A request at one partition -/

/-- The cells on which a write is executed. -/
def Accepts (m : Store) : WriteRequest → Prop
  | .put prq => prq.row ≠ [] ∧ prq.col ≠ []
  | .cPut prq => prq.row ≠ [] ∧ prq.col ≠ [] ∧ m (prq.row, prq.col) = some prq.v1
  | .delete _ => True

/-- `bytes_written` or `keys_deleted`. -/
def replySize (m : Store) : WriteRequest → UInt32
  | .put prq => UInt32.ofNat prq.value.length
  | .cPut prq => UInt32.ofNat prq.v2.length
  | .delete prq => if (m (prq.row, prq.col)).isSome then 1 else 0

/-- Every node that serves holds these cells. -/
def Agrees (s : Replicas) (m : Store) : Prop :=
  ∀ (i : ℕ) node, s.nodes[i]? = some node → node.statusServ = true → cells node.tablet = m

theorem routeWrite_primary_keys {terminated : String} {view : NodeView} {pmAddr : Option Bytes}
    {rk ck : Bytes} (h : (routeWrite terminated true view pmAddr rk ck).2 = .primary) :
    rk ≠ [] ∧ ck ≠ [] := by
  unfold routeWrite at h
  split at h
  · cases h
  · split at h
    · cases h
    · next hkeys => simpa [List.isEmpty_iff] using hkeys

theorem conductSize_record (tablet : Tablet) (req : WriteRequest) :
    conductSize tablet req.record = replySize (cells tablet) req := by
  cases req with
  | put prq => exact conductP_size tablet prq.row prq.col prq.value
  | cPut prq => exact conductP_size tablet prq.row prq.col prq.v2
  | delete prq => exact conductD_count tablet prq.row prq.col

/-- A handler that does not forward and answers with an OK has executed its request. -/
theorem handle_accepts {req : WriteRequest} {node : KVNode} {addr : Bytes} {peerReply : Reply}
    {outcome : Outcome}
    (hstay : ∀ peer, (req.route node.toNodeView (some addr)).2 ≠ .forward peer)
    (h : req.handle node { pmAddr := some addr, peerReply := peerReply } = some outcome)
    (hok : outcome.reply.status.code = .ok) :
    Accepts (cells node.tablet) req ∧ outcome.reply.size = replySize (cells node.tablet) req := by
  have hrouted := req.route_routed node.toNodeView addr
  -- What is left of a route is the branch of the primary.
  have hprimary : ∀ {routed : NodeView × Route} {execute : KVNode → Outcome},
      Routed addr node.toNodeView routed → (∀ peer, routed.2 ≠ .forward peer) →
      (followRoute node { pmAddr := some addr, peerReply := peerReply } routed
        execute).reply.status.code = .ok →
      routed.2 = .primary ∧ followRoute node { pmAddr := some addr, peerReply := peerReply } routed
        execute = execute { node with toNodeView := routed.1 } := by
    intro routed execute hr hs hcode
    cases hr with
    | rejected status hne => exact absurd hcode hne
    | unknown status hne => exact absurd hcode hne
    | forward => exact absurd rfl (hs _)
    | primary => exact ⟨rfl, rfl⟩
  cases req with
  | put prq =>
    obtain rfl := Option.some.inj h
    obtain ⟨hroute, houtcome⟩ := hprimary hrouted hstay hok
    exact ⟨routeWrite_primary_keys hroute,
      (congrArg (·.reply.size) houtcome).trans (conductSize_record node.tablet (.put prq))⟩
  | delete prq =>
    obtain rfl := Option.some.inj h
    obtain ⟨hroute, houtcome⟩ := hprimary hrouted hstay hok
    exact ⟨trivial,
      (congrArg (·.reply.size) houtcome).trans (conductSize_record node.tablet (.delete prq))⟩
  | cPut prq =>
    simp only [WriteRequest.handle, KV.Handlers.cPut, WriteRequest.route] at h hrouted hstay
    cases hr : cPutRoute node.toNodeView (some addr) prq.row prq.col with
    | mk view route =>
      rw [hr] at h hrouted hstay
      cases hrouted with
      | rejected status hcode =>
        obtain rfl := Option.some.inj h
        exact absurd hok hcode
      | unknown status hcode =>
        obtain rfl := Option.some.inj h
        exact absurd hok hcode
      | forward => exact absurd rfl (hstay _)
      | primary hserving hself =>
        dsimp only at h
        cases hverdict : (cPutCheck node.tablet prq.row prq.col prq.v1).2 with
        | abort =>
          rw [hverdict] at h
          cases h
        | refuse status =>
          rw [hverdict] at h
          obtain rfl := Option.some.inj h
          exact absurd hok (cPutCheck_refuse hverdict)
        | accept =>
          rw [hverdict] at h
          obtain rfl := Option.some.inj h
          obtain ⟨hrow, hcol⟩ := routeWrite_primary_keys (congrArg Prod.snd hr)
          refine ⟨⟨hrow, hcol, ?_⟩, conductSize_record
            (cPutCheck node.tablet prq.row prq.col prq.v1).1 (.cPut prq)⟩
          cases hcell : cells node.tablet (prq.row, prq.col) with
          | none =>
            have hnone := cPutCheck_of_none hcell prq.v1
            rw [hverdict] at hnone
            split at hnone
            · cases hnone
            · obtain ⟨message, hmessage⟩ := hnone
              cases hmessage
          | some value =>
            have hsome := cPutCheck_of_some hcell prq.v1
            rw [hverdict] at hsome
            split at hsome
            · next heq => rw [heq]
            · cases hsome

/-- How a write ends at a partition. -/
inductive Settles (m : Store) (req : WriteRequest) : Replicas × Reply → Prop
  | refused (s : Replicas) (reply : Reply) (hcode : reply.status.code ≠ .ok)
      (hcells : Agrees s m) : Settles m req (s, reply)
  | executed (s : Replicas) (reply : Reply) (hcode : reply.status.code = .ok)
      (haccepts : Accepts m req) (hsize : reply.size = replySize m req)
      (hcells : Agrees s (write m req.record)) : Settles m req (s, reply)

section Partition

variable {s : Replicas} {m : Store}

/-- Nodes that serve no more than before, with their tablets. -/
theorem Agrees.of_nodes {t : Replicas} (h : Agrees s m)
    (hnodes : ∀ (i : ℕ) node, t.nodes[i]? = some node → node.statusServ = true →
      ∃ old, s.nodes[i]? = some old ∧ old.statusServ = true ∧ node.tablet = old.tablet) :
    Agrees t m := by
  intro i node hnode hserving
  obtain ⟨old, hold, hup, htablet⟩ := hnodes i node hnode hserving
  rw [htablet]
  exact h i old hold hup

theorem Agrees.modify (h : Agrees s m) {i : ℕ} {f : NodeView → NodeView}
    (hf : ∀ node, s.nodes[i]? = some node → (f node.toNodeView).statusServ = true →
      node.statusServ = true) : Agrees (s.modify i f) m := by
  refine h.of_nodes fun j node hnode hserving ↦ ?_
  rw [Replicas.modify_getElem?] at hnode
  split at hnode
  · next hij =>
    subst hij
    obtain ⟨old, hold, rfl⟩ := Option.map_eq_some_iff.mp hnode
    exact ⟨old, hold, hf old hold hserving, rfl⟩
  · exact ⟨node, hnode, hserving, rfl⟩

theorem Agrees.kill (h : Agrees s m) (i : ℕ) : Agrees (s.kill i) m :=
  Agrees.modify (f := adminShutdown) h fun _ _ hup ↦ absurd hup Bool.false_ne_true

/-- The node that executes a write and the nodes it sends the record to agree afterwards. -/
theorem Agrees.commit (h : Agrees s m) {i : ℕ} {node : KVNode} (hnode : s.nodes[i]? = some node)
    {req : WriteRequest} {view : NodeView} {outcome : Outcome} (hview : view.statusServ = node.statusServ)
    (houtcome : Handled req node view outcome) :
    Agrees (s.commit i outcome)
      (if outcome.reply.status.code = .ok then write m req.record else m) := by
  intro j node' hnode' hserving
  rw [Replicas.commit_getElem?, Option.map_eq_some_iff] at hnode'
  obtain ⟨old, hold, rfl⟩ := hnode'
  cases houtcome with
  | executed hup hsame hmulticast hcode hcells =>
    rw [if_pos hcode]
    split at hserving
    · next hji =>
      rw [if_pos hji, hcells, h i node hnode hup]
    · next hji =>
      rw [if_neg hji]
      rw [hmulticast] at hserving ⊢
      have hold' : old.statusServ = true :=
        (congrArg NodeView.statusServ (executePeer_view old req.record)).symm.trans hserving
      have hexec : (executePeer old req.record).1 = logAndConduct old req.record := by
        simp only [executePeer, hold', not_true_eq_false, if_false]
      dsimp only
      rw [hexec, logAndConduct_cells, h j old hold hold']
  | refused hsame hmulticast hcode hcells =>
    rw [if_neg hcode]
    split at hserving
    · next hji =>
      rw [if_pos hji, hcells]
      refine h i node hnode ?_
      rw [← hview, ← hsame]
      exact hserving
    · next hji =>
      rw [if_neg hji]
      rw [hmulticast] at hserving ⊢
      exact h j old hold hserving

/-- By induction on the hops. -/
theorem serve_settles {fuel i : ℕ} {req : WriteRequest} {r : Replicas × Reply} (hm : Agrees s m)
    (h : s.serve fuel i req = some r) : Settles m req r := by
  induction fuel generalizing s i with
  | zero => cases h
  | succ fuel ih =>
    unfold Replicas.serve at h
    split at h
    · cases h
      exact .refused _ _ unreachable_ne_ok hm
    · next node hnode =>
      have hrouted := req.route_routed node.toNodeView (primaryResponse s.master).addr
      have hadopt : Agrees (s.modify i fun _ ↦
          (req.route node.toNodeView (some (primaryResponse s.master).addr)).1) m := by
        refine hm.modify fun old hold hup ↦ ?_
        obtain rfl : node = old := Option.some.inj (hnode.symm.trans hold)
        exact hrouted.statusServ.symm.trans hup
      split at h
      · cases h
        exact .refused _ _ unreachable_ne_ok hm
      · dsimp only at h
        split at h
        · next view peer hroute =>
          rw [hroute] at hadopt
          split at h
          · exact ih hadopt h
          · cases h
            exact .refused _ _ unreachable_ne_ok hadopt
        · next hstay =>
          have hstay' : ∀ peer, (req.route node.toNodeView
              (some (primaryResponse s.master).addr)).2 ≠ .forward peer :=
            fun peer hpeer ↦ hstay _ peer (Prod.ext rfl hpeer)
          split at h
          · next outcome houtcome =>
            cases h
            have hhandled := WriteRequest.handle_handled hstay' houtcome
            have hcommit := hm.commit hnode hrouted.statusServ hhandled
            by_cases hcode : outcome.reply.status.code = .ok
            · rw [if_pos hcode] at hcommit
              obtain ⟨haccepts, hsize⟩ := handle_accepts hstay' houtcome hcode
              have hup : node.statusServ = true := by
                cases hhandled with
                | executed hup => exact hup
                | refused _ _ hne => exact absurd hcode hne
              rw [hm i node hnode hup] at haccepts hsize
              exact .executed _ _ hcode haccepts hsize hcommit
            · rw [if_neg hcode] at hcommit
              exact .refused _ _ hcode hcommit
          · cases h
            exact .refused _ _ unreachable_ne_ok (hm.kill i)

end Partition

/-- Nobody serves after an incident who has not served before, and the tablets stay. -/
theorem Agrees.happen {s : Replicas} {m : Store} (h : Agrees s m) (p : ℕ) (incident : Incident) :
    Agrees (incident.happen p s) m := by
  cases incident with
  | round garbage =>
    refine h.of_nodes fun i node hnode hserving ↦ ?_
    obtain ⟨old, hold, htablet, hview⟩ := Visibility.govern_node (s := { replicas := s }) hnode
    have hsame := s.control.round_statusServ p garbage i
    have hround : (s.control.round p garbage).nodes[i]? = some node.toNodeView := hview
    rw [Replicas.control_getElem?, hold, hround] at hsame
    exact ⟨old, hold, (Option.some.inj hsame).symm.trans hserving, htablet⟩
  | shutdown j =>
    refine h.of_nodes fun i node hnode hserving ↦ ?_
    obtain ⟨old, hold, htablet, hview⟩ := Visibility.govern_node (s := { replicas := s }) hnode
    refine ⟨old, hold, ?_, htablet⟩
    rw [Partition.step, Partition.modify_getElem?, Replicas.control_getElem?, hold] at hview
    split at hview
    · have hdown : adminShutdown old.toNodeView = node.toNodeView := Option.some.inj hview
      rw [← hdown] at hserving
      exact absurd hserving Bool.false_ne_true
    · have hsame : old.toNodeView = node.toNodeView := Option.some.inj hview
      rw [hsame]
      exact hserving
  | crash j => exact h.kill j

theorem happen_forwardInv {addrs : List Bytes} (hdistinct : addrs.Nodup) (hnamed : [] ∉ addrs)
    {s : Replicas} (h : ForwardInv addrs s.control) (p : ℕ) (incident : Incident) :
    ForwardInv addrs (incident.happen p s).control := by
  cases incident with
  | round garbage => exact Visibility.govern_forwardInv hdistinct hnamed (s := { replicas := s }) h p _
  | shutdown j => exact Visibility.govern_forwardInv hdistinct hnamed (s := { replicas := s }) h p _
  | crash j =>
    have hcontrol : (s.kill j).control = s.control.step p (.shutdown j) :=
      Replicas.modify_control s j adminShutdown
    rw [Incident.happen, hcontrol]
    exact step_forwardInv hdistinct hnamed h p _

theorem serve_forwardInv {addrs : List Bytes} (hdistinct : addrs.Nodup) (hnamed : [] ∉ addrs)
    {s : Replicas} (h : ForwardInv addrs s.control) (p : ℕ) {fuel i : ℕ} {req : WriteRequest}
    {r : Replicas × Reply} (hserve : s.serve fuel i req = some r) : ForwardInv addrs r.1.control := by
  refine (serve_effect p hserve).control.invariant h ?_
  rintro q e q' hq - hnext
  cases hnext
  exact step_forwardInv hdistinct hnamed hq p e

/-! ## The partitions together -/

/-- The cells whose rows belong to a partition. -/
def part (client : Client) (p : ℕ) (m : Store) : Store := fun cell ↦
  if client.rowPartition cell.1 = some p then m cell else none

theorem part_self {client : Client} {p : ℕ} {row : Bytes} (h : client.rowPartition row = some p)
    (m : Store) (col : Bytes) : part client p m (row, col) = m (row, col) := if_pos h

/-- A write shows in the part of its row and in no other. -/
theorem part_write {client : Client} {p : ℕ} {record : LogRecord}
    (h : client.rowPartition record.cell.1 = some p) (m : Store) (q : ℕ) :
    part client q (write m record) =
      if q = p then write (part client p m) record else part client q m := by
  ext1 cell
  by_cases hcell : cell = record.cell
  · subst hcell
    split
    · next hq =>
      rw [hq]
      calc
        part client p (write m record) record.cell = write m record record.cell := if_pos h
        _ = record.outcome := write_self m record
        _ = write (part client p m) record record.cell := (write_self _ record).symm
    · next hq =>
      have hother : client.rowPartition record.cell.1 ≠ some q := by
        rw [h]
        exact fun heq ↦ hq (Option.some.inj heq).symm
      simp only [part, if_neg hother]
  · have hsame : part client q (write m record) cell = part client q m cell := by
      unfold part
      rw [write_of_ne hcell]
    split
    · next hq => rw [hsame, hq, write_of_ne hcell]
    · exact hsame

/-- The partitions hold one map, each the part of its rows. -/
structure Sharded (client : Client) (config : ClusterConfig) (m : Store) (partitions : List Replicas) :
    Prop where
  length : partitions.length = config.partitions.length
  control : ∀ (p : ℕ) s addrs, partitions[p]? = some s → config.partitions[p]? = some addrs →
    ForwardInv addrs s.control
  agrees : ∀ (p : ℕ) s, partitions[p]? = some s → Agrees s (part client p m)

section Backend

variable {client : Client} {config : ClusterConfig} {m : Store} {partitions : List Replicas}

theorem Sharded.exists_addrs (h : Sharded client config m partitions) {p : ℕ} {s : Replicas}
    (hs : partitions[p]? = some s) :
    ∃ addrs, config.partitions[p]? = some addrs ∧ addrs.Nodup ∧ [] ∉ addrs := by
  have hlt : p < config.partitions.length := by
    rw [← h.length]
    exact (List.getElem?_eq_some_iff.mp hs).1
  refine ⟨config.partitions[p], List.getElem?_eq_getElem hlt, ?_, ?_⟩
  · exact config.distinct _ (List.getElem_mem hlt)
  · exact config.named _ (List.getElem_mem hlt)

theorem Sharded.modify (h : Sharded client config m partitions) (p : ℕ) (incident : Incident) :
    Sharded client config m (partitions.modify p fun s ↦ incident.happen p s) where
  length := by rw [List.length_modify, h.length]
  control := by
    intro q s addrs hs haddrs
    rw [List.getElem?_modify] at hs
    obtain ⟨old, hold, rfl⟩ := Option.map_eq_some_iff.mp hs
    obtain ⟨addrs', haddrs', hdistinct, hnamed⟩ := h.exists_addrs hold
    obtain rfl : addrs = addrs' := Option.some.inj (haddrs.symm.trans haddrs')
    split
    · exact happen_forwardInv hdistinct hnamed (h.control q old addrs hold haddrs) p incident
    · exact h.control q old addrs hold haddrs
  agrees := by
    intro q s hs
    rw [List.getElem?_modify] at hs
    obtain ⟨old, hold, rfl⟩ := Option.map_eq_some_iff.mp hs
    split
    · exact (h.agrees q old hold).happen p incident
    · exact h.agrees q old hold

theorem Sharded.current {backend : Backend} (h : Sharded client config m backend.partitions) :
    Sharded client config m backend.current := by
  unfold Backend.current
  generalize (backend.turns 0).incidents = incidents
  induction incidents generalizing backend with
  | nil => exact h
  | cons incident incidents ih =>
    exact @ih { backend with partitions := _ } (h.modify incident.1 incident.2)

/-- What a write leaves at its partition. -/
theorem Sharded.set (h : Sharded client config m partitions) {p : ℕ} {t : Replicas}
    (hcontrol : ∀ addrs, config.partitions[p]? = some addrs → ForwardInv addrs t.control)
    {m' : Store} (hpart : ∀ q, q ≠ p → part client q m' = part client q m)
    (hcells : Agrees t (part client p m')) : Sharded client config m' (partitions.set p t) where
  length := by rw [List.length_set, h.length]
  control := by
    intro q u addrs hu haddrs
    rw [List.getElem?_set] at hu
    split at hu
    · next hqp =>
      subst hqp
      split at hu
      · obtain rfl := Option.some.inj hu
        exact hcontrol addrs haddrs
      · cases hu
    · exact h.control q u addrs hu haddrs
  agrees := by
    intro q u hu
    rw [List.getElem?_set] at hu
    split at hu
    · next hqp =>
      subst hqp
      split at hu
      · obtain rfl := Option.some.inj hu
        exact hcells
      · cases hu
    · next hqp =>
      rw [hpart q fun heq ↦ hqp heq.symm]
      exact h.agrees q u hu

/-- How a request ends for the client. -/
inductive Ends (client : Client) (config : ClusterConfig) (m : Store) (p : ℕ) :
    Rpc → Backend × Except Thrown Reply → Prop
  | failed (rpc : Rpc) (backend : Backend) (reply : Reply) (hok : reply.status.code ≠ .ok)
      (hfound : reply.status.code ≠ .notFound ∨ ∃ req, rpc = .write req)
      (h : Sharded client config m backend.partitions) : Ends client config m p rpc (backend, .ok reply)
  | found (grq : GetRequest) (backend : Backend) (reply : Reply) (hok : reply.status.code = .ok)
      (hcell : part client p m (grq.row, grq.col) = some (dataValue reply))
      (h : Sharded client config m backend.partitions) :
      Ends client config m p (.get grq) (backend, .ok reply)
  | missing (grq : GetRequest) (backend : Backend) (reply : Reply)
      (hcode : reply.status.code = .notFound)
      (hcell : part client p m (grq.row, grq.col) = none)
      (h : Sharded client config m backend.partitions) :
      Ends client config m p (.get grq) (backend, .ok reply)
  | executed (req : WriteRequest) (backend : Backend) (reply : Reply) (hok : reply.status.code = .ok)
      (haccepts : Accepts (part client p m) req) (hsize : reply.size = replySize (part client p m) req)
      (h : Sharded client config (write m req.record) backend.partitions) :
      Ends client config m p (.write req) (backend, .ok reply)

/-- The row a request is about. -/
def rpcRow : Rpc → Bytes
  | .get grq => grq.row
  | .write req => req.record.cell.1

theorem execute_ends {backend : Backend} (h : Sharded client config m backend.partitions) {p : ℕ}
    (hp : p < config.partitions.length) {rpc : Rpc} (hrow : client.rowPartition (rpcRow rpc) = some p) :
    Ends client config m p rpc (execute { partition := p, rpc := rpc } backend) := by
  have hcurrent := h.current
  have hlt : p < backend.current.length := by rwa [hcurrent.length]
  have hs : backend.current[p]? = some backend.current[p] := List.getElem?_eq_getElem hlt
  have hagrees := hcurrent.agrees p _ hs
  obtain ⟨addrs, haddrs, hdistinct, hnamed⟩ := hcurrent.exists_addrs hs
  have hinv := hcurrent.control p _ addrs hs haddrs
  have hcontrol : ∀ {t : Replicas}, ForwardInv addrs t.control →
      ∀ addrs', config.partitions[p]? = some addrs' → ForwardInv addrs' t.control := by
    intro t ht addrs' haddrs'
    obtain rfl : addrs = addrs' := Option.some.inj (haddrs.symm.trans haddrs')
    exact ht
  cases rpc with
  | get grq =>
    have hsame : Sharded client config m (backend.current.set p backend.current[p]) := by
      rwa [List.set_getElem_self]
    unfold execute
    rw [hs, Option.bind_some, receive]
    cases hnode : backend.current[p].nodes[(backend.turns 0).node p]? with
    | none => exact .failed _ _ _ unreachable_ne_ok (.inl (by decide)) hsame
    | some node =>
      dsimp only
      split
      · exact .failed _ _ _ unreachable_ne_ok (.inl (by decide)) hsame
      · have hcode := get_code node grq
        have hdata := get_data node grq
        cases hserving : node.statusServ with
        | false =>
          rw [hserving, if_neg Bool.false_ne_true] at hcode
          refine .failed _ _ _ ?_ (.inl ?_) hsame
          · rw [hcode]
            decide
          · rw [hcode]
            decide
        | true =>
          rw [hserving, if_pos rfl, hagrees _ node hnode hserving] at hcode hdata
          cases hcell : part client p m (grq.row, grq.col) with
          | none =>
            rw [hcell] at hcode
            exact .missing _ _ _ hcode hcell hsame
          | some value =>
            rw [hcell] at hcode hdata
            refine .found _ _ _ hcode ?_ hsame
            rw [hcell, dataValue, hdata]
            rfl
  | write req =>
    have hsome := serve_isSome hdistinct hnamed hinv ((backend.turns 0).node p) req
    obtain ⟨r, hserve⟩ := Option.isSome_iff_exists.mp hsome
    have hnext := hcontrol (serve_forwardInv hdistinct hnamed hinv p hserve)
    unfold execute
    rw [hs, Option.bind_some, receive, hserve]
    cases serve_settles hagrees hserve with
    | refused s reply hcode hcells =>
      exact .failed _ _ _ hcode (.inr ⟨req, rfl⟩) (hcurrent.set hnext (fun _ _ ↦ rfl) hcells)
    | executed s reply hcode haccepts hsize hcells =>
      refine .executed _ _ _ hcode haccepts hsize (hcurrent.set hnext (fun q hq ↦ ?_) ?_)
      · rw [part_write hrow, if_neg hq]
      · rw [part_write hrow, if_pos rfl]
        exact hcells

/-! ## One call -/

/-- The flat map answers a call, or the call fails. -/
inductive Answered (m : Store) : Request → Except Thrown Value → Store → Prop
  | found (row col value : Bytes) (h : m (row, col) = some value) :
      Answered m (.get row col) (.ok (.text value)) m
  | missing (row col : Bytes) (h : m (row, col) = none) :
      Answered m (.get row col) (.error .kvNotFound) m
  | foundOr (r c v : Bytes) :
      Answered m (.getdefault r c v) (.ok (.text ((m (r, c)).getD v))) m
  | stored (row col data : Bytes) (hrow : row ≠ []) (hcol : col ≠ []) :
      Answered m (.put row col data) (.ok (.number (UInt32.ofNat data.length).toInt32))
        (Function.update m (row, col) (some data))
  | exchanged (rr cc v1 v2 : Bytes) (hrow : rr ≠ []) (hcol : cc ≠ [])
      (h : m (rr, cc) = some v1) :
      Answered m (.cput rr cc v1 v2) (.ok (.number (UInt32.ofNat v2.length).toInt32))
        (Function.update m (rr, cc) (some v2))
  | erased (rr cc : Bytes) :
      Answered m (.del rr cc) (.ok (.number (if (m (rr, cc)).isSome then 1 else 0)))
        (Function.update m (rr, cc) none)
  | failed (request : Request) : Answered m request (.error .kvError) m

variable {p : ℕ}

theorem run_getLoop (grq : GetRequest) (n : ℕ) (backend : Backend) :
    (getLoop p grq (n + 1)).run execute backend =
      match execute { partition := p, rpc := .get grq } backend with
      | (t, .ok reply) =>
        (if reply.status.code = .ok then return dataValue reply
          else if reply.status.code = .notFound then .raise .kvNotFound
          else getLoop p grq n : ClientProg Bytes).run execute t
      | (t, .error e) => (t, .error e) := by
  rw [getLoop, Prog.run_bind, Prog.run_perform]
  generalize execute _ backend = outcome
  obtain ⟨t, answer⟩ := outcome
  cases answer with
  | ok reply => rfl
  | error e => rfl

theorem run_writeLoop (req : WriteRequest) (n : ℕ) (backend : Backend) :
    (writeLoop p req (n + 1)).run execute backend =
      match execute { partition := p, rpc := .write req } backend with
      | (t, .ok reply) =>
        (if reply.status.code = .ok then return reply.size.toInt32
          else writeLoop p req n : ClientProg Int32).run execute t
      | (t, .error e) => (t, .error e) := by
  rw [writeLoop_succ, Prog.run_bind, Prog.run_perform]
  generalize execute _ backend = outcome
  obtain ⟨t, answer⟩ := outcome
  cases answer with
  | ok reply => rfl
  | error e => rfl

theorem getLoop_ends (hp : p < config.partitions.length) (grq : GetRequest)
    (hrow : client.rowPartition grq.row = some p) (n : ℕ) {backend : Backend}
    (h : Sharded client config m backend.partitions) :
    ∃ backend' result, (getLoop p grq n).run execute backend = (backend', result) ∧
      Sharded client config m backend'.partitions ∧
      (result = .error .kvError ∨ result = .error .kvNotFound ∧ m (grq.row, grq.col) = none ∨
        ∃ value, result = .ok value ∧ m (grq.row, grq.col) = some value) := by
  induction n generalizing backend with
  | zero => exact ⟨backend, _, rfl, h, .inl rfl⟩
  | succ n ih =>
    have hends : Ends client config m p (.get grq)
      (execute { partition := p, rpc := .get grq } backend) := execute_ends h hp hrow
    rw [run_getLoop]
    generalize execute { partition := p, rpc := .get grq } backend = outcome at hends
    cases hends with
    | failed _ backend' reply hok hfound hnext =>
      have hother : reply.status.code ≠ .notFound := by
        rcases hfound with hne | ⟨req, hreq⟩
        · exact hne
        · cases hreq
      dsimp only
      rw [if_neg hok, if_neg hother]
      exact ih hnext
    | found _ backend' reply hok hcell hnext =>
      rw [part_self hrow] at hcell
      dsimp only
      rw [if_pos hok]
      exact ⟨backend', _, rfl, hnext, .inr (.inr ⟨_, rfl, hcell⟩)⟩
    | missing _ backend' reply hcode hcell hnext =>
      rw [part_self hrow] at hcell
      have hok : reply.status.code ≠ .ok := by
        rw [hcode]
        decide
      dsimp only
      rw [if_neg hok, if_pos hcode]
      exact ⟨backend', _, rfl, hnext, .inr (.inl ⟨rfl, hcell⟩)⟩

theorem writeLoop_ends (hp : p < config.partitions.length) (req : WriteRequest)
    (hrow : client.rowPartition req.record.cell.1 = some p) (n : ℕ) {backend : Backend}
    (h : Sharded client config m backend.partitions) :
    ∃ backend' result, (writeLoop p req n).run execute backend = (backend', result) ∧
      (result = .error .kvError ∧ Sharded client config m backend'.partitions ∨
        result = .ok (replySize (part client p m) req).toInt32 ∧ Accepts (part client p m) req ∧
          Sharded client config (write m req.record) backend'.partitions) := by
  induction n generalizing backend with
  | zero => exact ⟨backend, _, rfl, .inl ⟨rfl, h⟩⟩
  | succ n ih =>
    have hends : Ends client config m p (.write req)
      (execute { partition := p, rpc := .write req } backend) := execute_ends h hp hrow
    rw [run_writeLoop]
    generalize execute { partition := p, rpc := .write req } backend = outcome at hends
    cases hends with
    | failed _ backend' reply hok hfound hnext =>
      dsimp only
      rw [if_neg hok]
      exact ih hnext
    | executed _ backend' reply hok haccepts hsize hnext =>
      dsimp only
      rw [if_pos hok, hsize]
      exact ⟨backend', _, rfl, .inr ⟨rfl, haccepts, hnext⟩⟩

theorem exists_rowPartition (hsize : client.partitions = config.partitions.length)
    (hint : sizeToInt client.partitions ≠ 0) (row : Bytes) :
    ∃ p, client.rowPartition row = some p ∧ p < config.partitions.length := by
  have hsome : (client.rowPartition row).isSome := by
    simp only [Client.rowPartition, if_neg hint, Option.isSome_some]
  obtain ⟨p, hp⟩ := Option.isSome_iff_exists.mp hsome
  exact ⟨p, hp, hsize ▸ rowPartition_lt hp⟩

theorem get_eq {row : Bytes} (h : client.rowPartition row = some p) (col : Bytes) :
    client.get row col = getLoop p { row := row, col := col } 5 := by
  rw [Client.get, Client.atRow, h, Option.elim_some]

theorem put_eq {row : Bytes} (h : client.rowPartition row = some p) (col data : Bytes) :
    client.put row col data = writeLoop p (.put { row := row, col := col, value := data }) 5 := by
  rw [Client.put, Client.atRow, h, Option.elim_some]

theorem cput_eq {rr : Bytes} (h : client.rowPartition rr = some p) (cc v1 v2 : Bytes) :
    client.cput rr cc v1 v2 =
      writeLoop p (.cPut { row := rr, col := cc, v1 := v1, v2 := v2 }) 5 := by
  rw [Client.cput, Client.atRow, h, Option.elim_some, cputLoop_eq]

theorem del_eq {rr : Bytes} (h : client.rowPartition rr = some p) (cc : Bytes) :
    client.del rr cc = writeLoop p (.delete { row := rr, col := cc }) 5 := by
  rw [Client.del, Client.atRow, h, Option.elim_some]

/-- What `getdefault` makes of the end of a `get`. -/
def orElse (v : Bytes) : Except Thrown Bytes → Except Thrown Bytes
  | .ok value => .ok value
  | .error e => if e = .kvNotFound then .ok v else .error e

theorem run_orElse {prog : ClientProg Bytes} {backend backend' : Backend}
    {result : Except Thrown Bytes} (h : prog.run execute backend = (backend', result)) (v : Bytes) :
    (prog.handle fun e ↦ if e = .kvNotFound then .ret v else .raise e).run execute backend =
      (backend', orElse v result) := by
  rw [Prog.run_handle, h]
  cases result with
  | ok value => rfl
  | error e =>
    dsimp only [orElse]
    split
    · rfl
    · rfl

section Request

variable (hsize : client.partitions = config.partitions.length)
  (hint : sizeToInt client.partitions ≠ 0) {backend : Backend}
  (h : Sharded client config m backend.partitions)

include hsize hint h

theorem get_ends (row col : Bytes) :
    ∃ backend' result, (client.get row col).run execute backend = (backend', result) ∧
      Sharded client config m backend'.partitions ∧
      (result = .error .kvError ∨ result = .error .kvNotFound ∧ m (row, col) = none ∨
        ∃ value, result = .ok value ∧ m (row, col) = some value) := by
  obtain ⟨p, hrow, hp⟩ := exists_rowPartition hsize hint row
  rw [get_eq hrow]
  exact getLoop_ends hp { row := row, col := col } hrow 5 h

theorem getdefault_ends (r c v : Bytes) :
    ∃ backend' result, (client.getdefault r c v).run execute backend = (backend', result) ∧
      Sharded client config m backend'.partitions ∧
      (result = .error .kvError ∨ result = .ok ((m (r, c)).getD v)) := by
  obtain ⟨backend', result, hget, hnext, hresult⟩ := get_ends hsize hint h r c
  rcases hresult with rfl | ⟨rfl, hcell⟩ | ⟨value, rfl, hcell⟩
  · exact ⟨backend', _, run_orElse hget v, hnext, .inl rfl⟩
  · rw [hcell]
    exact ⟨backend', _, run_orElse hget v, hnext, .inr rfl⟩
  · rw [hcell]
    exact ⟨backend', _, run_orElse hget v, hnext, .inr rfl⟩

/-- Every call at the cluster is one that the map answers, or a failure that changes nothing. -/
theorem request_answered (request : Request) :
    ∃ m' backend' result, (client.request request).run execute backend = (backend', result) ∧
      Answered m request result m' ∧ Sharded client config m' backend'.partitions := by
  cases request with
  | get row col =>
    obtain ⟨backend', result, hget, hnext, hresult⟩ := get_ends hsize hint h row col
    have hrun : (client.request (.get row col)).run execute backend =
        (backend', result.map Value.text) := by
      refine (Prog.run_bind_pure (client.get row col) Value.text backend).trans ?_
      rw [hget]
    refine ⟨m, backend', _, hrun, ?_, hnext⟩
    rcases hresult with rfl | ⟨rfl, hcell⟩ | ⟨value, rfl, hcell⟩
    · exact .failed _
    · exact .missing row col hcell
    · exact .found row col value hcell
  | getdefault r c v =>
    obtain ⟨backend', result, hget, hnext, hresult⟩ := getdefault_ends hsize hint h r c v
    have hrun : (client.request (.getdefault r c v)).run execute backend =
        (backend', result.map Value.text) := by
      refine (Prog.run_bind_pure (client.getdefault r c v) Value.text backend).trans ?_
      rw [hget]
    refine ⟨m, backend', _, hrun, ?_, hnext⟩
    rcases hresult with rfl | rfl
    · exact .failed _
    · exact .foundOr r c v
  | put row col data =>
    obtain ⟨p, hrow, hp⟩ := exists_rowPartition hsize hint row
    obtain ⟨backend', result, hput, hresult⟩ := writeLoop_ends hp
      (.put { row := row, col := col, value := data }) hrow 5 h
    have hrun : (client.request (.put row col data)).run execute backend =
        (backend', result.map Value.number) := by
      refine (Prog.run_bind_pure (client.put row col data) Value.number backend).trans ?_
      rw [put_eq hrow, hput]
    rcases hresult with ⟨rfl, hnext⟩ | ⟨rfl, ⟨hr, hc⟩, hnext⟩
    · exact ⟨m, backend', _, hrun, .failed _, hnext⟩
    · exact ⟨_, backend', _, hrun, .stored row col data hr hc, hnext⟩
  | cput rr cc v1 v2 =>
    obtain ⟨p, hrow, hp⟩ := exists_rowPartition hsize hint rr
    obtain ⟨backend', result, hcput, hresult⟩ := writeLoop_ends hp
      (.cPut { row := rr, col := cc, v1 := v1, v2 := v2 }) hrow 5 h
    have hrun : (client.request (.cput rr cc v1 v2)).run execute backend =
        (backend', result.map Value.number) := by
      refine (Prog.run_bind_pure (client.cput rr cc v1 v2) Value.number backend).trans ?_
      rw [cput_eq hrow, hcput]
    rcases hresult with ⟨rfl, hnext⟩ | ⟨rfl, ⟨hr, hc, hcell⟩, hnext⟩
    · exact ⟨m, backend', _, hrun, .failed _, hnext⟩
    · rw [part_self hrow] at hcell
      exact ⟨_, backend', _, hrun, .exchanged rr cc v1 v2 hr hc hcell, hnext⟩
  | del rr cc =>
    obtain ⟨p, hrow, hp⟩ := exists_rowPartition hsize hint rr
    obtain ⟨backend', result, hdel, hresult⟩ := writeLoop_ends hp
      (.delete { row := rr, col := cc }) hrow 5 h
    have hrun : (client.request (.del rr cc)).run execute backend =
        (backend', result.map Value.number) := by
      refine (Prog.run_bind_pure (client.del rr cc) Value.number backend).trans ?_
      rw [del_eq hrow, hdel]
    rcases hresult with ⟨rfl, hnext⟩ | ⟨rfl, -, hnext⟩
    · exact ⟨m, backend', _, hrun, .failed _, hnext⟩
    · refine ⟨_, backend', _, hrun, ?_, hnext⟩
      have hanswer := Answered.erased (m := m) rr cc
      simp only [Except.map, replySize, part_self hrow]
      split
      · next hsome =>
        rw [if_pos hsome] at hanswer
        exact hanswer
      · next hnone =>
        rw [if_neg hnone] at hanswer
        exact hanswer

end Request

end Backend

/-! ## Calls in a row -/

/-- The nodes start up with empty tablets. -/
def start (config : ClusterConfig) (turns : ℕ → Turn) : Backend where
  partitions := config.partitions.map fun addrs ↦ (Visibility.start addrs fun _ ↦ ∅).replicas
  turns := turns

theorem start_sharded (client : Client) (config : ClusterConfig) (turns : ℕ → Turn) :
    Sharded client config (fun _ ↦ none) (start config turns).partitions where
  length := List.length_map _
  control := by
    intro p s addrs hs haddrs
    rw [start, List.getElem?_map, haddrs, Option.map_some] at hs
    obtain rfl := Option.some.inj hs
    rw [Visibility.start_control]
    exact start_forwardInv addrs
  agrees := by
    intro p s hs i node hnode _
    rw [start, List.getElem?_map] at hs
    obtain ⟨addrs, -, rfl⟩ := Option.map_eq_some_iff.mp hs
    have hempty : node.tablet = ∅ := by
      simp only [Visibility.start, List.getElem?_mapIdx, Option.map_eq_some_iff] at hnode
      obtain ⟨view, -, rfl⟩ := hnode
      rfl
    ext1 cell
    rw [hempty, cells_empty, part, ite_self]

/-- Calls one after another, each run to its end. -/
def serveAll (client : Client) (backend : Backend) (requests : List Request) :
    Backend × List (Except Thrown Value) :=
  Transducer.run (fun backend request ↦ (client.request request).run execute backend) backend
    requests

/-- The cluster is one map: of every sequence of calls, each is answered as the map answers it or fails
without a trace, and every node that serves in the end holds the rows of its partition. -/
theorem cluster_is_one_map (client : Client) (config : ClusterConfig)
    (hsize : client.partitions = config.partitions.length)
    (hint : sizeToInt client.partitions ≠ 0) (turns : ℕ → Turn) (requests : List Request) :
    ∃ m, Transducer.Allows Answered (fun _ ↦ none) requests
        (serveAll client (start config turns) requests).2 m ∧
      ∀ (p : ℕ) s, (serveAll client (start config turns) requests).1.partitions[p]? = some s →
        ∀ node ∈ s.nodes, node.statusServ = true → ∀ cell,
          cells node.tablet cell = if client.rowPartition cell.1 = some p then m cell else none := by
  have hstep : ∀ backend m request, Sharded client config m backend.partitions →
      ∃ m', Answered m request ((client.request request).run execute backend).2 m' ∧
        Sharded client config m' ((client.request request).run execute backend).1.partitions := by
    intro backend m request h
    obtain ⟨m', backend', result, hrun, hanswer, hnext⟩ := request_answered hsize hint h request
    rw [hrun]
    exact ⟨m', hanswer, hnext⟩
  obtain ⟨m, hallows, hsharded⟩ := Transducer.run_allows hstep
    (start_sharded client config turns) requests
  refine ⟨m, hallows, fun p s hs node hnode hserving cell ↦ ?_⟩
  obtain ⟨i, hi⟩ := List.mem_iff_getElem?.mp hnode
  exact congrFun (hsharded.agrees p s hs i node hi hserving) cell

/-- The digest of the row "row", wherever it is asked for. -/
def digestOfRow (_ : Bytes) : Vector UInt8 16 :=
  #v[0xf1, 0x96, 0x5a, 0x85, 0x7b, 0xc2, 0x85, 0xd2, 0x6f, 0xe2, 0x20, 0x23, 0xaa, 0x5a, 0xb5, 0x0d]

/-- Three partitions; the second has two nodes. -/
def threePartitions : ClusterConfig where
  partitions := [[lit "A"], [lit "B", lit "C"], [lit "D"]]
  partitions_ne := by decide
  nodes_ne := by decide
  distinct := by decide
  named := by decide

/-- Three partitions of two or more nodes. -/
def sevenNodes : ClusterConfig where
  partitions := [[lit "A", lit "B"], [lit "C", lit "D", lit "E"], [lit "F", lit "G"]]
  partitions_ne := by decide
  nodes_ne := by decide
  distinct := by decide
  named := by decide

/-- A round before the first request, and node 0 of the second partition crashes before the third. -/
def failover (n : ℕ) : Turn where
  incidents :=
    match n with
    | 0 => [(0, .round false), (1, .round false), (2, .round false)]
    | 2 => [(1, .crash 0)]
    | _ => []
  node := fun _ ↦ n % 2

theorem cluster_is_one_map_failover :
    ∃ m, Transducer.Allows Answered (fun _ ↦ none)
        [.put (lit "row") (lit "col") (lit "x"), .get (lit "row") (lit "col")]
        (serveAll { MD5 := digestOfRow, partitions := 3 } (start threePartitions failover)
          [.put (lit "row") (lit "col") (lit "x"), .get (lit "row") (lit "col")]).2 m ∧
      ∀ (p : ℕ) s, (serveAll { MD5 := digestOfRow, partitions := 3 } (start threePartitions failover)
          [.put (lit "row") (lit "col") (lit "x"), .get (lit "row") (lit "col")]).1.partitions[p]? =
            some s →
        ∀ node ∈ s.nodes, node.statusServ = true → ∀ cell, cells node.tablet cell =
          if (Client.mk digestOfRow 3).rowPartition cell.1 = some p then m cell else none :=
  cluster_is_one_map { MD5 := digestOfRow, partitions := 3 } threePartitions rfl (by decide)
    failover _

end PennCloud.Cluster.OneMap
