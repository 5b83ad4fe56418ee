import PennCloud.Cluster.OneMap
import PennCloud.Frontend.ConsoleConfiguration
import PennCloud.KV.AdminList
import PennCloud.Replication.Agreement

/-!
# The listing of the whole cluster

`displayAdminList` asks the nodes of every partition in their order until one answers, and appends the
answers. A node that an admin has shut down answers too, with what it held then. As long as
processes only crash, the listing shows the one map: every cell once, by partitions, rows and columns.
-/

open PennCloud.Library PennCloud.Library.Programs PennCloud.Library.CppString
open PennCloud.KV.TabletCells PennCloud.KV.PrimaryView PennCloud.KV.Handlers PennCloud.KV.AdminList
open PennCloud.Coordinator.Election PennCloud.Coordinator.Views PennCloud.Coordinator.Forwarding
open PennCloud.Replication PennCloud.Replication.Serving PennCloud.Replication.Agreement
open PennCloud.Frontend.KVClient (Store)
open PennCloud.Frontend.ConsoleConfiguration (adminConsoleMain)
open PennCloud.Cluster.StorageClient PennCloud.Cluster.OneMap

namespace PennCloud.Cluster.Listing

/-! ## The console's call -/

section Display

variable (adminList : MasterNodeView → Option (List (Bytes × Bytes)))

/-- The loop over the nodes of a partition; it ends behind the first answer. -/
def displayNodes : List MasterNodeView → List (Bytes × Bytes)
  | [] => []
  | thisP :: nodes =>
    match adminList thisP with
    | none => displayNodes nodes
    | some keys => keys

def displayAdminList (partitions : List MasterPartitionView) : List (Bytes × Bytes) :=
  partitions.flatMap fun ppp ↦ displayNodes adminList ppp.nodes

end Display

/-- The running process at an address of the partition. -/
def process (s : Replicas) (addr : Bytes) : Option KVNode :=
  (s.nodes.findIdx? (·.addr = addr)).bind fun i ↦ if i ∈ s.dead then none else s.nodes[i]?

/-- `AdminList` at the process of an address. -/
def adminListAt (partitions : List Replicas) (thisP : MasterNodeView) :
    Option (List (Bytes × Bytes)) :=
  (partitions.findSome? fun s ↦ process s thisP.addr).map fun node ↦
    (KV.AdminList.adminList node.tablet).1

/-- The order of the listing. -/
def Before (client : Client) (x y : Bytes × Bytes) : Prop :=
  ∃ p q, client.rowPartition x.1 = some p ∧ client.rowPartition y.1 = some q ∧
    (p < q ∨ p = q ∧ KeyLt x y)

/-! ## Processes that have not been shut down -/

/-- Every process that runs serves. -/
def Up (s : Replicas) : Prop :=
  ∀ (i : ℕ) node, s.nodes[i]? = some node → i ∉ s.dead → node.statusServ = true

section Partition

variable {s t : Replicas}

theorem Up.of_nodes (h : Up s) (hdead : ∀ i ∈ s.dead, i ∈ t.dead)
    (hnodes : ∀ (i : ℕ) node, t.nodes[i]? = some node → i ∉ t.dead →
      ∃ old, s.nodes[i]? = some old ∧ node.statusServ = old.statusServ) : Up t := by
  intro i node hnode halive
  obtain ⟨old, hold, hsame⟩ := hnodes i node hnode halive
  rw [hsame]
  exact h i old hold fun hi ↦ halive (hdead i hi)

theorem Up.kill (h : Up s) (i : ℕ) : Up (s.kill i) := by
  refine h.of_nodes (fun _ hj ↦ List.mem_cons_of_mem i hj) fun j node hnode halive ↦ ?_
  have hne : i ≠ j := fun hij ↦ halive (hij ▸ List.mem_cons_self)
  have hget : (s.modify i adminShutdown).nodes[j]? = some node := hnode
  rw [Replicas.modify_getElem?, if_neg hne] at hget
  exact ⟨node, hget, rfl⟩

theorem Up.modify (h : Up s) {i : ℕ} {f : NodeView → NodeView}
    (hf : ∀ node, s.nodes[i]? = some node → (f node.toNodeView).statusServ = node.statusServ) :
    Up (s.modify i f) := by
  refine h.of_nodes (fun _ hj ↦ hj) fun j node hnode _ ↦ ?_
  rw [Replicas.modify_getElem?] at hnode
  split at hnode
  · next hij =>
    subst hij
    obtain ⟨old, hold, rfl⟩ := Option.map_eq_some_iff.mp hnode
    exact ⟨old, hold, hf old hold⟩
  · exact ⟨node, hnode, rfl⟩

theorem Up.commit (h : Up s) {i : ℕ} {outcome : Outcome}
    (hself : ∀ node, s.nodes[i]? = some node → outcome.node.statusServ = node.statusServ) :
    Up (s.commit i outcome) := by
  refine h.of_nodes (fun _ hj ↦ hj) fun j node hnode _ ↦ ?_
  rw [Replicas.commit_getElem?, Option.map_eq_some_iff] at hnode
  obtain ⟨old, hold, rfl⟩ := hnode
  refine ⟨old, hold, ?_⟩
  split
  · next hji => exact hself old (hji ▸ hold)
  · split
    · exact congrArg NodeView.statusServ (executePeer_view old _)
    · rfl

/-- Requests do not change who serves, unless they end the process. -/
theorem Up.serve {fuel i : ℕ} {req : WriteRequest} {r : Replicas × Reply} (h : Up s)
    (hserve : s.serve fuel i req = some r) : Up r.1 := by
  induction fuel generalizing s i with
  | zero => cases hserve
  | succ fuel ih =>
    have hadopt : ∀ {node : KVNode}, s.nodes[i]? = some node → Up (s.adopt i node req) := by
      intro node hnode
      refine h.modify fun old hold ↦ ?_
      obtain rfl : node = old := Option.some.inj (hnode.symm.trans hold)
      exact (req.route_routed node.toNodeView (primaryResponse s.master).addr).statusServ
    cases served_of_serve hserve with
    | lost => exact h
    | forwarded node peer j _ hnode hroute htarget hrest => exact ih (hadopt hnode) hrest
    | stuck node hnode => exact hadopt hnode
    | aborted node hnode => exact h.kill i
    | done node outcome hnode hhandled =>
      refine h.commit fun old hold ↦ ?_
      obtain rfl : node = old := Option.some.inj (hnode.symm.trans hold)
      have hview : outcome.node.toNodeView = (s.routed node req).1 := by
        cases hhandled with
        | executed _ hview => exact hview
        | refused hview => exact hview
      exact (congrArg NodeView.statusServ hview).trans
        (req.route_routed node.toNodeView (primaryResponse s.master).addr).statusServ

theorem Up.happen (h : Up s) (p : ℕ) {incident : Incident}
    (hincident : ∀ i, incident ≠ .shutdown i) : Up (incident.happen p s) := by
  cases incident with
  | round garbage =>
    refine h.of_nodes (fun _ hj ↦ hj) fun i node hnode _ ↦ ?_
    obtain ⟨old, hold, -, hview⟩ := Visibility.govern_node (s := { replicas := s }) hnode
    have hsame := s.control.round_statusServ p garbage i
    have hround : (s.control.round p garbage).nodes[i]? = some node.toNodeView := hview
    rw [Replicas.control_getElem?, hold, hround] at hsame
    exact ⟨old, hold, Option.some.inj hsame⟩
  | shutdown i => exact absurd rfl (hincident i)
  | crash i => exact h.kill i

end Partition

/-- No admin has shut a node down, and none will. -/
structure Unstopped (backend : Backend) : Prop where
  up : ∀ s ∈ backend.partitions, Up s
  turns : ∀ n, ∀ e ∈ (backend.turns n).incidents, ∀ i, e.2 ≠ .shutdown i

theorem Unstopped.current {backend : Backend} (h : Unstopped backend) :
    ∀ s ∈ backend.current, Up s := by
  have hturns := h.turns 0
  unfold Backend.current
  generalize (backend.turns 0).incidents = incidents at hturns
  generalize hpartitions : backend.partitions = partitions
  have hup : ∀ s ∈ partitions, Up s := hpartitions ▸ h.up
  clear hpartitions h
  induction incidents generalizing partitions with
  | nil => exact hup
  | cons e incidents ih =>
    refine ih (fun e' he' ↦ hturns e' (List.mem_cons_of_mem e he')) _ fun s hs ↦ ?_
    obtain ⟨q, hq⟩ := List.mem_iff_getElem?.mp hs
    rw [List.getElem?_modify] at hq
    obtain ⟨old, hold, rfl⟩ := Option.map_eq_some_iff.mp hq
    have hold' := hup old (List.mem_of_getElem? hold)
    split
    · exact hold'.happen e.1 (hturns e List.mem_cons_self)
    · exact hold'

theorem Unstopped.execute {backend : Backend} (h : Unstopped backend) (call : StubCall) :
    Unstopped (execute call backend).1 := by
  have hcurrent := h.current
  unfold StorageClient.execute
  cases hreceive : backend.current[call.partition]?.bind
      (receive · ((backend.turns 0).node call.partition) call.rpc) with
  | none => exact ⟨hcurrent, fun n ↦ h.turns (n + 1)⟩
  | some r =>
    obtain ⟨s, hs, hr⟩ := Option.bind_eq_some_iff.mp hreceive
    have hups := hcurrent s (List.mem_of_getElem? hs)
    have hnext : Up r.1 := by
      cases hrpc : call.rpc with
      | get grq =>
        rw [hrpc, receive] at hr
        split at hr
        · cases hr
          exact hups
        · cases hr
          exact hups
      | write req =>
        rw [hrpc] at hr
        exact hups.serve hr
    refine ⟨fun t ht ↦ ?_, fun n ↦ h.turns (n + 1)⟩
    rcases List.mem_or_eq_of_mem_set ht with hmem | rfl
    · exact hcurrent t hmem
    · exact hnext

/-! ## What is listed -/

section Display

variable (adminList : MasterNodeView → Option (List (Bytes × Bytes)))

theorem displayNodes_answer {nodes : List MasterNodeView}
    (h : ∃ thisP ∈ nodes, (adminList thisP).isSome) :
    ∃ thisP ∈ nodes, adminList thisP = some (displayNodes adminList nodes) := by
  induction nodes with
  | nil =>
    obtain ⟨_, hmem, -⟩ := h
    cases hmem
  | cons thisP nodes ih =>
    cases hanswer : adminList thisP with
    | some keys =>
      refine ⟨thisP, List.mem_cons_self, ?_⟩
      rw [displayNodes, hanswer]
    | none =>
      obtain ⟨thisP', hmem, hsome⟩ := h
      rcases List.mem_cons.mp hmem with rfl | hmem
      · rw [hanswer] at hsome
        cases hsome
      · obtain ⟨thisQ, hthisQ, hkeys⟩ := ih ⟨thisP', hmem, hsome⟩
        refine ⟨thisQ, List.mem_cons_of_mem _ hthisQ, ?_⟩
        rw [displayNodes, hanswer]
        exact hkeys

end Display

theorem findSome?_eq {α β : Type} {f : α → Option β} {xs : List α} {p : ℕ} {x : α}
    (h : xs[p]? = some x) (hothers : ∀ (q : ℕ) y, q ≠ p → xs[q]? = some y → f y = none) :
    xs.findSome? f = f x := by
  induction xs generalizing p with
  | nil => cases h
  | cons y ys ih =>
    rw [List.findSome?_cons]
    cases p with
    | zero =>
      obtain rfl := Option.some.inj h
      cases hy : f y with
      | some b => rfl
      | none =>
        apply List.findSome?_eq_none_iff.mpr
        intro z hz
        obtain ⟨q, hq⟩ := List.mem_iff_getElem?.mp hz
        exact hothers (q + 1) z (by omega) hq
    | succ p =>
      rw [hothers 0 y (by omega) rfl]
      exact ih h fun q z hq hz ↦ hothers (q + 1) z (by omega) hz

theorem process_eq_none {addrs : List Bytes} {s : Replicas} (hp : Configured addrs s.control)
    {addr : Bytes} (h : addr ∉ addrs) : process s addr = none := by
  have hnone : s.nodes.findIdx? (·.addr = addr) = none := by
    apply List.findIdx?_eq_none_iff.mpr
    intro node hnode
    obtain ⟨i, hi⟩ := List.mem_iff_getElem?.mp hnode
    have hview : s.control.nodes[i]? = some node.toNodeView := by
      rw [Replicas.control_getElem?, hi, Option.map_some]
    have haddr := List.mem_of_getElem? (hp.node i _ hview).1
    exact decide_eq_false fun heq ↦ h (heq ▸ haddr)
  rw [process, hnone, Option.bind_none]

/-- A process that answers serves. -/
theorem process_serves {s : Replicas} (hup : Up s) {addr : Bytes} {node : KVNode}
    (h : process s addr = some node) :
    ∃ i : ℕ, s.nodes[i]? = some node ∧ node.statusServ = true := by
  obtain ⟨i, -, hnode⟩ := Option.bind_eq_some_iff.mp h
  split at hnode
  · cases hnode
  · next halive => exact ⟨i, hnode, hup i node hnode halive⟩

section Cluster

variable {client : Client} {config : ClusterConfig} {m : Store} {partitions : List Replicas}
  {console : List MasterPartitionView}

/-- The console knows nodes of the partitions, in their order, though maybe not all of them. -/
def Knows (console : List MasterPartitionView) (config : ClusterConfig) : Prop :=
  List.Forall₂ (fun ppp addrs ↦ ∀ thisP ∈ ppp.nodes, thisP.addr ∈ addrs) console config.partitions

/-- A known node of every partition runs. -/
def Reachable (console : List MasterPartitionView) (partitions : List Replicas) : Prop :=
  List.Forall₂ (fun ppp s ↦ ∃ thisP ∈ ppp.nodes, (process s thisP.addr).isSome) console partitions

theorem adminListAt_eq (h : Sharded client config m partitions)
    (hdistinct : config.partitions.flatten.Nodup) {p : ℕ} {s : Replicas} {addrs : List Bytes}
    (hs : partitions[p]? = some s) (haddrs : config.partitions[p]? = some addrs)
    {thisP : MasterNodeView} (hmem : thisP.addr ∈ addrs) :
    adminListAt partitions thisP =
      (process s thisP.addr).map fun node ↦ (KV.AdminList.adminList node.tablet).1 := by
  have hfind : (partitions.findSome? fun s ↦ process s thisP.addr) = process s thisP.addr := by
    refine findSome?_eq (f := fun s ↦ process s thisP.addr) hs fun q t hq ht ↦ ?_
    obtain ⟨addrs', haddrs', -⟩ := h.exists_addrs ht
    refine process_eq_none (h.control q t addrs' ht haddrs').toConfigured fun hmem' ↦ ?_
    obtain ⟨hlt, rfl⟩ := List.getElem?_eq_some_iff.mp haddrs
    obtain ⟨hlt', rfl⟩ := List.getElem?_eq_some_iff.mp haddrs'
    have hdisjoint := List.pairwise_iff_getElem.mp (List.nodup_flatten.mp hdistinct).2
    rcases Nat.lt_or_gt_of_ne hq with hlt'' | hgt
    · exact hdisjoint q p hlt' hlt hlt'' hmem' hmem
    · exact hdisjoint p q hlt hlt' hgt hmem hmem'
  rw [adminListAt, hfind]

/-- What the loop over the nodes of a partition shows is its part of the map. -/
theorem displayNodes_part (h : Sharded client config m partitions)
    (hdistinct : config.partitions.flatten.Nodup) (hup : ∀ s ∈ partitions, Up s)
    (hknows : Knows console config) (hreach : Reachable console partitions) {p : ℕ}
    {ppp : MasterPartitionView} (hppp : console[p]? = some ppp) :
    (displayNodes (adminListAt partitions) ppp.nodes).Pairwise KeyLt ∧
      ∀ key, key ∈ displayNodes (adminListAt partitions) ppp.nodes ↔
        client.rowPartition key.1 = some p ∧ (m key).isSome := by
  obtain ⟨hlt, rfl⟩ := List.getElem?_eq_some_iff.mp hppp
  have haddrsLt : p < config.partitions.length := hknows.length_eq ▸ hlt
  have hsLt : p < partitions.length := h.length ▸ haddrsLt
  have hs : partitions[p]? = some partitions[p] := List.getElem?_eq_getElem hsLt
  have haddrs : config.partitions[p]? = some config.partitions[p] := List.getElem?_eq_getElem haddrsLt
  have hmem : ∀ thisP ∈ console[p].nodes, thisP.addr ∈ config.partitions[p] :=
    (List.forall₂_iff_get.mp hknows).2 p hlt haddrsLt
  have heq := fun thisP hthisP ↦ adminListAt_eq h hdistinct hs haddrs (hmem thisP hthisP)
  have hrunning : ∃ thisQ ∈ console[p].nodes, (process partitions[p] thisQ.addr).isSome :=
    (List.forall₂_iff_get.mp hreach).2 p hlt hsLt
  obtain ⟨thisQ, hthisQ, hrunning⟩ := hrunning
  obtain ⟨thisP, hthisP, hanswer⟩ := displayNodes_answer (adminListAt partitions)
    ⟨thisQ, hthisQ, by rw [heq thisQ hthisQ, Option.isSome_map]; exact hrunning⟩
  rw [heq thisP hthisP] at hanswer
  obtain ⟨node, hnode, hkeys⟩ := Option.map_eq_some_iff.mp hanswer
  obtain ⟨i, hi, hserving⟩ := process_serves (hup _ (List.getElem_mem hsLt)) hnode
  have hcells := h.agrees p _ hs i node hi hserving
  rw [← hkeys]
  refine ⟨adminList_increasing node.tablet, fun key ↦ ?_⟩
  rw [mem_adminList_iff, hcells, part]
  split
  · next hrow => exact (and_iff_right hrow).symm
  · next hrow =>
    constructor
    · intro hnone
      cases hnone
    · exact fun hkey ↦ absurd hkey.1 hrow

/-- The whole listing. -/
theorem displayAdminList_eq (hsize : client.partitions = config.partitions.length)
    (hint : sizeToInt client.partitions ≠ 0) (h : Sharded client config m partitions)
    (hdistinct : config.partitions.flatten.Nodup) (hup : ∀ s ∈ partitions, Up s)
    (hknows : Knows console config) (hreach : Reachable console partitions) :
    (displayAdminList (adminListAt partitions) console).Pairwise (Before client) ∧
      ∀ key, key ∈ displayAdminList (adminListAt partitions) console ↔ (m key).isSome := by
  have hpart := fun (p : ℕ) (ppp : MasterPartitionView) (hppp : console[p]? = some ppp) ↦
    displayNodes_part h hdistinct hup hknows hreach hppp
  constructor
  · rw [displayAdminList, List.pairwise_flatMap]
    constructor
    · intro ppp hmem
      obtain ⟨p, hp⟩ := List.mem_iff_getElem?.mp hmem
      obtain ⟨hincreasing, hkeys⟩ := hpart p ppp hp
      refine hincreasing.imp_of_mem fun {x y} hx hy hlt ↦ ?_
      exact ⟨p, p, ((hkeys x).mp hx).1, ((hkeys y).mp hy).1, .inr ⟨rfl, hlt⟩⟩
    · rw [List.pairwise_iff_getElem]
      intro p q hp hq hlt x hx y hy
      have hx' := ((hpart p _ (List.getElem?_eq_getElem hp)).2 x).mp hx
      have hy' := ((hpart q _ (List.getElem?_eq_getElem hq)).2 y).mp hy
      exact ⟨p, q, hx'.1, hy'.1, .inl hlt⟩
  · intro key
    rw [displayAdminList, List.mem_flatMap]
    constructor
    · rintro ⟨ppp, hmem, hkey⟩
      obtain ⟨p, hp⟩ := List.mem_iff_getElem?.mp hmem
      exact (((hpart p ppp hp).2 key).mp hkey).2
    · intro hsome
      obtain ⟨p, hrow, hp⟩ := exists_rowPartition hsize hint key.1
      have hlt : p < console.length := hknows.length_eq ▸ hp
      refine ⟨console[p], List.getElem_mem hlt, ?_⟩
      exact ((hpart p _ (List.getElem?_eq_getElem hlt)).2 key).mpr ⟨hrow, hsome⟩

end Cluster

/-! ## At any time -/

theorem start_unstopped {config : ClusterConfig} {turns : ℕ → Turn}
    (hturns : ∀ n, ∀ e ∈ (turns n).incidents, ∀ i, e.2 ≠ .shutdown i) :
    Unstopped (OneMap.start config turns) where
  up := by
    intro s hs i node hnode _
    obtain ⟨addrs, -, rfl⟩ := List.mem_map.mp hs
    simp only [Visibility.start, List.getElem?_mapIdx, Option.map_eq_some_iff] at hnode
    obtain ⟨view, hview, rfl⟩ := hnode
    exact startPartition_statusServ hview
  turns := hturns

/-- The listing is the map: whatever calls came before and whichever processes crashed, as long as no
node was shut down and a known node of each partition runs. -/
theorem listing_is_the_map (client : Client) (config : ClusterConfig)
    (hsize : client.partitions = config.partitions.length)
    (hint : sizeToInt client.partitions ≠ 0) (hdistinct : config.partitions.flatten.Nodup)
    (turns : ℕ → Turn) (hturns : ∀ n, ∀ e ∈ (turns n).incidents, ∀ i, e.2 ≠ .shutdown i)
    (requests : List Request) (console : List MasterPartitionView) (hknows : Knows console config)
    (hreach : Reachable console
      (serveAll client (OneMap.start config turns) requests).1.partitions) :
    ∃ m, Transducer.Allows Answered (fun _ ↦ none) requests
        (serveAll client (OneMap.start config turns) requests).2 m ∧
      (displayAdminList (adminListAt
        (serveAll client (OneMap.start config turns) requests).1.partitions) console).Pairwise
          (Before client) ∧
      ∀ key, key ∈ displayAdminList (adminListAt
        (serveAll client (OneMap.start config turns) requests).1.partitions) console ↔
          (m key).isSome := by
  have hstep : ∀ backend m request,
      Sharded client config m backend.partitions ∧ Unstopped backend →
      ∃ m', Answered m request ((client.request request).run execute backend).2 m' ∧
        Sharded client config m' ((client.request request).run execute backend).1.partitions ∧
        Unstopped ((client.request request).run execute backend).1 := by
    intro backend m request h
    have hup := Prog.run_keeps (I := Unstopped) (fun call _ hs ↦ hs.execute call)
      (client.request request) h.2
    obtain ⟨m', backend', result, hrun, hanswer, hnext⟩ :=
      request_answered hsize hint h.1 request
    rw [hrun] at hup ⊢
    exact ⟨m', hanswer, hnext, hup⟩
  obtain ⟨m, hallows, hsharded, hup⟩ := Transducer.run_allows hstep
    ⟨start_sharded client config turns, start_unstopped hturns⟩ requests
  exact ⟨m, hallows, displayAdminList_eq hsize hint hsharded hdistinct hup.up hknows hreach⟩

/-- The configuration file of the seven nodes. -/
def sevenNodesFile : Bytes := lit "m:50\nA,B\nC,D,E\nF,G\n"

/-- The console misses the last node of each partition. -/
def knownNodes : List MasterPartitionView :=
  sevenNodes.partitions.map fun addrs ↦ { nodes := addrs.dropLast.map fun addr ↦ { addr := addr } }

theorem adminConsoleMain_sevenNodes :
    adminConsoleMain 40 (some sevenNodesFile) =
      .ok { addr := lit "m:50", partitions := knownNodes } := by
  rfl

/-- The last of these calls finds node 0 of its partition crashed. -/
def putAndGetTwice : List Request :=
  [.put (lit "row") (lit "col") (lit "x"), .get (lit "row") (lit "col"), .get (lit "row") (lit "col")]

theorem listing_is_the_map_failover :
    ∃ console, adminConsoleMain 40 (some sevenNodesFile) = .ok console ∧
      ∃ m, Transducer.Allows Answered (fun _ ↦ none) putAndGetTwice
          (serveAll (Client.mk digestOfRow 3) (OneMap.start sevenNodes failover)
            putAndGetTwice).2 m ∧
        (displayAdminList (adminListAt (serveAll (Client.mk digestOfRow 3)
          (OneMap.start sevenNodes failover) putAndGetTwice).1.partitions)
            console.partitions).Pairwise (Before (Client.mk digestOfRow 3)) ∧
        ∀ key, key ∈ displayAdminList (adminListAt (serveAll (Client.mk digestOfRow 3)
          (OneMap.start sevenNodes failover) putAndGetTwice).1.partitions) console.partitions ↔
            (m key).isSome := by
  refine ⟨_, adminConsoleMain_sevenNodes, listing_is_the_map (Client.mk digestOfRow 3) sevenNodes rfl
    (by decide) (by decide) failover ?_ putAndGetTwice knownNodes (by unfold Knows; decide)
    (by unfold Reachable; decide +kernel)⟩
  intro n e he i
  unfold failover at he
  split at he
  · simp only [List.mem_cons, List.not_mem_nil, or_false] at he
    rcases he with rfl | rfl | rfl
    all_goals exact Incident.noConfusion
  · simp only [List.mem_cons, List.not_mem_nil, or_false] at he
    obtain rfl := he
    exact Incident.noConfusion
  · cases he

end PennCloud.Cluster.Listing
