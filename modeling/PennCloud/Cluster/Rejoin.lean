import PennCloud.Cluster.Restarts

/-!
# Nodes that come back agree

A node that is started again holds what the others hold, if it finds its copy and no write is
executed before it listens. Whether it finds its copy depends on the coordinator's flags: right
after a round it does if anybody serves.
-/

open PennCloud.Library.Runs
open PennCloud.Library.WriteLog (write write_self write_of_ne)
open PennCloud.KV.TabletCells PennCloud.KV.PrimaryView PennCloud.KV.Handlers
open PennCloud.KV.CheckpointFile PennCloud.KV.TabletSync
open PennCloud.Coordinator.Election PennCloud.Coordinator.Forwarding
open PennCloud.Coordinator.Views hiding Event start
open PennCloud.Replication PennCloud.Replication.Serving
open PennCloud.Frontend.KVClient (Store)
open PennCloud.Cluster.StorageClient PennCloud.Cluster.Restarts
open PennCloud.Cluster.OneMap hiding start

namespace PennCloud.Cluster.Rejoin

/-- The writes that were answered `OK`, one after the other. -/
def acknowledged (writes : List (WriteRequest × Reply)) : Store :=
  writes.foldr (fun w m ↦ if w.2.status.code = .ok then write m w.1.record else m) fun _ ↦ none

/-- The copy of a starting node succeeds. -/
def Copies (s : Hosts) (i : ℕ) : Prop :=
  ∀ node, s.replicas.nodes[i]? = some node →
    ∃ sync, syncOf s.replicas node.toNodeView = some sync ∧ sync.2.code = .ok

/-- Every start copies, no write falls between a copy and the listening, and a node that an admin
takes back into service has missed nothing. -/
def Careful (s : Hosts) : Event → Prop
  | .startup i => i ∉ s.replicas.dead → ∀ node, s.replicas.nodes[i]? = some node →
      cells node.tablet = acknowledged s.writes
  | .write _ _ => s.loaded = []
  | .load i _ _ => Copies s i
  | _ => True

/-! ## Agreement -/

/-- The nodes that serve, and the processes that do not listen yet, hold these cells. -/
structure Agreed (s : Hosts) : Prop where
  serving : Agrees s.replicas (acknowledged s.writes)
  loaded : ∀ i ∈ s.loaded, ∀ node, s.replicas.nodes[i]? = some node →
    cells node.tablet = acknowledged s.writes

theorem start_agreed (addrs : List Bytes) : Agreed (start addrs) where
  serving := by
    intro i node hnode _
    simp only [start, List.getElem?_map, Option.map_eq_some_iff] at hnode
    obtain ⟨view, -, rfl⟩ := hnode
    exact funext fun key ↦ cells_empty key
  loaded := by
    intro i hi
    cases hi

theorem Agreed.of_sameTablets {s : Hosts} (h : Agreed s) {t : Replicas} {loaded : List ℕ}
    (hserving : Agrees t (acknowledged s.writes)) (htablets : SameTablets s.replicas t)
    (hloaded : ∀ i ∈ loaded, i ∈ s.loaded) :
    Agreed { s with replicas := t, loaded := loaded } where
  serving := hserving
  loaded := by
    intro i hi node hnode
    obtain ⟨old, hold, htablet⟩ := htablets i node hnode
    rw [htablet]
    exact h.loaded i (hloaded i hi) old hold

/-- The step lemma. -/
theorem Agreed.step {pId : ℕ} {s t : Hosts} {e : Event} (h : Agreed s) (hcareful : Careful s e)
    (hstep : s.step pId e = some t) : Agreed t := by
  cases stepped_of_step hstep with
  | idle => exact h
  | round garbage =>
    exact h.of_sameTablets (h.serving.happen pId _) (sameTablets_withControl _ _ _) fun _ hi ↦ hi
  | shutdown i =>
    exact h.of_sameTablets (h.serving.happen pId _) (sameTablets_withControl _ _ _) fun _ hi ↦ hi
  | crash i =>
    refine h.of_sameTablets (h.serving.kill i) (sameTablets_modify _ _ _) fun j hj ↦ ?_
    exact (List.mem_filter.mp hj).1
  | startup i hlive =>
    refine h.of_sameTablets ?_ (sameTablets_withControl _ _ _) fun _ hi ↦ hi
    intro j node hnode hserving
    obtain ⟨old, hold, htablet, hview⟩ :=
      Visibility.govern_node (s := { replicas := s.replicas }) hnode
    rw [htablet]
    rw [Partition.step, Partition.modify_getElem?, Replicas.control_getElem?, hold] at hview
    split at hview
    · next hij => exact hcareful hlive old (hij ▸ hold)
    · have hsame : old.toNodeView = node.toNodeView := Option.some.inj hview
      exact h.serving j old hold ((congrArg NodeView.statusServ hsame).trans hserving)
  | write i req r hserve =>
    have hnone : s.loaded = [] := hcareful
    refine ⟨?_, fun j hj ↦ ?_⟩
    · have hsettles := serve_settles h.serving hserve
      simp only [acknowledged, List.foldr_cons]
      cases hsettles with
      | refused _ reply hcode hcells =>
        rw [if_neg hcode]
        exact hcells
      | executed _ reply hcode haccepts hsize hcells =>
        rw [if_pos hcode]
        exact hcells
    · rw [hnone] at hj
      cases hj
  | checkpoint => exact ⟨h.serving, h.loaded⟩
  | load i log logOpens node tablet hnode hdead hfile hrestored =>
    have htablet : cells tablet = acknowledged s.writes := by
      cases hrestored with
      | copied hsync j peer hlive hpeer hserving hcells =>
        exact hcells.trans (h.serving j peer hpeer hserving)
      | empty hfailed hcells =>
        obtain ⟨sync, hsync, hok⟩ := hcareful node hnode
        exact absurd hok (hfailed sync hsync)
    constructor
    · intro j other hother hserving
      rw [load_getElem?] at hother
      split at hother
      · obtain ⟨old, -, rfl⟩ := Option.map_eq_some_iff.mp hother
        cases hserving
      · exact h.serving j other hother hserving
    · intro j hj other hother
      rw [load_getElem?] at hother
      split at hother
      · obtain ⟨old, -, rfl⟩ := Option.map_eq_some_iff.mp hother
        exact htablet
      · next hij =>
        have hj' : j ∈ s.loaded := (List.mem_cons.mp hj).resolve_left fun heq ↦ hij heq.symm
        exact h.loaded j hj' other hother
  | listen i hloaded =>
    refine h.of_sameTablets ?_ (sameTablets_modify _ _ _) fun j hj ↦ (List.mem_filter.mp hj).1
    intro j node hnode hserving
    rw [listen_getElem?] at hnode
    split at hnode
    · next hij =>
      obtain ⟨old, hold, rfl⟩ := Option.map_eq_some_iff.mp hnode
      exact h.loaded i hloaded old (hij ▸ hold)
    · exact h.serving j node hnode hserving

/-! ## A start after a round -/

section Rounds

variable {addrs : List Bytes} {s : Replicas}

theorem syncAt_of_serving (hdistinct : addrs.Nodup) (h : Configured addrs s.control) (hdown : Down s)
    {l : ℕ} {peer : KVNode} (hpeer : s.nodes[l]? = some peer) (hserving : peer.statusServ = true) :
    (syncAt s peer.addr).2.code = .ok := by
  have hnode : ∀ {k : ℕ} {node : KVNode}, s.nodes[k]? = some node → addrs[k]? = some node.addr := by
    intro k node hget
    refine (h.node k node.toNodeView ?_).1
    rw [Replicas.control_getElem?, hget, Option.map_some]
  have hfind : s.nodes.findIdx? (·.addr = peer.addr) = some l := by
    obtain ⟨hlt, hget⟩ := List.getElem?_eq_some_iff.mp hpeer
    refine List.findIdx?_eq_some_iff_getElem.mpr ⟨hlt, by rw [hget]; exact decide_eq_true rfl, ?_⟩
    intro k hkl
    have hk : s.nodes[k]? = some s.nodes[k] := List.getElem?_eq_getElem (hkl.trans hlt)
    refine fun heq ↦ hkl.ne ?_
    have haddr := hnode hk
    rw [of_decide_eq_true heq] at haddr
    exact eq_of_same_addr hdistinct haddr (hnode hpeer)
  have hlive : l ∉ s.dead := by
    intro hdead
    rw [hdown l hdead peer hpeer] at hserving
    cases hserving
  simp only [syncAt, hfind, if_neg hlive, hpeer, tabletSync, hserving, not_true_eq_false, if_false]

theorem retrieveIdxForPeer_of_mem {view : NodeView} {addr : Bytes} (h : addr ∈ view.peerAddrs) :
    retrieveIdxForPeer view addr ≠ -1 ∧
      view.peerAddrs[(retrieveIdxForPeer view addr).toNat]? = some addr := by
  obtain ⟨idx, hidx⟩ : ∃ idx, view.peerAddrs.idxOf? addr = some idx := by
    rw [← Option.isSome_iff_exists, List.isSome_idxOf?]
    exact h
  have hretrieve : retrieveIdxForPeer view addr = idx := by
    rw [retrieveIdxForPeer, hidx]
  obtain ⟨hlt, haddr, -⟩ := List.idxOf?_eq_some_iff.mp hidx
  rw [hretrieve]
  refine ⟨by omega, ?_⟩
  rw [Int.toNat_natCast, List.getElem?_eq_getElem hlt, haddr]

/-- The flags of the coordinator are those of the nodes. -/
def Current (p : Partition) : Prop :=
  ∀ (k : ℕ) flags, p.master.nodes[k]? = some flags → flags.alive = serving p.nodes k

theorem round_serving (p : Partition) (pId : ℕ) (garbage : Bool) (k : ℕ) :
    serving (p.round pId garbage).nodes k = serving p.nodes k := by
  have hsame := p.round_statusServ pId garbage k
  cases hold : p.nodes[k]? with
  | none =>
    rw [hold, Option.map_none, Option.map_eq_none_iff] at hsame
    simp only [serving, hold, hsame]
  | some view =>
    rw [hold, Option.map_some, Option.map_eq_some_iff] at hsame
    obtain ⟨view', hview', heq⟩ := hsame
    rw [Bool.eq_iff_iff, serving_eq_true_iff hold, serving_eq_true_iff hview', heq]

theorem round_current (p : Partition) (pId : ℕ) (garbage : Bool) : Current (p.round pId garbage) := by
  intro k flags hflags
  have hnodes : (p.round pId garbage).master.nodes =
      (checkNodes p.master (serving p.nodes)).nodes := renewPartition_nodes _ _ _
  rw [hnodes, checkNodes_getElem?, Option.map_eq_some_iff] at hflags
  obtain ⟨old, -, rfl⟩ := hflags
  exact (round_serving p pId garbage k).symm

theorem round_primary {p : Partition} (h : Configured addrs p) (pId : ℕ) (garbage : Bool) {k : ℕ}
    (hserving : serving (p.round pId garbage).nodes k = true) :
    (p.round pId garbage).master.primaryIdx ≠ -1 := by
  rw [round_serving] at hserving
  rcases p.round_cases h pId garbage with ⟨hstays, hidx, -⟩ | ⟨hnobody, -, -⟩ |
    ⟨-, ii, -, -, -, hidx, -⟩
  · rw [hidx]
    have hnonneg := hstays.1
    omega
  · rw [hnobody k] at hserving
    cases hserving
  · omega

/-- Where the coordinator is up to date, a starting node gets its copy if somebody serves. -/
theorem syncOf_ok_iff (hdistinct : addrs.Nodup) (h : Configured addrs s.control) (hdown : Down s)
    (hcurrent : Current s.control)
    (hprimary : ∀ k, serving s.control.nodes k = true → s.master.primaryIdx ≠ -1) {i : ℕ}
    {node : KVNode} (hnode : s.nodes[i]? = some node) (hdead : i ∈ s.dead) :
    (∃ sync, syncOf s node.toNodeView = some sync ∧ sync.2.code = .ok) ↔
      ∃ peer ∈ s.nodes, peer.statusServ = true := by
  have hview : ∀ {k : ℕ} {node : KVNode}, s.nodes[k]? = some node →
      s.control.nodes[k]? = some node.toNodeView := by
    intro k node hget
    rw [Replicas.control_getElem?, hget, Option.map_some]
  have hself := h.node i _ (hview hnode)
  constructor
  · rintro ⟨sync, hsync, hok⟩
    obtain ⟨addr, rfl⟩ := syncOf_eq_some hsync
    obtain ⟨j, peer, -, hpeer, hserving, -⟩ := syncAt_ok hok
    exact ⟨peer, List.mem_of_getElem? hpeer, hserving⟩
  · rintro ⟨peer, hmem, hserving⟩
    obtain ⟨k, hk⟩ := List.mem_iff_getElem?.mp hmem
    have hup := (serving_eq_true_iff (hview hk)).mpr hserving
    -- The serving node is listed as alive, so somebody other than the starting node is.
    have hlisted : ∃ flags ∈ s.master.nodes, flags.alive = true ∧ flags.addr ≠ node.addr := by
      have hlt : k < s.master.nodes.length := by
        have hlt := (List.getElem?_eq_some_iff.mp (h.node k _ (hview hk)).1).1
        rw [← h.master.length_eq] at hlt
        exact hlt
      refine ⟨s.master.nodes[k], List.getElem_mem hlt, ?_, fun heq ↦ ?_⟩
      · exact (hcurrent k _ (List.getElem?_eq_getElem hlt)).trans hup
      · have haddr : addrs[k]? = some node.addr := by
          rw [← heq, ← h.master.addrs_eq, List.getElem?_map]
          exact congrArg _ (List.getElem?_eq_getElem hlt)
        obtain rfl : k = i := eq_of_same_addr hdistinct haddr hself.1
        rw [hdown k hdead peer hk] at hserving
        cases hserving
    obtain ⟨thisP, hfound⟩ : ∃ thisP, s.master.nodes.find?
        (fun thisP ↦ thisP.alive ∧ thisP.addr ≠ node.addr) = some thisP := by
      rw [← Option.isSome_iff_exists, List.find?_isSome]
      obtain ⟨flags, hflags, halive, hne⟩ := hlisted
      exact ⟨flags, hflags, decide_eq_true ⟨halive, hne⟩⟩
    have hthis := List.find?_some hfound
    obtain ⟨halive, hne⟩ := of_decide_eq_true hthis
    obtain ⟨l, hl⟩ := List.mem_iff_getElem?.mp (List.mem_of_find?_eq_some hfound)
    have haddr : addrs[l]? = some thisP.addr := by
      rw [← h.master.addrs_eq, List.getElem?_map, show s.control.master = s.master from rfl, hl,
        Option.map_some]
    have hli : l ≠ i := by
      rintro rfl
      exact hne (Option.some.inj (haddr.symm.trans hself.1))
    have hpeerAddr : thisP.addr ∈ node.peerAddrs := by
      have hpeers : node.peerAddrs = addrs.eraseIdx i := hself.2
      rw [hpeers, List.mem_eraseIdx_iff_getElem?]
      exact ⟨l, hli, haddr⟩
    obtain ⟨hidx, hget⟩ := retrieveIdxForPeer_of_mem hpeerAddr
    have hsync : syncOf s node.toNodeView = some (syncAt s thisP.addr) := by
      have hresponse : (primaryResponse s.master).nodes = s.master.nodes := by
        rw [primaryResponse, if_pos (hprimary k hup)]
      have hpeer : syncPeer node.toNodeView (primaryResponse s.master) =
          retrieveIdxForPeer node.toNodeView thisP.addr := by
        rw [syncPeer, hresponse, hfound]
      rw [syncOf, hpeer, if_neg hidx, hget, Option.map_some]
    refine ⟨_, hsync, ?_⟩
    have hservingL : serving s.control.nodes l = true := (hcurrent l thisP hl).symm.trans halive
    have hltL : l < s.nodes.length := by
      have hlt := (List.getElem?_eq_some_iff.mp haddr).1
      rw [← h.length_eq, Replicas.control, List.length_map] at hlt
      exact hlt
    have hpeerL : s.nodes[l]? = some s.nodes[l] := List.getElem?_eq_getElem hltL
    have haddrL : s.nodes[l].addr = thisP.addr := by
      have hget' := (h.node l _ (hview hpeerL)).1
      exact Option.some.inj (hget'.symm.trans haddr)
    rw [← haddrL]
    exact syncAt_of_serving hdistinct h hdown hpeerL
      ((serving_eq_true_iff (hview hpeerL)).mp hservingL)

end Rounds

/-! ## Whole runs -/

/-- However often nodes crash and are started again, whoever serves holds exactly the writes that
were answered `OK`, as long as each start finds its copy, no write falls between a copy and the
listening, and no admin brings back what has missed a write. In every run all requests are answered,
a start holds what some node that serves holds, or nothing where it finds no copy, and
after a round there is a copy for every start if anybody serves. -/
theorem restarted_nodes_agree (config : ClusterConfig) (pId : Fin config.partitions.length)
    {s : Hosts} (h : Reaches (machine pId) anyStep (start (config.partitions.get pId)) s) :
    (Reaches (machine pId) Careful (start (config.partitions.get pId)) s →
      ∀ node ∈ s.replicas.nodes, node.statusServ = true →
        cells node.tablet = acknowledged s.writes) ∧
    (∀ e, (s.step pId e).isSome) ∧
    (∀ i log logOpens t, s.step pId (.load i log logOpens) = some t → i ∉ s.loaded → i ∈ t.loaded →
      ∀ node, t.replicas.nodes[i]? = some node →
        (Copies s i → ∃ peer ∈ s.replicas.nodes, peer.statusServ = true ∧
          cells node.tablet = cells peer.tablet) ∧
        (¬Copies s i → cells node.tablet = fun _ ↦ none)) ∧
    ∀ garbage t, s.step pId (.round garbage) = some t → ∀ i ∈ t.replicas.dead,
      i < t.replicas.nodes.length →
        (Copies t i ↔ ∃ node ∈ t.replicas.nodes, node.statusServ = true) := by
  have hdistinct := config.distinct _ (List.get_mem config.partitions pId)
  have hnamed := config.named _ (List.get_mem config.partitions pId)
  obtain ⟨hcontrol, hdown⟩ := reaches_control hdistinct hnamed h
  refine ⟨fun hcareful node hnode hserving ↦ ?_, step_isSome hdistinct hnamed hcontrol, ?_, ?_⟩
  · have hagreed : Agreed s :=
      hcareful.invariant (start_agreed _) fun _ _ _ ht hok hstep ↦ ht.step hok hstep
    obtain ⟨i, hi⟩ := List.mem_iff_getElem?.mp hnode
    exact hagreed.serving i node hi hserving
  · intro i log logOpens t hstep hnew hloaded node hnode
    cases stepped_of_step hstep with
    | idle => exact absurd hloaded hnew
    | load _ _ _ old tablet hold hdead hfile hrestored =>
      rw [load_getElem?, if_pos rfl, hold] at hnode
      obtain rfl := Option.some.inj hnode
      constructor
      · intro hcopies
        cases hrestored with
        | copied hsync j peer hlive hpeer hserving hcells =>
          exact ⟨peer, List.mem_of_getElem? hpeer, hserving, hcells⟩
        | empty hfailed hcells =>
          obtain ⟨sync, hsync, hok⟩ := hcopies old hold
          exact absurd hok (hfailed sync hsync)
      · intro hfails
        cases hrestored with
        | copied hsync =>
          refine absurd (fun node hnode ↦ ?_) hfails
          obtain rfl := Option.some.inj (hold.symm.trans hnode)
          exact hsync
        | empty hfailed hcells => exact hcells
  · intro garbage t hstep i hdead hlt
    have hnext := step_control hdistinct hnamed hcontrol hstep
    have hdown' := hdown.step hstep
    cases hstep
    have hround : (Incident.happen pId s.replicas (.round garbage)).control =
        s.replicas.control.round pId garbage := by
      refine Visibility.withControl_control ?_
      have hlength := (step_forwardInv hdistinct hnamed hcontrol pId (.round garbage)).length_eq
      rw [hlength, ← hcontrol.length_eq, Replicas.control, List.length_map]
    have hnode := List.getElem?_eq_getElem hlt
    rw [← syncOf_ok_iff hdistinct hnext.toConfigured hdown' ?_ ?_ hnode hdead]
    · constructor
      · exact fun hcopies ↦ hcopies _ hnode
      · intro hsync node hnode'
        obtain rfl := Option.some.inj (hnode.symm.trans hnode')
        exact hsync
    · rw [hround]
      exact round_current _ _ _
    · intro k hk
      dsimp only at hk
      rw [hround] at hk
      have hprimary := round_primary hcontrol.toConfigured pId garbage hk
      rw [← hround] at hprimary
      exact hprimary

/-- Steps for which `Careful` can be evaluated; no admin brings a node back. -/
def allows (s : Hosts) : Event → Bool
  | .startup _ => false
  | .write _ _ => s.loaded = []
  | .load i _ _ =>
    (s.replicas.nodes[i]?).all fun node ↦
      (syncOf s.replicas node.toNodeView).any fun sync ↦ sync.2.code = .ok
  | _ => true

theorem careful_of_allows (s : Hosts) (e : Event) (h : allows s e = true) : Careful s e := by
  cases e with
  | startup i => cases h
  | write i req =>
    have hnone : s.loaded = [] := of_decide_eq_true h
    exact hnone
  | load i log logOpens =>
    intro node hnode
    simp only [allows, hnode, Option.all_some, Option.any_eq_true, decide_eq_true_eq] at h
    exact h
  | round | shutdown | crash | checkpoint | listen => trivial

/-- The primary crashes after a write, and comes back. -/
def comeback : List Event :=
  [.round false, .write 0 putValue, .crash 0, .round false, .load 0 none true, .listen 0]

theorem restarted_nodes_agree_comeback :
    ∃ s : Hosts, s.replicas.dead = [] ∧ acknowledged s.writes (lit "row", lit "col") =
        some (lit "value") ∧
      ∀ node ∈ s.replicas.nodes, node.statusServ = true →
        cells node.tablet = acknowledged s.writes := by
  have hrun : (run ((machine 0).restrict allows) (start [lit "A", lit "B"]) comeback).map
      (fun s ↦ decide (s.replicas.dead = [] ∧
        acknowledged s.writes (lit "row", lit "col") = some (lit "value"))) = some true := by
    decide +kernel
  obtain ⟨s, hreach, hcheck⟩ := reaches_of_run_restrict careful_of_allows hrun
  obtain ⟨hdead, hvalue⟩ := of_decide_eq_true hcheck
  have hany : Reaches (machine 0) anyStep (start [lit "A", lit "B"]) s := hreach.mono fun _ _ _ ↦ trivial
  exact ⟨s, hdead, hvalue, (restarted_nodes_agree twoNodes ⟨0, by decide⟩ hany).1 hreach⟩

end PennCloud.Cluster.Rejoin
