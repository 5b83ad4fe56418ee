import PennCloud.Cluster.OneMap
import PennCloud.KV.TabletSync

/-!
# Storage nodes that are started again

A process that has ended can be started again. It reads its checkpoint and its log, asks the
coordinator for the primary, and copies the tablet of the first other node that the coordinator
lists as alive; only then does it listen. What it misses between the copy and that moment, and what
it cannot copy, it never gets. Of the disk nothing comes back: a checkpoint that is not empty ends
the process, and the log is read without effect.
-/

open PennCloud.Library.Runs
open PennCloud.KV.TabletCells PennCloud.KV.DiskRecord PennCloud.KV.PrimaryView PennCloud.KV.Handlers
open PennCloud.KV.CheckpointFile PennCloud.KV.TabletSync
open PennCloud.Coordinator.Election PennCloud.Coordinator.Views PennCloud.Coordinator.Forwarding
open PennCloud.Replication PennCloud.Replication.Serving
open PennCloud.Cluster.StorageClient PennCloud.Cluster.OneMap

namespace PennCloud.Cluster.Restarts

/-! ## A start -/

/-- The stub of the peer to copy from, or `-1`. -/
def syncPeer (view : NodeView) (pmResponse : GetPrimaryResponse) : ℤ :=
  match pmResponse.nodes.find? fun thisP ↦ thisP.alive ∧ thisP.addr ≠ view.addr with
  | some thisP => retrieveIdxForPeer view thisP.addr
  | none => -1

/-- What `TabletSync` answers at this address. -/
def syncAt (s : Replicas) (addr : Bytes) : List KeyValue × Status :=
  match s.nodes.findIdx? (·.addr = addr) with
  | none => ([], unreachable.status)
  | some j =>
    if j ∈ s.dead then ([], unreachable.status)
    else
      match s.nodes[j]? with
      | some peer => tabletSync peer
      | none => ([], unreachable.status)

/-- The copy that a starting node asks for, if it knows whom to ask. -/
def syncOf (s : Replicas) (view : NodeView) : Option (List KeyValue × Status) :=
  let pId := syncPeer view (primaryResponse s.master)
  if pId = -1 then none else view.peerAddrs[pId.toNat]?.map (syncAt s)

/-- The view of a process that has asked for the primary and does not listen yet, so that no call
reaches it. -/
def loadView (addr : Bytes) (view : NodeView) : NodeView :=
  { renewIdxForPm { addr := view.addr, peerAddrs := view.peerAddrs } addr with statusServ := false }

/-- The slot of a node whose new process has got this far; its log goes on. -/
def load (s : Replicas) (i : ℕ) (tablet : Tablet) : Replicas :=
  { s with
    nodes := s.nodes.modify i fun node ↦
      { toNodeView := loadView (primaryResponse s.master).addr node.toNodeView
        tablet := tablet
        log := node.log } }

/-- The process listens. -/
def listen (s : Replicas) (i : ℕ) : Replicas :=
  { s.modify i adminStartup with dead := s.dead.filter (· ≠ i) }

/-! ## Runs -/

/-- The partition, the checkpoint files, the processes that do not listen yet, and the writes that
clients have started, the latest first. -/
structure Hosts where
  replicas : Replicas
  files : ℕ → Option Bytes := fun _ ↦ none
  loaded : List ℕ := []
  writes : List (WriteRequest × Reply) := []

/-- What happens next. A load finds the log in any state, since it does not depend on it. -/
inductive Event
  | round (garbage : Bool)
  | shutdown (node : ℕ)
  | startup (node : ℕ)
  | crash (node : ℕ)
  | write (node : ℕ) (req : WriteRequest)
  | checkpoint (node : ℕ) (calls : SaveCalls)
  | load (node : ℕ) (log : Option Bytes) (logOpens : Bool)
  | listen (node : ℕ)

def Hosts.step (pId : ℕ) (s : Hosts) : Event → Option Hosts
  | .round garbage => some { s with replicas := Incident.happen pId s.replicas (.round garbage) }
  | .shutdown i => some { s with replicas := Incident.happen pId s.replicas (.shutdown i) }
  | .startup i =>
    if i ∈ s.replicas.dead then some s
    else
      some { s with replicas := s.replicas.withControl (s.replicas.control.step pId (.startup i)) }
  | .crash i =>
    some { s with replicas := s.replicas.kill i, loaded := s.loaded.filter (· ≠ i) }
  | .write i req =>
    (s.replicas.serve (s.replicas.nodes.length + 1) i req).map fun r ↦
      { s with replicas := r.1, writes := (req, r.2) :: s.writes }
  | .checkpoint i calls =>
    match s.replicas.nodes[i]? with
    | some node =>
      if calls.opened ∧ (i ∈ s.replicas.dead → i ∈ s.loaded) then
        some { s with
          files := Function.update s.files i (some (tblSaving node.tablet [] [] calls).file) }
      else some s
    | none => some s
  | .load i log logOpens =>
    match s.replicas.nodes[i]? with
    | some node =>
      if i ∈ s.replicas.dead ∧ i ∉ s.loaded then
        match startInitialize (s.files i) log logOpens (syncOf s.replicas node.toNodeView) with
        | .ok tablet =>
          some { s with replicas := load s.replicas i tablet, loaded := i :: s.loaded }
        | .error _ => some s
      else some s
    | none => some s
  | .listen i =>
    if i ∈ s.loaded then
      some { s with replicas := listen s.replicas i, loaded := s.loaded.filter (· ≠ i) }
    else some s

def machine (pId : ℕ) : Machine Hosts Event where
  step := Hosts.step pId

/-- Nothing is stored, and all nodes run. -/
def start (addrs : List Bytes) : Hosts where
  replicas :=
    { master := initialPartition addrs
      nodes := (startNodes addrs).map fun view ↦ { toNodeView := view } }

/-! ## What a start leaves -/

theorem syncAt_ok {s : Replicas} {addr : Bytes} (h : (syncAt s addr).2.code = .ok) :
    ∃ (j : ℕ) (peer : KVNode), j ∉ s.dead ∧ s.nodes[j]? = some peer ∧ peer.statusServ = true ∧
      syncAt s addr = tabletSync peer := by
  unfold syncAt at h ⊢
  split at h
  · cases h
  · next j hj =>
    split at h
    · cases h
    · next hlive =>
      split at h
      · next peer hpeer =>
        refine ⟨j, peer, hlive, hpeer, ?_, ?_⟩
        · by_contra hdown
          rw [tabletSync, if_pos hdown] at h
          cases h
        · rw [if_neg hlive]
      · cases h

/-- A stream that does not end with `OK` has brought nothing. -/
theorem syncAt_failed {s : Replicas} {addr : Bytes} (h : (syncAt s addr).2.code ≠ .ok) :
    (syncAt s addr).1 = [] := by
  unfold syncAt at h ⊢
  split
  · rfl
  · next j hj =>
    rw [hj] at h
    dsimp only at h
    split
    · rfl
    · next hlive =>
      rw [if_neg hlive] at h
      split
      · next peer hpeer =>
        rw [hpeer] at h
        dsimp only [tabletSync] at h ⊢
        split
        · rfl
        · next hup =>
          rw [if_neg hup] at h
          exact absurd rfl h
      · rfl

theorem syncOf_eq_some {s : Replicas} {view : NodeView} {sync : List KeyValue × Status}
    (h : syncOf s view = some sync) : ∃ addr, sync = syncAt s addr := by
  unfold syncOf at h
  dsimp only at h
  split at h
  · cases h
  · obtain ⟨addr, -, rfl⟩ := Option.map_eq_some_iff.mp h
    exact ⟨addr, rfl⟩

theorem startInitialize_eq {file log : Option Bytes} {logOpens : Bool}
    {sync : Option (List KeyValue × Status)} {tablet : Tablet}
    (h : startInitialize file log logOpens sync = .ok tablet) :
    (file = none ∨ file = some []) ∧
      tablet = sync.elim ∅ fun (read, finish) ↦ (peerToSynTab ∅ read finish).1 := by
  unfold startInitialize at h
  cases hload : tblLding file ∅ with
  | error e =>
    rw [hload] at h
    cases h
  | ok restored =>
    obtain ⟨count, hreplay⟩ := logOperation_tablet log restored
    have hempty := tblLding_eq_empty hload
    rw [hload] at h
    simp only [bind, Except.bind, hreplay] at h
    refine ⟨?_, ?_⟩
    · cases file with
      | none => exact .inl rfl
      | some content =>
        cases content with
        | nil => exact .inr rfl
        | cons b bs =>
          rw [tblLding, loadLoop_cons] at hload
          cases hload
    · split at h
      · cases sync with
        | none =>
          cases h
          exact hempty
        | some sync =>
          cases h
          rw [hempty]
          rfl
      · cases h

/-- A new process holds the cells of a serving node, or none. -/
inductive Restored (s : Replicas) (view : NodeView) (tablet : Tablet) : Prop
  | copied (hsync : ∃ sync, syncOf s view = some sync ∧ sync.2.code = .ok) (j : ℕ) (peer : KVNode)
      (hlive : j ∉ s.dead) (hpeer : s.nodes[j]? = some peer) (hserving : peer.statusServ = true)
      (hcells : cells tablet = cells peer.tablet)
  | empty (hfailed : ∀ sync, syncOf s view = some sync → sync.2.code ≠ .ok)
      (hcells : cells tablet = fun _ ↦ none)

theorem restored_of_startInitialize {s : Replicas} {view : NodeView} {file log : Option Bytes}
    {logOpens : Bool} {tablet : Tablet}
    (h : startInitialize file log logOpens (syncOf s view) = .ok tablet) :
    Restored s view tablet := by
  obtain ⟨-, rfl⟩ := startInitialize_eq h
  cases hsync : syncOf s view with
  | none =>
    refine .empty (fun sync hsome ↦ ?_) (funext fun key ↦ cells_empty key)
    rw [hsync] at hsome
    cases hsome
  | some sync =>
    obtain ⟨addr, rfl⟩ := syncOf_eq_some hsync
    by_cases hok : (syncAt s addr).2.code = .ok
    · obtain ⟨j, peer, hlive, hpeer, hserving, heq⟩ := syncAt_ok hok
      refine .copied ⟨_, hsync, hok⟩ j peer hlive hpeer hserving ?_
      rw [heq] at hok ⊢
      exact (copiesPeer_iff ∅ peer hok).mpr fun key _ ↦ cells_empty key
    · refine .empty (fun sync hsome ↦ ?_) ?_
      · rw [hsync] at hsome
        cases hsome
        exact hok
      · simp only [Option.elim_some, peerToSynTab, syncAt_failed hok, List.foldl_nil]
        exact funext fun key ↦ cells_empty key

/-- What a step does. -/
inductive Stepped (pId : ℕ) (s : Hosts) : Event → Hosts → Prop
  | idle (e : Event) : Stepped pId s e s
  | round (garbage : Bool) : Stepped pId s (.round garbage)
      { s with replicas := Incident.happen pId s.replicas (.round garbage) }
  | shutdown (i : ℕ) : Stepped pId s (.shutdown i)
      { s with replicas := Incident.happen pId s.replicas (.shutdown i) }
  | startup (i : ℕ) (hlive : i ∉ s.replicas.dead) : Stepped pId s (.startup i)
      { s with replicas := s.replicas.withControl (s.replicas.control.step pId (.startup i)) }
  | crash (i : ℕ) : Stepped pId s (.crash i)
      { s with replicas := s.replicas.kill i, loaded := s.loaded.filter (· ≠ i) }
  | write (i : ℕ) (req : WriteRequest) (r : Replicas × Reply)
      (hserve : s.replicas.serve (s.replicas.nodes.length + 1) i req = some r) :
      Stepped pId s (.write i req)
        { s with replicas := r.1, writes := (req, r.2) :: s.writes }
  | checkpoint (i : ℕ) (calls : SaveCalls) (content : Option Bytes)
      (hruns : i ∈ s.replicas.dead → i ∈ s.loaded) : Stepped pId s (.checkpoint i calls)
        { s with files := Function.update s.files i content }
  | load (i : ℕ) (log : Option Bytes) (logOpens : Bool) (node : KVNode) (tablet : Tablet)
      (hnode : s.replicas.nodes[i]? = some node) (hdead : i ∈ s.replicas.dead)
      (hfile : s.files i = none ∨ s.files i = some [])
      (hrestored : Restored s.replicas node.toNodeView tablet) :
      Stepped pId s (.load i log logOpens)
        { s with replicas := load s.replicas i tablet, loaded := i :: s.loaded }
  | listen (i : ℕ) (hloaded : i ∈ s.loaded) : Stepped pId s (.listen i)
      { s with replicas := listen s.replicas i, loaded := s.loaded.filter (· ≠ i) }

theorem stepped_of_step {pId : ℕ} {s t : Hosts} {e : Event} (h : s.step pId e = some t) :
    Stepped pId s e t := by
  cases e with
  | round garbage =>
    cases h
    exact .round garbage
  | shutdown i =>
    cases h
    exact .shutdown i
  | startup i =>
    simp only [Hosts.step] at h
    split at h
    · cases h
      exact .idle _
    · next hlive =>
      cases h
      exact .startup i hlive
  | crash i =>
    cases h
    exact .crash i
  | write i req =>
    obtain ⟨r, hserve, rfl⟩ := Option.map_eq_some_iff.mp h
    exact .write i req r hserve
  | checkpoint i calls =>
    simp only [Hosts.step] at h
    split at h
    · split at h
      · next hruns =>
        cases h
        exact .checkpoint i calls _ hruns.2
      · cases h
        exact .idle _
    · cases h
      exact .idle _
  | load i log logOpens =>
    simp only [Hosts.step] at h
    split at h
    · next node hnode =>
      split at h
      · next hdead =>
        split at h
        · next tablet hstart =>
          cases h
          exact .load i log logOpens node tablet hnode hdead.1 (startInitialize_eq hstart).1
            (restored_of_startInitialize hstart)
        · cases h
          exact .idle _
      · cases h
        exact .idle _
    · cases h
      exact .idle _
  | listen i =>
    simp only [Hosts.step] at h
    split at h
    · next hloaded =>
      cases h
      exact .listen i hloaded
    · cases h
      exact .idle _

/-! ## Forwarding -/

section Control

variable {addrs : List Bytes} (hdistinct : addrs.Nodup) (hnamed : [] ∉ addrs)

theorem load_control (s : Replicas) (i : ℕ) (tablet : Tablet) :
    (load s i tablet).control =
      s.control.modify i (loadView (primaryResponse s.master).addr) := by
  have hnodes : (load s i tablet).control.nodes =
      (s.control.modify i (loadView (primaryResponse s.master).addr)).nodes := by
    ext1 j
    rw [Partition.modify_getElem?, Replicas.control_getElem?, Replicas.control_getElem?]
    simp only [load, List.getElem?_modify]
    split
    · rw [Option.map_eq_map, Option.map_map, Option.map_map]
      rfl
    · simp
  calc
    (load s i tablet).control = ⟨s.master, (load s i tablet).control.nodes⟩ := rfl
    _ = s.control.modify i (loadView (primaryResponse s.master).addr) := by rw [hnodes]; rfl

theorem loadView_isNode {i : ℕ} {view : NodeView} (h : IsNode addrs i view) (addr : Bytes) :
    IsNode addrs i (loadView addr view) := by
  have hfresh : IsNode addrs i { addr := view.addr, peerAddrs := view.peerAddrs } := h
  exact renewIdxForPm_isNode hfresh addr

include hdistinct hnamed in
/-- A starting node learns of no primary, or that it is the primary, or of another one. -/
theorem loadView_valid {p : Partition} (hp : Configured addrs p) {i : ℕ} {view : NodeView}
    (hview : p.nodes[i]? = some view) :
    (p.master.primaryIdx = -1 ∧
      (loadView (primaryResponse p.master).addr view).primaryIdx = ukStatus) ∨
    (loadView (primaryResponse p.master).addr view).primaryIdx = mStatus ∨
    ∃ (j : ℕ) (addr : Bytes), j ≠ i ∧ p.master.primaryIdx = j ∧ addrs[j]? = some addr ∧
      PointsTo (loadView (primaryResponse p.master).addr view) addr := by
  have hfresh : IsNode addrs i { addr := view.addr, peerAddrs := view.peerAddrs } :=
    hp.node i view hview
  rcases primaryResponse_addr hp with ⟨hidx, hnone⟩ | ⟨j, hj, haddr⟩
  · left
    rw [hnone]
    refine ⟨hidx, ?_⟩
    refine renewIdxForPm_unknown (fun heq ↦ hnamed ?_) fun hmem ↦ hnamed ?_
    · rw [heq]
      exact List.mem_of_getElem? hfresh.1
    · rw [hfresh.2] at hmem
      exact List.mem_of_mem_eraseIdx hmem
  · right
    by_cases hji : j = i
    · left
      subst hji
      exact (renewIdxForPm_eq_mStatus_iff _ _).mpr (Option.some.inj (haddr.symm.trans hfresh.1))
    · right
      exact ⟨j, _, hji, hj, haddr,
        renewIdxForPm_pointsTo hdistinct hfresh haddr fun heq ↦ hji heq.symm⟩

/-- Who takes itself for the primary comes last, behind the node that starts. -/
def loadRank (rank : ℕ → ℕ) (last i : ℕ) (q : Partition) (k : ℕ) : ℕ :=
  if q.nodes[k]?.map NodeView.primaryIdx = some mStatus then last + 2
  else if k = i then last + 1
  else rank k

theorem loadRank_of_primary {rank : ℕ → ℕ} {last i : ℕ} {q : Partition} {k : ℕ} {view : NodeView}
    (hview : q.nodes[k]? = some view) (hself : view.primaryIdx = mStatus) :
    loadRank rank last i q k = last + 2 := by
  rw [loadRank, hview, Option.map_some, hself, if_pos rfl]

include hdistinct hnamed in
/-- A node that starts points to the primary of the coordinator, and those that point to it have
older views. -/
theorem load_ranked {p : Partition} {rank : ℕ → ℕ} {last : ℕ} (hp : Configured addrs p)
    (h : Ranked addrs rank last p) (i : ℕ) :
    Ranked addrs (loadRank rank last i (p.modify i (loadView (primaryResponse p.master).addr)))
      (last + 2) (p.modify i (loadView (primaryResponse p.master).addr)) := by
  set q := p.modify i (loadView (primaryResponse p.master).addr) with hq
  have hother : ∀ k ≠ i, q.nodes[k]? = p.nodes[k]? := by
    intro k hk
    rw [hq, Partition.modify_getElem?, if_neg fun heq ↦ hk heq.symm]
  have hself : ∀ view, q.nodes[i]? = some view → ∃ old, p.nodes[i]? = some old ∧
      view = loadView (primaryResponse p.master).addr old := by
    intro view hview
    rw [hq, Partition.modify_getElem?, if_pos rfl, Option.map_eq_some_iff] at hview
    obtain ⟨old, hold, rfl⟩ := hview
    exact ⟨old, hold, rfl⟩
  have hlast : ∀ k, loadRank rank last i q k ≤ last + 2 := by
    intro k
    have hbound := h.bound k
    unfold loadRank
    split
    · exact le_rfl
    · split
      · omega
      · omega
  have hrank : ∀ k view addr, q.nodes[k]? = some view → PointsTo view addr →
      loadRank rank last i q k = if k = i then last + 1 else rank k := by
    intro k view addr hview hpoints
    have hne := (pointsTo_ne hpoints).1
    rw [loadRank, hview, Option.map_some, if_neg fun heq ↦ hne (Option.some.inj heq)]
  constructor
  · exact hlast
  · intro k view hview
    by_cases hk : k = i
    · subst hk
      obtain ⟨old, hold, rfl⟩ := hself view hview
      rcases loadView_valid hdistinct hnamed hp hold with ⟨-, hunknown⟩ | hprimary |
        ⟨j, addr, -, -, -, hpoints⟩
      · exact .inr (.inl hunknown)
      · exact .inl hprimary
      · exact .inr (.inr ⟨addr, hpoints⟩)
    · exact h.valid k view (hother k hk ▸ hview)
  · intro k view addr l hview hpoints hl
    have hk := hrank k view addr hview hpoints
    -- What is pointed to either takes itself for the primary or has a later view.
    have hlater : (∃ target, q.nodes[l]? = some target ∧ target.primaryIdx = mStatus) ∨
        loadRank rank last i q k < loadRank rank last i q l := by
      by_cases hki : k = i
      · subst hki
        left
        obtain ⟨old, hold, rfl⟩ := hself view hview
        rcases loadView_valid hdistinct hnamed hp hold with ⟨-, hunknown⟩ | hprimary |
          ⟨j, other, hjk, hj, hother', hpoints'⟩
        · exact absurd hunknown (pointsTo_ne hpoints).2
        · exact absurd hprimary (pointsTo_ne hpoints).1
        · obtain rfl : addr = other := Option.some.inj (hpoints.2.symm.trans hpoints'.2)
          obtain rfl : l = j := eq_of_same_addr hdistinct hl hother'
          obtain ⟨-, target, htarget, hprimary⟩ := h.recorded l hj
          exact ⟨target, (hother l hjk).trans htarget, hprimary⟩
      · rw [if_neg hki] at hk
        have hbound := h.bound k
        obtain ⟨hle, hequal⟩ := h.points k view addr l (hother k hki ▸ hview) hpoints hl
        by_cases hli : l = i
        · right
          rw [hk, hli, loadRank]
          split
          · omega
          · rw [if_pos rfl]
            omega
        · rcases lt_or_eq_of_le hle with hlt | heq
          · right
            rw [hk, loadRank, if_neg hli]
            split
            · omega
            · exact hlt
          · left
            obtain ⟨target, htarget, hprimary⟩ := hequal heq
            exact ⟨target, (hother l hli).trans htarget, hprimary⟩
    rcases hlater with ⟨target, htarget, hprimary⟩ | hlt
    · refine ⟨?_, fun _ ↦ ⟨target, htarget, hprimary⟩⟩
      rw [loadRank_of_primary htarget hprimary]
      exact hlast k
    · exact ⟨hlt.le, fun heq ↦ absurd heq hlt.ne⟩
  · intro j hj
    have hidx : p.master.primaryIdx = j := hj
    have hprimary : ∃ view, q.nodes[j]? = some view ∧ view.primaryIdx = mStatus := by
      obtain ⟨-, old, hold, hprimary⟩ := h.recorded j hj
      by_cases hji : j = i
      · subst hji
        have hview : q.nodes[j]? = some (loadView (primaryResponse p.master).addr old) := by
          rw [hq, Partition.modify_getElem?, if_pos rfl, hold, Option.map_some]
        refine ⟨_, hview, ?_⟩
        rcases loadView_valid hdistinct hnamed hp hold with ⟨hnone, -⟩ | hself' |
          ⟨l, addr, hlj, hl, -, -⟩
        · omega
        · exact hself'
        · omega
      · exact ⟨old, (hother j hji).trans hold, hprimary⟩
    obtain ⟨view, hview, hself'⟩ := hprimary
    exact ⟨loadRank_of_primary hview hself', view, hview, hself'⟩

include hdistinct hnamed in
theorem load_forwardInv {s : Replicas} (h : ForwardInv addrs s.control) (i : ℕ) (tablet : Tablet) :
    ForwardInv addrs (load s i tablet).control := by
  obtain ⟨rank, last, hranked⟩ := h.ranked
  rw [load_control]
  exact ⟨s.control.modify_configured h.toConfigured fun view hview ↦ loadView_isNode hview _, _, _,
    load_ranked hdistinct hnamed h.toConfigured hranked i⟩

theorem listen_control (s : Replicas) (i pId : ℕ) :
    (listen s i).control = s.control.step pId (.startup i) :=
  Replicas.modify_control s i adminStartup

theorem start_control : (start addrs).replicas.control = startPartition addrs := by
  have hnodes : (start addrs).replicas.control.nodes = startNodes addrs := by
    simp only [start, Replicas.control, List.map_map, Function.comp_def, List.map_id']
  calc
    (start addrs).replicas.control =
        ⟨initialPartition addrs, (start addrs).replicas.control.nodes⟩ := rfl
    _ = startPartition addrs := by rw [hnodes]; rfl

include hdistinct hnamed in
theorem step_control {pId : ℕ} {s t : Hosts} {e : Event} (h : ForwardInv addrs s.replicas.control)
    (hstep : s.step pId e = some t) : ForwardInv addrs t.replicas.control := by
  cases stepped_of_step hstep with
  | idle => exact h
  | round garbage => exact happen_forwardInv hdistinct hnamed h pId _
  | shutdown i => exact happen_forwardInv hdistinct hnamed h pId _
  | startup i hlive =>
    exact Visibility.govern_forwardInv hdistinct hnamed (s := { replicas := s.replicas }) h pId _
  | crash i => exact happen_forwardInv hdistinct hnamed h pId (.crash i)
  | write i req r hserve => exact serve_forwardInv hdistinct hnamed h pId hserve
  | checkpoint => exact h
  | load i log logOpens node tablet => exact load_forwardInv hdistinct hnamed h i tablet
  | listen i hloaded =>
    have hnext := step_forwardInv hdistinct hnamed h pId (.startup i)
    rwa [← listen_control] at hnext

include hdistinct hnamed in
/-- Every step is possible; in particular every write is answered. -/
theorem step_isSome {pId : ℕ} {s : Hosts} (h : ForwardInv addrs s.replicas.control) (e : Event) :
    (s.step pId e).isSome := by
  cases e with
  | write i req =>
    rw [Hosts.step, Option.isSome_map]
    exact serve_isSome hdistinct hnamed h i req
  | round | shutdown | crash => rfl
  | startup i | listen i =>
    simp only [Hosts.step]
    split
    · rfl
    · rfl
  | checkpoint i calls =>
    simp only [Hosts.step]
    split
    · split
      · rfl
      · rfl
    · rfl
  | load i log logOpens =>
    simp only [Hosts.step]
    split
    · split
      · split
        · rfl
        · rfl
      · rfl
    · rfl

end Control

/-! ## The slots of the nodes -/

theorem load_getElem? (s : Replicas) (i j : ℕ) (tablet : Tablet) :
    (load s i tablet).nodes[j]? =
      if i = j then s.nodes[j]?.map fun node ↦
        { toNodeView := loadView (primaryResponse s.master).addr node.toNodeView
          tablet := tablet
          log := node.log }
      else s.nodes[j]? := by
  simp only [load, List.getElem?_modify]
  split
  · rfl
  · simp

theorem listen_getElem? (s : Replicas) (i j : ℕ) :
    (listen s i).nodes[j]? =
      if i = j then s.nodes[j]?.map fun node ↦
        { node with toNodeView := adminStartup node.toNodeView }
      else s.nodes[j]? :=
  s.modify_getElem? i j adminStartup

/-- The slots hold the same tablets. -/
def SameTablets (s t : Replicas) : Prop :=
  ∀ (i : ℕ) node, t.nodes[i]? = some node → ∃ old, s.nodes[i]? = some old ∧ node.tablet = old.tablet

theorem sameTablets_modify (s : Replicas) (i : ℕ) (f : NodeView → NodeView) :
    SameTablets s (s.modify i f) := by
  intro j node hnode
  rw [Replicas.modify_getElem?] at hnode
  split at hnode
  · obtain ⟨old, hold, rfl⟩ := Option.map_eq_some_iff.mp hnode
    exact ⟨old, hold, rfl⟩
  · exact ⟨node, hnode, rfl⟩

theorem sameTablets_withControl (s : Replicas) (pId : ℕ) (e : Coordinator.Views.Event) :
    SameTablets s (s.withControl (s.control.step pId e)) := by
  intro i node hnode
  obtain ⟨old, hold, htablet, -⟩ := Visibility.govern_node (s := { replicas := s }) hnode
  exact ⟨old, hold, htablet⟩

/-! ## Ended processes -/

/-- A request ends one process at most, which serves nothing then. -/
theorem serve_dead {fuel i : ℕ} {s : Replicas} {req : WriteRequest} {r : Replicas × Reply}
    (h : s.serve fuel i req = some r) : r.1.dead = s.dead ∨ ∃ j, r.1.dead = j :: s.dead ∧
      ∀ node, r.1.nodes[j]? = some node → node.statusServ = false := by
  induction fuel generalizing s i with
  | zero => cases h
  | succ fuel ih =>
    cases served_of_serve h with
    | lost => exact .inl rfl
    | forwarded origin peer k _ horigin hroute htarget hrest =>
      have hended := ih hrest
      exact hended
    | stuck origin horigin => exact .inl rfl
    | done origin outcome horigin hhandled => exact .inl rfl
    | aborted origin horigin =>
      refine .inr ⟨i, rfl, fun node hnode ↦ ?_⟩
      rw [Replicas.kill, Replicas.modify_getElem?, if_pos rfl] at hnode
      obtain ⟨old, -, rfl⟩ := Option.map_eq_some_iff.mp hnode
      rfl

/-- Who has no process, or one that does not listen yet, serves nothing. -/
def Down (s : Replicas) : Prop :=
  ∀ i ∈ s.dead, ∀ node, s.nodes[i]? = some node → node.statusServ = false

/-- It stays so where nobody new serves. -/
theorem Down.of_nodes {s t : Replicas} (h : Down s) (hdead : t.dead = s.dead)
    (hnodes : ∀ (i : ℕ) node, t.nodes[i]? = some node → i ∈ s.dead → node.statusServ = true →
      ∃ old, s.nodes[i]? = some old ∧ old.statusServ = true) : Down t := by
  intro i hi node hnode
  rw [hdead] at hi
  by_contra hup
  obtain ⟨old, hold, hserving⟩ := hnodes i node hnode hi (Bool.eq_true_of_not_eq_false hup)
  rw [h i hi old hold] at hserving
  cases hserving

theorem Down.withControl {s : Replicas} (h : Down s) {pId : ℕ} {e : Coordinator.Views.Event}
    (hview : ∀ i ∈ s.dead, ∀ old view, s.nodes[i]? = some old →
      (s.control.step pId e).nodes[i]? = some view → view.statusServ = true →
        old.statusServ = true) : Down (s.withControl (s.control.step pId e)) := by
  refine h.of_nodes rfl fun i node hnode hi hserving ↦ ?_
  obtain ⟨old, hold, -, hnext⟩ := Visibility.govern_node (s := { replicas := s }) hnode
  exact ⟨old, hold, hview i hi old _ hold hnext hserving⟩

theorem Down.step {pId : ℕ} {s t : Hosts} {e : Event} (h : Down s.replicas)
    (hstep : s.step pId e = some t) : Down t.replicas := by
  have hcontrol : ∀ {i : ℕ} {old : KVNode}, s.replicas.nodes[i]? = some old →
      s.replicas.control.nodes[i]? = some old.toNodeView := by
    intro i old hold
    rw [Replicas.control_getElem?, hold, Option.map_some]
  cases stepped_of_step hstep with
  | idle => exact h
  | round garbage =>
    refine h.withControl fun i hi old view hold hview hserving ↦ ?_
    have hsame := s.replicas.control.round_statusServ pId garbage i
    have hround : (s.replicas.control.round pId garbage).nodes[i]? = some view := hview
    rw [hcontrol hold, hround] at hsame
    exact (Option.some.inj hsame).symm.trans hserving
  | shutdown j =>
    refine h.withControl fun i hi old view hold hview hserving ↦ ?_
    rw [Partition.step, Partition.modify_getElem?, hcontrol hold] at hview
    split at hview
    · cases hview
      cases hserving
    · cases hview
      exact hserving
  | startup j hlive =>
    refine h.withControl fun i hi old view hold hview hserving ↦ ?_
    rw [Partition.step, Partition.modify_getElem?, hcontrol hold] at hview
    split at hview
    · next hji => exact absurd (hji ▸ hi) hlive
    · cases hview
      exact hserving
  | crash j =>
    intro i hi node hnode
    rw [Replicas.kill, Replicas.modify_getElem?] at hnode
    split at hnode
    · obtain ⟨old, -, rfl⟩ := Option.map_eq_some_iff.mp hnode
      rfl
    · next hji =>
      have hi' : i ∈ s.replicas.dead := (List.mem_cons.mp hi).resolve_left fun heq ↦ hji heq.symm
      exact h i hi' node hnode
  | write j req r hserve =>
    have hserving : ∀ i ∈ s.replicas.dead, ∀ node, r.1.nodes[i]? = some node →
        node.statusServ = false := by
      intro i hi node hnode
      obtain ⟨old, hold, heffect⟩ := (serve_effect pId hserve).node i node hnode
      by_contra hup
      have hup' := heffect.serving (Bool.eq_true_of_not_eq_false hup)
      rw [h i hi old hold] at hup'
      cases hup'
    intro i hi node hnode
    rcases serve_dead hserve with hdead | ⟨k, hdead, hkilled⟩
    · exact hserving i (hdead ▸ hi) node hnode
    · dsimp only at hi
      rw [hdead, List.mem_cons] at hi
      rcases hi with rfl | hi
      · exact hkilled node hnode
      · exact hserving i hi node hnode
  | checkpoint => exact h
  | load j log logOpens old tablet =>
    intro i hi node hnode
    rw [load_getElem?] at hnode
    split at hnode
    · obtain ⟨old, -, rfl⟩ := Option.map_eq_some_iff.mp hnode
      rfl
    · exact h i hi node hnode
  | listen j hloaded =>
    intro i hi node hnode
    obtain ⟨hi', hne⟩ := List.mem_filter.mp hi
    rw [listen_getElem?, if_neg fun heq ↦ of_decide_eq_true hne heq.symm] at hnode
    exact h i hi' node hnode

/-! ## Whole runs -/

theorem reaches_control {addrs : List Bytes} (hdistinct : addrs.Nodup) (hnamed : [] ∉ addrs)
    {pId : ℕ} {ok : Hosts → Event → Prop} {s : Hosts}
    (h : Reaches (machine pId) ok (start addrs) s) :
    ForwardInv addrs s.replicas.control ∧ Down s.replicas := by
  refine h.invariant (I := fun s ↦ ForwardInv addrs s.replicas.control ∧ Down s.replicas)
    ⟨?_, ?_⟩ ?_
  · rw [start_control]
    exact start_forwardInv addrs
  · intro i hi
    cases hi
  · rintro s e t ⟨hcontrol, hdown⟩ - hstep
    exact ⟨step_control hdistinct hnamed hcontrol hstep, hdown.step hstep⟩

/-- One partition with two nodes. -/
def twoNodes : ClusterConfig := Visibility.twoNodes

def putValue : WriteRequest := .put { row := lit "row", col := lit "col", value := lit "value" }

end PennCloud.Cluster.Restarts
