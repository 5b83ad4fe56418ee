import PennCloud.Replication.Serving

/-!
# A partition that agrees on its primary

All nodes serve, one of them takes itself for the primary and the others forward to it. The first
round of the coordinator brings every partition into such a state. The stubs of the
primary lead to all other nodes, so that a multicast reaches each of them.
-/

open PennCloud.KV.TabletCells PennCloud.KV.PrimaryView PennCloud.Coordinator.Election
open PennCloud.Coordinator.Views PennCloud.Coordinator.Forwarding PennCloud.Replication.Serving

namespace PennCloud.Replication.Agreement

/-- All nodes serve, and all but the primary forward to it. An address leads to one process, so the
nodes have different addresses. -/
structure AgreedPartition where
  addrs : List Bytes
  distinct : addrs.Nodup
  partition : Partition
  configured : Configured addrs partition
  serves : ∀ view ∈ partition.nodes, view.statusServ = true
  pm : ℕ
  primary : believesSelf partition pm = true
  agreed : ∀ i < partition.nodes.length, i ≠ pm → nextHop partition i = some pm

/-- The nodes behind the stubs of node `i`. -/
def peersOf (p : Partition) (i : ℕ) : List ℕ :=
  ((p.nodes[i]?.map NodeView.peerAddrs).getD []).filterMap fun addr ↦
    p.nodes.findIdx? (·.addr = addr)

/-- What node `i` decides about a request. -/
def routedAt (p : Partition) (i : ℕ) (req : WriteRequest) : Option (NodeView × Route) :=
  p.nodes[i]?.map fun view ↦ req.route view (some (primaryResponse p.master).addr)

/-- The node behind the stub to which node `i` forwards a request. -/
def forwardTo (p : Partition) (i : ℕ) (req : WriteRequest) : Option ℕ :=
  match routedAt p i req with
  | some (view, .forward _) => (peerAddr? view).bind fun addr ↦ p.nodes.findIdx? (·.addr = addr)
  | _ => none

/-! ## Stubs -/

/-- An address leads to its node. -/
theorem findIdx?_addr {addrs : List Bytes} (hdistinct : addrs.Nodup) {p : Partition}
    (hp : Configured addrs p) {j : ℕ} {addr : Bytes} (hj : addrs[j]? = some addr) :
    p.nodes.findIdx? (·.addr = addr) = some j := by
  have haddr : ∀ k (hk : k < p.nodes.length), addrs[k]? = some p.nodes[k].addr :=
    fun k hk ↦ (hp.node k _ (List.getElem?_eq_getElem hk)).1
  have hjlt : j < p.nodes.length := by
    rw [hp.length_eq]
    exact (List.getElem?_eq_some_iff.mp hj).1
  apply List.findIdx?_eq_some_iff_getElem.mpr
  refine ⟨hjlt, ?_, ?_⟩
  · have hsame : some p.nodes[j].addr = some addr := (haddr j hjlt).symm.trans hj
    exact decide_eq_true (Option.some.inj hsame)
  · intro k hk hfound
    have hkaddr := haddr k (hk.trans hjlt)
    rw [of_decide_eq_true hfound] at hkaddr
    have heq : k = j := eq_of_same_addr hdistinct hkaddr hj
    omega

theorem mem_peersOf {addrs : List Bytes} (hdistinct : addrs.Nodup) {p : Partition}
    (hp : Configured addrs p) {i : ℕ} (hi : i < p.nodes.length) (j : ℕ) :
    j ∈ peersOf p i ↔ j < p.nodes.length ∧ j ≠ i := by
  have hview := List.getElem?_eq_getElem hi
  have hpeers : (p.nodes[i]?.map NodeView.peerAddrs).getD [] = addrs.eraseIdx i := by
    rw [hview, Option.map_some, Option.getD_some]
    exact (hp.node i _ hview).2
  rw [peersOf, hpeers, List.mem_filterMap, hp.length_eq]
  constructor
  · rintro ⟨addr, hmem, hfind⟩
    obtain ⟨k, hk, hget⟩ := List.mem_eraseIdx_iff_getElem?.mp hmem
    rw [findIdx?_addr hdistinct hp hget, Option.some.injEq] at hfind
    subst hfind
    exact ⟨(List.getElem?_eq_some_iff.mp hget).1, hk⟩
  · rintro ⟨hj, hne⟩
    have hget := List.getElem?_eq_getElem hj
    exact ⟨addrs[j], List.mem_eraseIdx_iff_getElem?.mpr ⟨j, hne, hget⟩,
      findIdx?_addr hdistinct hp hget⟩

/-! ## Routing -/

/-- Only the primary executes requests. -/
theorem AgreedPartition.eq_pm (a : AgreedPartition) {i : ℕ} {req : WriteRequest}
    (h : (routedAt a.partition i req).map Prod.snd = some .primary) : i = a.pm := by
  obtain ⟨routed, hrouted, hprimary⟩ := Option.map_eq_some_iff.mp h
  obtain ⟨view, hview, rfl⟩ := Option.map_eq_some_iff.mp hrouted
  by_contra hne
  have hi : i < a.partition.nodes.length := (List.getElem?_eq_some_iff.mp hview).1
  obtain ⟨other, addr, hother, hpoints, -⟩ := nextHop_eq_some a.configured (a.agreed i hi hne)
  obtain rfl : view = other := Option.some.inj (hview.symm.trans hother)
  obtain ⟨hnotSelf, hknown⟩ := pointsTo_ne hpoints
  have hcases := req.route_routed view (primaryResponse a.partition.master).addr
  cases hdecided : req.route view (some (primaryResponse a.partition.master).addr) with
  | mk view' route =>
    rw [hdecided] at hcases hprimary
    cases hcases with
    | rejected => cases hprimary
    | unknown => cases hprimary
    | forward => cases hprimary
    | primary hserving hself =>
      rw [refreshView_eq, if_neg hknown] at hself
      exact hnotSelf hself

theorem AgreedPartition.pm_lt (a : AgreedPartition) : a.pm < a.partition.nodes.length := by
  by_contra hge
  have hprimary := a.primary
  rw [believesSelf, List.getElem?_eq_none (by omega)] at hprimary
  cases hprimary

theorem AgreedPartition.mem_peersOf_pm (a : AgreedPartition) (j : ℕ) :
    j ∈ peersOf a.partition a.pm ↔ j < a.partition.nodes.length ∧ j ≠ a.pm :=
  mem_peersOf a.distinct a.configured a.pm_lt j

/-! ## The first election -/

section Elected

variable {addrs : List Bytes} (hne : addrs ≠ []) (hdistinct : addrs.Nodup) (pId : ℕ)
  (garbage : Bool)

theorem startPartition_statusServ {i : ℕ} {view : NodeView}
    (h : (startPartition addrs).nodes[i]? = some view) : view.statusServ = true := by
  simp only [startPartition, startNodes, List.getElem?_mapIdx, Option.map_eq_some_iff] at h
  obtain ⟨addr, -, rfl⟩ := h
  rfl

include hne in
/-- The first round announces some node of the partition to all others. -/
theorem first_round : ∃ (ii : ℕ) (addr : Bytes), addrs[ii]? = some addr ∧
    serving (startPartition addrs).nodes ii = true ∧
    ((startPartition addrs).round pId garbage).master.primaryIdx = ii ∧
    ∀ i : ℕ, ((startPartition addrs).round pId garbage).nodes[i]? =
      (startPartition addrs).nodes[i]?.map fun view ↦ (primaryUpdate view addr).1 := by
  rcases Partition.round_cases (startPartition_configured addrs) pId garbage with
    ⟨⟨hnonneg, -⟩, -, -⟩ | ⟨hdown, -, -⟩ | ⟨-, ii, addr, haddr, hserving, hidx, hnodes⟩
  · have hnone : (startPartition addrs).master.primaryIdx = -1 := rfl
    omega
  · have hlt : 0 < (startPartition addrs).nodes.length := by
      rw [(startPartition_configured addrs).length_eq]
      exact List.length_pos_iff.mpr hne
    have hview := List.getElem?_eq_getElem hlt
    have hup := (serving_eq_true_iff hview).mpr (startPartition_statusServ hview)
    rw [hdown 0] at hup
    cases hup
  · exact ⟨ii, addr, haddr, hserving, hidx, hnodes⟩

/-- A node that points to an address forwards there. -/
theorem nextHop_of_pointsTo {p : Partition} (hp : Configured addrs p) {i j : ℕ}
    {view : NodeView} {addr : Bytes} (hview : p.nodes[i]? = some view)
    (hserving : view.statusServ = true) (hpoints : PointsTo view addr)
    (hj : addrs[j]? = some addr) (hdistinct : addrs.Nodup) : nextHop p i = some j := by
  obtain ⟨hself, hknown⟩ := pointsTo_ne hpoints
  have hforward : forwardAddr view = some addr := by
    rw [forwardAddr, if_pos ⟨hserving, hknown, hself⟩]
    exact hpoints.2
  rw [nextHop, hview, Option.bind_some, hforward, Option.bind_some]
  exact findIdx?_addr hdistinct hp hj

/-- A partition after the first round of the coordinator. -/
def AgreedPartition.elected : AgreedPartition where
  addrs := addrs
  distinct := hdistinct
  partition := (startPartition addrs).round pId garbage
  configured := Partition.round_configured (startPartition_configured addrs) pId garbage
  serves := by
    intro view hmem
    obtain ⟨i, hview⟩ := List.mem_iff_getElem?.mp hmem
    have hsame := (startPartition addrs).round_statusServ pId garbage i
    rw [hview, Option.map_some] at hsame
    obtain ⟨old, hold, heq⟩ := Option.map_eq_some_iff.mp hsame.symm
    rw [← heq]
    exact startPartition_statusServ hold
  pm := ((startPartition addrs).round pId garbage).master.primaryIdx.toNat
  primary := by
    obtain ⟨ii, addr, haddr, hserving, hidx, hnodes⟩ := first_round hne pId garbage
    obtain ⟨view, hview, hself⟩ :=
      announced_self hdistinct (startPartition_configured addrs) haddr hserving hnodes
    rw [hidx, Int.toNat_natCast, believesSelf, hview]
    exact decide_eq_true hself
  agreed := by
    obtain ⟨ii, addr, haddr, hserving, hidx, hnodes⟩ := first_round hne pId garbage
    intro i hi hother
    rw [hidx, Int.toNat_natCast] at hother ⊢
    have hview := List.getElem?_eq_getElem hi
    have hconf := Partition.round_configured (startPartition_configured addrs) pId garbage
    have hold := hnodes i
    rw [hview] at hold
    obtain ⟨old, hget, heq⟩ := Option.map_eq_some_iff.mp hold.symm
    have hup : old.statusServ = true := startPartition_statusServ hget
    apply nextHop_of_pointsTo hconf hview
    · rw [← heq, primaryUpdate_statusServ]
      exact hup
    · rw [← heq, primaryUpdate_serving hup]
      exact renewIdxForPm_pointsTo hdistinct ((startPartition_configured addrs).node i old hget)
        haddr hother
    · exact haddr
    · exact hdistinct

end Elected

end PennCloud.Replication.Agreement
