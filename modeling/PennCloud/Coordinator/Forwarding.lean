import PennCloud.Coordinator.Views
import PennCloud.Library.Trail

/-!
# Forwarding a write

A node that is not the primary sends a write on to the node it takes for the primary, without a
limit on the number of hops. Views may be stale, but they are ordered: give every node the number
of the election from which its view stems. A node points to a node that took part in the
same election or a later one, and within one election it points to the elected node, which
takes itself for the primary. So no request comes back to a node it has passed.
-/

open PennCloud.KV.TabletCells PennCloud.KV.PrimaryView PennCloud.Coordinator.Election
open PennCloud.Coordinator.Views PennCloud.Library.Runs PennCloud.Library.Trail

namespace PennCloud.Coordinator.Forwarding

/-- The address to which a serving node that knows a primary other than itself sends writes. -/
def forwardAddr (view : NodeView) : Option Bytes :=
  if view.statusServ ∧ view.primaryIdx ≠ ukStatus ∧ view.primaryIdx ≠ mStatus then
    peerAddr? view
  else
    none

/-- The node a write goes to next. -/
def nextHop (p : Partition) (i : ℕ) : Option ℕ :=
  (p.nodes[i]?.bind forwardAddr).bind fun addr ↦ p.nodes.findIdx? (·.addr = addr)

/-- All handlers of writes forward in this way once the keys are accepted. -/
theorem routeWrite_forward {terminated : String} {checkKeys : Bool} {view : NodeView}
    (pmAddr : Option Bytes) {rk ck : Bytes} (hknown : view.primaryIdx ≠ ukStatus)
    (hkeys : (checkKeys && (rk.isEmpty || ck.isEmpty)) = false) :
    routeWrite terminated checkKeys view pmAddr rk ck = (view, .forward view.primaryIdx) ↔
      view.statusServ = true ∧ view.primaryIdx ≠ mStatus := by
  cases hserving : view.statusServ with
  | false => simp [routeWrite, hserving]
  | true =>
    have hroute : routeWrite terminated checkKeys view pmAddr rk ck =
        if view.primaryIdx ≠ mStatus then (view, .forward view.primaryIdx)
        else (view, .primary) := by
      simp [routeWrite, hserving, hkeys, recoverPartition_known hknown]
    rw [hroute]
    split
    · next hother => exact iff_of_true rfl ⟨rfl, hother⟩
    · next hself => exact iff_of_false (by simp) (fun h ↦ hself h.2)

/-- Where a write can come to rest. -/
def Stops (p : Partition) (i : ℕ) : Prop :=
  ∃ view, p.nodes[i]? = some view ∧
    (view.primaryIdx = mStatus ∨ view.statusServ = false ∨ view.primaryIdx = ukStatus)

/-! ## The order of the views -/

/-- A view is the node's own, unknown, or a stub. -/
def ValidView (view : NodeView) : Prop :=
  view.primaryIdx = mStatus ∨ view.primaryIdx = ukStatus ∨ ∃ addr, PointsTo view addr

/-- The views ordered by the elections: `rank i` is the election from which the view of node `i`
stems and `last` the election that the coordinator's record stems from. -/
structure Ranked (addrs : List Bytes) (rank : ℕ → ℕ) (last : ℕ) (p : Partition) : Prop where
  bound : ∀ i, rank i ≤ last
  valid : ∀ (i : ℕ) view, p.nodes[i]? = some view → ValidView view
  points : ∀ (i : ℕ) view addr (j : ℕ), p.nodes[i]? = some view → PointsTo view addr →
    addrs[j]? = some addr → rank i ≤ rank j ∧
      (rank i = rank j → ∃ target, p.nodes[j]? = some target ∧ target.primaryIdx = mStatus)
  recorded : ∀ j : ℕ, p.master.primaryIdx = j → rank j = last ∧
    ∃ view, p.nodes[j]? = some view ∧ view.primaryIdx = mStatus

/-- The invariant of forwarding. -/
structure ForwardInv (addrs : List Bytes) (p : Partition) : Prop extends Configured addrs p where
  ranked : ∃ rank last, Ranked addrs rank last p

theorem pointsTo_ne {view : NodeView} {addr : Bytes} (h : PointsTo view addr) :
    view.primaryIdx ≠ mStatus ∧ view.primaryIdx ≠ ukStatus := by
  have hnonneg := h.1
  unfold mStatus ukStatus
  omega

theorem start_forwardInv (addrs : List Bytes) : ForwardInv addrs (startPartition addrs) where
  toConfigured := startPartition_configured addrs
  ranked := by
    have hunknown : ∀ (i : ℕ) view, (startPartition addrs).nodes[i]? = some view →
        view.primaryIdx = ukStatus := by
      intro i view hview
      simp only [startPartition, startNodes, List.getElem?_mapIdx, Option.map_eq_some_iff] at hview
      obtain ⟨addr, -, rfl⟩ := hview
      rfl
    refine ⟨fun _ ↦ 0, 0, fun _ ↦ le_rfl, ?_, ?_, ?_⟩
    · exact fun i view hview ↦ .inr (.inl (hunknown i view hview))
    · exact fun i view addr j hview hpoints _ ↦
        absurd (hunknown i view hview) (pointsTo_ne hpoints).2
    · intro j hj
      have hnone : (startPartition addrs).master.primaryIdx = -1 := rfl
      omega

/-- What the order of the views looks at in a node. -/
def core (view : NodeView) : ℤ × List Bytes := (view.primaryIdx, view.peerAddrs)

theorem pointsTo_of_core {view other : NodeView} (h : core view = core other) {addr : Bytes} :
    PointsTo view addr ↔ PointsTo other addr := by
  obtain ⟨hidx, hpeers⟩ := Prod.mk.inj h
  unfold PointsTo peerAddr?
  rw [hidx, hpeers]

/-- Steps that leave these parts of the nodes and do not elect keep the order. -/
theorem Ranked.of_core {addrs : List Bytes} {rank : ℕ → ℕ} {last : ℕ} {p q : Partition}
    (h : Ranked addrs rank last p)
    (hnodes : ∀ i : ℕ, q.nodes[i]?.map core = p.nodes[i]?.map core)
    (hmaster : q.master.primaryIdx = p.master.primaryIdx ∨ q.master.primaryIdx = -1) :
    Ranked addrs rank last q := by
  have hold : ∀ (i : ℕ) view, q.nodes[i]? = some view →
      ∃ old, p.nodes[i]? = some old ∧ core old = core view := by
    intro i view hview
    have heq := hnodes i
    rw [hview, Option.map_some] at heq
    exact Option.map_eq_some_iff.mp heq.symm
  have hnew : ∀ (i : ℕ) old, p.nodes[i]? = some old → old.primaryIdx = mStatus →
      ∃ view, q.nodes[i]? = some view ∧ view.primaryIdx = mStatus := by
    intro i old hold hself
    have heq := hnodes i
    rw [hold, Option.map_some] at heq
    obtain ⟨view, hview, hcore⟩ := Option.map_eq_some_iff.mp heq
    exact ⟨view, hview, (Prod.mk.inj hcore).1.trans hself⟩
  constructor
  · exact h.bound
  · intro i view hview
    obtain ⟨old, hget, hcore⟩ := hold i view hview
    have hvalid := h.valid i old hget
    unfold ValidView at hvalid ⊢
    rw [← (Prod.mk.inj hcore).1]
    simpa only [pointsTo_of_core hcore] using hvalid
  · intro i view addr j hview hpoints hj
    obtain ⟨old, hget, hcore⟩ := hold i view hview
    obtain ⟨hle, htarget⟩ := h.points i old addr j hget ((pointsTo_of_core hcore).mpr hpoints) hj
    refine ⟨hle, fun hrank ↦ ?_⟩
    obtain ⟨target, hget', hself⟩ := htarget hrank
    exact hnew j target hget' hself
  · intro j hj
    have hj' : p.master.primaryIdx = j := by omega
    obtain ⟨hrank, view, hview, hself⟩ := h.recorded j hj'
    exact ⟨hrank, hnew j view hview hself⟩

section Steps

variable {addrs : List Bytes} {rank : ℕ → ℕ} {last : ℕ} {p q : Partition}

/-- What an announcement makes of a node: the announced node takes itself for the primary, the
other serving nodes point to it, and the rest does not hear of it. -/
theorem announced_cases (hdistinct : addrs.Nodup) (hp : Configured addrs p) {ii : ℕ}
    {addr : Bytes} (haddr : addrs[ii]? = some addr)
    (hnodes : ∀ i : ℕ, q.nodes[i]? = p.nodes[i]?.map fun view ↦ (primaryUpdate view addr).1)
    {i : ℕ} {view : NodeView} (hview : q.nodes[i]? = some view) :
    (serving p.nodes i = true ∧ i = ii ∧ view.primaryIdx = mStatus) ∨
    (serving p.nodes i = true ∧ i ≠ ii ∧ PointsTo view addr) ∨
    (serving p.nodes i = false ∧ p.nodes[i]? = some view) := by
  rw [hnodes, Option.map_eq_some_iff] at hview
  obtain ⟨old, hold, rfl⟩ := hview
  have hnode := hp.node i old hold
  cases hup : old.statusServ with
  | true =>
    have hserving := (serving_eq_true_iff hold).mpr hup
    rw [primaryUpdate_serving hup]
    by_cases hi : i = ii
    · have hself : addr = old.addr := by
        have hget := hnode.1
        rw [hi, haddr, Option.some.injEq] at hget
        exact hget
      exact .inl ⟨hserving, hi, (renewIdxForPm_eq_mStatus_iff old addr).mpr hself⟩
    · exact .inr (.inl ⟨hserving, hi, renewIdxForPm_pointsTo hdistinct hnode haddr hi⟩)
  | false =>
    have hdown : serving p.nodes i = false := by
      rw [← Bool.not_eq_true, serving_eq_true_iff hold, hup]
      decide
    rw [primaryUpdate_down hup]
    exact .inr (.inr ⟨hdown, hold⟩)

/-- The announced node, when it serves. -/
theorem announced_self (hdistinct : addrs.Nodup) (hp : Configured addrs p) {ii : ℕ}
    {addr : Bytes} (haddr : addrs[ii]? = some addr) (hserving : serving p.nodes ii = true)
    (hnodes : ∀ i : ℕ, q.nodes[i]? = p.nodes[i]?.map fun view ↦ (primaryUpdate view addr).1) :
    ∃ view, q.nodes[ii]? = some view ∧ view.primaryIdx = mStatus := by
  cases hold : p.nodes[ii]? with
  | none =>
    simp only [serving, hold] at hserving
    cases hserving
  | some old =>
    have hview : q.nodes[ii]? = some (primaryUpdate old addr).1 := by
      rw [hnodes, hold, Option.map_some]
    refine ⟨_, hview, ?_⟩
    rcases announced_cases hdistinct hp haddr hnodes hview with ⟨-, -, hself⟩ | ⟨-, hne, -⟩ |
      ⟨hdown, -⟩
    · exact hself
    · exact absurd rfl hne
    · rw [hserving] at hdown
      cases hdown

/-- A view that no announcement reached is the same afterwards. -/
theorem announced_down {addr : Bytes}
    (hnodes : ∀ i : ℕ, q.nodes[i]? = p.nodes[i]?.map fun view ↦ (primaryUpdate view addr).1)
    {j : ℕ} {view : NodeView} (hview : p.nodes[j]? = some view)
    (hdown : serving p.nodes j = false) : q.nodes[j]? = some view := by
  have hflag : view.statusServ = false := by
    rw [← Bool.not_eq_true, ← serving_eq_true_iff hview, hdown]
    decide
  rw [hnodes, hview, Option.map_some, primaryUpdate_down hflag]

theorem eq_of_same_addr (hdistinct : addrs.Nodup) {i j : ℕ} {addr : Bytes}
    (hi : addrs[i]? = some addr) (hj : addrs[j]? = some addr) : i = j := by
  apply (List.getElem?_inj (List.getElem?_eq_some_iff.mp hi).1 hdistinct).mp
  rw [hi, hj]

/-- An election gives a new rank to all nodes that serve. -/
theorem Ranked.elect (hdistinct : addrs.Nodup) (hp : Configured addrs p)
    (h : Ranked addrs rank last p) {ii : ℕ} {addr : Bytes}
    (haddr : addrs[ii]? = some addr) (hserving : serving p.nodes ii = true)
    (hidx : q.master.primaryIdx = ii)
    (hnodes : ∀ i : ℕ, q.nodes[i]? = p.nodes[i]?.map fun view ↦ (primaryUpdate view addr).1) :
    Ranked addrs (fun i ↦ if serving p.nodes i then last + 1 else rank i) (last + 1) q where
  bound := by
    intro i
    have hbound := h.bound i
    split
    · exact le_rfl
    · omega
  valid := by
    intro i view hview
    rcases announced_cases hdistinct hp haddr hnodes hview with ⟨-, -, hself⟩ | ⟨-, -, hpoints⟩ |
      ⟨-, hold⟩
    · exact .inl hself
    · exact .inr (.inr ⟨addr, hpoints⟩)
    · exact h.valid i view hold
  points := by
    intro i view target j hview hpoints hj
    rcases announced_cases hdistinct hp haddr hnodes hview with ⟨-, -, hself⟩ |
      ⟨hup, -, hpoints'⟩ | ⟨hdown, hold⟩
    · exact absurd hself (pointsTo_ne hpoints).1
    · have htarget : target = addr := Option.some.inj (hpoints.2.symm.trans hpoints'.2)
      obtain rfl : j = ii := eq_of_same_addr hdistinct (htarget ▸ hj) haddr
      simp only [hup, hserving, if_true]
      exact ⟨le_rfl, fun _ ↦ announced_self hdistinct hp haddr hserving hnodes⟩
    · obtain ⟨hle, hequal⟩ := h.points i view target j hold hpoints hj
      have hbound := h.bound i
      simp only [hdown, Bool.false_eq_true, if_false]
      cases hup : serving p.nodes j with
      | true =>
        simp only [if_true]
        exact ⟨by omega, fun heq ↦ by omega⟩
      | false =>
        simp only [Bool.false_eq_true, if_false]
        refine ⟨hle, fun heq ↦ ?_⟩
        obtain ⟨there, hthere, hself⟩ := hequal heq
        exact ⟨there, announced_down hnodes hthere hup, hself⟩
  recorded := by
    intro j hj
    obtain rfl : j = ii := by omega
    simp only [hserving, if_true]
    exact ⟨trivial, announced_self hdistinct hp haddr hserving hnodes⟩

/-- A node without a primary that asks for it gets the rank of the coordinator's record. -/
theorem Ranked.adopt (hdistinct : addrs.Nodup) (hp : Configured addrs p)
    (h : Ranked addrs rank last p) {i j : ℕ} {old : NodeView} {addr : Bytes}
    (hold : p.nodes[i]? = some old) (hunknown : old.primaryIdx = ukStatus)
    (hj : p.master.primaryIdx = j) (haddr : addrs[j]? = some addr) :
    Ranked addrs (Function.update rank i last) last
      (p.modify i fun view ↦ renewIdxForPm view addr) := by
  obtain ⟨hrankj, primary, hprimary, hselfj⟩ := h.recorded j hj
  have hne : i ≠ j := by
    rintro rfl
    rw [hold, Option.some.injEq] at hprimary
    rw [hprimary, hselfj] at hunknown
    exact absurd hunknown (by decide)
  have hpointsi := renewIdxForPm_pointsTo hdistinct (hp.node i old hold) haddr hne
  have hnew : ∀ (k : ℕ) view, (p.modify i fun view ↦ renewIdxForPm view addr).nodes[k]? = some view →
      (k = i ∧ PointsTo view addr) ∨ (k ≠ i ∧ p.nodes[k]? = some view) := by
    intro k view hview
    rw [Partition.modify_getElem?] at hview
    split at hview
    · next hik =>
      subst hik
      rw [hold, Option.map_some, Option.some.injEq] at hview
      exact .inl ⟨rfl, hview ▸ hpointsi⟩
    · next hik => exact .inr ⟨fun heq ↦ hik heq.symm, hview⟩
  have hother : ∀ k ≠ i, (p.modify i fun view ↦ renewIdxForPm view addr).nodes[k]? =
      p.nodes[k]? := by
    intro k hk
    rw [Partition.modify_getElem?, if_neg fun heq ↦ hk heq.symm]
  constructor
  · intro k
    by_cases hk : k = i
    · rw [hk, Function.update_self]
    · rw [Function.update_of_ne hk]
      exact h.bound k
  · intro k view hview
    rcases hnew k view hview with ⟨-, hpoints⟩ | ⟨-, hget⟩
    · exact .inr (.inr ⟨addr, hpoints⟩)
    · exact h.valid k view hget
  · intro k view target l hview hpoints hl
    rcases hnew k view hview with ⟨rfl, hpoints'⟩ | ⟨hk, hget⟩
    · have htarget : target = addr := Option.some.inj (hpoints.2.symm.trans hpoints'.2)
      obtain rfl : l = j := eq_of_same_addr hdistinct (htarget ▸ hl) haddr
      rw [Function.update_self, Function.update_of_ne hne.symm, hrankj]
      exact ⟨le_rfl, fun _ ↦ ⟨primary, (hother l hne.symm).trans hprimary, hselfj⟩⟩
    · obtain ⟨hle, hequal⟩ := h.points k view target l hget hpoints hl
      rw [Function.update_of_ne hk]
      by_cases hl' : l = i
      · -- a node that pointed to `i` has a smaller rank, since `i` knew no primary
        subst hl'
        have hlt : rank k ≠ rank l := by
          intro heq
          obtain ⟨there, hthere, hself⟩ := hequal heq
          rw [hold, Option.some.injEq] at hthere
          rw [← hthere, hunknown] at hself
          exact absurd hself (by decide)
        have hbound := h.bound l
        rw [Function.update_self]
        exact ⟨by omega, fun heq ↦ by omega⟩
      · rw [Function.update_of_ne hl', hother l hl']
        exact ⟨hle, hequal⟩
  · intro l hl
    obtain rfl : l = j := by
      have hmaster : p.master.primaryIdx = l := hl
      omega
    rw [Function.update_of_ne hne.symm, hother l hne.symm]
    exact ⟨hrankj, primary, hprimary, hselfj⟩

theorem modify_core {i : ℕ} {f : NodeView → NodeView}
    (hf : ∀ view, p.nodes[i]? = some view → core (f view) = core view) (k : ℕ) :
    (p.modify i f).nodes[k]?.map core = p.nodes[k]?.map core := by
  rw [Partition.modify_getElem?]
  split
  · next hik =>
    subst hik
    cases hold : p.nodes[i]? with
    | none => rfl
    | some old => simp only [Option.map_some, hf old hold]
  · rfl

theorem refresh_ranked (hdistinct : addrs.Nodup) (hnamed : [] ∉ addrs) (hp : Configured addrs p)
    (h : Ranked addrs rank last p) (pId i : ℕ) :
    ∃ rank', Ranked addrs rank' last (p.step pId (.refresh i)) := by
  by_cases hasks : ∃ old, p.nodes[i]? = some old ∧ old.primaryIdx = ukStatus
  · obtain ⟨old, hold, hunknown⟩ := hasks
    rcases primaryResponse_addr hp with ⟨-, hnone⟩ | ⟨j, hj, haddr⟩
    · refine ⟨rank, h.of_core (modify_core fun view hview ↦ ?_) (.inl rfl)⟩
      obtain rfl : old = view := Option.some.inj (hold.symm.trans hview)
      have hself : [] ≠ old.addr := by
        intro heq
        exact hnamed (heq ▸ List.mem_of_getElem? (hp.node i old hold).1)
      have hpeer : [] ∉ old.peerAddrs := by
        rw [(hp.node i old hold).2]
        exact fun hmem ↦ hnamed (List.mem_of_mem_eraseIdx hmem)
      rw [refreshView_eq, if_pos hunknown, hnone]
      simp only [core, renewIdxForPm_unknown hself hpeer, renewIdxForPm_peerAddrs, hunknown]
    · have hadopt := h.adopt hdistinct hp hold hunknown hj haddr
      have hsame : p.step pId (.refresh i) =
          p.modify i fun view ↦ renewIdxForPm view (primaryResponse p.master).addr := by
        apply Partition.modify_congr
        intro view hview
        obtain rfl : old = view := Option.some.inj (hold.symm.trans hview)
        rw [refreshView_eq, if_pos hunknown]
      rw [hsame]
      exact ⟨_, hadopt⟩
  · refine ⟨rank, h.of_core (modify_core fun view hview ↦ ?_) (.inl rfl)⟩
    have hknown : view.primaryIdx ≠ ukStatus := fun heq ↦ hasks ⟨view, hview, heq⟩
    rw [refreshView_eq, if_neg hknown]

/-- The step lemma. -/
theorem step_forwardInv (hdistinct : addrs.Nodup) (hnamed : [] ∉ addrs) (h : ForwardInv addrs p)
    (pId : ℕ) (e : Event) : ForwardInv addrs (p.step pId e) := by
  refine ⟨p.step_configured h.toConfigured pId e, ?_⟩
  obtain ⟨rank, last, hranked⟩ := h.ranked
  cases e with
  | round garbage =>
    rcases p.round_cases h.toConfigured pId garbage with ⟨-, hidx, hnodes⟩ | ⟨-, hidx, hnodes⟩ |
      ⟨-, ii, addr, haddr, hserving, hidx, hnodes⟩
    · exact ⟨rank, last, hranked.of_core (by simp [Partition.step, hnodes]) (.inl hidx)⟩
    · exact ⟨rank, last, hranked.of_core (by simp [Partition.step, hnodes]) (.inr hidx)⟩
    · exact ⟨_, _, hranked.elect hdistinct h.toConfigured haddr hserving hidx hnodes⟩
  | shutdown i => exact ⟨rank, last, hranked.of_core (modify_core fun _ _ ↦ rfl) (.inl rfl)⟩
  | startup i => exact ⟨rank, last, hranked.of_core (modify_core fun _ _ ↦ rfl) (.inl rfl)⟩
  | refresh i =>
    obtain ⟨rank', hrank'⟩ := refresh_ranked hdistinct hnamed h.toConfigured hranked pId i
    exact ⟨rank', last, hrank'⟩

end Steps

/-! ## Following the views -/

section Trails

variable {addrs : List Bytes} {p : Partition}

/-- A hop leads from a serving node to the node whose address its view names. -/
theorem nextHop_eq_some (hp : Configured addrs p) {i j : ℕ} (h : nextHop p i = some j) :
    ∃ view addr, p.nodes[i]? = some view ∧ PointsTo view addr ∧ addrs[j]? = some addr := by
  obtain ⟨addr, hforward, hfind⟩ := Option.bind_eq_some_iff.mp h
  obtain ⟨view, hview, haddr⟩ := Option.bind_eq_some_iff.mp hforward
  obtain ⟨hj, hfound, -⟩ := List.findIdx?_eq_some_iff_getElem.mp hfind
  have hnode := hp.node j _ (List.getElem?_eq_getElem hj)
  refine ⟨view, addr, hview, ?_, ?_⟩
  · unfold forwardAddr at haddr
    split at haddr
    · refine ⟨?_, haddr⟩
      unfold peerAddr? at haddr
      by_contra hneg
      rw [if_neg hneg] at haddr
      cases haddr
    · cases haddr
  · rw [hnode.1, Option.some.injEq]
    exact of_decide_eq_true hfound

/-- Where no hop is possible a write comes to rest. -/
theorem stops_of_nextHop (hp : Configured addrs p)
    (hvalid : ∀ (i : ℕ) view, p.nodes[i]? = some view → ValidView view) {i : ℕ}
    (hi : i < p.nodes.length) (h : nextHop p i = none) : Stops p i := by
  have hview : p.nodes[i]? = some p.nodes[i] := List.getElem?_eq_getElem hi
  refine ⟨p.nodes[i], hview, ?_⟩
  rcases hvalid i _ hview with hself | hunknown | ⟨addr, hpoints⟩
  · exact .inl hself
  · exact .inr (.inr hunknown)
  · right
    left
    by_contra hserving
    rw [Bool.not_eq_false] at hserving
    have hne := pointsTo_ne hpoints
    have hforward : forwardAddr p.nodes[i] = some addr := by
      rw [forwardAddr, if_pos ⟨hserving, hne.2, hne.1⟩]
      exact hpoints.2
    have hpeer : addr ∈ p.nodes[i].peerAddrs := by
      have hget := hpoints.2
      unfold peerAddr? at hget
      rw [if_pos hpoints.1] at hget
      exact List.mem_of_getElem? hget
    rw [(hp.node i _ hview).2] at hpeer
    obtain ⟨j, hj⟩ := List.mem_iff_getElem?.mp (List.mem_of_mem_eraseIdx hpeer)
    have hjlt : j < p.nodes.length := by
      rw [hp.length_eq]
      exact (List.getElem?_eq_some_iff.mp hj).1
    have haddr : p.nodes[j].addr = addr := by
      have hnode := (hp.node j _ (List.getElem?_eq_getElem hjlt)).1
      exact Option.some.inj (hnode.symm.trans hj)
    rw [nextHop, hview, Option.bind_some, hforward, Option.bind_some,
      List.findIdx?_eq_none_iff] at h
    exact absurd haddr (of_decide_eq_false (h _ (List.getElem_mem hjlt)))

/-- Node `i` takes itself for the primary. -/
def believesSelf (p : Partition) (i : ℕ) : Bool :=
  p.nodes[i]?.any fun view ↦ view.primaryIdx = mStatus

/-- The measure that grows along every hop. -/
theorem nextHop_lt (hp : Configured addrs p) {rank : ℕ → ℕ} {last : ℕ}
    (h : Ranked addrs rank last p) {i j : ℕ} (hhop : nextHop p i = some j) :
    2 * rank i + (believesSelf p i).toNat < 2 * rank j + (believesSelf p j).toNat := by
  obtain ⟨view, addr, hview, hpoints, hj⟩ := nextHop_eq_some hp hhop
  have hi : believesSelf p i = false := by
    simpa [believesSelf, hview] using (pointsTo_ne hpoints).1
  obtain ⟨hle, hequal⟩ := h.points i view addr j hview hpoints hj
  rw [hi, Bool.toNat_false]
  by_cases hrank : rank i = rank j
  · obtain ⟨target, htarget, hself⟩ := hequal hrank
    have hj' : believesSelf p j = true := by simpa [believesSelf, htarget] using hself
    rw [hj', Bool.toNat_true]
    omega
  · omega

/-- Following the forwarding from node `i` passes each node at most once and ends. -/
structure Terminates (p : Partition) (i : ℕ) : Prop where
  nodup : (trail (nextHop p) p.nodes.length i).Nodup
  short : (trail (nextHop p) p.nodes.length i).length ≤ p.nodes.length
  stops : ∃ last, (trail (nextHop p) p.nodes.length i).getLast? = some last ∧ Stops p last

theorem ForwardInv.terminates (h : ForwardInv addrs p) {i : ℕ} (hi : i < p.nodes.length) :
    Terminates p i := by
  obtain ⟨rank, last, hranked⟩ := h.ranked
  have hgrows := fun i j ↦ nextHop_lt h.toConfigured hranked (i := i) (j := j)
  have hplaces : ∀ a b, a ∈ Finset.range p.nodes.length → nextHop p a = some b →
      b ∈ Finset.range p.nodes.length := by
    intro a b _ hhop
    obtain ⟨-, addr, -, -, hb⟩ := nextHop_eq_some h.toConfigured hhop
    rw [Finset.mem_range, h.length_eq]
    exact (List.getElem?_eq_some_iff.mp hb).1
  have hmem : i ∈ Finset.range p.nodes.length := Finset.mem_range.mpr hi
  have hcard : (Finset.range p.nodes.length).card = p.nodes.length := Finset.card_range _
  have hlast : final (nextHop p) p.nodes.length i ∈ Finset.range p.nodes.length :=
    forall_mem_trail hplaces _ hmem _ (List.mem_of_getLast? (getLast?_trail _ _))
  constructor
  · exact trail_nodup hgrows _ _
  · exact (length_trail_le hgrows hplaces _ hmem).trans hcard.le
  · refine ⟨_, getLast?_trail _ _, ?_⟩
    apply stops_of_nextHop h.toConfigured hranked.valid (Finset.mem_range.mp hlast)
    exact next_final hgrows hplaces hcard.le hmem

end Trails

/-- In every state of every run, a write that follows the views from any node of a partition
visits no node twice and comes to rest within as many hops as there are nodes. -/
theorem forwarding_never_loops (config : ClusterConfig) {c : Cluster}
    (h : Reaches clusterMachine anyStep (start config) c) (pId : Fin config.partitions.length) :
    ∃ p, c.Holds pId p ∧ p.nodes.length = (config.partitions.get pId).length ∧
      ∀ i < p.nodes.length, Terminates p i := by
  have hany : Reaches clusterMachine (everywhere fun _ _ ↦ True) (start config) c :=
    h.mono fun _ _ _ _ _ _ _ _ ↦ trivial
  obtain ⟨p, hholds, hp⟩ := reaches_partition hany pId
  have hdistinct := config.distinct _ (List.get_mem config.partitions pId)
  have hnamed := config.named _ (List.get_mem config.partitions pId)
  have hinv : ForwardInv (config.partitions.get pId) p := by
    refine hp.invariant (start_forwardInv _) ?_
    rintro q e r hq - hstep
    cases hstep
    exact step_forwardInv hdistinct hnamed hq pId e
  exact ⟨p, hholds, hinv.length_eq, fun i hi ↦ hinv.terminates hi⟩

/-- One partition with three nodes. -/
def threeNodes : ClusterConfig where
  partitions := [[lit "A", lit "B", lit "C"]]
  partitions_ne := by decide
  nodes_ne := by decide
  distinct := by decide
  named := by decide

/-- Two elections; node 2 misses the second and still points to node 0. -/
def staleViews : List ClusterEvent :=
  [.round fun _ ↦ false, .shutdown 0 0, .shutdown 0 2, .round fun _ ↦ false, .startup 0 0,
    .startup 0 2]

theorem forwarding_never_loops_staleViews :
    ∃ p, (staleViews.foldl Cluster.step (start threeNodes)).Holds 0 p ∧ p.nodes.length = 3 ∧
      ∀ i < p.nodes.length, Terminates p i :=
  forwarding_never_loops threeNodes (reaches_of_run (rfl : run clusterMachine _ staleViews = _))
    ⟨0, by decide⟩

end PennCloud.Coordinator.Forwarding
