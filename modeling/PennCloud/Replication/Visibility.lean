import PennCloud.Coordinator.SplitBrain
import PennCloud.Replication.Serving

/-!
# Visibility of acknowledged writes

Runs of a partition under client writes, rounds of the coordinator and admin commands, with the
writes that were started kept as a history. A request is one step: no `AdminStartup` falls between the
multicast and the reply of a write. An executed write reaches every node that serves,
so a serving node can only lack an acknowledged write that was executed while the node was shut
down: `AdminStartup` brings a node back without any transfer of the data it missed.
-/

open PennCloud.KV.TabletCells PennCloud.KV.PrimaryView PennCloud.KV.Handlers
open PennCloud.Coordinator PennCloud.Coordinator.Election PennCloud.Coordinator.Views
open PennCloud.Coordinator.Forwarding PennCloud.Library.Runs
open PennCloud.Replication.Serving

namespace PennCloud.Replication.Visibility

/-- A write that a client started, the reply, and the nodes that were out of service. -/
structure Entry where
  request : WriteRequest
  reply : Reply
  absent : List ℕ

/-- The partition and the writes started so far, the latest first. -/
structure System where
  replicas : Replicas
  writes : List Entry := []

inductive Event
  | round (garbage : Bool)
  | shutdown (node : ℕ)
  | startup (node : ℕ)
  | write (node : ℕ) (req : WriteRequest)

/-- A step of the coordinator or of an admin. -/
def System.govern (s : System) (pId : ℕ) (e : Coordinator.Views.Event) : System :=
  { s with replicas := s.replicas.withControl (s.replicas.control.step pId e) }

/-- The nodes that a write does not reach. -/
def absentNodes (s : Replicas) : List ℕ :=
  (List.range s.nodes.length).filter fun j ↦ !serving s.control.nodes j

def System.step (pId : ℕ) (s : System) : Event → Option System
  | .round garbage => some (s.govern pId (.round garbage))
  | .shutdown i => some (s.govern pId (.shutdown i))
  | .startup i => if i ∈ s.replicas.dead then some s else some (s.govern pId (.startup i))
  | .write i req =>
    (s.replicas.serve (s.replicas.nodes.length + 1) i req).map fun r ↦
      { replicas := r.1
        writes := { request := req, reply := r.2, absent := absentNodes s.replicas } ::
          s.writes }

def machine (pId : ℕ) : Machine System Event where
  step s e := s.step pId e

/-- The nodes start up with any tablets. -/
def start (addrs : List Bytes) (tablets : ℕ → Tablet) : System where
  replicas :=
    { master := initialPartition addrs
      nodes := (startNodes addrs).mapIdx fun i view ↦
        { toNodeView := view, tablet := tablets i } }

/-- The last write to a cell that was started. -/
def System.lastWrite (s : System) (cell : Bytes × Bytes) : Option Entry :=
  s.writes.find? fun e ↦ e.request.cell = cell

/-- The last write to the cell was answered `OK`. -/
def System.Acked (s : System) (cell : Bytes × Bytes) (e : Entry) : Prop :=
  s.lastWrite cell = some e ∧ e.reply.status.code = .ok

/-- At every serving node a `Get` reports the outcome of the last write, if it was acknowledged. -/
def Visible (s : System) : Prop :=
  ∀ cell e, s.Acked cell e → ∀ node ∈ s.replicas.nodes, node.statusServ = true →
    Reports cell e.request.outcome (get node { row := cell.1, col := cell.2 })

/-- Acknowledged writes are visible in every run whose steps satisfy the condition. -/
def AckedWritesVisible (config : ClusterConfig) (pId : Fin config.partitions.length)
    (tablets : ℕ → Tablet) (ok : System → Event → Prop) : Prop :=
  ∀ s, Reaches (machine pId) ok (start (config.partitions.get pId) tablets) s → Visible s

/-- A node that comes back already holds the outcome of every acknowledged last write of a cell
that was executed while it was out of service. -/
def MissedNothing (s : System) : Event → Prop
  | .startup i => i ∉ s.replicas.dead → ∀ node, s.replicas.nodes[i]? = some node →
      node.statusServ = false → ∀ cell e, s.Acked cell e → i ∈ e.absent →
        cells node.tablet cell = e.request.outcome
  | _ => True

/-! ## The invariant -/

/-- Every node that was reached by the acknowledged last write of a cell, or is back in service,
holds its outcome. -/
structure Held (s : System) : Prop where
  cell : ∀ cell e, s.Acked cell e → ∀ (i : ℕ) node, s.replicas.nodes[i]? = some node →
    node.statusServ = true ∨ i ∉ e.absent → cells node.tablet cell = e.request.outcome

theorem Held.visible {s : System} (h : Held s) : Visible s := by
  intro cell e hacked node hnode hserving
  obtain ⟨i, hi⟩ := List.mem_iff_getElem?.mp hnode
  apply (reports_get_iff hserving cell _).mpr
  exact h.cell cell e hacked i node hi (.inl hserving)

theorem start_held (addrs : List Bytes) (tablets : ℕ → Tablet) : Held (start addrs tablets) where
  cell := by
    rintro cell e ⟨hlast, -⟩
    cases hlast

/-- Steps of the coordinator and the admins do not touch the tablets. -/
theorem govern_node {s : System} {pId : ℕ} {e : Coordinator.Views.Event} {i : ℕ} {node : KVNode}
    (h : (s.govern pId e).replicas.nodes[i]? = some node) :
    ∃ old, s.replicas.nodes[i]? = some old ∧ node.tablet = old.tablet ∧
      (s.replicas.control.step pId e).nodes[i]? = some node.toNodeView := by
  simp only [System.govern, Replicas.withControl, List.getElem?_zipWith] at h
  split at h
  · next old view hold hview =>
    cases h
    exact ⟨old, hold, rfl, hview⟩
  · cases h

/-- The invariant over a step that leaves the history and the tablets, and takes nobody into
service who lacks an acknowledged write. -/
theorem Held.of_govern {s : System} (h : Held s) {pId : ℕ} {e : Coordinator.Views.Event}
    (hserving : ∀ (i : ℕ) node view, s.replicas.nodes[i]? = some node →
      (s.replicas.control.step pId e).nodes[i]? = some view → view.statusServ = true →
      node.statusServ = true ∨ ∀ cell entry, s.Acked cell entry → i ∈ entry.absent →
        cells node.tablet cell = entry.request.outcome) : Held (s.govern pId e) where
  cell := by
    intro cell entry hacked i node hnode hcond
    obtain ⟨old, hold, htablet, hview⟩ := govern_node hnode
    have hacked' : s.Acked cell entry := hacked
    rw [htablet]
    by_cases habsent : i ∈ entry.absent
    · have hup : node.statusServ = true := hcond.resolve_right (not_not.mpr habsent)
      rcases hserving i old node.toNodeView hold hview hup with holdup | hdata
      · exact h.cell cell entry hacked' i old hold (.inl holdup)
      · exact hdata cell entry hacked' habsent
    · exact h.cell cell entry hacked' i old hold (.inr habsent)

/-- The invariant over a write. -/
theorem Held.of_write {s : System} (h : Held s) (pId : ℕ) {i : ℕ} {req : WriteRequest}
    {t : System} (hstep : s.step pId (.write i req) = some t) : Held t where
  cell := by
    obtain ⟨r, hserve, rfl⟩ := Option.map_eq_some_iff.mp hstep
    have heffect := serve_effect pId hserve
    rintro cell entry ⟨hlast, hcode⟩ j node' hnode' hcond
    obtain ⟨node, hnode, hnodeEffect⟩ := heffect.node j node' hnode'
    simp only [System.lastWrite, List.find?_cons] at hlast
    split at hlast
    · next hcell =>
      obtain rfl := Option.some.inj hlast
      have hcell' : req.cell = cell := of_decide_eq_true hcell
      obtain ⟨hsame, hdata⟩ := hnodeEffect.ok hcode
      rw [← hcell']
      apply hdata
      rcases hcond with hup | hreached
      · exact hsame.symm.trans hup
      · by_contra hdown
        apply hreached
        have hlt : j < s.replicas.nodes.length := (List.getElem?_eq_some_iff.mp hnode).1
        have hview : s.replicas.control.nodes[j]? = some node.toNodeView := by
          rw [Replicas.control_getElem?, hnode, Option.map_some]
        have hnot : serving s.replicas.control.nodes j = false := by
          rw [← Bool.not_eq_true, serving_eq_true_iff hview]
          exact hdown
        exact List.mem_filter.mpr ⟨List.mem_range.mpr hlt, by rw [hnot]; rfl⟩
    · next hcell =>
      have hne : cell ≠ req.cell := fun heq ↦ of_decide_eq_false hcell heq.symm
      rw [hnodeEffect.frame cell hne]
      exact h.cell cell entry ⟨hlast, hcode⟩ j node hnode (hcond.imp_left hnodeEffect.serving)

/-- The step lemma. -/
theorem Held.step {s t : System} (h : Held s) {pId : ℕ} {e : Event} (hok : MissedNothing s e)
    (hstep : s.step pId e = some t) : Held t := by
  cases e with
  | round garbage =>
    cases hstep
    apply h.of_govern
    intro i node view hnode hview hup
    left
    have hsame := s.replicas.control.round_statusServ pId garbage i
    have hold : s.replicas.control.nodes[i]? = some node.toNodeView := by
      rw [Replicas.control_getElem?, hnode, Option.map_some]
    rw [hold] at hsame
    have hround : (s.replicas.control.round pId garbage).nodes[i]? = some view := hview
    rw [hround] at hsame
    exact (Option.some.inj hsame).symm.trans hup
  | shutdown i =>
    cases hstep
    apply h.of_govern
    intro j node view hnode hview hup
    left
    have hold : s.replicas.control.nodes[j]? = some node.toNodeView := by
      rw [Replicas.control_getElem?, hnode, Option.map_some]
    rw [Coordinator.Views.Partition.step, Partition.modify_getElem?, hold] at hview
    split at hview
    · cases hview
      cases hup
    · cases hview
      exact hup
  | startup i =>
    simp only [System.step] at hstep
    split at hstep
    · cases hstep
      exact h
    · next halive =>
      cases hstep
      apply h.of_govern
      intro j node view hnode hview hup
      have hold : s.replicas.control.nodes[j]? = some node.toNodeView := by
        rw [Replicas.control_getElem?, hnode, Option.map_some]
      rw [Coordinator.Views.Partition.step, Partition.modify_getElem?, hold] at hview
      split at hview
      · next hij =>
        subst hij
        cases hserving : node.statusServ with
        | true => exact .inl rfl
        | false => exact .inr (hok halive node hnode hserving)
      · cases hview
        exact .inl hup
  | write i req => exact h.of_write pId hstep

/-- The run lemma. -/
theorem reaches_held {pId : ℕ} {addrs : List Bytes} {tablets : ℕ → Tablet} {s : System}
    (h : Reaches (machine pId) MissedNothing (start addrs tablets) s) : Held s := by
  refine h.invariant (start_held addrs tablets) ?_
  intro t e u ht hok hstep
  exact ht.step hok hstep

/-- A node that comes back without an acknowledged write shows that it lacks it. -/
theorem not_visible_of_missed {pId : ℕ} {s t : System} {i : ℕ}
    (hstep : s.step pId (.startup i) = some t) (hmissed : ¬MissedNothing s (.startup i)) :
    ¬Visible t := by
  intro hvisible
  simp only [MissedNothing, not_forall] at hmissed
  obtain ⟨halive, node, hnode, -, cell, entry, hacked, -, hlacks⟩ := hmissed
  rw [System.step, if_neg halive, Option.some.injEq] at hstep
  subst hstep
  have hview : (s.replicas.control.step pId (.startup i)).nodes[i]? =
      some (adminStartup node.toNodeView) := by
    rw [Coordinator.Views.Partition.step, Partition.modify_getElem?, if_pos rfl,
      Replicas.control_getElem?, hnode, Option.map_some, Option.map_some]
  have hback : (s.govern pId (.startup i)).replicas.nodes[i]? =
      some { node with toNodeView := adminStartup node.toNodeView } := by
    simp only [System.govern, Replicas.withControl, List.getElem?_zipWith, hnode, hview]
  have hreport := hvisible cell entry hacked _ (List.mem_of_getElem? hback) rfl
  rw [reports_get_iff rfl] at hreport
  exact hlacks hreport

/-! ## No request hangs -/

theorem withControl_control {s : Replicas} {p : Partition}
    (h : p.nodes.length = s.nodes.length) : (s.withControl p).control = p := by
  have hnodes : (s.withControl p).control.nodes = p.nodes := by
    apply List.ext_getElem?
    intro i
    rw [Replicas.control_getElem?]
    simp only [Replicas.withControl, List.getElem?_zipWith]
    rcases lt_or_ge i s.nodes.length with hlt | hge
    · have hlt' : i < p.nodes.length := by omega
      simp only [List.getElem?_eq_getElem hlt, List.getElem?_eq_getElem hlt', Option.map_some]
    · have hge' : p.nodes.length ≤ i := by omega
      simp only [List.getElem?_eq_none hge, List.getElem?_eq_none hge', Option.map_none]
  calc
    (s.withControl p).control = ⟨p.master, (s.withControl p).control.nodes⟩ := rfl
    _ = p := by rw [hnodes]

theorem start_control (addrs : List Bytes) (tablets : ℕ → Tablet) :
    (start addrs tablets).replicas.control = startPartition addrs := by
  have hnodes : (start addrs tablets).replicas.control.nodes = startNodes addrs := by
    apply List.ext_getElem?
    intro i
    rw [Replicas.control_getElem?]
    simp [start, Function.comp_def]
  calc
    (start addrs tablets).replicas.control =
        ⟨initialPartition addrs, (start addrs tablets).replicas.control.nodes⟩ := rfl
    _ = startPartition addrs := by rw [hnodes]; rfl

section Progress

variable {addrs : List Bytes} (hdistinct : addrs.Nodup) (hnamed : [] ∉ addrs)

include hdistinct hnamed

theorem govern_forwardInv {s : System} (h : ForwardInv addrs s.replicas.control) (pId : ℕ)
    (e : Coordinator.Views.Event) : ForwardInv addrs (s.govern pId e).replicas.control := by
  have hnext := step_forwardInv hdistinct hnamed h pId e
  have hlength : (s.replicas.control.step pId e).nodes.length = s.replicas.nodes.length := by
    rw [hnext.length_eq, ← h.length_eq, Replicas.control, List.length_map]
  rw [System.govern, withControl_control hlength]
  exact hnext

theorem step_control {pId : ℕ} {s t : System} {e : Event} (h : ForwardInv addrs s.replicas.control)
    (hstep : s.step pId e = some t) : ForwardInv addrs t.replicas.control := by
  cases e with
  | round garbage =>
    cases hstep
    exact govern_forwardInv hdistinct hnamed h pId _
  | shutdown i =>
    cases hstep
    exact govern_forwardInv hdistinct hnamed h pId _
  | startup i =>
    simp only [System.step] at hstep
    split at hstep
    · cases hstep
      exact h
    · cases hstep
      exact govern_forwardInv hdistinct hnamed h pId _
  | write i req =>
    obtain ⟨r, hserve, rfl⟩ := Option.map_eq_some_iff.mp hstep
    refine (serve_effect pId hserve).control.invariant h ?_
    rintro p e q hp - hnext
    cases hnext
    exact step_forwardInv hdistinct hnamed hp pId e

/-- Every step of every run is possible; in particular every write is answered. -/
theorem step_isSome {pId : ℕ} {tablets : ℕ → Tablet} {s : System}
    (h : Reaches (machine pId) anyStep (start addrs tablets) s) (e : Event) :
    (s.step pId e).isSome := by
  have hinv : ForwardInv addrs s.replicas.control := by
    refine h.invariant ?_ fun _ _ _ ht _ hstep ↦ step_control hdistinct hnamed ht hstep
    rw [start_control]
    exact start_forwardInv addrs
  cases e with
  | round garbage => rfl
  | shutdown i => rfl
  | startup i =>
    simp only [System.step]
    split
    · rfl
    · rfl
  | write i req =>
    rw [System.step, Option.isSome_map]
    exact serve_isSome hdistinct hnamed hinv i req

end Progress

/-- Acknowledged writes stay visible in every run in which each node that comes back missed
nothing; a node that comes back having missed something shows it at once; and no run gets
stuck. -/
theorem acked_writes_visible (config : ClusterConfig) (pId : Fin config.partitions.length)
    (tablets : ℕ → Tablet) :
    AckedWritesVisible config pId tablets MissedNothing ∧
    (∀ s t i, s.step pId (.startup i) = some t → ¬MissedNothing s (.startup i) → ¬Visible t) ∧
    ∀ s, Reaches (machine pId) anyStep (start (config.partitions.get pId) tablets) s →
      ∀ e, (s.step pId e).isSome := by
  have hdistinct := config.distinct _ (List.get_mem config.partitions pId)
  have hnamed := config.named _ (List.get_mem config.partitions pId)
  refine ⟨fun s hreach ↦ (reaches_held hreach).visible, fun s t i hstep hmissed ↦ ?_,
    fun s hreach e ↦ step_isSome hdistinct hnamed hreach e⟩
  exact not_visible_of_missed hstep hmissed

/-- One partition with two nodes. -/
def twoNodes : ClusterConfig := SplitBrain.twoNodes

/-- A write while node 1 is shut down, and node 1 back in service. -/
def outage : List Event :=
  [.round false, .shutdown 1,
    .write 0 (.put { row := lit "row", col := lit "col", value := lit "value" }), .startup 1]

/-- The last write to the cell was answered `OK`, and node 1, which serves, does not find it. -/
def hidesWrite (s : System) : Bool :=
  (s.lastWrite (lit "row", lit "col")).any (fun entry ↦
    entry.reply.status.code = .ok && entry.request.outcome = some (lit "value")) &&
  s.replicas.nodes[1]?.any fun node ↦ node.statusServ &&
    (get node { row := lit "row", col := lit "col" }).status.code = .notFound

theorem outage_hides_write : ¬AckedWritesVisible twoNodes ⟨0, by decide⟩ (fun _ ↦ ∅) anyStep := by
  intro hsafe
  have hrun : (run (machine 0) (start [lit "A", lit "B"] fun _ ↦ ∅) outage).map hidesWrite =
      some true := by decide
  obtain ⟨s, hreach, hhides⟩ := reaches_of_run_check hrun
  simp only [hidesWrite, Bool.and_eq_true, Option.any_eq_true, decide_eq_true_eq] at hhides
  obtain ⟨⟨entry, hlast, hcode, houtcome⟩, node, hnode, hserving, hnotFound⟩ := hhides
  have hreport := hsafe s hreach (lit "row", lit "col") entry ⟨hlast, hcode⟩ node
    (List.mem_of_getElem? hnode) hserving
  rw [houtcome] at hreport
  have hfound := hreport.1
  rw [hnotFound] at hfound
  cases hfound

end PennCloud.Replication.Visibility
