import PennCloud.Coordinator.Views

/-!
# Two primaries in one partition

A node acts as primary while it serves and takes itself for the primary. `AdminStartup` only
flips the serving flag back, so a node that was the primary before it was shut down comes back
as one even where the coordinator has meanwhile elected another node, and as long as that node
stays alive no round tells it otherwise. Without such a step every round leaves at most one
acting primary, and it is the one the coordinator records.
-/

open PennCloud.KV.TabletCells PennCloud.KV.PrimaryView PennCloud.Coordinator.Election
open PennCloud.Coordinator.Views PennCloud.Library.Runs

namespace PennCloud.Coordinator.SplitBrain

/-- Node `i` serves and takes itself for the primary. -/
def ActsAsPrimary (p : Partition) (i : ℕ) : Prop :=
  ∃ view, p.nodes[i]? = some view ∧ view.statusServ = true ∧ view.primaryIdx = mStatus

/-- At most one node acts as primary, and it is the recorded one. -/
structure Unsplit (p : Partition) : Prop where
  unique : ∀ i j, ActsAsPrimary p i → ActsAsPrimary p j → i = j
  recorded : ∀ i, ActsAsPrimary p i → p.master.primaryIdx = i

/-- No partition is split after a round, in any run whose steps satisfy the condition. -/
def NoSplitBrain (config : ClusterConfig) (ok : Partition → Event → Prop) : Prop :=
  ∀ c garbage, Reaches clusterMachine (everywhere ok) (start config) c →
    ∀ pId : Fin config.partitions.length, ∃ p, (c.round garbage).Holds pId p ∧ Unsplit p

/-- A node that comes back as primary is the recorded one, or nobody is recorded. -/
def StartsFresh (p : Partition) : Event → Prop
  | .startup i => ∀ view, p.nodes[i]? = some view → view.statusServ = false →
      view.primaryIdx = mStatus → p.master.primaryIdx = i ∨ p.master.primaryIdx = -1
  | _ => True

/-- Between rounds an acting primary may also be left over from a partition that had no node
alive at the last round. -/
structure PrimaryInv (addrs : List Bytes) (p : Partition) : Prop extends Configured addrs p where
  acting : ∀ i, ActsAsPrimary p i → p.master.primaryIdx = i ∨ p.master.primaryIdx = -1

theorem Unsplit.of_recorded {p : Partition}
    (h : ∀ i : ℕ, ActsAsPrimary p i → p.master.primaryIdx = i) : Unsplit p where
  unique := by
    intro i j hi hj
    have heq : (i : ℤ) = j := (h i hi).symm.trans (h j hj)
    omega
  recorded := h

theorem start_primaryInv (addrs : List Bytes) : PrimaryInv addrs (startPartition addrs) where
  toConfigured := startPartition_configured addrs
  acting := fun _ _ ↦ .inr rfl

theorem serving_of_acts {p : Partition} {i : ℕ} (h : ActsAsPrimary p i) :
    serving p.nodes i = true := by
  obtain ⟨view, hview, hserv, -⟩ := h
  exact (serving_eq_true_iff hview).mpr hserv

section Partition

variable {addrs : List Bytes} (hdistinct : addrs.Nodup) {p : Partition}

include hdistinct

/-- A serving node that takes itself for the primary after it was told an address is the node of
that address. -/
theorem eq_of_renewed {i j : ℕ} {view : NodeView} {addr : Bytes} (hview : IsNode addrs i view)
    (hj : addrs[j]? = some addr) (h : (renewIdxForPm view addr).primaryIdx = mStatus) :
    i = j := by
  have haddr : addr = view.addr := (renewIdxForPm_eq_mStatus_iff view addr).mp h
  have hi := (List.getElem?_eq_some_iff.mp hview.1).1
  refine (List.getElem?_inj hi hdistinct).mp ?_
  rw [hview.1, hj, haddr]

/-- Every round heals what the invariant still allows. -/
theorem round_unsplit (h : PrimaryInv addrs p) (pId : ℕ) (garbage : Bool) :
    Unsplit (p.round pId garbage) := by
  refine Unsplit.of_recorded fun i hi ↦ ?_
  rcases p.round_cases h.toConfigured pId garbage with ⟨hstays, hidx, hnodes⟩ |
    ⟨hdead, -, hnodes⟩ | ⟨-, ii, addr, haddr, -, hidx, hnodes⟩
  · have hold : ActsAsPrimary p i := by rwa [ActsAsPrimary, hnodes] at hi
    rw [hidx]
    refine (h.acting i hold).resolve_right fun hnone ↦ ?_
    have hnonneg := hstays.1
    omega
  · have hold : ActsAsPrimary p i := by rwa [ActsAsPrimary, hnodes] at hi
    have hserv := serving_of_acts hold
    rw [hdead i] at hserv
    cases hserv
  · obtain ⟨view, hview, hserv, hself⟩ := hi
    rw [hnodes, Option.map_eq_some_iff] at hview
    obtain ⟨old, hold, rfl⟩ := hview
    rw [primaryUpdate_statusServ] at hserv
    rw [primaryUpdate_serving hserv] at hself
    rw [hidx, eq_of_renewed hdistinct (h.node i old hold) haddr hself]

omit hdistinct in
/-- Changing one node, the others act as before. -/
theorem modify_acting (h : PrimaryInv addrs p) {i : ℕ} {f : NodeView → NodeView}
    (hf : ∀ view, p.nodes[i]? = some view → (f view).statusServ = true →
      (f view).primaryIdx = mStatus → p.master.primaryIdx = i ∨ p.master.primaryIdx = -1) :
    ∀ j, ActsAsPrimary (p.modify i f) j →
      (p.modify i f).master.primaryIdx = j ∨ (p.modify i f).master.primaryIdx = -1 := by
  rintro j ⟨view, hview, hserv, hself⟩
  rw [Partition.modify_getElem?] at hview
  split at hview
  · next hij =>
    obtain ⟨old, hold, rfl⟩ := Option.map_eq_some_iff.mp hview
    subst hij
    exact hf old hold hserv hself
  · exact h.acting j ⟨view, hview, hserv, hself⟩

/-- The step lemma. -/
theorem step_primaryInv (h : PrimaryInv addrs p) (pId : ℕ) {e : Event}
    (hok : StartsFresh p e) : PrimaryInv addrs (p.step pId e) := by
  refine ⟨p.step_configured h.toConfigured pId e, ?_⟩
  cases e with
  | round garbage => exact fun i hi ↦ .inl ((round_unsplit hdistinct h pId garbage).recorded i hi)
  | shutdown i =>
    refine modify_acting h fun view _ hserv _ ↦ ?_
    cases hserv
  | startup i =>
    refine modify_acting h fun view hview _ hself ↦ ?_
    cases hserv : view.statusServ with
    | false => exact hok view hview hserv hself
    | true => exact h.acting i ⟨view, hview, hserv, hself⟩
  | refresh i =>
    refine modify_acting h fun view hview hserv hself ↦ ?_
    rw [refreshView_statusServ] at hserv
    rw [refreshView_eq] at hself
    split at hself
    · rcases primaryResponse_addr h.toConfigured with ⟨hnone, -⟩ | ⟨j, hj, haddr⟩
      · exact .inr hnone
      · rw [hj, eq_of_renewed hdistinct (h.node i view hview) haddr hself]
        exact .inl rfl
    · exact h.acting i ⟨view, hview, hserv, hself⟩

end Partition

theorem serving_startup {p : Partition} {i j : ℕ} (h : serving p.nodes j = true) :
    serving (p.modify i adminStartup).nodes j = true := by
  cases hold : p.nodes[j]? with
  | none =>
    simp only [serving, hold] at h
    cases h
  | some old =>
    by_cases hij : i = j
    · have hnew : (p.modify i adminStartup).nodes[j]? = some (adminStartup old) := by
        rw [Partition.modify_getElem?, if_pos hij, hold, Option.map_some]
      exact (serving_eq_true_iff hnew).mpr rfl
    · have hnew : (p.modify i adminStartup).nodes[j]? = some old := by
        rw [Partition.modify_getElem?, if_neg hij, hold]
      exact (serving_eq_true_iff hnew).mpr ((serving_eq_true_iff hold).mp h)

/-- A node that comes back as primary beside a recorded one that is alive: the next round keeps
the recorded primary, and both act. -/
theorem stale_startup_splits {addrs : List Bytes} {p : Partition} (h : Configured addrs p) {i : ℕ}
    {view : NodeView} (hview : p.nodes[i]? = some view) (hself : view.primaryIdx = mStatus)
    (hother : p.master.primaryIdx ≠ i) (hstays : PrimaryStays p.master (serving p.nodes))
    (pId : ℕ) (garbage : Bool) : ¬Unsplit ((p.step pId (.startup i)).round pId garbage) := by
  intro hunsplit
  have hstarted : (p.modify i adminStartup).nodes[i]? = some (adminStartup view) := by
    rw [Partition.modify_getElem?, if_pos rfl, hview, Option.map_some]
  have hkept : PrimaryStays (p.modify i adminStartup).master
      (serving (p.modify i adminStartup).nodes) := ⟨hstays.1, serving_startup hstays.2⟩
  rcases (p.modify i adminStartup).round_cases (p.step_configured h pId (.startup i)) pId garbage
    with ⟨-, hidx, hnodes⟩ | ⟨hdead, -, -⟩ | ⟨hgone, -⟩
  · have hacts : ActsAsPrimary ((p.step pId (.startup i)).round pId garbage) i :=
      ⟨adminStartup view, by rw [Partition.step, hnodes, hstarted], rfl, hself⟩
    exact hother (hidx.symm.trans (hunsplit.recorded i hacts))
  · have hserv := serving_startup (i := i) hstays.2
    rw [hdead] at hserv
    cases hserv
  · exact hgone hkept

/-- A step that violates the condition while the recorded primary is alive. -/
def StaleStartup (p : Partition) (i : ℕ) : Prop :=
  ¬StartsFresh p (.startup i) ∧ PrimaryStays p.master (serving p.nodes)

/-- The run lemma. -/
theorem reaches_primaryInv {addrs : List Bytes} (hdistinct : addrs.Nodup) {pId : ℕ} {p : Partition}
    (h : Reaches (partitionMachine pId) StartsFresh (startPartition addrs) p) :
    PrimaryInv addrs p := by
  refine h.invariant (start_primaryInv addrs) ?_
  rintro q e r hq hok hstep
  cases hstep
  exact step_primaryInv hdistinct hq pId hok

/-- Rounds leave no partition split in any run without a stale restart; and in every run a stale
restart beside a live recorded primary splits its partition in the next round. -/
theorem no_split_brain_of_fresh_startups (config : ClusterConfig) :
    NoSplitBrain config StartsFresh ∧
    ∀ c, Reaches clusterMachine (everywhere fun _ _ ↦ True) (start config) c →
      ∀ (pId : Fin config.partitions.length) p i, c.Holds pId p → StaleStartup p i →
        ∀ garbage, ∃ q, ((c.step (.startup pId i)).round garbage).Holds pId q ∧ ¬Unsplit q := by
  constructor
  · intro c garbage hreach pId
    obtain ⟨p, hholds, hp⟩ := reaches_partition hreach pId
    have hdistinct := config.distinct _ (List.get_mem config.partitions pId)
    have hinv := reaches_primaryInv hdistinct hp
    exact ⟨_, c.round_holds hholds garbage, round_unsplit hdistinct hinv _ _⟩
  · rintro c hreach pId p i hholds ⟨hstale, hstays⟩ garbage
    obtain ⟨p', hholds', hp⟩ := reaches_partition hreach pId
    obtain rfl : p' = p := hholds'.unique hholds
    have hnext : (c.step (.startup pId i)).Holds pId (p'.step pId (.startup i)) := by
      simpa only [ClusterEvent.at, if_true, Option.elim_some] using
        c.step_holds hholds (.startup pId i)
    refine ⟨_, (c.step (.startup pId i)).round_holds hnext garbage, ?_⟩
    simp only [StartsFresh, not_forall, not_or] at hstale
    obtain ⟨view, hview, -, hself, hother, -⟩ := hstale
    exact stale_startup_splits (reaches_configured hp) hview hself hother hstays _ _

/-- One partition with two nodes. -/
def twoNodes : ClusterConfig where
  partitions := [[lit "A", lit "B"]]
  partitions_ne := by decide
  nodes_ne := by decide
  distinct := by decide
  named := by decide

/-- Shut the primary down, let the next round elect the other node, and start it up again. -/
def restart : List ClusterEvent :=
  [.round fun _ ↦ false, .shutdown 0 0, .round fun _ ↦ false, .startup 0 0]

/-- After the next round both nodes act as primary. -/
theorem restart_splits_brain : ¬NoSplitBrain twoNodes fun _ _ ↦ True := by
  intro hsafe
  have hrun : run clusterMachine (start twoNodes) restart =
      some (restart.foldl Cluster.step (start twoNodes)) := rfl
  have hreach : Reaches clusterMachine (everywhere fun _ _ ↦ True) _ _ :=
    (reaches_of_run hrun).mono fun _ _ _ _ _ _ _ _ ↦ trivial
  obtain ⟨p, ⟨hmaster, hnodes⟩, hunsplit⟩ := hsafe _ (fun _ ↦ false) hreach ⟨0, by decide⟩
  have hidx : some p.master.primaryIdx = some 1 := by
    calc
      some p.master.primaryIdx = (some p.master).map (·.primaryIdx) := rfl
      _ = some 1 := by
        rw [← hmaster]
        decide
  have hview : p.nodes[0]?.map (fun view ↦ (view.statusServ, view.primaryIdx)) =
      some (true, mStatus) := by
    calc
      p.nodes[0]?.map _ = (some p.nodes).bind fun nodes ↦ nodes[0]?.map _ := rfl
      _ = some (true, mStatus) := by
        rw [← hnodes]
        decide
  obtain ⟨view, hget, hpair⟩ := Option.map_eq_some_iff.mp hview
  have hrecorded := hunsplit.recorded 0
    ⟨view, hget, congrArg Prod.fst hpair, congrArg Prod.snd hpair⟩
  rw [Option.some.inj hidx] at hrecorded
  cases hrecorded

end PennCloud.Coordinator.SplitBrain
