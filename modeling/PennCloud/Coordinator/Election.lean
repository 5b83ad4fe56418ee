import PennCloud.KV.TabletCells
import Mathlib.Data.List.Indexes

/-!
# Primary election at the coordinator

Once a second the coordinator checks the health of every node and then goes through its
partitions. A partition whose primary is alive is left alone. Otherwise the alive node of
lowest index becomes the primary and is announced to every node of the partition; without an
alive node the index falls back to `-1`. The loop reads `nodes[primary_idx].alive` also for
the index `-1`; the value found there is an input of the round.
-/

open PennCloud.KV.TabletCells

namespace PennCloud.Coordinator.Election

structure MasterNodeView where
  addr : Bytes
  alive : Bool := false
  deriving DecidableEq

structure MasterPartitionView where
  nodes : List MasterNodeView
  primaryIdx : ℤ := -1
  deriving DecidableEq

/-- The partitions of a configuration file: at least one, each with at least one node. -/
structure Config where
  partitions : List (List Bytes)
  partitions_ne : partitions ≠ []
  nodes_ne : ∀ nodes ∈ partitions, nodes ≠ []

/-- The constructors of the views: nobody is alive and there is no primary. -/
def initialPartition (addrs : List Bytes) : MasterPartitionView where
  nodes := addrs.map fun addr ↦ { addr := addr }

def initial (config : Config) : List MasterPartitionView := config.partitions.map initialPartition

/-- One `PrimaryUpdate` call: its target and the address it carries. -/
structure PrimaryCall where
  partition : ℕ
  node : ℕ
  addr : Bytes
  deriving DecidableEq

/-- What a round meets: the outcome of `HealthCheck` at every node, and for every partition the
value of the out-of-range read. -/
structure Round where
  healthy : ℕ → ℕ → Bool
  garbage : ℕ → Bool

/-- `_checknodehealth` at every node of a partition. -/
def checkNodes (partition : MasterPartitionView) (healthy : ℕ → Bool) : MasterPartitionView :=
  { partition with nodes := partition.nodes.mapIdx fun j node ↦ { node with alive := healthy j } }

/-- `nodes[idx].alive`. -/
def aliveAt (partition : MasterPartitionView) (idx : ℤ) (garbage : Bool) : Bool :=
  if idx < 0 then garbage
  else
    match partition.nodes[idx.toNat]? with
    | some node => node.alive
    | none => garbage

/-- One iteration of the loop over the partitions. The scan yields an index in range, so the
address read there is that of a node. -/
def renewPartition (pId : ℕ) (thisP : MasterPartitionView) (garbage : Bool) :
    MasterPartitionView × List PrimaryCall :=
  let cond1 := thisP.primaryIdx = -1
  let checkLiveness := aliveAt thisP thisP.primaryIdx garbage
  if checkLiveness ∧ ¬cond1 then
    (thisP, [])
  else
    match thisP.nodes.findIdx? (·.alive) with
    | none => ({ thisP with primaryIdx := -1 }, [])
    | some ii =>
      let aaa := (thisP.nodes[ii]?.map MasterNodeView.addr).getD []
      ({ thisP with primaryIdx := ii },
        thisP.nodes.mapIdx fun j _ ↦ { partition := pId, node := j, addr := aaa })

/-- What a round does to partition `pId`. -/
def roundPartition (round : Round) (pId : ℕ) (partition : MasterPartitionView) :
    MasterPartitionView × List PrimaryCall :=
  renewPartition pId (checkNodes partition (round.healthy pId)) (round.garbage pId)

/-- `KVMasterImpl::do_healthcheck`: the partitions afterwards and the calls it makes. -/
def doHealthcheck (partitions : List MasterPartitionView) (round : Round) :
    List MasterPartitionView × List PrimaryCall :=
  let checked := partitions.mapIdx fun pId partition ↦ checkNodes partition (round.healthy pId)
  let renewed := checked.mapIdx fun pId thisP ↦ renewPartition pId thisP (round.garbage pId)
  (renewed.map Prod.fst, (renewed.map Prod.snd).flatten)

/-- The coordinator after a sequence of rounds. -/
def afterRounds (config : Config) (rounds : List Round) : List MasterPartitionView :=
  rounds.foldl (fun partitions round ↦ (doHealthcheck partitions round).1) (initial config)

/-! ## One partition in one round -/

/-- The primary index is `-1` or names a node. -/
def ValidIdx (partition : MasterPartitionView) : Prop :=
  partition.primaryIdx = -1 ∨
    0 ≤ partition.primaryIdx ∧ partition.primaryIdx.toNat < partition.nodes.length

/-- The primary is a node that is alive. -/
def PrimaryAlive (partition : MasterPartitionView) : Prop :=
  0 ≤ partition.primaryIdx ∧
    ∃ node, partition.nodes[partition.primaryIdx.toNat]? = some node ∧ node.alive = true

/-- The first alive node stands at this index. -/
def FirstAlive (partition : MasterPartitionView) (idx : ℕ) (node : MasterNodeView) : Prop :=
  partition.nodes[idx]? = some node ∧ node.alive = true ∧
    ∀ j < idx, ∀ other, partition.nodes[j]? = some other → other.alive = false

@[simp]
theorem checkNodes_primaryIdx (partition : MasterPartitionView) (healthy : ℕ → Bool) :
    (checkNodes partition healthy).primaryIdx = partition.primaryIdx := rfl

theorem checkNodes_getElem? (partition : MasterPartitionView) (healthy : ℕ → Bool) (j : ℕ) :
    (checkNodes partition healthy).nodes[j]? =
      partition.nodes[j]?.map fun node ↦ { node with alive := healthy j } := by
  simp [checkNodes]

@[simp]
theorem checkNodes_length (partition : MasterPartitionView) (healthy : ℕ → Bool) :
    (checkNodes partition healthy).nodes.length = partition.nodes.length := by
  simp [checkNodes]

theorem checkNodes_validIdx {partition : MasterPartitionView} (healthy : ℕ → Bool)
    (h : ValidIdx partition) : ValidIdx (checkNodes partition healthy) := by
  simpa [ValidIdx] using h

theorem aliveAt_iff {partition : MasterPartitionView} (h : ValidIdx partition) (garbage : Bool) :
    (aliveAt partition partition.primaryIdx garbage ∧ ¬partition.primaryIdx = -1) ↔
      PrimaryAlive partition := by
  unfold aliveAt PrimaryAlive
  rcases h with h | ⟨hnonneg, hlt⟩
  · rw [h]
    simp
  · have hne : partition.primaryIdx ≠ -1 := by omega
    have hpos : ¬partition.primaryIdx < 0 := by omega
    simp only [hpos, if_false, List.getElem?_eq_getElem hlt, hne, not_false_eq_true, and_true,
      hnonneg, true_and, Option.some.injEq, exists_eq_left']

/-- The three things a round can do to a partition, with their conditions. -/
theorem renewPartition_cases (pId : ℕ) {thisP : MasterPartitionView} (h : ValidIdx thisP)
    (garbage : Bool) :
    (PrimaryAlive thisP ∧ renewPartition pId thisP garbage = (thisP, [])) ∨
    (¬PrimaryAlive thisP ∧ (∀ node ∈ thisP.nodes, node.alive = false) ∧
      renewPartition pId thisP garbage = ({ thisP with primaryIdx := -1 }, [])) ∨
    (¬PrimaryAlive thisP ∧ ∃ (ii : ℕ) (primary : MasterNodeView), FirstAlive thisP ii primary ∧
      renewPartition pId thisP garbage = ({ thisP with primaryIdx := ii },
        thisP.nodes.mapIdx fun j _ ↦
          { partition := pId, node := j, addr := primary.addr })) := by
  have hkeep := aliveAt_iff h garbage
  by_cases halive : PrimaryAlive thisP
  · exact .inl ⟨halive, if_pos (hkeep.mpr halive)⟩
  · right
    unfold renewPartition
    dsimp only
    rw [if_neg (mt hkeep.mp halive)]
    cases hidx : thisP.nodes.findIdx? (·.alive) with
    | none =>
      have hdead := List.findIdx?_eq_none_iff.mp hidx
      exact .inl ⟨halive, by simpa using hdead, rfl⟩
    | some ii =>
      right
      obtain ⟨hlt, hii, hbefore⟩ := List.findIdx?_eq_some_iff_getElem.mp hidx
      have hget : thisP.nodes[ii]? = some thisP.nodes[ii] := List.getElem?_eq_getElem hlt
      refine ⟨halive, ii, thisP.nodes[ii], ⟨hget, hii, ?_⟩, ?_⟩
      · intro j hj other hother
        have hjlt : j < thisP.nodes.length := lt_trans hj hlt
        rw [List.getElem?_eq_getElem hjlt, Option.some.injEq] at hother
        rw [← hother]
        simpa using hbefore j hj
      · simp only [hget, Option.map_some, Option.getD_some]

theorem renewPartition_nodes (pId : ℕ) (thisP : MasterPartitionView) (garbage : Bool) :
    (renewPartition pId thisP garbage).1.nodes = thisP.nodes := by
  unfold renewPartition
  dsimp only
  split
  · rfl
  · split
    · rfl
    · rfl

theorem renewPartition_validIdx (pId : ℕ) {thisP : MasterPartitionView} (h : ValidIdx thisP)
    (garbage : Bool) : ValidIdx (renewPartition pId thisP garbage).1 := by
  rcases renewPartition_cases pId h garbage with ⟨-, heq⟩ | ⟨-, -, heq⟩ | ⟨-, ii, primary, hfirst, heq⟩
  · rw [heq]
    exact h
  · rw [heq]
    exact .inl rfl
  · rw [heq]
    have hlt := (List.getElem?_eq_some_iff.mp hfirst.1).1
    exact .inr ⟨Int.natCast_nonneg ii, by simpa using hlt⟩

/-- All calls of an iteration go to the partition it is at. -/
theorem renewPartition_calls_partition {pId : ℕ} {thisP : MasterPartitionView} {garbage : Bool}
    {call : PrimaryCall} (h : call ∈ (renewPartition pId thisP garbage).2) :
    call.partition = pId := by
  unfold renewPartition at h
  dsimp only at h
  split at h
  · cases h
  · split at h
    · cases h
    · obtain ⟨j, -, hcall⟩ := List.mem_mapIdx.mp h
      rw [← hcall]

/-! ## Rounds act on every partition separately -/

theorem doHealthcheck_fst (partitions : List MasterPartitionView) (round : Round) :
    (doHealthcheck partitions round).1 =
      partitions.mapIdx fun pId partition ↦ (roundPartition round pId partition).1 := by
  refine List.ext_getElem? fun pId ↦ ?_
  simp [doHealthcheck, roundPartition, Function.comp_def]

theorem doHealthcheck_getElem? (partitions : List MasterPartitionView) (round : Round) (pId : ℕ) :
    (doHealthcheck partitions round).1[pId]? =
      partitions[pId]?.map fun partition ↦ (roundPartition round pId partition).1 := by
  rw [doHealthcheck_fst, List.getElem?_mapIdx]

/-- All calls of a round, partition by partition. -/
theorem doHealthcheck_snd (partitions : List MasterPartitionView) (round : Round) :
    (doHealthcheck partitions round).2 =
      (partitions.mapIdx fun pId partition ↦ (roundPartition round pId partition).2).flatten := by
  refine congrArg List.flatten (List.ext_getElem? fun pId ↦ ?_)
  simp [roundPartition, Function.comp_def]

theorem roundPartition_filter (round : Round) (pId k : ℕ) (partition : MasterPartitionView) :
    (roundPartition round k partition).2.filter (fun call ↦ call.partition = pId) =
      if k = pId then (roundPartition round k partition).2 else [] := by
  split
  · next hk =>
    refine List.filter_eq_self.mpr fun call hcall ↦ ?_
    simpa [hk] using renewPartition_calls_partition hcall
  · next hk =>
    refine List.filter_eq_nil_iff.mpr fun call hcall ↦ ?_
    simpa [renewPartition_calls_partition hcall] using hk

/-- The calls to one partition are the calls of its own iteration. -/
theorem doHealthcheck_calls {partitions : List MasterPartitionView} (round : Round) {pId : ℕ}
    {partition : MasterPartitionView} (h : partitions[pId]? = some partition) :
    (doHealthcheck partitions round).2.filter (fun call ↦ call.partition = pId) =
      (roundPartition round pId partition).2 := by
  rw [doHealthcheck_snd]
  induction partitions using List.reverseRecOn with
  | nil => cases h
  | append_singleton partitions last ih =>
    rw [List.mapIdx_concat, List.flatten_concat, List.filter_append, roundPartition_filter]
    rcases lt_or_ge pId partitions.length with hlt | hge
    · have hne : partitions.length ≠ pId := by omega
      rw [List.getElem?_append_left hlt] at h
      rw [ih h, if_neg hne, List.append_nil]
    · have hpId : pId < (partitions ++ [last]).length := (List.getElem?_eq_some_iff.mp h).1
      have heq : partitions.length = pId := by
        rw [List.length_append, List.length_singleton] at hpId
        omega
      have hlast : last = partition := by simpa [← heq] using h
      have hbefore : ((partitions.mapIdx fun k p ↦ (roundPartition round k p).2).flatten).filter
          (fun call ↦ call.partition = pId) = [] := by
        refine List.filter_eq_nil_iff.mpr fun call hcall ↦ ?_
        obtain ⟨calls, hcalls, hmem⟩ := List.mem_flatten.mp hcall
        obtain ⟨k, hk, rfl⟩ := List.mem_mapIdx.mp hcalls
        have hkp : call.partition = k := renewPartition_calls_partition hmem
        simp only [hkp, decide_eq_true_eq]
        omega
      rw [hbefore, List.nil_append, if_pos heq, heq, hlast]

/-! ## Every round of every run -/

/-- The state that holds between rounds: the configured nodes and a valid index. -/
structure WellFormed (addrs : List Bytes) (partition : MasterPartitionView) : Prop where
  addrs_eq : partition.nodes.map MasterNodeView.addr = addrs
  valid : ValidIdx partition

theorem WellFormed.length_eq {addrs : List Bytes} {partition : MasterPartitionView}
    (h : WellFormed addrs partition) : partition.nodes.length = addrs.length := by
  rw [← h.addrs_eq, List.length_map]

theorem initialPartition_wellFormed (addrs : List Bytes) :
    WellFormed addrs (initialPartition addrs) where
  addrs_eq := by simp [initialPartition, Function.comp_def]
  valid := .inl rfl

theorem checkNodes_addrs (partition : MasterPartitionView) (healthy : ℕ → Bool) :
    (checkNodes partition healthy).nodes.map MasterNodeView.addr =
      partition.nodes.map MasterNodeView.addr := by
  refine List.ext_getElem? fun j ↦ ?_
  simp only [List.getElem?_map, checkNodes_getElem?, Option.map_map, Function.comp_def]

/-- The step lemma of the election. -/
theorem roundPartition_wellFormed {addrs : List Bytes} {partition : MasterPartitionView}
    (round : Round) (pId : ℕ) (h : WellFormed addrs partition) :
    WellFormed addrs (roundPartition round pId partition).1 where
  addrs_eq := by
    rw [roundPartition, renewPartition_nodes, checkNodes_addrs, h.addrs_eq]
  valid := renewPartition_validIdx _ (checkNodes_validIdx _ h.valid) _

theorem afterRounds_concat (config : Config) (past : List Round) (round : Round) :
    afterRounds config (past ++ [round]) = (doHealthcheck (afterRounds config past) round).1 := by
  simp only [afterRounds, List.foldl_append, List.foldl_cons, List.foldl_nil]

/-- The run lemma of the election. -/
theorem afterRounds_wellFormed (config : Config) (past : List Round)
    (pId : Fin config.partitions.length) :
    ∃ partition, (afterRounds config past)[pId.val]? = some partition ∧
      WellFormed (config.partitions.get pId) partition := by
  induction past using List.reverseRecOn with
  | nil =>
    have hget : (initial config)[pId.val]? = some (initialPartition (config.partitions.get pId)) := by
      simp [initial]
    exact ⟨_, hget, initialPartition_wellFormed _⟩
  | append_singleton past round ih =>
    obtain ⟨partition, hget, hwf⟩ := ih
    refine ⟨(roundPartition round pId partition).1, ?_, roundPartition_wellFormed round pId hwf⟩
    rw [afterRounds_concat, doHealthcheck_getElem?, hget, Option.map_some]

/-- The primary recorded before the round answers its health check. -/
def PrimaryStays (before : MasterPartitionView) (healthy : ℕ → Bool) : Prop :=
  0 ≤ before.primaryIdx ∧ healthy before.primaryIdx.toNat = true

/-- The round gives the partition a primary that it did not have. -/
def Assigns (before after : MasterPartitionView) : Prop :=
  after.primaryIdx ≠ -1 ∧ after.primaryIdx ≠ before.primaryIdx

/-- The law of election for one partition `pId` in one round, from the state before it to the
state after it, with the outcomes of the health checks and the calls that are made. -/
structure ElectionLaw (pId : ℕ) (before after : MasterPartitionView) (healthy : ℕ → Bool)
    (calls : List PrimaryCall) : Prop where
  checked : after.nodes = before.nodes.mapIdx fun j node ↦ { node with alive := healthy j }
  none_iff : after.primaryIdx = -1 ↔ ∀ j < before.nodes.length, healthy j = false
  alive : after.primaryIdx ≠ -1 →
    0 ≤ after.primaryIdx ∧ after.primaryIdx.toNat < before.nodes.length ∧
      healthy after.primaryIdx.toNat = true
  kept : PrimaryStays before healthy → after.primaryIdx = before.primaryIdx
  lowest : after.primaryIdx ≠ -1 → ¬PrimaryStays before healthy →
    ∀ j < after.primaryIdx.toNat, healthy j = false
  announced : Assigns before after → ∃ primary,
    before.nodes[after.primaryIdx.toNat]? = some primary ∧
      calls = before.nodes.mapIdx fun j _ ↦
        { partition := pId, node := j, addr := primary.addr }
  silent : ¬Assigns before after → calls = []

theorem primaryAlive_checkNodes_iff {before : MasterPartitionView} (hvalid : ValidIdx before)
    (healthy : ℕ → Bool) :
    PrimaryAlive (checkNodes before healthy) ↔ PrimaryStays before healthy := by
  refine and_congr_right fun hnonneg ↦ ?_
  rw [checkNodes_primaryIdx] at hnonneg
  have hlt : before.primaryIdx.toNat < before.nodes.length := by
    rcases hvalid with hnone | ⟨-, hlt⟩
    · rw [hnone] at hnonneg
      exact absurd hnonneg (by decide)
    · exact hlt
  simp [checkNodes_getElem?, List.getElem?_eq_getElem hlt]

theorem checkNodes_node {before : MasterPartitionView} (healthy : ℕ → Bool) {j : ℕ}
    (hj : j < before.nodes.length) :
    ∃ node, (checkNodes before healthy).nodes[j]? = some node ∧ node.alive = healthy j ∧
      before.nodes[j]?.map MasterNodeView.addr = some node.addr := by
  refine ⟨{ before.nodes[j] with alive := healthy j }, ?_, rfl, ?_⟩
  · rw [checkNodes_getElem?, List.getElem?_eq_getElem hj, Option.map_some]
  · rw [List.getElem?_eq_getElem hj, Option.map_some]

/-- The law of a round that changes nothing beside the alive flags. -/
theorem law_of_kept {pId : ℕ} {before : MasterPartitionView} {healthy : ℕ → Bool}
    (hvalid : ValidIdx before) (hstays : PrimaryStays before healthy) :
    ElectionLaw pId before (checkNodes before healthy) healthy [] := by
  obtain ⟨hnonneg, hhealthy⟩ := hstays
  have hne : before.primaryIdx ≠ -1 := by omega
  have hlt : before.primaryIdx.toNat < before.nodes.length :=
    (hvalid.resolve_left hne).2
  exact {
    checked := rfl
    none_iff := by
      refine iff_of_false hne fun hdead ↦ ?_
      rw [hdead _ hlt] at hhealthy
      cases hhealthy
    alive := fun _ ↦ ⟨hnonneg, hlt, hhealthy⟩
    kept := fun _ ↦ rfl
    lowest := fun _ hnot ↦ absurd ⟨hnonneg, hhealthy⟩ hnot
    announced := fun hassigns ↦ absurd rfl hassigns.2
    silent := fun _ ↦ rfl }

/-- The law of a round that finds nobody alive. -/
theorem law_of_none {pId : ℕ} {before : MasterPartitionView} {healthy : ℕ → Bool}
    (hstays : ¬PrimaryStays before healthy) (hdead : ∀ j < before.nodes.length, healthy j = false) :
    ElectionLaw pId before { checkNodes before healthy with primaryIdx := -1 } healthy [] where
  checked := rfl
  none_iff := iff_of_true rfl hdead
  alive := fun hne ↦ absurd rfl hne
  kept := fun h ↦ absurd h hstays
  lowest := fun hne ↦ absurd rfl hne
  announced := fun hassigns ↦ absurd rfl hassigns.1
  silent := fun _ ↦ rfl

/-- The law of a round that elects node `ii`. -/
theorem law_of_elected {pId ii : ℕ} {before : MasterPartitionView} {healthy : ℕ → Bool}
    {primary : MasterNodeView} (hstays : ¬PrimaryStays before healthy)
    (hfirst : FirstAlive (checkNodes before healthy) ii primary) :
    ElectionLaw pId before { checkNodes before healthy with primaryIdx := ii } healthy
      ((checkNodes before healthy).nodes.mapIdx fun j _ ↦
        { partition := pId, node := j, addr := primary.addr }) := by
  obtain ⟨hprimary, halive, hbefore⟩ := hfirst
  have hlt : ii < before.nodes.length := by
    simpa using (List.getElem?_eq_some_iff.mp hprimary).1
  have hne : (ii : ℤ) ≠ -1 := by omega
  have hhealthy : healthy ii = true := by
    obtain ⟨node, hnode, hflag, -⟩ := checkNodes_node healthy hlt
    rw [hprimary, Option.some.injEq] at hnode
    rw [← hflag, ← hnode, halive]
  have hchanged : (ii : ℤ) ≠ before.primaryIdx := by
    intro heq
    refine hstays ⟨by omega, ?_⟩
    rw [← heq, Int.toNat_natCast, hhealthy]
  exact {
    checked := rfl
    none_iff := by
      refine iff_of_false hne fun hdead ↦ ?_
      rw [hdead ii hlt] at hhealthy
      cases hhealthy
    alive := fun _ ↦ ⟨Int.natCast_nonneg ii, hlt, hhealthy⟩
    kept := fun h ↦ absurd h hstays
    lowest := by
      intro _ _ j hj
      rw [Int.toNat_natCast] at hj
      obtain ⟨node, hnode, hflag, -⟩ := checkNodes_node healthy (lt_trans hj hlt)
      rw [← hflag]
      exact hbefore j hj node hnode
    announced := by
      intro _
      obtain ⟨node, hnode, -, haddr⟩ := checkNodes_node healthy hlt
      rw [hprimary, Option.some.injEq] at hnode
      obtain ⟨old, hold, hsame⟩ := Option.map_eq_some_iff.mp haddr
      refine ⟨old, hold, ?_⟩
      simp only [checkNodes, List.mapIdx_mapIdx, Function.comp_def, hsame, ← hnode]
    silent := fun hnot ↦ absurd ⟨hne, hchanged⟩ hnot }

/-- From a state with a valid index every round obeys the law. -/
theorem roundPartition_law {before : MasterPartitionView} (hvalid : ValidIdx before)
    (round : Round) (pId : ℕ) :
    ElectionLaw pId before (roundPartition round pId before).1 (round.healthy pId)
      (roundPartition round pId before).2 := by
  have hstays := primaryAlive_checkNodes_iff hvalid (round.healthy pId)
  unfold roundPartition
  rcases renewPartition_cases pId (checkNodes_validIdx (round.healthy pId) hvalid)
      (round.garbage pId) with ⟨hprimary, heq⟩ | ⟨hprimary, hdead, heq⟩ |
      ⟨hprimary, ii, primary, hfirst, heq⟩
  · rw [heq]
    exact law_of_kept hvalid (hstays.mp hprimary)
  · rw [heq]
    refine law_of_none (mt hstays.mpr hprimary) fun j hj ↦ ?_
    obtain ⟨node, hnode, hflag, -⟩ := checkNodes_node (round.healthy pId) hj
    rw [← hflag]
    exact hdead node (List.mem_of_getElem? hnode)
  · rw [heq]
    exact law_of_elected (mt hstays.mpr hprimary) hfirst

/-- After any number of rounds, whatever the health checks answer, the next round finds the
configured nodes of every partition and treats the partition by the law of election. -/
theorem election_invariant (config : Config) (past : List Round) (round : Round)
    (pId : Fin config.partitions.length) :
    ∃ before after,
      (afterRounds config past)[pId.val]? = some before ∧
      (afterRounds config (past ++ [round]))[pId.val]? = some after ∧
      before.nodes.map MasterNodeView.addr = config.partitions.get pId ∧
      ElectionLaw pId before after (round.healthy pId)
        ((doHealthcheck (afterRounds config past) round).2.filter fun call ↦
          call.partition = pId.val) := by
  obtain ⟨before, hbefore, hwf⟩ := afterRounds_wellFormed config past pId
  refine ⟨before, (roundPartition round pId before).1, hbefore, ?_, hwf.addrs_eq, ?_⟩
  · rw [afterRounds_concat, doHealthcheck_getElem?, hbefore, Option.map_some]
  · rw [doHealthcheck_calls round hbefore]
    exact roundPartition_law hwf.valid round pId

end PennCloud.Coordinator.Election
