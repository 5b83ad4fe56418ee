import PennCloud.Coordinator.Views
import Mathlib.Algebra.Group.Nat.Defs

/-!
# Indexes at the coordinator

Every element that the coordinator reads by its index should exist. The loops stay in range as long as no
list is empty, and the index of a primary is in range or `-1`. `GetPartitionPrimary` asks for `-1` before it
reads; `do_healthcheck` reads first and asks then, so that every first round reads `nodes[-1]`.
-/

open PennCloud.Coordinator.Election PennCloud.Coordinator.Views

namespace PennCloud.Coordinator.Indexing

/-- An index and the length of the vector it goes to. -/
structure Access where
  index : ℤ
  length : ℕ
  deriving DecidableEq

def Access.InRange (a : Access) : Prop := 0 ≤ a.index ∧ a.index < a.length

instance (a : Access) : Decidable a.InRange := inferInstanceAs (Decidable (_ ∧ _))

/-! ## Loops -/

/-- `size() - 1`; for an empty vector it wraps around. -/
def lastIndex (size : ℕ) : ℕ := if size = 0 then 2 ^ 64 - 1 else size - 1

/-- The indexes of a loop that runs while `i <= size() - 1`. -/
def indexes (size : ℕ) : List ℕ := List.range (lastIndex size + 1)

/-- The indexes of a scan that stops at the first alive node. -/
def scanned (nodes : List MasterNodeView) : List ℕ :=
  let dead := fun ii ↦ !(nodes[ii]?.any (·.alive))
  (indexes nodes.length).takeWhile dead ++ ((indexes nodes.length).dropWhile dead).take 1

theorem mem_indexes_iff {size i : ℕ} (hpos : 0 < size) : i ∈ indexes size ↔ i < size := by
  rw [indexes, lastIndex, if_neg (Nat.ne_of_gt hpos), List.mem_range, Nat.sub_add_cancel hpos]

theorem lt_of_mem_scanned {nodes : List MasterNodeView} {i : ℕ} (h : i ∈ scanned nodes)
    (hpos : 0 < nodes.length) : i < nodes.length := by
  rw [← mem_indexes_iff hpos]
  rcases List.mem_append.mp h with hbefore | hlast
  · exact (List.takeWhile_sublist _).subset hbefore
  · exact (List.dropWhile_sublist _).subset (List.mem_of_mem_take hlast)

/-! ## The operations -/

/-- `nodes[index]`. -/
def nodeAccess (partition : MasterPartitionView) (index : ℤ) : Access where
  index := index
  length := partition.nodes.length

/-- What one iteration of `do_healthcheck` reads of its partition. -/
def renewAccesses (thisP : MasterPartitionView) (garbage : Bool) : List Access :=
  let cond1 := thisP.primaryIdx = -1
  let checkLiveness := aliveAt thisP thisP.primaryIdx garbage
  nodeAccess thisP thisP.primaryIdx ::
    if checkLiveness ∧ ¬cond1 then []
    else
      (scanned thisP.nodes).map (fun (ii : ℕ) ↦ nodeAccess thisP ii) ++
        match thisP.nodes.findIdx? (·.alive) with
        | none => []
        | some ii => [nodeAccess thisP ii]

/-- The checks of the nodes go through the lists without an index. -/
def healthcheckAccesses (partitions : List MasterPartitionView) (round : Round) : List Access :=
  (indexes partitions.length).flatMap fun (pId : ℕ) ↦
    { index := pId, length := partitions.length } ::
      match partitions[pId]? with
      | some partition =>
        renewAccesses (checkNodes partition (round.healthy pId)) (round.garbage pId)
      | none => []

def primaryAccesses (partitions : List MasterPartitionView) (pId : ℕ) : List Access :=
  match partitions[pId]? with
  | some ppp =>
    { index := pId, length := partitions.length } ::
      if ppp.primaryIdx ≠ -1 then [nodeAccess ppp ppp.primaryIdx] else []
  | none => []

inductive Operation
  | doHealthcheck (round : Round)
  /-- The number in the request is an `unsigned`. -/
  | getPartitionPrimary (partitionIdx : ℕ)
  | getNodeView

def accesses (partitions : List MasterPartitionView) : Operation → List Access
  | .doHealthcheck round => healthcheckAccesses partitions round
  | .getPartitionPrimary partitionIdx => primaryAccesses partitions partitionIdx
  | .getNodeView => []

/-- Only the health check changes the partitions. -/
def execute (partitions : List MasterPartitionView) : Operation → List MasterPartitionView
  | .doHealthcheck round => (doHealthcheck partitions round).1
  | .getPartitionPrimary _ => partitions
  | .getNodeView => partitions

/-- The coordinator after a sequence of operations. -/
def afterOperations (config : Config) (operations : List Operation) : List MasterPartitionView :=
  operations.foldl execute (initial config)

/-- All that a sequence of operations reads. -/
def runAccesses : List MasterPartitionView → List Operation → List Access
  | _, [] => []
  | partitions, operation :: operations =>
    accesses partitions operation ++ runAccesses (execute partitions operation) operations

/-! ## One operation -/

/-- The lists that the loops go through are not empty. -/
structure Ready (partitions : List MasterPartitionView) : Prop where
  partitions_ne : partitions ≠ []
  nodes_ne : ∀ partition ∈ partitions, partition.nodes ≠ []
  valid : ∀ partition ∈ partitions, ValidIdx partition

theorem ready_initial (config : Config) : Ready (initial config) where
  partitions_ne h := config.partitions_ne (List.map_eq_nil_iff.mp h)
  nodes_ne partition hmem := by
    obtain ⟨addrs, haddrs, rfl⟩ := List.mem_map.mp hmem
    exact fun h ↦ config.nodes_ne addrs haddrs (List.map_eq_nil_iff.mp h)
  valid partition hmem := by
    obtain ⟨addrs, -, rfl⟩ := List.mem_map.mp hmem
    exact .inl rfl

theorem Ready.execute {partitions : List MasterPartitionView} (h : Ready partitions)
    (operation : Operation) : Ready (execute partitions operation) := by
  cases operation with
  | doHealthcheck round =>
    rw [Indexing.execute, doHealthcheck_fst]
    constructor
    · rw [Ne, List.mapIdx_eq_nil_iff]
      exact h.partitions_ne
    · intro partition hmem
      obtain ⟨pId, hpId, rfl⟩ := List.mem_mapIdx.mp hmem
      have hlen : (roundPartition round pId partitions[pId]).1.nodes.length =
          partitions[pId].nodes.length := by
        rw [roundPartition, renewPartition_nodes, checkNodes_length]
      rw [← List.length_pos_iff, hlen, List.length_pos_iff]
      exact h.nodes_ne _ (List.getElem_mem hpId)
    · intro partition hmem
      obtain ⟨pId, hpId, rfl⟩ := List.mem_mapIdx.mp hmem
      exact renewPartition_validIdx _ (checkNodes_validIdx _ (h.valid _ (List.getElem_mem hpId))) _
  | getPartitionPrimary partitionIdx => exact h
  | getNodeView => exact h

theorem Ready.after {partitions : List MasterPartitionView} (h : Ready partitions)
    (operations : List Operation) : Ready (operations.foldl Indexing.execute partitions) := by
  induction operations generalizing partitions with
  | nil => exact h
  | cons operation operations ih => exact ih (h.execute operation)

/-- The first access of an iteration is the only one that can fail. -/
theorem renewAccesses_inRange_iff {thisP : MasterPartitionView} (hvalid : ValidIdx thisP)
    (hne : thisP.nodes ≠ []) (garbage : Bool) :
    (∀ a ∈ renewAccesses thisP garbage, a.InRange) ↔ thisP.primaryIdx ≠ -1 := by
  have hpos := List.length_pos_iff.mpr hne
  constructor
  · intro h hnone
    have hfirst := h _ List.mem_cons_self
    have hnonneg : 0 ≤ thisP.primaryIdx := hfirst.1
    omega
  · intro hsome a hmem
    have hprimary : 0 ≤ thisP.primaryIdx ∧ thisP.primaryIdx < thisP.nodes.length := by
      rcases hvalid with hnone | ⟨hnonneg, hlt⟩
      · exact absurd hnone hsome
      · omega
    rcases List.mem_cons.mp hmem with rfl | hrest
    · exact hprimary
    · split at hrest
      · exact absurd hrest List.not_mem_nil
      · rcases List.mem_append.mp hrest with hscan | hfound
        · obtain ⟨ii, hii, rfl⟩ := List.mem_map.mp hscan
          exact ⟨Int.natCast_nonneg ii, Int.ofNat_lt.mpr (lt_of_mem_scanned hii hpos)⟩
        · split at hfound
          · exact absurd hfound List.not_mem_nil
          · next ii hidx =>
            obtain rfl := List.mem_singleton.mp hfound
            have hlt := (List.findIdx?_eq_some_iff_getElem.mp hidx).1
            exact ⟨Int.natCast_nonneg ii, Int.ofNat_lt.mpr hlt⟩

theorem healthcheckAccesses_inRange_iff {partitions : List MasterPartitionView}
    (h : Ready partitions) (round : Round) :
    (∀ a ∈ healthcheckAccesses partitions round, a.InRange) ↔
      ∀ partition ∈ partitions, partition.primaryIdx ≠ -1 := by
  have hpos := List.length_pos_iff.mpr h.partitions_ne
  have hiteration : ∀ pId partition, partitions[pId]? = some partition →
      ((∀ a ∈ renewAccesses (checkNodes partition (round.healthy pId)) (round.garbage pId),
        a.InRange) ↔ partition.primaryIdx ≠ -1) := by
    intro pId partition hget
    have hmem := List.mem_of_getElem? hget
    have hne : (checkNodes partition (round.healthy pId)).nodes ≠ [] := by
      rw [← List.length_pos_iff, checkNodes_length, List.length_pos_iff]
      exact h.nodes_ne _ hmem
    exact renewAccesses_inRange_iff (checkNodes_validIdx _ (h.valid _ hmem)) hne _
  unfold healthcheckAccesses
  constructor
  · intro hall partition hmem
    obtain ⟨pId, hlt, hpId⟩ := List.getElem_of_mem hmem
    have hget : partitions[pId]? = some partition := by rw [List.getElem?_eq_getElem hlt, hpId]
    apply (hiteration pId partition hget).mp
    intro a ha
    apply hall a
    refine List.mem_flatMap.mpr ⟨pId, (mem_indexes_iff hpos).mpr hlt, List.mem_cons_of_mem _ ?_⟩
    rw [hget]
    exact ha
  · intro hall a ha
    obtain ⟨pId, hpId, ha⟩ := List.mem_flatMap.mp ha
    have hlt := (mem_indexes_iff hpos).mp hpId
    rcases List.mem_cons.mp ha with rfl | ha
    · exact ⟨Int.natCast_nonneg pId, Int.ofNat_lt.mpr hlt⟩
    · rw [List.getElem?_eq_getElem hlt] at ha
      exact (hiteration pId _ (List.getElem?_eq_getElem hlt)).mpr
        (hall _ (List.getElem_mem hlt)) a ha

theorem primaryAccesses_inRange {partitions : List MasterPartitionView} (h : Ready partitions)
    (pId : ℕ) : ∀ a ∈ primaryAccesses partitions pId, a.InRange := by
  unfold primaryAccesses
  cases hget : partitions[pId]? with
  | none => exact fun a ha ↦ absurd ha List.not_mem_nil
  | some ppp =>
    have hlt := (List.getElem?_eq_some_iff.mp hget).1
    intro a ha
    rcases List.mem_cons.mp ha with rfl | ha
    · exact ⟨Int.natCast_nonneg pId, Int.ofNat_lt.mpr hlt⟩
    · split at ha
      · next hsome =>
        obtain rfl := List.mem_singleton.mp ha
        rcases h.valid ppp (List.mem_of_getElem? hget) with hnone | ⟨hnonneg, hlt⟩
        · exact absurd hnone hsome
        · exact ⟨hnonneg, (Int.toNat_lt hnonneg).mp hlt⟩
      · exact absurd ha List.not_mem_nil

/-- A health check finds a primary recorded everywhere. -/
def FindsPrimaries (partitions : List MasterPartitionView) : Operation → Prop
  | .doHealthcheck _ => ∀ partition ∈ partitions, partition.primaryIdx ≠ -1
  | .getPartitionPrimary _ => True
  | .getNodeView => True

theorem accesses_inRange_iff {partitions : List MasterPartitionView} (h : Ready partitions)
    (operation : Operation) :
    (∀ a ∈ accesses partitions operation, a.InRange) ↔ FindsPrimaries partitions operation := by
  cases operation with
  | doHealthcheck round => exact healthcheckAccesses_inRange_iff h round
  | getPartitionPrimary pId => exact iff_of_true (primaryAccesses_inRange h pId) trivial
  | getNodeView => exact iff_of_true (fun a ha ↦ absurd ha List.not_mem_nil) trivial

/-! ## Runs -/

def Operation.IsHealthcheck : Operation → Prop
  | doHealthcheck _ => True
  | getPartitionPrimary _ => False
  | getNodeView => False

/-- Before the first health check there is no primary, and nothing else changes that. -/
theorem runAccesses_inRange_iff {partitions : List MasterPartitionView} (h : Ready partitions)
    (hnone : ∀ partition ∈ partitions, partition.primaryIdx = -1) (operations : List Operation) :
    (∀ a ∈ runAccesses partitions operations, a.InRange) ↔
      ∀ operation ∈ operations, ¬operation.IsHealthcheck := by
  induction operations with
  | nil =>
    exact iff_of_true (fun _ ha ↦ absurd ha List.not_mem_nil)
      fun _ hmem ↦ absurd hmem List.not_mem_nil
  | cons operation operations ih =>
    have hfirst := accesses_inRange_iff h operation
    rw [runAccesses, List.forall_mem_append, List.forall_mem_cons, hfirst]
    cases operation with
    | doHealthcheck round =>
      obtain ⟨partition, hmem⟩ := List.exists_mem_of_ne_nil _ h.partitions_ne
      refine iff_of_false (fun hboth ↦ ?_) fun hboth ↦ hboth.1 trivial
      exact hboth.1 partition hmem (hnone partition hmem)
    | getPartitionPrimary pId => exact and_congr (iff_of_true trivial not_false) ih
    | getNodeView => exact and_congr (iff_of_true trivial not_false) ih

/-- In every run each operation stays in range exactly when it is no health check that meets a partition
without a primary. All do in the runs without a health check, and in no other. -/
theorem indexing_inRange_iff (config : Config) (operations : List Operation) :
    (∀ before operation after, operations = before ++ operation :: after →
      ((∀ a ∈ accesses (afterOperations config before) operation, a.InRange) ↔
        FindsPrimaries (afterOperations config before) operation)) ∧
    ((∀ a ∈ runAccesses (initial config) operations, a.InRange) ↔
      ∀ operation ∈ operations, ¬operation.IsHealthcheck) := by
  constructor
  · intro before operation after _
    exact accesses_inRange_iff ((ready_initial config).after before) operation
  · apply runAccesses_inRange_iff (ready_initial config)
    intro partition hmem
    obtain ⟨addrs, -, rfl⟩ := List.mem_map.mp hmem
    rfl

def oneNode : Config where
  partitions := [[PennCloud.KV.TabletCells.lit "n:1"]]
  partitions_ne := List.cons_ne_nil _ _
  nodes_ne := by decide +kernel

/-- The very first round reads `nodes[-1]`. -/
theorem first_healthcheck_out_of_range :
    ¬∀ a ∈ runAccesses (initial oneNode)
      [.doHealthcheck { healthy := fun _ _ ↦ true, garbage := fun _ ↦ false }], a.InRange := by
  decide +kernel

end PennCloud.Coordinator.Indexing
