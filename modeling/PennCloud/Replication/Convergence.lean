import PennCloud.Replication.Interleaving

/-!
# Replicas converge

Between requests all nodes hold the same cells, and the log of each node rebuilds its tablet. While
the primary holds the lock of a row that it has changed, all nodes hold the same cells in this row.
-/

open PennCloud.KV.TabletCells PennCloud.KV.Handlers
open PennCloud.Library.Runs PennCloud.Library.WriteLog PennCloud.Library.Locks
open PennCloud.Replication.Serving PennCloud.Replication.NodeActions
open PennCloud.Replication.Agreement PennCloud.Replication.Interleaving

namespace PennCloud.Replication.Convergence

/-- The request has been sent and not been answered. -/
def InFlight : Stage → Prop
  | .idle => False
  | .arrived _ => True
  | .locked _ => True
  | .multicast _ => True
  | .joined _ => True
  | .applied _ _ => True
  | .replied _ => False
  | .refused _ => False

/-- No write is in flight. -/
def Quiet (s : Sys) : Prop := ∀ t, ¬InFlight (s.stage t)

/-- All nodes hold the same cells in a row. -/
def SameRow (a : AgreedPartition) (s : Sys) (row : Bytes) : Prop :=
  ∀ i < a.partition.nodes.length, ∀ j < a.partition.nodes.length, ∀ col,
    cells (s.node i).tablet (row, col) = cells (s.node j).tablet (row, col)

/-- All nodes hold the same cells, and each log rebuilds the tablet of its node. -/
structure Converged (a : AgreedPartition) (tablets : ℕ → Tablet) (s : Sys) : Prop where
  same : ∀ i < a.partition.nodes.length, ∀ j < a.partition.nodes.length,
    SameCells (s.node i).tablet (s.node j).tablet
  rebuilt : ∀ i < a.partition.nodes.length,
    SameRows ((s.node i).log.foldl conduct (tablets i)) (s.node i).tablet

section

variable {a : AgreedPartition} {load : Load} {tablets : ℕ → Tablet} {s : Sys}

/-- Where no peer is ahead of the primary in a row, the row is the same everywhere. -/
theorem sameRow_of_holder
    (hequal : ∀ i < a.partition.nodes.length, ∀ j < a.partition.nodes.length,
      SameCells (tablets i) (tablets j))
    (h : Inv a load tablets s) {row : Bytes}
    (hnone : ∀ t, (s.node a.pm).lkR row = some (.writer t) →
      ∀ j < a.partition.nodes.length, ahead s.node a.pm j t = false) : SameRow a s row := by
  have horder : ∀ j < a.partition.nodes.length,
      (s.node j).rowHist load row = (s.node a.pm).rowHist load row := by
    intro j hj
    rw [h.rows row j hj, holder_none fun t ht ↦ hnone t ht j hj, List.append_nil]
  intro i hi j hj col
  calc
    cells (s.node i).tablet (row, col) =
        replay (cells (tablets i)) (((s.node i).rowHist load row).map load.record) (row, col) :=
      (h.node i).cells_eq load (row, col)
    _ = replay (cells (tablets j)) (((s.node j).rowHist load row).map load.record) (row, col) := by
      rw [horder i hi, horder j hj, hequal i hi j hj]
    _ = cells (s.node j).tablet (row, col) := ((h.node j).cells_eq load (row, col)).symm

/-- Between requests nobody is inside of a row lock. -/
theorem not_inside_of_quiet (h : Inv a load tablets s) (hquiet : Quiet s) (t : ℕ) {j : ℕ}
    (hj : j < a.partition.nodes.length) : ¬((s.node j).handler t).Inside := by
  have hplaced := h.placed t
  have hstage := hquiet t
  cases hcase : s.stage t with
  | idle =>
    rw [hcase] at hplaced
    have hout : (s.node j).handler t = .outside := hplaced j
    simp [hout, Handler.Inside]
  | replied reply =>
    rw [hcase] at hplaced
    have hleft : (s.node j).handler t = .left := hplaced j hj
    simp [hleft, Handler.Inside]
  | refused status =>
    rw [hcase] at hplaced
    exact hplaced j
  | arrived i => simp [hcase, InFlight] at hstage
  | locked i => simp [hcase, InFlight] at hstage
  | multicast i => simp [hcase, InFlight] at hstage
  | joined i => simp [hcase, InFlight] at hstage
  | applied i reply => simp [hcase, InFlight] at hstage

theorem converged_of_quiet
    (hequal : ∀ i < a.partition.nodes.length, ∀ j < a.partition.nodes.length,
      SameCells (tablets i) (tablets j))
    (h : Inv a load tablets s) (hquiet : Quiet s) : Converged a tablets s where
  same := by
    intro i hi j hj
    ext1 ⟨row, col⟩
    apply sameRow_of_holder hequal h
    · intro t hheld
      have hin : Inside load (s.node a.pm) (.writer t) row := ((h.node a.pm).guards _ _).mp hheld
      exact absurd hin.1 (not_inside_of_quiet h hquiet t a.pm_lt)
    · exact hi
    · exact hj
  rebuilt := by
    intro i hi
    apply (h.node i).sameRows load
    intro t
    apply decide_eq_false
    intro hlogged
    exact not_inside_of_quiet h hquiet t hi (.inr (.inl hlogged))

/-- The row that the primary has changed and still holds. -/
theorem sameRow_of_applied
    (hequal : ∀ i < a.partition.nodes.length, ∀ j < a.partition.nodes.length,
      SameCells (tablets i) (tablets j))
    (h : Inv a load tablets s) {t : ℕ} (happlied : (s.node a.pm).handler t = .applied) :
    SameRow a s (load.row t) := by
  apply sameRow_of_holder hequal h
  intro u hheld j _
  obtain rfl := eq_of_holds (h.node a.pm).guards (.inr (.inr happlied)) hheld
  exact ahead_of_changed (decide_eq_true (.inl happlied)) j

end

/-- In every interleaving of writes and reads, the replicas have converged whenever no write is in
flight, and they agree on a row from the moment the primary has changed it until it releases
the row lock. -/
theorem replicas_converge (a : AgreedPartition) (load : Load) (tablets : ℕ → Tablet)
    (hequal : ∀ i < a.partition.nodes.length, ∀ j < a.partition.nodes.length,
      SameCells (tablets i) (tablets j)) {s : Sys}
    (h : Reaches (machine a.partition load) anyStep (start tablets) s) :
    (Quiet s → Converged a tablets s) ∧
    ∀ t, (s.node a.pm).handler t = .applied → SameRow a s (load.row t) := by
  have hinv := reaches_inv h
  constructor
  · exact converged_of_quiet hequal hinv
  · intro t happlied
    exact sameRow_of_applied hequal hinv happlied

/-- Two nodes after the first election; node 0 is the primary. -/
def twoNodes : AgreedPartition :=
  AgreedPartition.elected (by decide : [lit "A", lit "B"] ≠ []) (by decide) 0 false

/-- A write sent to the peer, and a deletion in another row sent to the primary. -/
def twoWrites : Load where
  request := fun t ↦
    if t = 0 then .put { row := lit "row", col := lit "col", value := lit "value" }
    else .delete { row := lit "other", col := lit "col" }
  entry := fun t ↦ if t = 0 then 1 else 0
  query := fun _ ↦ { row := lit "row", col := lit "col" }
  queryAt := fun _ ↦ 0

/-- Both requests at once. Node 1 logs them in one order and applies them in the other. -/
def atOnce : List Event :=
  [.call 0, .forward 0 1 0, .lock 0 0, .accept 0 0, .call 1, .lock 1 0, .accept 1 0,
    .peer 0 0 1 .enter, .peer 0 0 1 .append, .peer 1 0 1 .enter, .peer 1 0 1 .append,
    .peer 1 0 1 .conduct, .peer 1 0 1 .leave, .peer 0 0 1 .conduct, .peer 0 0 1 .leave,
    .join 0 0, .join 1 0, .log 0 0, .log 1 0, .apply 1 0, .apply 0 0]

def bothReplies : List Event :=
  [.reply 0 0 { status := { code := .ok }, size := 5 },
    .reply 1 0 { status := { code := .ok }, size := 0 }]

/-- The state after a list of events. -/
def after (es : List Event) : Option Sys :=
  run (machine twoNodes.partition twoWrites) (start fun _ ↦ ∅) es

/-- All replies are out. -/
theorem after_bothReplies : ∃ s, after (atOnce ++ bothReplies) = some s ∧ Quiet s ∧
    (s.node 1).log = [twoWrites.record 0, twoWrites.record 1] ∧ (s.node 1).hist = [1, 0] := by
  refine ⟨_, rfl, ?_, by decide, by decide⟩
  rintro (_ | _ | t)
  · exact id
  · exact id
  · exact id

theorem replicas_converge_twoWrites :
    (∃ s, after (atOnce ++ bothReplies) = some s ∧ Quiet s ∧ (s.node 1).hist = [1, 0] ∧
      Converged twoNodes (fun _ ↦ ∅) s) ∧
    ∃ s, after atOnce = some s ∧ (s.node 0).handler 0 = .applied ∧
      SameRow twoNodes s (lit "row") := by
  have hequal : ∀ i < twoNodes.partition.nodes.length, ∀ j < twoNodes.partition.nodes.length,
      SameCells (∅ : Tablet) ∅ := fun _ _ _ _ ↦ rfl
  constructor
  · obtain ⟨s, hrun, hquiet, -, hhist⟩ := after_bothReplies
    have h := replicas_converge twoNodes twoWrites (fun _ ↦ ∅) hequal (reaches_of_run hrun)
    exact ⟨s, hrun, hquiet, hhist, h.1 hquiet⟩
  · have hrun : ∃ s, after atOnce = some s ∧ (s.node 0).handler 0 = .applied :=
      ⟨_, rfl, by decide⟩
    obtain ⟨s, hrun, happlied⟩ := hrun
    have h := replicas_converge twoNodes twoWrites (fun _ ↦ ∅) hequal (reaches_of_run hrun)
    exact ⟨s, hrun, happlied, h.2 0 happlied⟩

end PennCloud.Replication.Convergence
