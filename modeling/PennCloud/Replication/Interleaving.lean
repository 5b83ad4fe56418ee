import PennCloud.Replication.NodeActions
import PennCloud.Replication.Agreement

/-!
# Requests in flight

Any number of writes and reads in one partition that agrees on its primary, step by step: a write
is forwarded to the primary, takes the row lock there, goes to every peer in any order, and is
logged and applied at the primary once all peers have answered; a `Get` reads the node it is sent
to under the row lock of that node. All RPCs succeed. In each row the nodes have been changed by
the same writers in the same order, except that a peer may be ahead of the primary by
the one writer that holds the row lock there.
-/

open PennCloud.KV.TabletCells PennCloud.KV.PrimaryView PennCloud.KV.Handlers
open PennCloud.Coordinator.Views PennCloud.Library.Runs PennCloud.Library.Locks
open PennCloud.Replication.Serving PennCloud.Replication.NodeActions
open PennCloud.Replication.Agreement

namespace PennCloud.Replication.Interleaving

/-- How far a write request is, and at which node its handler runs. -/
inductive Stage
  | idle
  | arrived (i : ℕ)
  | locked (i : ℕ)
  | multicast (i : ℕ)
  | joined (i : ℕ)
  | applied (i : ℕ) (reply : Reply)
  | replied (reply : Reply)
  | refused (status : Status)
  deriving DecidableEq

/-- How far a `Get` is. With its reply we keep the writers that had changed the cell when it was
read. -/
inductive Ask
  | idle
  | asked
  | reading
  | answered (reply : Reply) (seen : List ℕ)
  deriving DecidableEq

structure Sys where
  node : ℕ → Store
  stage : ℕ → Stage := fun _ ↦ .idle
  ask : ℕ → Ask := fun _ ↦ .idle

def start (tablets : ℕ → Tablet) : Sys where
  node := fun i ↦ { tablet := tablets i }

/-- The steps of `PPut` and `PDelete`. -/
inductive PeerStep
  | enter
  | append
  | conduct
  | leave

def PeerStep.action (t : ℕ) : PeerStep → Action
  | .enter => .enter t
  | .append => .append t
  | .conduct => .conduct t
  | .leave => .leave t

inductive Event
  | call (t : ℕ)
  | forward (t i j : ℕ)
  | reject (t i : ℕ) (status : Status)
  | lock (t i : ℕ)
  | refuse (t i : ℕ) (status : Status)
  | accept (t i : ℕ)
  | peer (t i j : ℕ) (move : PeerStep)
  | join (t i : ℕ)
  | log (t i : ℕ)
  | apply (t i : ℕ)
  | reply (t i : ℕ) (reply : Reply)
  | query (g : ℕ)
  | look (g : ℕ)
  | read (g : ℕ)

/-- What the handler decides under the row lock; only `CPut` looks at the tablet. -/
def verdict (req : WriteRequest) (tablet : Tablet) : CPutVerdict :=
  match req with
  | .cPut prq => (cPutCheck tablet prq.row prq.col prq.v1).2
  | _ => .accept

def Sys.toStage (s : Sys) (t : ℕ) (stage : Stage) : Sys :=
  { s with stage := Function.update s.stage t stage }

/-- Node `i` has made a step for request `t`. -/
def Sys.put (s : Sys) (i t : ℕ) (stage : Stage) (σ : Store) : Sys :=
  { s with
    node := Function.update s.node i σ
    stage := Function.update s.stage t stage }

def Sys.toAsk (s : Sys) (g : ℕ) (ask : Ask) : Sys :=
  { s with ask := Function.update s.ask g ask }

def Sys.putAsk (s : Sys) (i g : ℕ) (ask : Ask) (σ : Store) : Sys :=
  { s with
    node := Function.update s.node i σ
    ask := Function.update s.ask g ask }

@[simp]
theorem toStage_stage_self (s : Sys) (t : ℕ) (stage : Stage) :
    (s.toStage t stage).stage t = stage :=
  Function.update_self _ _ _

theorem toStage_stage_of_ne (s : Sys) {t u : ℕ} (hu : u ≠ t) (stage : Stage) :
    (s.toStage t stage).stage u = s.stage u :=
  Function.update_of_ne hu _ _

@[simp]
theorem put_stage_self (s : Sys) (i t : ℕ) (stage : Stage) (σ : Store) :
    (s.put i t stage σ).stage t = stage :=
  Function.update_self _ _ _

theorem put_stage_of_ne (s : Sys) (i : ℕ) {t u : ℕ} (hu : u ≠ t) (stage : Stage) (σ : Store) :
    (s.put i t stage σ).stage u = s.stage u :=
  Function.update_of_ne hu _ _

/-- The writers that changed the cell of a `Get` at its node. -/
def seenBy (load : Load) (s : Sys) (g : ℕ) : List ℕ :=
  (s.node (load.queryAt g)).hist.filter fun t ↦
    (load.record t).cell = ((load.query g).row, (load.query g).col)

section Steps

variable (p : Partition) (load : Load)

/-- A `CPut` that would abort the process has no step. -/
def Sys.step (s : Sys) : Event → Option Sys
  | .call t =>
    if s.stage t = .idle ∧ load.entry t < p.nodes.length then
      some (s.toStage t (.arrived (load.entry t)))
    else none
  | .forward t i j =>
    if s.stage t = .arrived i ∧ forwardTo p i (load.request t) = some j then
      some (s.toStage t (.arrived j))
    else none
  | .reject t i status =>
    if s.stage t = .arrived i ∧
        (routedAt p i (load.request t)).map Prod.snd = some (.reply status) then
      some (s.toStage t (.refused status))
    else none
  | .lock t i =>
    if s.stage t = .arrived i ∧
        (routedAt p i (load.request t)).map Prod.snd = some .primary then
      ((s.node i).act load (.enter t)).map (s.put i t (.locked i))
    else none
  | .refuse t i status =>
    if s.stage t = .locked i ∧
        verdict (load.request t) (s.node i).tablet = .refuse status then
      ((s.node i).act load (.withdraw t)).map (s.put i t (.refused status))
    else none
  | .accept t i =>
    if s.stage t = .locked i ∧ verdict (load.request t) (s.node i).tablet = .accept then
      some (s.toStage t (.multicast i))
    else none
  | .peer t i j move =>
    if s.stage t = .multicast i ∧ j ∈ peersOf p i then
      ((s.node j).act load (move.action t)).map (s.put j t (.multicast i))
    else none
  | .join t i =>
    if s.stage t = .multicast i ∧ ∀ j ∈ peersOf p i, (s.node j).handler t = .left then
      some (s.toStage t (.joined i))
    else none
  | .log t i =>
    if s.stage t = .joined i then
      ((s.node i).act load (.append t)).map (s.put i t (.joined i))
    else none
  | .apply t i =>
    if s.stage t = .joined i then
      let reply :=
        { status := { code := .ok }, size := conductSize (s.node i).tablet (load.record t) }
      ((s.node i).act load (.conduct t)).map (s.put i t (.applied i reply))
    else none
  | .reply t i reply =>
    if s.stage t = .applied i reply then
      ((s.node i).act load (.leave t)).map (s.put i t (.replied reply))
    else none
  | .query g =>
    if s.ask g = .idle ∧ load.queryAt g < p.nodes.length then some (s.toAsk g .asked) else none
  | .look g =>
    if s.ask g = .asked then
      ((s.node (load.queryAt g)).act load (.look g)).map (s.putAsk (load.queryAt g) g .reading)
    else none
  | .read g =>
    match p.nodes[load.queryAt g]? with
    | some view =>
      if s.ask g = .reading then
        let σ := s.node (load.queryAt g)
        let node : KVNode := { toNodeView := view, tablet := σ.tablet, log := σ.log }
        (σ.act load (.unlook g)).map
          (s.putAsk (load.queryAt g) g (.answered (get node (load.query g)) (seenBy load s g)))
      else none
    | none => none

def machine : Machine Sys Event where
  step := Sys.step p load

/-- The steps, with their conditions. -/
inductive Happened (s : Sys) : Sys → Prop
  | call (t : ℕ) (hold : s.stage t = .idle) :
      Happened s (s.toStage t (.arrived (load.entry t)))
  | forward (t i j : ℕ) (hold : s.stage t = .arrived i) : Happened s (s.toStage t (.arrived j))
  | reject (t i : ℕ) (status : Status) (hold : s.stage t = .arrived i) :
      Happened s (s.toStage t (.refused status))
  | lock (t i : ℕ) (σ : Store) (hold : s.stage t = .arrived i)
      (hroute : (routedAt p i (load.request t)).map Prod.snd = some .primary)
      (hact : Acted load (s.node i) (.enter t) σ) : Happened s (s.put i t (.locked i) σ)
  | refuse (t i : ℕ) (status : Status) (σ : Store) (hold : s.stage t = .locked i)
      (hact : Acted load (s.node i) (.withdraw t) σ) :
      Happened s (s.put i t (.refused status) σ)
  | accept (t i : ℕ) (hold : s.stage t = .locked i) : Happened s (s.toStage t (.multicast i))
  | peer (t i j : ℕ) (move : PeerStep) (σ : Store) (hold : s.stage t = .multicast i)
      (hpeer : j ∈ peersOf p i) (hact : Acted load (s.node j) (move.action t) σ) :
      Happened s (s.put j t (.multicast i) σ)
  | join (t i : ℕ) (hold : s.stage t = .multicast i)
      (hall : ∀ j ∈ peersOf p i, (s.node j).handler t = .left) :
      Happened s (s.toStage t (.joined i))
  | log (t i : ℕ) (σ : Store) (hold : s.stage t = .joined i)
      (hact : Acted load (s.node i) (.append t) σ) : Happened s (s.put i t (.joined i) σ)
  | apply (t i : ℕ) (reply : Reply) (σ : Store) (hold : s.stage t = .joined i)
      (hact : Acted load (s.node i) (.conduct t) σ) : Happened s (s.put i t (.applied i reply) σ)
  | reply (t i : ℕ) (reply : Reply) (σ : Store) (hold : s.stage t = .applied i reply)
      (hact : Acted load (s.node i) (.leave t) σ) : Happened s (s.put i t (.replied reply) σ)
  | query (g : ℕ) (hold : s.ask g = .idle) (hentry : load.queryAt g < p.nodes.length) :
      Happened s (s.toAsk g .asked)
  | look (g : ℕ) (σ : Store) (hold : s.ask g = .asked)
      (hact : Acted load (s.node (load.queryAt g)) (.look g) σ) :
      Happened s (s.putAsk (load.queryAt g) g .reading σ)
  | read (g : ℕ) (view : NodeView) (node : KVNode) (σ : Store) (hold : s.ask g = .reading)
      (hview : p.nodes[load.queryAt g]? = some view) (hnode : node.toNodeView = view)
      (htablet : node.tablet = (s.node (load.queryAt g)).tablet)
      (hact : Acted load (s.node (load.queryAt g)) (.unlook g) σ) :
      Happened s (s.putAsk (load.queryAt g) g
        (.answered (get node (load.query g)) (seenBy load s g)) σ)

theorem happened_of_step {s s' : Sys} {e : Event} (h : s.step p load e = some s') :
    Happened p load s s' := by
  cases e with
  | call t =>
    obtain ⟨⟨hold, -⟩, heq⟩ := Option.ite_none_right_eq_some.mp h
    cases heq
    exact .call t hold
  | forward t i j =>
    obtain ⟨⟨hold, -⟩, heq⟩ := Option.ite_none_right_eq_some.mp h
    cases heq
    exact .forward t i j hold
  | reject t i status =>
    obtain ⟨⟨hold, -⟩, heq⟩ := Option.ite_none_right_eq_some.mp h
    cases heq
    exact .reject t i status hold
  | lock t i =>
    obtain ⟨⟨hold, hroute⟩, heq⟩ := Option.ite_none_right_eq_some.mp h
    obtain ⟨σ, hact, rfl⟩ := Option.map_eq_some_iff.mp heq
    exact .lock t i σ hold hroute (acted_of_act load hact)
  | refuse t i status =>
    obtain ⟨⟨hold, -⟩, heq⟩ := Option.ite_none_right_eq_some.mp h
    obtain ⟨σ, hact, rfl⟩ := Option.map_eq_some_iff.mp heq
    exact .refuse t i status σ hold (acted_of_act load hact)
  | accept t i =>
    obtain ⟨⟨hold, -⟩, heq⟩ := Option.ite_none_right_eq_some.mp h
    cases heq
    exact .accept t i hold
  | peer t i j move =>
    obtain ⟨⟨hold, hpeer⟩, heq⟩ := Option.ite_none_right_eq_some.mp h
    obtain ⟨σ, hact, rfl⟩ := Option.map_eq_some_iff.mp heq
    exact .peer t i j move σ hold hpeer (acted_of_act load hact)
  | join t i =>
    obtain ⟨⟨hold, hall⟩, heq⟩ := Option.ite_none_right_eq_some.mp h
    cases heq
    exact .join t i hold hall
  | log t i =>
    obtain ⟨hold, heq⟩ := Option.ite_none_right_eq_some.mp h
    obtain ⟨σ, hact, rfl⟩ := Option.map_eq_some_iff.mp heq
    exact .log t i σ hold (acted_of_act load hact)
  | apply t i =>
    obtain ⟨hold, heq⟩ := Option.ite_none_right_eq_some.mp h
    obtain ⟨σ, hact, rfl⟩ := Option.map_eq_some_iff.mp heq
    exact .apply t i _ σ hold (acted_of_act load hact)
  | reply t i reply =>
    obtain ⟨hold, heq⟩ := Option.ite_none_right_eq_some.mp h
    obtain ⟨σ, hact, rfl⟩ := Option.map_eq_some_iff.mp heq
    exact .reply t i reply σ hold (acted_of_act load hact)
  | query g =>
    obtain ⟨⟨hold, hentry⟩, heq⟩ := Option.ite_none_right_eq_some.mp h
    cases heq
    exact .query g hold hentry
  | look g =>
    obtain ⟨hold, heq⟩ := Option.ite_none_right_eq_some.mp h
    obtain ⟨σ, hact, rfl⟩ := Option.map_eq_some_iff.mp heq
    exact .look g σ hold (acted_of_act load hact)
  | read g =>
    simp only [Sys.step] at h
    split at h
    · next view hview =>
      obtain ⟨hold, heq⟩ := Option.ite_none_right_eq_some.mp h
      obtain ⟨σ, hact, rfl⟩ := Option.map_eq_some_iff.mp heq
      exact .read g view _ σ hold hview rfl rfl (acted_of_act load hact)
    · cases h

end Steps

/-! ## The order of the writers in a row -/

section Rows

variable (a : AgreedPartition) (load : Load)

/-- Node `j` has been changed by the writer, the primary not yet. -/
def ahead (node : ℕ → Store) (pm j t : ℕ) : Bool :=
  !(node pm).changed t && (node j).changed t

/-- A peer has seen the writers of the primary, and perhaps the one that holds the lock there. -/
def RowInv (node : ℕ → Store) (row : Bytes) : Prop :=
  ∀ j < a.partition.nodes.length, (node j).rowHist load row =
    (node a.pm).rowHist load row ++ holder (node a.pm).lkR row (ahead node a.pm j)

variable {a} {node : ℕ → Store} {k : ℕ} {σ : Store} {act : Action} {row : Bytes}

theorem ahead_pm (node : ℕ → Store) (pm t : ℕ) : ahead node pm pm t = false := by
  simp only [ahead, Bool.not_and_self]

theorem holder_none {lk : LockTable Bytes Owner} {row : Bytes} {q : ℕ → Bool}
    (h : ∀ t, lk row = some (.writer t) → q t = false) : holder lk row q = [] := by
  unfold holder
  split
  · next t hheld => rw [h t hheld, if_neg Bool.false_ne_true]
  · rfl
  · rfl

theorem holder_pm (node : ℕ → Store) (pm : ℕ) (row : Bytes) :
    holder (node pm).lkR row (ahead node pm pm) = [] :=
  holder_none fun t _ ↦ ahead_pm node pm t

theorem rowHist_update (h : σ.rowHist load row = (node k).rowHist load row) (j : ℕ) :
    (Function.update node k σ j).rowHist load row = (node j).rowHist load row := by
  by_cases hj : j = k
  · subst hj
    rw [Function.update_self, h]
  · rw [Function.update_of_ne hj]

theorem RowInv.keep (h : RowInv a load node row)
    (hhist : σ.rowHist load row = (node k).rowHist load row)
    (hholder : ∀ j < a.partition.nodes.length,
      holder (Function.update node k σ a.pm).lkR row (ahead (Function.update node k σ) a.pm j) =
        holder (node a.pm).lkR row (ahead node a.pm j)) :
    RowInv a load (Function.update node k σ) row := by
  intro j hj
  rw [rowHist_update load hhist, rowHist_update load hhist, hholder j hj]
  exact h j hj

/-- Actions on other rows. -/
theorem RowInv.frame (h : RowInv a load node row)
    (hguards : Guards (node a.pm).lkR (Inside load (node a.pm))) (hact : Acted load (node k) act σ)
    (hne : row ≠ act.row load) : RowInv a load (Function.update node k σ) row := by
  have hsame := act_sameRow load hact hne
  have hchanged : ∀ i t, load.row t = row →
      (Function.update node k σ i).changed t = (node i).changed t := by
    intro i t ht
    by_cases hi : i = k
    · subst hi
      rw [Function.update_self, Store.changed, hsame.handler t ht, Store.changed]
    · rw [Function.update_of_ne hi]
  apply h.keep load hsame.rowHist
  intro j hj
  apply holder_congr load hguards
  · by_cases hpm : a.pm = k
    · rw [hpm, Function.update_self]
      exact hsame.lkR
    · rw [Function.update_of_ne hpm]
  · intro t ht
    simp only [ahead, hchanged _ t ht]

/-- Actions that do not change a tablet, where the lock at the primary stays or is held by
nobody who is behind a peer, before and after. -/
theorem RowInv.still (h : RowInv a load node row) (hact : Acted load (node k) act σ)
    (hnot : ∀ t, act ≠ .conduct t)
    (hlock : (Function.update node k σ a.pm).lkR row = (node a.pm).lkR row ∨
      ∀ j < a.partition.nodes.length,
        holder (Function.update node k σ a.pm).lkR row (ahead node a.pm j) = [] ∧
        holder (node a.pm).lkR row (ahead node a.pm j) = []) :
    RowInv a load (Function.update node k σ) row := by
  obtain ⟨hhist, hchanged⟩ := acted_still load hact hnot
  have hall : ∀ i, (Function.update node k σ i).changed = (node i).changed := by
    intro i
    by_cases hi : i = k
    · subst hi
      rw [Function.update_self, hchanged]
    · rw [Function.update_of_ne hi]
  have hahead : ∀ j, ahead (Function.update node k σ) a.pm j = ahead node a.pm j := by
    intro j
    funext t
    simp only [ahead, hall]
  apply h.keep load
  · rw [Store.rowHist, hhist, Store.rowHist]
  · intro j hj
    rw [hahead]
    rcases hlock with hsame | hnone
    · rw [holder, hsame, holder]
    · rw [(hnone j hj).1, (hnone j hj).2]

/-- A peer is changed by the writer that holds the lock at the primary. -/
theorem RowInv.conduct_peer {t : ℕ} (h : RowInv a load node (load.row t)) (hk : k ≠ a.pm)
    (hguards : Guards (node a.pm).lkR (Inside load (node a.pm)))
    (hlocked : (node a.pm).handler t = .locked) (hact : Acted load (node k) (.conduct t) σ) :
    RowInv a load (Function.update node k σ) (load.row t) := by
  have hdone := acted_conduct load hact
  have hbehind : (node a.pm).changed t = false := by simp [Store.changed, hlocked]
  have hnow : (node k).changed t = false := by simp [Store.changed, hdone.before]
  intro j hj
  have hbefore := h j hj
  rw [holder_self load hguards (.inl hlocked)] at hbefore
  rw [Function.update_of_ne hk.symm, holder_self load hguards (.inl hlocked)]
  by_cases hjk : j = k
  · subst hjk
    have hold : (node j).rowHist load (load.row t) = (node a.pm).rowHist load (load.row t) := by
      simpa [ahead, hnow] using hbefore
    have hafter : ahead (Function.update node j σ) a.pm j t = true := by
      simp [ahead, Function.update_of_ne hk.symm, hbehind, hdone.changed]
    rw [Function.update_self, hdone.rowHist, hold, hafter, if_pos rfl]
  · have hsame : ahead (Function.update node k σ) a.pm j t = ahead node a.pm j t := by
      simp [ahead, Function.update_of_ne hk.symm, Function.update_of_ne hjk]
    rw [Function.update_of_ne hjk, hsame]
    exact hbefore

/-- The primary is changed after all peers. -/
theorem RowInv.conduct_pm {t : ℕ} (h : RowInv a load node (load.row t))
    (hguards : Guards (node a.pm).lkR (Inside load (node a.pm)))
    (hpeers : ∀ j < a.partition.nodes.length, j ≠ a.pm → (node j).handler t = .left)
    (hact : Acted load (node a.pm) (.conduct t) σ) :
    RowInv a load (Function.update node a.pm σ) (load.row t) := by
  have hdone := acted_conduct load hact
  have hbehind : (node a.pm).changed t = false := by simp [Store.changed, hdone.before]
  intro j hj
  by_cases hjpm : j = a.pm
  · subst hjpm
    rw [holder_pm, List.append_nil]
  · have hbefore := h j hj
    have hnow : (node j).changed t = true := by simp [Store.changed, hpeers j hj hjpm]
    have hinside : ((node a.pm).handler t).Inside := .inr (.inl hdone.before)
    have hafter : ahead (Function.update node a.pm σ) a.pm j t = false := by
      simp [ahead, hdone.changed]
    rw [holder_self load hguards hinside] at hbefore
    rw [Function.update_self, Function.update_of_ne hjpm, hdone.lkR,
      holder_self load hguards hinside, hafter, hdone.rowHist]
    simpa [ahead, hbehind, hnow] using hbefore

end Rows

/-! ## The invariant -/

section Invariant

variable (a : AgreedPartition) (load : Load) (tablets : ℕ → Tablet)

/-- What the stage of a request says about its handlers at the nodes. -/
def Placed (handler : ℕ → Handler) : Stage → Prop
  | .idle => ∀ j, handler j = .outside
  | .arrived _ => ∀ j, handler j = .outside
  | .locked i => i = a.pm ∧ handler a.pm = .locked ∧ ∀ j ≠ a.pm, handler j = .outside
  | .multicast i => i = a.pm ∧ handler a.pm = .locked
  | .joined i => i = a.pm ∧ (handler a.pm = .locked ∨ handler a.pm = .logged) ∧
      ∀ j < a.partition.nodes.length, j ≠ a.pm → handler j = .left
  | .applied i _ => i = a.pm ∧ handler a.pm = .applied ∧
      ∀ j < a.partition.nodes.length, j ≠ a.pm → handler j = .left
  | .replied _ => ∀ j < a.partition.nodes.length, handler j = .left
  | .refused _ => ∀ j, ¬(handler j).Inside

/-- The handlers of a request. -/
def Sys.handlers (s : Sys) (t j : ℕ) : Handler := (s.node j).handler t

structure Inv (s : Sys) : Prop where
  node : ∀ j, NodeInv load (tablets j) (s.node j)
  placed : ∀ t, Placed a (s.handlers t) (s.stage t)
  rows : ∀ row, RowInv a load s.node row

theorem start_inv : Inv a load tablets (start tablets) where
  node := fun j ↦ nodeInv_start load (tablets j)
  placed := fun _ _ ↦ rfl
  rows := fun _ _ _ ↦ rfl

variable {a load tablets} {s : Sys} {t k : ℕ} {act : Action} {σ : Store}

theorem handlers_update (s : Sys) (k u : ℕ) (σ : Store) :
    (fun j ↦ (Function.update s.node k σ j).handler u) =
      Function.update (s.handlers u) k (σ.handler u) := by
  funext j
  by_cases hj : j = k
  · rw [hj, Function.update_self, Function.update_self]
  · rw [Function.update_of_ne hj, Function.update_of_ne hj, Sys.handlers]

theorem handlers_other {u : ℕ} (hact : Acted load (s.node k) act σ) (hu : act.writer ≠ some u) :
    (fun j ↦ (Function.update s.node k σ j).handler u) = s.handlers u := by
  rw [handlers_update, acted_handler_of_ne load hact hu]
  exact Function.update_eq_self _ _

theorem Inv.node_update (h : Inv a load tablets s) (hact : Acted load (s.node k) act σ) (j : ℕ) :
    NodeInv load (tablets j) (Function.update s.node k σ j) := by
  by_cases hj : j = k
  · subst hj
    rw [Function.update_self]
    exact (h.node j).act load hact
  · rw [Function.update_of_ne hj]
    exact h.node j

theorem Inv.rows_update (h : Inv a load tablets s) (hact : Acted load (s.node k) act σ)
    (hown : RowInv a load (Function.update s.node k σ) (act.row load)) (row : Bytes) :
    RowInv a load (Function.update s.node k σ) row := by
  by_cases hrow : row = act.row load
  · subst hrow
    exact hown
  · exact (h.rows row).frame load (h.node a.pm).guards hact hrow

theorem Inv.toStage {stage : Stage} (h : Inv a load tablets s)
    (hown : Placed a (s.handlers t) stage) : Inv a load tablets (s.toStage t stage) where
  node := h.node
  placed := by
    intro u
    by_cases hu : u = t
    · subst hu
      rw [toStage_stage_self]
      exact hown
    · rw [toStage_stage_of_ne s hu]
      exact h.placed u
  rows := h.rows

theorem Inv.put {stage : Stage} (h : Inv a load tablets s) (hact : Acted load (s.node k) act σ)
    (hwriter : act.writer = some t)
    (hplaced : Placed a (Function.update (s.handlers t) k (σ.handler t)) stage)
    (hrow : RowInv a load (Function.update s.node k σ) (act.row load)) :
    Inv a load tablets (s.put k t stage σ) where
  node := h.node_update hact
  placed := by
    intro u
    by_cases hu : u = t
    · subst hu
      rw [put_stage_self]
      rw [← handlers_update] at hplaced
      exact hplaced
    · have hother : act.writer ≠ some u := by
        rw [hwriter]
        exact fun heq ↦ hu (Option.some.inj heq).symm
      have hsame := handlers_other hact hother
      rw [put_stage_of_ne s k hu]
      have hplaced := h.placed u
      rw [← hsame] at hplaced
      exact hplaced
  rows := h.rows_update hact hrow

theorem Inv.putAsk {g : ℕ} {ask : Ask} (h : Inv a load tablets s)
    (hact : Acted load (s.node k) act σ) (hwriter : act.writer = none)
    (hrow : RowInv a load (Function.update s.node k σ) (act.row load)) :
    Inv a load tablets (s.putAsk k g ask σ) where
  node := h.node_update hact
  placed := by
    intro u
    have hsame := handlers_other (u := u) hact (by simp [hwriter])
    have hplaced := h.placed u
    rw [← hsame] at hplaced
    exact hplaced
  rows := h.rows_update hact hrow

/-! ## Steps at the primary -/

/-- A writer takes or gives back the lock of the primary while no peer is ahead. -/
theorem RowInv.still_pm {node : ℕ → Store} {row : Bytes} (h : RowInv a load node row)
    (hact : Acted load (node a.pm) act σ) (hnot : ∀ t, act ≠ .conduct t)
    (hbefore : ∀ t, (node a.pm).lkR row = some (.writer t) →
      ∀ j < a.partition.nodes.length, ahead node a.pm j t = false)
    (hafter : ∀ t, σ.lkR row = some (.writer t) →
      ∀ j < a.partition.nodes.length, ahead node a.pm j t = false) :
    RowInv a load (Function.update node a.pm σ) row := by
  apply h.still load hact hnot
  right
  intro j hj
  rw [Function.update_self]
  constructor
  · exact holder_none fun t ht ↦ hafter t ht j hj
  · exact holder_none fun t ht ↦ hbefore t ht j hj

/-- Steps at a peer that do not change its tablet. -/
theorem RowInv.still_peer {node : ℕ → Store} {row : Bytes} (h : RowInv a load node row)
    (hk : k ≠ a.pm) (hact : Acted load (node k) act σ) (hnot : ∀ t, act ≠ .conduct t) :
    RowInv a load (Function.update node k σ) row := by
  apply h.still load hact hnot
  left
  rw [Function.update_of_ne hk.symm]

theorem PeerStep.writer_action (move : PeerStep) (t : ℕ) : (move.action t).writer = some t := by
  cases move with
  | enter => rfl
  | append => rfl
  | conduct => rfl
  | leave => rfl

theorem PeerStep.row_action (move : PeerStep) (t : ℕ) :
    (move.action t).row load = load.row t := by
  cases move with
  | enter => rfl
  | append => rfl
  | conduct => rfl
  | leave => rfl

/-- Nobody who holds the lock of the primary is behind a peer that he has not reached. -/
theorem ahead_of_outside {node : ℕ → Store} {pm j : ℕ} (h : (node j).handler t = .outside) :
    ahead node pm j t = false := by
  simp [ahead, Store.changed, h]

theorem ahead_of_changed {node : ℕ → Store} {pm : ℕ} (h : (node pm).changed t = true) (j : ℕ) :
    ahead node pm j t = false := by
  simp only [ahead, h, Bool.not_true, Bool.false_and]

/-- The writer that holds the lock of its row. -/
theorem eq_of_holds {node : ℕ → Store} {u : ℕ}
    (h : Guards (node a.pm).lkR (Inside load (node a.pm)))
    (hin : ((node a.pm).handler t).Inside)
    (hheld : (node a.pm).lkR (load.row t) = some (.writer u)) : u = t := by
  have hinside : Inside load (node a.pm) (.writer u) (load.row t) := (h _ _).mp hheld
  exact eq_of_inside load h hinside.1 hin hinside.2

theorem Inv.lock {i : ℕ} (h : Inv a load tablets s) (hold : s.stage t = .arrived i)
    (hroute : (routedAt a.partition i (load.request t)).map Prod.snd = some .primary)
    (hact : Acted load (s.node i) (.enter t) σ) : Inv a load tablets (s.put i t (.locked i) σ) := by
  obtain rfl : i = a.pm := a.eq_pm hroute
  have hplaced := h.placed t
  rw [hold] at hplaced
  apply h.put hact rfl
  · cases hact with
    | enter _ _ hfree =>
      refine ⟨rfl, ?_, fun j hj ↦ ?_⟩
      · rw [Function.update_self]
        exact Function.update_self _ _ _
      · rw [Function.update_of_ne hj]
        exact hplaced j
  · apply (h.rows _).still_pm hact (by simp)
    · intro u hu
      cases hact with
      | enter _ _ hfree =>
        rw [Action.row, hfree] at hu
        cases hu
    · intro u hu j _
      cases hact with
      | enter _ _ hfree =>
        have heq : some (Owner.writer t) = some (.writer u) :=
          (Function.update_self (load.row t) _ _).symm.trans hu
        cases heq
        exact ahead_of_outside (hplaced j)

theorem Inv.refuse {i : ℕ} {status : Status} (h : Inv a load tablets s)
    (hold : s.stage t = .locked i) (hact : Acted load (s.node i) (.withdraw t) σ) :
    Inv a load tablets (s.put i t (.refused status) σ) := by
  have hplaced := h.placed t
  rw [hold] at hplaced
  obtain ⟨rfl, hlocked, hothers⟩ := hplaced
  apply h.put hact rfl
  · intro j
    by_cases hj : j = a.pm
    · subst hj
      rw [Function.update_self]
      cases hact with
      | withdraw => simp [Handler.Inside]
    · rw [Function.update_of_ne hj, hothers j hj]
      simp [Handler.Inside]
  · apply (h.rows _).still_pm hact (by simp)
    · intro u hu j _
      obtain rfl := eq_of_holds (h.node a.pm).guards (.inl hlocked) hu
      by_cases hj : j = a.pm
      · subst hj
        exact ahead_pm _ _ _
      · exact ahead_of_outside (hothers j hj)
    · intro u hu
      cases hact with
      | withdraw =>
        have hfree : none = some (Owner.writer u) :=
          (Function.update_self (load.row t) _ _).symm.trans hu
        cases hfree

theorem Inv.log {i : ℕ} (h : Inv a load tablets s) (hold : s.stage t = .joined i)
    (hact : Acted load (s.node i) (.append t) σ) : Inv a load tablets (s.put i t (.joined i) σ) := by
  have hplaced := h.placed t
  rw [hold] at hplaced
  obtain ⟨rfl, -, hpeers⟩ := hplaced
  apply h.put hact rfl
  · refine ⟨rfl, ?_, fun j hj hne ↦ ?_⟩
    · rw [Function.update_self]
      cases hact with
      | append => exact .inr (Function.update_self _ _ _)
    · rw [Function.update_of_ne hne]
      exact hpeers j hj hne
  · apply (h.rows _).still load hact (by simp)
    left
    rw [Function.update_self]
    cases hact with
    | append => rfl

theorem Inv.apply {i : ℕ} {reply : Reply} (h : Inv a load tablets s)
    (hold : s.stage t = .joined i) (hact : Acted load (s.node i) (.conduct t) σ) :
    Inv a load tablets (s.put i t (.applied i reply) σ) := by
  have hplaced := h.placed t
  rw [hold] at hplaced
  obtain ⟨rfl, -, hpeers⟩ := hplaced
  apply h.put hact rfl
  · refine ⟨rfl, ?_, fun j hj hne ↦ ?_⟩
    · rw [Function.update_self]
      cases hact with
      | conduct => exact Function.update_self _ _ _
    · rw [Function.update_of_ne hne]
      exact hpeers j hj hne
  · exact (h.rows _).conduct_pm load (h.node a.pm).guards hpeers hact

theorem Inv.reply {i : ℕ} {reply : Reply} (h : Inv a load tablets s)
    (hold : s.stage t = .applied i reply) (hact : Acted load (s.node i) (.leave t) σ) :
    Inv a load tablets (s.put i t (.replied reply) σ) := by
  have hplaced := h.placed t
  rw [hold] at hplaced
  obtain ⟨rfl, happlied, hpeers⟩ := hplaced
  apply h.put hact rfl
  · intro j hj
    by_cases hne : j = a.pm
    · subst hne
      rw [Function.update_self]
      cases hact with
      | leave => exact Function.update_self _ _ _
    · rw [Function.update_of_ne hne]
      exact hpeers j hj hne
  · have hchanged : (s.node a.pm).changed t = true := decide_eq_true (.inl happlied)
    apply (h.rows _).still_pm hact (by simp)
    · intro u hu j _
      obtain rfl := eq_of_holds (h.node a.pm).guards (.inr (.inr happlied)) hu
      exact ahead_of_changed hchanged j
    · intro u hu
      cases hact with
      | leave =>
        have hfree : none = some (Owner.writer u) :=
          (Function.update_self (load.row t) _ _).symm.trans hu
        cases hfree

theorem Inv.peer {i j : ℕ} {move : PeerStep} (h : Inv a load tablets s)
    (hold : s.stage t = .multicast i) (hpeer : j ∈ peersOf a.partition i)
    (hact : Acted load (s.node j) (move.action t) σ) :
    Inv a load tablets (s.put j t (.multicast i) σ) := by
  have hplaced := h.placed t
  rw [hold] at hplaced
  obtain ⟨rfl, hlocked⟩ := hplaced
  have hne := ((a.mem_peersOf_pm j).mp hpeer).2
  apply h.put hact (move.writer_action t)
  · refine ⟨rfl, ?_⟩
    rw [Function.update_of_ne hne.symm]
    exact hlocked
  · rw [move.row_action t]
    cases move with
    | enter => exact (h.rows _).still_peer hne hact (by simp [PeerStep.action])
    | append => exact (h.rows _).still_peer hne hact (by simp [PeerStep.action])
    | conduct => exact (h.rows _).conduct_peer load hne (h.node a.pm).guards hlocked hact
    | leave => exact (h.rows _).still_peer hne hact (by simp [PeerStep.action])

/-- A reader takes the lock, or gives it back. -/
theorem Inv.reader {g i : ℕ} {ask : Ask} (h : Inv a load tablets s)
    (hact : Acted load (s.node i) act σ) (hreader : act.writer = none) :
    Inv a load tablets (s.putAsk i g ask σ) := by
  have hnot : ∀ t, act ≠ .conduct t := by
    rintro t rfl
    cases hreader
  apply h.putAsk hact hreader
  by_cases hi : i = a.pm
  · subst hi
    have hnone := acted_reader load (h.node a.pm).guards hact hreader
    apply (h.rows _).still_pm hact hnot
    · exact fun u hu ↦ absurd hu (hnone u).1
    · exact fun u hu ↦ absurd hu (hnone u).2
  · exact (h.rows _).still_peer hi hact hnot

/-- The step lemma. -/
theorem Inv.step {s' : Sys} (h : Inv a load tablets s) (hstep : Happened a.partition load s s') :
    Inv a load tablets s' := by
  cases hstep with
  | call t hold =>
    have hplaced := h.placed t
    rw [hold] at hplaced
    exact h.toStage hplaced
  | forward t i j hold =>
    have hplaced := h.placed t
    rw [hold] at hplaced
    exact h.toStage hplaced
  | reject t i status hold =>
    have hplaced := h.placed t
    rw [hold] at hplaced
    apply h.toStage
    intro j
    rw [hplaced j]
    simp [Handler.Inside]
  | lock t i σ hold hroute hact => exact h.lock hold hroute hact
  | refuse t i status σ hold hact => exact h.refuse hold hact
  | accept t i hold =>
    have hplaced := h.placed t
    rw [hold] at hplaced
    exact h.toStage ⟨hplaced.1, hplaced.2.1⟩
  | peer t i j move σ hold hpeer hact => exact h.peer hold hpeer hact
  | join t i hold hall =>
    have hplaced := h.placed t
    rw [hold] at hplaced
    obtain ⟨rfl, hlocked⟩ := hplaced
    apply h.toStage
    exact ⟨rfl, .inl hlocked, fun j hj hne ↦ hall j ((a.mem_peersOf_pm j).mpr ⟨hj, hne⟩)⟩
  | log t i σ hold hact => exact h.log hold hact
  | apply t i reply σ hold hact => exact h.apply hold hact
  | reply t i reply σ hold hact => exact h.reply hold hact
  | query g hold hentry => exact ⟨h.node, h.placed, h.rows⟩
  | look g σ hold hact => exact h.reader hact rfl
  | read g view node σ hold hview hnode htablet hact => exact h.reader hact rfl

/-- The run lemma. -/
theorem reaches_inv {s' : Sys}
    (h : Reaches (machine a.partition load) anyStep (start tablets) s') :
    Inv a load tablets s' := by
  refine h.invariant (start_inv a load tablets) ?_
  intro _ _ _ hinv _ hstep
  exact hinv.step (happened_of_step a.partition load hstep)

end Invariant

end PennCloud.Replication.Interleaving
