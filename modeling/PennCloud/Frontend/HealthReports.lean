import PennCloud.Frontend.ConsoleConfiguration
import PennCloud.Library.History

/-!
# The reported health

`do_healthcheck` starts a thread for every node and puts the node's flag into its result. It reads the flag
right after the thread has been started and joins the threads only at the end: the thread may have
written the outcome of its RPC by then, or not. A status that the console reports is this call's
outcome where the thread was faster or the flag had that value already, else that of an earlier call.

A step is one statement of the loop or a thread's write of its flag.
-/

open PennCloud.KV.TabletCells PennCloud.Library.Runs PennCloud.Library.History
open PennCloud.Coordinator.Election PennCloud.Frontend.ConsoleConfiguration

namespace PennCloud.Frontend.HealthReports

/-! ## One call -/

/-- A call of `do_healthcheck`, with the flags of the nodes in the order of the two loops. -/
structure Checking where
  alive : List Bool
  started : ℕ := 0
  sttN : List Bool := []
  /-- The threads that have written their flags. -/
  checked : List ℕ := []
  returned : Bool := false
  deriving DecidableEq

inductive Event
  /-- `vec_ths.emplace_back(&KVMasterClient::_checknodehealth, &this_n)`. -/
  | spawn
  /-- `stt_n.emplace_back(this_n.alive)`. -/
  | report
  /-- `this_n->alive = out_bool` of the thread for this node. -/
  | check (i : ℕ)
  /-- All threads are joined. -/
  | finish
  deriving DecidableEq

/-- `outcome` tells which of the RPCs succeed. -/
def Checking.step (outcome : ℕ → Bool) (s : Checking) : Event → Option Checking
  | .spawn =>
    if s.started < s.alive.length ∧ s.sttN.length = s.started then
      some { s with started := s.started + 1 }
    else none
  | .report =>
    if s.sttN.length < s.started then
      match s.alive[s.sttN.length]? with
      | some alive => some { s with sttN := s.sttN ++ [alive] }
      | none => none
    else none
  | .check i =>
    if i < s.started ∧ i ∉ s.checked then
      some { s with alive := s.alive.set i (outcome i), checked := i :: s.checked }
    else none
  | .finish =>
    if s.sttN.length = s.alive.length ∧ (∀ i < s.started, i ∈ s.checked) ∧ s.returned = false then
      some { s with returned := true }
    else none

def machine (outcome : ℕ → Bool) : Machine Checking Event where
  step := Checking.step outcome

/-- The nodes in the order of the loops. -/
def allNodes (partitions : List MasterPartitionView) : List MasterNodeView :=
  partitions.flatMap MasterPartitionView.nodes

def call (partitions : List MasterPartitionView) : Checking where
  alive := (allNodes partitions).map MasterNodeView.alive

/-! ## The answer -/

/-- The status line of `handle_post_status` for a backend. -/
def backendStatus (backendHealth : List Bool) (serverIndex : ℕ) : Option Bytes :=
  (backendHealth[serverIndex]?).map fun alive ↦
    if alive then lit "200 OK" else lit "503 Service Unavailable"

/-- Every node has its number and the outcome of its own RPC. -/
def ReportsPresent (partitions : List MasterPartitionView) (outcome : ℕ → Bool)
    (sttN : List Bool) : Prop :=
  ∀ i node, (allNodes partitions)[i]? = some node →
    (initBackendPorts partitions)[i]? = some (i, node.addr) ∧ sttN[i]? = some (outcome i) ∧
      backendStatus sttN i =
        some (if outcome i then lit "200 OK" else lit "503 Service Unavailable")

/-! ## The flags during a call -/

/-- A flag has the outcome of this call where its thread has written, else its old value. -/
structure Flags (old : List Bool) (outcome : ℕ → Bool) (s : Checking) : Prop where
  length : s.alive.length = old.length
  started : s.started ≤ old.length
  unchecked : ∀ i ∉ s.checked, s.alive[i]? = old[i]?
  checked : ∀ i ∈ s.checked, i < old.length → s.alive[i]? = some (outcome i)
  complete : s.returned = true → s.sttN.length = old.length

theorem flags_call (partitions : List MasterPartitionView) (outcome : ℕ → Bool) :
    Flags (call partitions).alive outcome (call partitions) where
  length := rfl
  started := Nat.zero_le _
  unchecked _ _ := rfl
  checked _ hmem := absurd hmem List.not_mem_nil
  complete h := absurd h Bool.false_ne_true

/-- What was reported so far are the outcomes. -/
def Fresh (outcome : ℕ → Bool) (s : Checking) : Prop :=
  ∀ i b, s.sttN[i]? = some b → b = outcome i

/-- The flag that is reported next has the outcome, by its thread or from before. -/
def Ready (old : List Bool) (outcome : ℕ → Bool) (s : Checking) : Prop :=
  s.sttN.length ∈ s.checked ∨ old[s.sttN.length]? = some (outcome s.sttN.length)

theorem Flags.ready_iff {old : List Bool} {outcome : ℕ → Bool} {s : Checking}
    (h : Flags old outcome s) {b : Bool} (hb : s.alive[s.sttN.length]? = some b) :
    Ready old outcome s ↔ b = outcome s.sttN.length := by
  by_cases hmem : s.sttN.length ∈ s.checked
  · have hlt : s.sttN.length < old.length := by
      rw [← h.length]
      exact (List.getElem?_eq_some_iff.mp hb).1
    have hwritten := h.checked _ hmem hlt
    exact iff_of_true (.inl hmem) (Option.some.inj (hb.symm.trans hwritten))
  · rw [Ready, or_iff_right hmem, ← h.unchecked _ hmem, hb, Option.some.injEq]

theorem fresh_concat_iff {outcome : ℕ → Bool} {s : Checking} {b : Bool} :
    Fresh outcome { s with sttN := s.sttN ++ [b] } ↔
      Fresh outcome s ∧ b = outcome s.sttN.length := by
  constructor
  · intro h
    refine ⟨fun i c hc ↦ h i c ?_, h _ b List.getElem?_concat_length⟩
    exact (List.getElem?_append_left (List.getElem?_eq_some_iff.mp hc).1).trans hc
  · rintro ⟨h, hb⟩ i c hc
    dsimp only at hc
    rcases Nat.lt_or_ge i s.sttN.length with hlt | hge
    · exact h i c ((List.getElem?_append_left hlt).symm.trans hc)
    · have hi := (List.getElem?_eq_some_iff.mp hc).1
      rw [List.length_append, List.length_singleton] at hi
      obtain rfl : i = s.sttN.length := by omega
      rw [List.getElem?_concat_length] at hc
      exact (Option.some.inj hc).symm.trans hb

/-- What the steps do. -/
theorem step_cases {outcome : ℕ → Bool} {s t : Checking} {e : Event}
    (h : s.step outcome e = some t) :
    (e = .spawn ∧ s.started < s.alive.length ∧ t = { s with started := s.started + 1 }) ∨
      (∃ b, e = .report ∧ s.sttN.length < s.started ∧ s.alive[s.sttN.length]? = some b ∧
        t = { s with sttN := s.sttN ++ [b] }) ∨
      (∃ i, e = .check i ∧ i ∉ s.checked ∧
        t = { s with alive := s.alive.set i (outcome i), checked := i :: s.checked }) ∨
      (e = .finish ∧ s.sttN.length = s.alive.length ∧ t = { s with returned := true }) := by
  cases e with
  | spawn =>
    obtain ⟨hnext, ht⟩ := Option.ite_none_right_eq_some.mp h
    exact .inl ⟨rfl, hnext.1, (Option.some.inj ht).symm⟩
  | report =>
    obtain ⟨hnext, ht⟩ := Option.ite_none_right_eq_some.mp h
    cases hb : s.alive[s.sttN.length]? with
    | none =>
      rw [hb] at ht
      cases ht
    | some b =>
      rw [hb] at ht
      exact .inr (.inl ⟨b, rfl, hnext, rfl, (Option.some.inj ht).symm⟩)
  | check i =>
    obtain ⟨hnext, ht⟩ := Option.ite_none_right_eq_some.mp h
    exact .inr (.inr (.inl ⟨i, rfl, hnext.2, (Option.some.inj ht).symm⟩))
  | finish =>
    obtain ⟨hnext, ht⟩ := Option.ite_none_right_eq_some.mp h
    exact .inr (.inr (.inr ⟨rfl, hnext.1, (Option.some.inj ht).symm⟩))

/-- A thread writes only its own flag. -/
theorem Flags.check {old : List Bool} {outcome : ℕ → Bool} {s : Checking}
    (h : Flags old outcome s) {i : ℕ} (hi : i ∉ s.checked) :
    Flags old outcome
      { s with alive := s.alive.set i (outcome i), checked := i :: s.checked } := by
  refine ⟨List.length_set.trans h.length, h.started, ?_, ?_, h.complete⟩
  · intro j hj
    rw [List.mem_cons, not_or] at hj
    exact (List.getElem?_set_ne (Ne.symm hj.1)).trans (h.unchecked j hj.2)
  · intro j hj hlt
    rcases List.mem_cons.mp hj with rfl | hj
    · exact List.getElem?_set_self (by rw [h.length]; exact hlt)
    · have hne : i ≠ j := by
        rintro rfl
        exact hi hj
      exact (List.getElem?_set_ne hne).trans (h.checked j hj hlt)

/-- One step keeps the account of the flags, and the report fresh if it reports no old flag. -/
theorem Flags.step {old : List Bool} {outcome : ℕ → Bool} {s t : Checking} {e : Event}
    (h : Flags old outcome s) (hstep : s.step outcome e = some t) :
    Flags old outcome t ∧
      (Fresh outcome t ↔ Fresh outcome s ∧ (e = .report → Ready old outcome s)) := by
  obtain ⟨rfl, hnext, rfl⟩ | ⟨b, rfl, hlt, hb, rfl⟩ | ⟨i, rfl, hi, rfl⟩ | ⟨rfl, hall, rfl⟩ :=
    step_cases hstep
  · refine ⟨{ h with started := ?_ }, (and_iff_left (fun heq ↦ by cases heq)).symm⟩
    rw [← h.length]
    exact hnext
  · refine ⟨{ h with complete := fun hreturned ↦ ?_ }, ?_⟩
    · have hcomplete := h.complete hreturned
      have hstarted := h.started
      omega
    · rw [fresh_concat_iff, ← h.ready_iff hb]
      exact and_congr_right fun _ ↦ ⟨fun hready _ ↦ hready, fun hready ↦ hready rfl⟩
  · exact ⟨h.check hi, (and_iff_left (fun heq ↦ by cases heq)).symm⟩
  · refine ⟨{ h with complete := fun _ ↦ ?_ }, (and_iff_left (fun heq ↦ by cases heq)).symm⟩
    exact hall.trans h.length

/-! ## Every interleaving -/

/-- A flag is only reported when it has the outcome of this call. -/
def Prompt (partitions : List MasterPartitionView) (outcome : ℕ → Bool) (before : List Event)
    (event : Event) : Prop :=
  event = .report → ∀ s, run (machine outcome) (call partitions) before = some s →
    Ready (call partitions).alive outcome s

theorem fresh_iff {partitions : List MasterPartitionView} {outcome : ℕ → Bool}
    {events : List Event} {s : Checking}
    (hrun : run (machine outcome) (call partitions) events = some s) :
    Flags (call partitions).alive outcome s ∧
      (Fresh outcome s ↔ Every (Prompt partitions outcome) events) := by
  induction events using List.reverseRecOn generalizing s with
  | nil =>
    obtain rfl := Option.some.inj hrun
    exact ⟨flags_call partitions outcome, iff_of_true (fun _ _ hb ↦ by cases hb) (every_nil _)⟩
  | append_singleton events event ih =>
    rw [run_concat] at hrun
    obtain ⟨t, hbefore, hstep⟩ := Option.bind_eq_some_iff.mp hrun
    obtain ⟨hflags, hiff⟩ := ih hbefore
    obtain ⟨hflags', hiff'⟩ := hflags.step hstep
    refine ⟨hflags', ?_⟩
    rw [hiff', hiff, every_concat, Prompt, hbefore]
    simp only [Option.some.injEq, forall_eq']

/-! ## The reports -/

/-- A complete report that is fresh gives every node its own outcome. -/
theorem reportsPresent_iff_fresh {partitions : List MasterPartitionView} {outcome : ℕ → Bool}
    {s : Checking} (hlength : s.sttN.length = (allNodes partitions).length) :
    ReportsPresent partitions outcome s.sttN ↔ Fresh outcome s := by
  constructor
  · intro h i b hb
    have hlt : i < (allNodes partitions).length := by
      rw [← hlength]
      exact (List.getElem?_eq_some_iff.mp hb).1
    obtain ⟨-, houtcome, -⟩ := h i _ (List.getElem?_eq_getElem hlt)
    exact Option.some.inj (hb.symm.trans houtcome)
  · intro h i node hnode
    have hlt : i < s.sttN.length := by
      rw [hlength]
      exact (List.getElem?_eq_some_iff.mp hnode).1
    have hreport : s.sttN[i]? = some (outcome i) := by
      rw [List.getElem?_eq_getElem hlt]
      exact congrArg some (h i _ (List.getElem?_eq_getElem hlt))
    refine ⟨?_, hreport, ?_⟩
    · rw [initBackendPorts_eq, List.getElem?_mapIdx]
      exact congrArg (Option.map _) hnode
    · rw [backendStatus, hreport]
      rfl

/-- The console reports the present health exactly when no flag is read before its thread has written
it, unless it had the right value from an earlier call. -/
theorem reports_present_iff (partitions : List MasterPartitionView) (outcome : ℕ → Bool)
    (events : List Event) (s : Checking)
    (hrun : run (machine outcome) (call partitions) events = some s)
    (hreturned : s.returned = true) :
    ReportsPresent partitions outcome s.sttN ↔ Every (Prompt partitions outcome) events := by
  obtain ⟨hflags, hfresh⟩ := fresh_iff hrun
  have hlength : s.sttN.length = (allNodes partitions).length :=
    (hflags.complete hreturned).trans (List.length_map _)
  rw [reportsPresent_iff_fresh hlength, hfresh]

/-- One node that no call has found alive yet. -/
def downNode : List MasterPartitionView := [{ nodes := [{ addr := lit "a:1" }] }]

def afterCheck : Checking where
  alive := [true]
  started := 1
  sttN := [true]
  checked := [0]
  returned := true

theorem reports_present_after_check :
    ReportsPresent downNode (fun _ ↦ true) [true] ↔ Every (Prompt downNode fun _ ↦ true)
      [.spawn, .check 0, .report, .finish] :=
  reports_present_iff downNode (fun _ ↦ true) [.spawn, .check 0, .report, .finish] afterCheck
    (by decide +kernel) rfl

/-- The loop reads the flag first: the node is up, and the console says that it is down. -/
theorem report_before_check :
    ∃ s, run (machine fun _ ↦ true) (call downNode) [.spawn, .report, .check 0, .finish] = some s ∧
      s.returned = true ∧ ¬ReportsPresent downNode (fun _ ↦ true) s.sttN := by
  refine ⟨{ afterCheck with sttN := [false] }, by decide +kernel, rfl, fun h ↦ ?_⟩
  obtain ⟨-, hreport, -⟩ := h 0 _ rfl
  cases hreport

end PennCloud.Frontend.HealthReports
