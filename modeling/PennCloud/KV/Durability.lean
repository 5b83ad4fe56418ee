import PennCloud.KV.TabletCells
import PennCloud.Library.Locks
import PennCloud.Library.Runs

/-!
# Durability across checkpoints

One node with any number of write handlers and the checkpoint thread. A handler holds its row
lock from before the log append until after its reply, but the append and the update of the tablet
are two steps, and `tbl_saving` takes the log lock only. A checkpoint between the two saves the
tablet without the record and truncates the log with it: the record is on disk nowhere,
and the handler still answers `OK`.
-/

open PennCloud.KV.TabletCells PennCloud.Library.Locks PennCloud.Library.Runs
open PennCloud.Library.WriteLog

namespace PennCloud.KV.Durability

/-- The files of a node: the tablet as saved last, and the records appended since. -/
structure Disk where
  checkpoint : Tablet := ∅
  log : List LogRecord := []

/-- The cells after a restart from these files. -/
def Disk.recover (disk : Disk) : Bytes × Bytes → Option Bytes :=
  cells (disk.log.foldl conduct disk.checkpoint)

/-- What a handler executes: `PPut` or `PDelete` on behalf of the primary, or, as the primary,
`Put` or `Delete` with a multicast before the log append. -/
structure Job where
  primary : Bool
  record : LogRecord

inductive Phase
  | idle
  | locked
  | sent
  | logged
  | applied
  | replied
  deriving DecidableEq

/-- The handler is inside of its row lock. -/
def Phase.Critical (phase : Phase) : Prop := phase ≠ .idle ∧ phase ≠ .replied

/-- A node; `replies` are the records of the handlers that answered `OK`, the latest first. -/
structure Node where
  tablet : Tablet
  disk : Disk
  lkR : LockTable Bytes ℕ := fun _ ↦ none
  phase : ℕ → Phase := fun _ ↦ .idle
  replies : List LogRecord := []

inductive Event
  | lock (h : ℕ)
  | send (h : ℕ)
  | log (h : ℕ)
  | apply (h : ℕ)
  | reply (h : ℕ)
  | checkpoint

/-- A node after a restart. -/
def start (disk : Disk) : Node where
  tablet := disk.log.foldl conduct disk.checkpoint
  disk := disk

def Node.moveTo (s : Node) (h : ℕ) (phase : Phase) : Node :=
  { s with phase := Function.update s.phase h phase }

variable (job : ℕ → Job)

/-- The phase in which a handler appends to the log. -/
def readyToLog (h : ℕ) : Phase := if (job h).primary then .sent else .locked

def Node.step (s : Node) : Event → Option Node
  | .lock h =>
    if s.phase h = .idle ∧ s.lkR (job h).record.row = none then
      some { s.moveTo h .locked with lkR := acquire s.lkR (job h).record.row h }
    else none
  | .send h => if s.phase h = .locked ∧ (job h).primary then some (s.moveTo h .sent) else none
  | .log h =>
    if s.phase h = readyToLog job h then
      some { s.moveTo h .logged with
        disk := { s.disk with log := s.disk.log ++ [(job h).record] } }
    else none
  | .apply h =>
    if s.phase h = .logged then
      some { s.moveTo h .applied with tablet := conduct s.tablet (job h).record }
    else none
  | .reply h =>
    if s.phase h = .applied then
      some { s.moveTo h .replied with
        lkR := release s.lkR (job h).record.row
        replies := (job h).record :: s.replies }
    else none
  | .checkpoint => some { s with disk := { checkpoint := s.tablet, log := [] } }

def machine : Machine Node Event where
  step s e := s.step job e

/-- The last write of a cell that was answered `OK`. -/
def Node.lastReply (s : Node) (cell : Bytes × Bytes) : Option LogRecord :=
  s.replies.find? fun record ↦ record.cell = cell

/-- The record of the handler is in the log or the tablet, and it has not answered. -/
def Node.InFlight (s : Node) (h : ℕ) : Prop := s.phase h = .logged ∨ s.phase h = .applied

/-- A restart recovers at each cell the last write that was answered `OK`, or the one that is just
replacing it. -/
def Durable (s : Node) : Prop :=
  ∀ cell record, s.lastReply cell = some record →
    s.disk.recover cell = record.outcome ∨
    ∃ h, s.InFlight h ∧ (job h).record.cell = cell ∧
      s.disk.recover cell = (job h).record.outcome

/-- Writes are durable in all runs whose steps satisfy the condition. -/
def WritesDurable (disk : Disk) (ok : Node → Event → Prop) : Prop :=
  ∀ s, Reaches (machine job) ok (start disk) s → Durable job s

/-- A checkpoint finds no handler between its log append and its update of the tablet, except
with a record that the tablet shows already. -/
def NothingPending (s : Node) : Event → Prop
  | .checkpoint => ∀ h, s.phase h = .logged →
      cells s.tablet (job h).record.cell = (job h).record.outcome
  | _ => True

/-! ## Steps -/

/-- The steps, with their conditions. -/
inductive Stepped (s : Node) : Event → Node → Prop
  | lock (h : ℕ) (hphase : s.phase h = .idle) (hfree : s.lkR (job h).record.row = none) :
      Stepped s (.lock h)
        { s.moveTo h .locked with lkR := acquire s.lkR (job h).record.row h }
  | send (h : ℕ) (hphase : s.phase h = .locked) : Stepped s (.send h) (s.moveTo h .sent)
  | log (h : ℕ) (hphase : s.phase h = .locked ∨ s.phase h = .sent) :
      Stepped s (.log h)
        { s.moveTo h .logged with
          disk := { s.disk with log := s.disk.log ++ [(job h).record] } }
  | apply (h : ℕ) (hphase : s.phase h = .logged) :
      Stepped s (.apply h)
        { s.moveTo h .applied with tablet := conduct s.tablet (job h).record }
  | reply (h : ℕ) (hphase : s.phase h = .applied) :
      Stepped s (.reply h)
        { s.moveTo h .replied with
          lkR := release s.lkR (job h).record.row
          replies := (job h).record :: s.replies }
  | checkpoint :
      Stepped s .checkpoint { s with disk := { checkpoint := s.tablet, log := [] } }

theorem stepped_of_step {s t : Node} {e : Event} (h : s.step job e = some t) :
    Stepped job s e t := by
  cases e with
  | lock h' =>
    obtain ⟨⟨hphase, hfree⟩, heq⟩ := Option.ite_none_right_eq_some.mp h
    cases heq
    exact .lock h' hphase hfree
  | send h' =>
    obtain ⟨⟨hphase, -⟩, heq⟩ := Option.ite_none_right_eq_some.mp h
    cases heq
    exact .send h' hphase
  | log h' =>
    obtain ⟨hphase, heq⟩ := Option.ite_none_right_eq_some.mp h
    cases heq
    refine .log h' ?_
    unfold readyToLog at hphase
    split at hphase
    · exact .inr hphase
    · exact .inl hphase
  | apply h' =>
    obtain ⟨hphase, heq⟩ := Option.ite_none_right_eq_some.mp h
    cases heq
    exact .apply h' hphase
  | reply h' =>
    obtain ⟨hphase, heq⟩ := Option.ite_none_right_eq_some.mp h
    cases heq
    exact .reply h' hphase
  | checkpoint =>
    cases h
    exact .checkpoint

theorem moveTo_phase_self (s : Node) (h : ℕ) (phase : Phase) :
    (s.moveTo h phase).phase h = phase :=
  Function.update_self _ _ _

theorem moveTo_phase_of_ne (s : Node) {h u : ℕ} (hne : u ≠ h) (phase : Phase) :
    (s.moveTo h phase).phase u = s.phase u :=
  Function.update_of_ne hne _ _

/-- A move leaves those alone who are in another phase than the one that moves. -/
theorem moveTo_phase_of_phase {s : Node} {h u : ℕ} {phase : Phase} (hu : s.phase u = phase)
    (hne : s.phase h ≠ phase) (next : Phase) : (s.moveTo h next).phase u = phase := by
  rw [moveTo_phase_of_ne, hu]
  rintro rfl
  exact hne hu

/-- Who is in a phase after a move to another one was there before. -/
theorem phase_of_moveTo {s : Node} {h u : ℕ} {phase other : Phase} (hne : phase ≠ other)
    (hu : (s.moveTo h phase).phase u = other) : u ≠ h ∧ s.phase u = other := by
  by_cases heq : u = h
  · rw [heq, moveTo_phase_self] at hu
    exact absurd hu hne
  · rw [moveTo_phase_of_ne s heq] at hu
    exact ⟨heq, hu⟩

/-! ## Locks -/

/-- The handler is inside of the lock of this row. -/
def Inside (s : Node) (h : ℕ) (row : Bytes) : Prop :=
  (s.phase h).Critical ∧ (job h).record.row = row

theorem inside_moveTo {s : Node} {h : ℕ} {phase : Phase} (hold : (s.phase h).Critical)
    (hnew : phase.Critical) (u : ℕ) (row : Bytes) :
    Inside job (s.moveTo h phase) u row ↔ Inside job s u row := by
  unfold Inside
  by_cases hu : u = h
  · subst hu
    simp only [moveTo_phase_self, hold, hnew]
  · simp only [moveTo_phase_of_ne s hu]

theorem critical_of_eq {phase phase' : Phase} (h : phase = phase') (hne : phase' ≠ .idle)
    (hne' : phase' ≠ .replied) : phase.Critical := by
  rw [h]
  exact ⟨hne, hne'⟩

/-- Each handler is alone in its row from its lock to its reply. -/
theorem step_guards {s t : Node} {e : Event} (h : Guards s.lkR (Inside job s))
    (hstep : s.step job e = some t) : Guards t.lkR (Inside job t) := by
  cases stepped_of_step job hstep with
  | lock h' hphase hfree =>
    apply h.acquire hfree
    intro u row
    by_cases hu : u = h'
    · subst hu
      simp only [Inside, moveTo_phase_self, hphase, Phase.Critical]
      simp [eq_comm]
    · simp only [Inside, moveTo_phase_of_ne s hu, hu, false_and, or_false]
  | send h' hphase =>
    apply h.congr
    exact inside_moveTo job (critical_of_eq hphase (by decide) (by decide))
      ⟨by decide, by decide⟩
  | log h' hphase =>
    have hold : (s.phase h').Critical := by
      rcases hphase with hphase | hphase
      · exact critical_of_eq hphase (by decide) (by decide)
      · exact critical_of_eq hphase (by decide) (by decide)
    apply h.congr
    exact inside_moveTo job hold ⟨by decide, by decide⟩
  | apply h' hphase =>
    apply h.congr
    exact inside_moveTo job (critical_of_eq hphase (by decide) (by decide))
      ⟨by decide, by decide⟩
  | reply h' hphase =>
    have hin : Inside job s h' (job h').record.row :=
      ⟨critical_of_eq hphase (by decide) (by decide), rfl⟩
    apply h.release hin
    intro u row
    by_cases hu : u = h'
    · subst hu
      simp only [Inside, moveTo_phase_self, Phase.Critical, true_and]
      simp [eq_comm]
    · simp only [Inside, moveTo_phase_of_ne s hu, hu, false_and, not_false_eq_true, and_true]
  | checkpoint => exact h

theorem start_guards (disk : Disk) : Guards (start disk).lkR (Inside job (start disk)) := by
  intro row u
  simp [start, Inside, Phase.Critical]

theorem reaches_guards {ok : Node → Event → Prop} {disk : Disk} {s : Node}
    (h : Reaches (machine job) ok (start disk) s) : Guards s.lkR (Inside job s) := by
  apply h.invariant (I := fun s ↦ Guards s.lkR (Inside job s)) (start_guards job disk)
  intro t e u ht _ hstep
  exact step_guards job ht hstep

/-- Two handlers inside of the locks of their cells are about different cells. -/
theorem cell_ne_of_critical {s : Node} (h : Guards s.lkR (Inside job s)) {u v : ℕ}
    (hu : (s.phase u).Critical) (hv : (s.phase v).Critical) (hne : u ≠ v) :
    (job u).record.cell ≠ (job v).record.cell := by
  intro hcell
  apply hne
  exact h.unique ⟨hu, congrArg Prod.fst hcell⟩ ⟨hv, rfl⟩

/-! ## The disk, the tablet and the replies -/

/-- No handler of this cell is in this phase. -/
def Absent (s : Node) (phase : Phase) (cell : Bytes × Bytes) : Prop :=
  ∀ h, s.phase h = phase → (job h).record.cell ≠ cell

/-- The disk agrees with the tablet except at cells whose record is logged but not applied, and
the tablet with the replies except at cells whose record is applied but not answered. -/
structure DiskInv (s : Node) : Prop where
  guards : Guards s.lkR (Inside job s)
  pending : ∀ h, s.phase h = .logged →
    s.disk.recover (job h).record.cell = (job h).record.outcome
  settled : ∀ cell, Absent job s .logged cell → s.disk.recover cell = cells s.tablet cell
  shown : ∀ h, s.phase h = .applied → cells s.tablet (job h).record.cell = (job h).record.outcome
  answered : ∀ cell record, Absent job s .applied cell → s.lastReply cell = some record →
    cells s.tablet cell = record.outcome

theorem Disk.recover_append (disk : Disk) (record : LogRecord) :
    Disk.recover { disk with log := disk.log ++ [record] } = write disk.recover record := by
  simp only [Disk.recover, List.foldl_append, List.foldl_cons, List.foldl_nil, conduct_cells]

theorem DiskInv.durable {s : Node} (h : DiskInv job s) : Durable job s := by
  intro cell record hreply
  by_cases hlogged : Absent job s .logged cell
  · rw [h.settled cell hlogged]
    by_cases happlied : Absent job s .applied cell
    · exact .inl (h.answered cell record happlied hreply)
    · simp only [Absent, ne_eq, not_forall, not_not] at happlied
      obtain ⟨u, hu, hcell⟩ := happlied
      refine .inr ⟨u, .inr hu, hcell, ?_⟩
      rw [← hcell]
      exact h.shown u hu
  · simp only [Absent, ne_eq, not_forall, not_not] at hlogged
    obtain ⟨u, hu, hcell⟩ := hlogged
    refine .inr ⟨u, .inl hu, hcell, ?_⟩
    rw [← hcell]
    exact h.pending u hu

theorem start_diskInv (disk : Disk) : DiskInv job (start disk) where
  guards := start_guards job disk
  pending := fun _ hphase ↦ nomatch hphase
  settled := fun _ _ ↦ rfl
  shown := fun _ hphase ↦ nomatch hphase
  answered := fun _ _ _ hreply ↦ nomatch hreply

/-- A move between phases other than `logged` and `applied` touches nothing. -/
theorem DiskInv.of_phase {s t : Node} (h : DiskInv job s) (hguards : Guards t.lkR (Inside job t))
    (hdisk : t.disk = s.disk) (htablet : t.tablet = s.tablet) (hreplies : t.replies = s.replies)
    (hphase : ∀ u, (t.phase u = .logged ↔ s.phase u = .logged) ∧
      (t.phase u = .applied ↔ s.phase u = .applied)) : DiskInv job t where
  guards := hguards
  pending := by
    intro u hu
    rw [hdisk]
    exact h.pending u ((hphase u).1.mp hu)
  settled := by
    intro cell habsent
    rw [hdisk, htablet]
    exact h.settled cell fun u hu ↦ habsent u ((hphase u).1.mpr hu)
  shown := by
    intro u hu
    rw [htablet]
    exact h.shown u ((hphase u).2.mp hu)
  answered := by
    intro cell record habsent hreply
    rw [htablet]
    rw [Node.lastReply, hreplies] at hreply
    exact h.answered cell record (fun u hu ↦ habsent u ((hphase u).2.mpr hu)) hreply

/-- The phases `logged` and `applied` of all handlers, after a move outside of them. -/
theorem moveTo_inFlight {s : Node} {h : ℕ} {phase : Phase} (hold : ¬s.InFlight h)
    (hnew : phase ≠ .logged ∧ phase ≠ .applied) (u : ℕ) :
    ((s.moveTo h phase).phase u = .logged ↔ s.phase u = .logged) ∧
      ((s.moveTo h phase).phase u = .applied ↔ s.phase u = .applied) := by
  unfold Node.InFlight at hold
  by_cases hu : u = h
  · subst hu
    rw [moveTo_phase_self]
    constructor
    · exact iff_of_false hnew.1 fun heq ↦ hold (.inl heq)
    · exact iff_of_false hnew.2 fun heq ↦ hold (.inr heq)
  · rw [moveTo_phase_of_ne s hu]
    exact ⟨Iff.rfl, Iff.rfl⟩

theorem DiskInv.log {s : Node} (h : DiskInv job s) {v : ℕ}
    (hphase : s.phase v = .locked ∨ s.phase v = .sent)
    (hguards : Guards s.lkR (Inside job (s.moveTo v .logged))) :
    DiskInv job { s.moveTo v .logged with
      disk := { s.disk with log := s.disk.log ++ [(job v).record] } } where
  guards := hguards
  pending := by
    intro u hu
    rw [Disk.recover_append]
    by_cases huv : u = v
    · rw [huv]
      exact write_self _ _
    · have hu' : s.phase u = .logged := by rwa [moveTo_phase_of_ne s huv] at hu
      have hcrit : (s.phase v).Critical := by
        rcases hphase with hphase | hphase
        · exact critical_of_eq hphase (by decide) (by decide)
        · exact critical_of_eq hphase (by decide) (by decide)
      have hne := cell_ne_of_critical job h.guards
        (critical_of_eq hu' (by decide) (by decide)) hcrit huv
      rw [write_of_ne hne]
      exact h.pending u hu'
  settled := by
    intro cell habsent
    have hcell : cell ≠ (job v).record.cell :=
      fun heq ↦ habsent v (moveTo_phase_self s v .logged) heq.symm
    rw [Disk.recover_append, write_of_ne hcell]
    apply h.settled
    intro u hu
    by_cases huv : u = v
    · rw [huv]
      exact hcell.symm
    · exact habsent u ((moveTo_phase_of_ne s huv .logged).trans hu)
  shown := by
    intro u hu
    exact h.shown u (phase_of_moveTo (by decide) hu).2
  answered := by
    intro cell record habsent hreply
    have hother : s.phase v ≠ .applied := by
      rcases hphase with hphase | hphase
      · rw [hphase]
        decide
      · rw [hphase]
        decide
    exact h.answered cell record
      (fun u hu ↦ habsent u (moveTo_phase_of_phase hu hother .logged)) hreply

theorem DiskInv.apply {s : Node} (h : DiskInv job s) {v : ℕ} (hphase : s.phase v = .logged)
    (hguards : Guards s.lkR (Inside job (s.moveTo v .applied))) :
    DiskInv job { s.moveTo v .applied with tablet := conduct s.tablet (job v).record } where
  guards := hguards
  pending := by
    intro u hu
    exact h.pending u (phase_of_moveTo (by decide) hu).2
  settled := by
    intro cell habsent
    dsimp only
    rw [conduct_cells]
    by_cases hcell : cell = (job v).record.cell
    · have hwrite : write (cells s.tablet) (job v).record (job v).record.cell =
          (job v).record.outcome := write_self _ _
      rw [hcell, hwrite]
      exact h.pending v hphase
    · rw [write_of_ne hcell]
      apply h.settled
      intro u hu
      by_cases huv : u = v
      · rw [huv]
        exact fun heq ↦ hcell heq.symm
      · exact habsent u ((moveTo_phase_of_ne s huv .applied).trans hu)
  shown := by
    intro u hu
    dsimp only
    rw [conduct_cells]
    by_cases huv : u = v
    · rw [huv]
      exact write_self _ _
    · have hu' : s.phase u = .applied := by rwa [moveTo_phase_of_ne s huv] at hu
      have hne := cell_ne_of_critical job h.guards
        (critical_of_eq hu' (by decide) (by decide))
        (critical_of_eq hphase (by decide) (by decide)) huv
      rw [write_of_ne hne]
      exact h.shown u hu'
  answered := by
    intro cell record habsent hreply
    have hcell : cell ≠ (job v).record.cell :=
      fun heq ↦ habsent v (moveTo_phase_self s v .applied) heq.symm
    dsimp only
    rw [conduct_cells, write_of_ne hcell]
    have hother : s.phase v ≠ .applied := by
      rw [hphase]
      decide
    exact h.answered cell record
      (fun u hu ↦ habsent u (moveTo_phase_of_phase hu hother .applied)) hreply

theorem DiskInv.reply {s : Node} (h : DiskInv job s) {v : ℕ} (hphase : s.phase v = .applied)
    {lkR : LockTable Bytes ℕ} (hguards : Guards lkR (Inside job (s.moveTo v .replied))) :
    DiskInv job { s.moveTo v .replied with
      lkR := lkR
      replies := (job v).record :: s.replies } where
  guards := hguards
  pending := by
    intro u hu
    exact h.pending u (phase_of_moveTo (by decide) hu).2
  settled := by
    intro cell habsent
    have hother : s.phase v ≠ .logged := by
      rw [hphase]
      decide
    exact h.settled cell fun u hu ↦ habsent u (moveTo_phase_of_phase hu hother .replied)
  shown := by
    intro u hu
    exact h.shown u (phase_of_moveTo (by decide) hu).2
  answered := by
    intro cell record habsent hreply
    simp only [Node.lastReply, List.find?_cons] at hreply
    split at hreply
    · next hcell =>
      obtain rfl := Option.some.inj hreply
      rw [← of_decide_eq_true hcell]
      exact h.shown v hphase
    · next hcell =>
      apply h.answered cell record _ hreply
      intro u hu
      by_cases huv : u = v
      · rw [huv]
        exact of_decide_eq_false hcell
      · exact habsent u ((moveTo_phase_of_ne s huv .replied).trans hu)

theorem DiskInv.checkpoint {s : Node} (h : DiskInv job s) (hok : NothingPending job s .checkpoint) :
    DiskInv job { s with disk := { checkpoint := s.tablet, log := [] } } where
  guards := h.guards
  pending := hok
  settled := fun _ _ ↦ rfl
  shown := h.shown
  answered := h.answered

/-- The step lemma. -/
theorem step_diskInv {s t : Node} {e : Event} (h : DiskInv job s) (hok : NothingPending job s e)
    (hstep : s.step job e = some t) : DiskInv job t := by
  have hguards := step_guards job h.guards hstep
  cases stepped_of_step job hstep with
  | lock v hphase =>
    apply h.of_phase job hguards rfl rfl rfl
    apply moveTo_inFlight
    · simp [Node.InFlight, hphase]
    · decide
  | send v hphase =>
    apply h.of_phase job hguards rfl rfl rfl
    apply moveTo_inFlight
    · simp [Node.InFlight, hphase]
    · decide
  | log v hphase => exact h.log job hphase hguards
  | apply v hphase => exact h.apply job hphase hguards
  | reply v hphase => exact h.reply job hphase hguards
  | checkpoint => exact h.checkpoint job hok

/-- The run lemma. -/
theorem reaches_diskInv {disk : Disk} {s : Node}
    (h : Reaches (machine job) (NothingPending job) (start disk) s) : DiskInv job s := by
  apply h.invariant (start_diskInv job disk)
  intro t e u ht hok hstep
  exact step_diskInv job ht hok hstep

/-! ## The converse -/

/-- The handler that a checkpoint overtook applies its record and answers. -/
def overtaken (h : ℕ) : List Event := [.checkpoint, .apply h, .reply h]

/-- The state in which it has answered. -/
def Node.afterOvertaken (s : Node) (h : ℕ) : Node :=
  { s.moveTo h .replied with
    tablet := conduct s.tablet (job h).record
    disk := { checkpoint := s.tablet, log := [] }
    lkR := release s.lkR (job h).record.row
    replies := (job h).record :: s.replies }

theorem run_overtaken {s : Node} {h : ℕ} (hphase : s.phase h = .logged) :
    run (machine job) s (overtaken h) = some (s.afterOvertaken job h) := by
  simp only [overtaken, run, machine, Node.step, Node.moveTo, hphase, if_true, Option.bind_some,
    Function.update_self, Function.update_idem, Node.afterOvertaken]

/-- A checkpoint that finds a pending record can lose it. -/
theorem not_durable_of_overtaken {s : Node} (hguards : Guards s.lkR (Inside job s)) {h : ℕ}
    (hphase : s.phase h = .logged)
    (hchanges : cells s.tablet (job h).record.cell ≠ (job h).record.outcome) :
    ¬Durable job (s.afterOvertaken job h) := by
  intro hdurable
  have hreply : (s.afterOvertaken job h).lastReply (job h).record.cell = some (job h).record := by
    simp only [Node.lastReply, Node.afterOvertaken, List.find?_cons, decide_true]
  rcases hdurable _ _ hreply with hkept | ⟨u, hu, hcell, -⟩
  · exact hchanges hkept
  · have huh : u ≠ h := by
      rintro rfl
      have hreplied : (s.afterOvertaken job u).phase u = .replied := Function.update_self _ _ _
      rw [Node.InFlight, hreplied] at hu
      rcases hu with hu | hu
      · cases hu
      · cases hu
    have hsame : (s.afterOvertaken job h).phase u = s.phase u := Function.update_of_ne huh _ _
    have hcrit : (s.phase u).Critical := by
      rw [Node.InFlight, hsame] at hu
      rcases hu with hu | hu
      · exact critical_of_eq hu (by decide) (by decide)
      · exact critical_of_eq hu (by decide) (by decide)
    exact cell_ne_of_critical job hguards hcrit (critical_of_eq hphase (by decide) (by decide))
      huh hcell

/-- Writes are durable in every run whose checkpoints find nothing pending; and from every
reachable state in which a checkpoint would find a pending record, taking it and letting
the handler finish loses an answered write. -/
theorem writes_durable (disk : Disk) :
    WritesDurable job disk (NothingPending job) ∧
    ∀ s, Reaches (machine job) anyStep (start disk) s → ¬NothingPending job s .checkpoint →
      ∃ h t, run (machine job) s (overtaken h) = some t ∧ ¬Durable job t := by
  constructor
  · intro s hreach
    exact (reaches_diskInv job hreach).durable
  · intro s hreach hpending
    simp only [NothingPending, not_forall] at hpending
    obtain ⟨h, hphase, hchanges⟩ := hpending
    refine ⟨h, s.afterOvertaken job h, run_overtaken job hphase, ?_⟩
    exact not_durable_of_overtaken job (reaches_guards job hreach) hphase hchanges

/-- Every handler executes the same `PPut`. -/
def samePPut : ℕ → Job := fun _ ↦
  { primary := false, record := .put (lit "row") (lit "col") (lit "value") }

/-- A checkpoint between the log append and the update of the tablet. -/
def overtakenPPut : List Event := [.lock 0, .log 0, .checkpoint, .apply 0, .reply 0]

/-- The answered write is lost and no handler is in flight. -/
def losesWrite (s : Node) : Bool :=
  s.lastReply (lit "row", lit "col") = some (.put (lit "row") (lit "col") (lit "value")) &&
  s.disk.recover (lit "row", lit "col") = none

theorem checkpoint_loses_write : ¬WritesDurable samePPut {} anyStep := by
  intro hsafe
  have hrun : (run (machine samePPut) (start {}) overtakenPPut).map losesWrite = some true := by
    decide
  obtain ⟨s, hreach, hlost⟩ := reaches_of_run_check hrun
  simp only [losesWrite, Bool.and_eq_true, decide_eq_true_eq] at hlost
  rcases hsafe s hreach _ _ hlost.1 with hkept | ⟨h, -, -, hkept⟩
  · rw [hlost.2] at hkept
    cases hkept
  · rw [hlost.2] at hkept
    cases hkept

end PennCloud.KV.Durability
