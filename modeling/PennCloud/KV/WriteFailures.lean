import PennCloud.KV.CompareAndSet
import PennCloud.KV.LogFile
import PennCloud.Library.Runs

/-!
# Failures on the way of a write

A primary sends a write to its peers, appends it to its log and applies it, and at each of these
something can go wrong. `multic_p` and `multic_d` start a thread for each peer and give it the
address of a status that is a copy of the one in their vector; the one they look at, before they
join the thread, is never written. The results of `checkpt_log_p` and `del_log` are dropped. So
a failed call of a peer is never reported, and a request is answered with `OK` whatever the log holds.
-/

open PennCloud.Library.PrefixCode PennCloud.Library.Runs
open PennCloud.KV.TabletCells PennCloud.KV.PrimaryView PennCloud.KV.DiskRecord PennCloud.KV.LogFile
open PennCloud.KV.Handlers PennCloud.KV.FlatStore PennCloud.KV.CompareAndSet

namespace PennCloud.KV.WriteFailures

/-! ## Multicasts -/

/-- A multicast in progress. `statVec` is the vector of statuses and `locals` the variable `st` of
each iteration, whose address the thread gets; the other fields are the threads that have
returned, the positions of the second loop, and the peers it has reported. -/
structure Multicast where
  statVec : List Status := []
  locals : List Status := []
  finished : List ℕ := []
  checked : ℕ := 0
  joined : ℕ := 0
  reported : List ℕ := []

inductive Event
  | launch
  | finish (i : ℕ)
  | check
  | join

variable (peers : ℕ) (rpc : ℕ → Status)

/-- The main thread launches a thread for each peer, then checks and joins them in turn. A thread
ends with the final status of its call, at any time. -/
def Multicast.step (s : Multicast) : Event → Option Multicast
  | .launch =>
    if s.statVec.length < peers then
      some { s with
        statVec := s.statVec ++ [{ code := .ok }]
        locals := s.locals ++ [{ code := .ok }] }
    else none
  | .finish i =>
    if i < s.locals.length ∧ i ∉ s.finished then
      some { s with locals := s.locals.set i (rpc i), finished := i :: s.finished }
    else none
  | .check =>
    if s.statVec.length = peers ∧ s.checked < peers ∧ s.checked = s.joined then
      some { s with
        checked := s.checked + 1
        reported :=
          match s.statVec[s.checked]? with
          | some stThis => if stThis.code = .ok then s.reported else s.reported ++ [s.checked]
          | none => s.reported }
    else none
  | .join =>
    if s.joined < s.checked ∧ s.joined ∈ s.finished then
      some { s with joined := s.joined + 1 }
    else none

def multicP : Machine Multicast Event where
  step := Multicast.step peers rpc

/-- The same body with `PDelete` in the threads. -/
def multicD : Machine Multicast Event where
  step := Multicast.step peers rpc

/-- The multicast for a record. -/
def multicast : LogRecord → Machine Multicast Event
  | .put _ _ _ => multicP peers rpc
  | .delete _ _ => multicD peers rpc

theorem multicast_step (record : LogRecord) (s : Multicast) (e : Event) :
    (multicast peers rpc record).step s e = s.step peers rpc e := by
  cases record with
  | put rk ck ddt => rfl
  | delete rk ck => rfl

/-- What is inspected is the status each slot of the vector was created with. -/
structure Blind (s : Multicast) : Prop where
  statVec : ∀ st ∈ s.statVec, st.code = .ok
  reported : s.reported = []

section Runs

variable {peers rpc} {record : LogRecord}

theorem step_blind {s t : Multicast} {e : Event} (h : Blind s)
    (hstep : s.step peers rpc e = some t) : Blind t := by
  cases e with
  | launch =>
    simp only [Multicast.step, Option.ite_none_right_eq_some, Option.some.injEq] at hstep
    obtain ⟨-, rfl⟩ := hstep
    refine ⟨?_, h.reported⟩
    intro st hst
    rw [List.mem_append, List.mem_singleton] at hst
    cases hst with
    | inl hold => exact h.statVec st hold
    | inr hnew => rw [hnew]
  | finish i =>
    simp only [Multicast.step, Option.ite_none_right_eq_some, Option.some.injEq] at hstep
    obtain ⟨-, rfl⟩ := hstep
    exact ⟨h.statVec, h.reported⟩
  | check =>
    simp only [Multicast.step, Option.ite_none_right_eq_some, Option.some.injEq] at hstep
    obtain ⟨-, rfl⟩ := hstep
    refine ⟨h.statVec, ?_⟩
    dsimp only
    split
    · next stThis hst =>
      rw [if_pos (h.statVec stThis (List.mem_of_getElem? hst))]
      exact h.reported
    · exact h.reported
  | join =>
    simp only [Multicast.step, Option.ite_none_right_eq_some, Option.some.injEq] at hstep
    obtain ⟨-, rfl⟩ := hstep
    exact ⟨h.statVec, h.reported⟩

/-- No multicast reports a peer, whatever its call ended with and whenever. -/
theorem reaches_reported {s : Multicast} (h : Reaches (multicast peers rpc record) anyStep {} s) :
    s.reported = [] := by
  have hstart : Blind {} := ⟨fun _ hst ↦ absurd hst List.not_mem_nil, rfl⟩
  apply Blind.reported
  refine h.invariant hstart fun t e u ht _ hstep ↦ ?_
  rw [multicast_step] at hstep
  exact step_blind ht hstep

theorem reaches_step {s t : Multicast} (e : Event)
    (h : Reaches (multicast peers rpc record) anyStep {} s) (hstep : s.step peers rpc e = some t) :
    Reaches (multicast peers rpc record) anyStep {} t := by
  rw [← multicast_step] at hstep
  exact h.tail trivial hstep

theorem exists_launched (k : ℕ) (hk : k ≤ peers) :
    ∃ s, Reaches (multicast peers rpc record) anyStep {} s ∧ s.statVec.length = k ∧
      s.locals.length = k ∧ s.finished = [] ∧ s.checked = 0 ∧ s.joined = 0 := by
  induction k with
  | zero => exact ⟨{}, Reaches.refl, rfl, rfl, rfl, rfl, rfl⟩
  | succ k ih =>
    obtain ⟨s, hreach, hvec, hlocals, hfinished, hchecked, hjoined⟩ := ih (by omega)
    have hlaunch : s.statVec.length < peers := by omega
    refine ⟨_, reaches_step .launch hreach (if_pos hlaunch), ?_, ?_,
      hfinished, hchecked, hjoined⟩
    · rw [List.length_append, hvec, List.length_singleton]
    · rw [List.length_append, hlocals, List.length_singleton]

theorem exists_joined (k : ℕ) (hk : k ≤ peers) :
    ∃ s, Reaches (multicast peers rpc record) anyStep {} s ∧ s.statVec.length = peers ∧
      s.locals.length = peers ∧ (∀ i ∈ s.finished, i < k) ∧ s.checked = k ∧ s.joined = k := by
  induction k with
  | zero =>
    obtain ⟨s, hreach, hvec, hlocals, hfinished, hchecked, hjoined⟩ := exists_launched peers le_rfl
    refine ⟨s, hreach, hvec, hlocals, ?_, hchecked, hjoined⟩
    rw [hfinished]
    exact fun i hi ↦ absurd hi List.not_mem_nil
  | succ k ih =>
    obtain ⟨s, hreach, hvec, hlocals, hfinished, hchecked, hjoined⟩ := ih (by omega)
    have hfinish : k < s.locals.length ∧ k ∉ s.finished :=
      ⟨by omega, fun hmem ↦ lt_irrefl k (hfinished k hmem)⟩
    have hreach := reaches_step (.finish k) hreach (if_pos hfinish)
    have hcheck : s.statVec.length = peers ∧ s.checked < peers ∧ s.checked = s.joined :=
      ⟨hvec, by omega, by omega⟩
    have hreach := reaches_step .check hreach (if_pos hcheck)
    have hjoin : s.joined < s.checked + 1 ∧ s.joined ∈ k :: s.finished := by
      rw [hjoined, hchecked]
      exact ⟨by omega, List.mem_cons_self⟩
    have hreach := reaches_step .join hreach (if_pos hjoin)
    refine ⟨_, hreach, hvec, ?_, ?_, ?_, ?_⟩
    · rw [List.length_set, hlocals]
    · intro i hi
      rw [List.mem_cons] at hi
      cases hi with
      | inl heq => omega
      | inr hold => exact (hfinished i hold).trans (by omega)
    · dsimp only
      omega
    · dsimp only
      omega

end Runs

/-- When the multicast has ended it has reported exactly the peers whose calls failed. -/
def ReportsFailures (record : LogRecord) : Prop :=
  ∀ s, Reaches (multicast peers rpc record) anyStep {} s → s.joined = peers →
    ∀ i < peers, i ∈ s.reported ↔ (rpc i).code ≠ .ok

theorem reportsFailures_iff (record : LogRecord) :
    ReportsFailures peers rpc record ↔ ∀ i < peers, (rpc i).code = .ok := by
  constructor
  · intro h i hi
    obtain ⟨s, hreach, -, -, -, -, hjoined⟩ := exists_joined peers le_rfl
    by_contra hfailed
    have hmem := (h s hreach hjoined i hi).mpr hfailed
    rw [reaches_reported hreach] at hmem
    cases hmem
  · intro h s hreach _ i hi
    rw [reaches_reported hreach, h i hi]
    exact iff_of_false List.not_mem_nil (not_not.mpr rfl)

/-! ## Requests -/

inductive WriteRequest
  | put (prq : PutRequest)
  | delete (prq : DeleteRequest)
  | cPut (prq : CPutRequest)

/-- `none` is an aborted process. -/
def handle (node : KVNode) (around : Surroundings) : WriteRequest → Option Outcome
  | .put prq => some (put node around prq)
  | .delete prq => some (delete node around prq)
  | .cPut prq => cPut node around prq

/-- The record a request is for. -/
def WriteRequest.record : WriteRequest → LogRecord
  | .put prq => .put prq.row prq.col prq.value
  | .delete prq => .delete prq.row prq.col
  | .cPut prq => .put prq.row prq.col prq.v2

/-- A serving primary executes the request. -/
def Accepted (node : KVNode) : WriteRequest → Prop
  | .put prq => node.statusServ = true ∧ prq.row ≠ [] ∧ prq.col ≠ []
  | .delete _ => node.statusServ = true
  | .cPut prq => node.statusServ = true ∧ prq.row ≠ [] ∧ prq.col ≠ [] ∧
      cells node.tablet (prq.row, prq.col) = some prq.v1

theorem hasEmptyKey_of_not {serving : Bool} {rk ck : Bytes}
    (h : ¬(serving = true ∧ rk ≠ [] ∧ ck ≠ [])) (hserving : serving = true) :
    (rk.isEmpty || ck.isEmpty) = true := by
  rw [and_iff_right hserving, not_and_or, not_not, not_not] at h
  simpa only [Bool.or_eq_true, List.isEmpty_iff] using h

/-- A comparison that fails is answered with an error, if at all. -/
theorem cPutCheck_of_ne {tablet : Tablet} {rk ck v1 : Bytes}
    (h : cells tablet (rk, ck) ≠ some v1) :
    (cPutCheck tablet rk ck v1).2 = .abort ∨
      ∃ status, (cPutCheck tablet rk ck v1).2 = .refuse status ∧ status.code ≠ .ok := by
  cases hcell : cells tablet (rk, ck) with
  | none =>
    have hverdict := cPutCheck_of_none hcell v1
    split at hverdict
    · exact .inl hverdict
    · obtain ⟨message, hrefuse⟩ := hverdict
      exact .inr ⟨_, hrefuse, by simp⟩
  | some value =>
    have hverdict := cPutCheck_of_some hcell v1
    have hne : value ≠ v1 := fun heq ↦ h (heq ▸ hcell)
    rw [if_neg hne] at hverdict
    exact .inr ⟨_, hverdict, by simp⟩

section Primary

variable {node : KVNode} (hprimary : ActsAsPrimary node) (around : Surroundings)
include hprimary

theorem handle_of_accepted {request : WriteRequest} (h : Accepted node request) :
    ∃ outcome, handle node around request = some outcome ∧ outcome.reply.status.code = .ok ∧
      outcome.multicast = some request.record := by
  cases request with
  | put prq =>
    obtain ⟨hserving, hrow, hcol⟩ := h
    have hput : put node around prq = executePrimary node (.put prq.row prq.col prq.value) := by
      unfold put followRoute putRoute
      rw [routeWrite_primary hprimary]
      simp [hserving, hrow, hcol]
    exact ⟨_, congrArg some hput, rfl, rfl⟩
  | delete prq =>
    have hserving : node.statusServ = true := h
    have hdelete : delete node around prq = executePrimary node (.delete prq.row prq.col) := by
      unfold delete followRoute deleteRoute
      rw [routeWrite_primary hprimary]
      simp [hserving]
    exact ⟨_, congrArg some hdelete, rfl, rfl⟩
  | cPut prq =>
    obtain ⟨hserving, hrow, hcol, hcell⟩ := h
    have hverdict := cPutCheck_of_some hcell prq.v1
    rw [if_pos rfl] at hverdict
    rw [handle, cPut_primary around hserving hprimary hrow hcol]
    generalize cPutCheck node.tablet prq.row prq.col prq.v1 = checked at hverdict ⊢
    obtain ⟨tablet, verdict⟩ := checked
    obtain rfl : verdict = .accept := hverdict
    exact ⟨_, rfl, rfl, rfl⟩

theorem handle_of_not_accepted {request : WriteRequest} (h : ¬Accepted node request)
    {outcome : Outcome} (houtcome : handle node around request = some outcome) :
    outcome.reply.status.code ≠ .ok ∧ outcome.multicast = none := by
  cases request with
  | put prq =>
    cases houtcome
    unfold put followRoute putRoute
    rw [routeWrite_primary hprimary]
    cases hserving : node.statusServ with
    | false => simp
    | true =>
      have hkeys : (prq.row.isEmpty || prq.col.isEmpty) = true := hasEmptyKey_of_not h hserving
      simp [hkeys]
  | delete prq =>
    cases houtcome
    have hdown : node.statusServ = false := Bool.eq_false_iff.mpr h
    unfold delete followRoute deleteRoute
    rw [routeWrite_primary hprimary]
    simp [hdown]
  | cPut prq =>
    by_cases hadmitted : node.statusServ = true ∧ prq.row ≠ [] ∧ prq.col ≠ []
    · obtain ⟨hserving, hrow, hcol⟩ := hadmitted
      rw [handle, cPut_primary around hserving hprimary hrow hcol] at houtcome
      have hne : cells node.tablet (prq.row, prq.col) ≠ some prq.v1 :=
        fun hcell ↦ h ⟨hserving, hrow, hcol, hcell⟩
      have hverdict := cPutCheck_of_ne hne
      generalize cPutCheck node.tablet prq.row prq.col prq.v1 = checked at hverdict houtcome
      obtain ⟨tablet, verdict⟩ := checked
      rcases hverdict with habort | ⟨status, hrefuse, hcode⟩
      · obtain rfl : verdict = .abort := habort
        cases houtcome
      · obtain rfl : verdict = .refuse status := hrefuse
        cases houtcome
        exact ⟨hcode, rfl⟩
    · change cPut node around prq = some outcome at houtcome
      unfold cPut cPutRoute at houtcome
      rw [routeWrite_primary hprimary] at houtcome
      cases hserving : node.statusServ with
      | false =>
        simp only [hserving, Bool.false_eq_true, if_false, Option.some.injEq] at houtcome
        rw [← houtcome]
        exact ⟨by simp, rfl⟩
      | true =>
        have hkeys : (prq.row.isEmpty || prq.col.isEmpty) = true :=
          hasEmptyKey_of_not hadmitted hserving
        simp only [hserving, hkeys, Bool.and_true, if_true, Option.some.injEq] at houtcome
        rw [← houtcome]
        exact ⟨by simp, rfl⟩

end Primary

/-- What goes wrong while a request is handled: the results of the writes to the log, and the final
statuses of the peers' calls. -/
structure Faults where
  written : ℕ → WriteResult
  rpc : ℕ → Status

/-- The log after a request; what the append returns is dropped. -/
def logAfter (log : Bytes) (faults : Faults) (outcome : Outcome) : Bytes :=
  match outcome.multicast with
  | none => log
  | some record => (appendRecord log faults.written record).1

/-- No failure goes unnoticed. -/
structure FailuresNoticed (node : KVNode) (around : Surroundings) (log : Bytes) (faults : Faults)
    (request : WriteRequest) : Prop where
  logged : ∀ outcome, handle node around request = some outcome →
    outcome.reply.status.code = .ok →
    logAfter log faults outcome = log ++ recordBytes request.record
  reported : ∀ outcome record, handle node around request = some outcome →
    outcome.multicast = some record →
    ReportsFailures node.peerAddrs.length faults.rpc record

theorem failuresNoticed_iff {node : KVNode} (hprimary : ActsAsPrimary node)
    (around : Surroundings) (log : Bytes) (faults : Faults) (request : WriteRequest) :
    FailuresNoticed node around log faults request ↔
      (Accepted node request →
        WritesComplete faults.written (recordBuffers request.record) ∧
          ∀ i < node.peerAddrs.length, (faults.rpc i).code = .ok) := by
  constructor
  · intro hnoticed haccepted
    obtain ⟨outcome, hhandle, hok, hmulticast⟩ := handle_of_accepted hprimary around haccepted
    constructor
    · have hlog := hnoticed.logged outcome hhandle hok
      simp only [logAfter, hmulticast] at hlog
      by_contra hincomplete
      obtain ⟨part, hpart, hcut⟩ := appendRecord_of_not_writesComplete log hincomplete
      rw [hpart] at hlog
      exact hcut.2 (List.append_cancel_left hlog)
    · exact (reportsFailures_iff _ _ _).mp (hnoticed.reported outcome _ hhandle hmulticast)
  · intro h
    by_cases haccepted : Accepted node request
    · obtain ⟨hwrites, hcalls⟩ := h haccepted
      obtain ⟨outcome, hhandle, -, hmulticast⟩ := handle_of_accepted hprimary around haccepted
      constructor
      · intro outcome' hhandle' _
        obtain rfl := Option.some.inj (hhandle.symm.trans hhandle')
        simp only [logAfter, hmulticast]
        exact appendRecord_of_writesComplete log hwrites
      · intro _ record _ _
        exact (reportsFailures_iff _ _ record).mpr hcalls
    · constructor
      · intro outcome hhandle hok
        exact absurd hok (handle_of_not_accepted hprimary around haccepted hhandle).1
      · intro outcome record hhandle hmulticast
        rw [(handle_of_not_accepted hprimary around haccepted hhandle).2] at hmulticast
        cases hmulticast

/-- A serving primary with one peer. -/
def onePeerPrimary : KVNode where
  addr := lit "a"
  peerAddrs := [lit "b"]
  primaryIdx := mStatus

def onePut : WriteRequest := .put { row := lit "row", col := lit "col", value := lit "value" }

/-- The log takes nothing and the peer is unreachable. -/
def allFail : Faults where
  written _ := none
  rpc _ := { code := .unavailable }

def noSurroundings : Surroundings where
  pmAddr := none
  peerReply := { status := { code := .ok } }

theorem onePeerPrimary_acts : ActsAsPrimary onePeerPrimary := rfl

theorem failuresNoticed_iff_allFail :
    ActsAsPrimary onePeerPrimary ∧
      (FailuresNoticed onePeerPrimary noSurroundings [] allFail onePut ↔
        (Accepted onePeerPrimary onePut →
          WritesComplete allFail.written (recordBuffers onePut.record) ∧
            ∀ i < onePeerPrimary.peerAddrs.length, (allFail.rpc i).code = .ok)) :=
  ⟨onePeerPrimary_acts, failuresNoticed_iff onePeerPrimary_acts noSurroundings [] allFail onePut⟩

/-- The request is answered with `OK`, the log is empty and nobody was reported. -/
theorem failures_go_unnoticed :
    ActsAsPrimary onePeerPrimary ∧
      (put onePeerPrimary noSurroundings
        { row := lit "row", col := lit "col", value := lit "value" }).reply.status.code = .ok ∧
      ¬FailuresNoticed onePeerPrimary noSurroundings [] allFail onePut := by
  refine ⟨rfl, by decide, fun hnoticed ↦ ?_⟩
  have hlog := hnoticed.logged _ rfl (by decide)
  exact absurd hlog (by decide)

end PennCloud.KV.WriteFailures
