import PennCloud.Frontend.ClientLoops
import PennCloud.Library.History

/-!
# Retries of the storage client

`put`, `cput` and `del` send a request up to five times, until one attempt is answered with an OK. An
attempt can get lost on its way to the primary, and so can the reply of one that has been
executed; the client cannot tell these apart from a refusal, and requests carry no number by which
the primary could. So a call may change its cell more than once, and this is what bounds it.
-/

open PennCloud.Library.Runs PennCloud.Library.Programs PennCloud.Library.History
open PennCloud.Library.WriteLog (write)
open PennCloud.KV.TabletCells PennCloud.KV.PrimaryView PennCloud.KV.Handlers
open PennCloud.Frontend.KVClient (Thrown)
open PennCloud.Frontend.ClientLoops (KVException writeLoop_bind writeLoop_thrown)

namespace PennCloud.Frontend.ClientRetries

/-! ## Attempts at the primary -/

inductive Rpc
  | put (prq : PutRequest)
  | cPut (crq : CPutRequest)
  | delete (drq : DeleteRequest)
  deriving DecidableEq

/-- What the request writes where it takes effect. -/
def Rpc.record : Rpc → LogRecord
  | put prq => .put prq.row prq.col prq.value
  | cPut crq => .put crq.row crq.col crq.v2
  | delete drq => .delete drq.row drq.col

def Rpc.cell (op : Rpc) : Bytes × Bytes := op.record.cell

def Rpc.content (op : Rpc) : Option Bytes := op.record.outcome

/-- The primary, and whether its process is running. -/
structure Primary where
  node : KVNode
  running : Bool := true

/-- The client sees a reply; that it is in place of one that got lost, and whether the attempt has
changed the cell, it does not see. -/
structure Attempt where
  seen : Reply
  lost : Bool := false
  changed : Bool := false

def handle (node : KVNode) (around : Surroundings) : Rpc → Option Outcome
  | .put prq => some (KV.Handlers.put node around prq)
  | .cPut crq => KV.Handlers.cPut node around crq
  | .delete drq => some (KV.Handlers.delete node around drq)

def unreachable : Reply := { status := { code := .unavailable } }

/-- The handler runs as one step under the lock of the row. -/
def serve (primary : Primary) (around : Surroundings) (op : Rpc) : Primary × Attempt :=
  if primary.running then
    match handle primary.node around op with
    | some outcome =>
      ({ primary with node := outcome.node },
        { seen := outcome.reply
          changed := cells outcome.node.tablet op.cell ≠ cells primary.node.tablet op.cell })
    | none => ({ primary with running := false }, { seen := unreachable })
  else
    (primary, { seen := unreachable })

/-- A status that the library reports in place of a reply. -/
abbrev Failure := { status : Status // status.code ≠ .ok }

inductive Fate
  | answered (around : Surroundings)
  | replyLost (around : Surroundings) (status : Failure)
  | requestLost (status : Failure)

def execute : Fate → (op : Rpc) → Primary → Primary × Except Thrown Attempt
  | .answered around, op, primary =>
    ((serve primary around op).1, .ok (serve primary around op).2)
  | .replyLost around status, op, primary =>
    ((serve primary around op).1,
      .ok { (serve primary around op).2 with seen := { status := status.1 }, lost := true })
  | .requestLost status, _, primary => (primary, .ok { seen := { status := status.1 } })

/-! ## Calls of the client -/

abbrev RpcProg (α : Type) := Prog Rpc (fun _ ↦ Attempt) Thrown α

/-- One attempt, of which the loops see the reply. -/
def attempt (op : Rpc) : RpcProg Reply := do
  let attempt ← Prog.perform op
  return attempt.seen

/-- The loop of `put` and `del`. -/
def tryAgain (op : Rpc) : ℕ → RpcProg Int32 :=
  ClientLoops.writeLoop (attempt op) KVException.thrown { code := .ok }

def put (row col data : Bytes) : RpcProg Int32 :=
  tryAgain (.put { row := row, col := col, value := data }) 5

/-- `status` keeps its default; the replies are in `stt`. -/
def cput (rr cc v1 v2 : Bytes) : RpcProg Int32 :=
  ClientLoops.cputLoop (attempt (.cPut { row := rr, col := cc, v1 := v1, v2 := v2 }))
    KVException.thrown { code := .ok } { code := .ok } 5

def del (rr cc : Bytes) : RpcProg Int32 := tryAgain (.delete { row := rr, col := cc }) 5

/-- The call that sends this request. -/
def call : Rpc → RpcProg Int32
  | .put prq => put prq.row prq.col prq.value
  | .cPut crq => cput crq.row crq.col crq.v1 crq.v2
  | .delete drq => del drq.row drq.col

/-- `cput` tries again after a mismatch as well. -/
theorem call_eq (op : Rpc) : call op = tryAgain op 5 := by
  cases op with
  | put prq => rfl
  | cPut crq => exact ClientLoops.cputLoop_eq _ _ _ 5
  | delete drq => rfl

/-! ## What an attempt does to the cells -/

/-- A handler that takes effect writes its cell and answers with an OK. -/
theorem handle_spec {node : KVNode} {around : Surroundings} {op : Rpc} {outcome : Outcome}
    (h : handle node around op = some outcome) :
    cells outcome.node.tablet = cells node.tablet ∨
      outcome.reply.status.code = .ok ∧
        cells outcome.node.tablet = Function.update (cells node.tablet) op.cell op.content := by
  have hroute : ∀ routed, followRoute node around routed (executePrimary · op.record) = outcome →
      cells outcome.node.tablet = cells node.tablet ∨
        outcome.reply.status.code = .ok ∧
          cells outcome.node.tablet = Function.update (cells node.tablet) op.cell op.content := by
    rintro ⟨view, route⟩ rfl
    cases route with
    | reply status => exact .inl rfl
    | forward peer => exact .inl rfl
    | primary => exact .inr ⟨rfl, logAndConduct_cells _ op.record⟩
  cases op with
  | put prq => exact hroute _ (Option.some.inj h)
  | delete drq => exact hroute _ (Option.some.inj h)
  | cPut crq =>
    simp only [handle, cPut] at h
    split at h
    · obtain rfl := Option.some.inj h
      exact .inl rfl
    · obtain rfl := Option.some.inj h
      exact .inl rfl
    · have hcheck := cPutCheck_cells node.tablet crq.row crq.col crq.v1
      split at h
      · cases h
      · obtain rfl := Option.some.inj h
        exact .inl hcheck
      · obtain rfl := Option.some.inj h
        right
        refine ⟨rfl, (logAndConduct_cells _ (Rpc.cPut crq).record).trans ?_⟩
        exact congrArg (write · (Rpc.cPut crq).record) hcheck

theorem serve_spec (primary : Primary) (around : Surroundings) (op : Rpc) :
    cells (serve primary around op).1.node.tablet =
        (if (serve primary around op).2.changed then
          Function.update (cells primary.node.tablet) op.cell op.content
        else cells primary.node.tablet) ∧
      (serve primary around op).2.lost = false ∧
      ((serve primary around op).2.changed = true →
        cells primary.node.tablet op.cell ≠ op.content ∧
          (serve primary around op).2.seen.status.code = .ok) := by
  unfold serve
  split
  · cases houtcome : handle primary.node around op with
    | none => exact ⟨rfl, rfl, fun h ↦ absurd h Bool.false_ne_true⟩
    | some outcome =>
      dsimp only
      rcases handle_spec houtcome with hsame | ⟨hok, hwrite⟩
      · simp [hsame]
      · by_cases hcell : cells primary.node.tablet op.cell = op.content
        · simp [hwrite, ← hcell]
        · simp [hwrite, hok, hcell, Ne.symm hcell]
  · exact ⟨rfl, rfl, fun h ↦ absurd h Bool.false_ne_true⟩

/-! ## The attempts of a run -/

section Run

variable {ι : Type}

abbrev RpcCall (ι : Type) := Call ι Rpc (fun _ ↦ Attempt) Thrown

abbrev Calls (ι : Type) := Shared ι Rpc (fun _ ↦ Attempt) Thrown Int32 Primary

def changes (c : RpcCall ι) : Bool :=
  match c.answer with
  | .ok attempt => attempt.changed
  | .error _ => false

/-- The reply has got lost. -/
def replyLost (c : RpcCall ι) : Bool :=
  match c.answer with
  | .ok attempt => attempt.lost
  | .error _ => false

/-- The client has seen an OK. -/
def succeeds (c : RpcCall ι) : Bool :=
  match c.answer with
  | .ok attempt => attempt.seen.status.code = .ok
  | .error _ => false

/-- The changes of one cell, in their order. -/
def changesAt (cell : Bytes × Bytes) (past : List (RpcCall ι)) : List (RpcCall ι) :=
  past.filter fun c ↦ changes c ∧ c.op.cell = cell

/-- The call as it is recorded. -/
abbrev record (i : ι) (fate : Fate) (op : Rpc) (primary : Primary) : RpcCall ι where
  caller := i
  op := op
  answer := (execute fate op primary).2

theorem changesAt_concat (cell : Bytes × Bytes) (past : List (RpcCall ι)) (c : RpcCall ι) :
    changesAt cell (past ++ [c]) =
      if changes c = true ∧ c.op.cell = cell then changesAt cell past ++ [c]
      else changesAt cell past := by
  unfold changesAt
  rw [List.filter_append]
  split
  · next h => rw [List.filter_singleton, decide_eq_true h, cond_true]
  · next h => rw [List.filter_singleton, decide_eq_false h, cond_false, List.append_nil]

theorem execute_spec (i : ι) (fate : Fate) (op : Rpc) (primary : Primary) :
    cells (execute fate op primary).1.node.tablet =
        (if changes (record i fate op primary) then
          Function.update (cells primary.node.tablet) op.cell op.content
        else cells primary.node.tablet) ∧
      (changes (record i fate op primary) = true →
        cells primary.node.tablet op.cell ≠ op.content ∧
          (replyLost (record i fate op primary) = true ∨
            succeeds (record i fate op primary) = true)) := by
  cases fate with
  | answered around =>
    obtain ⟨hcells, -, hchanged⟩ := serve_spec primary around op
    exact ⟨hcells, fun h ↦ ⟨(hchanged h).1, .inr (decide_eq_true (hchanged h).2)⟩⟩
  | replyLost around status =>
    obtain ⟨hcells, -, hchanged⟩ := serve_spec primary around op
    exact ⟨hcells, fun h ↦ ⟨(hchanged h).1, .inl rfl⟩⟩
  | requestLost status => exact ⟨rfl, fun h ↦ absurd h Bool.false_ne_true⟩

theorem exists_attempt (fate : Fate) (op : Rpc) (primary : Primary) :
    ∃ attempt, (execute fate op primary).2 = .ok attempt := by
  cases fate with
  | answered around => exact ⟨_, rfl⟩
  | replyLost around status => exact ⟨_, rfl⟩
  | requestLost status => exact ⟨_, rfl⟩

/-! ## One call -/

theorem tryAgain_bind (op : Rpc) (n : ℕ) (f : Int32 → RpcProg (Pass Int32)) :
    tryAgain op (n + 1) >>= f = .call op fun
      | .ok attempt =>
        if attempt.seen.status.code = .ok then f attempt.seen.size.toInt32 else tryAgain op n >>= f
      | .error e => .raise e := by
  rw [tryAgain, writeLoop_bind]
  refine congrArg (Prog.call op) (funext fun answer ↦ ?_)
  cases answer with
  | error e => rfl
  | ok attempt =>
    dsimp only
    rw [writeLoop_thrown _ { code := .ok } attempt.seen.status]
    rfl

/-- How far a call has come. -/
inductive Stage (op : Rpc) (calls : List (RpcCall ι)) (now : RpcProg (Pass Int32)) : Prop
  | trying (n : ℕ) (hcount : calls.length + n = 5) (hfailed : ∀ c ∈ calls, succeeds c = false)
      (hnow : now = tryAgain op n >>= fun size ↦ .ret (.done size)) : Stage op calls now
  | returned (front : List (RpcCall ι)) (last : RpcCall ι) (size : Int32)
      (hcalls : calls = front ++ [last]) (hcount : calls.length ≤ 5)
      (hfailed : ∀ c ∈ front, succeeds c = false) (hnow : now = .ret (.done size)) :
      Stage op calls now

theorem Stage.call {op op' : Rpc} {calls : List (RpcCall ι)}
    {next : Except Thrown Attempt → RpcProg (Pass Int32)} (h : Stage op calls (.call op' next)) :
    op' = op ∧ ∀ i fate primary, Stage op (calls ++ [record i fate op primary])
      (next (execute fate op primary).2) := by
  cases h with
  | returned front last size hcalls hcount hfailed hnow => cases hnow
  | trying n hcount hfailed hnow =>
    cases n with
    | zero => cases hnow
    | succ n =>
      rw [tryAgain_bind] at hnow
      obtain ⟨rfl, hnext⟩ := Prog.call.inj hnow
      obtain rfl := eq_of_heq hnext
      refine ⟨rfl, fun i fate primary ↦ ?_⟩
      have hlength : (calls ++ [record i fate op' primary]).length + n = 5 := by
        rw [List.length_append, List.length_singleton]
        omega
      obtain ⟨attempt, hanswer⟩ := exists_attempt fate op' primary
      by_cases hok : attempt.seen.status.code = .ok
      · refine .returned calls _ attempt.seen.size.toInt32 rfl (by omega) hfailed ?_
        simp only [hanswer, if_pos hok]
      · refine .trying n hlength (fun c hc ↦ ?_) ?_
        · rcases List.mem_append.mp hc with hold | hnew
          · exact hfailed c hold
          · obtain rfl := List.mem_singleton.mp hnew
            simp only [succeeds, hanswer, decide_eq_false hok]
        · simp only [hanswer, if_neg hok]

theorem Stage.not_again {op : Rpc} {calls : List (RpcCall ι)} {n : ℕ}
    (h : Stage op calls (.ret (.again n))) : False := by
  cases h with
  | returned front last size hcalls hcount hfailed hnow => cases hnow
  | trying m hcount hfailed hnow =>
    cases m with
    | zero => cases hnow
    | succ m =>
      rw [tryAgain_bind] at hnow
      cases hnow

/-! ## All calls together -/

variable [DecidableEq ι] (requests : ι → Rpc)

structure Inv (start : Primary) (s : Calls ι) : Prop where
  stage : ∀ i, Stage (requests i) (s.calls i) (s.now i)
  own : ∀ c ∈ s.past, c.op = requests c.caller
  honest : ∀ c ∈ s.past, changes c = true → replyLost c = true ∨ succeeds c = true
  content : ∀ cell, cells s.store.node.tablet cell =
    ((changesAt cell s.past).getLast?.map fun c ↦ c.op.content).getD (cells start.node.tablet cell)
  alternates : Every (fun before y ↦ changes y = true →
    ∀ x, (changesAt y.op.cell before).getLast? = some x → x.caller ≠ y.caller) s.past

variable {requests}

theorem Inv.call {start : Primary} {s : Calls ι} (h : Inv requests start s) {i : ι} (fate : Fate)
    {op : Rpc} {next : Except Thrown Attempt → RpcProg (Pass Int32)}
    (hnow : s.now i = .call op next) :
    Inv requests start (s.resume (s.toWorld.answer execute i fate op) i
      (next (execute fate op s.store).2)) := by
  have hstage := h.stage i
  rw [hnow] at hstage
  obtain ⟨rfl, hnext⟩ := hstage.call
  obtain ⟨hcells, hchanged⟩ := execute_spec i fate (requests i) s.store
  refine ⟨fun j ↦ ?_, ?_, ?_, fun cell ↦ ?_, every_concat.mpr ⟨h.alternates, ?_⟩⟩
  · by_cases hj : j = i
    · subst hj
      rw [Shared.resume_now, Shared.resume_toWorld, World.calls_answer]
      exact hnext j fate s.store
    · rw [Shared.resume_now_of_ne _ _ hj, Shared.resume_toWorld,
        World.calls_answer_of_ne execute _ (Ne.symm hj)]
      exact h.stage j
  · exact List.forall_mem_append.mpr ⟨h.own, List.forall_mem_singleton.mpr rfl⟩
  · exact List.forall_mem_append.mpr
      ⟨h.honest, List.forall_mem_singleton.mpr fun hchange ↦ (hchanged hchange).2⟩
  · change cells (execute fate (requests i) s.store).1.node.tablet cell =
      ((changesAt cell (s.past ++ [record i fate (requests i) s.store])).getLast?.map
        fun c ↦ c.op.content).getD (cells start.node.tablet cell)
    rw [hcells, changesAt_concat]
    by_cases hchange : changes (record i fate (requests i) s.store) = true
    · rw [if_pos hchange]
      by_cases hcell : (requests i).cell = cell
      · subst hcell
        rw [if_pos ⟨hchange, rfl⟩, List.getLast?_concat, Function.update_self]
        rfl
      · rw [if_neg fun hboth ↦ hcell hboth.2, Function.update_of_ne (Ne.symm hcell)]
        exact h.content cell
    · rw [if_neg hchange, if_neg fun hboth ↦ hchange hboth.1]
      exact h.content cell
  · intro hchange x hx hcaller
    have hmem := List.mem_of_mem_filter (List.mem_of_getLast? hx)
    have hop : x.op = requests i := by rw [h.own x hmem, hcaller]
    have hcontent := h.content (requests i).cell
    rw [hx, Option.map_some, Option.getD_some, hop] at hcontent
    exact (hchanged hchange).1 hcontent

theorem inv_of_reaches {start : Primary} {s : Calls ι}
    (h : Reaches (machine execute fun i ↦ once (call (requests i))) anyStep
      (Shared.start (fun i ↦ once (call (requests i))) start) s) : Inv requests start s := by
  apply h.invariant
  · refine ⟨fun i ↦ .trying 5 rfl (fun c hc ↦ absurd hc List.not_mem_nil) ?_, ?_, ?_, fun _ ↦ rfl,
      every_nil _⟩
    · rw [← call_eq]
      rfl
    · exact fun c hc ↦ absurd hc List.not_mem_nil
    · exact fun c hc ↦ absurd hc List.not_mem_nil
  · intro t event u ht _ hstep
    cases stepped_of_step hstep with
    | call op next hnow => exact ht.call event.2 hnow
    | again n hnow =>
      have hstage := ht.stage event.1
      rw [hnow] at hstage
      exact hstage.not_again.elim

/-- A call changes its cell at most once more often than its replies get lost, and not before
another call has changed the cell again; a call that throws has changed it by attempts whose replies
got lost. -/
theorem retries_bounded (requests : ι → Rpc) (start : Primary) {s : Calls ι}
    (h : Reaches (machine execute fun i ↦ once (call (requests i))) anyStep
      (Shared.start (fun i ↦ once (call (requests i))) start) s) :
    (∀ i, (s.calls i).length ≤ 5 ∧ (s.calls i).countP changes ≤
      (s.calls i).countP (fun c ↦ changes c && replyLost c) + 1) ∧
    (∀ i e, s.now i = .raise e → ∀ c ∈ s.calls i, changes c = true → replyLost c = true) ∧
    Every (fun before y ↦ changes y = true →
      ∀ x, (changesAt y.op.cell before).getLast? = some x → x.caller ≠ y.caller) s.past := by
  have hinv := inv_of_reaches h
  have hlost : ∀ i, ∀ c ∈ s.calls i, succeeds c = false → changes c = true →
      replyLost c = true := by
    intro i c hc hfailed hchange
    rcases hinv.honest c (List.mem_of_mem_filter hc) hchange with hlost | hok
    · exact hlost
    · exact absurd (hfailed.symm.trans hok) Bool.false_ne_true
  have hle : ∀ i, ∀ calls : List (RpcCall ι), (∀ c ∈ calls, c ∈ s.calls i) →
      (∀ c ∈ calls, succeeds c = false) →
      calls.countP changes ≤ calls.countP fun c ↦ changes c && replyLost c := by
    intro i calls hsubset hfailed
    apply List.countP_mono_left
    intro c hc hchange
    rw [hchange, Bool.true_and]
    exact hlost i c (hsubset c hc) (hfailed c hc) hchange
  refine ⟨fun i ↦ ?_, fun i e hraised c hc ↦ ?_, hinv.alternates⟩
  · cases hinv.stage i with
    | trying n hcount hfailed hnow =>
      have hall := hle i (s.calls i) (fun _ hc ↦ hc) hfailed
      constructor <;> omega
    | returned front last size hcalls hcount hfailed hnow =>
      refine ⟨hcount, ?_⟩
      have hfront := hle i front (fun c hc ↦ by rw [hcalls]; exact List.mem_append_left _ hc) hfailed
      have hlast : [last].countP changes ≤ 1 := List.countP_le_length
      rw [hcalls, List.countP_append, List.countP_append]
      omega
  · cases hinv.stage i with
    | trying n hcount hfailed hnow => exact hlost i c hc (hfailed c hc)
    | returned front last size hcalls hcount hfailed hnow => cases hraised.symm.trans hnow

end Run

/-! ## Lost replies -/

/-- A primary whose cell `r`, `c` has the content `x`. -/
def primaryWithCell : Primary where
  node :=
    { addr := lit "p"
      peerAddrs := []
      primaryIdx := mStatus
      tablet := (∅ : Tablet).insert (lit "r") ((∅ : Row).insert (lit "c") (lit "x")) }

def alone : Surroundings where
  pmAddr := none
  peerReply := unreachable

def lost : Fate := .replyLost alone ⟨{ code := .unavailable }, by decide⟩

/-- Two clients put different values. -/
def twoPuts : Bool → Rpc
  | false => .put { row := lit "r", col := lit "c", value := lit "y" }
  | true => .put { row := lit "r", col := lit "c", value := lit "z" }

/-- One client sets the cell, and another one deletes it. -/
def cputAndDel : Bool → Rpc
  | false => .cPut { row := lit "r", col := lit "c", v1 := lit "x", v2 := lit "y" }
  | true => .delete { row := lit "r", col := lit "c" }

/-- The first call throws. -/
def throws (s : Calls Bool) : Bool :=
  match s.now false with
  | .raise _ => true
  | _ => false

/-- The reply of the first put gets lost, and the second put comes before the retry. -/
theorem exists_two_changes :
    ∃ s : Calls Bool, Reaches (machine execute fun i ↦ once (call (twoPuts i))) anyStep
      (Shared.start (fun i ↦ once (call (twoPuts i))) primaryWithCell) s ∧
      (s.calls false).countP changes = 2 := by
  have hrun : (run (machine execute fun i ↦ once (call (twoPuts i)))
      (Shared.start (fun i ↦ once (call (twoPuts i))) primaryWithCell)
      [(false, lost), (true, .answered alone), (false, .answered alone)]).map
      (fun s ↦ decide ((s.calls false).countP changes = 2)) = some true := by
    decide +kernel
  obtain ⟨s, hreach, hcheck⟩ := reaches_of_run_check hrun
  exact ⟨s, hreach, of_decide_eq_true hcheck⟩

theorem retries_bounded_two_puts :
    ∃ s : Calls Bool, (s.calls false).countP changes = 2 ∧
      1 ≤ (s.calls false).countP fun c ↦ changes c && replyLost c := by
  obtain ⟨s, hreach, htwo⟩ := exists_two_changes
  have hbound := ((retries_bounded twoPuts primaryWithCell hreach).1 false).2
  exact ⟨s, htwo, by omega⟩

/-- A put is applied twice, and a `cput` that throws has been applied. -/
theorem retries_not_once :
    (¬∀ (requests : Bool → Rpc) (start : Primary) (s : Calls Bool),
      (∀ i j, (requests i).cell = (requests j).cell) →
      Reaches (machine execute fun i ↦ once (call (requests i))) anyStep
        (Shared.start (fun i ↦ once (call (requests i))) start) s →
      ∀ i, (s.calls i).countP changes ≤ 1) ∧
    ¬∀ (requests : Bool → Rpc) (start : Primary) (s : Calls Bool),
      (∀ i j, (requests i).cell = (requests j).cell) →
      Reaches (machine execute fun i ↦ once (call (requests i))) anyStep
        (Shared.start (fun i ↦ once (call (requests i))) start) s →
      ∀ i crq e, requests i = .cPut crq → s.now i = .raise e →
        (s.calls i).countP changes = 0 := by
  constructor
  · intro h
    obtain ⟨s, hreach, htwo⟩ := exists_two_changes
    have hone := h twoPuts primaryWithCell s (by decide) hreach false
    omega
  · intro h
    have hrun : (run (machine execute fun i ↦ once (call (cputAndDel i)))
        (Shared.start (fun i ↦ once (call (cputAndDel i))) primaryWithCell)
        [(false, lost), (false, .answered alone), (false, .answered alone),
          (false, .answered alone), (false, .answered alone)]).map
        (fun s ↦ throws s && decide ((s.calls false).countP changes = 1)) = some true := by
      decide +kernel
    obtain ⟨s, hreach, hcheck⟩ := reaches_of_run_check hrun
    obtain ⟨hthrows, hchanged⟩ := (Bool.and_eq_true_iff).mp hcheck
    have hone : (s.calls false).countP changes = 1 := of_decide_eq_true hchanged
    unfold throws at hthrows
    split at hthrows
    · next e hnow =>
      have hzero := h cputAndDel primaryWithCell s (by decide) hreach false _ e rfl hnow
      omega
    · cases hthrows

end PennCloud.Frontend.ClientRetries
