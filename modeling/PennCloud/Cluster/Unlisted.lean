import PennCloud.Cluster.OneMap
import PennCloud.Frontend.MissingIndex

/-!
# What users store is never listed

A cell that is missing is created by no `CPut`: the storage node that should do it ends its process
instead. The handlers of a frontend create the index of a user, and the boxes of the mails, in
no other way. So a cluster that starts without them has none at any time, whatever its frontends are
asked and however their requests interleave, and every listing of it is empty.
-/

open PennCloud.Library PennCloud.Library.Programs PennCloud.Library.Runs
open PennCloud.Library.CppString
open PennCloud.Library.WriteLog (write)
open PennCloud.KV.TabletCells PennCloud.KV.Handlers PennCloud.Replication.Serving
open PennCloud.Coordinator.Views
open PennCloud.Frontend.KVClient (Thrown Store KVOp KVProg KVJob)
open PennCloud.Frontend.HttpText (Disk Response corsOk)
open PennCloud.Frontend.Routing PennCloud.Frontend.MissingIndex
open PennCloud.Cluster.StorageClient PennCloud.Cluster.OneMap

namespace PennCloud.Cluster.Unlisted

/-! ## One call -/

/-- The map answers a call of a handler, or the call fails. -/
inductive Called (m : Store) : (op : KVOp) → Except Thrown op.Answer → Store → Prop
  | found (row col value : Bytes) (h : m (row, col) = some value) :
      Called m (.get row col) (.ok value) m
  | missing (row col : Bytes) (h : m (row, col) = none) :
      Called m (.get row col) (.error .kvNotFound) m
  | stored (row col data : Bytes) :
      Called m (.put row col data) (.ok ()) (Function.update m (row, col) (some data))
  | exchanged (row col v1 v2 : Bytes) (h : m (row, col) = some v1) :
      Called m (.cput row col v1 v2) (.ok ()) (Function.update m (row, col) (some v2))
  | erased (row col : Bytes) : Called m (.del row col) (.ok ()) (Function.update m (row, col) none)
  | failed (op : KVOp) : Called m op (.error .kvError) m

section Calls

variable {client : Client} {config : ClusterConfig} {m : Store} {backend : Backend}

/-- A write whose number is not looked at. -/
theorem run_ignored {prog : ClientProg Int32} {backend' : Backend} {result : Except Thrown Int32}
    (h : prog.run execute backend = (backend', result)) :
    (prog >>= fun _ ↦ pure ()).run execute backend = (backend', result.map fun _ ↦ ()) := by
  rw [Prog.run_bind_pure prog (fun _ ↦ ()), h]

theorem call_called (hsize : client.partitions = config.partitions.length)
    (hint : sizeToInt client.partitions ≠ 0) (h : Sharded client config m backend.partitions)
    (op : KVOp) : ∃ m', Called m op ((client.call op).run execute backend).2 m' ∧
      Sharded client config m' ((client.call op).run execute backend).1.partitions := by
  have hwrite : ∀ (p : ℕ), p < config.partitions.length → ∀ req : WriteRequest,
      client.rowPartition req.record.cell.1 = some p → ∃ backend' result,
        (writeLoop p req 5 >>= fun _ ↦ pure ()).run execute backend = (backend', result) ∧
        (result = .error .kvError ∧ Sharded client config m backend'.partitions ∨
          result = .ok () ∧ Accepts (part client p m) req ∧
            Sharded client config (write m req.record) backend'.partitions) := by
    intro p hp req hrow
    obtain ⟨backend', result, hrun, hresult⟩ := writeLoop_ends hp req hrow 5 h
    refine ⟨backend', _, run_ignored hrun, ?_⟩
    rcases hresult with ⟨rfl, hnext⟩ | ⟨rfl, haccepts, hnext⟩
    · exact .inl ⟨rfl, hnext⟩
    · exact .inr ⟨rfl, haccepts, hnext⟩
  cases op with
  | get row col =>
    obtain ⟨backend', result, hget, hnext, hresult⟩ := get_ends hsize hint h row col
    have hcall : (client.call (.get row col)).run execute backend = (backend', result) := hget
    rw [hcall]
    refine ⟨m, ?_, hnext⟩
    rcases hresult with rfl | ⟨rfl, hcell⟩ | ⟨value, rfl, hcell⟩
    · exact .failed (.get row col)
    · exact .missing row col hcell
    · exact .found row col value hcell
  | put row col data =>
    obtain ⟨p, hrow, hp⟩ := exists_rowPartition hsize hint row
    obtain ⟨backend', result, hrun, hresult⟩ := hwrite p hp
      (.put { row := row, col := col, value := data }) hrow
    rw [← put_eq hrow] at hrun
    have hcall : (client.call (.put row col data)).run execute backend = (backend', result) := hrun
    rw [hcall]
    rcases hresult with ⟨rfl, hnext⟩ | ⟨rfl, -, hnext⟩
    · exact ⟨m, .failed _, hnext⟩
    · exact ⟨_, .stored row col data, hnext⟩
  | cput row col v1 v2 =>
    obtain ⟨p, hrow, hp⟩ := exists_rowPartition hsize hint row
    obtain ⟨backend', result, hrun, hresult⟩ := hwrite p hp
      (.cPut { row := row, col := col, v1 := v1, v2 := v2 }) hrow
    rw [← cput_eq hrow] at hrun
    have hcall : (client.call (.cput row col v1 v2)).run execute backend = (backend', result) := hrun
    rw [hcall]
    rcases hresult with ⟨rfl, hnext⟩ | ⟨rfl, ⟨-, -, hcell⟩, hnext⟩
    · exact ⟨m, .failed _, hnext⟩
    · rw [part_self hrow] at hcell
      exact ⟨_, .exchanged row col v1 v2 hcell, hnext⟩
  | del row col =>
    obtain ⟨p, hrow, hp⟩ := exists_rowPartition hsize hint row
    obtain ⟨backend', result, hrun, hresult⟩ := hwrite p hp
      (.delete { row := row, col := col }) hrow
    rw [← del_eq hrow] at hrun
    have hcall : (client.call (.del row col)).run execute backend = (backend', result) := hrun
    rw [hcall]
    rcases hresult with ⟨rfl, hnext⟩ | ⟨rfl, -, hnext⟩
    · exact ⟨m, .failed _, hnext⟩
    · exact ⟨_, .erased row col, hnext⟩

end Calls

/-! ## A cluster without indexes -/

/-- No index and no box is there. -/
def Indexless (m : Store) : Prop := ∀ row, ∀ col ∈ indexColumns, m (row, col) = none

theorem Indexless.update {m : Store} (h : Indexless m) {row col : Bytes} {value : Option Bytes}
    (hvalue : col ∈ indexColumns → value = none) :
    Indexless (Function.update m (row, col) value) := by
  intro row' col' hcol'
  by_cases hcell : (row', col') = (row, col)
  · obtain ⟨rfl, rfl⟩ := Prod.mk.inj hcell
    rw [Function.update_self]
    exact hvalue hcol'
  · rw [Function.update_of_ne hcell]
    exact h row' col' hcol'

/-- A call that puts no index leaves none behind, and is answered as if there could be none. -/
theorem Called.barren {m m' : Store} {op : KVOp} {result : Except Thrown op.Answer}
    (h : Called m op result m') (hm : Indexless m) (hop : Spares op) :
    Indexless m' ∧ Barren op result := by
  cases h with
  | found row col value hcell =>
    refine ⟨hm, fun hcol ↦ ?_⟩
    cases (hm row col hcol).symm.trans hcell
  | missing row col hcell => exact ⟨hm, fun _ ↦ .inl rfl⟩
  | stored row col data => exact ⟨hm.update fun hcol ↦ absurd hcol hop, trivial⟩
  | exchanged row col v1 v2 hcell =>
    have hnot : col ∉ indexColumns := by
      intro hcol
      cases (hm row col hcol).symm.trans hcell
    exact ⟨hm.update fun hcol ↦ absurd hcol hnot, fun hcol ↦ absurd hcol hnot⟩
  | erased row col => exact ⟨hm.update fun _ ↦ rfl, trivial⟩
  | failed op =>
    refine ⟨hm, ?_⟩
    cases op with
    | get row col => exact fun _ ↦ .inr rfl
    | put row col data => exact trivial
    | cput row col v1 v2 => exact fun _ ↦ rfl
    | del row col => exact trivial

/-! ## Frontends at work -/

/-- What a frontend does: a whole request, a handler that a route leads to, or the accounts. -/
inductive Work
  | request (disk : Disk) (currentDir drawn : Bytes) (fe : Server) (rawRequest : Bytes)
  | handler (fe : Server) (asked : Handler) (user rawRequest url : Bytes)
  | accounts (drawn : Bytes) (fe : Server) (rawRequest url : Bytes)

def Work.job : Work → KVJob Answered
  | request disk currentDir drawn fe rawRequest => handleRequest disk currentDir drawn fe rawRequest
  | handler fe asked user rawRequest url => handled fe (asked.job user rawRequest url)
  | accounts drawn fe rawRequest url => once do
      let (sessions, response) ← Frontend.Accounts.handlePostAccounts drawn fe.sessions rawRequest url
      return ({ fe with sessions := sessions }, response)

/-- The storage client calls the cluster. -/
def service (client : Client) (_ : Unit) (op : KVOp) (backend : Backend) :
    Backend × Except Thrown op.Answer := (client.call op).run execute backend

/-- The work is that of a handler; a raw request may be routed to one. -/
def Work.Runs (work : Work) (asked : Handler) : Prop :=
  ∃ fe user rawRequest url, work.job = handled fe (asked.job user rawRequest url)

/-- The answers that a job can give. -/
def Gives (work : Work) (outcome : Except Thrown (Pass Answered)) : Prop :=
  ∀ asked, work.Runs asked → ∀ answered, outcome = .ok (.done answered) → Fruitless asked answered.2

theorem safe_work (work : Work) (n : ℕ) : Safe (work.job n) := by
  cases work with
  | request disk currentDir drawn fe rawRequest =>
    exact safeJob_request disk currentDir drawn fe rawRequest n
  | handler fe asked user rawRequest url =>
    exact (given_handled asked user rawRequest url n).mono fun _ _ ↦ trivial
  | accounts drawn fe rawRequest url =>
    refine safeJob_once ((safe_accounts drawn fe.sessions rawRequest url).bind fun _ ↦ ?_) n
    exact trivial

theorem work_given (work : Work) (n : ℕ) : (work.job n).Given Barren Spares (Gives work) := by
  refine (safe_work work n).forall fun asked ↦ ?_
  by_cases hruns : work.Runs asked
  · obtain ⟨fe, user, rawRequest, url, hjob⟩ := hruns
    rw [hjob]
    exact (given_handled asked user rawRequest url n).mono fun _ h _ ↦ h
  · exact (safe_work work n).mono fun _ _ h ↦ absurd h hruns

/-- However the work of any number of frontends interleaves, and whoever crashes or is shut down
meanwhile, no node that serves ever has an index or a box, and the answers are those of a store
in which nothing has been stored. -/
theorem nothing_is_ever_listed {ι : Type} [DecidableEq ι] (client : Client) (config : ClusterConfig)
    (hsize : client.partitions = config.partitions.length)
    (hint : sizeToInt client.partitions ≠ 0) (turns : ℕ → Turn) (works : ι → Work)
    {s : Shared ι KVOp KVOp.Answer Thrown Answered Backend}
    (h : Reaches (machine (service client) fun i ↦ (works i).job) anyStep
      (Shared.start (fun i ↦ (works i).job) (start config turns)) s) :
    (∀ (p : ℕ) replicas, s.store.partitions[p]? = some replicas → ∀ node ∈ replicas.nodes,
      node.statusServ = true → ∀ row, ∀ col ∈ indexColumns, cells node.tablet (row, col) = none) ∧
    ∀ i asked, (works i).Runs asked →
      ∀ answered, s.Returned i answered → Fruitless asked answered.2 := by
  have hstep : ∀ (c : Unit) op (backend : Backend),
      (∃ m, Sharded client config m backend.partitions ∧ Indexless m) → Spares op →
      (∃ m, Sharded client config m (service client c op backend).1.partitions ∧ Indexless m) ∧
        Barren op (service client c op backend).2 := by
    rintro c op backend ⟨m, hm, hindexless⟩ hop
    obtain ⟨m', hcalled, hnext⟩ := call_called hsize hint hm op
    obtain ⟨hindexless', hbarren⟩ := hcalled.barren hindexless hop
    exact ⟨⟨m', hnext, hindexless'⟩, hbarren⟩
  obtain ⟨⟨m, hsharded, hindexless⟩, hgiven⟩ := Prog.reaches_given
    (fun c op backend hI hop ↦ (hstep c op backend hI hop).1)
    (fun c op backend hI hop ↦ (hstep c op backend hI hop).2)
    (fun i n ↦ work_given (works i) n) ⟨_, start_sharded client config turns, fun _ _ _ ↦ rfl⟩ h
  constructor
  · intro p replicas hreplicas node hnode hserving row col hcol
    obtain ⟨i, hi⟩ := List.mem_iff_getElem?.mp hnode
    rw [hsharded.agrees p replicas hreplicas i node hi hserving, part]
    split
    · exact hindexless row col hcol
    · rfl
  · intro i asked hruns answered hreturned
    have hgives := Prog.outcome_of_returned (Q := fun i ↦ Gives (works i)) (hgiven i) hreturned
    exact hgives asked hruns answered rfl

/-- The coordinator looks at the nodes once, before the first request. -/
def watchedOnce (n : ℕ) : Turn where
  incidents := if n = 0 then [(0, .round false), (1, .round false), (2, .round false)] else []
  node := fun _ ↦ n % 2

def bobsSession : Server where
  sessions := Frontend.Accounts.createSession ∅ (lit "s") (lit "bob")

def filesRequest : Bytes := lit "GET /files HTTP/1.1\r\nCookie: session_id=s\r\n\r\n"

/-- An upload, and a raw request for the files. -/
def uploadAndView : Bool → Work
  | false => .handler {} .uploadFile (lit "bob") (lit "POST\r\n\r\nhello") []
  | true => .request (fun _ ↦ none) [] [] bobsSession filesRequest

theorem view_runs : (uploadAndView true).Runs .viewFile :=
  ⟨bobsSession, lit "bob", filesRequest, lit "/files", rfl⟩

/-- What a job has answered. -/
def answeredTo (s : Shared Bool KVOp KVOp.Answer Thrown Answered Backend) (i : Bool) :
    Option Answered :=
  match s.now i with
  | .ret (.done answered) => some answered
  | _ => none

theorem returned_of_answeredTo {s : Shared Bool KVOp KVOp.Answer Thrown Answered Backend} {i : Bool}
    (h : (answeredTo s i).isSome) : ∃ answered, s.Returned i answered := by
  unfold answeredTo at h
  split at h
  case h_1 answered hnow => exact ⟨answered, hnow⟩
  case h_2 => cases h

/-- The node that should have created the index is gone. -/
theorem nothing_is_ever_listed_upload :
    ∃ s : Shared Bool KVOp KVOp.Answer Thrown Answered Backend,
      s.store.partitions.map (fun replicas ↦ replicas.dead) = [[], [0], []] ∧
      (∃ answered, s.Returned false answered ∧
        answered.2 = corsOk (lit "Successfully uploaded file")) ∧
      ∃ answered, s.Returned true answered ∧ answered.2 = corsOk [] := by
  have hrun : (run (machine (service (Client.mk digestOfRow 3)) fun i ↦ (uploadAndView i).job)
      (Shared.start (fun i ↦ (uploadAndView i).job) (start threePartitions watchedOnce))
      [(false, ()), (false, ()), (false, ()), (true, ())]).map
      (fun s ↦ decide ((answeredTo s false).isSome ∧ (answeredTo s true).isSome ∧
        s.store.partitions.map (fun replicas ↦ replicas.dead) = [[], [0], []])) = some true := by
    decide +kernel
  obtain ⟨s, hreach, hcheck⟩ := reaches_of_run_check hrun
  obtain ⟨hupload, hview, hdead⟩ := of_decide_eq_true hcheck
  obtain ⟨uploaded, huploaded⟩ := returned_of_answeredTo hupload
  obtain ⟨viewed, hviewed⟩ := returned_of_answeredTo hview
  have hall := (nothing_is_ever_listed (Client.mk digestOfRow 3) threePartitions rfl (by decide)
    watchedOnce uploadAndView hreach).2
  exact ⟨s, hdead, ⟨uploaded, huploaded, hall false _ ⟨_, _, _, _, rfl⟩ uploaded huploaded⟩,
    viewed, hviewed, hall true _ view_runs viewed hviewed⟩

end PennCloud.Cluster.Unlisted
