import PennCloud.Cluster.OneMap
import PennCloud.Library.Layers

/-!
# Many clients

A call of the storage client is up to five calls of stubs, and between two of them other clients call
theirs. A call takes effect at the last of its stub calls if it takes effect at all; up to there it
has changed nothing. So programs that share the cluster, with all that happens to it between any
two stub calls, do what programs do that share one map, where a call may fail instead.
-/

open PennCloud.Library.Programs PennCloud.Library.Runs PennCloud.Library.CppString
open PennCloud.Library.WriteLog (write)
open PennCloud.KV.TabletCells PennCloud.KV.Handlers PennCloud.Replication.Serving
open PennCloud.Coordinator.Views (ClusterConfig)
open PennCloud.Frontend.KVClient (Thrown Store KVOp KVProg KVJob)
open PennCloud.Cluster.StorageClient PennCloud.Cluster.OneMap

namespace PennCloud.Cluster.ManyClients

/-- The map answers a call, or the call fails. -/
def mayFail (fails : Bool) (op : KVOp) (m : Store) : Store × Except Thrown op.Answer :=
  if fails then (m, .error .kvError) else Frontend.KVClient.execute () op m

/-- The cluster at a call of a stub. -/
def cluster (_ : Unit) (call : StubCall) (backend : Backend) : Backend × Except Thrown Reply :=
  execute call backend

section Calls

variable {client : Client} {config : ClusterConfig} {p : ℕ}

/-- The cluster is this map. -/
def Is (client : Client) (config : ClusterConfig) (backend : Backend) (m : Store) : Prop :=
  Sharded client config m backend.partitions

/-- One attempt. -/
theorem pending_attempt (rpc : Rpc) (hp : p < config.partitions.length)
    (hrow : client.rowPartition (rpcRow rpc) = some p) {op : KVOp}
    {verdict : Reply → ClientProg op.Answer}
    (hverdict : ∀ m backend reply, Ends client config m p rpc (backend, .ok reply) →
      Is client config backend m ∧
        (verdict reply).Pending cluster mayFail (Is client config) op ∨
      ∃ fails, Is client config backend (mayFail fails op m).1 ∧
        verdict reply = Prog.ofExcept (mayFail fails op m).2) :
    (Prog.perform { partition := p, rpc := rpc } >>= verdict : ClientProg op.Answer).Pending cluster
      mayFail (Is client config) op := by
  intro c backend m h
  have hends : Ends client config m p rpc (cluster c { partition := p, rpc := rpc } backend) :=
    execute_ends h hp hrow
  generalize cluster c { partition := p, rpc := rpc } backend = outcome at hends ⊢
  obtain ⟨backend', answer⟩ := outcome
  cases answer with
  | ok reply => exact hverdict m backend' reply hends
  | error e => cases hends

theorem pending_getLoop (hp : p < config.partitions.length) {row : Bytes}
    (hrow : client.rowPartition row = some p) (col : Bytes) (n : ℕ) :
    (getLoop p { row := row, col := col } (n + 1)).Pending cluster mayFail (Is client config)
      (.get row col) := by
  -- The loop is at its end, or what is left of it is pending too.
  have hloop : ∀ n, n = 0 ∨ (getLoop p { row := row, col := col } n).Pending cluster mayFail
      (Is client config) (.get row col) →
        (getLoop p { row := row, col := col } (n + 1)).Pending cluster mayFail (Is client config)
          (.get row col) := by
    intro n hrest
    refine pending_attempt (.get { row := row, col := col }) hp hrow fun m backend reply hends ↦ ?_
    cases hends with
    | failed _ _ _ hok hfound hnext =>
      have hother : reply.status.code ≠ .notFound := by
        rcases hfound with hne | ⟨req, hreq⟩
        · exact hne
        · cases hreq
      rw [if_neg hok, if_neg hother]
      rcases hrest with rfl | hrest
      · exact .inr ⟨true, hnext, rfl⟩
      · exact .inl ⟨hnext, hrest⟩
    | found _ _ _ hok hcell hnext =>
      rw [part_self hrow] at hcell
      have hspec : mayFail false (.get row col) m = (m, .ok (dataValue reply)) := by
        simp only [mayFail, Bool.false_eq_true, if_false, Frontend.KVClient.execute, hcell]
      refine .inr ⟨false, ?_, ?_⟩
      · rw [hspec]
        exact hnext
      · rw [hspec, if_pos hok]
        rfl
    | missing _ _ _ hcode hcell hnext =>
      rw [part_self hrow] at hcell
      have hok : reply.status.code ≠ .ok := by
        rw [hcode]
        decide
      have hspec : mayFail false (.get row col) m = (m, .error .kvNotFound) := by
        simp only [mayFail, Bool.false_eq_true, if_false, Frontend.KVClient.execute, hcell]
      refine .inr ⟨false, ?_, ?_⟩
      · rw [hspec]
        exact hnext
      · rw [hspec, if_neg hok, if_pos hcode]
        rfl
  induction n with
  | zero => exact hloop 0 (.inl rfl)
  | succ n ih => exact hloop (n + 1) (.inr ih)

theorem writeLoop_done {A : Type} (req : WriteRequest) (n : ℕ) (done : A) :
    (writeLoop p req (n + 1) >>= fun _ ↦ (pure done : ClientProg A)) =
      Prog.perform { partition := p, rpc := .write req } >>= fun reply ↦
        if reply.status.code = .ok then pure done
        else writeLoop p req n >>= fun _ ↦ (pure done : ClientProg A) := by
  rw [writeLoop_succ, Prog.bind_assoc]
  refine congrArg (Prog.perform _ >>= ·) (funext fun reply ↦ ?_)
  split
  · rfl
  · rfl

theorem pending_writeLoop (req : WriteRequest) (hp : p < config.partitions.length)
    (hrow : client.rowPartition req.record.cell.1 = some p) {op : KVOp} {done : op.Answer}
    (hspec : ∀ m, Accepts (part client p m) req →
      Frontend.KVClient.execute () op m = (write m req.record, .ok done)) (n : ℕ) :
    (writeLoop p req (n + 1) >>= fun _ ↦ (pure done : ClientProg op.Answer)).Pending cluster mayFail
      (Is client config) op := by
  have hloop : ∀ n, n = 0 ∨ (writeLoop p req n >>= fun _ ↦ (pure done : ClientProg op.Answer)).Pending
      cluster mayFail (Is client config) op →
        (writeLoop p req (n + 1) >>= fun _ ↦ (pure done : ClientProg op.Answer)).Pending cluster
          mayFail (Is client config) op := by
    intro n hrest
    rw [writeLoop_done]
    refine pending_attempt (.write req) hp hrow fun m backend reply hends ↦ ?_
    cases hends with
    | failed _ _ _ hok hfound hnext =>
      rw [if_neg hok]
      rcases hrest with rfl | hrest
      · exact .inr ⟨true, hnext, rfl⟩
      · exact .inl ⟨hnext, hrest⟩
    | executed _ _ _ hok haccepts hsize hnext =>
      have hdone : mayFail false op m = (write m req.record, .ok done) := by
        rw [mayFail, if_neg Bool.false_ne_true, hspec m haccepts]
      refine .inr ⟨false, ?_, ?_⟩
      · rw [hdone]
        exact hnext
      · rw [hdone, if_pos hok]
        rfl
  induction n with
  | zero => exact hloop 0 (.inl rfl)
  | succ n ih => exact hloop (n + 1) (.inr ih)

theorem pending_call (hsize : client.partitions = config.partitions.length)
    (hint : sizeToInt client.partitions ≠ 0) (op : KVOp) :
    (client.call op).Pending cluster mayFail (Is client config) op := by
  have hloops : ∀ prog, client.call op = prog →
      prog.Pending cluster mayFail (Is client config) op := by
    intro prog hprog
    cases op with
    | get row col =>
      obtain ⟨p, hrow, hp⟩ := exists_rowPartition hsize hint row
      have hcall : client.call (.get row col) = getLoop p { row := row, col := col } 5 :=
        get_eq hrow col
      obtain rfl := hprog.symm.trans hcall
      exact pending_getLoop hp hrow col 4
    | put row col data =>
      obtain ⟨p, hrow, hp⟩ := exists_rowPartition hsize hint row
      have hcall : client.call (.put row col data) =
          writeLoop p (.put { row := row, col := col, value := data }) 5 >>= fun _ ↦ pure () := by
        rw [← put_eq hrow]
        rfl
      obtain rfl := hprog.symm.trans hcall
      exact pending_writeLoop (.put { row := row, col := col, value := data }) hp hrow
        (fun m _ ↦ rfl) 4
    | cput row col v1 v2 =>
      obtain ⟨p, hrow, hp⟩ := exists_rowPartition hsize hint row
      have hcall : client.call (.cput row col v1 v2) =
          writeLoop p (.cPut { row := row, col := col, v1 := v1, v2 := v2 }) 5 >>=
            fun _ ↦ pure () := by
        rw [← cput_eq hrow]
        rfl
      obtain rfl := hprog.symm.trans hcall
      refine pending_writeLoop (.cPut { row := row, col := col, v1 := v1, v2 := v2 }) hp hrow
        (fun m haccepts ↦ ?_) 4
      obtain ⟨-, -, hcell⟩ := haccepts
      rw [part_self hrow] at hcell
      simp only [Frontend.KVClient.execute, hcell, if_true]
      rfl
    | del row col =>
      obtain ⟨p, hrow, hp⟩ := exists_rowPartition hsize hint row
      have hcall : client.call (.del row col) =
          writeLoop p (.delete { row := row, col := col }) 5 >>= fun _ ↦ pure () := by
        rw [← del_eq hrow]
        rfl
      obtain rfl := hprog.symm.trans hcall
      exact pending_writeLoop (.delete { row := row, col := col }) hp hrow (fun m _ ↦ rfl) 4
  exact hloops _ rfl

end Calls

/-- Whatever programs share the cluster and however their stub calls interleave, with rounds, admin
shutdowns and crashes in between, the same programs can share one map call by call, some of the calls
failing, with the same results, so that every serving node holds the rows of its partition. -/
theorem clients_share_one_map {ι α : Type} [DecidableEq ι] (client : Client) (config : ClusterConfig)
    (hsize : client.partitions = config.partitions.length)
    (hint : sizeToInt client.partitions ≠ 0) (turns : ℕ → Turn) (jobs : ι → KVJob α)
    {s : Shared ι StubCall (fun _ ↦ Reply) Thrown α Backend}
    (h : Reaches (machine cluster fun i n ↦ (jobs i n).expand client.call) anyStep
      (Shared.start (fun i n ↦ (jobs i n).expand client.call) (start config turns)) s) :
    ∃ t : Shared ι KVOp KVOp.Answer Thrown α Store,
      Reaches (machine mayFail jobs) anyStep (Shared.start jobs fun _ ↦ none) t ∧
      (∀ i a, s.Returned i a → t.Returned i a) ∧
      (∀ i e, s.now i = .raise e → t.now i = .raise e) ∧
      ∀ (p : ℕ) replicas, s.store.partitions[p]? = some replicas → ∀ node ∈ replicas.nodes,
        node.statusServ = true → ∀ cell, cells node.tablet cell =
          if client.rowPartition cell.1 = some p then t.store cell else none := by
  obtain ⟨t, hlayered, hreach⟩ := reaches_layered (pending_call hsize hint)
    (start_sharded client config turns) h
  refine ⟨t, hreach, fun i a hreturned ↦ hlayered.returned hreturned, fun i e hraise ↦ ?_, ?_⟩
  · have hfollows := hlayered.2 i
    rw [hraise] at hfollows
    exact hfollows.of_raise
  · intro p replicas hreplicas node hnode hserving cell
    obtain ⟨i, hi⟩ := List.mem_iff_getElem?.mp hnode
    have hsharded : Sharded client config t.store s.store.partitions := hlayered.1
    exact congrFun (hsharded.agrees p replicas hreplicas i node hi hserving) cell

/-- Two clients put to one cell; the first one reads it afterwards. -/
def twoPuts : Bool → KVJob Bytes
  | false => once do
    Frontend.KVClient.put (lit "row") (lit "col") (lit "x")
    Frontend.KVClient.get (lit "row") (lit "col")
  | true => once do
    Frontend.KVClient.put (lit "row") (lit "col") (lit "y")
    return []

/-- The first client has read this. -/
def hasRead (value : Bytes) (s : Shared Bool StubCall (fun _ ↦ Reply) Thrown Bytes Backend) : Bool :=
  match s.now false with
  | .ret (.done result) => result = value
  | _ => false

theorem returned_of_hasRead {value : Bytes}
    {s : Shared Bool StubCall (fun _ ↦ Reply) Thrown Bytes Backend} (h : hasRead value s = true) :
    s.Returned false value := by
  unfold hasRead at h
  split at h
  case h_1 result hnow =>
    obtain rfl := of_decide_eq_true h
    exact hnow
  case h_2 => cases h

/-- The primary crashes before the first client reads; the first stub call of the read fails. -/
theorem clients_share_one_map_twoPuts :
    ∃ t : Shared Bool KVOp KVOp.Answer Thrown Bytes Store,
      Reaches (machine mayFail twoPuts) anyStep (Shared.start twoPuts fun _ ↦ none) t ∧
        t.Returned false (lit "y") := by
  have hrun : (run (machine cluster fun i n ↦ (twoPuts i n).expand (Client.mk digestOfRow 3).call)
      (Shared.start (fun i n ↦ (twoPuts i n).expand (Client.mk digestOfRow 3).call)
        (start threePartitions failover))
      [(false, ()), (true, ()), (false, ()), (false, ())]).map (hasRead (lit "y")) = some true := by
    decide +kernel
  obtain ⟨s, hreach, hread⟩ := reaches_of_run_check hrun
  obtain ⟨t, hreach', hreturned, -⟩ := clients_share_one_map (Client.mk digestOfRow 3)
    threePartitions rfl (by decide) failover twoPuts hreach
  exact ⟨t, hreach', hreturned false _ (returned_of_hasRead hread)⟩

end PennCloud.Cluster.ManyClients
