import PennCloud.Cluster.Rejoin

/-!
# Outages

When all processes of a partition have ended, its data is gone, although each of them has written
checkpoints and a log: a process can only copy from another one, and a checkpoint that holds
anything keeps its node from being started again.
-/

open PennCloud.Library.Runs
open PennCloud.Library.WriteLog (write write_self write_of_ne)
open PennCloud.KV.TabletCells PennCloud.KV.PrimaryView PennCloud.KV.Handlers
open PennCloud.KV.CheckpointFile PennCloud.KV.TabletSync
open PennCloud.Coordinator.Election PennCloud.Coordinator.Forwarding
open PennCloud.Coordinator.Views hiding Event start
open PennCloud.Replication PennCloud.Replication.Serving
open PennCloud.Frontend.KVClient (Store)
open PennCloud.Cluster.StorageClient PennCloud.Cluster.Restarts
open PennCloud.Cluster.OneMap hiding start
open PennCloud.Cluster.Rejoin (acknowledged)

namespace PennCloud.Cluster.Outages

/-! ## Where values come from -/

theorem serve_cells {fuel i : ℕ} {s : Replicas} {req : WriteRequest} {r : Replicas × Reply}
    (h : s.serve fuel i req = some r) (j : ℕ) (node : KVNode) (hnode : r.1.nodes[j]? = some node) :
    ∃ old, s.nodes[j]? = some old ∧ (cells node.tablet = cells old.tablet ∨
      cells node.tablet = write (cells old.tablet) req.record) := by
  have hsame : ∀ {t u : Replicas}, SameTablets t u → ∀ {node : KVNode}, u.nodes[j]? = some node →
      ∃ old, t.nodes[j]? = some old ∧ cells node.tablet = cells old.tablet := by
    intro t u htablets node hnode
    obtain ⟨old, hold, htablet⟩ := htablets j node hnode
    exact ⟨old, hold, congrArg cells htablet⟩
  induction fuel generalizing s i with
  | zero => cases h
  | succ fuel ih =>
    cases served_of_serve h with
    | lost => exact ⟨node, hnode, .inl rfl⟩
    | forwarded origin peer k _ horigin hroute htarget hrest =>
      obtain ⟨mid, hmid, hcells⟩ := ih hrest
      obtain ⟨old, hold, heq⟩ := hsame (sameTablets_modify s i _) hmid
      rw [heq] at hcells
      exact ⟨old, hold, hcells⟩
    | stuck origin horigin =>
      obtain ⟨old, hold, heq⟩ := hsame (sameTablets_modify s i _) hnode
      exact ⟨old, hold, .inl heq⟩
    | aborted origin horigin =>
      obtain ⟨old, hold, heq⟩ := hsame (sameTablets_modify s i adminShutdown) hnode
      exact ⟨old, hold, .inl heq⟩
    | done origin outcome horigin hhandled =>
      rw [Replicas.commit_getElem?, Option.map_eq_some_iff] at hnode
      obtain ⟨old, hold, rfl⟩ := hnode
      refine ⟨old, hold, ?_⟩
      cases hhandled with
      | executed hserving hview hmulticast hcode hcells =>
        split
        · next hji =>
          obtain rfl : origin = old := Option.some.inj (horigin.symm.trans (hji ▸ hold))
          exact .inr hcells
        · rw [hmulticast]
          dsimp only [executePeer]
          split
          · exact .inl rfl
          · exact .inr (logAndConduct_cells old req.record)
      | refused hview hmulticast hcode hcells =>
        split
        · next hji =>
          obtain rfl : origin = old := Option.some.inj (horigin.symm.trans (hji ▸ hold))
          exact .inl hcells
        · rw [hmulticast]
          exact .inl rfl

/-- Every value was written by one of these requests. -/
def Written (since : List (WriteRequest × Reply)) (tablet : Tablet) : Prop :=
  ∀ cell value, cells tablet cell = some value →
    ∃ w ∈ since, w.1.cell = cell ∧ w.1.outcome = some value

theorem Written.cons {since : List (WriteRequest × Reply)} {old tablet : Tablet} {req : WriteRequest}
    (h : Written since old) (reply : Reply)
    (hcells : cells tablet = cells old ∨ cells tablet = write (cells old) req.record) :
    Written ((req, reply) :: since) tablet := by
  intro cell value hvalue
  have hkept : cells old cell = some value →
      ∃ w ∈ (req, reply) :: since, w.1.cell = cell ∧ w.1.outcome = some value := by
    intro hold
    obtain ⟨w, hw, hcell⟩ := h cell value hold
    exact ⟨w, List.mem_cons_of_mem _ hw, hcell⟩
  rcases hcells with heq | heq
  · exact hkept (congrFun heq cell ▸ hvalue)
  · rw [heq] at hvalue
    by_cases hcell : cell = req.cell
    · subst hcell
      rw [show req.cell = Library.WriteLog.Write.key req.record from rfl, write_self] at hvalue
      exact ⟨(req, reply), List.mem_cons_self, rfl, hvalue⟩
    · rw [write_of_ne hcell] at hvalue
      exact hkept hvalue

/-- All processes hold values that have been written since. -/
def Recent (base : List (WriteRequest × Reply)) (s : Hosts) : Prop :=
  ∃ since, s.writes = since ++ base ∧ ∀ (i : ℕ) node, s.replicas.nodes[i]? = some node →
    (i ∈ s.replicas.dead → i ∈ s.loaded) → Written since node.tablet

theorem Recent.of_sameTablets {base : List (WriteRequest × Reply)} {s : Hosts} (h : Recent base s)
    {t : Replicas} {loaded : List ℕ} (htablets : SameTablets s.replicas t)
    (hruns : ∀ i, (i ∈ t.dead → i ∈ loaded) → i ∈ s.replicas.dead → i ∈ s.loaded) :
    Recent base { s with replicas := t, loaded := loaded } := by
  obtain ⟨since, hwrites, hwritten⟩ := h
  refine ⟨since, hwrites, fun i node hnode hi ↦ ?_⟩
  obtain ⟨old, hold, htablet⟩ := htablets i node hnode
  rw [htablet]
  exact hwritten i old hold (hruns i hi)

/-- The step lemma. -/
theorem Recent.step {base : List (WriteRequest × Reply)} {pId : ℕ} {s t : Hosts} {e : Event}
    (h : Recent base s) (hstep : s.step pId e = some t) : Recent base t := by
  cases stepped_of_step hstep with
  | idle => exact h
  | round garbage => exact h.of_sameTablets (sameTablets_withControl _ _ _) fun _ hi ↦ hi
  | shutdown i => exact h.of_sameTablets (sameTablets_withControl _ _ _) fun _ hi ↦ hi
  | startup i hlive => exact h.of_sameTablets (sameTablets_withControl _ _ _) fun _ hi ↦ hi
  | crash i =>
    refine h.of_sameTablets (sameTablets_modify _ _ _) fun j hj hdead ↦ ?_
    exact (List.mem_filter.mp (hj (List.mem_cons_of_mem i hdead))).1
  | write i req r hserve =>
    obtain ⟨since, hwrites, hwritten⟩ := h
    refine ⟨(req, r.2) :: since, congrArg _ hwrites, fun j node hnode hj ↦ ?_⟩
    obtain ⟨old, hold, hcells⟩ := serve_cells hserve j node hnode
    refine (hwritten j old hold fun hdead ↦ hj ?_).cons r.2 hcells
    rcases serve_dead hserve with heq | ⟨k, heq, -⟩
    · exact heq ▸ hdead
    · exact heq ▸ List.mem_cons_of_mem k hdead
  | checkpoint => exact h
  | load i log logOpens old tablet hold hdead hfile hrestored =>
    obtain ⟨since, hwrites, hwritten⟩ := h
    refine ⟨since, hwrites, fun j node hnode hj ↦ ?_⟩
    rw [load_getElem?] at hnode
    split at hnode
    · obtain ⟨_, -, rfl⟩ := Option.map_eq_some_iff.mp hnode
      intro cell value hvalue
      cases hrestored with
      | copied hsync k peer hlive hpeer hserving hcells =>
        rw [hcells] at hvalue
        exact hwritten k peer hpeer (fun hdead ↦ absurd hdead hlive) cell value hvalue
      | empty hfailed hcells =>
        rw [hcells] at hvalue
        cases hvalue
    · next hij =>
      refine hwritten j node hnode fun hdead ↦ ?_
      exact (List.mem_cons.mp (hj hdead)).resolve_left fun heq ↦ hij heq.symm
  | listen i hloaded =>
    refine h.of_sameTablets (sameTablets_modify _ _ _) fun j hj hdead ↦ ?_
    by_cases hji : j = i
    · exact hji ▸ hloaded
    · have hstill : j ∈ s.replicas.dead.filter (· ≠ i) :=
        List.mem_filter.mpr ⟨hdead, decide_eq_true hji⟩
      exact (List.mem_filter.mp (hj hstill)).1

/-- The process has ended, and its checkpoint is not empty. -/
structure Lost (i : ℕ) (s : Hosts) : Prop where
  dead : i ∈ s.replicas.dead
  notLoaded : i ∉ s.loaded
  file : s.files i ≠ none ∧ s.files i ≠ some []

theorem Lost.step {pId i : ℕ} {s t : Hosts} {e : Event} (h : Lost i s)
    (hstep : s.step pId e = some t) : Lost i t := by
  cases stepped_of_step hstep with
  | idle => exact h
  | round => exact ⟨h.dead, h.notLoaded, h.file⟩
  | shutdown => exact ⟨h.dead, h.notLoaded, h.file⟩
  | startup => exact ⟨h.dead, h.notLoaded, h.file⟩
  | crash j =>
    exact ⟨List.mem_cons_of_mem j h.dead, fun hi ↦ h.notLoaded (List.mem_filter.mp hi).1, h.file⟩
  | write j req r hserve =>
    refine ⟨?_, h.notLoaded, h.file⟩
    rcases serve_dead hserve with heq | ⟨k, heq, -⟩
    · exact heq ▸ h.dead
    · exact heq ▸ List.mem_cons_of_mem k h.dead
  | checkpoint j calls content hruns =>
    have hij : i ≠ j := by
      rintro rfl
      exact h.notLoaded (hruns h.dead)
    refine ⟨h.dead, h.notLoaded, ?_⟩
    dsimp only
    rw [Function.update_of_ne hij]
    exact h.file
  | load j log logOpens old tablet hold hdead hfile =>
    refine ⟨h.dead, fun hi ↦ ?_, h.file⟩
    rcases List.mem_cons.mp hi with rfl | hi
    · rcases hfile with hnone | hempty
      · exact h.file.1 hnone
      · exact h.file.2 hempty
    · exact h.notLoaded hi
  | listen j hloaded =>
    have hij : i ≠ j := by
      rintro rfl
      exact h.notLoaded hloaded
    exact ⟨List.mem_filter.mpr ⟨h.dead, decide_eq_true hij⟩,
      fun hi ↦ h.notLoaded (List.mem_filter.mp hi).1, h.file⟩

/-- What a partition has stored does not survive an outage of all its nodes, whatever checkpoints
and logs hold: in every run afterwards, whoever serves has only values written since then. And who
has left a checkpoint that is not empty never comes back. -/
theorem outage_loses_all (config : ClusterConfig) (pId : Fin config.partitions.length) {s t : Hosts}
    (hs : Reaches (machine pId) anyStep (start (config.partitions.get pId)) s)
    (hdead : ∀ i < s.replicas.nodes.length, i ∈ s.replicas.dead) (hloaded : s.loaded = [])
    (h : Reaches (machine pId) anyStep s t) :
    (∃ since, t.writes = since ++ s.writes ∧ ∀ node ∈ t.replicas.nodes, node.statusServ = true →
      Written since node.tablet) ∧
    ∀ i, s.files i ≠ none → s.files i ≠ some [] → ∀ node, t.replicas.nodes[i]? = some node →
      i < s.replicas.nodes.length → i ∈ t.replicas.dead ∧ node.statusServ = false := by
  have hdistinct := config.distinct _ (List.get_mem config.partitions pId)
  have hnamed := config.named _ (List.get_mem config.partitions pId)
  have hdown : Down t.replicas := (reaches_control hdistinct hnamed (hs.trans h)).2
  constructor
  · have hbegin : Recent s.writes s := by
      refine ⟨[], rfl, fun i node hnode hruns ↦ ?_⟩
      have hi := hruns (hdead i (List.getElem?_eq_some_iff.mp hnode).1)
      rw [hloaded] at hi
      cases hi
    obtain ⟨since, hwrites, hwritten⟩ :=
      h.invariant hbegin fun _ _ _ hrecent _ hstep ↦ hrecent.step hstep
    refine ⟨since, hwrites, fun node hnode hserving ↦ ?_⟩
    obtain ⟨i, hi⟩ := List.mem_iff_getElem?.mp hnode
    refine hwritten i node hi fun hdead' ↦ ?_
    rw [hdown i hdead' node hi] at hserving
    cases hserving
  · intro i hsome hcontent node hnode hlt
    have hbegin : Lost i s := ⟨hdead i hlt, by rw [hloaded]; exact List.not_mem_nil, hsome, hcontent⟩
    have hlost := h.invariant hbegin fun _ _ _ hlost _ hstep ↦ hlost.step hstep
    exact ⟨hlost.dead, hdown i hlost.dead node hnode⟩

/-- A write, a checkpoint of node 1, and the end of both processes. -/
def outage : List Event :=
  [.round false, .write 0 putValue, .checkpoint 1 allComplete, .crash 0, .crash 1]

/-- Node 0 serves again, without the value; node 1 does not. -/
theorem outage_loses_all_value :
    ∃ s t : Hosts, acknowledged s.writes (lit "row", lit "col") = some (lit "value") ∧
      t.replicas.dead = [1] ∧ s.files 1 ≠ none ∧ s.files 1 ≠ some [] ∧
      (∃ since, t.writes = since ++ s.writes ∧ ∀ node ∈ t.replicas.nodes,
        node.statusServ = true → Written since node.tablet) ∧
      ∀ i, s.files i ≠ none → s.files i ≠ some [] → ∀ node, t.replicas.nodes[i]? = some node →
        i < s.replicas.nodes.length → i ∈ t.replicas.dead ∧ node.statusServ = false := by
  have hrun : ((run (machine 0) (start [lit "A", lit "B"]) outage).bind fun s ↦
      (run (machine 0) s [.load 0 none true, .listen 0, .round false]).map fun t ↦
        decide (acknowledged s.writes (lit "row", lit "col") = some (lit "value") ∧
          t.replicas.dead = [1] ∧ s.loaded = [] ∧ s.replicas.nodes.length = 2 ∧
          s.replicas.dead = [1, 0] ∧ s.files 1 ≠ none ∧ s.files 1 ≠ some [])) = some true := by
    decide +kernel
  obtain ⟨s, hs, hrest⟩ := Option.bind_eq_some_iff.mp hrun
  obtain ⟨t, hreach, hcheck⟩ := reaches_of_run_check hrest
  obtain ⟨hvalue, hdead, hloaded, hlength, hall, hsome, hcontent⟩ := of_decide_eq_true hcheck
  refine ⟨s, t, hvalue, hdead, hsome, hcontent,
    outage_loses_all twoNodes ⟨0, by decide⟩ (reaches_of_run hs) ?_ hloaded hreach⟩
  rw [hlength, hall]
  decide

end PennCloud.Cluster.Outages
