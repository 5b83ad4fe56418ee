import PennCloud.Replication.Convergence

/-!
# Two primaries wait for each other

A node that takes itself for the primary holds the row lock while it waits for `PPut` or `PDelete` at
its peers, which takes the row lock there. Two such nodes with a write of the same row each block
one another, and the row stays locked at both.
-/

open PennCloud.KV.TabletCells PennCloud.KV.PrimaryView PennCloud.KV.Handlers
open PennCloud.Coordinator.Views (Partition Configured startPartition startPartition_configured)
open PennCloud.Library.Runs PennCloud.Library.Locks
open PennCloud.Replication.Serving PennCloud.Replication.NodeActions
open PennCloud.Replication.Agreement PennCloud.Replication.Interleaving
open PennCloud.Replication.Convergence

namespace PennCloud.Replication.Deadlock

section Node

variable (load : Load)

/-- Writer `t` holds the row lock of the node, and writer `u` of the same row is outside. -/
structure Blocked (t u : ℕ) (σ : Store) : Prop where
  guards : Guards σ.lkR (Inside load σ)
  held : σ.lkR (load.row t) = some (.writer t)
  waiting : σ.handler u = .outside

variable {load} {t u : ℕ} {σ τ : Store} {act : Action}

/-- Only its holder releases the lock. -/
theorem held_act (hguards : Guards σ.lkR (Inside load σ)) (hact : Acted load σ act τ)
    (hheld : σ.lkR (load.row t) = some (.writer t)) (hother : act.writer ≠ some t) :
    τ.lkR (load.row t) = some (.writer t) := by
  have hacquire : ∀ {row : Bytes} {o : Owner}, σ.lkR row = none →
      acquire σ.lkR row o (load.row t) = some (.writer t) := by
    intro row o hfree
    have hne : load.row t ≠ row := by
      rintro rfl
      rw [hheld] at hfree
      cases hfree
    exact (Function.update_of_ne hne _ _).trans hheld
  have hrelease : ∀ {row : Bytes} {o : Owner}, Inside load σ o row → o ≠ .writer t →
      release σ.lkR row (load.row t) = some (.writer t) := by
    intro row o hin hne
    have hrow : load.row t ≠ row := by
      rintro rfl
      exact hne (hguards.unique hin ((hguards _ _).mp hheld))
    exact (Function.update_of_ne hrow _ _).trans hheld
  cases hact with
  | enter v hold hfree => exact hacquire hfree
  | look g hold hfree => exact hacquire hfree
  | withdraw v hold =>
    exact hrelease (o := .writer v) ⟨.inl hold, rfl⟩ fun heq ↦ hother (congrArg some (Owner.writer.inj heq))
  | leave v hold =>
    exact hrelease (o := .writer v) ⟨.inr (.inr hold), rfl⟩
      fun heq ↦ hother (congrArg some (Owner.writer.inj heq))
  | unlook g hold => exact hrelease (o := .reader g) ⟨hold, rfl⟩ Owner.noConfusion
  | append => exact hheld
  | conduct => exact hheld

/-- All that a writer outside can do is to enter, and that only when the lock is free. -/
theorem free_of_outside (hact : Acted load σ act τ) (hwriter : act.writer = some u)
    (hout : σ.handler u = .outside) : σ.lkR (load.row u) = none := by
  cases hact with
  | enter v hold hfree =>
    obtain rfl := Option.some.inj hwriter
    exact hfree
  | withdraw v hold =>
    obtain rfl := Option.some.inj hwriter
    cases hold.symm.trans hout
  | append v hold =>
    obtain rfl := Option.some.inj hwriter
    cases hold.symm.trans hout
  | conduct v hold =>
    obtain rfl := Option.some.inj hwriter
    cases hold.symm.trans hout
  | leave v hold =>
    obtain rfl := Option.some.inj hwriter
    cases hold.symm.trans hout
  | look => cases hwriter
  | unlook => cases hwriter

/-- The writer outside cannot enter. -/
theorem Blocked.acted (h : Blocked load t u σ) (hrow : load.row u = load.row t)
    (hact : Acted load σ act τ) (hother : act.writer ≠ some t) : Blocked load t u τ where
  guards := act_guards load h.guards hact
  held := held_act h.guards hact h.held hother
  waiting := by
    by_cases hu : act.writer = some u
    · have hfree := free_of_outside hact hu h.waiting
      rw [hrow, h.held] at hfree
      cases hfree
    · rw [acted_handler_of_ne load hact hu]
      exact h.waiting

end Node

/-! ## A primary under its row lock -/

theorem lt_of_routedAt {p : Partition} {j : ℕ} {req : WriteRequest} {route : Route}
    (h : (routedAt p j req).map Prod.snd = some route) : j < p.nodes.length := by
  obtain ⟨routed, hrouted, -⟩ := Option.map_eq_some_iff.mp h
  obtain ⟨view, hview, -⟩ := Option.map_eq_some_iff.mp hrouted
  exact (List.getElem?_eq_some_iff.mp hview).1

section Home

variable {p : Partition} {load : Load} {s s' : Sys} {v : ℕ}

/-- What holds whichever nodes take themselves for the primary: nothing has been done for a request that
has not been sent, and the handler that multicasts is under the row lock of its node. -/
structure Sound (p : Partition) (load : Load) (s : Sys) : Prop where
  guards : ∀ j, Guards (s.node j).lkR (Inside load (s.node j))
  idle : ∀ t, s.stage t = .idle → ∀ j, (s.node j).handler t = .outside
  home : ∀ t i, s.stage t = .locked i ∨ s.stage t = .multicast i →
    i < p.nodes.length ∧ (s.node i).handler t = .locked

theorem start_sound (p : Partition) (load : Load) (tablets : ℕ → Tablet) :
    Sound p load (start tablets) where
  guards := fun j ↦ (nodeInv_start load (tablets j)).guards
  idle := fun _ _ _ ↦ rfl
  home := by
    rintro t i (h | h)
    · cases h
    · cases h

theorem Sound.guards_update (h : Sound p load s) {i : ℕ} {act : Action} {σ : Store}
    (hact : Acted load (s.node i) act σ) (j : ℕ) :
    Guards (Function.update s.node i σ j).lkR (Inside load (Function.update s.node i σ j)) := by
  by_cases hj : j = i
  · rw [hj, Function.update_self]
    exact act_guards load (h.guards i) hact
  · rw [Function.update_of_ne hj]
    exact h.guards j

/-- A step for request `v`: the others are where they were. -/
theorem Sound.move (h : Sound p load s)
    (hguards : ∀ j, Guards (s'.node j).lkR (Inside load (s'.node j)))
    (hothers : ∀ t, t ≠ v → s'.stage t = s.stage t ∧ s'.handlers t = s.handlers t)
    (hsent : s'.stage v ≠ .idle)
    (hhome : ∀ i, s'.stage v = .locked i ∨ s'.stage v = .multicast i →
      i < p.nodes.length ∧ (s'.node i).handler v = .locked) : Sound p load s' where
  guards := hguards
  idle t ht j := by
    by_cases htv : t = v
    · rw [htv] at ht
      exact absurd ht hsent
    · obtain ⟨hstage, hhandlers⟩ := hothers t htv
      exact (congrFun hhandlers j).trans (h.idle t (hstage.symm.trans ht) j)
  home t i hti := by
    by_cases htv : t = v
    · subst htv
      exact hhome i hti
    · obtain ⟨hstage, hhandlers⟩ := hothers t htv
      rw [hstage] at hti
      obtain ⟨hlt, hlocked⟩ := h.home t i hti
      exact ⟨hlt, (congrFun hhandlers i).trans hlocked⟩

theorem Sound.toStage (h : Sound p load s) {stage : Stage} (hsent : stage ≠ .idle)
    (hhome : ∀ i, stage = .locked i ∨ stage = .multicast i →
      s.stage v = .locked i ∨ s.stage v = .multicast i) : Sound p load (s.toStage v stage) := by
  refine h.move (v := v) h.guards (fun t ht ↦ ⟨toStage_stage_of_ne s ht stage, rfl⟩) ?_ fun i hi ↦ ?_
  · rw [toStage_stage_self]
    exact hsent
  · rw [toStage_stage_self] at hi
    exact h.home v i (hhome i hi)

theorem Sound.put (h : Sound p load s) {i : ℕ} {act : Action} {σ : Store} {stage : Stage}
    (hact : Acted load (s.node i) act σ) (hwriter : act.writer = some v) (hsent : stage ≠ .idle)
    (hhome : ∀ j, stage = .locked j ∨ stage = .multicast j →
      j < p.nodes.length ∧ (Function.update s.node i σ j).handler v = .locked) :
    Sound p load (s.put i v stage σ) := by
  refine h.move (v := v) (h.guards_update hact) (fun t ht ↦ ⟨put_stage_of_ne s i ht stage σ, ?_⟩)
    ?_ fun j hj ↦ ?_
  · refine handlers_other hact ?_
    rw [hwriter]
    exact fun heq ↦ ht (Option.some.inj heq).symm
  · rw [put_stage_self]
    exact hsent
  · rw [put_stage_self] at hj
    exact hhome j hj

theorem Sound.putAsk (h : Sound p load s) {i g : ℕ} {act : Action} {σ : Store} {ask : Ask}
    (hact : Acted load (s.node i) act σ) (hwriter : act.writer = none) :
    Sound p load (s.putAsk i g ask σ) := by
  have hsame : ∀ t, (s.putAsk i g ask σ).handlers t = s.handlers t := by
    intro t
    apply handlers_other hact
    rw [hwriter]
    exact (Option.some_ne_none t).symm
  exact {
    guards := h.guards_update hact
    idle := fun t ht j ↦ (congrFun (hsame t) j).trans (h.idle t ht j)
    home := fun t j htj ↦
      ⟨(h.home t j htj).1, (congrFun (hsame t) j).trans (h.home t j htj).2⟩ }

theorem Sound.step {addrs : List Bytes} (h : Sound p load s) (hdistinct : addrs.Nodup)
    (hp : Configured addrs p) (hstep : Happened p load s s') : Sound p load s' := by
  cases hstep with
  | call v hold =>
    exact h.toStage Stage.noConfusion (by simp)
  | forward v i j hold =>
    exact h.toStage Stage.noConfusion (by simp)
  | reject v i status hold =>
    exact h.toStage Stage.noConfusion (by simp)
  | lock v i σ hold hroute hact =>
    refine h.put hact rfl Stage.noConfusion fun j hj ↦ ?_
    rcases hj with hj | hj
    · obtain rfl := Stage.locked.inj hj
      refine ⟨lt_of_routedAt hroute, ?_⟩
      rw [Function.update_self]
      cases hact with
      | enter => exact Function.update_self _ _ _
    · cases hj
  | refuse v i status σ hold hact =>
    exact h.put hact rfl Stage.noConfusion (by simp)
  | accept v i hold =>
    refine h.toStage Stage.noConfusion fun j hj ↦ ?_
    rcases hj with hj | hj
    · cases hj
    · obtain rfl := Stage.multicast.inj hj
      exact .inl hold
  | peer v i j move σ hold hpeer hact =>
    refine h.put hact (move.writer_action v) Stage.noConfusion fun n hn ↦ ?_
    rcases hn with hn | hn
    · cases hn
    · obtain rfl := Stage.multicast.inj hn
      obtain ⟨hlt, hlocked⟩ := h.home v i (.inr hold)
      have hne := ((mem_peersOf hdistinct hp hlt j).mp hpeer).2
      rw [Function.update_of_ne hne.symm]
      exact ⟨hlt, hlocked⟩
  | join v i hold hall =>
    exact h.toStage Stage.noConfusion (by simp)
  | log v i σ hold hact =>
    exact h.put hact rfl Stage.noConfusion (by simp)
  | apply v i reply σ hold hact =>
    exact h.put hact rfl Stage.noConfusion (by simp)
  | reply v i reply σ hold hact =>
    exact h.put hact rfl Stage.noConfusion (by simp)
  | query g hold hentry => exact ⟨h.guards, h.idle, h.home⟩
  | look g σ hold hact => exact h.putAsk hact rfl
  | read g view node σ hold hview hnode htablet hact => exact h.putAsk hact rfl

theorem Sound.reaches {addrs : List Bytes} (h : Sound p load s) (hdistinct : addrs.Nodup)
    (hp : Configured addrs p) (hreach : Reaches (machine p load) anyStep s s') : Sound p load s' :=
  hreach.invariant h fun _ _ _ hs _ hstep ↦ hs.step hdistinct hp (happened_of_step p load hstep)

end Home

/-! ## Two of them -/

section Partition

variable {addrs : List Bytes} {p : Partition} {load : Load} {t u i k : ℕ} {s s' : Sys}

/-- Each of the two nodes holds the row lock for its own request and waits for the other. -/
structure Stuck (load : Load) (t u i k : ℕ) (s : Sys) : Prop where
  first : s.stage t = .multicast i
  second : s.stage u = .multicast k
  blockedFirst : Blocked load t u (s.node i)
  blockedSecond : Blocked load u t (s.node k)

theorem Stuck.toStage (h : Stuck load t u i k s) {v : ℕ} {stage : Stage} (ht : v ≠ t) (hu : v ≠ u) :
    Stuck load t u i k (s.toStage v stage) where
  first := (toStage_stage_of_ne s ht.symm stage).trans h.first
  second := (toStage_stage_of_ne s hu.symm stage).trans h.second
  blockedFirst := h.blockedFirst
  blockedSecond := h.blockedSecond

/-- A node makes a step, not for the request whose lock it holds. -/
theorem Stuck.act_node (h : Stuck load t u i k s) (hrow : load.row u = load.row t) {j : ℕ}
    {act : Action} {σ : Store} (hact : Acted load (s.node j) act σ)
    (ht : j = i → act.writer ≠ some t) (hu : j = k → act.writer ≠ some u) :
    Blocked load t u (Function.update s.node j σ i) ∧
      Blocked load u t (Function.update s.node j σ k) := by
  constructor
  · by_cases hj : i = j
    · subst hj
      rw [Function.update_self]
      exact h.blockedFirst.acted hrow hact (ht rfl)
    · rw [Function.update_of_ne hj]
      exact h.blockedFirst
  · by_cases hj : k = j
    · subst hj
      rw [Function.update_self]
      exact h.blockedSecond.acted hrow.symm hact (hu rfl)
    · rw [Function.update_of_ne hj]
      exact h.blockedSecond

theorem Stuck.put (h : Stuck load t u i k s) (hrow : load.row u = load.row t) {j v : ℕ}
    {act : Action} {σ : Store} {stage : Stage} (hact : Acted load (s.node j) act σ)
    (hwriter : act.writer = some v) (ht : v ≠ t) (hu : v ≠ u) :
    Stuck load t u i k (s.put j v stage σ) := by
  obtain ⟨hfirst, hsecond⟩ := h.act_node hrow hact
    (fun _ ↦ by rw [hwriter]; exact fun heq ↦ ht (Option.some.inj heq))
    (fun _ ↦ by rw [hwriter]; exact fun heq ↦ hu (Option.some.inj heq))
  exact ⟨(put_stage_of_ne s j ht.symm stage σ).trans h.first,
    (put_stage_of_ne s j hu.symm stage σ).trans h.second, hfirst, hsecond⟩

theorem Stuck.putAsk (h : Stuck load t u i k s) (hrow : load.row u = load.row t) {j g : ℕ}
    {act : Action} {σ : Store} {ask : Ask} (hact : Acted load (s.node j) act σ)
    (hwriter : act.writer = none) : Stuck load t u i k (s.putAsk j g ask σ) := by
  obtain ⟨hfirst, hsecond⟩ := h.act_node hrow hact
    (fun _ ↦ by rw [hwriter]; exact (Option.some_ne_none t).symm)
    (fun _ ↦ by rw [hwriter]; exact (Option.some_ne_none u).symm)
  exact ⟨h.first, h.second, hfirst, hsecond⟩

theorem Stuck.step (h : Stuck load t u i k s) (hdistinct : addrs.Nodup) (hp : Configured addrs p)
    (hi : i < p.nodes.length) (hk : k < p.nodes.length) (hik : i ≠ k)
    (hrow : load.row u = load.row t) (hstep : Happened p load s s') : Stuck load t u i k s' := by
  have hne : ∀ {v : ℕ} {stage : Stage}, s.stage v = stage → (∀ j, stage ≠ .multicast j) →
      v ≠ t ∧ v ≠ u := by
    intro v stage hstage hnot
    constructor
    · rintro rfl
      exact hnot i (hstage.symm.trans h.first)
    · rintro rfl
      exact hnot k (hstage.symm.trans h.second)
  have hmoved : ∀ {v : ℕ} {stage stage' : Stage}, s.stage v = stage → (∀ j, stage ≠ .multicast j) →
      Stuck load t u i k (s.toStage v stage') :=
    fun hstage hnot ↦ h.toStage (hne hstage hnot).1 (hne hstage hnot).2
  have hput : ∀ {v j : ℕ} {stage stage' : Stage} {act : Action} {σ : Store}, s.stage v = stage →
      (∀ j, stage ≠ .multicast j) → Acted load (s.node j) act σ → act.writer = some v →
      Stuck load t u i k (s.put j v stage' σ) :=
    fun hstage hnot hact hwriter ↦ h.put hrow hact hwriter (hne hstage hnot).1 (hne hstage hnot).2
  cases hstep with
  | call v hold => exact hmoved hold fun _ ↦ Stage.noConfusion
  | forward v i' j hold => exact hmoved hold fun _ ↦ Stage.noConfusion
  | reject v i' status hold => exact hmoved hold fun _ ↦ Stage.noConfusion
  | accept v i' hold => exact hmoved hold fun _ ↦ Stage.noConfusion
  | lock v i' σ hold hroute hact => exact hput hold (fun _ ↦ Stage.noConfusion) hact rfl
  | refuse v i' status σ hold hact => exact hput hold (fun _ ↦ Stage.noConfusion) hact rfl
  | log v i' σ hold hact => exact hput hold (fun _ ↦ Stage.noConfusion) hact rfl
  | apply v i' reply σ hold hact => exact hput hold (fun _ ↦ Stage.noConfusion) hact rfl
  | reply v i' reply σ hold hact => exact hput hold (fun _ ↦ Stage.noConfusion) hact rfl
  | join v i' hold hall =>
    apply h.toStage
    · rintro rfl
      obtain rfl := Stage.multicast.inj (hold.symm.trans h.first)
      have hleft := hall k ((mem_peersOf hdistinct hp hi k).mpr ⟨hk, hik.symm⟩)
      rw [h.blockedSecond.waiting] at hleft
      cases hleft
    · rintro rfl
      obtain rfl := Stage.multicast.inj (hold.symm.trans h.second)
      have hleft := hall i ((mem_peersOf hdistinct hp hk i).mpr ⟨hi, hik⟩)
      rw [h.blockedFirst.waiting] at hleft
      cases hleft
  | peer v i' j move σ hold hpeer hact =>
    have hwriter := move.writer_action v
    -- A primary is not its own peer.
    have hself : ∀ {w n : ℕ}, n < p.nodes.length → s.stage w = .multicast n → j = n →
        (move.action v).writer ≠ some w := by
      rintro w n hn hstage rfl heq
      rw [hwriter] at heq
      obtain rfl := Option.some.inj heq
      obtain rfl := Stage.multicast.inj (hold.symm.trans hstage)
      exact ((mem_peersOf hdistinct hp hn _).mp hpeer).2 rfl
    obtain ⟨hfirst, hsecond⟩ := h.act_node hrow hact (hself hi h.first) (hself hk h.second)
    have hstays : ∀ {w n : ℕ}, s.stage w = .multicast n →
        (s.put j v (.multicast i') σ).stage w = .multicast n := by
      intro w n hstage
      by_cases hw : w = v
      · subst hw
        rw [put_stage_self, ← hold, hstage]
      · rw [put_stage_of_ne s j hw, hstage]
    exact ⟨hstays h.first, hstays h.second, hfirst, hsecond⟩
  | query g hold hentry => exact ⟨h.first, h.second, h.blockedFirst, h.blockedSecond⟩
  | look g σ hold hact => exact h.putAsk hrow hact rfl
  | read g view node σ hold hview hnode htablet hact => exact h.putAsk hrow hact rfl

/-- Whatever happens next, neither of the two requests is answered. -/
theorem Stuck.run (h : Stuck load t u i k s) (hdistinct : addrs.Nodup) (hp : Configured addrs p)
    (hi : i < p.nodes.length) (hk : k < p.nodes.length) (hik : i ≠ k)
    (hrow : load.row u = load.row t) {es : List Event} (hrun : run (machine p load) s es = some s') :
    Stuck load t u i k s' :=
  (reaches_of_run hrun).invariant h fun _ _ _ hs _ hstep ↦
    hs.step hdistinct hp hi hk hik hrow (happened_of_step p load hstep)

end Partition

/-! ## How it comes about -/

/-- A request comes to a primary and is about to be sent to the peers. -/
def opening (t i : ℕ) : List Event := [.call t, .lock t i, .accept t i]

/-- The request is accepted as soon as it comes to its node. -/
structure Opens (p : Partition) (load : Load) (t i : ℕ) (s : Sys) : Prop where
  idle : s.stage t = .idle
  entry : load.entry t = i
  route : (routedAt p i (load.request t)).map Prod.snd = some .primary
  free : (s.node i).lkR (load.row t) = none
  accept : verdict (load.request t) (s.node i).tablet = .accept

theorem opening_run {p : Partition} {load : Load} {s : Sys} {t i : ℕ} (hsound : Sound p load s)
    (h : Opens p load t i s) :
    ∃ s' σ, run (machine p load) s (opening t i) = some s' ∧ Acted load (s.node i) (.enter t) σ ∧
      s'.node = Function.update s.node i σ ∧
      s'.stage = Function.update s.stage t (.multicast i) := by
  have hlt : load.entry t < p.nodes.length := h.entry ▸ lt_of_routedAt h.route
  obtain ⟨σ, hσ, htablet⟩ : ∃ σ, (s.node i).act load (.enter t) = some σ ∧
      σ.tablet = (s.node i).tablet := ⟨_, if_pos ⟨hsound.idle t h.idle i, h.free⟩, rfl⟩
  have hcall : s.step p load (.call t) = some (s.toStage t (.arrived i)) := by
    rw [Sys.step, if_pos ⟨h.idle, hlt⟩, h.entry]
  have hlock : (s.toStage t (.arrived i)).step p load (.lock t i) =
      some ((s.toStage t (.arrived i)).put i t (.locked i) σ) := by
    rw [Sys.step, if_pos ⟨toStage_stage_self _ _ _, h.route⟩]
    exact congrArg (Option.map _) hσ
  have haccepted : ((s.toStage t (.arrived i)).put i t (.locked i) σ).step p load (.accept t i) =
      some (((s.toStage t (.arrived i)).put i t (.locked i) σ).toStage t (.multicast i)) := by
    refine if_pos ⟨put_stage_self _ _ _ _ _, ?_⟩
    dsimp only [Sys.put]
    rw [Function.update_self, htablet]
    exact h.accept
  refine ⟨((s.toStage t (.arrived i)).put i t (.locked i) σ).toStage t (.multicast i), σ, ?_,
    acted_of_act load hσ, rfl, ?_⟩
  · simp only [opening, run, machine, hcall, hlock, haccepted, Option.bind_some]
  · simp only [Sys.toStage, Sys.put, Function.update_idem]

/-- Two nodes multicast under their row locks, and neither call has come in at the other node. -/
structure Crossed (t u i k : ℕ) (s : Sys) : Prop where
  first : s.stage t = .multicast i
  second : s.stage u = .multicast k
  outFirst : (s.node i).handler u = .outside
  outSecond : (s.node k).handler t = .outside

theorem Crossed.stuck {p : Partition} {load : Load} {t u i k : ℕ} {s : Sys} (h : Crossed t u i k s)
    (hsound : Sound p load s) : Stuck load t u i k s := by
  have hheld : ∀ {v j : ℕ}, s.stage v = .multicast j →
      (s.node j).lkR (load.row v) = some (.writer v) := by
    intro v j hstage
    have hlocked := (hsound.home v j (.inr hstage)).2
    exact (hsound.guards j _ _).mpr ⟨.inl hlocked, rfl⟩
  exact {
    first := h.first
    second := h.second
    blockedFirst := ⟨hsound.guards i, hheld h.first, h.outFirst⟩
    blockedSecond := ⟨hsound.guards k, hheld h.second, h.outSecond⟩ }

/-- One after the other, they cross. -/
theorem crossed_of_openings {addrs : List Bytes} (hdistinct : addrs.Nodup) {p : Partition}
    (hp : Configured addrs p) {load : Load} {t u i k : ℕ} {s : Sys} (hsound : Sound p load s)
    (hik : i ≠ k) (ht : Opens p load t i s) (hu : Opens p load u k s) :
    ∃ s', run (machine p load) s (opening t i ++ opening u k) = some s' ∧ Crossed t u i k s' := by
  have htu : t ≠ u := by
    rintro rfl
    exact hik (ht.entry.symm.trans hu.entry)
  obtain ⟨s₁, σ₁, hrun₁, hact₁, hnode₁, hstage₁⟩ := opening_run hsound ht
  have hsound₁ : Sound p load s₁ := hsound.reaches hdistinct hp (reaches_of_run hrun₁)
  have hk : s₁.node k = s.node k := by
    rw [hnode₁, Function.update_of_ne hik.symm]
  have hu₁ : Opens p load u k s₁ := by
    refine ⟨?_, hu.entry, hu.route, hk ▸ hu.free, hk ▸ hu.accept⟩
    rw [hstage₁, Function.update_of_ne htu.symm]
    exact hu.idle
  obtain ⟨s₂, σ₂, hrun₂, hact₂, hnode₂, hstage₂⟩ := opening_run hsound₁ hu₁
  refine ⟨s₂, ?_, ?_, ?_, ?_, ?_⟩
  · rw [run_append, hrun₁, Option.bind_some, hrun₂]
  · rw [hstage₂, Function.update_of_ne htu, hstage₁, Function.update_self]
  · rw [hstage₂, Function.update_self]
  · rw [hnode₂, Function.update_of_ne hik]
    exact hsound₁.idle u hu₁.idle i
  · rw [hnode₂, Function.update_self, acted_handler_of_ne load hact₂ fun heq ↦
      htu (Option.some.inj heq).symm, hk]
    exact hsound.idle t ht.idle k

/-- Two nodes that take themselves for the primary, each with a write of the same row. In whatever
state both multicast before either call has come in, neither is ever answered, and the row
stays locked at both nodes; and from every state in which both would accept, it can come to that. -/
theorem two_primaries_deadlock {addrs : List Bytes} (hdistinct : addrs.Nodup) {p : Partition}
    (hp : Configured addrs p) (load : Load) (tablets : ℕ → Tablet) {t u i k : ℕ} (hik : i ≠ k)
    (hrow : load.row u = load.row t) {s : Sys}
    (hreach : Reaches (machine p load) anyStep (start tablets) s) :
    (Crossed t u i k s → ∀ es s', run (machine p load) s es = some s' →
      InFlight (s'.stage t) ∧ InFlight (s'.stage u) ∧
      (s'.node i).lkR (load.row t) = some (.writer t) ∧
      (s'.node k).lkR (load.row t) = some (.writer u)) ∧
    (Opens p load t i s → Opens p load u k s →
      ∃ s', run (machine p load) s (opening t i ++ opening u k) = some s' ∧ Crossed t u i k s') := by
  have hsound : Sound p load s := (start_sound p load tablets).reaches hdistinct hp hreach
  refine ⟨fun h es s' hrun ↦ ?_, crossed_of_openings hdistinct hp hsound hik⟩
  have hlt : ∀ {v j : ℕ}, s.stage v = .multicast j → j < p.nodes.length :=
    fun hstage ↦ (hsound.home _ _ (.inr hstage)).1
  have hend := (h.stuck hsound).run hdistinct hp (hlt h.first) (hlt h.second) hik hrow hrun
  refine ⟨?_, ?_, hend.blockedFirst.held, ?_⟩
  · rw [hend.first]
    exact trivial
  · rw [hend.second]
    exact trivial
  · rw [← hrow]
    exact hend.blockedSecond.held

/-- Node 0 is the primary, is shut down, replaced by node 1, and started again. -/
def splitPartition : Partition :=
  ((((startPartition [lit "A", lit "B"]).step 0 (.round false)).step 0 (.shutdown 0)).step 0
    (.round false)).step 0 (.startup 0)

/-- The same row at both nodes. -/
def oneRow : Load where
  request := fun t ↦ .put { row := lit "row", col := lit "col", value := if t = 0 then lit "x" else lit "y" }
  entry := fun t ↦ t
  query := fun _ ↦ { row := lit "row", col := lit "col" }
  queryAt := fun _ ↦ 0

theorem splitPartition_configured : Configured [lit "A", lit "B"] splitPartition :=
  Partition.step_configured (Partition.step_configured (Partition.step_configured
    (Partition.step_configured (startPartition_configured _) 0 _) 0 _) 0 _) 0 _

/-- The steps of the two requests alternate, and a `Get` comes in between. -/
def crossing : List Event :=
  [.call 0, .call 1, .lock 1 1, .query 0, .lock 0 0, .accept 1 1, .accept 0 0]

theorem run_crossing : ∃ s, run (machine splitPartition oneRow) (start fun _ ↦ ∅) crossing = some s ∧
    Crossed 0 1 0 1 s := by
  have hrun : ((run (machine splitPartition oneRow) (start fun _ ↦ ∅) crossing).map fun s ↦
      (s.stage 0, s.stage 1, (s.node 0).handler 1, (s.node 1).handler 0)) =
      some (.multicast 0, .multicast 1, .outside, .outside) := by
    decide +kernel
  obtain ⟨s, hs, hstate⟩ := Option.map_eq_some_iff.mp hrun
  simp only [Prod.mk.injEq] at hstate
  exact ⟨s, hs, hstate.1, hstate.2.1, hstate.2.2.1, hstate.2.2.2⟩

theorem two_primaries_deadlock_restarted :
    (∃ s, run (machine splitPartition oneRow) (start fun _ ↦ ∅) crossing = some s ∧
      ∀ es s', run (machine splitPartition oneRow) s es = some s' →
        InFlight (s'.stage 0) ∧ InFlight (s'.stage 1) ∧
        (s'.node 0).lkR (oneRow.row 0) = some (.writer 0) ∧
        (s'.node 1).lkR (oneRow.row 0) = some (.writer 1)) ∧
    ∃ s, run (machine splitPartition oneRow) (start fun _ ↦ ∅) (opening 0 0 ++ opening 1 1) = some s ∧
      Crossed 0 1 0 1 s := by
  have hdistinct : [lit "A", lit "B"].Nodup := by decide
  constructor
  · obtain ⟨s, hs, hcrossed⟩ := run_crossing
    exact ⟨s, hs, (two_primaries_deadlock hdistinct splitPartition_configured oneRow (fun _ ↦ ∅)
      (t := 0) (u := 1) (i := 0) (k := 1) (by decide) rfl (reaches_of_run hs)).1 hcrossed⟩
  · exact (two_primaries_deadlock hdistinct splitPartition_configured oneRow (fun _ ↦ ∅) (t := 0)
      (u := 1) (i := 0) (k := 1) (by decide) rfl .refl).2 ⟨rfl, rfl, by decide, rfl, rfl⟩
        ⟨rfl, rfl, by decide, rfl, rfl⟩

end PennCloud.Replication.Deadlock
