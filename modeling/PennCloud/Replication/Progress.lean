import PennCloud.Replication.Convergence
import Mathlib.Algebra.Order.BigOperators.Group.List
import Mathlib.Algebra.Order.Ring.Nat

/-!
# No request waits forever

With one agreed primary the row locks do not block each other. The handler that holds the lock of a
row at the primary can always go on: its peers' locks are held only by itself or by a `Get`, which
asks nobody. And every request takes a bounded number of steps, so that each is answered
whatever the schedule is. A `CPut` without a comparison value is left out, since one that finds no cell
aborts the process.
-/

open PennCloud.KV.TabletCells PennCloud.KV.PrimaryView PennCloud.KV.Handlers
open PennCloud.Coordinator.Views (Partition primaryResponse refreshView_eq)
open PennCloud.Coordinator.Forwarding
open PennCloud.Library.Runs PennCloud.Library.Locks
open PennCloud.Replication.Serving PennCloud.Replication.NodeActions
open PennCloud.Replication.Agreement PennCloud.Replication.Interleaving
open PennCloud.Replication.Convergence

namespace PennCloud.Replication.Progress

/-! ## The events of a request -/

/-- The write request whose step an event is. -/
def writerOf : Event → Option ℕ
  | .call t => some t
  | .forward t _ _ => some t
  | .reject t _ _ => some t
  | .lock t _ => some t
  | .refuse t _ _ => some t
  | .accept t _ => some t
  | .peer t _ _ _ => some t
  | .join t _ => some t
  | .log t _ => some t
  | .apply t _ => some t
  | .reply t _ _ => some t
  | .query _ => none
  | .look _ => none
  | .read _ => none

/-- The `Get` whose step an event is. -/
def readerOf : Event → Option ℕ
  | .query g => some g
  | .look g => some g
  | .read g => some g
  | _ => none

/-- A client sends a request. -/
def begins : Event → Bool
  | .call _ => true
  | .query _ => true
  | _ => false

/-- The `Get` has been sent and not been answered. -/
def Asking : Ask → Prop
  | .idle => False
  | .asked => True
  | .reading => True
  | .answered _ _ => False

/-- The servers can make a step. -/
def Enabled (p : Partition) (load : Load) (s : Sys) : Prop :=
  ∃ e s', begins e = false ∧ s.step p load e = some s'

section Invariant

variable (a : AgreedPartition) (load : Load) (tablets : ℕ → Tablet)

/-- Beside the invariant of the row order: who reads, and where requests are. -/
structure Alive (s : Sys) : Prop where
  inv : Inv a load tablets s
  reading : ∀ j g, (s.node j).reading g = true → s.ask g = .reading ∧ load.queryAt g = j
  looking : ∀ g, s.ask g = .reading → (s.node (load.queryAt g)).reading g = true
  asked : ∀ g, Asking (s.ask g) → load.queryAt g < a.partition.nodes.length
  arrived : ∀ t i, s.stage t = .arrived i → i < a.partition.nodes.length
  peers : ∀ j t, j ≠ a.pm → (s.node j).handler t ≠ .withdrawn

theorem start_alive : Alive a load tablets (start tablets) where
  inv := start_inv a load tablets
  reading := by
    intro j g h
    cases h
  looking := by
    intro g h
    cases h
  asked := fun _ h ↦ h.elim
  arrived := by
    intro t i h
    cases h
  peers := by
    intro j t _ h
    cases h

variable {a load tablets} {s s' : Sys} {σ τ : Store} {act : Action}

theorem acted_reading (hact : Acted load σ act τ) {g : ℕ} (h : τ.reading g = true) :
    act = .look g ∨ σ.reading g = true ∧ act ≠ .unlook g := by
  cases hact with
  | enter => exact .inr ⟨h, NodeActions.Action.noConfusion⟩
  | withdraw => exact .inr ⟨h, NodeActions.Action.noConfusion⟩
  | append => exact .inr ⟨h, NodeActions.Action.noConfusion⟩
  | conduct => exact .inr ⟨h, NodeActions.Action.noConfusion⟩
  | leave => exact .inr ⟨h, NodeActions.Action.noConfusion⟩
  | look f =>
    by_cases hg : g = f
    · exact .inl (congrArg _ hg.symm)
    · dsimp only at h
      rw [Function.update_of_ne hg] at h
      exact .inr ⟨h, NodeActions.Action.noConfusion⟩
  | unlook f =>
    by_cases hg : g = f
    · dsimp only at h
      rw [hg, Function.update_self] at h
      cases h
    · dsimp only at h
      rw [Function.update_of_ne hg] at h
      exact .inr ⟨h, fun heq ↦ hg (Action.unlook.inj heq).symm⟩

theorem acted_still_reading (hact : Acted load σ act τ) {g : ℕ} (hne : act ≠ .unlook g)
    (h : σ.reading g = true) : τ.reading g = true := by
  cases hact with
  | enter => exact h
  | withdraw => exact h
  | append => exact h
  | conduct => exact h
  | leave => exact h
  | look f =>
    by_cases hg : g = f
    · rw [hg]
      exact Function.update_self f true σ.reading
    · exact (Function.update_of_ne hg true σ.reading).trans h
  | unlook f =>
    have hg : g ≠ f := fun heq ↦ hne (congrArg _ heq.symm)
    exact (Function.update_of_ne hg false σ.reading).trans h

/-- Only a refused request withdraws. -/
theorem acted_withdrawn (hact : Acted load σ act τ) {t : ℕ} (h : τ.handler t = .withdrawn) :
    act = .withdraw t ∨ σ.handler t = .withdrawn := by
  have hother : ∀ {u : ℕ} {handler : Handler}, handler ≠ .withdrawn →
      Function.update σ.handler u handler t = .withdrawn → σ.handler t = .withdrawn := by
    intro u handler hne hupdate
    by_cases htu : t = u
    · rw [htu, Function.update_self] at hupdate
      exact absurd hupdate hne
    · rwa [Function.update_of_ne htu] at hupdate
  cases hact with
  | enter => exact .inr (hother (by decide) h)
  | append => exact .inr (hother (by decide) h)
  | conduct => exact .inr (hother (by decide) h)
  | leave => exact .inr (hother (by decide) h)
  | look => exact .inr h
  | unlook => exact .inr h
  | withdraw u =>
    by_cases htu : t = u
    · exact .inl (congrArg _ htu.symm)
    · dsimp only at h
      rw [Function.update_of_ne htu] at h
      exact .inr h

/-- A request arrives at nodes of the partition only. -/
theorem arrived_step {p : Partition} (h : ∀ t i, s.stage t = .arrived i → i < p.nodes.length)
    {e : Event} (hstep : s.step p load e = some s') (t i : ℕ) (hstage : s'.stage t = .arrived i) :
    i < p.nodes.length := by
  have hstay : ∀ {u : ℕ} {stage : Stage}, (∀ j, stage ≠ .arrived j) →
      Function.update s.stage u stage t = .arrived i → i < p.nodes.length := by
    intro u stage hne hupdate
    by_cases htu : t = u
    · rw [htu, Function.update_self] at hupdate
      exact absurd hupdate (hne i)
    · rw [Function.update_of_ne htu] at hupdate
      exact h t i hupdate
  have harrive : ∀ {u j : ℕ}, j < p.nodes.length →
      Function.update s.stage u (.arrived j) t = .arrived i → i < p.nodes.length := by
    intro u j hj hupdate
    by_cases htu : t = u
    · rw [htu, Function.update_self] at hupdate
      exact Stage.arrived.inj hupdate ▸ hj
    · rw [Function.update_of_ne htu] at hupdate
      exact h t i hupdate
  have hput : ∀ {o : Option Store} {j u : ℕ} {stage : Stage}, (∀ k, stage ≠ .arrived k) →
      o.map (s.put j u stage) = some s' → i < p.nodes.length := by
    intro o j u stage hne hmap
    obtain ⟨σ, -, rfl⟩ := Option.map_eq_some_iff.mp hmap
    exact hstay hne hstage
  have hputAsk : ∀ {o : Option Store} {j g : ℕ} {ask : Ask},
      o.map (s.putAsk j g ask) = some s' → i < p.nodes.length := by
    intro o j g ask hmap
    obtain ⟨σ, -, rfl⟩ := Option.map_eq_some_iff.mp hmap
    exact h t i hstage
  cases e with
  | call u =>
    obtain ⟨⟨-, hentry⟩, heq⟩ := Option.ite_none_right_eq_some.mp hstep
    cases heq
    exact harrive hentry hstage
  | forward u k j =>
    obtain ⟨⟨-, hforward⟩, heq⟩ := Option.ite_none_right_eq_some.mp hstep
    cases heq
    refine harrive ?_ hstage
    unfold forwardTo at hforward
    split at hforward
    · obtain ⟨addr, -, hfind⟩ := Option.bind_eq_some_iff.mp hforward
      exact (List.findIdx?_eq_some_iff_getElem.mp hfind).1
    · cases hforward
  | reject u k status =>
    obtain ⟨-, heq⟩ := Option.ite_none_right_eq_some.mp hstep
    cases heq
    exact hstay (fun _ ↦ Stage.noConfusion) hstage
  | accept u k =>
    obtain ⟨-, heq⟩ := Option.ite_none_right_eq_some.mp hstep
    cases heq
    exact hstay (fun _ ↦ Stage.noConfusion) hstage
  | join u k =>
    obtain ⟨-, heq⟩ := Option.ite_none_right_eq_some.mp hstep
    cases heq
    exact hstay (fun _ ↦ Stage.noConfusion) hstage
  | lock u k => exact hput (fun _ ↦ Stage.noConfusion) (Option.ite_none_right_eq_some.mp hstep).2
  | refuse u k status =>
    exact hput (fun _ ↦ Stage.noConfusion) (Option.ite_none_right_eq_some.mp hstep).2
  | peer u k j move =>
    exact hput (fun _ ↦ Stage.noConfusion) (Option.ite_none_right_eq_some.mp hstep).2
  | log u k => exact hput (fun _ ↦ Stage.noConfusion) (Option.ite_none_right_eq_some.mp hstep).2
  | apply u k => exact hput (fun _ ↦ Stage.noConfusion) (Option.ite_none_right_eq_some.mp hstep).2
  | reply u k r => exact hput (fun _ ↦ Stage.noConfusion) (Option.ite_none_right_eq_some.mp hstep).2
  | query g =>
    obtain ⟨-, heq⟩ := Option.ite_none_right_eq_some.mp hstep
    cases heq
    exact h t i hstage
  | look g => exact hputAsk (Option.ite_none_right_eq_some.mp hstep).2
  | read g =>
    simp only [Sys.step] at hstep
    split at hstep
    · exact hputAsk (Option.ite_none_right_eq_some.mp hstep).2
    · cases hstep

/-- What a step at one node leaves of the readers. -/
theorem Alive.reading_put (h : Alive a load tablets s) {k : ℕ} (hact : Acted load (s.node k) act σ)
    (hlook : ∀ g, act ≠ .look g) {j g : ℕ}
    (hreading : (Function.update s.node k σ j).reading g = true) :
    (s.ask g = .reading ∧ load.queryAt g = j) ∧ (j = k → act ≠ .unlook g) := by
  by_cases hj : j = k
  · subst hj
    rw [Function.update_self] at hreading
    rcases acted_reading hact hreading with hact' | ⟨hold, hne⟩
    · exact absurd hact' (hlook g)
    · exact ⟨h.reading j g hold, fun _ ↦ hne⟩
  · rw [Function.update_of_ne hj] at hreading
    exact ⟨h.reading j g hreading, fun heq ↦ absurd heq hj⟩

theorem Alive.looking_put (h : Alive a load tablets s) {k : ℕ} (hact : Acted load (s.node k) act σ)
    {g : ℕ} (hne : act ≠ .unlook g) (hask : s.ask g = .reading) :
    (Function.update s.node k σ (load.queryAt g)).reading g = true := by
  have hold := h.looking g hask
  by_cases hk : load.queryAt g = k
  · rw [hk] at hold ⊢
    rw [Function.update_self]
    exact acted_still_reading hact hne hold
  · rwa [Function.update_of_ne hk]

theorem Alive.peers_put (h : Alive a load tablets s) {k : ℕ} (hact : Acted load (s.node k) act σ)
    (hwithdraw : ∀ t, act = .withdraw t → k = a.pm) (j t : ℕ) (hj : j ≠ a.pm) :
    (Function.update s.node k σ j).handler t ≠ .withdrawn := by
  intro hwithdrawn
  by_cases hjk : j = k
  · subst hjk
    rw [Function.update_self] at hwithdrawn
    rcases acted_withdrawn hact hwithdrawn with hact' | hold
    · exact hj (hwithdraw t hact')
    · exact h.peers j t hj hold
  · rw [Function.update_of_ne hjk] at hwithdrawn
    exact h.peers j t hj hwithdrawn

theorem Alive.step (h : Alive a load tablets s) {e : Event}
    (hstep : s.step a.partition load e = some s') : Alive a load tablets s' := by
  have hhappened := happened_of_step a.partition load hstep
  have hinv := h.inv.step hhappened
  have harrived := arrived_step h.arrived hstep
  have hput : ∀ {k t : ℕ} {stage : Stage} {σ : Store} {act : Action},
      Acted load (s.node k) act σ → (∀ g, act ≠ .look g ∧ act ≠ .unlook g) →
      (∀ t, act = .withdraw t → k = a.pm) →
      Inv a load tablets (s.put k t stage σ) →
      (∀ t' i, (s.put k t stage σ).stage t' = .arrived i → i < a.partition.nodes.length) →
      Alive a load tablets (s.put k t stage σ) :=
    fun hact hlook hwithdraw hinv harrived ↦
      { inv := hinv
        reading := fun j g hreading ↦ (h.reading_put hact (fun g ↦ (hlook g).1) hreading).1
        looking := fun g hask ↦ h.looking_put hact (hlook g).2 hask
        asked := h.asked
        arrived := harrived
        peers := h.peers_put hact hwithdraw }
  have hstage : ∀ {t : ℕ} {stage : Stage}, Inv a load tablets (s.toStage t stage) →
      (∀ t' i, (s.toStage t stage).stage t' = .arrived i → i < a.partition.nodes.length) →
      Alive a load tablets (s.toStage t stage) :=
    fun hinv harrived ↦
      { inv := hinv
        reading := h.reading
        looking := h.looking
        asked := h.asked
        arrived := harrived
        peers := h.peers }
  have hasked : ∀ {g : ℕ} {ask : Ask}, (Asking ask → Asking (s.ask g)) →
      ∀ f, Asking (Function.update s.ask g ask f) → load.queryAt f < a.partition.nodes.length := by
    intro g ask hold f hf
    by_cases hfg : f = g
    · subst hfg
      rw [Function.update_self] at hf
      exact h.asked f (hold hf)
    · rw [Function.update_of_ne hfg] at hf
      exact h.asked f hf
  cases hhappened with
  | call t hold => exact hstage hinv harrived
  | forward t i j hold => exact hstage hinv harrived
  | reject t i status hold => exact hstage hinv harrived
  | accept t i hold => exact hstage hinv harrived
  | join t i hold hall => exact hstage hinv harrived
  | lock t i σ hold hroute hact =>
    exact hput hact (fun _ ↦ ⟨NodeActions.Action.noConfusion, NodeActions.Action.noConfusion⟩)
      (fun _ ↦ NodeActions.Action.noConfusion) hinv harrived
  | refuse t i status σ hold hact =>
    have hplaced := h.inv.placed t
    rw [hold] at hplaced
    exact hput hact (fun _ ↦ ⟨NodeActions.Action.noConfusion, NodeActions.Action.noConfusion⟩)
      (fun _ _ ↦ hplaced.1) hinv harrived
  | peer t i j move σ hold hpeer hact =>
    refine hput hact (fun g ↦ ?_) (fun u ↦ ?_) hinv harrived
    · cases move <;> exact ⟨NodeActions.Action.noConfusion, NodeActions.Action.noConfusion⟩
    · cases move <;> exact NodeActions.Action.noConfusion
  | log t i σ hold hact =>
    exact hput hact (fun _ ↦ ⟨NodeActions.Action.noConfusion, NodeActions.Action.noConfusion⟩)
      (fun _ ↦ NodeActions.Action.noConfusion) hinv harrived
  | apply t i reply σ hold hact =>
    exact hput hact (fun _ ↦ ⟨NodeActions.Action.noConfusion, NodeActions.Action.noConfusion⟩)
      (fun _ ↦ NodeActions.Action.noConfusion) hinv harrived
  | reply t i reply σ hold hact =>
    exact hput hact (fun _ ↦ ⟨NodeActions.Action.noConfusion, NodeActions.Action.noConfusion⟩)
      (fun _ ↦ NodeActions.Action.noConfusion) hinv harrived
  | query g hold hentry =>
    refine ⟨hinv, fun j f hreading ↦ ?_, fun f hread ↦ ?_, fun f hf ↦ ?_, harrived, h.peers⟩
    · obtain ⟨hask, hat⟩ := h.reading j f hreading
      have hne : f ≠ g := by
        rintro rfl
        rw [hold] at hask
        cases hask
      exact ⟨(Function.update_of_ne hne _ _).trans hask, hat⟩
    · by_cases hfg : f = g
      · have hnow : (s.toAsk g .asked).ask f = .asked := by
          rw [hfg]
          exact Function.update_self g Ask.asked s.ask
        rw [hnow] at hread
        cases hread
      · exact h.looking f (Function.update_of_ne hfg Ask.asked s.ask ▸ hread)
    · by_cases hfg : f = g
      · rw [hfg]
        exact hentry
      · exact h.asked f (Function.update_of_ne hfg Ask.asked s.ask ▸ hf)
  | look g σ hold hact =>
    refine ⟨hinv, fun j f hreading ↦ ?_, fun f hread ↦ ?_,
      hasked fun _ ↦ by rw [hold]; exact trivial, harrived,
      h.peers_put hact fun _ ↦ NodeActions.Action.noConfusion⟩
    · dsimp only [Sys.putAsk] at hreading ⊢
      by_cases hj : j = load.queryAt g
      · subst hj
        rw [Function.update_self] at hreading
        rcases acted_reading hact hreading with heq | ⟨hread, -⟩
        · obtain rfl := Action.look.inj heq
          exact ⟨Function.update_self _ _ _, rfl⟩
        · obtain ⟨hask, hat⟩ := h.reading _ f hread
          have hne : f ≠ g := by
            rintro rfl
            rw [hold] at hask
            cases hask
          exact ⟨(Function.update_of_ne hne _ _).trans hask, hat⟩
      · rw [Function.update_of_ne hj] at hreading
        obtain ⟨hask, hat⟩ := h.reading j f hreading
        have hne : f ≠ g := by
          rintro rfl
          exact hj hat.symm
        exact ⟨(Function.update_of_ne hne _ _).trans hask, hat⟩
    · by_cases hfg : f = g
      · subst hfg
        dsimp only [Sys.putAsk]
        rw [Function.update_self]
        cases hact with
        | look => exact Function.update_self f true (s.node (load.queryAt f)).reading
      · exact h.looking_put hact NodeActions.Action.noConfusion
          (Function.update_of_ne hfg Ask.reading s.ask ▸ hread)
  | read g view node σ hold hview hnode htablet hact =>
    refine ⟨hinv, fun j f hreading ↦ ?_, fun f hread ↦ ?_, hasked fun hf ↦ hf.elim, harrived,
      h.peers_put hact fun _ ↦ NodeActions.Action.noConfusion⟩
    · obtain ⟨⟨hask, hat⟩, hunlook⟩ := h.reading_put hact (fun _ ↦ NodeActions.Action.noConfusion) hreading
      have hne : f ≠ g := by
        rintro rfl
        exact hunlook hat.symm rfl
      exact ⟨(Function.update_of_ne hne _ _).trans hask, hat⟩
    · dsimp only [Sys.putAsk] at hread
      by_cases hfg : f = g
      · subst hfg
        rw [Function.update_self] at hread
        cases hread
      · rw [Function.update_of_ne hfg] at hread
        exact h.looking_put hact (fun heq ↦ hfg (Action.unlook.inj heq).symm) hread

end Invariant

/-! ## Somebody can go on -/

section Enabled

variable {a : AgreedPartition} {load : Load} {tablets : ℕ → Tablet} {s : Sys}

/-- A node steps for a request. -/
theorem enabled_of_act {e : Event} {σ : Option Store} {f : Store → Sys} (hbegins : begins e = false)
    (hstep : s.step a.partition load e = σ.map f) (hact : σ.isSome) :
    Enabled a.partition load s := by
  obtain ⟨τ, hτ⟩ := Option.isSome_iff_exists.mp hact
  exact ⟨e, f τ, hbegins, by rw [hstep, hτ, Option.map_some]⟩

/-- A `Get` that is inside of the row lock. -/
theorem Alive.enabled_reader (h : Alive a load tablets s) {j g : ℕ}
    (hreading : (s.node j).reading g = true) : Enabled a.partition load s := by
  obtain ⟨hask, rfl⟩ := h.reading j g hreading
  have hlt := h.asked g (by rw [hask]; exact trivial)
  have hstep : (s.step a.partition load (.read g)).isSome := by
    simp only [Sys.step, List.getElem?_eq_getElem hlt, if_pos hask, Store.act, if_pos hreading,
      Option.map_some, Option.isSome_some]
  obtain ⟨s', hs'⟩ := Option.isSome_iff_exists.mp hstep
  exact ⟨.read g, s', rfl, hs'⟩

theorem Alive.enabled_locked (h : Alive a load tablets s)
    (hload : ∀ t prq, load.request t = .cPut prq → prq.v1 ≠ []) {t i : ℕ}
    (hstage : s.stage t = .locked i) : Enabled a.partition load s := by
  have hplaced := h.inv.placed t
  rw [hstage] at hplaced
  obtain ⟨rfl, hlocked, -⟩ := hplaced
  have hlocked' : (s.node a.pm).handler t = .locked := hlocked
  cases hverdict : verdict (load.request t) (s.node a.pm).tablet with
  | accept =>
    refine ⟨.accept t a.pm, s.toStage t (.multicast a.pm), rfl, ?_⟩
    rw [Sys.step, if_pos ⟨hstage, hverdict⟩]
  | refuse status =>
    refine enabled_of_act (e := .refuse t a.pm status) rfl (if_pos ⟨hstage, hverdict⟩) ?_
    rw [Store.act, if_pos hlocked', Option.isSome_some]
  | abort =>
    cases hreq : load.request t with
    | put prq =>
      rw [hreq] at hverdict
      cases hverdict
    | delete prq =>
      rw [hreq] at hverdict
      cases hverdict
    | cPut prq =>
      rw [hreq, verdict] at hverdict
      cases hcell : cells (s.node a.pm).tablet (prq.row, prq.col) with
      | some value =>
        rw [cPutCheck_of_some hcell] at hverdict
        split at hverdict
        · cases hverdict
        · cases hverdict
      | none =>
        have hnone := cPutCheck_of_none hcell prq.v1
        rw [if_neg (hload t prq hreq), hverdict] at hnone
        obtain ⟨message, hmessage⟩ := hnone
        cases hmessage

theorem Alive.enabled_joined (h : Alive a load tablets s) {t i : ℕ}
    (hstage : s.stage t = .joined i) : Enabled a.partition load s := by
  have hplaced := h.inv.placed t
  rw [hstage] at hplaced
  obtain ⟨rfl, hlocked | hlogged, -⟩ := hplaced
  · have hlocked' : (s.node a.pm).handler t = .locked := hlocked
    refine enabled_of_act (e := .log t a.pm) rfl (if_pos hstage) ?_
    rw [Store.act, if_pos hlocked', Option.isSome_some]
  · have hlogged' : (s.node a.pm).handler t = .logged := hlogged
    refine enabled_of_act (e := .apply t a.pm) rfl (if_pos hstage) ?_
    rw [Store.act, if_pos hlogged', Option.isSome_some]

theorem Alive.enabled_applied (h : Alive a load tablets s) {t i : ℕ} {reply : Reply}
    (hstage : s.stage t = .applied i reply) : Enabled a.partition load s := by
  have hplaced := h.inv.placed t
  rw [hstage] at hplaced
  obtain ⟨rfl, happlied, -⟩ := hplaced
  have happlied' : (s.node a.pm).handler t = .applied := happlied
  refine enabled_of_act (e := .reply t a.pm reply) rfl (if_pos hstage) ?_
  rw [Store.act, if_pos happlied', Option.isSome_some]

/-- A handler of `PPut` or `PDelete` inside of the row lock. -/
theorem enabled_peer {t i j : ℕ} (hstage : s.stage t = .multicast i)
    (hpeer : j ∈ peersOf a.partition i) (hinside : ((s.node j).handler t).Inside) :
    Enabled a.partition load s := by
  have hstep : ∀ move : PeerStep, s.step a.partition load (.peer t i j move) =
      ((s.node j).act load (move.action t)).map (s.put j t (.multicast i)) := by
    intro move
    rw [Sys.step, if_pos ⟨hstage, hpeer⟩]
  rcases hinside with hlocked | hlogged | happlied
  · refine enabled_of_act rfl (hstep .append) ?_
    rw [PeerStep.action, Store.act, if_pos hlocked, Option.isSome_some]
  · refine enabled_of_act rfl (hstep .conduct) ?_
    rw [PeerStep.action, Store.act, if_pos hlogged, Option.isSome_some]
  · refine enabled_of_act rfl (hstep .leave) ?_
    rw [PeerStep.action, Store.act, if_pos happlied, Option.isSome_some]

/-- Whoever holds a row lock of a peer can go on. -/
theorem Alive.enabled_held_peer (h : Alive a load tablets s) {j : ℕ} {row : Bytes} {o : Owner}
    (hlt : j < a.partition.nodes.length) (hj : j ≠ a.pm) (hheld : (s.node j).lkR row = some o) :
    Enabled a.partition load s := by
  have hinside := ((h.inv.node j).guards row o).mp hheld
  cases o with
  | reader g => exact h.enabled_reader hinside.1
  | writer u =>
    have hin : ((s.node j).handler u).Inside := hinside.1
    have hplaced := h.inv.placed u
    have hnot : ∀ {handler : Handler}, (s.node j).handler u = handler → ¬handler.Inside →
        Enabled a.partition load s :=
      fun heq hne ↦ absurd (heq ▸ hin) hne
    have houtside : ¬Handler.outside.Inside := by simp [Handler.Inside]
    have hleft : ¬Handler.left.Inside := by simp [Handler.Inside]
    cases hstage : s.stage u with
    | idle =>
      rw [hstage] at hplaced
      exact hnot (hplaced j) houtside
    | arrived i =>
      rw [hstage] at hplaced
      exact hnot (hplaced j) houtside
    | locked i =>
      rw [hstage] at hplaced
      exact hnot (hplaced.2.2 j hj) houtside
    | multicast i =>
      rw [hstage] at hplaced
      obtain ⟨rfl, -⟩ := hplaced
      exact enabled_peer hstage ((a.mem_peersOf_pm j).mpr ⟨hlt, hj⟩) hin
    | joined i =>
      rw [hstage] at hplaced
      exact hnot (hplaced.2.2 j hlt hj) hleft
    | applied i reply =>
      rw [hstage] at hplaced
      exact hnot (hplaced.2.2 j hlt hj) hleft
    | replied reply =>
      rw [hstage] at hplaced
      exact hnot (hplaced j hlt) hleft
    | refused status =>
      rw [hstage] at hplaced
      exact absurd hin (hplaced j)

theorem Alive.enabled_multicast (h : Alive a load tablets s) {t i : ℕ}
    (hstage : s.stage t = .multicast i) : Enabled a.partition load s := by
  have hplaced := h.inv.placed t
  rw [hstage] at hplaced
  obtain ⟨rfl, -⟩ := hplaced
  by_cases hall : ∀ j ∈ peersOf a.partition a.pm, (s.node j).handler t = .left
  · refine ⟨.join t a.pm, s.toStage t (.joined a.pm), rfl, ?_⟩
    rw [Sys.step, if_pos ⟨hstage, hall⟩]
  · simp only [not_forall] at hall
    obtain ⟨j, hpeer, hnotLeft⟩ := hall
    obtain ⟨hlt, hj⟩ := (a.mem_peersOf_pm j).mp hpeer
    cases hhandler : (s.node j).handler t with
    | outside =>
      cases hlock : (s.node j).lkR (load.row t) with
      | some o => exact h.enabled_held_peer hlt hj hlock
      | none =>
        refine enabled_of_act (e := .peer t a.pm j .enter) rfl (if_pos ⟨hstage, hpeer⟩) ?_
        rw [PeerStep.action, Store.act, if_pos ⟨hhandler, hlock⟩, Option.isSome_some]
    | locked => exact enabled_peer hstage hpeer (.inl hhandler)
    | logged => exact enabled_peer hstage hpeer (.inr (.inl hhandler))
    | applied => exact enabled_peer hstage hpeer (.inr (.inr hhandler))
    | left => exact absurd hhandler hnotLeft
    | withdrawn => exact absurd hhandler (h.peers j t hj)

/-- Whoever holds a row lock of the primary can go on. -/
theorem Alive.enabled_held_pm (h : Alive a load tablets s)
    (hload : ∀ t prq, load.request t = .cPut prq → prq.v1 ≠ []) {row : Bytes} {o : Owner}
    (hheld : (s.node a.pm).lkR row = some o) : Enabled a.partition load s := by
  have hinside := ((h.inv.node a.pm).guards row o).mp hheld
  cases o with
  | reader g => exact h.enabled_reader hinside.1
  | writer u =>
    have hin : ((s.node a.pm).handler u).Inside := hinside.1
    have hplaced := h.inv.placed u
    cases hstage : s.stage u with
    | idle =>
      rw [hstage] at hplaced
      have houtside : (s.node a.pm).handler u = .outside := hplaced a.pm
      simp [houtside, Handler.Inside] at hin
    | arrived i =>
      rw [hstage] at hplaced
      have houtside : (s.node a.pm).handler u = .outside := hplaced a.pm
      simp [houtside, Handler.Inside] at hin
    | locked i => exact h.enabled_locked hload hstage
    | multicast i => exact h.enabled_multicast hstage
    | joined i => exact h.enabled_joined hstage
    | applied i reply => exact h.enabled_applied hstage
    | replied reply =>
      rw [hstage] at hplaced
      have hleft : (s.node a.pm).handler u = .left := hplaced a.pm a.pm_lt
      simp [hleft, Handler.Inside] at hin
    | refused status =>
      rw [hstage] at hplaced
      exact absurd hin (hplaced a.pm)

/-- Only the other nodes forward, and to the primary. -/
theorem forwardTo_of_route {i : ℕ} {req : WriteRequest} {view : NodeView} {peer : ℤ}
    {routed : NodeView} (hview : a.partition.nodes[i]? = some view)
    (hrouted : routedAt a.partition i req = some (routed, .forward peer)) :
    i ≠ a.pm ∧ forwardTo a.partition i req = some a.pm := by
  have hroute : req.route view (some (primaryResponse a.partition.master).addr) =
      (routed, .forward peer) := by
    rw [routedAt, hview, Option.map_some] at hrouted
    exact Option.some.inj hrouted
  have hcases := req.route_routed view (primaryResponse a.partition.master).addr
  rw [hroute] at hcases
  obtain ⟨hserving, hsame, hknown, hother⟩ := hcases.of_forward rfl
  dsimp only at hsame hknown hother
  have hne : i ≠ a.pm := by
    rintro rfl
    have hprimary := a.primary
    rw [believesSelf, hview] at hprimary
    have hself : view.primaryIdx = mStatus := of_decide_eq_true hprimary
    have hknown' : view.primaryIdx ≠ ukStatus := by
      rw [hself]
      decide
    rw [hsame, refreshView_eq, if_neg hknown'] at hother
    exact hother hself
  refine ⟨hne, ?_⟩
  have hhop := a.agreed i (List.getElem?_eq_some_iff.mp hview).1 hne
  obtain ⟨view', addr, hget, hpoints, -⟩ := nextHop_eq_some a.configured hhop
  obtain rfl : view = view' := Option.some.inj (hview.symm.trans hget)
  obtain ⟨hself, hidx⟩ := pointsTo_ne hpoints
  rw [nextHop, hview, Option.bind_some, forwardAddr, if_pos ⟨hserving, hidx, hself⟩] at hhop
  rw [forwardTo, hrouted, hsame, refreshView_eq, if_neg hidx]
  exact hhop

/-- A request that has arrived is rejected, forwarded to the primary, or waits for its row lock. -/
theorem Alive.enabled_arrived (h : Alive a load tablets s)
    (hload : ∀ t prq, load.request t = .cPut prq → prq.v1 ≠ []) {t i : ℕ}
    (hstage : s.stage t = .arrived i) : Enabled a.partition load s := by
  have hlt := h.arrived t i hstage
  have hview := List.getElem?_eq_getElem hlt
  have hrouted : routedAt a.partition i (load.request t) =
      some ((load.request t).route a.partition.nodes[i]
        (some (primaryResponse a.partition.master).addr)) := by
    rw [routedAt, hview, Option.map_some]
  have hcases := (load.request t).route_routed a.partition.nodes[i]
    (primaryResponse a.partition.master).addr
  generalize hroute : (load.request t).route a.partition.nodes[i]
    (some (primaryResponse a.partition.master).addr) = routed at hcases hrouted
  have hreject : ∀ status, routed.2 = .reply status → Enabled a.partition load s := by
    intro status hstatus
    refine ⟨.reject t i status, s.toStage t (.refused status), rfl, if_pos ⟨hstage, ?_⟩⟩
    rw [hrouted, Option.map_some, hstatus]
  cases hcases with
  | rejected status hcode => exact hreject status rfl
  | unknown status hcode => exact hreject status rfl
  | primary hserving hself =>
    have hprimary : (routedAt a.partition i (load.request t)).map Prod.snd = some .primary := by
      rw [hrouted, Option.map_some]
    obtain rfl := a.eq_pm hprimary
    by_cases hout : (s.node a.pm).handler t = .outside
    · cases hlock : (s.node a.pm).lkR (load.row t) with
      | some o => exact h.enabled_held_pm hload hlock
      | none =>
        refine enabled_of_act (e := .lock t a.pm) rfl (if_pos ⟨hstage, hprimary⟩) ?_
        rw [Store.act, if_pos ⟨hout, hlock⟩, Option.isSome_some]
    · have hplaced := h.inv.placed t
      rw [hstage] at hplaced
      exact absurd (hplaced a.pm) hout
  | forward hserving hknown hother =>
    obtain ⟨-, hforward⟩ := forwardTo_of_route hview hrouted
    exact ⟨.forward t i a.pm, s.toStage t (.arrived a.pm), rfl, if_pos ⟨hstage, hforward⟩⟩

theorem Alive.enabled_asked (h : Alive a load tablets s)
    (hload : ∀ t prq, load.request t = .cPut prq → prq.v1 ≠ []) {g : ℕ}
    (hask : s.ask g = .asked) : Enabled a.partition load s := by
  have hlt := h.asked g (by rw [hask]; exact trivial)
  cases hlock : (s.node (load.queryAt g)).lkR (load.query g).row with
  | some o =>
    by_cases hpm : load.queryAt g = a.pm
    · rw [hpm] at hlock
      exact h.enabled_held_pm hload hlock
    · exact h.enabled_held_peer hlt hpm hlock
  | none =>
    cases hreading : (s.node (load.queryAt g)).reading g with
    | true => exact h.enabled_reader hreading
    | false =>
      refine enabled_of_act (e := .look g) rfl (if_pos hask) ?_
      rw [Store.act, if_pos ⟨hreading, hlock⟩, Option.isSome_some]

/-- No deadlock. -/
theorem Alive.enabled (h : Alive a load tablets s)
    (hload : ∀ t prq, load.request t = .cPut prq → prq.v1 ≠ [])
    (hwaiting : (∃ t, InFlight (s.stage t)) ∨ ∃ g, Asking (s.ask g)) :
    Enabled a.partition load s := by
  rcases hwaiting with ⟨t, hflight⟩ | ⟨g, hasking⟩
  · cases hstage : s.stage t with
    | idle =>
      rw [hstage] at hflight
      exact hflight.elim
    | arrived i => exact h.enabled_arrived hload hstage
    | locked i => exact h.enabled_locked hload hstage
    | multicast i => exact h.enabled_multicast hstage
    | joined i => exact h.enabled_joined hstage
    | applied i reply => exact h.enabled_applied hstage
    | replied reply =>
      rw [hstage] at hflight
      exact hflight.elim
    | refused status =>
      rw [hstage] at hflight
      exact hflight.elim
  · cases hask : s.ask g with
    | idle =>
      rw [hask] at hasking
      exact hasking.elim
    | asked => exact h.enabled_asked hload hask
    | reading => exact h.enabled_reader (h.looking g hask)
    | answered reply seen =>
      rw [hask] at hasking
      exact hasking.elim

end Enabled

/-! ## Every step counts -/

/-- The steps that are left to a handler of a peer. -/
def stepsLeft : Handler → ℕ
  | .outside => 4
  | .locked => 3
  | .logged => 2
  | .applied => 1
  | .left => 0
  | .withdrawn => 0

/-- The steps that are left to a request at most. -/
def rankOf (a : AgreedPartition) (handler : ℕ → Handler) : Stage → ℕ
  | .idle => 4 * (peersOf a.partition a.pm).length + 8
  | .arrived i => 4 * (peersOf a.partition a.pm).length + if i = a.pm then 6 else 7
  | .locked _ => 4 * (peersOf a.partition a.pm).length + 5
  | .multicast _ => ((peersOf a.partition a.pm).map fun j ↦ stepsLeft (handler j)).sum + 4
  | .joined _ => if handler a.pm = .locked then 3 else 2
  | .applied _ _ => 1
  | .replied _ => 0
  | .refused _ => 0

def rank (a : AgreedPartition) (t : ℕ) (s : Sys) : ℕ := rankOf a (s.handlers t) (s.stage t)

def rankAsk : Ask → ℕ
  | .idle => 3
  | .asked => 2
  | .reading => 1
  | .answered _ _ => 0

section Rank

variable {a : AgreedPartition} {load : Load} {tablets : ℕ → Tablet} {s s' : Sys} {e : Event}

/-- Events of other requests. -/
theorem step_frame (hstep : s.step a.partition load e = some s') {t : ℕ}
    (hother : writerOf e ≠ some t) : s'.stage t = s.stage t ∧ s'.handlers t = s.handlers t := by
  have htoStage : ∀ {u : ℕ} {stage : Stage}, some u ≠ some t →
      (s.toStage u stage).stage t = s.stage t ∧ (s.toStage u stage).handlers t = s.handlers t :=
    fun hu ↦ ⟨toStage_stage_of_ne s (fun heq ↦ hu (congrArg some heq.symm)) _, rfl⟩
  have hput : ∀ {u k : ℕ} {stage : Stage} {act : Action}, some u ≠ some t → act.writer = some u →
      ((s.node k).act load act).map (s.put k u stage) = some s' →
      s'.stage t = s.stage t ∧ s'.handlers t = s.handlers t := by
    intro u k stage act hu hwriter hmap
    obtain ⟨σ, hact, rfl⟩ := Option.map_eq_some_iff.mp hmap
    refine ⟨put_stage_of_ne s k (fun heq ↦ hu (congrArg some heq.symm)) _ _, ?_⟩
    exact handlers_other (acted_of_act load hact) (hwriter ▸ hu)
  have hputAsk : ∀ {g k : ℕ} {ask : Ask} {act : Action}, act.writer = none →
      ((s.node k).act load act).map (s.putAsk k g ask) = some s' →
      s'.stage t = s.stage t ∧ s'.handlers t = s.handlers t := by
    intro g k ask act hwriter hmap
    obtain ⟨σ, hact, rfl⟩ := Option.map_eq_some_iff.mp hmap
    exact ⟨rfl, handlers_other (acted_of_act load hact) (by simp [hwriter])⟩
  cases e with
  | call u =>
    obtain ⟨-, heq⟩ := Option.ite_none_right_eq_some.mp hstep
    cases heq
    exact htoStage hother
  | forward u k j =>
    obtain ⟨-, heq⟩ := Option.ite_none_right_eq_some.mp hstep
    cases heq
    exact htoStage hother
  | reject u k status =>
    obtain ⟨-, heq⟩ := Option.ite_none_right_eq_some.mp hstep
    cases heq
    exact htoStage hother
  | accept u k =>
    obtain ⟨-, heq⟩ := Option.ite_none_right_eq_some.mp hstep
    cases heq
    exact htoStage hother
  | join u k =>
    obtain ⟨-, heq⟩ := Option.ite_none_right_eq_some.mp hstep
    cases heq
    exact htoStage hother
  | lock u k => exact hput hother rfl (Option.ite_none_right_eq_some.mp hstep).2
  | refuse u k status => exact hput hother rfl (Option.ite_none_right_eq_some.mp hstep).2
  | peer u k j move =>
    exact hput hother (move.writer_action u) (Option.ite_none_right_eq_some.mp hstep).2
  | log u k => exact hput hother rfl (Option.ite_none_right_eq_some.mp hstep).2
  | apply u k => exact hput hother rfl (Option.ite_none_right_eq_some.mp hstep).2
  | reply u k r => exact hput hother rfl (Option.ite_none_right_eq_some.mp hstep).2
  | query g =>
    obtain ⟨-, heq⟩ := Option.ite_none_right_eq_some.mp hstep
    cases heq
    exact ⟨rfl, rfl⟩
  | look g => exact hputAsk rfl (Option.ite_none_right_eq_some.mp hstep).2
  | read g =>
    simp only [Sys.step] at hstep
    split at hstep
    · exact hputAsk rfl (Option.ite_none_right_eq_some.mp hstep).2
    · cases hstep

/-- A handler of a peer makes a step. -/
theorem stepsLeft_lt {σ τ : Store} {t : ℕ} {move : PeerStep}
    (hact : Acted load σ (move.action t) τ) :
    stepsLeft (τ.handler t) < stepsLeft (σ.handler t) := by
  have hlt : ∀ {handler : Handler}, stepsLeft handler < stepsLeft (σ.handler t) →
      stepsLeft (Function.update σ.handler t handler t) < stepsLeft (σ.handler t) := by
    intro handler h
    rwa [Function.update_self]
  cases move with
  | enter =>
    cases hact with
    | enter _ hold =>
      refine hlt ?_
      rw [hold]
      decide
  | append =>
    cases hact with
    | append _ hold =>
      refine hlt ?_
      rw [hold]
      decide
  | conduct =>
    cases hact with
    | conduct _ hold =>
      refine hlt ?_
      rw [hold]
      decide
  | leave =>
    cases hact with
    | leave _ hold =>
      refine hlt ?_
      rw [hold]
      decide

theorem stepsLeft_le (handler : Handler) : stepsLeft handler ≤ 4 := by
  cases handler <;> decide

theorem sum_stepsLeft_le (handler : ℕ → Handler) (peers : List ℕ) :
    (peers.map fun j ↦ stepsLeft (handler j)).sum ≤ 4 * peers.length := by
  have hle := List.sum_le_card_nsmul (peers.map fun j ↦ stepsLeft (handler j)) 4 fun n hn ↦ by
    obtain ⟨j, -, rfl⟩ := List.mem_map.mp hn
    exact stepsLeft_le (handler j)
  rw [List.length_map] at hle
  exact hle.trans_eq (Nat.mul_comm _ _)

theorem rank_toStage (t : ℕ) (stage : Stage) :
    rank a t (s.toStage t stage) = rankOf a (s.handlers t) stage := by
  rw [rank, toStage_stage_self]
  rfl

theorem rank_put (k t : ℕ) (stage : Stage) (σ : Store) :
    rank a t (s.put k t stage σ) =
      rankOf a (Function.update (s.handlers t) k (σ.handler t)) stage := by
  rw [rank, put_stage_self, ← handlers_update]
  rfl

/-- An own step lowers the rank. -/
theorem Alive.rank_lt (h : Alive a load tablets s) (hstep : s.step a.partition load e = some s')
    {t : ℕ} (hown : writerOf e = some t) : rank a t s' < rank a t s := by
  have hplaced := h.inv.placed t
  have hrank : ∀ {stage : Stage}, s.stage t = stage → rank a t s = rankOf a (s.handlers t) stage :=
    fun hstage ↦ congrArg (rankOf a (s.handlers t)) hstage
  cases e with
  | call u =>
    obtain rfl := Option.some.inj hown
    obtain ⟨⟨hstage, -⟩, heq⟩ := Option.ite_none_right_eq_some.mp hstep
    cases heq
    rw [rank_toStage, hrank hstage, rankOf, rankOf]
    split <;> omega
  | forward u i j =>
    obtain rfl := Option.some.inj hown
    obtain ⟨⟨hstage, hforward⟩, heq⟩ := Option.ite_none_right_eq_some.mp hstep
    cases heq
    have hroute : i ≠ a.pm ∧ j = a.pm := by
      have hforward' := hforward
      unfold forwardTo at hforward'
      split at hforward'
      · next routed peer hrouted =>
        obtain ⟨_, hview, -⟩ := Option.map_eq_some_iff.mp hrouted
        obtain ⟨hne, hpm⟩ := forwardTo_of_route hview hrouted
        exact ⟨hne, Option.some.inj (hforward.symm.trans hpm)⟩
      · cases hforward'
    rw [rank_toStage, hrank hstage, rankOf, rankOf, if_pos hroute.2, if_neg hroute.1]
    omega
  | reject u i status =>
    obtain rfl := Option.some.inj hown
    obtain ⟨⟨hstage, -⟩, heq⟩ := Option.ite_none_right_eq_some.mp hstep
    cases heq
    rw [rank_toStage, hrank hstage, rankOf, rankOf]
    split <;> omega
  | lock u i =>
    obtain rfl := Option.some.inj hown
    obtain ⟨⟨hstage, hroute⟩, hmap⟩ := Option.ite_none_right_eq_some.mp hstep
    obtain ⟨σ, -, rfl⟩ := Option.map_eq_some_iff.mp hmap
    rw [rank_put, hrank hstage, rankOf, rankOf, if_pos (a.eq_pm hroute)]
    omega
  | refuse u i status =>
    obtain rfl := Option.some.inj hown
    obtain ⟨⟨hstage, -⟩, hmap⟩ := Option.ite_none_right_eq_some.mp hstep
    obtain ⟨σ, -, rfl⟩ := Option.map_eq_some_iff.mp hmap
    rw [rank_put, hrank hstage, rankOf, rankOf]
    omega
  | accept u i =>
    obtain rfl := Option.some.inj hown
    obtain ⟨⟨hstage, -⟩, heq⟩ := Option.ite_none_right_eq_some.mp hstep
    cases heq
    have hle := sum_stepsLeft_le (s.handlers u) (peersOf a.partition a.pm)
    rw [rank_toStage, hrank hstage, rankOf, rankOf]
    omega
  | peer u i j move =>
    obtain rfl := Option.some.inj hown
    obtain ⟨⟨hstage, hpeer⟩, hmap⟩ := Option.ite_none_right_eq_some.mp hstep
    obtain ⟨σ, hact, rfl⟩ := Option.map_eq_some_iff.mp hmap
    rw [hstage] at hplaced
    obtain ⟨rfl, -⟩ := hplaced
    have hlt := stepsLeft_lt (acted_of_act load hact)
    rw [rank_put, hrank hstage, rankOf, rankOf, Nat.add_lt_add_iff_right]
    apply List.sum_lt_sum
    · intro k _
      by_cases hk : k = j
      · rw [hk, Function.update_self]
        exact hlt.le
      · rw [Function.update_of_ne hk]
    · refine ⟨j, hpeer, ?_⟩
      rw [Function.update_self]
      exact hlt
  | join u i =>
    obtain rfl := Option.some.inj hown
    obtain ⟨⟨hstage, -⟩, heq⟩ := Option.ite_none_right_eq_some.mp hstep
    cases heq
    rw [rank_toStage, hrank hstage, rankOf, rankOf]
    split <;> omega
  | log u i =>
    obtain rfl := Option.some.inj hown
    obtain ⟨hstage, hmap⟩ := Option.ite_none_right_eq_some.mp hstep
    obtain ⟨σ, hact, rfl⟩ := Option.map_eq_some_iff.mp hmap
    rw [hstage] at hplaced
    obtain ⟨rfl, -⟩ := hplaced
    cases acted_of_act load hact with
    | append _ hlocked =>
      have hlocked' : s.handlers u a.pm = .locked := hlocked
      have hlogged : Function.update (s.handlers u) a.pm
          (Function.update (s.node a.pm).handler u .logged u) a.pm ≠ .locked := by
        rw [Function.update_self, Function.update_self]
        decide
      rw [rank_put, hrank hstage, rankOf, rankOf, if_pos hlocked', if_neg hlogged]
      omega
  | apply u i =>
    obtain rfl := Option.some.inj hown
    obtain ⟨hstage, hmap⟩ := Option.ite_none_right_eq_some.mp hstep
    obtain ⟨σ, -, rfl⟩ := Option.map_eq_some_iff.mp hmap
    rw [rank_put, hrank hstage, rankOf, rankOf]
    split <;> omega
  | reply u i reply =>
    obtain rfl := Option.some.inj hown
    obtain ⟨hstage, hmap⟩ := Option.ite_none_right_eq_some.mp hstep
    obtain ⟨σ, -, rfl⟩ := Option.map_eq_some_iff.mp hmap
    rw [rank_put, hrank hstage, rankOf, rankOf]
    omega
  | query g => cases hown
  | look g => cases hown
  | read g => cases hown

theorem rank_step (h : Alive a load tablets s) (hstep : s.step a.partition load e = some s')
    (t : ℕ) : rank a t s' + (if decide (writerOf e = some t) then 1 else 0) ≤ rank a t s := by
  by_cases hown : writerOf e = some t
  · rw [decide_eq_true hown, if_pos rfl]
    exact h.rank_lt hstep hown
  · obtain ⟨hstage, hhandlers⟩ := step_frame hstep hown
    rw [decide_eq_false hown, if_neg Bool.false_ne_true, rank, hstage, hhandlers]
    exact Nat.le_refl _

theorem rankAsk_step (hstep : s.step a.partition load e = some s') (g : ℕ) :
    rankAsk (s'.ask g) + (if decide (readerOf e = some g) then 1 else 0) ≤ rankAsk (s.ask g) := by
  have hsame : readerOf e = none → s'.ask = s.ask →
      rankAsk (s'.ask g) + (if decide (readerOf e = some g) then 1 else 0) ≤ rankAsk (s.ask g) := by
    intro hnone hask
    rw [hnone, hask]
    exact Nat.le_refl _
  have hput : ∀ {o : Option Store} {k u : ℕ} {stage : Stage}, readerOf e = none →
      o.map (s.put k u stage) = some s' →
      rankAsk (s'.ask g) + (if decide (readerOf e = some g) then 1 else 0) ≤ rankAsk (s.ask g) := by
    intro o k u stage hnone hmap
    obtain ⟨σ, -, rfl⟩ := Option.map_eq_some_iff.mp hmap
    exact hsame hnone rfl
  have hown : ∀ {f : ℕ} (ask : Ask), readerOf e = some f → s'.ask = Function.update s.ask f ask →
      rankAsk ask + 1 ≤ rankAsk (s.ask f) →
      rankAsk (s'.ask g) + (if decide (readerOf e = some g) then 1 else 0) ≤ rankAsk (s.ask g) := by
    intro f ask hreader hask hlt
    rw [hreader, hask]
    by_cases hgf : g = f
    · subst hgf
      rw [decide_eq_true rfl, if_pos rfl, Function.update_self]
      exact hlt
    · rw [decide_eq_false fun heq ↦ hgf (Option.some.inj heq).symm, if_neg Bool.false_ne_true,
        Function.update_of_ne hgf]
      exact Nat.le_refl _
  cases e with
  | call u =>
    obtain ⟨-, heq⟩ := Option.ite_none_right_eq_some.mp hstep
    cases heq
    exact hsame rfl rfl
  | forward u k j =>
    obtain ⟨-, heq⟩ := Option.ite_none_right_eq_some.mp hstep
    cases heq
    exact hsame rfl rfl
  | reject u k status =>
    obtain ⟨-, heq⟩ := Option.ite_none_right_eq_some.mp hstep
    cases heq
    exact hsame rfl rfl
  | accept u k =>
    obtain ⟨-, heq⟩ := Option.ite_none_right_eq_some.mp hstep
    cases heq
    exact hsame rfl rfl
  | join u k =>
    obtain ⟨-, heq⟩ := Option.ite_none_right_eq_some.mp hstep
    cases heq
    exact hsame rfl rfl
  | lock u k => exact hput rfl (Option.ite_none_right_eq_some.mp hstep).2
  | refuse u k status => exact hput rfl (Option.ite_none_right_eq_some.mp hstep).2
  | peer u k j move => exact hput rfl (Option.ite_none_right_eq_some.mp hstep).2
  | log u k => exact hput rfl (Option.ite_none_right_eq_some.mp hstep).2
  | apply u k => exact hput rfl (Option.ite_none_right_eq_some.mp hstep).2
  | reply u k r => exact hput rfl (Option.ite_none_right_eq_some.mp hstep).2
  | query f =>
    obtain ⟨⟨hask, -⟩, heq⟩ := Option.ite_none_right_eq_some.mp hstep
    cases heq
    exact hown .asked rfl rfl (by rw [hask]; decide)
  | look f =>
    obtain ⟨hask, hmap⟩ := Option.ite_none_right_eq_some.mp hstep
    obtain ⟨σ, -, rfl⟩ := Option.map_eq_some_iff.mp hmap
    exact hown .reading rfl rfl (by rw [hask]; decide)
  | read f =>
    simp only [Sys.step] at hstep
    split at hstep
    · obtain ⟨hask, hmap⟩ := Option.ite_none_right_eq_some.mp hstep
      obtain ⟨σ, -, rfl⟩ := Option.map_eq_some_iff.mp hmap
      exact hown _ rfl rfl (by rw [hask]; exact Nat.le_refl _)
    · cases hstep

end Rank

theorem peersOf_length (a : AgreedPartition) :
    (peersOf a.partition a.pm).length + 1 ≤ a.partition.nodes.length := by
  have hview := List.getElem?_eq_getElem a.pm_lt
  have hpeers : ((a.partition.nodes[a.pm]?.map NodeView.peerAddrs).getD []) =
      a.addrs.eraseIdx a.pm := by
    rw [hview, Option.map_some, Option.getD_some]
    exact (a.configured.node a.pm _ hview).2
  have hle : (peersOf a.partition a.pm).length ≤ (a.addrs.eraseIdx a.pm).length := by
    rw [peersOf, hpeers]
    exact List.length_filterMap_le _ _
  have hlt : a.pm < a.addrs.length := a.configured.length_eq ▸ a.pm_lt
  rw [List.length_eraseIdx_of_lt hlt] at hle
  rw [a.configured.length_eq]
  omega

/-- No request waits forever: each takes a bounded number of steps, and where the servers cannot make
another step, all requests are answered. -/
theorem no_request_waits_forever (a : AgreedPartition) (load : Load) (tablets : ℕ → Tablet)
    (hload : ∀ t prq, load.request t = .cPut prq → prq.v1 ≠ []) {es : List Event} {s : Sys}
    (h : run (machine a.partition load) (start tablets) es = some s) :
    (∀ t, (es.countP fun e ↦ decide (writerOf e = some t)) ≤ 4 * a.partition.nodes.length + 4) ∧
      (∀ g, (es.countP fun e ↦ decide (readerOf e = some g)) ≤ 3) ∧
      ((∀ e s', s.step a.partition load e = some s' → begins e = true) →
        Quiet s ∧ ∀ g, ¬Asking (s.ask g)) := by
  have hkeep : ∀ s e s', Alive a load tablets s → (machine a.partition load).step s e = some s' →
      Alive a load tablets s' := fun _ _ _ halive hstep ↦ halive.step hstep
  have halive : Alive a load tablets s :=
    (reaches_of_run h).invariant (start_alive a load tablets) fun _ _ _ hs _ hstep ↦ hs.step hstep
  refine ⟨fun t ↦ ?_, fun g ↦ ?_, fun hdone ↦ ?_⟩
  · have hle := countP_run_le (rank a t) hkeep
      (fun _ _ _ hs hstep ↦ rank_step hs hstep t) (start_alive a load tablets) h
    have hlength := peersOf_length a
    have hstart : rank a t (start tablets) = 4 * (peersOf a.partition a.pm).length + 8 := rfl
    omega
  · have hle := countP_run_le (fun s ↦ rankAsk (s.ask g)) hkeep
      (fun _ _ _ _ hstep ↦ rankAsk_step hstep g) (start_alive a load tablets) h
    have hstart : rankAsk ((start tablets).ask g) = 3 := rfl
    omega
  · have hnone : ¬Enabled a.partition load s := by
      rintro ⟨e, s', hbegins, hstep⟩
      rw [hdone e s' hstep] at hbegins
      cases hbegins
    constructor
    · exact fun t ht ↦ hnone (halive.enabled hload (.inl ⟨t, ht⟩))
    · exact fun g hg ↦ hnone (halive.enabled hload (.inr ⟨g, hg⟩))

theorem no_request_waits_forever_twoWrites : ∃ s, after (atOnce ++ bothReplies) = some s ∧
    (∀ t, ((atOnce ++ bothReplies).countP fun e ↦ decide (writerOf e = some t)) ≤
      4 * twoNodes.partition.nodes.length + 4) ∧
    (∀ g, ((atOnce ++ bothReplies).countP fun e ↦ decide (readerOf e = some g)) ≤ 3) ∧
    ((∀ e s', s.step twoNodes.partition twoWrites e = some s' → begins e = true) →
      Quiet s ∧ ∀ g, ¬Asking (s.ask g)) := by
  refine ⟨_, rfl, no_request_waits_forever twoNodes twoWrites (fun _ ↦ ∅) (fun t prq h ↦ ?_) rfl⟩
  rw [twoWrites] at h
  dsimp only at h
  split at h
  · cases h
  · cases h

end PennCloud.Replication.Progress
