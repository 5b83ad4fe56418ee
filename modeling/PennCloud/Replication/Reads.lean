import PennCloud.Replication.Interleaving

/-!
# Successive reads

What a `Get` has seen is a prefix of the writers of its cell, in the one order in which all
nodes are changed. A later `Get` at another peer may see less, while the multicast of the last
writer is under way: peers show a value before the other peers and the primary have it. Only
this can happen. A later `Get` sees at least as much if it is sent to the same node, if one
of the two is sent to the primary, or if its node has been changed by the last writer by then.
-/

open PennCloud.KV.TabletCells PennCloud.KV.Handlers
open PennCloud.Library.Runs PennCloud.Library.WriteLog PennCloud.Library.Locks
open PennCloud.Replication.Serving PennCloud.Replication.NodeActions
open PennCloud.Replication.Agreement PennCloud.Replication.Interleaving

namespace PennCloud.Replication.Reads

/-- All peers have answered the multicast of the request. -/
def Joined : Stage → Prop
  | .idle => False
  | .arrived _ => False
  | .locked _ => False
  | .multicast _ => False
  | .joined _ => True
  | .applied _ _ => True
  | .replied _ => True
  | .refused _ => False

/-- The cell that a `Get` reads. -/
def cellOf (load : Load) (g : ℕ) : Bytes × Bytes := ((load.query g).row, (load.query g).col)

/-- What the last of the writers left in the cell. -/
def contentAfter (load : Load) (T : Tablet) (cell : Bytes × Bytes) (seen : List ℕ) :
    Option Bytes :=
  (seen.getLast?.map fun t ↦ (load.request t).outcome).getD (cells T cell)

section

variable {a : AgreedPartition} {load : Load} {tablets : ℕ → Tablet} {s s' : Sys}

/-! ## What stays -/

/-- What a writer has changed stays so. -/
theorem acted_changed {σ τ : Store} {act : Action} (hact : Acted load σ act τ) {t : ℕ}
    (h : σ.changed t = true) : τ.changed t = true := by
  by_cases hconduct : ∃ u, act = .conduct u
  · obtain ⟨u, rfl⟩ := hconduct
    by_cases hu : t = u
    · subst hu
      exact (acted_conduct load hact).changed
    · cases hact with
      | conduct _ hold => simpa [Store.changed, Function.update_of_ne hu] using h
  · obtain ⟨-, hsame⟩ := acted_still load hact fun u hu ↦ hconduct ⟨u, hu⟩
    rwa [hsame]

theorem changed_update {k : ℕ} {σ : Store} {act : Action} (hact : Acted load (s.node k) act σ)
    {j t : ℕ} (h : (s.node j).changed t = true) :
    (Function.update s.node k σ j).changed t = true := by
  by_cases hj : j = k
  · subst hj
    rw [Function.update_self]
    exact acted_changed hact h
  · rwa [Function.update_of_ne hj]

theorem changed_step (hstep : Happened a.partition load s s') {j t : ℕ}
    (h : (s.node j).changed t = true) : (s'.node j).changed t = true := by
  cases hstep with
  | call => exact h
  | forward => exact h
  | reject => exact h
  | lock t i σ hold hroute hact => exact changed_update hact h
  | refuse t i status σ hold hact => exact changed_update hact h
  | accept => exact h
  | peer t i k move σ hold hpeer hact => exact changed_update hact h
  | join => exact h
  | log t i σ hold hact => exact changed_update hact h
  | apply t i reply σ hold hact => exact changed_update hact h
  | reply t i reply σ hold hact => exact changed_update hact h
  | query => exact h
  | look g σ hold hact => exact changed_update hact h
  | read g view node σ hold hview hnode htablet hact => exact changed_update hact h

theorem acted_hist {σ τ : Store} {act : Action} (hact : Acted load σ act τ) :
    σ.hist <+: τ.hist := by
  cases hact with
  | conduct t => exact List.prefix_append _ _
  | enter => exact List.prefix_rfl
  | withdraw => exact List.prefix_rfl
  | append => exact List.prefix_rfl
  | leave => exact List.prefix_rfl
  | look => exact List.prefix_rfl
  | unlook => exact List.prefix_rfl

theorem hist_update {k : ℕ} {σ : Store} {act : Action} (hact : Acted load (s.node k) act σ)
    (j : ℕ) : (s.node j).hist <+: (Function.update s.node k σ j).hist := by
  by_cases hj : j = k
  · subst hj
    rw [Function.update_self]
    exact acted_hist hact
  · rw [Function.update_of_ne hj]

/-- No step takes back a change. -/
theorem hist_step (hstep : Happened a.partition load s s') (j : ℕ) :
    (s.node j).hist <+: (s'.node j).hist := by
  cases hstep with
  | call => exact List.prefix_rfl
  | forward => exact List.prefix_rfl
  | reject => exact List.prefix_rfl
  | lock t i σ hold hroute hact => exact hist_update hact j
  | refuse t i status σ hold hact => exact hist_update hact j
  | accept => exact List.prefix_rfl
  | peer t i k move σ hold hpeer hact => exact hist_update hact j
  | join => exact List.prefix_rfl
  | log t i σ hold hact => exact hist_update hact j
  | apply t i reply σ hold hact => exact hist_update hact j
  | reply t i reply σ hold hact => exact hist_update hact j
  | query => exact List.prefix_rfl
  | look g σ hold hact => exact hist_update hact j
  | read g view node σ hold hview hnode htablet hact => exact hist_update hact j

theorem seenBy_step (hstep : Happened a.partition load s s') (g : ℕ) :
    seenBy load s g <+: seenBy load s' g :=
  (hist_step hstep _).filter _

/-! ## How a `Get` is answered -/

/-- The conditions under which a `Get` gets its answer. -/
structure Answering (a : AgreedPartition) (load : Load) (s : Sys) (g : ℕ) (reply : Reply)
    (seen : List ℕ) : Prop where
  seen_eq : seen = seenBy load s g
  held : (s.node (load.queryAt g)).reading g = true
  lt : load.queryAt g < a.partition.nodes.length
  reply : ∃ node : KVNode, node.statusServ = true ∧
    node.tablet = (s.node (load.queryAt g)).tablet ∧ reply = get node (load.query g)

theorem answered_toAsk {f g : ℕ} {ask : Ask} {reply : Reply} {seen : List ℕ}
    (hask : ask ≠ .answered reply seen)
    (h : Function.update s.ask f ask g = .answered reply seen) : s.ask g = .answered reply seen := by
  by_cases hg : g = f
  · subst hg
    rw [Function.update_self] at h
    exact absurd h hask
  · rw [Function.update_of_ne hg] at h
    exact h

theorem answered_step (hstep : Happened a.partition load s s') {g : ℕ} {reply : Reply}
    {seen : List ℕ} (h : s'.ask g = .answered reply seen) :
    s.ask g = .answered reply seen ∨ Answering a load s g reply seen := by
  cases hstep with
  | call => exact .inl h
  | forward => exact .inl h
  | reject => exact .inl h
  | lock => exact .inl h
  | refuse => exact .inl h
  | accept => exact .inl h
  | peer => exact .inl h
  | join => exact .inl h
  | log => exact .inl h
  | apply => exact .inl h
  | reply => exact .inl h
  | query f =>
    have hask : Ask.asked ≠ .answered reply seen := by simp
    exact .inl (answered_toAsk hask h)
  | look f =>
    have hask : Ask.reading ≠ .answered reply seen := by simp
    exact .inl (answered_toAsk hask h)
  | read f view node σ hold hview hnode htablet hact =>
    by_cases hg : g = f
    · subst hg
      have heq : Ask.answered (get node (load.query g)) (seenBy load s g) = .answered reply seen :=
        (Function.update_self g _ _).symm.trans h
      cases heq
      cases hact with
      | unlook _ hheld =>
        have hserving : node.statusServ = true := by
          rw [hnode]
          exact a.serves view (List.mem_of_getElem? hview)
        exact .inr ⟨rfl, hheld, (List.getElem?_eq_some_iff.mp hview).1,
          node, hserving, htablet, rfl⟩
    · left
      exact (Function.update_of_ne hg _ _).symm.trans h

theorem cells_seenBy (h : Inv a load tablets s) (g : ℕ) :
    cells (s.node (load.queryAt g)).tablet (cellOf load g) =
      contentAfter load (tablets (load.queryAt g)) (cellOf load g) (seenBy load s g) := by
  have hnode := h.node (load.queryAt g)
  have hfilter : (seenBy load s g).map load.record =
      ((s.node (load.queryAt g)).hist.map load.record).filter fun record ↦
        record.cell = cellOf load g := by
    rw [List.filter_map]
    rfl
  have hkeys : ∀ record ∈ (seenBy load s g).map load.record, Write.key record = cellOf load g := by
    intro record hrecord
    rw [hfilter] at hrecord
    exact of_decide_eq_true (List.mem_filter.mp hrecord).2
  calc
    cells (s.node (load.queryAt g)).tablet (cellOf load g) =
        replay (cells (tablets (load.queryAt g)))
          ((s.node (load.queryAt g)).hist.map load.record) (cellOf load g) := by
      rw [hnode.tablet, foldl_conduct_cells]
    _ = replay (cells (tablets (load.queryAt g))) ((seenBy load s g).map load.record)
          (cellOf load g) := by
      rw [hfilter]
      symm
      apply replay_filter
      exact fun record hkey ↦ decide_eq_true hkey
    _ = contentAfter load (tablets (load.queryAt g)) (cellOf load g) (seenBy load s g) := by
      rw [replay_getLast? _ hkeys, List.getLast?_map, Option.map_map]
      rfl

/-- The answer of a `Get`, seen from a later state. -/
structure Answered (a : AgreedPartition) (load : Load) (tablets : ℕ → Tablet) (s : Sys) (g : ℕ)
    (reply : Reply) (seen : List ℕ) : Prop where
  lt : load.queryAt g < a.partition.nodes.length
  grown : seen <+: seenBy load s g
  reports : Reports (cellOf load g)
    (contentAfter load (tablets (load.queryAt g)) (cellOf load g) seen) reply

theorem Answering.answered {g : ℕ} {reply : Reply} {seen : List ℕ} (h : Inv a load tablets s)
    (hanswer : Answering a load s g reply seen) : Answered a load tablets s g reply seen where
  lt := hanswer.lt
  grown := by
    rw [hanswer.seen_eq]
  reports := by
    obtain ⟨node, hserving, htablet, hreply⟩ := hanswer.reply
    rw [hreply, hanswer.seen_eq]
    apply (reports_get_iff hserving (cellOf load g) _).mpr
    rw [htablet]
    exact cells_seenBy h g

/-- All answers given so far. -/
def AskInv (a : AgreedPartition) (load : Load) (tablets : ℕ → Tablet) (s : Sys) : Prop :=
  ∀ g reply seen, s.ask g = .answered reply seen → Answered a load tablets s g reply seen

theorem AskInv.step (h : AskInv a load tablets s) (hinv : Inv a load tablets s)
    (hstep : Happened a.partition load s s') : AskInv a load tablets s' := by
  intro g reply seen hanswered
  have hmono := seenBy_step hstep g
  rcases answered_step hstep hanswered with hold | hnow
  · have hbefore := h g reply seen hold
    exact ⟨hbefore.lt, hbefore.grown.trans hmono, hbefore.reports⟩
  · have hbefore := hnow.answered hinv
    exact ⟨hbefore.lt, hbefore.grown.trans hmono, hbefore.reports⟩

theorem reaches_askInv
    (h : Reaches (machine a.partition load) anyStep (start tablets) s) :
    Inv a load tablets s ∧ AskInv a load tablets s := by
  have hstart : AskInv a load tablets (start tablets) := by
    intro g reply seen hanswered
    cases hanswered
  refine h.invariant (I := fun t ↦ Inv a load tablets t ∧ AskInv a load tablets t)
    ⟨start_inv a load tablets, hstart⟩ ?_
  rintro t e u ⟨hinv, hask⟩ - hstep
  have hhappened := happened_of_step a.partition load hstep
  exact ⟨hinv.step hhappened, hask.step hinv hhappened⟩

/-! ## Two reads of a cell -/

/-- Where the second of two reads is sure to see what the first has seen. -/
inductive Ordered (a : AgreedPartition) (load : Load) (s : Sys) (g₁ g₂ : ℕ) (seen : List ℕ) : Prop
  | sameNode (h : load.queryAt g₁ = load.queryAt g₂)
  | firstAtPrimary (h : load.queryAt g₁ = a.pm)
  | secondAtPrimary (h : load.queryAt g₂ = a.pm)
  | applied (h : ∀ t, seen.getLast? = some t → (s.node (load.queryAt g₂)).changed t = true)

theorem Ordered.step {g₁ g₂ : ℕ} {seen : List ℕ} (h : Ordered a load s g₁ g₂ seen)
    (hstep : Happened a.partition load s s') : Ordered a load s' g₁ g₂ seen := by
  cases h with
  | sameNode h => exact .sameNode h
  | firstAtPrimary h => exact .firstAtPrimary h
  | secondAtPrimary h => exact .secondAtPrimary h
  | applied h => exact .applied fun t ht ↦ changed_step hstep (h t ht)

theorem seenBy_eq (s : Sys) (g : ℕ) :
    seenBy load s g = ((s.node (load.queryAt g)).rowHist load (load.query g).row).filter fun t ↦
      (load.record t).cell = cellOf load g := by
  rw [Store.rowHist, List.filter_filter]
  apply List.filter_congr
  intro t _
  by_cases hcell : (load.record t).cell = ((load.query g).row, (load.query g).col)
  · have hrow : load.row t = (load.query g).row := congrArg Prod.fst hcell
    simp only [hcell, hrow, cellOf, decide_true, Bool.and_true]
  · simp only [hcell, cellOf, decide_false, Bool.false_and]

theorem seenBy_prefix_of_rowHist {g₁ g₂ : ℕ} (hquery : load.query g₁ = load.query g₂)
    (h : (s.node (load.queryAt g₁)).rowHist load (load.query g₁).row <+:
      (s.node (load.queryAt g₂)).rowHist load (load.query g₁).row) :
    seenBy load s g₁ <+: seenBy load s g₂ := by
  rw [seenBy_eq, seenBy_eq, cellOf, cellOf, ← hquery]
  exact h.filter _

/-- While a reader holds the lock of the primary, no peer is ahead. -/
theorem rowHist_of_reading (h : Inv a load tablets s) {g : ℕ} {reply : Reply} {seen : List ℕ}
    (hanswer : Answering a load s g reply seen) (hpm : load.queryAt g = a.pm) {j : ℕ}
    (hj : j < a.partition.nodes.length) :
    (s.node j).rowHist load (load.query g).row =
      (s.node a.pm).rowHist load (load.query g).row := by
  have hheld : (s.node a.pm).reading g = true := hpm ▸ hanswer.held
  have hlk : (s.node a.pm).lkR (load.query g).row = some (.reader g) :=
    ((h.node a.pm).guards _ _).mpr ⟨hheld, rfl⟩
  rw [h.rows _ j hj, holder_of_reader hlk, List.append_nil]

/-- The writer of which a read may have been the first to know. -/
theorem rowHist_cases (h : Inv a load tablets s) {i : ℕ} (hi : i < a.partition.nodes.length)
    (row : Bytes) :
    (s.node i).rowHist load row = (s.node a.pm).rowHist load row ∨
    ∃ t, (s.node a.pm).lkR row = some (.writer t) ∧ (s.node a.pm).changed t = false ∧
      (s.node i).rowHist load row = (s.node a.pm).rowHist load row ++ [t] := by
  have hrow := h.rows row i hi
  cases hlk : (s.node a.pm).lkR row with
  | none =>
    rw [holder_of_free hlk, List.append_nil] at hrow
    exact .inl hrow
  | some o =>
    cases o with
    | reader g =>
      rw [holder_of_reader hlk, List.append_nil] at hrow
      exact .inl hrow
    | writer t =>
      rw [holder_of_writer hlk] at hrow
      cases hahead : ahead s.node a.pm i t with
      | false =>
        rw [hahead, if_neg Bool.false_ne_true, List.append_nil] at hrow
        exact .inl hrow
      | true =>
        rw [hahead, if_pos rfl] at hrow
        obtain ⟨hbehind, -⟩ := (Bool.and_eq_true _ _).mp hahead
        exact .inr ⟨t, rfl, by simpa using hbehind, hrow⟩

/-- A peer that has answered a multicast has been changed by its writer. -/
theorem changed_of_joined (h : Inv a load tablets s) {t j : ℕ} (hjoined : Joined (s.stage t))
    (hj : j < a.partition.nodes.length) (hne : j ≠ a.pm) : (s.node j).changed t = true := by
  have hplaced := h.placed t
  have hleft : (s.node j).handler t = .left := by
    cases hstage : s.stage t with
    | joined i =>
      rw [hstage] at hplaced
      exact hplaced.2.2 j hj hne
    | applied i reply =>
      rw [hstage] at hplaced
      exact hplaced.2.2 j hj hne
    | replied reply =>
      rw [hstage] at hplaced
      exact hplaced j hj
    | idle => simp [hstage, Joined] at hjoined
    | arrived i => simp [hstage, Joined] at hjoined
    | locked i => simp [hstage, Joined] at hjoined
    | multicast i => simp [hstage, Joined] at hjoined
    | refused status => simp [hstage, Joined] at hjoined
  exact decide_eq_true (.inr hleft)

/-- In particular, when all peers have answered the multicast of what the first read has seen. -/
theorem Ordered.of_joined (h : Inv a load tablets s) {g₁ g₂ : ℕ} {seen : List ℕ}
    (hlt : load.queryAt g₂ < a.partition.nodes.length)
    (hjoined : ∀ t, seen.getLast? = some t → Joined (s.stage t)) : Ordered a load s g₁ g₂ seen := by
  by_cases hprimary : load.queryAt g₂ = a.pm
  · exact .secondAtPrimary hprimary
  · exact .applied fun t ht ↦ changed_of_joined h (hjoined t ht) hlt hprimary

/-- A prefix of a filtered list that may end in one more element. -/
theorem prefix_filter_concat {l base : List ℕ} {t : ℕ} {p : ℕ → Bool}
    (h : base <+: (l ++ [t]).filter p) : base <+: l.filter p ∨ base.getLast? = some t := by
  rw [List.filter_append, List.filter_singleton] at h
  cases hp : p t with
  | false =>
    rw [hp, cond_false, List.append_nil] at h
    exact .inl h
  | true =>
    rw [hp, cond_true] at h
    rcases List.prefix_concat_iff.mp h with heq | hshort
    · right
      rw [heq, List.getLast?_concat]
    · exact .inl hshort

/-- What the first read has seen, the second one sees when it is answered. -/
theorem seen_of_answering (h : Inv a load tablets s) {g₁ g₂ : ℕ}
    (hquery : load.query g₁ = load.query g₂) (hlt : load.queryAt g₁ < a.partition.nodes.length)
    {base seen : List ℕ} {reply : Reply} (hbase : base <+: seenBy load s g₁)
    (hordered : Ordered a load s g₁ g₂ base) (hanswer : Answering a load s g₂ reply seen) :
    base <+: seen := by
  rw [hanswer.seen_eq]
  have hpm : ∀ {i : ℕ}, i < a.partition.nodes.length →
      (s.node a.pm).rowHist load (load.query g₁).row <+:
        (s.node i).rowHist load (load.query g₁).row := by
    intro i hi
    rw [h.rows _ i hi]
    exact List.prefix_append _ _
  have hsecond : load.queryAt g₂ = a.pm → base <+: seenBy load s g₂ := by
    intro hprimary
    apply hbase.trans
    apply seenBy_prefix_of_rowHist hquery
    rw [hprimary, hquery, rowHist_of_reading h hanswer hprimary hlt]
  cases hordered with
  | sameNode hsame =>
    apply hbase.trans
    apply seenBy_prefix_of_rowHist hquery
    rw [hsame]
  | firstAtPrimary hprimary =>
    apply hbase.trans
    apply seenBy_prefix_of_rowHist hquery
    rw [hprimary]
    exact hpm hanswer.lt
  | secondAtPrimary hprimary => exact hsecond hprimary
  | applied happlied =>
    rcases rowHist_cases h hlt (load.query g₁).row with hsame | ⟨t, hlk, hbehind, hmore⟩
    · apply hbase.trans
      apply seenBy_prefix_of_rowHist hquery
      rw [hsame]
      exact hpm hanswer.lt
    · have hbase' := hbase
      rw [seenBy_eq, hmore] at hbase'
      rcases prefix_filter_concat hbase' with hshort | hlast
      · -- the writer that is under way was not seen, or is not one of this cell
        apply hshort.trans
        rw [seenBy_eq, cellOf, cellOf, ← hquery]
        exact (hpm hanswer.lt).filter _
      · apply hbase.trans
        apply seenBy_prefix_of_rowHist hquery
        have hahead : ahead s.node a.pm (load.queryAt g₂) t = true := by
          simp [ahead, hbehind, happlied t hlast]
        rw [hmore, h.rows _ _ hanswer.lt, holder_of_writer hlk, hahead, if_pos rfl]

end

/-! ## The law -/

section Law

variable {a : AgreedPartition} {load : Load} {tablets : ℕ → Tablet}

/-- A `Get` that has returned, and another one of the same cell that is sent afterwards and has
returned as well. -/
structure Successive (a : AgreedPartition) (load : Load) (tablets : ℕ → Tablet) (g₁ g₂ : ℕ)
    (s s' : Sys) (reply₁ reply₂ : Reply) (seen₁ seen₂ : List ℕ) : Prop where
  reaches : Reaches (machine a.partition load) anyStep (start tablets) s
  first : s.ask g₁ = .answered reply₁ seen₁
  idle : s.ask g₂ = .idle
  later : Reaches (machine a.partition load) anyStep s s'
  second : s'.ask g₂ = .answered reply₂ seen₂
  query : load.query g₁ = load.query g₂

variable {g₁ g₂ : ℕ} {s s' : Sys} {reply₁ reply₂ : Reply} {seen₁ seen₂ : List ℕ}

/-- At some moment between the two states, and before the second read is answered, the two reads
are ordered. -/
def OrderedInTime (a : AgreedPartition) (load : Load) (g₁ g₂ : ℕ) (s s' : Sys) (seen : List ℕ) :
    Prop :=
  ∃ u, Reaches (machine a.partition load) anyStep s u ∧ Reaches (machine a.partition load) anyStep u s' ∧
    (∀ reply seen', u.ask g₂ ≠ .answered reply seen') ∧ Ordered a load u g₁ g₂ seen

theorem Successive.grows
    (h : Successive a load tablets g₁ g₂ s s' reply₁ reply₂ seen₁ seen₂)
    (hordered : OrderedInTime a load g₁ g₂ s s' seen₁) : seen₁ <+: seen₂ := by
  obtain ⟨u, hsu, hlater, hwaiting, hordered⟩ := hordered
  obtain ⟨hinv, -⟩ := reaches_askInv (h.reaches.trans hsu)
  obtain ⟨hlt, hgrown, -⟩ := (reaches_askInv h.reaches).2 g₁ reply₁ seen₁ h.first
  have hseen : seen₁ <+: seenBy load u g₁ := by
    refine hsu.invariant (I := fun v ↦ seen₁ <+: seenBy load v g₁) hgrown fun t e v ht _ hstep ↦ ?_
    exact ht.trans (seenBy_step (happened_of_step a.partition load hstep) g₁)
  have hrun : (Inv a load tablets s' ∧ seen₁ <+: seenBy load s' g₁ ∧
      Ordered a load s' g₁ g₂ seen₁) ∧
      ∀ reply seen, s'.ask g₂ = .answered reply seen → seen₁ <+: seen := by
    refine hlater.invariant (I := fun v ↦ (Inv a load tablets v ∧ seen₁ <+: seenBy load v g₁ ∧
      Ordered a load v g₁ g₂ seen₁) ∧
      ∀ reply seen, v.ask g₂ = .answered reply seen → seen₁ <+: seen)
      ⟨⟨hinv, hseen, hordered⟩, ?_⟩ ?_
    · exact fun reply seen hanswered ↦ absurd hanswered (hwaiting reply seen)
    · rintro t e v ⟨⟨ht, hgrown, hord⟩, hsecond⟩ - hstep
      have hhappened := happened_of_step a.partition load hstep
      refine ⟨⟨ht.step hhappened, hgrown.trans (seenBy_step hhappened g₁),
        hord.step hhappened⟩, ?_⟩
      intro reply seen hanswered
      rcases answered_step hhappened hanswered with hold | hanswer
      · exact hsecond reply seen hold
      · exact seen_of_answering ht h.query hlt hgrown hord hanswer
  exact hrun.2 reply₂ seen₂ h.second

end Law

/-- A read that is sent after another one has returned, to the same node, or with one of the two at
the primary, or to a node that the write which the first one reports has changed before the second
one is answered, has seen all that the first one has seen. What a read reports is what the last
write that it has seen left in the cell. -/
theorem reads_never_back (a : AgreedPartition) (load : Load) (tablets : ℕ → Tablet) {g₁ g₂ : ℕ}
    {s s' : Sys} {reply₁ reply₂ : Reply} {seen₁ seen₂ : List ℕ}
    (h : Successive a load tablets g₁ g₂ s s' reply₁ reply₂ seen₁ seen₂)
    (hordered : OrderedInTime a load g₁ g₂ s s' seen₁) :
    seen₁ <+: seen₂ ∧
    Reports (cellOf load g₁)
      (contentAfter load (tablets (load.queryAt g₁)) (cellOf load g₁) seen₁) reply₁ ∧
    Reports (cellOf load g₂)
      (contentAfter load (tablets (load.queryAt g₂)) (cellOf load g₂) seen₂) reply₂ := by
  have hfirst := (reaches_askInv h.reaches).2 g₁ reply₁ seen₁ h.first
  have hsecond := (reaches_askInv (h.reaches.trans h.later)).2 g₂ reply₂ seen₂ h.second
  exact ⟨h.grows hordered, hfirst.reports, hsecond.reports⟩

/-- Three nodes after the first election; node 0 is the primary. -/
def threeNodes : AgreedPartition :=
  AgreedPartition.elected (by decide : [lit "A", lit "B", lit "C"] ≠ []) (by decide) 0 false

def fourNodes : AgreedPartition :=
  AgreedPartition.elected (by decide : [lit "A", lit "B", lit "C", lit "D"] ≠ []) (by decide) 0 false

/-- A `Put` at the primary, and a `Get` of its cell at each of the peers. -/
def onePut : Load where
  request := fun _ ↦ .put { row := lit "row", col := lit "col", value := lit "value" }
  entry := fun _ ↦ 0
  query := fun _ ↦ { row := lit "row", col := lit "col" }
  queryAt := fun g ↦ g + 1

/-- The multicast reaches node 1 first. -/
def reachOne : List Event :=
  [.call 0, .lock 0 0, .accept 0 0, .peer 0 0 1 .enter, .peer 0 0 1 .append,
    .peer 0 0 1 .conduct, .peer 0 0 1 .leave]

def reachTwo : List Event :=
  [.peer 0 0 2 .enter, .peer 0 0 2 .append, .peer 0 0 2 .conduct, .peer 0 0 2 .leave]

def getBy (g : ℕ) : List Event := [.query g, .look g, .read g]

/-- Node 2 reports what node 1 has reported although node 3 has not been reached; it was changed while
the second read was waiting. -/
theorem reads_never_back_reached : ∃ s s' reply₁ reply₂ seen₂,
    Successive fourNodes onePut (fun _ ↦ ∅) 0 1 s s' reply₁ reply₂ [0] seen₂ ∧
      (s'.node 3).changed 0 = false ∧ [0] <+: seen₂ := by
  have hrun : ∃ s u s' reply₁ reply₂ seen₂,
      Successive fourNodes onePut (fun _ ↦ ∅) 0 1 s s' reply₁ reply₂ [0] seen₂ ∧
      (Reaches (machine fourNodes.partition onePut) anyStep s u ∧
        Reaches (machine fourNodes.partition onePut) anyStep u s') ∧
      u.ask 1 = .asked ∧ (u.node 2).changed 0 = true ∧ (s'.node 3).changed 0 = false := by
    refine ⟨_, _, _, _, _, _,
      ⟨reaches_of_run (rfl : run _ _ (reachOne ++ getBy 0) = some _), rfl, rfl,
        reaches_of_run (rfl : run _ _ (.query 1 :: reachTwo ++ [.look 1, .read 1]) = some _), rfl, rfl⟩,
      ⟨reaches_of_run (rfl : run _ _ (.query 1 :: reachTwo) = some _),
        reaches_of_run (rfl : run _ _ [.look 1, .read 1] = some _)⟩, rfl, rfl, rfl⟩
  obtain ⟨s, u, s', reply₁, reply₂, seen₂, hsucc, ⟨hsu, hus'⟩, hasked, hchanged, hbehind⟩ := hrun
  have hordered : OrderedInTime fourNodes onePut 0 1 s s' [0] := by
    refine ⟨u, hsu, hus', fun reply seen hanswered ↦ ?_, .applied ?_⟩
    · rw [hasked] at hanswered
      cases hanswered
    · rintro t ht
      cases ht
      exact hchanged
  exact ⟨s, s', reply₁, reply₂, seen₂, hsucc, hbehind,
    (reads_never_back fourNodes onePut (fun _ ↦ ∅) hsucc hordered).1⟩

/-- Reads do not go back in time: the later of two reads of a cell has seen all that the earlier
one has seen. -/
def NeverBack (a : AgreedPartition) (load : Load) (tablets : ℕ → Tablet) : Prop :=
  ∀ g₁ g₂ s s' reply₁ reply₂ seen₁ seen₂,
    Successive a load tablets g₁ g₂ s s' reply₁ reply₂ seen₁ seen₂ → seen₁ <+: seen₂

/-- While the multicast is under way, node 1 reports the value and node 2, asked afterwards, does
not find it. -/
theorem peer_read_goes_back : ¬NeverBack threeNodes onePut (fun _ ↦ ∅) ∧
    ∃ s s' reply₁ reply₂ seen₁ seen₂,
      Successive threeNodes onePut (fun _ ↦ ∅) 0 1 s s' reply₁ reply₂ seen₁ seen₂ ∧
      Reports (lit "row", lit "col") (some (lit "value")) reply₁ ∧
      Reports (lit "row", lit "col") none reply₂ := by
  have hrun : ∃ s s' reply₁ reply₂,
      Successive threeNodes onePut (fun _ ↦ ∅) 0 1 s s' reply₁ reply₂ [0] [] ∧
      Reports (lit "row", lit "col") (some (lit "value")) reply₁ ∧
      Reports (lit "row", lit "col") none reply₂ := by
    refine ⟨_, _, _, _, ⟨reaches_of_run (rfl : run _ _ (reachOne ++ getBy 0) = some _), rfl, rfl,
      reaches_of_run (rfl : run _ _ (getBy 1) = some _), rfl, rfl⟩, ?_, ?_⟩
    · exact ⟨rfl, rfl⟩
    · rfl
  obtain ⟨s, s', reply₁, reply₂, hsucc, hfound, hmissed⟩ := hrun
  constructor
  · intro hlaw
    have hbegins := hlaw _ _ _ _ _ _ _ _ hsucc
    exact absurd hbegins (by decide)
  · exact ⟨s, s', reply₁, reply₂, _, _, hsucc, hfound, hmissed⟩

end PennCloud.Replication.Reads
