import PennCloud.Replication.Serving
import PennCloud.Library.Locks

/-!
# The steps of handlers at one node

Any number of writers and readers at one node, each inside of the lock of its row: a writer
appends its record to the log and then applies it to the tablet, which are two steps, a reader
looks at the tablet. Writers of different rows interleave freely, so the log may have another
order than the tablet saw. Within a row the two orders are the same, and that is enough for
the log to rebuild the tablet.
-/

open PennCloud.KV.TabletCells PennCloud.KV.Handlers PennCloud.Library.Locks
open PennCloud.Library.WriteLog PennCloud.Library.Runs PennCloud.Replication.Serving

namespace PennCloud.Replication.NodeActions

/-- The requests of a run: writes and reads, and the node that each is sent to. -/
structure Load where
  request : ℕ → WriteRequest
  entry : ℕ → ℕ
  query : ℕ → GetRequest
  queryAt : ℕ → ℕ

def Load.record (load : Load) (t : ℕ) : LogRecord := (load.request t).record

def Load.row (load : Load) (t : ℕ) : Bytes := (load.record t).row

/-- Who holds a row lock. -/
inductive Owner
  | writer (t : ℕ)
  | reader (g : ℕ)
  deriving DecidableEq

/-- How far a writer is at a node: the handler of the primary, or of `PPut` or `PDelete`. -/
inductive Handler
  | outside
  | locked
  | logged
  | applied
  | left
  | withdrawn
  deriving DecidableEq

/-- The handler is inside of its row lock. -/
def Handler.Inside (handler : Handler) : Prop :=
  handler = .locked ∨ handler = .logged ∨ handler = .applied

/-- One node; `hist` are the writers in the order in which they changed the tablet. -/
structure Store where
  tablet : Tablet
  log : List LogRecord := []
  lkR : LockTable Bytes Owner := fun _ ↦ none
  handler : ℕ → Handler := fun _ ↦ .outside
  reading : ℕ → Bool := fun _ ↦ false
  hist : List ℕ := []

inductive Action
  | enter (t : ℕ)
  | withdraw (t : ℕ)
  | append (t : ℕ)
  | conduct (t : ℕ)
  | leave (t : ℕ)
  | look (g : ℕ)
  | unlook (g : ℕ)

variable (load : Load)

def Store.act (σ : Store) : Action → Option Store
  | .enter t =>
    if σ.handler t = .outside ∧ σ.lkR (load.row t) = none then
      some { σ with
        handler := Function.update σ.handler t .locked
        lkR := acquire σ.lkR (load.row t) (.writer t) }
    else none
  | .withdraw t =>
    if σ.handler t = .locked then
      some { σ with
        handler := Function.update σ.handler t .withdrawn
        lkR := release σ.lkR (load.row t) }
    else none
  | .append t =>
    if σ.handler t = .locked then
      some { σ with
        handler := Function.update σ.handler t .logged
        log := σ.log ++ [load.record t] }
    else none
  | .conduct t =>
    if σ.handler t = .logged then
      some { σ with
        handler := Function.update σ.handler t .applied
        tablet := conduct σ.tablet (load.record t)
        hist := σ.hist ++ [t] }
    else none
  | .leave t =>
    if σ.handler t = .applied then
      some { σ with
        handler := Function.update σ.handler t .left
        lkR := release σ.lkR (load.row t) }
    else none
  | .look g =>
    if σ.reading g = false ∧ σ.lkR (load.query g).row = none then
      some { σ with
        reading := Function.update σ.reading g true
        lkR := acquire σ.lkR (load.query g).row (.reader g) }
    else none
  | .unlook g =>
    if σ.reading g = true then
      some { σ with
        reading := Function.update σ.reading g false
        lkR := release σ.lkR (load.query g).row }
    else none

/-- The actions, with their conditions. -/
inductive Acted (σ : Store) : Action → Store → Prop
  | enter (t : ℕ) (hold : σ.handler t = .outside) (hfree : σ.lkR (load.row t) = none) :
      Acted σ (.enter t)
        { σ with
          handler := Function.update σ.handler t .locked
          lkR := acquire σ.lkR (load.row t) (.writer t) }
  | withdraw (t : ℕ) (hold : σ.handler t = .locked) :
      Acted σ (.withdraw t)
        { σ with
          handler := Function.update σ.handler t .withdrawn
          lkR := release σ.lkR (load.row t) }
  | append (t : ℕ) (hold : σ.handler t = .locked) :
      Acted σ (.append t)
        { σ with
          handler := Function.update σ.handler t .logged
          log := σ.log ++ [load.record t] }
  | conduct (t : ℕ) (hold : σ.handler t = .logged) :
      Acted σ (.conduct t)
        { σ with
          handler := Function.update σ.handler t .applied
          tablet := conduct σ.tablet (load.record t)
          hist := σ.hist ++ [t] }
  | leave (t : ℕ) (hold : σ.handler t = .applied) :
      Acted σ (.leave t)
        { σ with
          handler := Function.update σ.handler t .left
          lkR := release σ.lkR (load.row t) }
  | look (g : ℕ) (hold : σ.reading g = false) (hfree : σ.lkR (load.query g).row = none) :
      Acted σ (.look g)
        { σ with
          reading := Function.update σ.reading g true
          lkR := acquire σ.lkR (load.query g).row (.reader g) }
  | unlook (g : ℕ) (hold : σ.reading g = true) :
      Acted σ (.unlook g)
        { σ with
          reading := Function.update σ.reading g false
          lkR := release σ.lkR (load.query g).row }

theorem acted_of_act {σ τ : Store} {a : Action} (h : σ.act load a = some τ) :
    Acted load σ a τ := by
  cases a with
  | enter t =>
    obtain ⟨⟨hold, hfree⟩, heq⟩ := Option.ite_none_right_eq_some.mp h
    cases heq
    exact .enter t hold hfree
  | withdraw t =>
    obtain ⟨hold, heq⟩ := Option.ite_none_right_eq_some.mp h
    cases heq
    exact .withdraw t hold
  | append t =>
    obtain ⟨hold, heq⟩ := Option.ite_none_right_eq_some.mp h
    cases heq
    exact .append t hold
  | conduct t =>
    obtain ⟨hold, heq⟩ := Option.ite_none_right_eq_some.mp h
    cases heq
    exact .conduct t hold
  | leave t =>
    obtain ⟨hold, heq⟩ := Option.ite_none_right_eq_some.mp h
    cases heq
    exact .leave t hold
  | look g =>
    obtain ⟨⟨hold, hfree⟩, heq⟩ := Option.ite_none_right_eq_some.mp h
    cases heq
    exact .look g hold hfree
  | unlook g =>
    obtain ⟨hold, heq⟩ := Option.ite_none_right_eq_some.mp h
    cases heq
    exact .unlook g hold

/-- The actions at one node. -/
def storeMachine : Machine Store Action where
  step := Store.act load

/-- The steps of a handler that is not disturbed. -/
def alone (t : ℕ) : List Action := [.enter t, .append t, .conduct t, .leave t]

/-- Together they are what the handler does as a whole. -/
theorem run_alone {σ : Store} {t : ℕ} (hout : σ.handler t = .outside)
    (hfree : σ.lkR (load.row t) = none) {node : KVNode} (htablet : node.tablet = σ.tablet)
    (hlog : node.log = σ.log) :
    ∃ τ, run (storeMachine load) σ (alone t) = some τ ∧ τ.lkR = σ.lkR ∧
      τ.tablet = (logAndConduct node (load.record t)).tablet ∧
      τ.log = (logAndConduct node (load.record t)).log := by
  have hlkR : release (acquire σ.lkR (load.row t) (.writer t)) (load.row t) = σ.lkR := by
    rw [release, acquire, Function.update_idem, ← hfree]
    exact Function.update_eq_self _ _
  refine ⟨{ σ with
    tablet := conduct σ.tablet (load.record t)
    log := σ.log ++ [load.record t]
    lkR := release (acquire σ.lkR (load.row t) (.writer t)) (load.row t)
    handler := Function.update σ.handler t .left
    hist := σ.hist ++ [t] }, ?_, hlkR, ?_, ?_⟩
  · simp only [alone, run, storeMachine, Store.act, hout, hfree, and_self, if_true,
      Option.bind_some, Function.update_self, Function.update_idem]
  · rw [logAndConduct, htablet]
  · rw [logAndConduct, hlog]

/-- The row whose lock an action is about. -/
def Action.row : Action → Bytes
  | .enter t => load.row t
  | .withdraw t => load.row t
  | .append t => load.row t
  | .conduct t => load.row t
  | .leave t => load.row t
  | .look g => (load.query g).row
  | .unlook g => (load.query g).row

/-- The writer that an action moves. -/
def Action.writer : Action → Option ℕ
  | .enter t => some t
  | .withdraw t => some t
  | .append t => some t
  | .conduct t => some t
  | .leave t => some t
  | .look _ => none
  | .unlook _ => none

theorem acted_handler_of_ne {σ τ : Store} {a : Action} (hact : Acted load σ a τ) {u : ℕ}
    (hu : a.writer ≠ some u) : τ.handler u = σ.handler u := by
  have hne : ∀ t : ℕ, a.writer = some t → u ≠ t := by
    rintro t ht rfl
    exact hu ht
  cases hact with
  | enter t => exact Function.update_of_ne (hne t rfl) _ _
  | withdraw t => exact Function.update_of_ne (hne t rfl) _ _
  | append t => exact Function.update_of_ne (hne t rfl) _ _
  | conduct t => exact Function.update_of_ne (hne t rfl) _ _
  | leave t => exact Function.update_of_ne (hne t rfl) _ _
  | look => rfl
  | unlook => rfl

/-- The writer has changed the tablet. -/
def Store.changed (σ : Store) (t : ℕ) : Bool := σ.handler t = .applied ∨ σ.handler t = .left

/-- Only `conduct` changes the tablet. -/
theorem acted_still {σ τ : Store} {a : Action} (hact : Acted load σ a τ)
    (hnot : ∀ t, a ≠ .conduct t) : τ.hist = σ.hist ∧ τ.changed = σ.changed := by
  have hsame : ∀ {t : ℕ} {handler : Handler}, τ.handler = Function.update σ.handler t handler →
      ((handler = .applied ∨ handler = .left) ↔ (σ.handler t = .applied ∨ σ.handler t = .left)) →
      τ.changed = σ.changed := by
    intro t handler hhandler hiff
    funext u
    by_cases hu : u = t
    · simp only [Store.changed, hhandler, hu, Function.update_self, hiff]
    · simp only [Store.changed, hhandler, Function.update_of_ne hu]
  cases hact with
  | enter t hold => exact ⟨rfl, hsame rfl (by simp [hold])⟩
  | withdraw t hold => exact ⟨rfl, hsame rfl (by simp [hold])⟩
  | append t hold => exact ⟨rfl, hsame rfl (by simp [hold])⟩
  | conduct t => exact absurd rfl (hnot t)
  | leave t hold => exact ⟨rfl, hsame rfl (by simp [hold])⟩
  | look => exact ⟨rfl, rfl⟩
  | unlook => exact ⟨rfl, rfl⟩

/-! ## Locks -/

/-- Who is inside of which row lock. -/
def Inside (σ : Store) : Owner → Bytes → Prop
  | .writer t, row => (σ.handler t).Inside ∧ load.row t = row
  | .reader g, row => σ.reading g = true ∧ (load.query g).row = row

section Moves

variable {σ τ : Store} {t : ℕ} {handler : Handler}
  (hhandler : τ.handler = Function.update σ.handler t handler) (hreading : τ.reading = σ.reading)

include hhandler hreading

/-- A move of a writer, seen from the parties. -/
theorem inside_update (o : Owner) (row : Bytes) :
    Inside load τ o row ↔
      if o = .writer t then handler.Inside ∧ load.row t = row else Inside load σ o row := by
  cases o with
  | reader g => simp [Inside, hreading]
  | writer u =>
    by_cases hu : u = t
    · simp [Inside, hhandler, hu]
    · simp [Inside, hhandler, hu]

theorem inside_stay (hold : (σ.handler t).Inside) (hnew : handler.Inside) (o : Owner)
    (row : Bytes) : Inside load τ o row ↔ Inside load σ o row := by
  apply (inside_update load hhandler hreading o row).trans
  split
  · next ho =>
    subst ho
    simp only [Inside, hold, hnew]
  · rfl

theorem inside_enter (hold : ¬(σ.handler t).Inside) (hnew : handler.Inside) (o : Owner)
    (row : Bytes) :
    Inside load τ o row ↔ Inside load σ o row ∨ (o = .writer t ∧ row = load.row t) := by
  apply (inside_update load hhandler hreading o row).trans
  split
  · next ho =>
    subst ho
    simp only [Inside, hold, hnew, true_and, false_and, false_or]
    exact eq_comm
  · next ho => simp only [ho, false_and, or_false]

theorem inside_leave (hnew : ¬handler.Inside) (o : Owner) (row : Bytes) :
    Inside load τ o row ↔ Inside load σ o row ∧ ¬(o = .writer t ∧ row = load.row t) := by
  apply (inside_update load hhandler hreading o row).trans
  split
  · next ho =>
    subst ho
    simp only [Inside, hnew, false_and, true_and, false_iff, not_and, not_not]
    exact fun hin ↦ hin.2.symm
  · next ho => simp only [ho, false_and, not_false_eq_true, and_true]

end Moves

/-- A change of one reader's flag. -/
theorem inside_reading {σ : Store} {g f : ℕ} (flag : Bool) (row : Bytes) :
    Inside load { σ with reading := Function.update σ.reading g flag } (.reader f) row ↔
      if f = g then flag = true ∧ (load.query f).row = row else Inside load σ (.reader f) row := by
  by_cases hf : f = g
  · rw [if_pos hf]
    simp only [Inside, hf, Function.update_self]
  · rw [if_neg hf]
    simp only [Inside, Function.update_of_ne hf]

theorem act_guards {σ τ : Store} {a : Action} (h : Guards σ.lkR (Inside load σ))
    (hact : Acted load σ a τ) : Guards τ.lkR (Inside load τ) := by
  cases hact with
  | enter t hold hfree =>
    apply h.acquire hfree
    exact inside_enter load rfl rfl (by simp [hold, Handler.Inside]) (.inl rfl)
  | withdraw t hold =>
    apply h.release (t := .writer t) ⟨.inl hold, rfl⟩
    exact inside_leave load rfl rfl (by simp [Handler.Inside])
  | append t hold =>
    apply h.congr
    exact inside_stay load rfl rfl (.inl hold) (.inr (.inl rfl))
  | conduct t hold =>
    apply h.congr
    exact inside_stay load rfl rfl (.inr (.inl hold)) (.inr (.inr rfl))
  | leave t hold =>
    apply h.release (t := .writer t) ⟨.inr (.inr hold), rfl⟩
    exact inside_leave load rfl rfl (by simp [Handler.Inside])
  | look g hold hfree =>
    apply h.acquire hfree
    intro o row
    cases o with
    | writer u => simp [Inside]
    | reader f =>
      apply (inside_reading load true row).trans
      by_cases hf : f = g
      · subst hf
        simp only [if_true, Inside, hold, Bool.false_eq_true, false_and, true_and, false_or]
        exact eq_comm
      · simp only [hf, if_false, Owner.reader.injEq, false_and, or_false]
  | unlook g hold =>
    apply h.release (t := .reader g) ⟨hold, rfl⟩
    intro o row
    cases o with
    | writer u => simp [Inside]
    | reader f =>
      apply (inside_reading load false row).trans
      by_cases hf : f = g
      · subst hf
        simp only [if_true, Inside, Bool.false_eq_true, false_and, true_and, false_iff, not_and,
          not_not]
        exact fun hrow ↦ hrow.2.symm
      · simp only [hf, if_false, Owner.reader.injEq, false_and, not_false_eq_true, and_true]

/-- Two writers inside of one row lock are the same. -/
theorem eq_of_inside {σ : Store} (h : Guards σ.lkR (Inside load σ)) {t u : ℕ}
    (ht : (σ.handler t).Inside) (hu : (σ.handler u).Inside) (hrow : load.row t = load.row u) :
    t = u := by
  have howner : Owner.writer t = .writer u := h.unique ⟨ht, hrow⟩ ⟨hu, rfl⟩
  exact Owner.writer.inj howner

/-- The row of a reader is held by no writer, neither before nor after its action. -/
theorem acted_reader {σ τ : Store} {a : Action} (h : Guards σ.lkR (Inside load σ))
    (hact : Acted load σ a τ) (hreader : a.writer = none) (t : ℕ) :
    σ.lkR (a.row load) ≠ some (.writer t) ∧ τ.lkR (a.row load) ≠ some (.writer t) := by
  cases hact with
  | enter => cases hreader
  | withdraw => cases hreader
  | append => cases hreader
  | conduct => cases hreader
  | leave => cases hreader
  | look g hold hfree =>
    have hheld : acquire σ.lkR (load.query g).row (.reader g) (load.query g).row =
        some (.reader g) := Function.update_self _ _ _
    simp only [Action.row, hfree, hheld]
    exact ⟨nofun, nofun⟩
  | unlook g hold =>
    have hheld : σ.lkR (load.query g).row = some (.reader g) := (h _ _).mpr ⟨hold, rfl⟩
    have hfree : release σ.lkR (load.query g).row (load.query g).row = none :=
      Function.update_self _ _ _
    simp only [Action.row, hheld, hfree]
    exact ⟨nofun, nofun⟩

/-! ## One row -/

/-- The writers that changed a row, in order. -/
def Store.rowHist (σ : Store) (row : Bytes) : List ℕ := σ.hist.filter fun t ↦ load.row t = row

def Store.rowLog (σ : Store) (row : Bytes) : List LogRecord :=
  σ.log.filter fun record ↦ record.row = row

/-- What an action on another row leaves as it is. -/
structure SameRow (row : Bytes) (σ τ : Store) : Prop where
  lkR : τ.lkR row = σ.lkR row
  rowHist : τ.rowHist load row = σ.rowHist load row
  rowLog : τ.rowLog row = σ.rowLog row
  handler : ∀ t, load.row t = row → τ.handler t = σ.handler t

theorem rowHist_concat (σ : Store) (t : ℕ) (row : Bytes) :
    (σ.hist ++ [t]).filter (fun u ↦ load.row u = row) =
      σ.rowHist load row ++ if load.row t = row then [t] else [] := by
  rw [List.filter_append, List.filter_singleton]
  by_cases hrow : load.row t = row
  · simp only [hrow, decide_true, if_true, Store.rowHist, cond_true]
  · simp only [hrow, decide_false, if_false, Store.rowHist, cond_false]

theorem rowLog_concat (σ : Store) (record : LogRecord) (row : Bytes) :
    (σ.log ++ [record]).filter (fun record ↦ record.row = row) =
      σ.rowLog row ++ if record.row = row then [record] else [] := by
  rw [List.filter_append, List.filter_singleton]
  by_cases hrow : record.row = row
  · simp only [hrow, decide_true, if_true, Store.rowLog, cond_true]
  · simp only [hrow, decide_false, if_false, Store.rowLog, cond_false]

theorem update_handler_of_row {σ : Store} {t : ℕ} {row : Bytes} (hne : row ≠ load.row t)
    (handler : Handler) (u : ℕ) (hu : load.row u = row) :
    Function.update σ.handler t handler u = σ.handler u := by
  apply Function.update_of_ne
  intro heq
  exact hne (heq ▸ hu.symm)

theorem act_sameRow {σ τ : Store} {a : Action} (hact : Acted load σ a τ) {row : Bytes}
    (hne : row ≠ a.row load) : SameRow load row σ τ := by
  cases hact with
  | enter t hold hfree =>
    exact ⟨Function.update_of_ne hne _ _, rfl, rfl, update_handler_of_row load hne _⟩
  | withdraw t hold =>
    exact ⟨Function.update_of_ne hne _ _, rfl, rfl, update_handler_of_row load hne _⟩
  | append t hold =>
    refine ⟨rfl, rfl, ?_, update_handler_of_row load hne _⟩
    have hother : ¬(load.record t).row = row := fun heq ↦ hne heq.symm
    simp only [Store.rowLog, rowLog_concat, if_neg hother, List.append_nil]
  | conduct t hold =>
    refine ⟨rfl, ?_, rfl, update_handler_of_row load hne _⟩
    have hother : ¬load.row t = row := fun heq ↦ hne heq.symm
    calc
      _ = σ.rowHist load row ++ if load.row t = row then [t] else [] := rowHist_concat load σ t row
      _ = σ.rowHist load row := by rw [if_neg hother, List.append_nil]
  | leave t hold =>
    exact ⟨Function.update_of_ne hne _ _, rfl, rfl, update_handler_of_row load hne _⟩
  | look g hold hfree =>
    exact ⟨Function.update_of_ne hne _ _, rfl, rfl, fun _ _ ↦ rfl⟩
  | unlook g hold =>
    exact ⟨Function.update_of_ne hne _ _, rfl, rfl, fun _ _ ↦ rfl⟩

/-- What `conduct` does to its row. -/
structure Conducted (t : ℕ) (σ τ : Store) : Prop where
  before : σ.handler t = .logged
  rowHist : τ.rowHist load (load.row t) = σ.rowHist load (load.row t) ++ [t]
  changed : τ.changed t = true
  lkR : τ.lkR = σ.lkR

theorem acted_conduct {σ τ : Store} {t : ℕ} (hact : Acted load σ (.conduct t) τ) :
    Conducted load t σ τ := by
  cases hact with
  | conduct _ hold =>
    refine ⟨hold, ?_, ?_, rfl⟩
    · apply (rowHist_concat load σ t (load.row t)).trans
      rw [if_pos rfl]
    · simp [Store.changed]

/-! ## The writer of a row -/

/-- The writer that holds the lock of a row, where `p` is true of it. -/
def holder (lk : LockTable Bytes Owner) (row : Bytes) (p : ℕ → Bool) : List ℕ :=
  match lk row with
  | some (.writer t) => if p t then [t] else []
  | some (.reader _) => []
  | none => []

theorem holder_of_writer {lk : LockTable Bytes Owner} {row : Bytes} {t : ℕ}
    (h : lk row = some (.writer t)) (p : ℕ → Bool) :
    holder lk row p = if p t then [t] else [] := by
  simp only [holder, h]

theorem holder_of_reader {lk : LockTable Bytes Owner} {row : Bytes} {g : ℕ}
    (h : lk row = some (.reader g)) (p : ℕ → Bool) : holder lk row p = [] := by
  simp only [holder, h]

theorem holder_of_free {lk : LockTable Bytes Owner} {row : Bytes} (h : lk row = none)
    (p : ℕ → Bool) : holder lk row p = [] := by
  simp only [holder, h]

/-- The holder is the same where nothing about the writers of the row changes. -/
theorem holder_congr {σ : Store} (h : Guards σ.lkR (Inside load σ)) {row : Bytes}
    {lk : LockTable Bytes Owner} (hlk : lk row = σ.lkR row) {p q : ℕ → Bool}
    (hp : ∀ t, load.row t = row → q t = p t) : holder lk row q = holder σ.lkR row p := by
  unfold holder
  rw [hlk]
  split
  · next t hheld =>
    have hin : Inside load σ (.writer t) row := (h row _).mp hheld
    rw [hp t hin.2]
  · rfl
  · rfl

theorem holder_self {σ : Store} (h : Guards σ.lkR (Inside load σ)) {t : ℕ}
    (hin : (σ.handler t).Inside) (p : ℕ → Bool) :
    holder σ.lkR (load.row t) p = if p t then [t] else [] := by
  apply holder_of_writer
  exact (h _ _).mpr ⟨hin, rfl⟩

/-! ## The log and the tablet of a node -/

/-- The handler has appended its record, but not applied it. -/
def Store.behind (σ : Store) (t : ℕ) : Bool := σ.handler t = .logged

/-- The invariant of a node that began with tablet `T`: in each row, the log is what changed
the row, and the record of a handler that is about to. -/
structure NodeInv (T : Tablet) (σ : Store) : Prop where
  guards : Guards σ.lkR (Inside load σ)
  tablet : σ.tablet = (σ.hist.map load.record).foldl conduct T
  rows : ∀ row, σ.rowLog row =
    (σ.rowHist load row ++ holder σ.lkR row σ.behind).map load.record

theorem nodeInv_start (T : Tablet) : NodeInv load T { tablet := T } where
  guards := by
    intro row o
    cases o with
    | writer t => simp [Inside, Handler.Inside]
    | reader g => simp [Inside]
  tablet := rfl
  rows := fun _ ↦ rfl

/-- A row of which neither the log nor the order of its writers changes. -/
theorem rows_keep {σ τ : Store} {row : Bytes}
    (h : σ.rowLog row = (σ.rowHist load row ++ holder σ.lkR row σ.behind).map load.record)
    (hlog : τ.rowLog row = σ.rowLog row) (hhist : τ.rowHist load row = σ.rowHist load row)
    (hholder : holder τ.lkR row τ.behind = holder σ.lkR row σ.behind) :
    τ.rowLog row = (τ.rowHist load row ++ holder τ.lkR row τ.behind).map load.record := by
  rw [hlog, h, hhist, hholder]

/-- The row of an action. -/
theorem act_rows {T : Tablet} {σ τ : Store} {a : Action} (h : NodeInv load T σ)
    (hact : Acted load σ a τ) :
    τ.rowLog (a.row load) =
      (τ.rowHist load (a.row load) ++ holder τ.lkR (a.row load) τ.behind).map load.record := by
  have hrow := h.rows (a.row load)
  have hguards := act_guards load h.guards hact
  cases hact with
  | enter t hold hfree =>
    refine rows_keep load hrow rfl rfl ?_
    calc
      _ = [] := by
        apply (holder_self load hguards (.inl (Function.update_self _ _ _)) _).trans
        simp [Store.behind]
      _ = holder σ.lkR (load.row t) σ.behind := (holder_of_free hfree _).symm
  | withdraw t hold =>
    refine rows_keep load hrow rfl rfl ?_
    calc
      _ = [] := holder_of_free (Function.update_self _ _ _) _
      _ = holder σ.lkR (load.row t) σ.behind := by
        rw [holder_self load h.guards (.inl hold)]
        simp [Store.behind, hold]
  | append t hold =>
    have hbefore : holder σ.lkR (load.row t) σ.behind = [] := by
      rw [holder_self load h.guards (.inl hold)]
      simp [Store.behind, hold]
    rw [Action.row, hbefore, List.append_nil] at hrow
    rw [Action.row, holder_self load hguards (.inr (.inl (Function.update_self _ _ _)))]
    calc
      _ = σ.rowLog (load.row t) ++ [load.record t] := by
        apply (rowLog_concat σ (load.record t) (load.row t)).trans
        rw [Load.row, if_pos rfl]
      _ = (σ.rowHist load (load.row t) ++ [t]).map load.record := by
        rw [hrow, List.map_append]
        rfl
      _ = _ := by simp [Store.behind, Store.rowHist]
  | conduct t hold =>
    have hbefore : holder σ.lkR (load.row t) σ.behind = [t] := by
      rw [holder_self load h.guards (.inr (.inl hold))]
      simp [Store.behind, hold]
    rw [Action.row, hbefore] at hrow
    rw [Action.row, holder_self load hguards (.inr (.inr (Function.update_self _ _ _)))]
    calc
      _ = σ.rowLog (load.row t) := rfl
      _ = (σ.rowHist load (load.row t) ++ [t]).map load.record := hrow
      _ = ((σ.hist ++ [t]).filter fun u ↦ load.row u = load.row t).map load.record := by
        rw [rowHist_concat, if_pos rfl]
      _ = _ := by simp [Store.behind, Store.rowHist]
  | leave t hold =>
    refine rows_keep load hrow rfl rfl ?_
    calc
      _ = [] := holder_of_free (Function.update_self _ _ _) _
      _ = holder σ.lkR (load.row t) σ.behind := by
        rw [holder_self load h.guards (.inr (.inr hold))]
        simp [Store.behind, hold]
  | look g hold hfree =>
    refine rows_keep load hrow rfl rfl ?_
    calc
      _ = [] := holder_of_reader (Function.update_self _ _ _) _
      _ = holder σ.lkR (load.query g).row σ.behind := (holder_of_free hfree _).symm
  | unlook g hold =>
    refine rows_keep load hrow rfl rfl ?_
    have hheld : σ.lkR (load.query g).row = some (.reader g) := (h.guards _ _).mpr ⟨hold, rfl⟩
    calc
      _ = [] := holder_of_free (Function.update_self _ _ _) _
      _ = holder σ.lkR (load.query g).row σ.behind := (holder_of_reader hheld _).symm

/-- The step lemma of a node. -/
theorem NodeInv.act {T : Tablet} {σ τ : Store} {a : Action} (h : NodeInv load T σ)
    (hact : Acted load σ a τ) : NodeInv load T τ where
  guards := act_guards load h.guards hact
  tablet := by
    cases hact with
    | conduct t hold =>
      rw [List.map_append, List.foldl_append, ← h.tablet]
      rfl
    | enter => exact h.tablet
    | withdraw => exact h.tablet
    | append => exact h.tablet
    | leave => exact h.tablet
    | look => exact h.tablet
    | unlook => exact h.tablet
  rows := by
    intro row
    by_cases hrow : row = a.row load
    · subst hrow
      exact act_rows load h hact
    · have hsame := act_sameRow load hact hrow
      apply rows_keep load (h.rows row) hsame.rowLog hsame.rowHist
      apply holder_congr load h.guards hsame.lkR
      intro t ht
      rw [Store.behind, hsame.handler t ht, Store.behind]

/-- Where no record waits to be applied, the log rebuilds the tablet. -/
theorem NodeInv.sameRows {T : Tablet} {σ : Store} (h : NodeInv load T σ)
    (hquiet : ∀ t, σ.behind t = false) : SameRows (σ.log.foldl conduct T) σ.tablet := by
  intro row
  have hnone : holder σ.lkR row σ.behind = [] := by
    unfold holder
    split
    · next t _ => rw [hquiet t, if_neg Bool.false_ne_true]
    · rfl
    · rfl
  have hrow := h.rows row
  rw [hnone, List.append_nil] at hrow
  have horder : (σ.log.filter fun record ↦ record.row = row) =
      (σ.hist.map load.record).filter fun record ↦ record.row = row := by
    rw [List.filter_map]
    exact hrow
  rw [h.tablet, foldl_conduct_rowView, foldl_conduct_rowView, horder]

/-- The content of a cell is what the writers of its row left there. -/
theorem NodeInv.cells_eq {T : Tablet} {σ : Store} (h : NodeInv load T σ) (key : Bytes × Bytes) :
    cells σ.tablet key = replay (cells T) ((σ.rowHist load key.1).map load.record) key := by
  have hrows : (σ.rowHist load key.1).map load.record =
      (σ.hist.map load.record).filter fun record ↦ record.row = key.1 := by
    rw [List.filter_map]
    rfl
  rw [h.tablet, foldl_conduct_cells, hrows]
  symm
  apply replay_filter
  intro record hkey
  exact decide_eq_true (congrArg Prod.fst hkey)

end PennCloud.Replication.NodeActions
