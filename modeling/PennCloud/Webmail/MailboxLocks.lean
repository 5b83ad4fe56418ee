import PennCloud.Webmail.Delivery
import PennCloud.Library.Locks

/-!
# Workers that append to the same mailboxes

At the end of a message a worker goes through the recipients: it opens the mailbox, takes the lock of the
file and then the mutex of the user, writes through a buffer, closes the file and gives both
back. The lock of the file goes with the last descriptor, so that it is free from `fclose` on, and the
`flock` that follows is one on a descriptor number which may by then belong to another worker,
whose lock it takes away. The mutex alone keeps the messages apart: the mailboxes are what they would
be if every message were appended at once.
-/

open PennCloud.KV.TabletCells PennCloud.Library.Runs PennCloud.Library.Locks
open PennCloud.Webmail.MailServer PennCloud.Webmail.Delivery

namespace PennCloud.Webmail.MailboxLocks

/-! ## The workers -/

/-- How far a worker is at the end of a message: the recipient, the descriptor of its mailbox, the
recipients that follow. -/
inductive Phase
  | idle
  | next (rcptTo : List (Bytes × Bytes))
  | opened (rcpt : Bytes × Bytes) (fd : ℕ) (rest : List (Bytes × Bytes))
  | flocked (rcpt : Bytes × Bytes) (fd : ℕ) (rest : List (Bytes × Bytes))
  | locked (rcpt : Bytes × Bytes) (fd : ℕ) (rest : List (Bytes × Bytes)) (unwritten : Bytes)
  | closed (rcpt : Bytes × Bytes) (fd : ℕ) (rest : List (Bytes × Bytes))
  | unlocked (fd : ℕ) (rest : List (Bytes × Bytes))
  deriving DecidableEq

/-- What a descriptor number stands for: the mailbox that a worker has opened, or something else. -/
inductive Description
  | mailbox (t : ℕ)
  | other
  deriving DecidableEq

structure Server where
  files : Bytes → Bytes
  userLocks : LockTable ℕ ℕ := fun _ ↦ none
  flocks : LockTable Bytes ℕ := fun _ ↦ none
  fds : ℕ → Option Description := fun _ ↦ none
  phase : ℕ → Phase := fun _ ↦ .idle
  data : ℕ → Bytes := fun _ ↦ []
  effects : List (ℕ × Effect) := []

inductive Event
  | finish (t : ℕ) (rcptTo : List (Bytes × Bytes)) (data : Bytes)
  | pass (t : ℕ)
  | fopen (t fd : ℕ)
  | flock (t : ℕ)
  | lock (t : ℕ)
  | write (t n : ℕ)
  | fclose (t : ℕ)
  | unlock (t : ℕ)
  | unflock (t : ℕ)
  | reply (t : ℕ)
  | occupy (fd : ℕ)
  | vacate (fd : ℕ)
  deriving DecidableEq

def Server.toPhase (s : Server) (t : ℕ) (phase : Phase) : Server :=
  { s with phase := Function.update s.phase t phase }

def Server.emit (s : Server) (t : ℕ) (effects : List Effect) : Server :=
  { s with effects := s.effects ++ effects.map fun effect ↦ (t, effect) }

section Steps

variable (site : Site)

/-- A local user whose mailbox is to be opened. -/
def IsLocal (rcpt : Bytes × Bytes) : Prop := rcpt.1 ∈ site.localhostUsers ∧ rcpt.2 = lit "localhost"

instance (rcpt : Bytes × Bytes) : Decidable (IsLocal site rcpt) :=
  inferInstanceAs (Decidable (_ ∧ _))

/-- `user_idx`. -/
def userIdx (rcpt : Bytes × Bytes) : ℕ := site.localhostUsers.idxOf rcpt.1

/-- The mailbox of the file that worker `t` has open. -/
def pathOf : Phase → Option Bytes
  | .opened rcpt _ _ => some (mailbox site rcpt.1)
  | .flocked rcpt _ _ => some (mailbox site rcpt.1)
  | .locked rcpt _ _ _ => some (mailbox site rcpt.1)
  | _ => none

/-- The lock that an open file holds is given back. -/
def releaseFlock (s : Server) (t : ℕ) : LockTable Bytes ℕ :=
  match pathOf site (s.phase t) with
  | some path => if s.flocks path = some t then release s.flocks path else s.flocks
  | none => s.flocks

/-- `fopen` may fail whenever it is called; all writes succeed. -/
def Server.step (s : Server) : Event → Option Server
  | .finish t rcptTo data =>
    if s.phase t = .idle then
      some { s.toPhase t (.next rcptTo) with data := Function.update s.data t data }
    else none
  | .pass t =>
    match s.phase t with
    | .next (rcpt :: rest) =>
      some ((s.toPhase t (.next rest)).emit t (deliver site (s.data t) false rcpt))
    | _ => none
  | .fopen t fd =>
    match s.phase t with
    | .next (rcpt :: rest) =>
      if IsLocal site rcpt ∧ s.fds fd = none then
        some { s.toPhase t (.opened rcpt fd rest) with
          fds := Function.update s.fds fd (some (.mailbox t)) }
      else none
    | _ => none
  | .flock t =>
    match s.phase t with
    | .opened rcpt fd rest =>
      if s.flocks (mailbox site rcpt.1) = none then
        some { s.toPhase t (.flocked rcpt fd rest) with
          flocks := acquire s.flocks (mailbox site rcpt.1) t }
      else none
    | _ => none
  | .lock t =>
    match s.phase t with
    | .flocked rcpt fd rest =>
      if s.userLocks (userIdx site rcpt) = none then
        some { (s.toPhase t (.locked rcpt fd rest (s.data t))).emit t
            (deliver site (s.data t) true rcpt) with
          userLocks := acquire s.userLocks (userIdx site rcpt) t }
      else none
    | _ => none
  | .write t n =>
    match s.phase t with
    | .locked rcpt fd rest unwritten =>
      some { s.toPhase t (.locked rcpt fd rest (unwritten.drop n)) with
        files := Function.update s.files (mailbox site rcpt.1)
          (s.files (mailbox site rcpt.1) ++ unwritten.take n) }
    | _ => none
  | .fclose t =>
    match s.phase t with
    | .locked rcpt fd rest [] =>
      some { s.toPhase t (.closed rcpt fd rest) with
        flocks := releaseFlock site s t
        fds := Function.update s.fds fd none }
    | _ => none
  | .unlock t =>
    match s.phase t with
    | .closed rcpt fd rest =>
      some { s.toPhase t (.unlocked fd rest) with
        userLocks := release s.userLocks (userIdx site rcpt) }
    | _ => none
  | .unflock t =>
    match s.phase t with
    | .unlocked fd rest =>
      some { s.toPhase t (.next rest) with
        flocks :=
          match s.fds fd with
          | some (.mailbox t') => releaseFlock site s t'
          | _ => s.flocks }
    | _ => none
  | .reply t =>
    match s.phase t with
    | .next [] => some ((s.toPhase t .idle).emit t [.send MailServer.ok])
    | _ => none
  | .occupy fd =>
    if s.fds fd = none then some { s with fds := Function.update s.fds fd (some .other) } else none
  | .vacate fd =>
    if s.fds fd = some .other then some { s with fds := Function.update s.fds fd none } else none

def machine : Machine Server Event where
  step := Server.step site

/-- The steps, with their conditions. -/
inductive Stepped (s : Server) : Event → Server → Prop
  | finish (t : ℕ) (rcptTo : List (Bytes × Bytes)) (data : Bytes) (hphase : s.phase t = .idle) :
      Stepped s (.finish t rcptTo data)
        { s.toPhase t (.next rcptTo) with data := Function.update s.data t data }
  | pass (t : ℕ) (rcpt : Bytes × Bytes) (rest : List (Bytes × Bytes))
      (hphase : s.phase t = .next (rcpt :: rest)) :
      Stepped s (.pass t) ((s.toPhase t (.next rest)).emit t (deliver site (s.data t) false rcpt))
  | fopen (t fd : ℕ) (rcpt : Bytes × Bytes) (rest : List (Bytes × Bytes))
      (hphase : s.phase t = .next (rcpt :: rest)) (hlocal : IsLocal site rcpt)
      (hfree : s.fds fd = none) :
      Stepped s (.fopen t fd)
        { s.toPhase t (.opened rcpt fd rest) with
          fds := Function.update s.fds fd (some (.mailbox t)) }
  | flock (t fd : ℕ) (rcpt : Bytes × Bytes) (rest : List (Bytes × Bytes))
      (hphase : s.phase t = .opened rcpt fd rest)
      (hfree : s.flocks (mailbox site rcpt.1) = none) :
      Stepped s (.flock t)
        { s.toPhase t (.flocked rcpt fd rest) with
          flocks := acquire s.flocks (mailbox site rcpt.1) t }
  | lock (t fd : ℕ) (rcpt : Bytes × Bytes) (rest : List (Bytes × Bytes))
      (hphase : s.phase t = .flocked rcpt fd rest)
      (hfree : s.userLocks (userIdx site rcpt) = none) :
      Stepped s (.lock t)
        { (s.toPhase t (.locked rcpt fd rest (s.data t))).emit t
            (deliver site (s.data t) true rcpt) with
          userLocks := acquire s.userLocks (userIdx site rcpt) t }
  | write (t n fd : ℕ) (rcpt : Bytes × Bytes) (rest : List (Bytes × Bytes)) (unwritten : Bytes)
      (hphase : s.phase t = .locked rcpt fd rest unwritten) :
      Stepped s (.write t n)
        { s.toPhase t (.locked rcpt fd rest (unwritten.drop n)) with
          files := Function.update s.files (mailbox site rcpt.1)
            (s.files (mailbox site rcpt.1) ++ unwritten.take n) }
  | fclose (t fd : ℕ) (rcpt : Bytes × Bytes) (rest : List (Bytes × Bytes))
      (hphase : s.phase t = .locked rcpt fd rest []) :
      Stepped s (.fclose t)
        { s.toPhase t (.closed rcpt fd rest) with
          flocks := releaseFlock site s t
          fds := Function.update s.fds fd none }
  | unlock (t fd : ℕ) (rcpt : Bytes × Bytes) (rest : List (Bytes × Bytes))
      (hphase : s.phase t = .closed rcpt fd rest) :
      Stepped s (.unlock t)
        { s.toPhase t (.unlocked fd rest) with
          userLocks := release s.userLocks (userIdx site rcpt) }
  | unflock (t fd : ℕ) (rest : List (Bytes × Bytes)) (flocks : LockTable Bytes ℕ)
      (hphase : s.phase t = .unlocked fd rest)
      (hflocks : flocks = s.flocks ∨ ∃ t', flocks = releaseFlock site s t') :
      Stepped s (.unflock t) { s.toPhase t (.next rest) with flocks := flocks }
  | reply (t : ℕ) (hphase : s.phase t = .next []) :
      Stepped s (.reply t) ((s.toPhase t .idle).emit t [.send MailServer.ok])
  | occupy (fd : ℕ) (hfree : s.fds fd = none) :
      Stepped s (.occupy fd) { s with fds := Function.update s.fds fd (some .other) }
  | vacate (fd : ℕ) (hother : s.fds fd = some .other) :
      Stepped s (.vacate fd) { s with fds := Function.update s.fds fd none }

theorem stepped_of_step {s s' : Server} {e : Event} (h : s.step site e = some s') :
    Stepped site s e s' := by
  cases e with
  | finish t rcptTo data =>
    obtain ⟨hphase, heq⟩ := Option.ite_none_right_eq_some.mp h
    cases heq
    exact .finish t rcptTo data hphase
  | pass t =>
    simp only [Server.step] at h
    split at h
    · next rcpt rest hphase =>
      cases h
      exact .pass t rcpt rest hphase
    · cases h
  | fopen t fd =>
    simp only [Server.step] at h
    split at h
    · next rcpt rest hphase =>
      obtain ⟨⟨hlocal, hfree⟩, heq⟩ := Option.ite_none_right_eq_some.mp h
      cases heq
      exact .fopen t fd rcpt rest hphase hlocal hfree
    · cases h
  | flock t =>
    simp only [Server.step] at h
    split at h
    · next rcpt fd rest hphase =>
      obtain ⟨hfree, heq⟩ := Option.ite_none_right_eq_some.mp h
      cases heq
      exact .flock t fd rcpt rest hphase hfree
    · cases h
  | lock t =>
    simp only [Server.step] at h
    split at h
    · next rcpt fd rest hphase =>
      obtain ⟨hfree, heq⟩ := Option.ite_none_right_eq_some.mp h
      cases heq
      exact .lock t fd rcpt rest hphase hfree
    · cases h
  | write t n =>
    simp only [Server.step] at h
    split at h
    · next rcpt fd rest unwritten hphase =>
      cases h
      exact .write t n fd rcpt rest unwritten hphase
    · cases h
  | fclose t =>
    simp only [Server.step] at h
    split at h
    · next rcpt fd rest hphase =>
      cases h
      exact .fclose t fd rcpt rest hphase
    · cases h
  | unlock t =>
    simp only [Server.step] at h
    split at h
    · next rcpt fd rest hphase =>
      cases h
      exact .unlock t fd rcpt rest hphase
    · cases h
  | unflock t =>
    simp only [Server.step] at h
    split at h
    · next fd rest hphase =>
      cases h
      refine .unflock t fd rest _ hphase ?_
      split
      · next t' _ => exact .inr ⟨t', rfl⟩
      · exact .inl rfl
    · cases h
  | reply t =>
    simp only [Server.step] at h
    split at h
    · next hphase =>
      cases h
      exact .reply t hphase
    · cases h
  | occupy fd =>
    obtain ⟨hfree, heq⟩ := Option.ite_none_right_eq_some.mp h
    cases heq
    exact .occupy fd hfree
  | vacate fd =>
    obtain ⟨hother, heq⟩ := Option.ite_none_right_eq_some.mp h
    cases heq
    exact .vacate fd hother

end Steps

/-! ## Who holds what -/

section Locked

variable (site : Site)

/-- The mutex that a worker holds. -/
def mutexOf : Phase → Option ℕ
  | .locked rcpt _ _ _ => some (userIdx site rcpt)
  | .closed rcpt _ _ => some (userIdx site rcpt)
  | _ => none

/-- The mailbox that a worker is writing to, and what is still in its buffer. -/
def writing : Phase → Option (Bytes × Bytes)
  | .locked rcpt _ _ unwritten => some (mailbox site rcpt.1, unwritten)
  | _ => none

/-- The recipient whose mailbox has been opened. -/
def recipient : Phase → Option (Bytes × Bytes)
  | .opened rcpt _ _ => some rcpt
  | .flocked rcpt _ _ => some rcpt
  | .locked rcpt _ _ _ => some rcpt
  | .closed rcpt _ _ => some rcpt
  | _ => none

/-- The worker is between `flock` and `fclose`. -/
def MayHoldFlock (path : Bytes) : Phase → Prop
  | .flocked rcpt _ _ => mailbox site rcpt.1 = path
  | .locked rcpt _ _ _ => mailbox site rcpt.1 = path
  | _ => False

structure Inv (s : Server) : Prop where
  mutex : Guards s.userLocks fun t i ↦ mutexOf site (s.phase t) = some i
  locals : ∀ t rcpt, recipient (s.phase t) = some rcpt → IsLocal site rcpt
  flocks : ∀ path t, s.flocks path = some t → MayHoldFlock site path (s.phase t)

variable {site} {s s' : Server} {t : ℕ} {e : Event}

theorem start_inv (files : Bytes → Bytes) : Inv site { files := files } where
  mutex := by
    intro i t
    constructor
    · intro h
      cases h
    · intro h
      cases h
  locals := by
    intro t rcpt h
    cases h
  flocks := by
    intro path t h
    cases h

/-- No lock is taken here, and the worker's own on its file is given back. -/
theorem releaseFlock_some {t' : ℕ} {path : Bytes} {u : ℕ}
    (h : releaseFlock site s t' path = some u) :
    s.flocks path = some u ∧ (u = t' → pathOf site (s.phase t') ≠ some path) := by
  cases hpath : pathOf site (s.phase t') with
  | none =>
    rw [releaseFlock, hpath] at h
    exact ⟨h, fun _ ↦ (Option.some_ne_none path).symm⟩
  | some path' =>
    simp only [releaseFlock, hpath] at h
    split at h
    · by_cases hp : path = path'
      · rw [hp, release, Function.update_self] at h
        cases h
      · rw [release, Function.update_of_ne hp] at h
        exact ⟨h, fun _ heq ↦ hp (Option.some.inj heq).symm⟩
    · next hnot =>
      refine ⟨h, ?_⟩
      rintro rfl heq
      obtain rfl := Option.some.inj heq
      exact hnot h

theorem toPhase_self (s : Server) (t : ℕ) (phase : Phase) : (s.toPhase t phase).phase t = phase :=
  Function.update_self _ _ _

theorem toPhase_of_ne (s : Server) {t u : ℕ} (hu : u ≠ t) (phase : Phase) :
    (s.toPhase t phase).phase u = s.phase u :=
  Function.update_of_ne hu _ _

/-- A worker moves on without the mutex, or with it. -/
theorem Inv.mutex_stay (h : Inv site s) {phase : Phase}
    (hsame : mutexOf site phase = mutexOf site (s.phase t)) :
    Guards s.userLocks fun u i ↦ mutexOf site ((s.toPhase t phase).phase u) = some i := by
  refine h.mutex.congr fun u i ↦ ?_
  by_cases hu : u = t
  · rw [hu, toPhase_self, hsame]
  · rw [toPhase_of_ne s hu]

theorem Inv.locals_toPhase (h : Inv site s) {phase : Phase}
    (hphase : ∀ rcpt, recipient phase = some rcpt → IsLocal site rcpt) (u : ℕ) (rcpt : Bytes × Bytes)
    (hrcpt : recipient ((s.toPhase t phase).phase u) = some rcpt) : IsLocal site rcpt := by
  by_cases hu : u = t
  · rw [hu, toPhase_self] at hrcpt
    exact hphase rcpt hrcpt
  · rw [toPhase_of_ne s hu] at hrcpt
    exact h.locals u rcpt hrcpt

/-- The locks of files are those from before or fewer, and the worker keeps its own. -/
theorem Inv.flocks_toPhase (h : Inv site s) {phase : Phase} {flocks : LockTable Bytes ℕ}
    (hfewer : ∀ path u, flocks path = some u → s.flocks path = some u)
    (hown : ∀ path, flocks path = some t → MayHoldFlock site path (s.phase t) →
      MayHoldFlock site path phase) (path : Bytes) (u : ℕ) (hflock : flocks path = some u) :
    MayHoldFlock site path ((s.toPhase t phase).phase u) := by
  have hold := h.flocks path u (hfewer path u hflock)
  by_cases hu : u = t
  · subst hu
    rw [toPhase_self]
    exact hown path hflock hold
  · rwa [toPhase_of_ne s hu]

/-- The recipient is the same, or there is none any more. -/
theorem Inv.locals_stay (h : Inv site s) {phase : Phase}
    (hsame : recipient phase = recipient (s.phase t) ∨ recipient phase = none) (rcpt : Bytes × Bytes)
    (hrcpt : recipient phase = some rcpt) : IsLocal site rcpt := by
  rcases hsame with hsame | hnone
  · exact h.locals t rcpt (hsame ▸ hrcpt)
  · rw [hnone] at hrcpt
    cases hrcpt

theorem Inv.step (h : Inv site s) (hstep : Stepped site s e s') : Inv site s' := by
  cases hstep with
  | finish t rcptTo data hphase =>
    refine ⟨h.mutex_stay ?_, h.locals_toPhase (h.locals_stay (t := t) (.inr rfl)), ?_⟩
    · rw [hphase]
      rfl
    · refine h.flocks_toPhase (fun _ _ hflock ↦ hflock) fun path _ hold ↦ ?_
      rw [hphase] at hold
      exact hold
  | pass t rcpt rest hphase =>
    refine ⟨h.mutex_stay ?_, h.locals_toPhase (h.locals_stay (t := t) (.inr rfl)), ?_⟩
    · rw [hphase]
      rfl
    · refine h.flocks_toPhase (fun _ _ hflock ↦ hflock) fun path _ hold ↦ ?_
      rw [hphase] at hold
      exact hold
  | fopen t fd rcpt rest hphase hlocal hfree =>
    refine ⟨h.mutex_stay ?_, h.locals_toPhase fun rcpt' hrcpt ↦ ?_, ?_⟩
    · rw [hphase]
      rfl
    · obtain rfl := Option.some.inj hrcpt
      exact hlocal
    · refine h.flocks_toPhase (fun _ _ hflock ↦ hflock) fun path _ hold ↦ ?_
      rw [hphase] at hold
      exact hold
  | flock t fd rcpt rest hphase hfree =>
    refine ⟨h.mutex_stay ?_, h.locals_toPhase (h.locals_stay (t := t) (.inl ?_)), ?_⟩
    · rw [hphase]
      rfl
    · rw [hphase]
      rfl
    · intro path u hflock
      by_cases hp : path = mailbox site rcpt.1
      · rw [hp] at hflock ⊢
        simp only [acquire, Function.update_self] at hflock
        obtain rfl := Option.some.inj hflock
        rw [toPhase_self]
        exact rfl
      · simp only [acquire, Function.update_of_ne hp] at hflock
        have hnone : ∀ path', s.flocks path' = some t → MayHoldFlock site path' (s.phase t) →
            MayHoldFlock site path' (.flocked rcpt fd rest) := by
          intro path' _ hold
          rw [hphase] at hold
          exact hold.elim
        exact h.flocks_toPhase (fun _ _ hf ↦ hf) hnone path u hflock
  | lock t fd rcpt rest hphase hfree =>
    refine ⟨?_, h.locals_toPhase (h.locals_stay (t := t) (.inl ?_)), ?_⟩
    · refine h.mutex.acquire hfree fun u i ↦ ?_
      by_cases hu : u = t
      · subst hu
        simp [Server.emit, toPhase_self, hphase, mutexOf, eq_comm]
      · simp [Server.emit, toPhase_of_ne s hu, hu]
    · rw [hphase]
      rfl
    · refine h.flocks_toPhase (fun _ _ hflock ↦ hflock) fun path _ hold ↦ ?_
      rw [hphase] at hold
      exact hold
  | write t n fd rcpt rest unwritten hphase =>
    refine ⟨h.mutex_stay ?_, h.locals_toPhase (h.locals_stay (t := t) (.inl ?_)), ?_⟩
    · rw [hphase]
      rfl
    · rw [hphase]
      rfl
    · refine h.flocks_toPhase (fun _ _ hflock ↦ hflock) fun path _ hold ↦ ?_
      rw [hphase] at hold
      exact hold
  | fclose t fd rcpt rest hphase =>
    refine ⟨h.mutex_stay ?_, h.locals_toPhase (h.locals_stay (t := t) (.inl ?_)), ?_⟩
    · rw [hphase]
      rfl
    · rw [hphase]
      rfl
    · refine h.flocks_toPhase (fun _ _ hflock ↦ (releaseFlock_some hflock).1) ?_
      intro path hflock hold
      -- the file that has been closed held the lock, if any
      refine ((releaseFlock_some hflock).2 rfl ?_).elim
      rw [hphase] at hold ⊢
      exact congrArg some hold
  | unlock t fd rcpt rest hphase =>
    refine ⟨?_, h.locals_toPhase (h.locals_stay (t := t) (.inr rfl)), ?_⟩
    · refine h.mutex.release (t := t) ?_ fun u i ↦ ?_
      · rw [hphase]
        rfl
      · by_cases hu : u = t
        · subst hu
          simp [toPhase_self, hphase, mutexOf, eq_comm]
        · simp [toPhase_of_ne s hu, hu]
    · refine h.flocks_toPhase (fun _ _ hflock ↦ hflock) fun path _ hold ↦ ?_
      rw [hphase] at hold
      exact hold
  | unflock t fd rest flocks hphase hflocks =>
    refine ⟨h.mutex_stay ?_, h.locals_toPhase (h.locals_stay (t := t) (.inr rfl)), ?_⟩
    · rw [hphase]
      rfl
    · refine h.flocks_toPhase (fun path u hflock ↦ ?_) fun path _ hold ↦ ?_
      · obtain rfl | ⟨t', rfl⟩ := hflocks
        · exact hflock
        · exact (releaseFlock_some hflock).1
      · rw [hphase] at hold
        exact hold
  | reply t hphase =>
    refine ⟨h.mutex_stay ?_, h.locals_toPhase (h.locals_stay (t := t) (.inr rfl)), ?_⟩
    · rw [hphase]
      rfl
    · refine h.flocks_toPhase (fun _ _ hflock ↦ hflock) fun path _ hold ↦ ?_
      rw [hphase] at hold
      exact hold
  | occupy fd hfree => exact ⟨h.mutex, h.locals, h.flocks⟩
  | vacate fd hother => exact ⟨h.mutex, h.locals, h.flocks⟩

theorem inv_of_reaches {files : Bytes → Bytes}
    (h : Reaches (machine site) anyStep { files := files } s) : Inv site s :=
  h.invariant (start_inv files) fun _ _ _ hinv _ hstep ↦ hinv.step (stepped_of_step site hstep)

end Locked

/-! ## What the mailboxes contain -/

/-- What effects append to a mailbox. -/
def appended (path : Bytes) (effects : List (ℕ × Effect)) : Bytes :=
  effects.flatMap fun (_, effect) ↦
    match effect with
    | .append path' text => if path' = path then text else []
    | .send _ => []

/-- What is still in a buffer on its way to this mailbox. -/
def Unwritten (site : Site) (phase : ℕ → Phase) (path text : Bytes) : Prop :=
  (∃ t, writing site (phase t) = some (path, text)) ∨
    (text = [] ∧ ∀ t text', writing site (phase t) ≠ some (path, text'))

section Contents

variable {site : Site} {s s' : Server} {t : ℕ} {e : Event}

theorem writing_eq_some {phase : Phase} {path text : Bytes} :
    writing site phase = some (path, text) ↔
      ∃ rcpt fd rest, phase = .locked rcpt fd rest text ∧ mailbox site rcpt.1 = path := by
  constructor
  · intro h
    cases phase with
    | locked rcpt fd rest unwritten =>
      obtain ⟨rfl, rfl⟩ := Prod.mk.inj (Option.some.inj h)
      exact ⟨rcpt, fd, rest, rfl, rfl⟩
    | _ => cases h
  · rintro ⟨rcpt, fd, rest, rfl, rfl⟩
    rfl

theorem mailbox_inj {user user' : Bytes} (h : mailbox site user = mailbox site user') :
    user = user' :=
  List.append_cancel_left (List.append_cancel_right h)

theorem Inv.unique_writer (h : Inv site s) {u : ℕ} {path text text' : Bytes}
    (ht : writing site (s.phase t) = some (path, text))
    (hu : writing site (s.phase u) = some (path, text')) : t = u := by
  obtain ⟨rcpt, fd, rest, hphase, hpath⟩ := writing_eq_some.mp ht
  obtain ⟨rcpt', fd', rest', hphase', hpath'⟩ := writing_eq_some.mp hu
  have hsame : rcpt.1 = rcpt'.1 := mailbox_inj (hpath.trans hpath'.symm)
  refine h.mutex.unique (k := userIdx site rcpt) ?_ ?_
  · rw [hphase]
    rfl
  · rw [hphase', userIdx, hsame]
    rfl

/-- A worker that is writing to this mailbox before and after a step, with the same buffer, or
neither before nor after it. -/
theorem Unwritten.of_update {phase : ℕ → Phase} {p : Phase} {path text : Bytes}
    (hsame : ∀ text', writing site p = some (path, text') ↔
      writing site (phase t) = some (path, text'))
    (h : Unwritten site (Function.update phase t p) path text) : Unwritten site phase path text := by
  have hall : ∀ u text', writing site (Function.update phase t p u) = some (path, text') ↔
      writing site (phase u) = some (path, text') := by
    intro u text'
    by_cases hu : u = t
    · rw [hu, Function.update_self]
      exact hsame text'
    · rw [Function.update_of_ne hu]
  rcases h with ⟨u, hu⟩ | ⟨rfl, hnone⟩
  · exact .inl ⟨u, (hall u text).mp hu⟩
  · exact .inr ⟨rfl, fun u text' hu ↦ hnone u text' ((hall u text').mpr hu)⟩

theorem Inv.unwritten_eq (h : Inv site s) {path text text' : Bytes}
    (ht : writing site (s.phase t) = some (path, text)) (hu : Unwritten site s.phase path text') :
    text' = text := by
  rcases hu with ⟨u, hu⟩ | ⟨-, hnone⟩
  · obtain rfl := h.unique_writer ht hu
    rw [ht] at hu
    exact (Prod.mk.inj (Option.some.inj hu)).2.symm
  · exact (hnone t text ht).elim

theorem appended_append (path : Bytes) (effects effects' : List (ℕ × Effect)) :
    appended path (effects ++ effects') = appended path effects ++ appended path effects' :=
  List.flatMap_append

theorem appended_sends (path : Bytes) (t : ℕ) {effects : List Effect}
    (h : ∀ effect ∈ effects, ∃ response, effect = .send response) :
    appended path (effects.map fun effect ↦ (t, effect)) = [] := by
  refine List.flatMap_eq_nil_iff.mpr fun x hx ↦ ?_
  obtain ⟨effect, hmem, rfl⟩ := List.mem_map.mp hx
  obtain ⟨response, rfl⟩ := h effect hmem
  rfl

theorem appended_single (path path' data : Bytes) (t : ℕ) :
    appended path [(t, .append path' data)] = if path' = path then data else [] :=
  List.append_nil _

theorem deliver_unopened {data : Bytes} {rcpt : Bytes × Bytes} :
    ∀ effect ∈ deliver site data false rcpt, ∃ response, effect = .send response := by
  intro effect hmem
  unfold deliver at hmem
  split at hmem
  · exact ⟨_, List.mem_singleton.mp hmem⟩
  · split at hmem
    · exact ⟨_, List.mem_singleton.mp hmem⟩
    · cases hmem

/-- The mailbox and what is on its way to it are what has been appended to it. -/
def Contents (site : Site) (files : Bytes → Bytes) (s : Server) : Prop :=
  ∀ path text, Unwritten site s.phase path text →
    s.files path ++ text = files path ++ appended path s.effects

theorem not_writing {phase : Phase} (h : writing site phase = none) (path text : Bytes) :
    writing site phase ≠ some (path, text) := by
  rw [h]
  exact (Option.some_ne_none _).symm

/-- A worker moves on outside of the mailboxes, and what it causes is replies. -/
theorem Contents.stay {files : Bytes → Bytes} (h : Contents site files s) {phase : Phase}
    {effects : List Effect} (hold : writing site (s.phase t) = none)
    (hnew : writing site phase = none)
    (hsends : ∀ effect ∈ effects, ∃ response, effect = .send response)
    (hphase : s'.phase = Function.update s.phase t phase) (hfiles : s'.files = s.files)
    (heffects : s'.effects = s.effects ++ effects.map fun effect ↦ (t, effect)) :
    Contents site files s' := by
  intro path text htext
  rw [heffects, appended_append, appended_sends path t hsends, List.append_nil, hfiles]
  refine h path text (Unwritten.of_update (t := t) (fun text' ↦ ?_) (hphase ▸ htext))
  exact iff_of_false (not_writing hnew path text') (not_writing hold path text')

theorem Contents.step {files : Bytes → Bytes} (h : Contents site files s) (hinv : Inv site s)
    (hstep : Stepped site s e s') : Contents site files s' := by
  have hinv' : Inv site s' := hinv.step hstep
  have hnothing : ∀ effect ∈ ([] : List Effect), ∃ response, effect = .send response := by
    intro effect hmem
    cases hmem
  have hemitted : ∀ u : ℕ, s.effects = s.effects ++ ([] : List Effect).map fun effect ↦ (u, effect) :=
    fun _ ↦ (List.append_nil _).symm
  cases hstep with
  | finish t rcptTo data hphase =>
    refine h.stay (t := t) ?_ rfl hnothing rfl rfl (hemitted t)
    rw [hphase]
    rfl
  | pass t rcpt rest hphase =>
    refine h.stay (t := t) ?_ rfl deliver_unopened rfl rfl rfl
    rw [hphase]
    rfl
  | fopen t fd rcpt rest hphase hlocal hfree =>
    refine h.stay (t := t) ?_ rfl hnothing rfl rfl (hemitted t)
    rw [hphase]
    rfl
  | flock t fd rcpt rest hphase hfree =>
    refine h.stay (t := t) ?_ rfl hnothing rfl rfl (hemitted t)
    rw [hphase]
    rfl
  | lock t fd rcpt rest hphase hfree =>
    intro path text htext
    have hlocal : IsLocal site rcpt := hinv.locals t rcpt (by rw [hphase]; rfl)
    have hidle : writing site (s.phase t) = none := by
      rw [hphase]
      rfl
    simp only [Server.emit, Server.toPhase, deliver_of_open hlocal.1 hlocal.2, appended_append,
      List.map_cons, List.map_nil, appended_single]
    by_cases hpath : mailbox site rcpt.1 = path
    · have hself : writing site ((s.toPhase t (.locked rcpt fd rest (s.data t))).phase t) =
          some (path, s.data t) := by
        rw [toPhase_self, ← hpath]
        rfl
      obtain rfl := hinv'.unwritten_eq hself htext
      -- nobody else is writing to it, since the mutex was free
      have hbefore : Unwritten site s.phase path [] := by
        refine .inr ⟨rfl, fun u text' hu ↦ ?_⟩
        have hne : u ≠ t := by
          rintro rfl
          exact not_writing hidle path text' hu
        have hwrites : writing site ((s.toPhase t (.locked rcpt fd rest (s.data t))).phase u) =
            some (path, text') :=
          (congrArg (writing site) (toPhase_of_ne s hne _)).trans hu
        exact hne (hinv'.unique_writer hwrites hself)
      have hfiles := h path [] hbefore
      rw [List.append_nil] at hfiles
      rw [if_pos hpath, hfiles, List.append_assoc]
    · have hkeep : Unwritten site s.phase path text := by
        refine Unwritten.of_update (t := t) (fun text' ↦ ?_) htext
        refine iff_of_false (fun hnew ↦ hpath ?_) (not_writing hidle path text')
        exact (Prod.mk.inj (Option.some.inj hnew)).1
      rw [if_neg hpath, List.append_nil]
      exact h path text hkeep
  | write t n fd rcpt rest unwritten hphase =>
    intro path text htext
    have hold : writing site (s.phase t) = some (mailbox site rcpt.1, unwritten) := by
      rw [hphase]
      rfl
    by_cases hpath : mailbox site rcpt.1 = path
    · subst hpath
      have hself : writing site ((s.toPhase t (.locked rcpt fd rest (unwritten.drop n))).phase t) =
          some (mailbox site rcpt.1, unwritten.drop n) := by
        rw [toPhase_self]
        rfl
      obtain rfl := hinv'.unwritten_eq hself htext
      have hfiles := h (mailbox site rcpt.1) unwritten (.inl ⟨t, hold⟩)
      simp only [Function.update_self, List.append_assoc, List.take_append_drop]
      exact hfiles
    · have hkeep : Unwritten site s.phase path text := by
        refine Unwritten.of_update (t := t) (fun text' ↦ ?_) htext
        refine iff_of_false (fun hnew ↦ hpath ?_) fun heq ↦ hpath ?_
        · exact (Prod.mk.inj (Option.some.inj hnew)).1
        · exact (Prod.mk.inj (Option.some.inj (hold.symm.trans heq))).1
      simp only [Function.update_of_ne (Ne.symm hpath)]
      exact h path text hkeep
  | fclose t fd rcpt rest hphase =>
    intro path text htext
    have hold : writing site (s.phase t) = some (mailbox site rcpt.1, []) := by
      rw [hphase]
      rfl
    by_cases hpath : mailbox site rcpt.1 = path
    · subst hpath
      have hnil : text = [] := by
        rcases htext with ⟨u, hu⟩ | ⟨hnil, -⟩
        · have hne : u ≠ t := by
            rintro rfl
            rw [toPhase_self] at hu
            cases hu
          have hbefore : writing site (s.phase u) = some (mailbox site rcpt.1, text) :=
            (congrArg (writing site) (toPhase_of_ne s hne _)).symm.trans hu
          exact (hne (hinv.unique_writer hbefore hold)).elim
        · exact hnil
      subst hnil
      exact h _ [] (.inl ⟨t, hold⟩)
    · refine h path text (Unwritten.of_update (t := t) (fun text' ↦ ?_) htext)
      refine iff_of_false (not_writing rfl path text') fun heq ↦ hpath ?_
      exact (Prod.mk.inj (Option.some.inj (hold.symm.trans heq))).1
  | unlock t fd rcpt rest hphase =>
    refine h.stay (t := t) ?_ rfl hnothing rfl rfl (hemitted t)
    rw [hphase]
    rfl
  | unflock t fd rest flocks hphase hflocks =>
    refine h.stay (t := t) ?_ rfl hnothing rfl rfl (hemitted t)
    rw [hphase]
    rfl
  | reply t hphase =>
    refine h.stay (t := t) ?_ rfl (fun effect hmem ↦ ?_) rfl rfl rfl
    · rw [hphase]
      rfl
    · exact ⟨_, List.mem_singleton.mp hmem⟩
  | occupy fd hfree => exact h
  | vacate fd hother => exact h

end Contents

/-! ## What each worker does -/

def own (t : ℕ) (effects : List (ℕ × Effect)) : List Effect :=
  effects.filterMap fun (u, effect) ↦ if u = t then some effect else none

/-- The messages that worker `t` has come to the end of. -/
def messages (t : ℕ) (es : List Event) : List (List (Bytes × Bytes) × Bytes) :=
  es.filterMap fun e ↦
    match e with
    | .finish u rcptTo data => if u = t then some (rcptTo, data) else none
    | _ => none

/-- The recipients for whom nothing has happened yet. -/
def toDo : Phase → Option (List (Bytes × Bytes))
  | .idle => none
  | .next rcptTo => some rcptTo
  | .opened rcpt _ rest => some (rcpt :: rest)
  | .flocked rcpt _ rest => some (rcpt :: rest)
  | .locked _ _ rest _ => some rest
  | .closed _ _ rest => some rest
  | .unlocked _ rest => some rest

/-- The effects of the end of this message, in some surroundings. -/
def EffectsOf (site : Site) (message : List (Bytes × Bytes) × Bytes) (effects : List Effect) :
    Prop :=
  ∃ around : Surroundings,
    effects = (finishMessage site around { rcptTo := message.1, data := message.2 }).effects

/-- The messages that are done, and the one that is not. -/
structure Served (site : Site) (es : List Event) (s : Server) (t : ℕ)
    (past : List (List (Bytes × Bytes) × Bytes)) (done : List (List Effect)) : Prop where
  each : List.Forall₂ (EffectsOf site) past done
  idle : toDo (s.phase t) = none → messages t es = past ∧ own t s.effects = done.flatten
  busy : ∀ rest, toDo (s.phase t) = some rest →
    ∃ (passed : List (Bytes × Bytes)) (opens : ℕ → Bool),
      messages t es = past ++ [(passed ++ rest, s.data t)] ∧
      own t s.effects = done.flatten ++
        passed.zipIdx.flatMap fun (rcpt, i) ↦ deliver site (s.data t) (opens i) rcpt

section Histories

variable {site : Site} {s s' : Server} {t u : ℕ} {e : Event} {es : List Event}
  {past : List (List (Bytes × Bytes) × Bytes)} {done : List (List Effect)}

theorem own_append (effects effects' : List (ℕ × Effect)) :
    own t (effects ++ effects') = own t effects ++ own t effects' :=
  List.filterMap_append

theorem own_emitted (effects : List Effect) :
    own t (effects.map fun effect ↦ (t, effect)) = effects := by
  simp [own, List.filterMap_map]

theorem own_emitted_of_ne (h : u ≠ t) (effects : List Effect) :
    own t (effects.map fun effect ↦ (u, effect)) = [] := by
  simp [own, List.filterMap_map, h]

theorem messages_append (es es' : List Event) :
    messages t (es ++ es') = messages t es ++ messages t es' :=
  List.filterMap_append

theorem Served.stay (h : Served site es s u past done) (hmessages : messages u [e] = [])
    (hown : own u s'.effects = own u s.effects) (hdata : s'.data u = s.data u)
    (htodo : toDo (s'.phase u) = toDo (s.phase u)) : Served site (es ++ [e]) s' u past done where
  each := h.each
  idle hidle := by
    rw [messages_append, hmessages, List.append_nil, hown]
    exact h.idle (htodo.symm.trans hidle)
  busy rest hrest := by
    rw [messages_append, hmessages, List.append_nil, hown, hdata]
    exact h.busy rest (htodo.symm.trans hrest)

/-- A step of worker `t` without effects. -/
theorem Served.quiet (h : Served site es s u past done) {phase phase' : Phase}
    (hmessages : messages u [e] = []) (hold : s.phase t = phase)
    (hphase : s'.phase = Function.update s.phase t phase') (htodo : toDo phase' = toDo phase)
    (heffects : s'.effects = s.effects) (hdata : s'.data = s.data) :
    Served site (es ++ [e]) s' u past done := by
  refine h.stay hmessages (by rw [heffects]) (by rw [hdata]) ?_
  by_cases hu : u = t
  · rw [hphase, hu, Function.update_self, htodo, hold]
  · rw [hphase, Function.update_of_ne hu]

/-- A step of worker `t` does not concern worker `u`. -/
theorem Served.other (h : Served site es s u past done) (hu : u ≠ t) {phase : Phase}
    (effects : List Effect) (hmessages : messages u [e] = [])
    (hphase : s'.phase = Function.update s.phase t phase)
    (heffects : s'.effects = s.effects ++ effects.map fun effect ↦ (t, effect))
    (hdata : s'.data u = s.data u) : Served site (es ++ [e]) s' u past done := by
  refine h.stay hmessages ?_ hdata (by rw [hphase, Function.update_of_ne hu])
  rw [heffects, own_append, own_emitted_of_ne (Ne.symm hu), List.append_nil]

theorem Served.begin (h : Served site es s t past done) (hidle : toDo (s.phase t) = none)
    (rcptTo : List (Bytes × Bytes)) (data : Bytes)
    (hmessages : messages t [e] = [(rcptTo, data)]) (htodo : toDo (s'.phase t) = some rcptTo)
    (heffects : s'.effects = s.effects) (hdata : s'.data t = data) :
    Served site (es ++ [e]) s' t past done where
  each := h.each
  idle hidle' := by
    rw [htodo] at hidle'
    cases hidle'
  busy rest hrest := by
    obtain rfl := Option.some.inj (htodo.symm.trans hrest)
    obtain ⟨hpast, hown⟩ := h.idle hidle
    refine ⟨[], fun _ ↦ false, ?_, ?_⟩
    · rw [messages_append, hpast, hmessages, hdata]
      rfl
    · rw [heffects, hown]
      exact (List.append_nil _).symm

theorem Served.deliver (h : Served site es s t past done) {rcpt : Bytes × Bytes}
    {rest : List (Bytes × Bytes)} {opens : Bool} (hbusy : toDo (s.phase t) = some (rcpt :: rest))
    (hmessages : messages t [e] = []) (htodo : toDo (s'.phase t) = some rest)
    (heffects : s'.effects = s.effects ++
      (MailServer.deliver site (s.data t) opens rcpt).map fun effect ↦ (t, effect))
    (hdata : s'.data t = s.data t) : Served site (es ++ [e]) s' t past done where
  each := h.each
  idle hidle := by
    rw [htodo] at hidle
    cases hidle
  busy rest' hrest' := by
    obtain rfl := Option.some.inj (htodo.symm.trans hrest')
    obtain ⟨passed, opens', hpassed, hown⟩ := h.busy _ hbusy
    refine ⟨passed ++ [rcpt], Function.update opens' passed.length opens, ?_, ?_⟩
    · rw [messages_append, hmessages, List.append_nil, hdata, hpassed, List.append_assoc]
      rfl
    · have hbefore : passed.zipIdx.flatMap (fun (rcpt, i) ↦ MailServer.deliver site (s.data t)
          (Function.update opens' passed.length opens i) rcpt) =
          passed.zipIdx.flatMap fun (rcpt, i) ↦ MailServer.deliver site (s.data t) (opens' i) rcpt := by
        refine List.flatMap_congr fun x hx ↦ ?_
        have hlt : x.2 < passed.length := by
          simpa using List.snd_lt_of_mem_zipIdx hx
        dsimp only
        rw [Function.update_of_ne hlt.ne]
      rw [heffects, own_append, own_emitted, hown, hdata, List.zipIdx_append, List.flatMap_append,
        hbefore, List.append_assoc]
      simp

theorem Served.finish (h : Served site es s t past done) (hbusy : toDo (s.phase t) = some [])
    (hmessages : messages t [e] = []) (htodo : toDo (s'.phase t) = none)
    (heffects : s'.effects = s.effects ++ [.send MailServer.ok].map fun effect ↦ (t, effect)) :
    ∃ past done, Served site (es ++ [e]) s' t past done := by
  obtain ⟨passed, opens, hpassed, hown⟩ := h.busy _ hbusy
  rw [List.append_nil] at hpassed
  have heach : EffectsOf site (passed, s.data t)
      (finishMessage site ⟨[], opens⟩ { rcptTo := passed, data := s.data t }).effects :=
    ⟨⟨[], opens⟩, rfl⟩
  refine ⟨past ++ [(passed, s.data t)], _, List.rel_append h.each (.cons heach .nil),
    fun _ ↦ ⟨?_, ?_⟩, fun rest hrest ↦ ?_⟩
  · rw [messages_append, hmessages, List.append_nil, hpassed]
  · rw [heffects, own_append, own_emitted, hown, List.flatten_append, List.append_assoc]
    simp [finishMessage]
  · rw [htodo] at hrest
    cases hrest

theorem toDo_of_phase {phase : Phase} {todo : Option (List (Bytes × Bytes))}
    (hphase : s.phase t = phase) (htodo : toDo phase = todo) : toDo (s.phase t) = todo := by
  rw [hphase, htodo]

theorem Served.step (h : Served site es s u past done)
    (hstep : Stepped site s e s') : ∃ past done, Served site (es ++ [e]) s' u past done := by
  cases hstep with
  | finish t rcptTo data hphase =>
    by_cases hu : u = t
    · subst hu
      refine ⟨past, done, h.begin (toDo_of_phase hphase rfl) rcptTo data ?_ ?_ rfl
        (Function.update_self _ _ _)⟩
      · simp [messages]
      · exact toDo_of_phase (toPhase_self _ _ _) rfl
    · refine ⟨past, done, h.other hu [] ?_ rfl (List.append_nil _).symm
        (Function.update_of_ne hu _ _)⟩
      simp [messages, Ne.symm hu]
  | pass t rcpt rest hphase =>
    by_cases hu : u = t
    · subst hu
      exact ⟨past, done, h.deliver (toDo_of_phase hphase rfl) rfl
        (toDo_of_phase (toPhase_self _ _ _) rfl) rfl rfl⟩
    · exact ⟨past, done, h.other hu _ rfl rfl rfl rfl⟩
  | fopen t fd rcpt rest hphase hlocal hfree =>
    exact ⟨past, done, h.quiet rfl hphase rfl rfl rfl rfl⟩
  | flock t fd rcpt rest hphase hfree =>
    exact ⟨past, done, h.quiet rfl hphase rfl rfl rfl rfl⟩
  | lock t fd rcpt rest hphase hfree =>
    by_cases hu : u = t
    · subst hu
      exact ⟨past, done, h.deliver (toDo_of_phase hphase rfl) rfl
        (toDo_of_phase (toPhase_self _ _ _) rfl) rfl rfl⟩
    · exact ⟨past, done, h.other hu _ rfl rfl rfl rfl⟩
  | write t n fd rcpt rest unwritten hphase =>
    exact ⟨past, done, h.quiet rfl hphase rfl rfl rfl rfl⟩
  | fclose t fd rcpt rest hphase =>
    exact ⟨past, done, h.quiet rfl hphase rfl rfl rfl rfl⟩
  | unlock t fd rcpt rest hphase =>
    exact ⟨past, done, h.quiet rfl hphase rfl rfl rfl rfl⟩
  | unflock t fd rest flocks hphase hflocks =>
    exact ⟨past, done, h.quiet rfl hphase rfl rfl rfl rfl⟩
  | reply t hphase =>
    by_cases hu : u = t
    · subst hu
      exact h.finish (toDo_of_phase hphase rfl) rfl (toDo_of_phase (toPhase_self _ _ _) rfl) rfl
    · exact ⟨past, done, h.other hu _ rfl rfl rfl rfl⟩
  | occupy fd hfree => exact ⟨past, done, h.stay rfl rfl rfl rfl⟩
  | vacate fd hother => exact ⟨past, done, h.stay rfl rfl rfl rfl⟩

theorem served_of_run {files : Bytes → Bytes} (h : run (machine site) { files := files } es = some s)
    (t : ℕ) : ∃ past done, Served site es s t past done := by
  induction es using List.reverseRecOn generalizing s with
  | nil =>
    cases h
    refine ⟨[], [], .nil, fun _ ↦ ⟨rfl, rfl⟩, fun rest hrest ↦ ?_⟩
    cases hrest
  | append_singleton es e ih =>
    rw [run_concat] at h
    obtain ⟨s₁, hrun, hstep⟩ := Option.bind_eq_some_iff.mp h
    obtain ⟨past, done, hserved⟩ := ih hrun
    exact hserved.step (stepped_of_step site hstep)

end Histories

/-! ## Whole messages, and no deadlock -/

section Results

variable (site : Site) (files : Bytes → Bytes) {s : Server} {es : List Event}

/-- The mailboxes are what the effects make of them, one message after the other, and the effects of
a worker are those of its messages. -/
theorem mailboxes_take_whole_messages (h : run (machine site) { files := files } es = some s) :
    (∀ path text, Unwritten site s.phase path text →
      s.files path ++ text = files path ++ appended path s.effects) ∧
    ∀ t, s.phase t = .idle → ∃ done, List.Forall₂ (EffectsOf site) (messages t es) done ∧
      own t s.effects = done.flatten := by
  constructor
  · have hboth : Inv site s ∧ Contents site files s := by
      refine (reaches_of_run h).invariant (I := fun s ↦ Inv site s ∧ Contents site files s)
        ⟨start_inv files, fun path text htext ↦ ?_⟩ fun a e b hab _ hstep ↦ ?_
      · rcases htext with ⟨t, ht⟩ | ⟨rfl, -⟩
        · cases ht
        · rfl
      · have hstepped := stepped_of_step site hstep
        exact ⟨hab.1.step hstepped, hab.2.step hab.1 hstepped⟩
    exact hboth.2
  · intro t hidle
    obtain ⟨past, done, hserved⟩ := served_of_run h t
    obtain ⟨hpast, hown⟩ := hserved.idle (toDo_of_phase hidle rfl)
    exact ⟨done, hpast ▸ hserved.each, hown⟩

section StaleUnlock

def annsSite : Site where
  directory := lit "mail"
  localhostUsers := [lit "ann"]

def ann : Bytes × Bytes := (lit "ann", lit "localhost")

/-- The last `flock` of worker 1 takes the lock of worker 2 away, so that worker 3 gets it too. -/
def staleUnlock : List Event :=
  [.finish 1 [ann] (lit "one"), .fopen 1 5, .flock 1, .lock 1, .write 1 3, .fclose 1,
    .finish 2 [ann] (lit "two"), .fopen 2 5, .flock 2, .unlock 1, .unflock 1, .reply 1,
    .finish 3 [ann] (lit "six"), .fopen 3 6, .flock 3, .lock 2, .write 2 2]

theorem run_staleUnlock : ∃ s, run (machine annsSite) { files := fun _ ↦ [] } staleUnlock = some s ∧
    s.phase 1 = .idle ∧ s.phase 2 = .locked ann 5 [] (lit "o") ∧ s.phase 3 = .flocked ann 6 [] := by
  have hrun : ((run (machine annsSite) { files := fun _ ↦ [] } staleUnlock).map fun s ↦
      (s.phase 1, s.phase 2, s.phase 3)) =
      some (.idle, .locked ann 5 [] (lit "o"), .flocked ann 6 []) := by
    decide +kernel
  obtain ⟨s, hs, hphases⟩ := Option.map_eq_some_iff.mp hrun
  obtain ⟨h₁, h₂⟩ := Prod.mk.inj hphases
  obtain ⟨h₂, h₃⟩ := Prod.mk.inj h₂
  exact ⟨s, hs, h₁, h₂, h₃⟩

theorem mailboxes_take_whole_messages_staleUnlock :
    ∃ s, run (machine annsSite) { files := fun _ ↦ [] } staleUnlock = some s ∧
      s.phase 3 = .flocked ann 6 [] ∧
      s.files (lit "mail/ann.mbox") ++ lit "o" = appended (lit "mail/ann.mbox") s.effects ∧
      ∃ done, List.Forall₂ (EffectsOf annsSite) [([ann], lit "one")] done ∧
        own 1 s.effects = done.flatten := by
  obtain ⟨s, hs, h₁, h₂, h₃⟩ := run_staleUnlock
  obtain ⟨hfiles, hown⟩ := mailboxes_take_whole_messages annsSite (fun _ ↦ []) hs
  refine ⟨s, hs, h₃, hfiles _ _ (.inl ⟨2, ?_⟩), hown 1 h₁⟩
  rw [h₂]
  decide +kernel

end StaleUnlock

/-- The worker that an event is a step of; a message that comes to its end is no such step. -/
def Event.worker : Event → Option ℕ
  | .finish _ _ _ => none
  | .occupy _ => none
  | .vacate _ => none
  | .pass t => some t
  | .fopen t _ => some t
  | .flock t => some t
  | .lock t => some t
  | .write t _ => some t
  | .fclose t => some t
  | .unlock t => some t
  | .unflock t => some t
  | .reply t => some t

/-- A step of worker `t` is possible that brings it further. -/
def CanGoOn (s : Server) (t : ℕ) : Prop :=
  ∃ (e : Event) (s' : Server), e.worker = some t ∧ s.step site e = some s' ∧ s'.phase t ≠ s.phase t

variable {site}

theorem canGoOn_of_step {t : ℕ} (e : Event) (phase : Phase) (hworker : e.worker = some t)
    (hstep : ∃ s', s.step site e = some s' ∧ s'.phase = Function.update s.phase t phase)
    (hne : phase ≠ s.phase t) : CanGoOn site s t := by
  obtain ⟨s', hs', hphase⟩ := hstep
  refine ⟨e, s', hworker, hs', ?_⟩
  rwa [hphase, Function.update_self]

/-- The rest of the buffer is written, or the file is closed. -/
theorem canGoOn_locked {t fd : ℕ} {rcpt : Bytes × Bytes} {rest : List (Bytes × Bytes)}
    {unwritten : Bytes} (h : s.phase t = .locked rcpt fd rest unwritten) : CanGoOn site s t := by
  by_cases hnil : unwritten = []
  · subst hnil
    refine canGoOn_of_step (.fclose t) (.closed rcpt fd rest) rfl ?_ (by simp [h])
    simp only [Server.step, h]
    exact ⟨_, rfl, rfl⟩
  · refine canGoOn_of_step (.write t unwritten.length)
      (.locked rcpt fd rest (unwritten.drop unwritten.length)) rfl ?_ ?_
    · simp only [Server.step, h]
      exact ⟨_, rfl, rfl⟩
    · rw [h, List.drop_length]
      exact fun heq ↦ hnil (Phase.locked.inj heq).2.2.2.symm

theorem canGoOn_closed {t fd : ℕ} {rcpt : Bytes × Bytes} {rest : List (Bytes × Bytes)}
    (h : s.phase t = .closed rcpt fd rest) : CanGoOn site s t := by
  refine canGoOn_of_step (.unlock t) (.unlocked fd rest) rfl ?_ (by simp [h])
  simp only [Server.step, h]
  exact ⟨_, rfl, rfl⟩

/-- The holder of a mutex waits for nothing. -/
theorem canGoOn_of_mutexOf {t i : ℕ} (h : mutexOf site (s.phase t) = some i) : CanGoOn site s t := by
  cases hphase : s.phase t with
  | locked rcpt fd rest unwritten => exact canGoOn_locked hphase
  | closed rcpt fd rest => exact canGoOn_closed hphase
  | _ =>
    rw [hphase] at h
    cases h

/-- A worker that has the lock of the file waits for the mutex at most. -/
theorem Inv.canGoOn_flocked (hinv : Inv site s) {t fd : ℕ} {rcpt : Bytes × Bytes}
    {rest : List (Bytes × Bytes)} (h : s.phase t = .flocked rcpt fd rest) :
    ∃ u, CanGoOn site s u := by
  cases hmutex : s.userLocks (userIdx site rcpt) with
  | none =>
    refine ⟨t, canGoOn_of_step (.lock t) (.locked rcpt fd rest (s.data t)) rfl ?_
      (by simp [h])⟩
    simp only [Server.step, h, hmutex, if_true]
    exact ⟨_, rfl, rfl⟩
  | some u => exact ⟨u, canGoOn_of_mutexOf ((hinv.mutex _ u).mp hmutex)⟩

/-- Where a worker has not come to the end of its message, one of the workers can go on. -/
theorem workers_never_deadlock (h : Reaches (machine site) anyStep { files := files } s) {t : ℕ}
    (ht : s.phase t ≠ .idle) : ∃ u, CanGoOn site s u := by
  have hinv : Inv site s := inv_of_reaches h
  cases hphase : s.phase t with
  | idle => exact (ht hphase).elim
  | next rcptTo =>
    cases rcptTo with
    | nil =>
      refine ⟨t, canGoOn_of_step (.reply t) .idle rfl ?_ (by simp [hphase])⟩
      simp only [Server.step, hphase]
      exact ⟨_, rfl, rfl⟩
    | cons rcpt rest =>
      refine ⟨t, canGoOn_of_step (.pass t) (.next rest) rfl ?_ (by simp [hphase])⟩
      simp only [Server.step, hphase]
      exact ⟨_, rfl, rfl⟩
  | opened rcpt fd rest =>
    cases hflock : s.flocks (mailbox site rcpt.1) with
    | none =>
      refine ⟨t, canGoOn_of_step (.flock t) (.flocked rcpt fd rest) rfl ?_
        (by simp [hphase])⟩
      simp only [Server.step, hphase, hflock, if_true]
      exact ⟨_, rfl, rfl⟩
    | some u =>
      -- the holder is between `flock` and `fclose`
      have hholds := hinv.flocks _ u hflock
      cases hphase' : s.phase u with
      | flocked rcpt' fd' rest' => exact hinv.canGoOn_flocked hphase'
      | locked rcpt' fd' rest' unwritten => exact ⟨u, canGoOn_locked hphase'⟩
      | _ =>
        rw [hphase'] at hholds
        exact hholds.elim
  | flocked rcpt fd rest => exact hinv.canGoOn_flocked hphase
  | locked rcpt fd rest unwritten => exact ⟨t, canGoOn_locked hphase⟩
  | closed rcpt fd rest => exact ⟨t, canGoOn_closed hphase⟩
  | unlocked fd rest =>
    refine ⟨t, canGoOn_of_step (.unflock t) (.next rest) rfl ?_ (by simp [hphase])⟩
    simp only [Server.step, hphase]
    exact ⟨_, rfl, rfl⟩

theorem workers_never_deadlock_staleUnlock :
    ∃ s, Reaches (machine annsSite) anyStep { files := fun _ ↦ [] } s ∧
      s.phase 3 = .flocked ann 6 [] ∧ ∃ u, CanGoOn annsSite s u := by
  obtain ⟨s, hs, h₁, h₂, h₃⟩ := run_staleUnlock
  have hreaches : Reaches (machine annsSite) anyStep { files := fun _ ↦ [] } s := reaches_of_run hs
  refine ⟨s, hreaches, h₃, workers_never_deadlock _ hreaches (t := 3) ?_⟩
  rw [h₃]
  decide

end Results

end PennCloud.Webmail.MailboxLocks
