import PennCloud.Library.Runs
import PennCloud.Library.SlotTable
import Mathlib.Algebra.Order.Group.Int

/-!
# The table of connections

Every worker of the mail server enters its descriptor into `active_connections` and takes it out when it
leaves. On `QUIT` it closes the connection first, so that another worker may be given the same
descriptor and enter it before the first has taken its own out; each then clears a slot that may
be the other's. What holds of the table is a law about the descriptors as a multiset.

A step is one section under `conn_lock` or one system call outside of it. The states between the
steps are those in which the lock is free.
-/

open PennCloud.Library.Runs PennCloud.Library.SlotTable

namespace PennCloud.Webmail.Connections

def maxConnections : ℕ := 1500

/-- How far a worker has come. -/
inductive Worker
  /-- It has not looked at the table yet. -/
  | accepted (fd : ℤ)
  /-- The table was full; the connection is to be closed. -/
  | refused (fd : ℤ)
  | registered (fd : ℤ)
  /-- After `QUIT`: the connection is closed, the descriptor still in the table. -/
  | closed (fd : ℤ)
  /-- After too long a line: the descriptor is out of the table, the connection still open. -/
  | removed (fd : ℤ)
  | gone
  deriving DecidableEq

/-- The descriptor that the worker has in the table. -/
def Worker.entry : Worker → Option ℤ
  | registered fd => some fd
  | closed fd => some fd
  | _ => none

/-- The open descriptor of the worker. -/
def Worker.openFd : Worker → Option ℤ
  | accepted fd => some fd
  | refused fd => some fd
  | registered fd => some fd
  | removed fd => some fd
  | _ => none

/-- The globals of the mail server, and its threads in the order in which they were started. -/
structure Server where
  activeConnections : List ℤ := List.replicate maxConnections (-1)
  connCnt : ℤ := 0
  workers : List Worker := []
  deriving DecidableEq

namespace Server

variable (s : Server)

/-- The descriptors in the table. -/
def entries : List ℤ := occupied (-1) s.activeConnections

/-- The descriptors of the registered workers. -/
def registered : List ℤ := s.workers.filterMap Worker.entry

def openFds : List ℤ := s.workers.filterMap Worker.openFd

def setWorker (i : ℕ) (w : Worker) : Server := { s with workers := s.workers.set i w }

/-- The section in which a worker registers: it stores its descriptor in the first free slot. -/
def register (i : ℕ) (commFd : ℤ) : Server :=
  if s.connCnt ≥ maxConnections then
    s.setWorker i (.refused commFd)
  else
    { s.setWorker i (.registered commFd) with
      activeConnections := s.activeConnections.replace (-1) commFd
      connCnt := s.connCnt + 1 }

/-- The section in which a worker leaves: it frees the first slot with its descriptor. -/
def deregister (i : ℕ) (commFd : ℤ) (w : Worker) : Server :=
  { s.setWorker i w with
    activeConnections := s.activeConnections.replace commFd (-1)
    connCnt := s.connCnt - 1 }

end Server

inductive Event
  /-- A connection is accepted and its thread started. -/
  | accept (fd : ℤ)
  | register (i : ℕ)
  | refuse (i : ℕ)
  /-- `close` on `QUIT`. -/
  | quit (i : ℕ)
  | leave (i : ℕ)
  /-- The length is exceeded. -/
  | exceed (i : ℕ)
  | close (i : ℕ)
  deriving DecidableEq

/-- A descriptor that `accept` returns is open in no other worker. -/
def Server.step (s : Server) : Event → Option Server
  | .accept fd =>
    if 0 ≤ fd ∧ fd ∉ s.openFds then some { s with workers := s.workers ++ [.accepted fd] } else none
  | .register i =>
    match s.workers[i]? with
    | some (.accepted fd) => some (s.register i fd)
    | _ => none
  | .refuse i =>
    match s.workers[i]? with
    | some (.refused _) => some (s.setWorker i .gone)
    | _ => none
  | .quit i =>
    match s.workers[i]? with
    | some (.registered fd) => some (s.setWorker i (.closed fd))
    | _ => none
  | .leave i =>
    match s.workers[i]? with
    | some (.closed fd) => some (s.deregister i fd .gone)
    | _ => none
  | .exceed i =>
    match s.workers[i]? with
    | some (.registered fd) => some (s.deregister i fd (.removed fd))
    | _ => none
  | .close i =>
    match s.workers[i]? with
    | some (.removed _) => some (s.setWorker i .gone)
    | _ => none

def machine : Machine Server Event where
  step := Server.step

/-- What holds of the table whenever the lock is free. -/
structure TableLaw (s : Server) : Prop where
  count : s.connCnt = s.entries.length
  nonneg : 0 ≤ s.connCnt
  le_max : s.connCnt ≤ maxConnections
  same : s.entries.Perm s.registered
  free : s.connCnt < maxConnections → -1 ∈ s.activeConnections

/-! ## One step -/

/-- The descriptor that a worker was started with. -/
def Worker.descriptor : Worker → Option ℤ
  | accepted fd => some fd
  | refused fd => some fd
  | registered fd => some fd
  | closed fd => some fd
  | removed fd => some fd
  | gone => none

/-- What every step keeps; the law of the table follows. -/
structure Kept (s : Server) : Prop where
  size : s.activeConnections.length = maxConnections
  count : s.connCnt = s.entries.length
  same : s.entries.Perm s.registered
  descriptors : ∀ w ∈ s.workers, ∀ fd, w.descriptor = some fd → 0 ≤ fd

/-- What a step does: a worker is added or changed outside the table, enters its descriptor, or
takes it out. -/
inductive Stepped (s : Server) : Server → Prop
  | added (fd : ℤ) (hfd : 0 ≤ fd) :
      Stepped s { s with workers := s.workers ++ [.accepted fd] }
  | changed (i : ℕ) (before after : Worker) (hworker : s.workers[i]? = some before)
      (hentry : after.entry = before.entry)
      (hdescriptor : after.descriptor = before.descriptor ∨ after.descriptor = none) :
      Stepped s (s.setWorker i after)
  | entered (i : ℕ) (fd : ℤ) (hworker : s.workers[i]? = some (.accepted fd))
      (hcount : s.connCnt < maxConnections) :
      Stepped s { s.setWorker i (.registered fd) with
        activeConnections := s.activeConnections.replace (-1) fd
        connCnt := s.connCnt + 1 }
  | left (i : ℕ) (fd : ℤ) (before after : Worker) (hworker : s.workers[i]? = some before)
      (hbefore : before.entry = some fd) (hafter : after.entry = none)
      (hdescriptor : after.descriptor = some fd ∨ after.descriptor = none) :
      Stepped s (s.deregister i fd after)

theorem stepped_of_step {s t : Server} {event : Event} (h : s.step event = some t) :
    Stepped s t := by
  cases event with
  | accept fd =>
    simp only [Server.step] at h
    split at h
    · next hfd =>
      obtain rfl := Option.some.inj h
      exact .added fd hfd.1
    · cases h
  | register i =>
    simp only [Server.step] at h
    split at h
    · next fd hworker =>
      obtain rfl := Option.some.inj h
      unfold Server.register
      split
      · exact .changed i _ _ hworker rfl (.inl rfl)
      · next hcount => exact .entered i fd hworker (not_le.mp hcount)
    · cases h
  | refuse i =>
    simp only [Server.step] at h
    split at h
    · next fd hworker =>
      obtain rfl := Option.some.inj h
      exact .changed i _ _ hworker rfl (.inr rfl)
    · cases h
  | quit i =>
    simp only [Server.step] at h
    split at h
    · next fd hworker =>
      obtain rfl := Option.some.inj h
      exact .changed i _ _ hworker rfl (.inl rfl)
    · cases h
  | leave i =>
    simp only [Server.step] at h
    split at h
    · next fd hworker =>
      obtain rfl := Option.some.inj h
      exact .left i fd _ _ hworker rfl rfl (.inr rfl)
    · cases h
  | exceed i =>
    simp only [Server.step] at h
    split at h
    · next fd hworker =>
      obtain rfl := Option.some.inj h
      exact .left i fd _ _ hworker rfl rfl (.inl rfl)
    · cases h
  | close i =>
    simp only [Server.step] at h
    split at h
    · next fd hworker =>
      obtain rfl := Option.some.inj h
      exact .changed i _ _ hworker rfl (.inr rfl)
    · cases h

theorem descriptor_of_entry {w : Worker} {fd : ℤ} (h : w.entry = some fd) :
    w.descriptor = some fd := by
  cases w with
  | registered other => exact h
  | closed other => exact h
  | accepted other => cases h
  | refused other => cases h
  | removed other => cases h
  | gone => cases h

/-- The descriptor of a changed worker is the one it was started with. -/
theorem Kept.descriptors_set {s : Server} (h : Kept s) {i : ℕ} {before after : Worker}
    (hworker : s.workers[i]? = some before)
    (hdescriptor : after.descriptor = before.descriptor ∨ after.descriptor = none) :
    ∀ w ∈ s.workers.set i after, ∀ fd, w.descriptor = some fd → 0 ≤ fd := by
  intro w hw fd hfd
  rcases List.mem_or_eq_of_mem_set hw with hold | rfl
  · exact h.descriptors w hold fd hfd
  · rcases hdescriptor with hsame | hnone
    · exact h.descriptors before (List.mem_of_getElem? hworker) fd (hsame ▸ hfd)
    · exact absurd (hnone.symm.trans hfd) (Option.some_ne_none fd).symm

theorem Kept.next {s t : Server} (h : Kept s) (hstep : Stepped s t) : Kept t := by
  cases hstep with
  | added fd hfd =>
    refine ⟨h.size, h.count, ?_, fun w hw fd' hfd' ↦ ?_⟩
    · have hnone : (s.workers ++ [Worker.accepted fd]).filterMap Worker.entry =
          s.workers.filterMap Worker.entry := by
        rw [List.filterMap_append]
        exact List.append_nil _
      exact h.same.trans (.of_eq hnone.symm)
    · rcases List.mem_append.mp hw with hold | hnew
      · exact h.descriptors w hold fd' hfd'
      · obtain rfl := List.mem_singleton.mp hnew
        exact Option.some.inj hfd' ▸ hfd
  | changed i before after hworker hentry hdescriptor =>
    obtain ⟨others, hbefore, hafter⟩ := exists_filterMap_set (f := Worker.entry) hworker
    refine ⟨h.size, h.count, ?_, h.descriptors_set hworker hdescriptor⟩
    have hnow := hafter after
    rw [hentry] at hnow
    exact h.same.trans (hbefore.trans hnow.symm)
  | entered i fd hworker hcount =>
    obtain ⟨others, hbefore, hafter⟩ := exists_filterMap_set (f := Worker.entry) hworker
    have hnonneg := h.descriptors _ (List.mem_of_getElem? hworker) fd rfl
    have hfree : -1 ∈ s.activeConnections := by
      apply free_mem_of_lt
      rw [h.size]
      have hlength := h.count
      unfold Server.entries at hlength
      omega
    have henter := occupied_enter hfree (x := fd) (by omega)
    refine ⟨List.length_replace.trans h.size, ?_, ?_, h.descriptors_set hworker (.inl rfl)⟩
    · rw [h.count]
      have hlength := henter.length_eq
      simp only [Server.entries] at hlength ⊢
      rw [hlength]
      rfl
    · exact henter.trans (((h.same.trans hbefore).cons fd).trans (hafter (.registered fd)).symm)
  | left i fd before after hworker hbefore hafter hdescriptor =>
    obtain ⟨others, hold, hnew⟩ := exists_filterMap_set (f := Worker.entry) hworker
    have hdescr := descriptor_of_entry hbefore
    have hnonneg := h.descriptors before (List.mem_of_getElem? hworker) fd hdescr
    rw [hbefore] at hold
    have hentry : fd ∈ s.entries := (h.same.trans hold).mem_iff.mpr List.mem_cons_self
    have hslot : fd ∈ s.activeConnections := List.mem_of_mem_filter hentry
    have hne : fd ≠ -1 := by omega
    have hremove := occupied_remove hslot hne
    refine ⟨List.length_replace.trans h.size, ?_, ?_, ?_⟩
    · have hlength := hremove.length_eq
      rw [List.length_cons] at hlength
      have hcount := h.count
      simp only [Server.deregister, Server.entries] at hcount ⊢
      omega
    · have hnow := hnew after
      rw [hafter] at hnow
      exact ((hremove.symm.trans (h.same.trans hold)).cons_inv).trans hnow.symm
    · exact h.descriptors_set hworker (hdescriptor.imp_left fun heq ↦ heq.trans hdescr.symm)

/-! ## Whole runs -/

theorem kept_init : Kept {} := by
  have hentries : Server.entries {} = [] := occupied_replicate maxConnections
  refine ⟨List.length_replicate, ?_, ?_, fun _ h ↦ absurd h List.not_mem_nil⟩
  · rw [hentries]
    rfl
  · rw [hentries]
    exact .refl _

theorem Kept.tableLaw {s : Server} (h : Kept s) : TableLaw s where
  count := h.count
  nonneg := by
    rw [h.count]
    exact Int.natCast_nonneg _
  le_max := by
    have hle := length_occupied_le (-1) s.activeConnections
    have hcount := h.count
    have hsize := h.size
    unfold Server.entries at hcount
    omega
  same := h.same
  free hlt := by
    apply free_mem_of_lt
    have hcount := h.count
    have hsize := h.size
    unfold Server.entries at hcount
    omega

/-- In every interleaving the table holds the descriptors of the registered workers, as often as they
have been entered, and the count is their number. -/
theorem reaches_tableLaw {s : Server} (h : Reaches machine anyStep {} s) : TableLaw s := by
  have hkept : Kept s :=
    h.invariant kept_init fun t event u ht _ hstep ↦ ht.next (stepped_of_step hstep)
  exact hkept.tableLaw

/-- A descriptor is given to a second worker before the first has left the table. -/
theorem reaches_tableLaw_reused :
    ∃ s, Reaches machine anyStep {} s ∧ s.registered = [7, 7] ∧ TableLaw s := by
  have hrun : (run machine {}
      [.accept 7, .register 0, .quit 0, .accept 7, .register 1]).map
        (fun s ↦ decide (s.registered = [7, 7])) = some true := by decide +kernel
  obtain ⟨s, hreach, hregistered⟩ := reaches_of_run_check hrun
  exact ⟨s, hreach, of_decide_eq_true hregistered, reaches_tableLaw hreach⟩

end PennCloud.Webmail.Connections
