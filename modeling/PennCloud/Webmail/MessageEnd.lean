import PennCloud.Webmail.Protocol

/-!
# The end of a message

The text of a message should end at the first line that is a single dot. The worker compares one
byte of a line, so that every line with a dot in front ends the message, a line that the client
has stuffed with a dot among them.
-/

open PennCloud.KV.TabletCells PennCloud.Webmail.MailServer

namespace PennCloud.Webmail.MessageEnd

def dot : Bytes := lit "."

/-! ## Lines in a row -/

/-- What lines cause, up to the end of the session. -/
def processAll (site : Site) : Session → List (Bytes × Surroundings) → Session × List Effect
  | s, [] => (s, [])
  | s, (line, around) :: events =>
    let outcome := process site around s line
    if outcome.quit then (outcome.session, outcome.effects)
    else
      let rest := processAll site outcome.session events
      (rest.1, outcome.effects ++ rest.2)

theorem processAll_text {site : Site} {around : Surroundings} {s : Session} {line : Bytes}
    (hmode : s.dataMode = true) (hdot : ¬dot <+: line) (events : List (Bytes × Surroundings)) :
    processAll site s ((line, around) :: events) =
      processAll site { s with data := s.data ++ line ++ lit "\r\n" } events := by
  rw [processAll, process, if_pos hmode, dataLine, if_neg (show ¬lit "." <+: line from hdot)]
  rfl

theorem processAll_dot {site : Site} {around : Surroundings} {s : Session} {line : Bytes}
    (hmode : s.dataMode = true) (hdot : dot <+: line) :
    processAll site s [(line, around)] =
      ((finishMessage site around s).session, (finishMessage site around s).effects) := by
  rw [processAll, process, if_pos hmode, dataLine, if_pos (show lit "." <+: line from hdot)]
  simp [finishMessage, processAll]

/-! ## The message -/

/-- The line without the dot that the client has put in front of a dot. -/
def unstuff (line : Bytes) : Bytes := if dot <+: line then line.drop 1 else line

def text (events : List (Bytes × Surroundings)) : Bytes :=
  events.flatMap fun event ↦ unstuff event.1 ++ lit "\r\n"

/-- What a message causes that is stored for these recipients. -/
def stored (site : Site) (around : Surroundings) (rcptTo : List (Bytes × Bytes)) (data : Bytes) :
    List Effect :=
  (rcptTo.zipIdx.flatMap fun (rcpt, i) ↦ deliver site data (around.opens i) rcpt) ++ [.send ok]

/-- A session in data mode takes every line before the first single dot as text and stores the
message there, behind its heading. -/
structure EndsAtDot (site : Site) (s : Session) (heading : Bytes)
    (events : List (Bytes × Surroundings)) : Prop where
  goesOn : ∀ before, before <+: events → (∀ event ∈ before, event.1 ≠ dot) →
    (processAll site s before).1.dataMode = true ∧ (processAll site s before).2 = []
  ends : ∀ before around, before ++ [(dot, around)] <+: events →
    (∀ event ∈ before, event.1 ≠ dot) →
      (processAll site s (before ++ [(dot, around)])).1.dataMode = false ∧
      (processAll site s (before ++ [(dot, around)])).2 =
        stored site around s.rcptTo (heading ++ text before)

/-- No line before the first single dot has a dot in front. -/
def Undotted (events : List (Bytes × Surroundings)) : Prop :=
  ∀ event ∈ events.takeWhile (·.1 ≠ dot), ¬dot <+: event.1

theorem Undotted.not_prefix {events before : List (Bytes × Surroundings)} (h : Undotted events)
    (hbefore : before <+: events) (hdots : ∀ event ∈ before, event.1 ≠ dot) :
    ∀ event ∈ before, ¬dot <+: event.1 := by
  obtain ⟨after, rfl⟩ := hbefore
  intro event hmem
  refine h event ?_
  rw [List.takeWhile_append_of_pos fun event hmem ↦ decide_eq_true (hdots event hmem)]
  exact List.mem_append_left _ hmem

/-- Lines without a dot in front are appended to the message. -/
theorem processAll_undotted (site : Site) {s : Session} (hmode : s.dataMode = true)
    {before : List (Bytes × Surroundings)} (hdots : ∀ event ∈ before, ¬dot <+: event.1)
    (events : List (Bytes × Surroundings)) :
    processAll site s (before ++ events) =
      processAll site { s with data := s.data ++ text before } events := by
  induction before generalizing s with
  | nil => simp [text]
  | cons event before ih =>
    have hdot := hdots event List.mem_cons_self
    rw [List.cons_append, processAll_text hmode hdot,
      ih (by exact hmode) fun event hmem ↦ hdots event (List.mem_cons_of_mem _ hmem)]
    simp [text, unstuff, hdot]

/-- While lines keep data mode, none of them has a dot in front. -/
theorem undotted_of_dataMode {site : Site} {s : Session} (hmode : s.dataMode = true)
    {events : List (Bytes × Surroundings)}
    (h : ∀ before, before <+: events → (processAll site s before).1.dataMode = true) :
    ∀ event ∈ events, ¬dot <+: event.1 := by
  induction events generalizing s with
  | nil => exact fun _ hmem ↦ absurd hmem List.not_mem_nil
  | cons event events ih =>
    have hfirst : ¬dot <+: event.1 := by
      intro hdot
      have hends := h [event] ⟨events, rfl⟩
      rw [processAll_dot hmode hdot] at hends
      exact Bool.false_ne_true hends
    intro event' hmem
    rcases List.mem_cons.mp hmem with rfl | hmem
    · exact hfirst
    · refine ih (s := { s with data := s.data ++ event.1 ++ lit "\r\n" }) hmode ?_ event' hmem
      intro before hbefore
      have hstays := h (event :: before) (List.prefix_cons_inj event |>.mpr hbefore)
      rwa [processAll_text hmode hfirst] at hstays

/-- After an accepted `DATA` the message ends at the first single dot and holds the lines before it
exactly when none of these lines has a dot in front. -/
theorem message_endsAtDot_iff (site : Site) (around : Surroundings) (s : Session) (line : Bytes)
    (hmode : s.dataMode = false) (hline : commandOf line = .data) (hrcpt : s.rcptTo ≠ [])
    (events : List (Bytes × Surroundings)) :
    EndsAtDot site (process site around s line).session
        (fromLine s.mailFromUser s.mailFromDomain around.ctime) events ↔ Undotted events := by
  have hbegin : (process site around s line).session = { s with
      dataMode := true
      data := fromLine s.mailFromUser s.mailFromDomain around.ctime } := by
    rw [process, if_neg (by rw [hmode]; exact Bool.false_ne_true), command, hline]
    simp [respond, beginData, hrcpt]
  have hstarted : (process site around s line).session.dataMode = true := by rw [hbegin]
  have hdata : (process site around s line).session.data =
      fromLine s.mailFromUser s.mailFromDomain around.ctime := by rw [hbegin]
  rw [← hdata]
  generalize (process site around s line).session = s' at hstarted
  constructor
  · intro h
    apply undotted_of_dataMode hstarted
    intro before hbefore
    refine (h.goesOn before (hbefore.trans (List.takeWhile_prefix _)) fun event hmem ↦ ?_).1
    have hne := List.mem_takeWhile_imp (hbefore.subset hmem)
    exact of_decide_eq_true hne
  · intro h
    constructor
    · intro before hbefore hdots
      have hplain := processAll_undotted site hstarted (h.not_prefix hbefore hdots) []
      rw [List.append_nil] at hplain
      rw [hplain]
      exact ⟨hstarted, rfl⟩
    · intro before around hbefore hdots
      have hfront := (List.prefix_append before _).trans hbefore
      rw [processAll_undotted site hstarted (h.not_prefix hfront hdots),
        processAll_dot (by exact hstarted) List.prefix_rfl]
      exact ⟨rfl, rfl⟩

/-- A session with a recipient. -/
def readyForData : Session where
  clientDomain := lit "client"
  initialState := false
  mailFromUser := lit "a"
  mailFromDomain := lit "b"
  rcptTo := [(lit "c", lit "d")]

def elsewhere : Site where
  directory := []
  localhostUsers := []

def midnight : Surroundings where
  ctime := lit "Mon Jan  1 00:00:00 2024\n"
  opens := fun _ ↦ true

theorem message_endsAtDot_plain :
    EndsAtDot elsewhere (process elsewhere midnight readyForData (lit "DATA")).session
      (fromLine (lit "a") (lit "b") midnight.ctime)
      [(lit "text", midnight), (lit ".", midnight)] :=
  (message_endsAtDot_iff elsewhere midnight readyForData (lit "DATA") rfl (by decide +kernel)
    (by decide +kernel) _).mpr (by unfold Undotted; decide +kernel)

/-- A line of three dots, stuffed by the client, ends the message. -/
theorem message_ends_at_stuffed_line :
    ¬EndsAtDot elsewhere (process elsewhere midnight readyForData (lit "DATA")).session
      (fromLine (lit "a") (lit "b") midnight.ctime)
      [(lit "....", midnight), (lit ".", midnight)] := by
  intro h
  have hmode := (h.goesOn [(lit "....", midnight)] ⟨_, rfl⟩ (by decide +kernel)).1
  revert hmode
  decide +kernel

end PennCloud.Webmail.MessageEnd
