import PennCloud.Webmail.Protocol

/-!
# Refused commands

A command that is answered with an error should leave the session as it was. All commands check before
they assign, except `HELO`: it stores the client domain first and then refuses the empty one.
-/

open PennCloud.KV.TabletCells PennCloud.Library.Runs PennCloud.Library.History
open PennCloud.Webmail.MailServer PennCloud.Webmail.Protocol

namespace PennCloud.Webmail.Refusals

/-- A reply whose code begins with the digit 4 or 5. -/
def IsError (reply : Bytes) : Prop := reply.head? = some 52 ∨ reply.head? = some 53

instance (reply : Bytes) : Decidable (IsError reply) := inferInstanceAs (Decidable (_ ∨ _))

/-- A line in command mode that is answered with an error keeps the session. -/
def RefusalKeeps (site : Site) (around : Surroundings) (s : Session) (line : Bytes) : Prop :=
  s.dataMode = false → ∀ reply, (process site around s line).effects = [.send reply] →
    IsError reply → (process site around s line).session = s

/-- An empty `HELO` of a client that has said `HELO` before and no `MAIL FROM` since. -/
def ForgetsClient (s : Session) (line : Bytes) : Prop :=
  s.dataMode = false ∧ s.initialState = true ∧ commandOf line = .helo [] ∧ s.clientDomain ≠ []

theorem process_helo {site : Site} {around : Surroundings} {s : Session} {line argument : Bytes}
    (hmode : s.dataMode = false) (hline : commandOf line = .helo argument) :
    process site around s line = respond (helo s argument) := by
  rw [process, if_neg (by rw [hmode]; exact Bool.false_ne_true), command, hline]

theorem helo_empty {s : Session} (hinitial : s.initialState = true) :
    helo s [] = ({ s with clientDomain := [] },
      lit "501 Syntax error: argument of HELO cannot be empty!\r\n") := by
  simp [helo, hinitial]

theorem refusalKeeps_helo {site : Site} {around : Surroundings} {s : Session}
    {line argument : Bytes} (hline : commandOf line = .helo argument) :
    RefusalKeeps site around s line ↔ ¬ForgetsClient s line := by
  constructor
  · rintro h ⟨hmode, hinitial, hempty, hclient⟩
    obtain rfl := Command.helo.inj (hline.symm.trans hempty)
    have hoff := @process_helo site around _ _ _ hmode hline
    rw [helo_empty hinitial] at hoff
    have herror : IsError (lit "501 Syntax error: argument of HELO cannot be empty!\r\n") := by
      decide +kernel
    have hkeeps := h hmode _ (by rw [hoff]; rfl) herror
    rw [hoff] at hkeeps
    exact hclient (congrArg Session.clientDomain hkeeps).symm
  · intro h hmode reply hreply herror
    rw [process_helo hmode hline] at hreply ⊢
    cases hinitial : s.initialState with
    | false => simp [respond, helo, hinitial]
    | true =>
      by_cases hempty : argument = []
      · subst hempty
        have hclient : s.clientDomain = [] := by
          by_contra hclient
          exact h ⟨hmode, hinitial, hline, hclient⟩
        rw [helo_empty hinitial]
        simp only [respond]
        rw [← hclient]
      · simp only [respond, helo, hinitial, hempty, Bool.not_true, Bool.false_eq_true,
          if_false, List.cons.injEq, Effect.send.injEq, and_true] at hreply
        rw [← hreply] at herror
        exact absurd herror (by decide +kernel)

/-- The other commands change nothing before their checks. -/
theorem refusalKeeps_other {site : Site} {around : Surroundings} {s : Session} {line : Bytes}
    (hline : ∀ argument, commandOf line ≠ .helo argument) : RefusalKeeps site around s line := by
  intro hmode reply hreply herror
  have hok : ¬IsError ok := by decide +kernel
  have haccepting : ¬IsError (lit "354 Accepting data.\r\n") := by decide +kernel
  have hprocessed := processed site around s line
  generalize process site around s line = outcome at hreply hprocessed
  cases hprocessed with
  | text hmode' => exact absurd (hmode.symm.trans hmode') Bool.false_ne_true
  | finished hmode' => exact absurd (hmode.symm.trans hmode') Bool.false_ne_true
  | helo _ argument _ hcommand => exact absurd hcommand (hline argument)
  | mail =>
    obtain rfl := Effect.send.inj (List.cons.inj hreply).1
    exact absurd herror hok
  | rcpt =>
    obtain rfl := Effect.send.inj (List.cons.inj hreply).1
    exact absurd herror hok
  | data =>
    obtain rfl := Effect.send.inj (List.cons.inj hreply).1
    exact absurd herror haccepting
  | reset =>
    obtain rfl := Effect.send.inj (List.cons.inj hreply).1
    exact absurd herror hok
  | noop => rfl
  | refused => rfl

/-- One line. -/
theorem refusalKeeps_iff (site : Site) (around : Surroundings) (s : Session) (line : Bytes) :
    RefusalKeeps site around s line ↔ ¬ForgetsClient s line := by
  by_cases hline : ∃ argument, commandOf line = .helo argument
  · obtain ⟨argument, hline⟩ := hline
    exact refusalKeeps_helo hline
  · rw [not_exists] at hline
    exact iff_of_true (refusalKeeps_other hline) fun h ↦ hline _ h.2.2.1

/-! ## Runs -/

/-- The session after these exchanges. -/
def sessionAfter (past : List Exchange) : Session := (past.getLast?.map Exchange.after).getD {}

theorem sessionAfter_concat (past : List Exchange) (x : Exchange) :
    sessionAfter (past ++ [x]) = x.after := by
  simp [sessionAfter]

theorem session_eq_sessionAfter {site : Site} {ok : Conversation → Bytes × Surroundings → Prop}
    {c : Conversation} (h : Reaches (machine site) ok {} c) :
    c.session = sessionAfter c.past := by
  refine h.invariant (I := fun c ↦ c.session = sessionAfter c.past) rfl ?_
  intro c event next _ _ hstep
  obtain ⟨-, rfl⟩ := Conversation.step_eq_some hstep
  rw [sessionAfter_concat]

/-- The exchange did not change the session if it was a refused command. -/
def KeepsSession (before : List Exchange) (x : Exchange) : Prop :=
  (sessionAfter before).dataMode = false → ∀ reply, x.effects = [.send reply] → IsError reply →
    x.after = sessionAfter before

/-- In a conversation the refused commands change nothing exactly when no empty `HELO` comes after
another `HELO` that still counts. -/
theorem refusals_keep_session_iff (site : Site) (events : List (Bytes × Surroundings)) :
    Every KeepsSession (converse site events).past ↔
      Every (fun before x ↦ ¬ForgetsClient (sessionAfter before) x.line)
        (converse site events).past := by
  have hreach := reaches_converse site events
  have hiff : Every (fun before x ↦ KeepsSession before x ↔
      ¬ForgetsClient (sessionAfter before) x.line) (converse site events).past := by
    refine reaches_every (P := fun before x ↦ KeepsSession before x ↔
      ¬ForgetsClient (sessionAfter before) x.line) hreach fun c event hc _ ↦ ?_
    rw [KeepsSession, ← session_eq_sessionAfter hc]
    exact refusalKeeps_iff site event.2 c.session event.1
  constructor
  · intro h before x after hpast
    exact (hiff before x after hpast).mp (h before x after hpast)
  · intro h before x after hpast
    exact (hiff before x after hpast).mpr (h before x after hpast)

def noUsers : Site where
  directory := []
  localhostUsers := []

def quiet : Surroundings where
  ctime := []
  opens := fun _ ↦ true

/-- The refused second `HELO` takes away what the first one said. -/
theorem refused_helo_forgets_client :
    ¬Every KeepsSession
      (converse noUsers [(lit "HELO client", quiet), (lit "HELO ", quiet)]).past := by
  intro h
  have hkeeps := h [⟨lit "HELO client", [.send (lit "250 localhost\r\n")],
    { clientDomain := lit "client" }⟩] _ [] rfl rfl _ rfl (by decide +kernel)
  revert hkeeps
  decide +kernel

end PennCloud.Webmail.Refusals
