import PennCloud.Webmail.Protocol

/-!
# The reply to a finished message

The end of a message should get one reply, and `250 OK` only after the message has been appended to
the mailbox of every accepted recipient. The worker replies to every recipient it cannot serve, says
nothing of a recipient in another domain, and closes with `250 OK` in every case.
-/

open PennCloud.KV.TabletCells PennCloud.Library.Runs PennCloud.Library.History
open PennCloud.Webmail.MailServer PennCloud.Webmail.Protocol

namespace PennCloud.Webmail.Delivery

def reply? : Effect → Option Bytes
  | .send response => some response
  | .append _ _ => none

/-- The replies among the effects of a line. -/
def replies (effects : List Effect) : List Bytes := effects.filterMap reply?

/-- The recipient that an exchange adds. -/
def acceptedRcpt? (x : Exchange) : Option (Bytes × Bytes) :=
  match commandOf x.line with
  | .rcptTo argument => if x.effects = [.send ok] then matchAddress argument else none
  | _ => none

/-- The recipients whose `RCPT TO` was answered `250 OK` since the last `RSET`. -/
def acceptedRcpts (past : List Exchange) : List (Bytes × Bytes) :=
  (sinceReset past).filterMap acceptedRcpt?

/-- Only recipients at this host have a mailbox here. -/
structure Delivered (site : Site) (data : Bytes) (effects : List Effect) (rcpt : Bytes × Bytes) :
    Prop where
  domain : rcpt.2 = lit "localhost"
  appended : .append (mailbox site rcpt.1) data ∈ effects

/-- One reply, which is `250 OK` only if every recipient has the message. -/
structure ReportsDelivery (site : Site) (rcpts : List (Bytes × Bytes)) (data : Bytes)
    (effects : List Effect) : Prop where
  single : ∃ response, replies effects = [response]
  honest : ok ∈ replies effects → ∀ rcpt ∈ rcpts, Delivered site data effects rcpt

/-- Every recipient is a user of this host whose mailbox can be opened. -/
def AllOpen (site : Site) (around : Surroundings) (rcpts : List (Bytes × Bytes)) : Prop :=
  ∀ rcpt i, (rcpt, i) ∈ rcpts.zipIdx →
    rcpt.1 ∈ site.localhostUsers ∧ rcpt.2 = lit "localhost" ∧ around.opens i = true

/-! ## The recipients of a session -/

theorem acceptedRcpts_concat {past : List Exchange} {x : Exchange}
    (h : commandOf x.line = .rset → .send ok ∉ x.effects) :
    acceptedRcpts (past ++ [x]) = acceptedRcpts past ++ (acceptedRcpt? x).toList := by
  unfold acceptedRcpts
  rw [sinceReset_concat h, List.filterMap_append]
  cases hrcpt : acceptedRcpt? x with
  | none => simp [hrcpt]
  | some rcpt => simp [hrcpt]

theorem acceptedRcpts_concat_none {past : List Exchange} {x : Exchange}
    (h : commandOf x.line = .rset → .send ok ∉ x.effects) (hnone : acceptedRcpt? x = none) :
    acceptedRcpts (past ++ [x]) = acceptedRcpts past := by
  rw [acceptedRcpts_concat h, hnone, Option.toList_none, List.append_nil]

/-- No other command adds a recipient. -/
theorem acceptedRcpts_command {past : List Exchange} {line : Bytes} {command : Command}
    (hcommand : commandOf line = command) (hreset : command ≠ .rset)
    (hrcpt : ∀ argument, command ≠ .rcptTo argument) (effects : List Effect) (session : Session) :
    acceptedRcpts (past ++ [⟨line, effects, session⟩]) = acceptedRcpts past := by
  subst hcommand
  refine acceptedRcpts_concat_none (fun h ↦ absurd h hreset) ?_
  unfold acceptedRcpt?
  split
  · next argument h => exact absurd h (hrcpt argument)
  · rfl

/-- Without the reply `250 OK` no recipient is added. -/
theorem acceptedRcpts_refused {past : List Exchange} {x : Exchange} (h : .send ok ∉ x.effects) :
    acceptedRcpts (past ++ [x]) = acceptedRcpts past := by
  refine acceptedRcpts_concat_none (fun _ ↦ h) ?_
  unfold acceptedRcpt?
  split
  · refine if_neg fun heffects ↦ h ?_
    rw [heffects]
    exact List.mem_singleton_self _
  · rfl

/-- The worker remembers the accepted recipients, in order. -/
theorem rcptTo_eq_acceptedRcpts {site : Site} {ok : Conversation → Bytes × Surroundings → Prop}
    {c : Conversation} (h : Reaches (machine site) ok {} c) :
    c.session.rcptTo = acceptedRcpts c.past := by
  induction h with
  | refl => rfl
  | @tail c next event _ _ hstep ih =>
    obtain ⟨-, rfl⟩ := Conversation.step_eq_some hstep
    have hprocessed := processed site event.2 c.session event.1
    have hother {command : Command} (hcommand : commandOf event.1 = command)
        (hreset : command ≠ .rset) (hrcpt : ∀ argument, command ≠ .rcptTo argument)
        (effects : List Effect) (session : Session) :
        c.session.rcptTo = acceptedRcpts (c.past ++ [⟨event.1, effects, session⟩]) :=
      ih.trans (acceptedRcpts_command hcommand hreset hrcpt effects session).symm
    dsimp only
    generalize process site event.2 c.session event.1 = outcome at hprocessed
    cases hprocessed with
    | text => exact ih.trans (acceptedRcpts_refused List.not_mem_nil).symm
    | finished hmode hdot =>
      exact hother (commandOf_dot hdot) Command.noConfusion (fun _ ↦ Command.noConfusion) _ _
    | helo hmode argument response hcommand =>
      exact hother hcommand Command.noConfusion (fun _ ↦ Command.noConfusion) _ _
    | mail hmode argument user domain hcommand =>
      exact hother hcommand Command.noConfusion (fun _ ↦ Command.noConfusion) _ _
    | rcpt hmode argument user domain hcommand hsender hmatch =>
      have hadded : ∀ session, acceptedRcpt? ⟨event.1, [.send MailServer.ok], session⟩ =
          some (user, domain) := by
        intro session
        simp only [acceptedRcpt?, hcommand, if_true, hmatch]
      rw [acceptedRcpts_concat fun hreset ↦ absurd (hcommand.symm.trans hreset) Command.noConfusion]
      simp only [respond, hadded, Option.toList_some, ih]
    | data hmode hcommand =>
      exact hother hcommand Command.noConfusion (fun _ ↦ Command.noConfusion) _ _
    | reset hmode hcommand =>
      have hreset : sinceReset (c.past ++ [⟨event.1, [.send MailServer.ok], {}⟩]) = [] :=
        since_concat_of ⟨hcommand, rfl⟩ c.past
      simp only [respond, acceptedRcpts, hreset]
      rfl
    | noop hmode hcommand =>
      exact hother hcommand Command.noConfusion (fun _ ↦ Command.noConfusion) _ _
    | refused hmode response quit hok =>
      refine ih.trans (acceptedRcpts_refused fun hin ↦ hok ?_).symm
      exact (Effect.send.inj (List.mem_singleton.mp hin)).symm

/-! ## The end of a message -/

theorem deliver_of_open {site : Site} {data : Bytes} {rcpt : Bytes × Bytes}
    (huser : rcpt.1 ∈ site.localhostUsers) (hdomain : rcpt.2 = lit "localhost") :
    deliver site data true rcpt = [.append (mailbox site rcpt.1) data] := by
  rw [deliver, if_neg (not_not.mpr huser), if_pos hdomain, if_pos rfl]

/-- Where no reply is sent for a recipient, the user is known and the mailbox could be opened. -/
theorem of_replies_deliver_eq_nil {site : Site} {data : Bytes} {opens : Bool}
    {rcpt : Bytes × Bytes} (h : replies (deliver site data opens rcpt) = []) :
    rcpt.1 ∈ site.localhostUsers ∧ (rcpt.2 = lit "localhost" → opens = true) := by
  unfold deliver at h
  split at h
  · cases h
  · next huser =>
    refine ⟨not_not.mp huser, fun hdomain ↦ ?_⟩
    rw [if_pos hdomain] at h
    split at h
    · next hopens => exact hopens
    · cases h

/-- The replies to the recipients come first. -/
theorem replies_finishMessage (site : Site) (around : Surroundings) (s : Session) :
    replies (finishMessage site around s).effects =
      (s.rcptTo.zipIdx.flatMap fun (rcpt, i) ↦
        replies (deliver site s.data (around.opens i) rcpt)) ++ [ok] := by
  unfold finishMessage replies
  rw [List.filterMap_append, List.filterMap_flatMap]
  rfl

/-- In whatever way a session has gone, the end of its message is reported rightly exactly when every
accepted recipient is a user of this host whose mailbox opens. -/
theorem endOfData_reportsDelivery_iff {site : Site} {c : Conversation}
    (h : Reaches (machine site) anyStep {} c) (hmode : c.session.dataMode = true) {line : Bytes}
    (hdot : lit "." <+: line) (around : Surroundings) :
    ReportsDelivery site (acceptedRcpts c.past) c.session.data
        (process site around c.session line).effects ↔
      AllOpen site around (acceptedRcpts c.past) := by
  rw [← rcptTo_eq_acceptedRcpts h, process, if_pos hmode, dataLine, if_pos hdot]
  have hreplies := replies_finishMessage site around c.session
  constructor
  · intro hreports rcpt i hmem
    obtain ⟨response, hsingle⟩ := hreports.single
    have hin : ok ∈ replies (finishMessage site around c.session).effects := by
      rw [hreplies]
      exact List.mem_append_right _ (List.mem_singleton_self _)
    have hdelivered := hreports.honest hin rcpt (List.fst_mem_of_mem_zipIdx hmem)
    have hnone : replies (deliver site c.session.data (around.opens i) rcpt) = [] := by
      rw [hreplies] at hsingle
      have hnil := List.append_inj_left' (hsingle.trans (List.nil_append [response]).symm) rfl
      exact List.flatMap_eq_nil_iff.mp hnil (rcpt, i) hmem
    obtain ⟨huser, hopens⟩ := of_replies_deliver_eq_nil hnone
    exact ⟨huser, hdelivered.domain, hopens hdelivered.domain⟩
  · intro hopen
    have hall : ∀ x ∈ c.session.rcptTo.zipIdx,
        deliver site c.session.data (around.opens x.2) x.1 =
          [.append (mailbox site x.1.1) c.session.data] := by
      intro x hx
      obtain ⟨huser, hdomain, hopens⟩ := hopen x.1 x.2 hx
      rw [hopens]
      exact deliver_of_open huser hdomain
    constructor
    · refine ⟨ok, ?_⟩
      rw [hreplies, List.flatMap_eq_nil_iff.mpr, List.nil_append]
      intro x hx
      dsimp only
      rw [hall x hx]
      rfl
    · intro _ rcpt hrcpt
      obtain ⟨i, hlt, hget⟩ := List.mem_iff_getElem.mp hrcpt
      have hmem : (rcpt, i) ∈ c.session.rcptTo.zipIdx :=
        List.mem_zipIdx_iff_getElem?.mpr (hget ▸ List.getElem?_eq_getElem hlt)
      refine ⟨(hopen rcpt i hmem).2.1, List.mem_append_left _ (List.mem_flatMap.mpr ⟨_, hmem, ?_⟩)⟩
      dsimp only
      rw [hall _ hmem]
      exact List.mem_singleton_self _

/-! ## A mailbox that cannot be opened -/

def oneUser : Site where
  directory := lit "mailboxes"
  localhostUsers := [lit "user"]

def around (opens : Bool) : Surroundings where
  ctime := lit "now\n"
  opens := fun _ ↦ opens

/-- A message for one local user, ready to be ended. -/
def message : List (Bytes × Surroundings) :=
  ["HELO client", "MAIL FROM:<sender@client>", "RCPT TO:<user@localhost>", "DATA"].map
    fun line ↦ (lit line, around true)

theorem endOfData_reportsDelivery_message :
    ReportsDelivery oneUser (acceptedRcpts (converse oneUser message).past)
        (converse oneUser message).session.data
        (process oneUser (around true) (converse oneUser message).session (lit ".")).effects ↔
      AllOpen oneUser (around true) (acceptedRcpts (converse oneUser message).past) :=
  endOfData_reportsDelivery_iff (reaches_converse oneUser message) rfl List.prefix_rfl _

/-- The reply that the message could not be written is followed by `250 OK`. -/
theorem failed_message_confirmed :
    let c := converse oneUser message
    let effects := (process oneUser (around false) c.session (lit ".")).effects
    replies effects =
        [lit "451 Requested action aborted: error when writing to local file.\r\n", ok] ∧
      ¬ReportsDelivery oneUser (acceptedRcpts c.past) c.session.data effects := by
  have hreplies : replies (process oneUser (around false) (converse oneUser message).session
      (lit ".")).effects =
        [lit "451 Requested action aborted: error when writing to local file.\r\n", ok] := rfl
  refine ⟨hreplies, fun hreports ↦ ?_⟩
  obtain ⟨response, hsingle⟩ := hreports.single
  rw [hreplies] at hsingle
  cases hsingle

end PennCloud.Webmail.Delivery
