import PennCloud.Webmail.Protocol

/-!
# Messages and their recipients

A message should go to the recipients named for it. The worker keeps the recipients of a finished
message: the next `MAIL FROM` is refused until an `RSET`, and a `DATA` sends the next message to
the old recipients.
-/

open PennCloud.KV.TabletCells PennCloud.Library.Runs PennCloud.Library.History
open PennCloud.Webmail.MailServer PennCloud.Webmail.Protocol

namespace PennCloud.Webmail.Transactions

/-- The user of the mailbox was named after the `MAIL FROM` of the sender in the message, and after
the end of the previous message. -/
def OwnRecipient (site : Site) (before : List Exchange) (path data : Bytes) : Prop :=
  ∃ user sender domain front r after, path = mailbox site user ∧
    before = front ++ r :: after ∧ r.AcceptedRcpt user (lit "localhost") ∧
    (∃ m ∈ front, m.AcceptedMail sender domain) ∧ fromLine sender domain [] <+: data ∧
    ∀ y ∈ after, ¬y.EndsMessage

def OwnRecipients (site : Site) (before : List Exchange) (x : Exchange) : Prop :=
  ∀ path data, .append path data ∈ x.effects → OwnRecipient site before path data

/-- Every well-formed `MAIL FROM` is accepted. -/
def AcceptsMail (site : Site) (s : Session) : Prop :=
  ∀ user domain around, Address user → Address domain →
    (process site around s
      (lit "MAIL FROM:" ++ (lit "<" ++ user ++ lit "@" ++ domain ++ lit ">"))).effects = [.send ok]

structure OwnTransactions (site : Site) (c : Conversation) : Prop where
  recipients : Every (OwnRecipients site) c.past
  reopens : ∀ x ∈ c.past, x.EndsMessage → AcceptsMail site x.after

/-! ## The end of a message -/

/-- Only in data mode a line ends a message. -/
theorem dataMode_of_endsMessage {site : Site} {around : Surroundings} {s : Session} {line : Bytes}
    (hdot : lit "." <+: line) (hsend : .send ok ∈ (process site around s line).effects) :
    s.dataMode = true := by
  have hother : ok ≠ lit "500 Syntax error: command unrecognized\r\n" := by decide
  by_contra hmode
  rw [process, if_neg hmode, command, commandOf_dot hdot] at hsend
  simp [respond, hother] at hsend

/-- Only the end of a message writes to mailboxes. -/
theorem endsMessage_of_append {site : Site} {around : Surroundings} {s : Session}
    {line path data : Bytes} (h : .append path data ∈ (process site around s line).effects) :
    lit "." <+: line ∧ .send ok ∈ (process site around s line).effects := by
  have hmode := (append_mem_process h).1
  rw [process, if_pos hmode, dataLine] at h ⊢
  split at h
  · next hdot =>
    rw [if_pos hdot]
    exact ⟨hdot, List.mem_append_right _ (List.mem_singleton_self _)⟩
  · exact absurd h List.not_mem_nil

/-- After a message the recipients are still there. -/
theorem rcptTo_of_endsMessage {site : Site} {c : Conversation}
    {ok : Conversation → Bytes × Surroundings → Prop} (h : Reaches (machine site) ok {} c) :
    ∀ x ∈ c.past, x.EndsMessage → x.after.dataMode = false ∧ x.after.rcptTo ≠ [] := by
  have hevery := reaches_every
    (P := fun _ x ↦ x.EndsMessage → x.after.dataMode = false ∧ x.after.rcptTo ≠ []) h
    fun c event hc _ hends ↦ by
      have hmode := dataMode_of_endsMessage hends.1 hends.2
      have hne := (reaches_tracks hc).mode hmode
      rw [process, if_pos hmode, dataLine, if_pos hends.1]
      exact ⟨rfl, hne⟩
  intro x hx
  obtain ⟨before, after, hpast⟩ := List.append_of_mem hx
  exact hevery before x after hpast

theorem mailFrom_ne_ok {s : Session} (hrcpt : s.rcptTo ≠ []) (argument : Bytes) :
    (mailFrom s argument).2 ≠ ok := by
  unfold mailFrom
  split
  · exact (by decide : helloFirst ≠ ok)
  · dsimp only
    decide

/-- With a recipient no `MAIL FROM` is accepted. -/
theorem not_acceptsMail {site : Site} {s : Session} (hmode : s.dataMode = false)
    (hrcpt : s.rcptTo ≠ []) : ¬AcceptsMail site s := by
  have haddress : Address (lit "a") := ⟨List.cons_ne_nil _ _, by decide +kernel⟩
  intro haccepts
  have hmail := haccepts _ _ { ctime := [], opens := fun _ ↦ true } haddress haddress
  have hcommand : commandOf
      (lit "MAIL FROM:" ++ (lit "<" ++ lit "a" ++ lit "@" ++ lit "a" ++ lit ">")) =
        .mailFrom (lit "<a@a>") := by decide
  rw [process, if_neg (by simp [hmode]), command, hcommand] at hmail
  exact mailFrom_ne_ok hrcpt _ (Effect.send.inj (List.singleton_inj.mp hmail))

/-! ## Fresh messages -/

/-- No `DATA` is sent between a completed message and the next accepted `RSET`. -/
def FreshData (c : Conversation) (event : Bytes × Surroundings) : Prop :=
  c.session.dataMode = false → commandOf event.1 = .data → ∀ x ∈ sinceReset c.past, ¬x.EndsMessage

/-- While a message is written, none has been completed since the last `RSET`. -/
theorem reaches_fresh {site : Site} {c : Conversation} (h : Reaches (machine site) FreshData {} c) :
    c.session.dataMode = true → ∀ x ∈ sinceReset c.past, ¬x.EndsMessage := by
  induction h with
  | refl => exact fun hmode ↦ absurd hmode Bool.false_ne_true
  | @tail c next event hreach hfresh hstep ih =>
    obtain ⟨-, rfl⟩ := Conversation.step_eq_some hstep
    have hprocessed := processed site event.2 c.session event.1
    dsimp only
    generalize process site event.2 c.session event.1 = outcome at hprocessed
    intro hmode
    cases hprocessed with
    | text hbefore hdot =>
      rw [sinceReset_concat fun _ ↦ List.not_mem_nil]
      intro x hx
      rcases List.mem_append.mp hx with hold | hnew
      · exact ih hbefore x hold
      · obtain rfl := List.mem_singleton.mp hnew
        exact fun hends ↦ hdot hends.1
    | data hbefore hcommand hrcpt =>
      rw [sinceReset_command hcommand Command.noConfusion]
      intro x hx
      rcases List.mem_append.mp hx with hold | hnew
      · exact hfresh hbefore hcommand x hold
      · obtain rfl := List.mem_singleton.mp hnew
        intro hends
        rw [commandOf_dot hends.1] at hcommand
        cases hcommand
    | finished => exact absurd hmode Bool.false_ne_true
    | helo hbefore => exact absurd hmode (Bool.eq_false_iff.mp hbefore)
    | mail hbefore => exact absurd hmode (Bool.eq_false_iff.mp hbefore)
    | rcpt hbefore => exact absurd hmode (Bool.eq_false_iff.mp hbefore)
    | reset => exact absurd hmode Bool.false_ne_true
    | noop hbefore => exact absurd hmode (Bool.eq_false_iff.mp hbefore)
    | refused hbefore => exact absurd hmode (Bool.eq_false_iff.mp hbefore)

/-- A message without an earlier one since the last `RSET` goes to its own recipients. -/
theorem ownRecipients_of_fresh {site : Site} {around : Surroundings} {s : Session}
    {past : List Exchange} (htracks : Tracks s (sinceReset past))
    (hfresh : s.dataMode = true → ∀ x ∈ sinceReset past, ¬x.EndsMessage) (line : Bytes)
    {path data : Bytes} (happend : .append path data ∈ (process site around s line).effects) :
    OwnRecipient site past path data := by
  obtain ⟨hmode, rfl, user, -, hpath, hmem⟩ := append_mem_process happend
  obtain ⟨h, m, r, hsub, -, hmail, hrcpt⟩ := htracks.rcpts _ hmem
  have hlast : ([h, m] ++ [r]).Sublist (sinceReset past) := hsub
  obtain ⟨front, after, hsplit, hbefore⟩ := exists_split_of_sublist_concat hlast
  obtain ⟨early, hearly⟩ := since_suffix (p := Exchange.AcceptedReset) past
  refine ⟨user, s.mailFromUser, s.mailFromDomain, early ++ front, r, after, hpath, ?_, hrcpt,
    ⟨m, ?_, hmail⟩, htracks.heading hmode, ?_⟩
  · rw [List.append_assoc, ← hsplit]
    exact hearly.symm
  · exact List.mem_append_right _ (hbefore.subset (by simp))
  · intro y hy
    apply hfresh hmode
    rw [hsplit]
    exact List.mem_append_right _ (List.mem_cons_of_mem _ hy)

/-! ## The law -/

/-- A session keeps the law of its transactions exactly when it completes no message. The recipients
alone are right in every session that resets before each further message. -/
theorem own_transactions_iff (site : Site) :
    (∀ events, OwnTransactions site (converse site events) ↔
      ∀ x ∈ (converse site events).past, ¬x.EndsMessage) ∧
    ∀ c, Reaches (machine site) FreshData {} c → Every (OwnRecipients site) c.past := by
  constructor
  · intro events
    have hreach := reaches_converse site events
    constructor
    · intro hown x hx hends
      obtain ⟨hmode, hrcpt⟩ := rcptTo_of_endsMessage hreach x hx hends
      exact not_acceptsMail hmode hrcpt (hown.reopens x hx hends)
    · intro hnone
      refine ⟨?_, fun x hx hends ↦ absurd hends (hnone x hx)⟩
      have hevery := reaches_every (P := fun _ x ↦ (∃ path data, .append path data ∈ x.effects) →
        x.EndsMessage) hreach fun c event hc _ ⟨_, _, happend⟩ ↦
          endsMessage_of_append happend
      intro before x after hpast path data happend
      have hends := hevery before x after hpast ⟨path, data, happend⟩
      have hx : x ∈ (converse site events).past := by
        rw [hpast]
        exact List.mem_append_right _ List.mem_cons_self
      exact absurd hends (hnone x hx)
  · intro c hreach
    exact reaches_every hreach fun c event hc _ path data happend ↦
      ownRecipients_of_fresh (reaches_tracks hc) (reaches_fresh hc) event.1 happend

/-! ## Two messages -/

def oneUser : Site where
  directory := lit "mail"
  localhostUsers := [lit "user"]

def openAll : Surroundings where
  ctime := lit "now\n"
  opens := fun _ ↦ true

/-- A message, a `MAIL FROM` that is refused, and a second message without recipients of its own. -/
def twoMessages : List (Bytes × Surroundings) :=
  ["HELO client", "MAIL FROM:<sender@client>", "RCPT TO:<user@localhost>", "DATA", ".",
    "MAIL FROM:<other@client>", "DATA", "."].map fun line ↦ (lit line, openAll)

/-- The second message goes to the recipient of the first. -/
theorem second_message_leaks :
    ¬OwnTransactions oneUser (converse oneUser twoMessages) ∧
      ¬Every (OwnRecipients oneUser) (converse oneUser twoMessages).past := by
  have hleak : ¬Every (OwnRecipients oneUser) (converse oneUser twoMessages).past := by
    have hne : (converse oneUser twoMessages).past ≠ [] := by decide
    have hsecond : since Exchange.EndsMessage (converse oneUser twoMessages).past.dropLast =
        (converse oneUser twoMessages).past.dropLast.drop 5 := rfl
    have hnone : ∀ r ∈ (converse oneUser twoMessages).past.dropLast.drop 5, ∀ argument,
        commandOf r.line ≠ .rcptTo argument := by
      rintro r (_ | ⟨_, _ | ⟨_, _ | _⟩⟩) argument hcommand
      all_goals cases hcommand
    intro hevery
    obtain ⟨user, sender, domain, front, r, after, -, hbefore, hrcpt, -, -, hafter⟩ :=
      hevery _ _ [] (List.dropLast_append_getLast hne).symm (mailbox oneUser (lit "user"))
        (fromLine (lit "sender") (lit "client") (lit "now\n")) (.head _)
    obtain ⟨argument, hcommand, -⟩ := hrcpt
    refine hnone r ?_ argument hcommand
    rw [← hsecond, hbefore]
    refine mem_since (fun hends ↦ ?_) hafter
    rw [commandOf_dot hends.1] at hcommand
    cases hcommand
  exact ⟨fun hown ↦ hleak hown.recipients, hleak⟩

end PennCloud.Webmail.Transactions
