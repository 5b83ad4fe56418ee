import PennCloud.Frontend.Mail
import PennCloud.Webmail.Framing
import PennCloud.Webmail.Protocol

/-!
# Mails from the frontend

`send_to_webmail` writes a `HELO`, the addresses, `DATA` and the text of a mail on a connection to the
mail server. Its `MAIL FROM: <` has a space that the mail server does not allow. Without a sender
the recipient and `DATA` are refused too, and the text is read as commands.
-/

open PennCloud.KV.TabletCells PennCloud.Library.TextSearch
open PennCloud.Frontend.Mail
open PennCloud.Webmail.MailServer PennCloud.Webmail.Framing PennCloud.Webmail.Protocol

namespace PennCloud.Webmail.Submission

/-! ## The sender -/

/-- Every backslash with an `n` becomes a line end. -/
def replaceLineEnds : Bytes → Bytes
  | 92 :: 110 :: message => crlf ++ replaceLineEnds message
  | b :: message => b :: replaceLineEnds message
  | [] => []

/-- What `send_to_webmail` sends, by the calls of `send`. -/
def sendToWebmail (mail : OutgoingMail) : List Bytes :=
  let srcCmd := lit "MAIL FROM: <" ++ mail.senderAddress ++ lit ">\r\n"
  let desCmd := lit "RCPT TO: <" ++ mail.recipientAddress ++ lit ">\r\n"
  let message := lit "From: <" ++ mail.senderAddress ++ lit ">\r\n" ++
    lit "To: <" ++ mail.recipientAddress ++ lit ">\r\n" ++ mail.message
  [lit "HELO Tester webmail\r\n", srcCmd, desCmd, lit "DATA\r\n",
    replaceLineEnds message ++ lit "\r\n", lit ".\r\n"]

/-! ## What should arrive -/

/-- The texts that a conversation has appended to a mailbox. -/
def appended (path : Bytes) (c : Conversation) : List Bytes :=
  c.past.flatMap fun x ↦ x.effects.filterMap fun effect ↦
    match effect with
    | .append path' data => if path' = path then some data else none
    | .send _ => none

/-- The message after the line that heads it. -/
def textOf (data : Bytes) : Bytes := (data.dropWhile (· ≠ 10)).drop 1

/-- The header lines and the whole text. -/
def wholeText (mail : OutgoingMail) : Bytes :=
  lit "From: <" ++ mail.senderAddress ++ lit ">\r\n" ++
    lit "To: <" ++ mail.recipientAddress ++ lit ">\r\n" ++
    replaceLineEnds mail.message ++ lit "\r\n"

/-- The lines before the text: four commands and two headers. -/
def opening (mail : OutgoingMail) : List Bytes := [
  lit "HELO Tester webmail",
  lit "MAIL FROM: <" ++ mail.senderAddress ++ lit ">",
  lit "RCPT TO: <" ++ mail.recipientAddress ++ lit ">",
  lit "DATA",
  lit "From: <" ++ mail.senderAddress ++ lit ">",
  lit "To: <" ++ mail.recipientAddress ++ lit ">"]

/-- The mail has arrived as it was sent. -/
structure Preserved (site : Site) (mail : OutgoingMail) (c : Conversation) : Prop where
  stored : ∃ user, mail.recipientAddress = user ++ lit "@localhost" ∧
    (appended (mailbox site user) c).map textOf = [wholeText mail]
  text : ∀ i x, (opening mail).length ≤ i + 1 → i + 1 < c.past.length → c.past[i]? = some x →
    x.after.dataMode = true

/-! ## The lines that are sent -/

/-- Neither a carriage return nor a backslash. -/
def Plain (text : Bytes) : Prop := 13 ∉ text ∧ 92 ∉ text

theorem plain_of_all {p : UInt8 → Bool} (hp : p 13 = false ∧ p 92 = false) {text : Bytes}
    (h : ∀ b ∈ text, p b = true) : Plain text := by
  constructor
  · exact fun hin ↦ Bool.false_ne_true (hp.1.symm.trans (h _ hin))
  · exact fun hin ↦ Bool.false_ne_true (hp.2.symm.trans (h _ hin))

theorem Plain.append {front rest : Bytes} (hfront : Plain front) (hrest : Plain rest) :
    Plain (front ++ rest) := by
  constructor
  · rw [List.mem_append, not_or]
    exact ⟨hfront.1, hrest.1⟩
  · rw [List.mem_append, not_or]
    exact ⟨hfront.2, hrest.2⟩

instance (text : Bytes) : Decidable (Plain text) := inferInstanceAs (Decidable (_ ∧ _))

theorem plain_dottedDomain {domain : Bytes} (h : isDottedDomain domain = true) : Plain domain := by
  simp only [isDottedDomain, Bool.and_eq_true, List.all_eq_true] at h
  obtain ⟨⟨⟨⟨-, -⟩, hfront⟩, -⟩, htop⟩ := h
  rw [← @List.rdropWhile_append_rtakeWhile _ (· ≠ 46) domain]
  refine Plain.append ?_ (plain_of_all (by decide) htop)
  by_cases hnil : domain.rdropWhile (· ≠ 46) = []
  · rw [hnil]
    decide
  · have hlast := List.rdropWhile_last_not _ _ hnil
    rw [decide_eq_true_eq, not_not] at hlast
    rw [← List.dropLast_append_getLast hnil, hlast]
    exact (plain_of_all (by decide) hfront).append (by decide)

theorem plain_validEmail {address : Bytes} (h : isValidEmail address = true) : Plain address := by
  unfold isValidEmail at h
  split at h
  · next p hp =>
    simp only [Bool.and_eq_true, Bool.or_eq_true, List.all_eq_true] at h
    obtain ⟨⟨⟨-, hmailbox⟩, -⟩, hdomain⟩ := h
    rw [eq_of_find? hp]
    refine ((plain_of_all (by decide) hmailbox).append (by decide)).append ?_
    rcases hdomain with hlocal | hdotted
    · rw [List.length_singleton, of_decide_eq_true hlocal]
      decide
    · exact plain_dottedDomain hdotted
  · cases h

theorem replaceLineEnds_append {front : Bytes} (h : 92 ∉ front) (rest : Bytes) :
    replaceLineEnds (front ++ rest) = front ++ replaceLineEnds rest := by
  induction front with
  | nil => rfl
  | cons b front ih =>
    rw [List.mem_cons, not_or] at h
    rw [List.cons_append, replaceLineEnds, ih h.2]
    · rfl
    · rintro message rfl
      exact fun _ ↦ h.1 rfl

/-- The mails that the frontend hands over for a user. -/
theorem plain_of_postWebmail {user rawRequest : Bytes} {mail : OutgoingMail} (huser : Address user)
    (hpost : (postWebmail user rawRequest).1 = some mail) :
    Plain mail.senderAddress ∧ Plain mail.recipientAddress := by
  unfold postWebmail at hpost
  dsimp only at hpost
  split at hpost
  · next hvalid =>
    obtain rfl := Option.some.inj hpost
    exact ⟨(plain_of_all (by decide) huser.2).append (by decide), plain_validEmail hvalid⟩
  · cases hpost

theorem plain_opening {mail : OutgoingMail} (hsender : Plain mail.senderAddress)
    (hrecipient : Plain mail.recipientAddress) : ∀ line ∈ opening mail, Plain line := by
  have hbrackets : ∀ (front : String) (address : Bytes), Plain (lit front) → Plain address →
      Plain (lit front ++ address ++ lit ">") :=
    fun front address hfront haddress ↦ (hfront.append haddress).append (by decide)
  simp only [opening, List.forall_mem_cons]
  exact ⟨by decide, hbrackets _ _ (by decide) hsender, hbrackets _ _ (by decide) hrecipient,
    by decide, hbrackets _ _ (by decide) hsender, hbrackets _ _ (by decide) hrecipient,
    fun _ h ↦ absurd h List.not_mem_nil⟩

theorem lit_crlf (text : String) : lit (text ++ "\r\n") = lit text ++ crlf := by
  rw [lit, String.toList_append, List.map_append]
  rfl

/-- The bytes on the connection are the opening and the text with its end. -/
theorem flatten_sendToWebmail {mail : OutgoingMail} (hsender : Plain mail.senderAddress)
    (hrecipient : Plain mail.recipientAddress) :
    (sendToWebmail mail).flatten = ((opening mail).map (· ++ crlf)).flatten ++
      (replaceLineEnds mail.message ++ lit "\r\n" ++ lit ".\r\n") := by
  have hheaders : (92 : UInt8) ∉ lit "From: <" ++ mail.senderAddress ++ lit ">\r\n" ++
      lit "To: <" ++ mail.recipientAddress ++ lit ">\r\n" := by
    simp only [List.mem_append, not_or]
    exact ⟨⟨⟨⟨⟨by decide, hsender.2⟩, by decide⟩, by decide⟩, hrecipient.2⟩, by decide⟩
  have hhello := lit_crlf "HELO Tester webmail"
  have hdata := lit_crlf "DATA"
  have hend := lit_crlf ">"
  simp only [String.reduceAppend] at hhello hdata hend
  simp only [sendToWebmail, ← List.append_assoc]
  rw [replaceLineEnds_append hheaders]
  simp only [opening, hhello, hdata, hend, List.map_cons, List.map_nil, List.flatten_cons,
    List.flatten_nil, List.append_assoc, List.append_nil]

/-- The first lines that the worker can cut out of the bytes. -/
theorem cut_sendToWebmail {mail : OutgoingMail} (hsender : Plain mail.senderAddress)
    (hrecipient : Plain mail.recipientAddress) :
    ∃ more, (cut crlf (sendToWebmail mail).flatten).1 = opening mail ++ more := by
  have hplain : ∀ line ∈ opening mail, 13 ∉ line :=
    fun line hline ↦ (plain_opening hsender hrecipient line hline).1
  rw [flatten_sendToWebmail hsender hrecipient]
  exact ⟨_, congrArg Prod.fst (cut_lines hplain _)⟩

/-! ## Lines without a sender -/

/-- A line that names no sender and does not end the session. -/
def Harmless (line : Bytes) : Prop :=
  commandOf line ≠ .quit ∧ ∀ argument, commandOf line = .mailFrom argument →
    matchAddress argument = none

/-- The session has no sender, no recipient and no message. -/
structure NoSender (s : Session) : Prop where
  sender : s.mailFromUser = [] ∧ s.mailFromDomain = []
  rcptTo : s.rcptTo = []
  mode : s.dataMode = false

theorem process_noSender (site : Site) (around : Surroundings) {s : Session} (h : NoSender s)
    {line : Bytes} (hline : Harmless line) :
    NoSender (process site around s line).session ∧
      (∀ path data, .append path data ∉ (process site around s line).effects) ∧
      (process site around s line).quit = false := by
  refine ⟨?_, fun path data happend ↦ ?_, ?_⟩
  · have hprocessed := processed site around s line
    generalize process site around s line = outcome at hprocessed
    cases hprocessed with
    | text hmode => exact absurd (h.mode.symm.trans hmode) Bool.false_ne_true
    | finished hmode => exact absurd (h.mode.symm.trans hmode) Bool.false_ne_true
    | helo => exact ⟨h.sender, h.rcptTo, h.mode⟩
    | mail _ argument user domain hcommand _ _ hmatch =>
      rw [hline.2 argument hcommand] at hmatch
      cases hmatch
    | rcpt _ _ _ _ _ hsender => exact absurd h.sender hsender
    | data _ _ hrcpt => exact absurd h.rcptTo hrcpt
    | reset => exact ⟨⟨rfl, rfl⟩, rfl, rfl⟩
    | noop => exact h
    | refused => exact h
  · exact absurd (h.mode.symm.trans (append_mem_process happend).1) Bool.false_ne_true
  · rw [process, if_neg (by rw [h.mode]; exact Bool.false_ne_true), command]
    cases hcommand : commandOf line with
    | quit => exact absurd hcommand hline.1
    | _ => rfl

/-- A conversation in which nothing has been appended. -/
structure Idle (c : Conversation) : Prop where
  session : NoSender c.session
  quiet : ∀ x ∈ c.past, ∀ path data, .append path data ∉ x.effects
  last : ∀ x ∈ c.past.getLast?, x.after = c.session

theorem idle_start : Idle {} where
  session := ⟨⟨rfl, rfl⟩, rfl, rfl⟩
  quiet _ hx := absurd hx List.not_mem_nil
  last _ hx := absurd hx.symm (Option.some_ne_none _)

theorem Idle.step {c : Conversation} (hc : Idle c) (site : Site) (hopen : c.quit = false)
    {line : Bytes} (hline : Harmless line) (around : Surroundings) :
    ∃ next, c.step site (line, around) = some next ∧ Idle next ∧ next.quit = false ∧
      next.past.length = c.past.length + 1 := by
  obtain ⟨hsession, hquiet, hquit⟩ :=
    process_noSender site around hc.session hline
  refine ⟨_, if_neg (by rw [hopen]; exact Bool.false_ne_true), ⟨hsession, ?_, ?_⟩, hquit, ?_⟩
  · exact List.forall_mem_append.mpr ⟨hc.quiet, List.forall_mem_singleton.mpr hquiet⟩
  · intro x hx
    rw [List.getLast?_concat] at hx
    rw [← Option.some.inj hx]
  · rw [List.length_append, List.length_singleton]

/-- Harmless lines are answered one by one. -/
theorem idle_handOn (site : Site) (around : ℕ → Surroundings) {lines : List Bytes}
    (hlines : ∀ line ∈ lines, Harmless line) {c : Conversation} (hc : Idle c)
    (hopen : c.quit = false) :
    Idle (handOn (serve site around) c lines).1 ∧
      (handOn (serve site around) c lines).1.past.length = c.past.length + lines.length ∧
      (handOn (serve site around) c lines).1.quit = false ∧
      (handOn (serve site around) c lines).2.2 = false := by
  induction lines generalizing c with
  | nil => exact ⟨hc, rfl, hopen, rfl⟩
  | cons line lines ih =>
    obtain ⟨hline, hrest⟩ := List.forall_mem_cons.mp hlines
    obtain ⟨next, hstep, hnext, hquit, hlength⟩ :=
      hc.step site hopen hline (around c.past.length)
    rw [handOn]
    simp only [serve, hstep, Option.getD_some, hquit, Bool.false_eq_true, if_false]
    obtain ⟨hidle, hall, hgoes⟩ := ih hrest hnext hquit
    refine ⟨hidle, ?_, hgoes⟩
    rw [hall, hlength, List.length_cons]
    omega

/-- What has been said stays said. -/
theorem past_prefix_handOn (site : Site) (around : ℕ → Surroundings) (lines : List Bytes)
    (c : Conversation) : c.past <+: (handOn (serve site around) c lines).1.past := by
  have hserve : ∀ (c : Conversation) line, c.past <+: (serve site around c line).1.past := by
    intro c line
    unfold serve Conversation.step
    dsimp only
    split
    · exact List.prefix_rfl
    · exact List.prefix_append _ _
  induction lines generalizing c with
  | nil => exact List.prefix_rfl
  | cons line lines ih =>
    rw [handOn]
    dsimp only
    split
    · exact hserve c line
    · exact (hserve c line).trans (ih _)

/-- One more line is answered, whatever it is. -/
theorem length_past_serve (site : Site) (around : ℕ → Surroundings) {c : Conversation}
    (hopen : c.quit = false) (line : Bytes) :
    (serve site around c line).1.past.length = c.past.length + 1 := by
  have hstep : c.step site (line, around c.past.length) = some _ :=
    if_neg (by rw [hopen]; exact Bool.false_ne_true)
  simp only [serve, hstep, Option.getD_some, List.length_append, List.length_singleton]

theorem harmless_opening (mail : OutgoingMail) : ∀ line ∈ opening mail, Harmless line := by
  have hother : ∀ {line : Bytes} {command : Command}, commandOf line = command →
      command ≠ .quit → (∀ argument, command ≠ .mailFrom argument) → Harmless line := by
    rintro line command rfl hquit hmail
    exact ⟨hquit, fun argument h ↦ absurd h (hmail argument)⟩
  simp only [opening, List.forall_mem_cons]
  refine ⟨?_, ?_, ?_, ?_, ?_, ?_, fun _ h ↦ absurd h List.not_mem_nil⟩
  · exact hother rfl Command.noConfusion fun _ ↦ Command.noConfusion
  · -- behind `MAIL FROM:` stands a space, where the pattern wants a bracket
    have hcommand : commandOf (lit "MAIL FROM: <" ++ mail.senderAddress ++ lit ">") =
        .mailFrom (lit " <" ++ mail.senderAddress ++ lit ">") := rfl
    rw [Harmless, hcommand]
    refine ⟨Command.noConfusion, fun argument h ↦ ?_⟩
    rw [← Command.mailFrom.inj h]
    rfl
  · exact hother rfl Command.noConfusion fun _ ↦ Command.noConfusion
  · exact hother rfl Command.noConfusion fun _ ↦ Command.noConfusion
  · exact hother rfl Command.noConfusion fun _ ↦ Command.noConfusion
  · exact hother rfl Command.noConfusion fun _ ↦ Command.noConfusion

/-! ## The mail -/

theorem appended_idle {c : Conversation} (h : Idle c) (path : Bytes) : appended path c = [] := by
  refine List.flatMap_eq_nil_iff.mpr fun x hx ↦ List.filterMap_eq_nil_iff.mpr fun effect heffect ↦ ?_
  cases effect with
  | send => rfl
  | append path' data => exact absurd heffect (h.quiet x hx path' data)

theorem not_preserved_idle {site : Site} {mail : OutgoingMail} {c : Conversation} (h : Idle c) :
    ¬Preserved site mail c := by
  rintro ⟨⟨user, -, hstored⟩, -⟩
  rw [appended_idle h] at hstored
  exact absurd hstored (List.cons_ne_nil _ _).symm

/-- The line behind the opening is read as a command. -/
theorem not_preserved_behind {site : Site} {around : ℕ → Surroundings} {mail : OutgoingMail}
    (line : Bytes) (lines : List Bytes) :
    ¬Preserved site mail (handOn (serve site around) {} (opening mail ++ line :: lines)).1 := by
  intro hpreserved
  obtain ⟨hidle, hlength, hopen, hgoes⟩ := idle_handOn site around
    (harmless_opening mail) idle_start rfl
  have hlines := past_prefix_handOn site around (line :: lines)
    (handOn (serve site around) {} (opening mail)).1
  have hnext : (handOn (serve site around) {} (opening mail)).1.past.length + 1 ≤
      (handOn (serve site around) (handOn (serve site around) {} (opening mail)).1
        (line :: lines)).1.past.length := by
    rw [← length_past_serve site around hopen line, handOn]
    dsimp only
    split
    · exact le_rfl
    · exact (past_prefix_handOn site around lines _).length_le
  have hsplit := handOn_append (serve site around) {} (opening mail) (line :: lines)
  rw [if_neg (by rw [hgoes]; exact Bool.false_ne_true)] at hsplit
  rw [hsplit] at hpreserved
  dsimp only at hpreserved
  generalize (handOn (serve site around) {} (opening mail)).1 = c at *
  have hlast : c.past[5]? = c.past.getLast? := by
    rw [List.getLast?_eq_getElem?, hlength]
    rfl
  have hsix : c.past.length = 6 := hlength
  obtain ⟨x, hx⟩ : ∃ x, c.past[5]? = some x := ⟨_, List.getElem?_eq_getElem (by omega)⟩
  have hafter := hidle.last x (hlast ▸ hx)
  obtain ⟨said, hsaid⟩ := hlines
  have hmode := hpreserved.text 5 x le_rfl (by omega)
    (by rw [← hsaid, List.getElem?_append_left (by omega)]; exact hx)
  rw [hafter, hidle.session.mode] at hmode
  exact Bool.false_ne_true hmode

/-- Whatever part of the bytes of a mail arrives, and in whatever chunks, the mail is not preserved. -/
theorem mail_not_preserved {user rawRequest : Bytes} {mail : OutgoingMail} (huser : Address user)
    (hpost : (postWebmail user rawRequest).1 = some mail) (site : Site)
    (around : ℕ → Surroundings) (garbage : Fin (maxLen + 1) → UInt8)
    (chunks : List (List UInt8)) (hsent : chunks.flatten <+: (sendToWebmail mail).flatten) :
    ∃ w, chunks.foldlM (receive (serve site around)) (startWorker garbage {}) = some w ∧
      ¬Preserved site mail w.state := by
  obtain ⟨w, hrun, hw⟩ := receiveAll_begun (serve site around) {} garbage chunks
  refine ⟨w, hrun, ?_⟩
  obtain ⟨done, hdone, hstate, -⟩ := hw.lines
  obtain ⟨hsender, hrecipient⟩ := plain_of_postWebmail huser hpost
  rw [hstate]
  obtain ⟨more, hmore⟩ : ∃ more, done <+: opening mail ++ more := by
    obtain ⟨rest, hrest⟩ := hsent
    obtain ⟨more, hmore⟩ := cut_sendToWebmail hsender hrecipient
    rw [← hrest, cut_append crlf_ne_nil] at hmore
    refine ⟨more, hdone.trans ?_⟩
    rw [← hmore]
    exact List.prefix_append _ _
  rcases List.prefix_or_prefix_of_prefix hmore (List.prefix_append _ _) with hshort | ⟨rest, rfl⟩
  · have hharmless : ∀ line ∈ done, Harmless line :=
      fun line hline ↦ harmless_opening mail line (hshort.subset hline)
    exact not_preserved_idle (idle_handOn site around hharmless idle_start rfl).1
  · cases rest with
    | nil =>
      rw [List.append_nil]
      exact not_preserved_idle (idle_handOn site around (harmless_opening mail) idle_start rfl).1
    | cons line lines =>
      exact not_preserved_behind line lines

def oneUser : Site where
  directory := lit "mail"
  localhostUsers := [lit "user"]

def openAll (_ : ℕ) : Surroundings where
  ctime := lit "now\n"
  opens := fun _ ↦ true

/-- A mail to `user` with the subject `hi` and the body `x`. -/
def sampleRequest : Bytes :=
  lit "POST /emails HTTP/1.1\r\n\r\n\x7b\"to\":\"user@localhost\"," ++
    lit "\"subject\":\"hi\",\"body\":\"x\"\x7d"

def sampleMail : OutgoingMail where
  recipientAddress := lit "user@localhost"
  senderAddress := lit "a@penncloud.com"
  message := lit "hi\nx\n"

theorem postWebmail_sample : (postWebmail (lit "a") sampleRequest).1 = some sampleMail := by
  decide +kernel

theorem mail_not_preserved_sample :
    ∃ w, (sendToWebmail sampleMail).foldlM (receive (serve oneUser openAll))
      (startWorker (fun _ ↦ 0) {}) = some w ∧ ¬Preserved oneUser sampleMail w.state :=
  mail_not_preserved ⟨by decide, by decide +kernel⟩ postWebmail_sample oneUser openAll _ _
    List.prefix_rfl

/-- The text is refused as a command, and the mailbox stays as it is. -/
theorem sample_mail_lost :
    ∃ w, (sendToWebmail sampleMail).foldlM (receive (serve oneUser openAll))
      (startWorker (fun _ ↦ 0) {}) = some w ∧
      appended (mailbox oneUser (lit "user")) w.state = [] ∧
      (∃ x ∈ w.state.past, x.line = lit "hi\nx\n" ∧
        x.effects = [.send (lit "500 Syntax error: command unrecognized\r\n")]) ∧
      ¬Preserved oneUser sampleMail w.state := by
  have hstart : Framed (serve oneUser openAll) {} (startWorker (fun _ ↦ 0) {}) [] :=
    framed_start _ _
  have hlines : (∀ line ∈ (cut crlf (sendToWebmail sampleMail).flatten).1, line.length < 100) ∧
      (cut crlf (sendToWebmail sampleMail).flatten).2.length < 100 := by decide +kernel
  obtain ⟨w, hrun, hw⟩ := Framed.receiveAll (sendToWebmail sampleMail) (by decide +kernel)
    (by decide +kernel) hlines.1 hlines.2 (by decide) hstart (sendToWebmail sampleMail) []
    (List.append_nil _).symm
  have hcheck : appended (mailbox oneUser (lit "user")) (handOn (serve oneUser openAll) {}
        (cut crlf (sendToWebmail sampleMail).flatten).1).1 = [] ∧
      ∃ x ∈ (handOn (serve oneUser openAll) {}
        (cut crlf (sendToWebmail sampleMail).flatten).1).1.past, x.line = lit "hi\nx\n" ∧
          x.effects = [.send (lit "500 Syntax error: command unrecognized\r\n")] := by
    decide +kernel
  rw [← hw.state] at hcheck
  refine ⟨w, hrun, hcheck.1, hcheck.2, ?_⟩
  rintro ⟨⟨user, huser, hstored⟩, -⟩
  have hname : lit "user" ++ lit "@localhost" = user ++ lit "@localhost" := huser
  rw [← List.append_cancel_right hname, hcheck.1] at hstored
  exact absurd hstored (List.cons_ne_nil _ _).symm

end PennCloud.Webmail.Submission
