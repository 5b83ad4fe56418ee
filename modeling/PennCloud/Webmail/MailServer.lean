import PennCloud.KV.TabletCells
import PennCloud.Library.Runs
import PennCloud.Library.History

/-!
# The mail server

What `worker` does with one line: in data mode the line is text of the message or ends it, in command
mode it is one of seven commands. Lines have no zero bytes, since the worker reads them as C
strings. The time of a message and whether a mailbox can be opened come from outside, and
the replies and the texts appended to files are the effects of a line.
-/

open PennCloud.KV.TabletCells PennCloud.Library.Runs PennCloud.Library.History

namespace PennCloud.Webmail.MailServer

/-- The local variables of `worker`. -/
structure Session where
  clientDomain : Bytes := []
  initialState : Bool := true
  mailFromUser : Bytes := []
  mailFromDomain : Bytes := []
  rcptTo : List (Bytes × Bytes) := []
  data : Bytes := []
  dataMode : Bool := false
  deriving DecidableEq

/-- The globals that `main` sets before any worker starts. -/
structure Site where
  directory : Bytes
  localhostUsers : List Bytes

/-- The text of `ctime`, and whether the mailbox of the recipient with this index can be opened. -/
structure Surroundings where
  ctime : Bytes
  opens : ℕ → Bool

inductive Effect
  | send (response : Bytes)
  | append (path data : Bytes)
  deriving DecidableEq

structure Outcome where
  session : Session
  effects : List Effect := []
  quit : Bool := false

/-- `[a-zA-Z0-9.]`. -/
def addressChar (b : UInt8) : Bool :=
  (97 ≤ b && b ≤ 122) || (65 ≤ b && b ≤ 90) || (48 ≤ b && b ≤ 57) || b == 46

/-- `regex_match` with `^<([a-zA-Z0-9.]+)@([a-zA-Z0-9.]+)>$`: the two groups. -/
def matchAddress : Bytes → Option (Bytes × Bytes)
  | 60 :: text =>
    match text.dropWhile addressChar with
    | 64 :: rest =>
      if text.takeWhile addressChar ≠ [] ∧ rest.takeWhile addressChar ≠ [] ∧
          rest.dropWhile addressChar = [62] then
        some (text.takeWhile addressChar, rest.takeWhile addressChar)
      else none
    | _ => none
  | _ => none

/-- `strncmp` with the upper or the lower case name. -/
def isCommand (upper lower : String) (line : Bytes) : Bool :=
  lit upper <+: line || lit lower <+: line

inductive Command
  | helo (argument : Bytes)
  | mailFrom (argument : Bytes)
  | rcptTo (argument : Bytes)
  | data
  | quit
  | rset
  | noop
  | unrecognized
  deriving DecidableEq

def commandOf (line : Bytes) : Command :=
  if isCommand "HELO " "helo " line then .helo (line.drop 5)
  else if isCommand "MAIL FROM:" "mail from:" line then .mailFrom (line.drop 10)
  else if isCommand "RCPT TO:" "rcpt to:" line then .rcptTo (line.drop 8)
  else if isCommand "DATA" "data" line then .data
  else if isCommand "QUIT" "quit" line then .quit
  else if isCommand "RSET" "rset" line then .rset
  else if isCommand "NOOP" "noop" line then .noop
  else .unrecognized

def mailbox (site : Site) (user : Bytes) : Bytes :=
  site.directory ++ lit "/" ++ user ++ lit ".mbox"

/-! ## Commands -/

def ok : Bytes := lit "250 OK\r\n"

def helloFirst : Bytes := lit "503 Bad sequence of commands: send HELO first.\r\n"

def invalidAddress : Bytes :=
  lit "501 Syntax error: invalid email address, must be <user@domain>\r\n"

def helo (s : Session) (argument : Bytes) : Session × Bytes :=
  if !s.initialState then
    (s, lit "503 Bad sequence of commands\r\n")
  else
    let s := { s with clientDomain := argument }
    if s.clientDomain = [] then
      (s, lit "501 Syntax error: argument of HELO cannot be empty!\r\n")
    else
      (s, lit "250 localhost\r\n")

def mailFrom (s : Session) (argument : Bytes) : Session × Bytes :=
  if s.clientDomain = [] then
    (s, helloFirst)
  else if s.rcptTo = [] then
    match matchAddress argument with
    | some (user, domain) =>
      ({ s with mailFromUser := user, mailFromDomain := domain, initialState := false }, ok)
    | none => (s, invalidAddress)
  else
    (s, lit "503 Bad sequence of commands: You have already issued RCPT TO " ++
      lit "so you cannot change MAIL FROM (only RCPT TO or DATA allowed)\r\n")

def rcptTo (site : Site) (s : Session) (argument : Bytes) : Session × Bytes :=
  if s.mailFromUser = [] ∧ s.mailFromDomain = [] then
    (s, lit "503 Bad sequence of commands: send MAIL FROM first.\r\n")
  else
    match matchAddress argument with
    | some (user, domain) =>
      if domain = lit "localhost" ∧ user ∉ site.localhostUsers then
        (s, lit "550 User not found in localhost\r\n")
      else
        ({ s with rcptTo := s.rcptTo ++ [(user, domain)] }, ok)
    | none => (s, invalidAddress)

/-- The line that heads the message. -/
def fromLine (user domain ctime : Bytes) : Bytes :=
  lit "From <" ++ user ++ lit "@" ++ domain ++ lit "> " ++ ctime

def beginData (around : Surroundings) (s : Session) : Session × Bytes :=
  if s.rcptTo = [] then
    (s, lit "503 Bad sequence of commands: send RCPT TO first.\r\n")
  else
    ({ s with
        dataMode := true
        data := fromLine s.mailFromUser s.mailFromDomain around.ctime },
      lit "354 Accepting data.\r\n")

def rset (s : Session) : Session × Bytes :=
  if s.clientDomain = [] then (s, helloFirst) else ({}, ok)

def noop (s : Session) : Session × Bytes :=
  if s.clientDomain = [] then (s, helloFirst) else (s, ok)

def respond (result : Session × Bytes) : Outcome where
  session := result.1
  effects := [.send result.2]

def command (site : Site) (around : Surroundings) (s : Session) (line : Bytes) : Outcome :=
  match commandOf line with
  | .helo argument => respond (helo s argument)
  | .mailFrom argument => respond (mailFrom s argument)
  | .rcptTo argument => respond (rcptTo site s argument)
  | .data => respond (beginData around s)
  | .quit => { session := s, effects := [.send (lit "221 quiting\r\n")], quit := true }
  | .rset => respond (rset s)
  | .noop => respond (noop s)
  | .unrecognized => respond (s, lit "500 Syntax error: command unrecognized\r\n")

/-! ## Messages -/

/-- What one recipient of a finished message causes. -/
def deliver (site : Site) (data : Bytes) (opens : Bool) (rcpt : Bytes × Bytes) : List Effect :=
  if rcpt.1 ∉ site.localhostUsers then
    [.send (lit "550: user mailbox not found (was probably deleted after server starts)!\r\n")]
  else if rcpt.2 = lit "localhost" then
    if opens then [.append (mailbox site rcpt.1) data]
    else [.send (lit "451 Requested action aborted: error when writing to local file.\r\n")]
  else []

/-- Neither the sender nor the recipients are forgotten. -/
def finishMessage (site : Site) (around : Surroundings) (s : Session) : Outcome where
  session := { s with dataMode := false, initialState := true }
  effects :=
    (s.rcptTo.zipIdx.flatMap fun (rcpt, i) ↦ deliver site s.data (around.opens i) rcpt) ++ [.send ok]

/-- Any line that begins with a dot ends the message. -/
def dataLine (site : Site) (around : Surroundings) (s : Session) (line : Bytes) : Outcome :=
  if lit "." <+: line then finishMessage site around s
  else { session := { s with data := s.data ++ line ++ lit "\r\n" } }

def process (site : Site) (around : Surroundings) (s : Session) (line : Bytes) : Outcome :=
  if s.dataMode then dataLine site around s line else command site around s line

/-! ## Conversations -/

/-- A line, what it caused, and the session after it. -/
structure Exchange where
  line : Bytes
  effects : List Effect
  after : Session

structure Conversation where
  session : Session := {}
  past : List Exchange := []
  quit : Bool := false

/-- After `QUIT` the worker returns. -/
def Conversation.step (site : Site) (c : Conversation) (event : Bytes × Surroundings) :
    Option Conversation :=
  if c.quit then none
  else
    let outcome := process site event.2 c.session event.1
    some {
      session := outcome.session
      past := c.past ++ [⟨event.1, outcome.effects, outcome.session⟩]
      quit := outcome.quit }

def machine (site : Site) : Machine Conversation (Bytes × Surroundings) where
  step := Conversation.step site

theorem Conversation.step_eq_some {site : Site} {c next : Conversation} {event : Bytes × Surroundings}
    (h : c.step site event = some next) : c.quit = false ∧ next = {
      session := (process site event.2 c.session event.1).session
      past := c.past ++ [⟨event.1, (process site event.2 c.session event.1).effects,
        (process site event.2 c.session event.1).session⟩]
      quit := (process site event.2 c.session event.1).quit } := by
  unfold Conversation.step at h
  split at h
  · cases h
  · next hquit => exact ⟨Bool.eq_false_iff.mpr hquit, (Option.some.inj h).symm⟩

/-- The conversation of a client that sends these lines. -/
def converse (site : Site) (events : List (Bytes × Surroundings)) : Conversation :=
  events.foldl (fun c event ↦ (c.step site event).getD c) {}

/-! ## What the client sees -/

namespace Exchange

variable (x : Exchange)

def AcceptedHelo : Prop :=
  ∃ argument ≠ [], commandOf x.line = .helo argument ∧ x.effects = [.send (lit "250 localhost\r\n")]

def AcceptedMail (user domain : Bytes) : Prop :=
  ∃ argument, commandOf x.line = .mailFrom argument ∧
    matchAddress argument = some (user, domain) ∧ x.effects = [.send ok]

def AcceptedRcpt (user domain : Bytes) : Prop :=
  ∃ argument, commandOf x.line = .rcptTo argument ∧
    matchAddress argument = some (user, domain) ∧ x.effects = [.send ok]

def AcceptedData : Prop :=
  commandOf x.line = .data ∧ x.effects = [.send (lit "354 Accepting data.\r\n")]

def AcceptedReset : Prop := commandOf x.line = .rset ∧ x.effects = [.send ok]

/-- In command mode a line with a dot is not recognized. -/
def EndsMessage : Prop := lit "." <+: x.line ∧ .send ok ∈ x.effects

instance : Decidable x.AcceptedReset := inferInstanceAs (Decidable (_ ∧ _))

instance : Decidable x.EndsMessage := inferInstanceAs (Decidable (_ ∧ _))

end Exchange

/-- The exchanges after the last accepted `RSET`. -/
def sinceReset (past : List Exchange) : List Exchange := since Exchange.AcceptedReset past

end PennCloud.Webmail.MailServer
