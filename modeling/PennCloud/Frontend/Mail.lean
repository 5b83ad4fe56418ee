import PennCloud.Frontend.HttpText
import Mathlib.Data.List.DropRight

/-!
# Mail handlers

The handlers behind `/inbox`, `/deleted`, `/sent`, `/emails` and `/deleteemails`, for the user of the
session. A mail box is a list of mail identifiers in one cell of the user's row, and the
identifiers are the columns of the mails. Where a handler starts its loop again, the job
has another pass.
-/

open PennCloud.Library.CppString PennCloud.Library.TextSearch PennCloud.Library.Programs
open PennCloud.KV.TabletCells PennCloud.Frontend.KVClient PennCloud.Frontend.HttpText

namespace PennCloud.Frontend.Mail

/-! ## Reading a box -/

/-- The loop over the identifiers; an error of the client ends it with what has been read. -/
def readMails (user : Bytes) : Bytes → List Bytes → KVProg Bytes
  | mailContent, [] => .ret mailContent
  | mailContent, uid :: uids =>
    let header := mailContent ++ lit "UID: " ++ uid ++ lit "\n"
    catchKVError
      (do
        let mail ← KVClient.get user uid
        readMails user (header ++ mail ++ lit "====================\n") uids)
      (.ret header)

def handleGetWebmail (user box : Bytes) : KVJob Response :=
  once do
    let mailContent ← catchKVError
      (do
        let uids ← KVClient.get user box
        readMails user [] (split uids comma))
      (.ret [])
    return corsOk mailContent

/-! ## Sending -/

def isLetter (b : UInt8) : Bool := (65 ≤ b && b ≤ 90) || (97 ≤ b && b ≤ 122)

/-- `[A-Za-z0-9.-]`. -/
def isDomainByte (b : UInt8) : Bool := isLetter b || isDigit b || b = 46 || b = 45

/-- `[A-Za-z0-9._%+-]`. -/
def isMailboxByte (b : UInt8) : Bool := isDomainByte b || b = 95 || b = 37 || b = plus

/-- The class of `\b`. -/
def isWordByte (b : UInt8) : Bool := isLetter b || isDigit b || b = 95

/-- `[A-Za-z0-9.-]+\.[A-Za-z]{2,}`, cut at the last dot. -/
def isDottedDomain (domain : Bytes) : Bool :=
  let top := domain.rtakeWhile (· ≠ 46)
  let front := (domain.rdropWhile (· ≠ 46)).dropLast
  domain.contains 46 && front ≠ [] && front.all isDomainByte && 2 ≤ top.length && top.all isLetter

/-- `regex_match` with `valid_email_regex`, cut at the only at sign. -/
def isValidEmail (address : Bytes) : Bool :=
  match find? [64] address with
  | some p =>
    let mailbox := address.take p
    let domain := address.drop (p + 1)
    mailbox ≠ [] && mailbox.all isMailboxByte && (mailbox.take 1).all isWordByte &&
      (domain = lit "localhost" || isDottedDomain domain)
  | none => false

/-- The arguments of `send_to_webmail`. -/
structure OutgoingMail where
  recipientAddress : Bytes
  senderAddress : Bytes
  message : Bytes
  deriving DecidableEq

/-- The mail that `/emails` hands to the mail server, and its answer. -/
def postWebmail (user rawRequest : Bytes) : Option OutgoingMail × Response :=
  let requestParams := parseJson (parseBody rawRequest).2
  let recipient := requestParams.at (lit "to")
  if isValidEmail recipient then
    (some {
      recipientAddress := recipient
      senderAddress := user ++ lit "@penncloud.com"
      message := requestParams.at (lit "subject") ++ lit "\n" ++
        requestParams.at (lit "body") ++ lit "\n" }, corsOk (lit "Successfully sent!"))
  else
    (none, corsOk (lit "402 Recipient not found"))

def handlePostWebmail (user rawRequest : Bytes) : KVJob Response :=
  once (.ret (postWebmail user rawRequest).2)

/-! ## Deleting -/

/-- The inbox is rewritten in the first passes, the deleted mails in the later ones. -/
def handleDeleteWebmail (user rawRequest : Bytes) : KVJob Response
  | 0 =>
    catchKVNoMatch
      (do
        let uidListOld ← getdefault user (lit "inbox") []
        let uidListNew := replaceFirst uidListOld (parseBody rawRequest).2 []
        cput user (lit "inbox") uidListOld (trimCommas (collapseCommas uidListNew))
        return .again 1)
      (.ret (.again 0))
  | _ + 1 =>
    catchKVNoMatch
      (do
        let uidListOld ← getdefault user (lit "deleted") []
        let uidToRemove := (parseBody rawRequest).2
        let uidListNew :=
          if uidListOld = [] then uidToRemove else uidListOld ++ lit "," ++ uidToRemove
        cput user (lit "deleted") uidListOld uidListNew
        return .done (corsOk (lit "Successfully deleted email")))
      (.ret (.again 1))

end PennCloud.Frontend.Mail
