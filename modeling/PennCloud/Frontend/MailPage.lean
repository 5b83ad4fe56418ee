import PennCloud.Frontend.Mail
import PennCloud.Library.Utf8Decoder

/-!
# The mail page

The server sends a box as one text: the identifier of each mail in a line with a label, the mail as it is
stored, and a line that separates. The page cuts at the separating lines and looks for labels in
every line of a block, those of the mail itself too. A mail that has such lines in it shows as
several ones, or with the identifier that its sender has chosen.
-/

open PennCloud.Library.CppString PennCloud.Library.TextSearch PennCloud.Library.Programs
open PennCloud.Library.Utf8Decoder
open PennCloud.KV.TabletCells PennCloud.Frontend.KVClient PennCloud.Frontend.HttpText
open PennCloud.Frontend.Mail

namespace PennCloud.Frontend.MailPage

/-! ## The page -/

/-- The white space and the line ends that `trim` drops. -/
def isWhite (c : Char) : Bool :=
  let n := c.toNat
  (9 ≤ n && n ≤ 13) || n = 0x20 || n = 0xA0 || n = 0x1680 || (0x2000 ≤ n && n ≤ 0x200A) ||
    n = 0x2028 || n = 0x2029 || n = 0x202F || n = 0x205F || n = 0x3000 || n = 0xFEFF

def trim (text : List Char) : List Char := (text.dropWhile isWhite).rdropWhile isWhite

/-- The object `email`; `sender` and `recipient` are its `from` and `to`. -/
structure Email where
  sender : List Char := []
  recipient : List Char := []
  subject : List Char := []
  body : List Char := []
  uid : List Char := []
  date : List Char := []

def Email.addLine (email : Email) (line : List Char) : Email :=
  if "From: ".toList <+: line then { email with sender := trim (line.drop 6) }
  else if "UID: ".toList <+: line then { email with uid := trim (line.drop 5) }
  else if "To: ".toList <+: line then { email with recipient := trim (line.drop 3) }
  else if "Subject: ".toList <+: line then { email with subject := trim (line.drop 8) }
  else if "Date: ".toList <+: line then { email with date := trim (line.drop 6) }
  else { email with body := email.body ++ line ++ ['\n'] }

def parseEmailBlock (block : List Char) : Email := (block.splitOn '\n').foldl Email.addLine {}

/-- `response.text()`: a mark of the byte order is dropped. -/
def responseText (content : Bytes) : List Char :=
  decode (if [0xEF, 0xBB, 0xBF] <+: content then content.drop 3 else content)

def separator : List Char := "====================\n".toList

/-- What is behind the last separator is no block. -/
def fetchEmails (content : Bytes) : List Email :=
  (cut separator (responseText content)).1.map parseEmailBlock

/-! ## The box -/

/-- A box whose mails are all stored, each with a line end behind it. -/
structure StoredBox (user box : Bytes) (store : Store) where
  uids : List Bytes
  mail : Bytes → Bytes
  nonempty : uids ≠ []
  plain : ∀ uid ∈ uids, comma ∉ uid
  listed : store (user, box) = some (join uids (lit ","))
  stored : ∀ uid ∈ uids, store (user, uid) = some (mail uid)
  ended : ∀ uid ∈ uids, ∃ text, mail uid = text ++ lit "\n"

/-- The part of the response for one mail, without the separator. -/
def blockOf (uid mail : Bytes) : Bytes := lit "UID: " ++ uid ++ lit "\n" ++ mail

/-- The lines that look like that of the identifier. -/
def uidLines (block : List Char) : List (List Char) :=
  (block.splitOn '\n').filter ("UID: ".toList <+: ·)

/-- No separator is in the block, and the last line that looks like that of the identifier is it. -/
structure Shown (uid mail : Bytes) : Prop where
  undivided : ¬separator <:+: decode (blockOf uid mail)
  named : ∀ line ∈ (uidLines (decode (blockOf uid mail))).getLast?,
    encode (trim (line.drop 5)) = uid

/-! ## The response -/

/-- The content for these mails. -/
def contentOf (mail : Bytes → Bytes) (uids : List Bytes) : Bytes :=
  (uids.map fun uid ↦ blockOf uid (mail uid) ++ lit "====================\n").flatten

theorem run_readMails {user : Bytes} {store : Store} {mail : Bytes → Bytes} {uids : List Bytes}
    (h : ∀ uid ∈ uids, store (user, uid) = some (mail uid)) (front : Bytes) :
    (readMails user front uids).run (execute ()) store =
      (store, .ok (front ++ contentOf mail uids)) := by
  induction uids generalizing front with
  | nil =>
    rw [contentOf, List.map_nil, List.flatten_nil, List.append_nil]
    rfl
  | cons uid uids ih =>
    obtain ⟨huid, huids⟩ := List.forall_mem_cons.mp h
    rw [readMails, catchKVError, Prog.run_handle, Prog.run_bind, run_get_of_some huid]
    dsimp only
    rw [ih huids]
    simp only [contentOf, blockOf, List.map_cons, List.flatten_cons, List.append_assoc]

theorem run_handleGetWebmail {user box : Bytes} {store : Store} (stored : StoredBox user box store) :
    runJob (execute ()) (handleGetWebmail user box) 1 0 store =
      some (store, .ok (corsOk (contentOf stored.mail stored.uids))) := by
  have hsplit : split (join stored.uids (lit ",")) comma = stored.uids :=
    List.splitOn_intercalate comma stored.plain stored.nonempty
  rw [handleGetWebmail, runJob_once, Prog.run_bind, catchKVError, Prog.run_handle, Prog.run_bind,
    run_get_of_some stored.listed]
  dsimp only
  rw [hsplit, run_readMails stored.stored]
  rfl

/-! ## What the page reads -/

theorem blockOf_ended {mail : Bytes} (h : ∃ text, mail = text ++ lit "\n") (uid : Bytes) :
    ∃ front, blockOf uid mail = front ++ [10] := by
  obtain ⟨text, rfl⟩ := h
  refine ⟨lit "UID: " ++ uid ++ lit "\n" ++ text, ?_⟩
  rw [blockOf, ← List.append_assoc]
  rfl

theorem decode_contentOf {mail : Bytes → Bytes} {uids : List Bytes}
    (h : ∀ uid ∈ uids, ∃ text, mail uid = text ++ lit "\n") :
    decode (contentOf mail uids) =
      ((uids.map fun uid ↦ decode (blockOf uid (mail uid))).map (· ++ separator)).flatten := by
  induction uids with
  | nil => rfl
  | cons uid uids ih =>
    obtain ⟨huid, huids⟩ := List.forall_mem_cons.mp h
    obtain ⟨front, hblock⟩ := blockOf_ended huid uid
    have hseparator : decode (lit "====================\n" ++ contentOf mail uids) =
        separator ++ decode (contentOf mail uids) := decode_ascii_append (by decide +kernel) _
    have hcontent : contentOf mail (uid :: uids) =
        front ++ 10 :: (lit "====================\n" ++ contentOf mail uids) := by
      rw [contentOf, List.map_cons, List.flatten_cons, hblock, ← contentOf]
      simp only [List.append_assoc, List.cons_append, List.nil_append]
    rw [hcontent, decode_append_cons (by decide), hseparator, ih huids, List.map_cons, List.map_cons,
      List.flatten_cons, hblock, decode_append_cons (by decide)]
    simp only [List.append_assoc, List.cons_append]
    rfl

/-- There is no mark of the byte order in front. -/
theorem responseText_contentOf (mail : Bytes → Bytes) (uids : List Bytes) :
    responseText (contentOf mail uids) = decode (contentOf mail uids) := by
  have hmark : ¬[0xEF, 0xBB, 0xBF] <+: contentOf mail uids := by
    cases uids with
    | nil => exact fun hbegins ↦ List.cons_ne_nil _ _ (List.prefix_nil.mp hbegins)
    | cons uid uids =>
      intro hbegins
      have hfirst := (List.cons_prefix_cons.mp hbegins).1
      revert hfirst
      decide
  rw [responseText, if_neg hmark]

/-- The last line with the label decides. -/
theorem uid_addLine (email : Email) (line : List Char) :
    (email.addLine line).uid =
      if "UID: ".toList <+: line then trim (line.drop 5) else email.uid := by
  unfold Email.addLine
  split
  · next hfrom =>
    rw [if_neg]
    intro huid
    rcases List.prefix_or_prefix_of_prefix hfrom huid with hbegins | hbegins
    · revert hbegins
      decide
    · revert hbegins
      decide
  · split
    · rfl
    · split
      · rfl
      · split
        · rfl
        · split
          · rfl
          · rfl

theorem uid_foldl_addLine (email : Email) (lines : List (List Char)) :
    (lines.foldl Email.addLine email).uid =
      ((lines.filter ("UID: ".toList <+: ·)).getLast?.map fun line ↦ trim (line.drop 5)).getD
        email.uid := by
  induction lines using List.reverseRecOn with
  | nil => rfl
  | append_singleton lines last ih =>
    rw [List.foldl_append, List.foldl_cons, List.foldl_nil, uid_addLine, List.filter_append]
    split
    · next hlast =>
      have hkept : [last].filter ("UID: ".toList <+: ·) = [last] := by
        rw [List.filter_eq_self]
        intro line hline
        rw [List.mem_singleton.mp hline]
        exact decide_eq_true hlast
      rw [hkept, List.getLast?_concat]
      rfl
    · next hlast =>
      have hdropped : [last].filter ("UID: ".toList <+: ·) = [] := by
        rw [List.filter_eq_nil_iff]
        intro line hline
        rw [List.mem_singleton.mp hline]
        exact mt of_decide_eq_true hlast
      rw [hdropped, List.append_nil, ih]

theorem uidLines_ne_nil (uid mail : Bytes) : uidLines (decode (blockOf uid mail)) ≠ [] := by
  have hlabel : decode (blockOf uid mail) =
      "UID: ".toList ++ decode (uid ++ lit "\n" ++ mail) := by
    rw [blockOf, List.append_assoc, List.append_assoc, ← List.append_assoc uid]
    exact decode_ascii_append (by decide +kernel) _
  cases hlines : (decode (uid ++ lit "\n" ++ mail)).splitOn '\n' with
  | nil => exact absurd hlines (List.splitOn_ne_nil _ _)
  | cons line lines =>
    have hfirst : "UID: ".toList ++ line ∈ (decode (blockOf uid mail)).splitOn '\n' := by
      rw [hlabel, splitOn_append_of_not_mem (by decide +kernel), hlines, List.modifyHead_cons]
      exact List.mem_cons_self
    exact List.ne_nil_of_mem
      (List.mem_filter.mpr ⟨hfirst, decide_eq_true (List.prefix_append _ line)⟩)

theorem uid_parseEmailBlock_iff (uid mail : Bytes) :
    encode (parseEmailBlock (decode (blockOf uid mail))).uid = uid ↔
      ∀ line ∈ (uidLines (decode (blockOf uid mail))).getLast?,
        encode (trim (line.drop 5)) = uid := by
  rw [parseEmailBlock, uid_foldl_addLine, ← uidLines]
  cases hlast : (uidLines (decode (blockOf uid mail))).getLast? with
  | none => exact absurd (List.getLast?_eq_none_iff.mp hlast) (uidLines_ne_nil uid mail)
  | some line =>
    constructor
    · intro heq other hother
      obtain rfl := Option.some.inj hother
      exact heq
    · exact fun h ↦ h line rfl

section Separator

variable {blocks : List (List Char)}
  (hend : ∀ block ∈ blocks, block = [] ∨ ∃ front, block = front ++ ['\n'])

include hend

theorem cut_separator (h : ∀ block ∈ blocks, ¬separator <:+: block) :
    (cut separator (blocks.map (· ++ separator)).flatten).1 = blocks :=
  @cut_blocks Char _ '\n' "====================".toList (by decide) blocks hend h

theorem not_isInfix_of_length
    (h : (cut separator (blocks.map (· ++ separator)).flatten).1.length = blocks.length) :
    ∀ block ∈ blocks, ¬separator <:+: block :=
  @not_isInfix_of_length_cut_blocks Char _ '\n' "====================".toList (by decide) blocks hend h

end Separator

section Box

variable {mail : Bytes → Bytes} {uids : List Bytes}
  (h : ∀ uid ∈ uids, ∃ text, mail uid = text ++ lit "\n")

include h

theorem decode_blockOf_ended : ∀ block ∈ uids.map fun uid ↦ decode (blockOf uid (mail uid)),
    block = [] ∨ ∃ front, block = front ++ ['\n'] := by
  rw [List.forall_mem_map]
  intro uid huid
  obtain ⟨front, hblock⟩ := blockOf_ended (h uid huid) uid
  rw [hblock, decode_append_cons (by decide)]
  exact .inr ⟨decode front, rfl⟩

theorem fetchEmails_contentOf : fetchEmails (contentOf mail uids) = (cut separator
    ((uids.map fun uid ↦ decode (blockOf uid (mail uid))).map (· ++ separator)).flatten).1.map
      parseEmailBlock := by
  rw [fetchEmails, responseText_contentOf, decode_contentOf h]

/-- The page shows the box exactly if it shows every mail. -/
theorem fetchEmails_iff :
    (fetchEmails (contentOf mail uids)).map (fun email ↦ encode email.uid) = uids ↔
      ∀ uid ∈ uids, Shown uid (mail uid) := by
  have hend := decode_blockOf_ended h
  have hfields : uids.map (fun uid ↦
      encode (parseEmailBlock (decode (blockOf uid (mail uid)))).uid) = uids.map id ↔
        ∀ uid ∈ uids, encode (parseEmailBlock (decode (blockOf uid (mail uid)))).uid = id uid :=
    List.map_inj_left
  rw [List.map_id] at hfields
  have hwhole : (∀ uid ∈ uids, ¬separator <:+: decode (blockOf uid (mail uid))) →
      (fetchEmails (contentOf mail uids)).map (fun email ↦ encode email.uid) = uids.map fun uid ↦
        encode (parseEmailBlock (decode (blockOf uid (mail uid)))).uid := by
    intro hnone
    rw [fetchEmails_contentOf h, cut_separator hend (List.forall_mem_map.mpr hnone), List.map_map,
      List.map_map]
    rfl
  constructor
  · intro hsame
    have hlength := congrArg List.length hsame
    rw [List.length_map, fetchEmails_contentOf h, List.length_map] at hlength
    have hnone := List.forall_mem_map.mp
      (not_isInfix_of_length hend (hlength.trans (List.length_map _).symm))
    have huids := hfields.mp ((hwhole hnone).symm.trans hsame)
    exact fun uid huid ↦
      ⟨hnone uid huid, (uid_parseEmailBlock_iff uid (mail uid)).mp (huids uid huid)⟩
  · intro hshown
    rw [hwhole fun uid huid ↦ (hshown uid huid).undivided, hfields]
    exact fun uid huid ↦ (uid_parseEmailBlock_iff uid (mail uid)).mpr (hshown uid huid).named

end Box

/-- The page reads the box back exactly if no mail has lines that it takes for its own. -/
theorem mailPage_iff {user box : Bytes} {store : Store} (stored : StoredBox user box store) :
    ∃ response, runJob (execute ()) (handleGetWebmail user box) 1 0 store =
        some (store, .ok response) ∧
      ((fetchEmails response.content).map (fun email ↦ encode email.uid) = stored.uids ↔
        ∀ uid ∈ stored.uids, Shown uid (stored.mail uid)) :=
  ⟨_, run_handleGetWebmail stored, fetchEmails_iff stored.ended⟩

/-- A mail whose text has a line with the label of the identifier. -/
def forgedMail : Bytes := lit "From: a@b.c\nSubject: s\nUID: 2\n"

def forgedStore : Store :=
  Function.update (Function.update (fun _ ↦ none) (lit "u", lit "1") (some forgedMail))
    (lit "u", lit "inbox") (some (lit "1"))

def forgedBox : StoredBox (lit "u") (lit "inbox") forgedStore where
  uids := [lit "1"]
  mail := fun _ ↦ forgedMail
  nonempty := by decide
  plain := by decide
  listed := by decide +kernel
  stored := by decide +kernel
  ended := fun _ _ ↦ ⟨lit "From: a@b.c\nSubject: s\nUID: 2", by decide +kernel⟩

/-- The page has the identifier that the mail's text says. -/
theorem mailPage_shows_forged :
    ¬∀ (user box : Bytes) (store : Store) (stored : StoredBox user box store),
      ∃ response, runJob (execute ()) (handleGetWebmail user box) 1 0 store =
          some (store, .ok response) ∧
        (fetchEmails response.content).map (fun email ↦ encode email.uid) = stored.uids := by
  intro h
  obtain ⟨response, hrun, hsame⟩ := h _ _ _ forgedBox
  rw [run_handleGetWebmail forgedBox] at hrun
  have hresponse := Except.ok.inj (Prod.mk.inj (Option.some.inj hrun)).2
  rw [← hresponse] at hsame
  revert hsame
  decide +kernel

end PennCloud.Frontend.MailPage
