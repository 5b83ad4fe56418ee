import PennCloud.Frontend.FileEntries
import PennCloud.Frontend.Mail
import PennCloud.Frontend.Uploads

/-!
# Deleting a mail

The handler searches the inbox, which is one text, for the identifier in the request and cuts the first
occurrence out, then cleans up the commas. An identifier that begins or ends another one, or is
within it, is found there too. So the mail is deleted exactly if no identifier in front of
it has the one of the mail in it.
-/

open PennCloud.Library.CppString PennCloud.Library.TextSearch PennCloud.Library.Programs
open PennCloud.KV.TabletCells PennCloud.Frontend.KVClient PennCloud.Frontend.HttpText
open PennCloud.Frontend.Storage PennCloud.Frontend.StorageIndex PennCloud.Frontend.FileEntries
open PennCloud.Frontend.Mail PennCloud.Frontend.Uploads

namespace PennCloud.Frontend.Mailboxes

/-- A box as the handlers read it; a missing one is empty. -/
def boxOf (user box : Bytes) (store : Store) : Bytes := (store (user, box)).getD []

/-- The identifiers in an inbox. -/
structure Inbox where
  uids : List Bytes
  wellFormed : ∀ uid ∈ uids, uid ≠ [] ∧ comma ∉ uid
  distinct : uids.Nodup

/-- The identifier has gone from the inbox to the deleted mails. -/
structure MailDeleted (user uid : Bytes) (uids : List Bytes) (before after : Store) : Prop where
  inbox : boxOf user (lit "inbox") after = join (uids.erase uid) (lit ",")
  deleted : uid ∈ uids → entries (boxOf user (lit "deleted") after) =
    entries (boxOf user (lit "deleted") before) ++ [uid]
  cells : ∀ cell, cell ≠ (user, lit "inbox") → cell ≠ (user, lit "deleted") →
    after cell = before cell

/-! ## Cutting out -/

/-- The pattern cut out of the first piece that has it. -/
def cutOut (pattern : Bytes) : List Bytes → List Bytes
  | [] => []
  | piece :: pieces =>
    if pattern <:+: piece then replaceFirst piece pattern [] :: pieces
    else piece :: cutOut pattern pieces

variable {pattern : Bytes}

theorem replaceFirst_of_not_isInfix {text : Bytes} (h : ¬pattern <:+: text) (replacement : Bytes) :
    replaceFirst text pattern replacement = text := by
  rw [replaceFirst, find?_eq_none_iff_not_isInfix.mpr h]

theorem length_replaceFirst_nil {text : Bytes} (h : pattern <:+: text) :
    (replaceFirst text pattern []).length + pattern.length = text.length := by
  unfold replaceFirst
  split
  · next p hfind =>
    have hlength := add_length_le_of_find? hfind
    rw [List.append_nil, List.length_append, List.length_take, List.length_drop]
    omega
  · next hfind => exact absurd h (find?_eq_none_iff_not_isInfix.mp hfind)

theorem mem_of_mem_replaceFirst {text : Bytes} {b : UInt8} (h : b ∈ replaceFirst text pattern []) :
    b ∈ text := by
  unfold replaceFirst at h
  split at h
  · rw [List.append_nil] at h
    rcases List.mem_append.mp h with hfront | hrest
    · exact List.mem_of_mem_take hfront
    · exact List.mem_of_mem_drop hrest
  · exact h

theorem replaceFirst_of_find? {text : Bytes} {p : ℕ} (h : find? pattern text = some p) :
    replaceFirst text pattern [] = text.take p ++ text.drop (p + pattern.length) := by
  rw [replaceFirst, h]
  dsimp only
  rw [List.append_nil]

theorem join_cons_of_ne_nil (piece : Bytes) {pieces : List Bytes} (h : pieces ≠ []) :
    join (piece :: pieces) (lit ",") = piece ++ comma :: join pieces (lit ",") := by
  rw [join, List.intercalate_cons_of_ne_nil h, List.append_assoc]
  rfl

section CutOut

variable (hcomma : comma ∉ pattern) (hne : pattern ≠ [])

include hcomma hne

/-- What is cut out of a piece or of what follows it. -/
theorem replaceFirst_append_cons (piece rest : Bytes) :
    replaceFirst (piece ++ comma :: rest) pattern [] =
      if pattern <:+: piece then replaceFirst piece pattern [] ++ comma :: rest
      else piece ++ comma :: replaceFirst rest pattern [] := by
  have hfind := find?_append_cons hcomma hne piece rest
  cases hpiece : find? pattern piece with
  | some p =>
    have hwithin : pattern <:+: piece := by
      by_contra hnot
      rw [find?_eq_none_iff_not_isInfix.mpr hnot] at hpiece
      cases hpiece
    have hlength := add_length_le_of_find? hpiece
    have hle : p ≤ piece.length := by omega
    rw [hpiece, Option.some_or] at hfind
    rw [if_pos hwithin, replaceFirst_of_find? hfind, replaceFirst_of_find? hpiece,
      List.take_append_of_le_length hle, List.drop_append_of_le_length hlength, List.append_assoc]
  | none =>
    rw [hpiece, Option.none_or] at hfind
    rw [if_neg (find?_eq_none_iff_not_isInfix.mp hpiece)]
    cases hrest : find? pattern rest with
    | none =>
      rw [hrest, Option.map_none] at hfind
      rw [replaceFirst, hfind, replaceFirst, hrest]
    | some p =>
      rw [hrest, Option.map_some] at hfind
      have htake : (piece ++ comma :: rest).take (p + (piece.length + 1)) =
          piece ++ comma :: rest.take p := by
        rw [Nat.add_comm, Nat.add_assoc, Nat.add_comm 1, List.take_length_add_append,
          List.take_succ_cons]
      have hdrop : (piece ++ comma :: rest).drop (p + (piece.length + 1) + pattern.length) =
          rest.drop (p + pattern.length) := by
        rw [show p + (piece.length + 1) + pattern.length = piece.length + (p + pattern.length + 1)
          by omega, List.drop_length_add_append, List.drop_succ_cons]
      rw [replaceFirst_of_find? hfind, replaceFirst_of_find? hrest, htake, hdrop, List.append_assoc]
      rfl

omit hcomma hne in
theorem cutOut_ne_nil {pieces : List Bytes} (h : pieces ≠ []) : cutOut pattern pieces ≠ [] := by
  cases pieces with
  | nil => exact absurd rfl h
  | cons piece pieces =>
    unfold cutOut
    split
    · exact List.cons_ne_nil _ _
    · exact List.cons_ne_nil _ _

/-- The text without the first occurrence. -/
theorem replaceFirst_join (pieces : List Bytes) :
    replaceFirst (join pieces (lit ",")) pattern [] = join (cutOut pattern pieces) (lit ",") := by
  induction pieces with
  | nil =>
    rw [replaceFirst_of_not_isInfix]
    · rfl
    · exact fun hwithin ↦ hne (List.infix_nil.mp hwithin)
  | cons piece pieces ih =>
    unfold cutOut
    by_cases hpieces : pieces = []
    · subst hpieces
      split
      · rw [join, List.intercalate_singleton, join, List.intercalate_singleton]
      · next hwithin =>
        rw [join, List.intercalate_singleton, replaceFirst_of_not_isInfix hwithin]
        exact List.intercalate_singleton.symm
    · rw [join_cons_of_ne_nil piece hpieces, replaceFirst_append_cons hcomma hne]
      split
      · rw [join_cons_of_ne_nil _ hpieces]
      · rw [ih, join_cons_of_ne_nil _ (cutOut_ne_nil hpieces)]

end CutOut

theorem comma_not_mem_cutOut (pattern : Bytes) {pieces : List Bytes}
    (h : ∀ piece ∈ pieces, comma ∉ piece) :
    ∀ piece ∈ cutOut pattern pieces, comma ∉ piece := by
  induction pieces with
  | nil => exact h
  | cons piece pieces ih =>
    obtain ⟨hpiece, hpieces⟩ := List.forall_mem_cons.mp h
    unfold cutOut
    split
    · exact List.forall_mem_cons.mpr ⟨fun hmem ↦ hpiece (mem_of_mem_replaceFirst hmem), hpieces⟩
    · exact List.forall_mem_cons.mpr ⟨hpiece, ih hpieces⟩

/-- The identifier itself is cut out if it is not found in another one before. -/
theorem cutOut_eq_erase_iff {uids : List Bytes} (h : ∀ uid ∈ uids, uid ≠ []) (hne : pattern ≠ []) :
    (cutOut pattern uids).filter (· ≠ []) = uids.erase pattern ↔
      ∀ uid ∈ uids.takeWhile (· ≠ pattern), ¬pattern <:+: uid := by
  induction uids with
  | nil => exact iff_of_true rfl fun _ hmem ↦ absurd hmem List.not_mem_nil
  | cons uid uids ih =>
    obtain ⟨huid, huids⟩ := List.forall_mem_cons.mp h
    have hkept : ∀ pieces : List Bytes, (∀ piece ∈ pieces, piece ≠ []) →
        pieces.filter (· ≠ []) = pieces :=
      fun pieces hpieces ↦ List.filter_eq_self.mpr fun piece hpiece ↦
        decide_eq_true (hpieces piece hpiece)
    by_cases heq : uid = pattern
    · subst heq
      have hcut : replaceFirst uid uid [] = [] := by
        have hlength := length_replaceFirst_nil (List.infix_refl uid)
        exact List.length_eq_zero_iff.mp (by omega)
      rw [cutOut, if_pos (List.infix_refl uid), hcut, List.filter_cons_of_neg (by simp),
        hkept uids huids, List.erase_cons_head, List.takeWhile_cons_of_neg (by simp)]
      exact iff_of_true rfl fun _ hmem ↦ absurd hmem List.not_mem_nil
    · rw [List.takeWhile_cons_of_pos (by simpa using heq), List.forall_mem_cons,
        List.erase_cons_tail (by simpa using heq), cutOut]
      by_cases hwithin : pattern <:+: uid
      · rw [if_pos hwithin]
        refine iff_of_false (fun hsame ↦ ?_) fun hboth ↦ hboth.1 hwithin
        have hlength := length_replaceFirst_nil hwithin
        have hpos := List.length_pos_iff.mpr hne
        by_cases hnil : replaceFirst uid pattern [] = []
        · rw [hnil, List.length_nil, Nat.zero_add] at hlength
          exact heq (hwithin.eq_of_length hlength).symm
        · rw [List.filter_cons_of_pos (by simpa using hnil)] at hsame
          have hhead := (List.cons.inj hsame).1
          rw [hhead] at hlength
          omega
      · rw [if_neg hwithin, List.filter_cons_of_pos (by simpa using huid), List.cons_inj_right,
          ih huids]
        exact (and_iff_right hwithin).symm

/-! ## Running the handler -/

/-- What the first loop leaves. -/
def storeCut (user uid : Bytes) (store : Store) : Store :=
  Function.update store (user, lit "inbox")
    (some (trimCommas (collapseCommas (replaceFirst (boxOf user (lit "inbox") store) uid []))))

/-- What both loops leave. -/
def storeDeleted (user uid : Bytes) (store : Store) : Store :=
  Function.update (storeCut user uid store) (user, lit "deleted")
    (some (appendEntry (boxOf user (lit "deleted") store) uid))

theorem run_getBox {α : Type} (user box : Bytes) (f : Bytes → KVProg α) (store : Store) :
    (getdefault user box [] >>= f).run (execute ()) store =
      (f (boxOf user box store)).run (execute ()) store := by
  rw [Prog.run_bind, run_getdefault]
  rfl

theorem run_setBox (user box new : Bytes) (store : Store) :
    (cput user box (boxOf user box store) new).run (execute ()) store =
      (Function.update store (user, box) (some new), .ok ()) := by
  apply run_cput_of_matches
  unfold Matches boxOf
  cases store (user, box) with
  | none => exact .inr ⟨rfl, rfl⟩
  | some old => exact .inl rfl

theorem run_handleDeleteWebmail (user rawRequest : Bytes) (store : Store) :
    runJob (execute ()) (handleDeleteWebmail user rawRequest) 2 0 store =
      some (storeDeleted user (parseBody rawRequest).2 store,
        .ok (corsOk (lit "Successfully deleted email"))) := by
  have hdeleted : boxOf user (lit "deleted") (storeCut user (parseBody rawRequest).2 store) =
      boxOf user (lit "deleted") store := by
    rw [boxOf, boxOf, storeCut, Function.update_of_ne]
    intro heq
    revert heq
    simp [lit]
  have hfirst : (handleDeleteWebmail user rawRequest 0).run (execute ()) store =
      (storeCut user (parseBody rawRequest).2 store, .ok (.again 1)) := by
    rw [handleDeleteWebmail, catchKVNoMatch, Prog.run_handle, run_getBox, Prog.run_bind, run_setBox]
    rfl
  have hsecond : (handleDeleteWebmail user rawRequest 1).run (execute ())
      (storeCut user (parseBody rawRequest).2 store) =
        (storeDeleted user (parseBody rawRequest).2 store,
          .ok (.done (corsOk (lit "Successfully deleted email")))) := by
    rw [handleDeleteWebmail, catchKVNoMatch, Prog.run_handle, run_getBox, Prog.run_bind, run_setBox,
      hdeleted]
    rfl
  rw [runJob, hfirst]
  dsimp only
  rw [runJob, hsecond]

/-! ## Deleting -/

section Deleted

variable {user uid : Bytes} {inbox : Inbox} {store : Store}
  (hinbox : boxOf user (lit "inbox") store = join inbox.uids (lit ",")) (hne : uid ≠ [])
  (hcomma : comma ∉ uid)

include hinbox hne hcomma

theorem inbox_storeDeleted : boxOf user (lit "inbox") (storeDeleted user uid store) =
    join ((cutOut uid inbox.uids).filter (· ≠ [])) (lit ",") := by
  have hcells : (user, lit "inbox") ≠ (user, lit "deleted") := by simp [lit]
  have hplain := comma_not_mem_cutOut uid fun u hu ↦ (inbox.wellFormed u hu).2
  rw [boxOf, storeDeleted, Function.update_of_ne hcells, storeCut, Function.update_self,
    Option.getD_some, hinbox, replaceFirst_join hcomma hne, trim_collapse, entries_join hplain]

theorem mailDeleted_iff : MailDeleted user uid inbox.uids store (storeDeleted user uid store) ↔
    ∀ other ∈ inbox.uids.takeWhile (· ≠ uid), ¬uid <:+: other := by
  rw [← cutOut_eq_erase_iff (fun u hu ↦ (inbox.wellFormed u hu).1) hne]
  constructor
  · intro h
    have htexts := h.inbox
    rw [inbox_storeDeleted hinbox hne hcomma] at htexts
    have hentries := congrArg entries htexts
    have hcut := comma_not_mem_cutOut uid fun u hu ↦ (inbox.wellFormed u hu).2
    rw [entries_join fun u hu ↦ hcut u (List.mem_of_mem_filter hu),
      entries_join fun u hu ↦ (inbox.wellFormed u (List.mem_of_mem_erase hu)).2,
      List.filter_filter] at hentries
    have hkept : (inbox.uids.erase uid).filter (· ≠ []) = inbox.uids.erase uid :=
      List.filter_eq_self.mpr fun u hu ↦
        decide_eq_true (inbox.wellFormed u (List.mem_of_mem_erase hu)).1
    rw [hkept] at hentries
    rw [← hentries]
    exact List.filter_congr fun _ _ ↦ (Bool.and_self _).symm
  · intro hsame
    constructor
    · rw [inbox_storeDeleted hinbox hne hcomma, hsame]
    · intro _
      rw [boxOf, storeDeleted, Function.update_self, Option.getD_some, entries_appendEntry,
        entries_of_not_mem hne hcomma]
    · intro cell hfirst hsecond
      rw [storeDeleted, Function.update_of_ne hsecond, storeCut, Function.update_of_ne hfirst]

end Deleted

/-- A mail is deleted, and no other one, exactly if its identifier is not found in another one before. -/
theorem deleteWebmail_only_iff {user rawRequest : Bytes} {store : Store} (inbox : Inbox)
    (hinbox : boxOf user (lit "inbox") store = join inbox.uids (lit ","))
    (hne : (parseBody rawRequest).2 ≠ []) (hcomma : comma ∉ (parseBody rawRequest).2) :
    ∃ (after : Store) (response : Response),
      runJob (execute ()) (handleDeleteWebmail user rawRequest) 2 0 store =
        some (after, .ok response) ∧
      (MailDeleted user (parseBody rawRequest).2 inbox.uids store after ↔
        ∀ uid ∈ inbox.uids.takeWhile (· ≠ (parseBody rawRequest).2),
          ¬(parseBody rawRequest).2 <:+: uid) :=
  ⟨_, _, run_handleDeleteWebmail user rawRequest store, mailDeleted_iff hinbox hne hcomma⟩

/-- Two mails, the identifier of the second within that of the first. -/
def twoMails : Inbox := ⟨[lit "xab", lit "ab"], by decide, by decide⟩

def twoMailsStore : Store :=
  Function.update (fun _ ↦ none) (lit "u", lit "inbox") (some (lit "xab,ab"))

theorem deleteWebmail_only_iff_first : ∃ (after : Store) (response : Response),
    runJob (execute ()) (handleDeleteWebmail (lit "u") (lit "\r\n\r\nxab")) 2 0 twoMailsStore =
      some (after, .ok response) ∧
    MailDeleted (lit "u") (lit "xab") twoMails.uids twoMailsStore after := by
  have hbody : (parseBody (lit "\r\n\r\nxab")).2 = lit "xab" := by decide +kernel
  obtain ⟨after, response, hrun, hdeleted⟩ :=
    @deleteWebmail_only_iff (lit "u") (lit "\r\n\r\nxab") twoMailsStore twoMails
      (by decide +kernel) (by decide +kernel) (by decide +kernel)
  rw [hbody] at hdeleted
  exact ⟨after, response, hrun, hdeleted.mpr (by decide +kernel)⟩

/-- The text of the second identifier is cut out of the first one. -/
theorem deleteWebmail_cuts_another :
    ¬∀ (user rawRequest : Bytes) (inbox : Inbox) (store : Store),
      boxOf user (lit "inbox") store = join inbox.uids (lit ",") →
      (parseBody rawRequest).2 ≠ [] → comma ∉ (parseBody rawRequest).2 →
      ∃ (after : Store) (response : Response),
        runJob (execute ()) (handleDeleteWebmail user rawRequest) 2 0 store =
          some (after, .ok response) ∧
        MailDeleted user (parseBody rawRequest).2 inbox.uids store after := by
  intro h
  have hrun : (runJob (execute ()) (handleDeleteWebmail (lit "u") (lit "\r\n\r\nab")) 2 0
      twoMailsStore).map (fun outcome ↦ decide (boxOf (lit "u") (lit "inbox") outcome.1 =
        lit "x,ab")) = some true := by decide +kernel
  obtain ⟨after, response, hafter, hdeleted⟩ := h (lit "u") (lit "\r\n\r\nab") twoMails
    twoMailsStore (by decide +kernel) (by decide +kernel) (by decide +kernel)
  rw [hafter] at hrun
  have hinbox : boxOf (lit "u") (lit "inbox") after = lit "x,ab" :=
    of_decide_eq_true (Option.some.inj hrun)
  have hshould := hdeleted.inbox
  rw [hinbox] at hshould
  revert hshould
  decide +kernel

end PennCloud.Frontend.Mailboxes
