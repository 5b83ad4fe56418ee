import PennCloud.Frontend.FileEntries
import PennCloud.Library.Loops

/-!
# The clean-up of commas

When an entry has been cut out of a list, two handlers replace double commas by one until none is left
and drop a comma at either end. Each has its own loop: one searches in its condition, the other
carries the position along. Both end, and what they leave are the nonempty pieces between single
commas.
-/

open PennCloud.Library.CppString PennCloud.Library.TextSearch PennCloud.Library.Loops
open PennCloud.KV.TabletCells PennCloud.Frontend.HttpText PennCloud.Frontend.StorageIndex
open PennCloud.Frontend.FileEntries

namespace PennCloud.Frontend.CommaCleanup

/-! ## The two handlers -/

/-- `text.replace(pos, len, replacement)`. -/
def replaceAt (text : Bytes) (pos len : ℕ) (replacement : Bytes) : Bytes :=
  text.take pos ++ replacement ++ text.drop (pos + len)

/-- `while ((pos = uid_list_new.find(double_comma)) != string::npos)`. -/
def webmailTurn (uidListNew : Bytes) : Except Unit (Turn Bytes) :=
  match find? (lit ",,") uidListNew with
  | some pos => .ok (.again (replaceAt uidListNew pos (lit ",,").length (lit ",")))
  | none => .ok (.done uidListNew)

def webmailEnds (uidListNew : Bytes) : Bytes :=
  if uidListNew ≠ [] then
    let rest := if uidListNew.head? = some comma then uidListNew.tail else uidListNew
    if rest ≠ [] ∧ rest.getLast? = some comma then rest.dropLast else rest
  else uidListNew

/-- The clean-up of `handle_delete_webmail`, with at most so many turns of its loop. -/
def webmailCleanup (turns : ℕ) (uidListNew : Bytes) : Except Unit Bytes :=
  (loop () webmailTurn turns uidListNew).map webmailEnds

structure FolderScan where
  newFileList : Bytes
  commaPos : Option ℕ

/-- `while (comma_pos != string::npos)`. -/
def folderTurn (s : FolderScan) : Except Unit (Turn FolderScan) :=
  match s.commaPos with
  | some commaPos =>
    let newFileList := replaceAt s.newFileList commaPos (lit ",,").length (lit ",")
    .ok (.again { newFileList := newFileList, commaPos := find? (lit ",,") newFileList })
  | none => .ok (.done s)

def folderEnds (newFileList : Bytes) : Bytes :=
  let rest :=
    if newFileList ≠ [] ∧ newFileList.head? = some comma then newFileList.tail else newFileList
  if rest ≠ [] ∧ rest.getLast? = some comma then rest.dropLast else rest

def folderScan (newFileList : Bytes) : FolderScan where
  newFileList := newFileList
  commaPos := find? (lit ",,") newFileList

/-- The clean-up of `handle_delete_folder`. -/
def folderCleanup (turns : ℕ) (newFileList : Bytes) : Except Unit Bytes :=
  (loop () folderTurn turns (folderScan newFileList)).map fun s ↦ folderEnds s.newFileList

/-- The text split at its commas and joined again without the empty pieces. -/
def withoutEmpty (text : Bytes) : Bytes := join (entries text) (lit ",")

/-! ## The ends -/

/-- An empty text has no comma at its ends, so that the tests for it change nothing. -/
theorem webmailEnds_eq (text : Bytes) : webmailEnds text = trimCommas text := by
  unfold webmailEnds trimCommas
  by_cases hempty : text = []
  · rw [hempty]
    rfl
  · rw [if_pos hempty]
    dsimp only
    exact if_congr (and_iff_right_of_imp fun hlast hnil ↦ by simp [hnil] at hlast) rfl rfl

theorem folderEnds_eq (text : Bytes) : folderEnds text = trimCommas text := by
  unfold folderEnds trimCommas
  have hhead : (text ≠ [] ∧ text.head? = some comma) ↔ text.head? = some comma :=
    and_iff_right_of_imp fun hhead hnil ↦ by simp [hnil] at hhead
  rw [if_congr hhead rfl rfl]
  exact if_congr (and_iff_right_of_imp fun hlast hnil ↦ by simp [hnil] at hlast) rfl rfl

theorem length_trimCommas_le (text : Bytes) : (trimCommas text).length ≤ text.length := by
  unfold trimCommas
  dsimp only
  split_ifs
  · rw [List.length_dropLast, List.length_tail]
    omega
  · rw [List.length_tail]
    omega
  · rw [List.length_dropLast]
    omega
  · exact le_rfl

/-! ## The loops -/

theorem folderTurn_scan (text : Bytes) :
    folderTurn (folderScan text) = (webmailTurn text).map (Turn.map folderScan) := by
  have hpos : (folderScan text).commaPos = find? (lit ",,") text := rfl
  rw [folderTurn, webmailTurn, hpos]
  cases find? (lit ",,") text with
  | none => rfl
  | some pos => rfl

/-- The loops take the same turns. -/
theorem folderCleanup_eq : folderCleanup = webmailCleanup := by
  funext turns text
  rw [folderCleanup, webmailCleanup, loop_map folderScan folderTurn_scan]
  cases loop () webmailTurn turns text with
  | error e => rfl
  | ok text => exact congrArg Except.ok ((folderEnds_eq text).trans (webmailEnds_eq text).symm)

theorem replaceAt_eq {text : Bytes} {pos : ℕ} (h : find? (lit ",,") text = some pos) :
    replaceAt text pos (lit ",,").length (lit ",") = replaceFirst text (lit ",,") (lit ",") := by
  rw [replaceFirst, h, replaceAt]

/-- A turn for each double comma and one for the end: every replacement shortens the text. -/
theorem webmailLoop_eq (text : Bytes) : ∀ turns, text.length < turns →
    loop () webmailTurn turns text = .ok (collapseCommas text) := by
  refine collapseCommas_induct (P := fun text result ↦ ∀ turns, text.length < turns →
    loop () webmailTurn turns text = .ok result) ?_ ?_ text
  · intro text hnone turns hturns
    obtain ⟨n, rfl⟩ := Nat.exists_eq_succ_of_ne_zero (Nat.ne_zero_of_lt hturns)
    rw [loop, webmailTurn, hnone]
  · intro text result hfind ih turns hturns
    obtain ⟨n, rfl⟩ := Nat.exists_eq_succ_of_ne_zero (Nat.ne_zero_of_lt hturns)
    obtain ⟨pos, hpos⟩ := Option.ne_none_iff_exists'.mp hfind
    have hlength := length_replaceFirst hfind
    rw [loop, webmailTurn, hpos]
    dsimp only
    rw [replaceAt_eq hpos]
    exact ih n (by omega)

/-! ## The clean-up -/

theorem webmailCleanup_eq {text : Bytes} {turns : ℕ} (hturns : text.length < turns) :
    webmailCleanup turns text = .ok (trimCommas (collapseCommas text)) := by
  rw [webmailCleanup, webmailLoop_eq text turns hturns]
  exact congrArg Except.ok (webmailEnds_eq _)

theorem length_withoutEmpty_le (text : Bytes) : (withoutEmpty text).length ≤ text.length := by
  rw [withoutEmpty, ← trim_collapse]
  exact (length_trimCommas_le _).trans (length_collapseCommas_le text)

theorem withoutEmpty_withoutEmpty (text : Bytes) :
    withoutEmpty (withoutEmpty text) = withoutEmpty text := by
  have hplain : ∀ piece ∈ entries text, comma ∉ piece :=
    fun piece hpiece ↦ not_mem_of_mem_split (mem_entries.mp hpiece).1
  have hfilter : (entries text).filter (· ≠ []) = entries text :=
    List.filter_eq_self.mpr fun piece hpiece ↦ decide_eq_true (mem_entries.mp hpiece).2
  rw [withoutEmpty, withoutEmpty, entries_join hplain, hfilter]

/-- Both clean-ups end with the nonempty pieces, change such a text no more, and are the same. -/
theorem cleanups_drop_empty_pieces (text : Bytes) (turns : ℕ) (hturns : text.length < turns) :
    webmailCleanup turns text = .ok (withoutEmpty text) ∧
      webmailCleanup turns (withoutEmpty text) = .ok (withoutEmpty text) ∧
      folderCleanup = webmailCleanup := by
  have hcleanup : ∀ text : Bytes, text.length < turns →
      webmailCleanup turns text = .ok (withoutEmpty text) := by
    intro text hturns
    rw [webmailCleanup_eq hturns, trim_collapse, withoutEmpty]
  refine ⟨hcleanup text hturns, ?_, folderCleanup_eq⟩
  have hagain := hcleanup (withoutEmpty text) ((length_withoutEmpty_le text).trans_lt hturns)
  rwa [withoutEmpty_withoutEmpty] at hagain

theorem cleanups_drop_only_commas :
    webmailCleanup 6 (lit ",,,,,") = .ok (withoutEmpty (lit ",,,,,")) ∧
      webmailCleanup 6 (withoutEmpty (lit ",,,,,")) = .ok (withoutEmpty (lit ",,,,,")) ∧
      folderCleanup = webmailCleanup :=
  cleanups_drop_empty_pieces (lit ",,,,,") 6 (by decide +kernel)

example : folderCleanup 9 (lit ",a,,b,,,") = .ok (lit "a,b") := by decide +kernel

end PennCloud.Frontend.CommaCleanup
