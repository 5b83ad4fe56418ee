import PennCloud.Frontend.HttpText
import PennCloud.Library.Loops

/-!
# Splitting and joining

`split` goes from one delimiter to the next. Behind the last one `find` gives `npos`, and the length
`npos - pos` takes all that is left: the last piece may be empty like any other. `join` writes the
delimiter in front of every piece but the first. The two are inverse, and they are what the handlers
take their indexes apart with.
-/

open PennCloud.Library.CppString PennCloud.Library.Loops
open PennCloud.KV.TabletCells PennCloud.Frontend.HttpText

namespace PennCloud.Frontend.SplitJoin

/-! ## The two loops -/

/-- `substr` throws, or the bound on the turns is reached. -/
inductive Failure
  | looping
  | thrown (e : StdException)
  deriving DecidableEq

structure SplitScan where
  pos : ℕ := 0
  nextPos : ℕ := 0
  tokens : List Bytes := []

/-- One turn of the `for` loop with its step, in `size_t`. -/
def splitTurn (str : Bytes) (delimiter : UInt8) (s : SplitScan) :
    Except Failure (Turn SplitScan) :=
  if s.nextPos ≠ npos then
    let nextPos := findFrom str delimiter s.pos
    match substr str s.pos (sizeSub nextPos s.pos) with
    | .ok token =>
      .ok (.again { pos := sizeAdd nextPos 1, nextPos := nextPos, tokens := s.tokens ++ [token] })
    | .error e => .error (.thrown e)
  else .ok (.done s)

/-- `RequestHandler::split`, with at most so many turns. -/
def splitLoop (turns : ℕ) (str : Bytes) (delimiter : UInt8) : Except Failure (List Bytes) :=
  (loop .looping (splitTurn str delimiter) turns {}).map SplitScan.tokens

/-- `RequestHandler::join`, by its writes to the stream. -/
def joinLoop (vec : List Bytes) (delimiter : Bytes) : Bytes :=
  match vec with
  | [] => []
  | first :: rest => rest.foldl (fun os s ↦ os ++ delimiter ++ s) first

/-! ## Joining -/

theorem join_append_cons (front first : Bytes) (rest : List Bytes) (delimiter : Bytes) :
    join ((front ++ first) :: rest) delimiter = front ++ join (first :: rest) delimiter := by
  cases rest with
  | nil => rw [join, join, List.intercalate_singleton, List.intercalate_singleton]
  | cons second rest =>
    rw [join, join, List.intercalate_cons_cons, List.intercalate_cons_cons]
    simp only [List.append_assoc]

theorem joinLoop_eq (vec : List Bytes) (delimiter : Bytes) :
    joinLoop vec delimiter = join vec delimiter := by
  cases vec with
  | nil => rfl
  | cons first rest =>
    rw [joinLoop]
    induction rest generalizing first with
    | nil => exact List.intercalate_singleton.symm
    | cons second rest ih =>
      calc
        (second :: rest).foldl (fun os s ↦ os ++ delimiter ++ s) first =
            join ((first ++ delimiter ++ second) :: rest) delimiter := ih _
        _ = first ++ delimiter ++ join (second :: rest) delimiter := join_append_cons _ _ _ _
        _ = join (first :: second :: rest) delimiter := List.intercalate_cons_cons.symm

/-! ## Splitting -/

/-- What holds between the turns: the pieces from `pos` on are left, or behind the last delimiter none. -/
def Scanned (str : Bytes) (delimiter : UInt8) (s : SplitScan) : Prop :=
  s.nextPos ≠ npos ∧ s.pos ≤ str.length ∧
      s.tokens ++ split (str.drop s.pos) delimiter = split str delimiter ∨
    s.nextPos = npos ∧ s.tokens = split str delimiter

/-- How much of the text is left. -/
def left (str : Bytes) (s : SplitScan) : ℕ :=
  if s.nextPos = npos then 0 else str.length - s.pos + 1

theorem splitTurn_delimiter {str piece rest : Bytes} {delimiter : UInt8} {s : SplitScan}
    (hshort : str.length < npos) (hgoes : s.nextPos ≠ npos) (hle : s.pos ≤ str.length)
    (hdrop : str.drop s.pos = piece ++ delimiter :: rest) (hpiece : delimiter ∉ piece) :
    splitTurn str delimiter s = .ok (.again {
      pos := s.pos + piece.length + 1
      nextPos := s.pos + piece.length
      tokens := s.tokens ++ [piece] }) := by
  have hlength := length_of_drop hdrop
  have hnpos : npos = 2 ^ 64 - 1 := rfl
  have hsubstr : substr str s.pos piece.length = .ok piece := by
    rw [substr, if_neg (Nat.not_lt.mpr hle), hdrop, List.take_left]
  rw [splitTurn, if_pos hgoes, findFrom_of_drop hdrop hpiece]
  dsimp only
  rw [sizeSub_of_le (by omega) (by omega), sizeAdd_of_lt (by omega), Nat.add_sub_cancel_left, hsubstr]

/-- Without a further delimiter the length is `npos - pos`, more than what is left. -/
theorem splitTurn_last {str : Bytes} {delimiter : UInt8} {s : SplitScan}
    (hshort : str.length < npos) (hgoes : s.nextPos ≠ npos) (hle : s.pos ≤ str.length)
    (hnone : delimiter ∉ str.drop s.pos) :
    splitTurn str delimiter s = .ok (.again {
      pos := 0
      nextPos := npos
      tokens := s.tokens ++ [str.drop s.pos] }) := by
  have hnpos : npos = 2 ^ 64 - 1 := rfl
  have hwrap : sizeAdd npos 1 = 0 := by decide
  have hsubstr : substr str s.pos (npos - s.pos) = .ok (str.drop s.pos) := by
    rw [substr, if_neg (Nat.not_lt.mpr hle), List.take_of_length_le]
    rw [List.length_drop]
    omega
  rw [splitTurn, if_pos hgoes, findFrom_of_not_mem hnone]
  dsimp only
  rw [sizeSub_of_le (by omega) (by omega), hwrap, hsubstr]

/-- One turn for each piece, and one that finds the end. -/
theorem splitLoop_eq {str : Bytes} (hshort : str.length < npos) (delimiter : UInt8) {turns : ℕ}
    (hturns : str.length + 1 < turns) :
    splitLoop turns str delimiter = .ok (split str delimiter) := by
  suffices htotal : ∃ s, loop .looping (splitTurn str delimiter) turns {} = .ok s ∧
      s.tokens = split str delimiter by
    obtain ⟨s, hloop, htokens⟩ := htotal
    rw [splitLoop, hloop]
    exact congrArg Except.ok htokens
  refine loop_total (I := Scanned str delimiter) (left str) ?_ (.inl ⟨?_, Nat.zero_le _, rfl⟩) hturns
  · rintro s (⟨hgoes, hle, htokens⟩ | ⟨hend, htokens⟩)
    · right
      have hleft : left str s = str.length - s.pos + 1 := if_neg hgoes
      by_cases hmem : delimiter ∈ str.drop s.pos
      · obtain ⟨piece, rest, hdrop, hpiece⟩ := List.eq_append_cons_of_mem hmem
        have hlength := length_of_drop hdrop
        have hnext : s.pos + piece.length ≠ npos := by omega
        refine ⟨_, splitTurn_delimiter hshort hgoes hle hdrop hpiece, .inl ⟨hnext, ?_, ?_⟩, ?_⟩
        · dsimp only
          omega
        · dsimp only
          rw [drop_behind hdrop, ← htokens, hdrop, split, split,
            List.splitOn_append_cons_self_of_not_mem hpiece, List.append_assoc]
          rfl
        · rw [hleft, left, if_neg hnext]
          dsimp only
          omega
      · refine ⟨_, splitTurn_last hshort hgoes hle hmem, .inr ⟨rfl, ?_⟩, ?_⟩
        · rw [← htokens, split, List.splitOn_eq_singleton hmem]
        · rw [hleft, left, if_pos rfl]
          exact Nat.succ_pos _
    · exact .inl ⟨s, if_neg (not_not_intro hend), htokens⟩
  · decide

/-! ## There and back -/

/-- A text is joined from its pieces, and pieces without the delimiter are found again. No `std::string`
has `npos` bytes. -/
theorem split_join_inverse (delimiter : UInt8) (turns : ℕ) :
    (∀ str : Bytes, str.length < npos → str.length + 1 < turns →
        ∃ tokens, splitLoop turns str delimiter = .ok tokens ∧
          joinLoop tokens [delimiter] = str) ∧
      ∀ vec : List Bytes, vec ≠ [] → (∀ s ∈ vec, delimiter ∉ s) →
        (joinLoop vec [delimiter]).length < npos →
        (joinLoop vec [delimiter]).length + 1 < turns →
          splitLoop turns (joinLoop vec [delimiter]) delimiter = .ok vec := by
  constructor
  · intro str hshort hturns
    refine ⟨split str delimiter, splitLoop_eq hshort delimiter hturns, ?_⟩
    rw [joinLoop_eq]
    exact List.intercalate_splitOn delimiter
  · intro vec hne hplain hshort hturns
    rw [splitLoop_eq hshort delimiter hturns, joinLoop_eq]
    exact congrArg Except.ok (List.splitOn_intercalate delimiter hplain hne)

theorem split_join_commas :
    (∃ tokens, splitLoop 6 (lit ",a,,") comma = .ok tokens ∧ joinLoop tokens [comma] = lit ",a,,") ∧
      splitLoop 6 (joinLoop [[], lit "a", []] [comma]) comma = .ok [[], lit "a", []] :=
  ⟨(split_join_inverse comma 6).1 (lit ",a,,") (by decide +kernel) (by decide +kernel),
    (split_join_inverse comma 6).2 [[], lit "a", []] (by decide +kernel) (by decide +kernel)
      (by decide +kernel) (by decide +kernel)⟩

end PennCloud.Frontend.SplitJoin
