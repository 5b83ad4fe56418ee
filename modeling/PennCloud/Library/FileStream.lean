import PennCloud.Library.CppString
import Mathlib.Data.List.TakeWhile

/-!
# Input file streams

The part of `std::ifstream` that a sequential reader uses: `getline`, `read` into a buffer of
zero bytes, and `seekg` forward from the current position, with the `eofbit` and `failbit`
of the stream. Only the bytes from the current position on are kept; a position past the end
of the file reads like the end. Every operation leaves at most the bytes it found, and a
successful `getline` strictly fewer, which is what makes reading loops end.
-/

namespace PennCloud.Library.FileStream

structure InStream where
  rest : List UInt8
  eofbit : Bool := false
  failbit : Bool := false
  deriving DecidableEq, Repr

namespace InStream

def good (s : InStream) : Bool := !s.eofbit && !s.failbit

/-- `getline(s, line)`: the line without its newline, or `none` where the stream turns false. -/
def getline (s : InStream) : InStream × Option (List UInt8) :=
  if s.good then
    match s.rest with
    | [] => ({ s with eofbit := true, failbit := true }, none)
    | b :: bs =>
      let line := (b :: bs).takeWhile (· != 10)
      match (b :: bs).dropWhile (· != 10) with
      | [] => ({ s with rest := [], eofbit := true }, some line)
      | _ :: rest => ({ s with rest := rest }, some line)
  else
    ({ s with failbit := true }, none)

/-- `s.read(buffer, count)` on a zeroed buffer. A short read keeps the zeros and fails. -/
def read (s : InStream) (count : ℕ) : InStream × List UInt8 :=
  if s.good then
    let found := s.rest.take count
    if found.length = count then
      ({ s with rest := s.rest.drop count }, found)
    else
      ({ rest := [], eofbit := true, failbit := true },
        found ++ List.replicate (count - found.length) 0)
  else
    ({ s with failbit := true }, List.replicate count 0)

/-- `s.seekg(count, ios_base::cur)` for a forward offset: `eofbit` is cleared, and a failed
stream does not move. -/
def skip (s : InStream) (count : ℕ) : InStream :=
  if s.failbit then
    { s with eofbit := false }
  else
    { s with rest := s.rest.drop count, eofbit := false }

theorem getline_rest_lt {s s' : InStream} {line : List UInt8} (h : s.getline = (s', some line)) :
    s'.rest.length < s.rest.length := by
  unfold getline at h
  split at h
  · split at h
    · simp at h
    · next b bs hrest =>
      dsimp only at h
      have hdrop := (List.dropWhile_suffix (l := b :: bs) (· != 10)).length_le
      split at h
      · simp only [Prod.mk.injEq] at h
        rw [← h.1, hrest]
        simp
      · next c cs hcs =>
        simp only [Prod.mk.injEq] at h
        rw [hcs] at hdrop
        rw [← h.1, hrest]
        simp only [List.length_cons] at hdrop ⊢
        omega
  · simp at h

theorem read_rest_le (s : InStream) (count : ℕ) : (s.read count).1.rest.length ≤ s.rest.length := by
  unfold read
  split
  · dsimp only
    split
    · simp
    · simp
  · exact le_rfl

theorem skip_rest_le (s : InStream) (count : ℕ) : (s.skip count).rest.length ≤ s.rest.length := by
  unfold skip
  split
  · exact le_rfl
  · simp

/-- A stream at the start of a non-empty file reads a line. -/
theorem getline_cons (b : UInt8) (bs : List UInt8) :
    ∃ s line, ({ rest := b :: bs } : InStream).getline = (s, some line) := by
  unfold getline
  simp only [good, Bool.not_false, Bool.and_self, if_true]
  split
  · exact ⟨_, _, rfl⟩
  · exact ⟨_, _, rfl⟩

/-! ## The lines of a text -/

/-- The lines of a text; a newline at its end begins no further one. -/
def lines (text : List UInt8) : List (List UInt8) :=
  let pieces := text.splitOn 10
  if pieces.getLast? = some [] then pieces.dropLast else pieces

/-- The lines that are left on a stream. -/
def unread (s : InStream) : List (List UInt8) := if s.good then lines s.rest else []

theorem lines_of_not_mem {line : List UInt8} (hne : line ≠ []) (h : 10 ∉ line) :
    lines line = [line] := by
  unfold lines
  rw [List.splitOn_eq_singleton h]
  exact if_neg fun heq ↦ hne (Option.some.inj heq)

theorem lines_append {line : List UInt8} (h : 10 ∉ line) (rest : List UInt8) :
    lines (line ++ 10 :: rest) = line :: lines rest := by
  unfold lines
  rw [List.splitOn_append_cons_self_of_not_mem h]
  obtain ⟨piece, pieces, hpieces⟩ := List.exists_cons_of_ne_nil (List.splitOn_ne_nil 10 rest)
  rw [hpieces]
  dsimp only
  rw [List.getLast?_cons_cons, List.dropLast_cons_cons]
  split <;> rfl

theorem length_splitOn_le (b : UInt8) (text : List UInt8) :
    (text.splitOn b).length ≤ text.length + 1 ∧
      ∀ piece ∈ text.splitOn b, piece.length ≤ text.length := by
  induction text with
  | nil =>
    refine ⟨le_rfl, fun piece hpiece ↦ ?_⟩
    obtain rfl := List.mem_singleton.mp hpiece
    exact le_rfl
  | cons c text ih =>
    obtain ⟨hlength, hpieces⟩ := ih
    obtain ⟨first, rest, hsplit⟩ := List.exists_cons_of_ne_nil (List.splitOn_ne_nil b text)
    rw [hsplit] at hlength hpieces
    rw [List.splitOn_cons_eq_if_modifyHead, hsplit]
    split
    · refine ⟨Nat.succ_le_succ hlength, List.forall_mem_cons.mpr ⟨Nat.zero_le _, ?_⟩⟩
      exact fun piece hpiece ↦ (hpieces piece hpiece).trans (Nat.le_succ _)
    · refine ⟨hlength.trans (Nat.le_succ _), List.forall_mem_cons.mpr ⟨?_, ?_⟩⟩
      · exact Nat.succ_le_succ (hpieces first List.mem_cons_self)
      · exact fun piece hpiece ↦
          (hpieces piece (List.mem_cons_of_mem first hpiece)).trans (Nat.le_succ _)

theorem length_lines_le (text : List UInt8) : (lines text).length ≤ text.length + 1 := by
  unfold lines
  dsimp only
  split
  · rw [List.length_dropLast]
    exact (Nat.sub_le _ _).trans (length_splitOn_le 10 text).1
  · exact (length_splitOn_le 10 text).1

theorem length_le_of_mem_lines {text line : List UInt8} (h : line ∈ lines text) :
    line.length ≤ text.length := by
  unfold lines at h
  dsimp only at h
  split at h
  · exact (length_splitOn_le 10 text).2 line (List.mem_of_mem_dropLast h)
  · exact (length_splitOn_le 10 text).2 line h

theorem bne_newline {line : List UInt8} (h : 10 ∉ line) : ∀ b ∈ line, (b != 10) = true := by
  intro b hb
  rw [bne_iff_ne]
  rintro rfl
  exact h hb

theorem getline_newline {s : InStream} (hgood : s.good = true) {line rest : List UInt8}
    (h : 10 ∉ line) (hrest : s.rest = line ++ 10 :: rest) :
    s.getline = ({ s with rest := rest }, some line) := by
  have htake : s.rest.takeWhile (· != 10) = line := by
    rw [hrest, List.takeWhile_append_of_pos (bne_newline h)]
    exact List.append_nil line
  have hdrop : s.rest.dropWhile (· != 10) = 10 :: rest := by
    rw [hrest, List.dropWhile_append_of_pos (bne_newline h)]
    rfl
  unfold getline
  rw [if_pos hgood]
  split
  · next hnil => exact absurd (hnil.symm.trans hrest).symm (by simp)
  · next b bs hcons =>
    rw [hcons] at htake hdrop
    simp only [hdrop, htake]

theorem getline_last {s : InStream} (hgood : s.good = true) (hne : s.rest ≠ []) (h : 10 ∉ s.rest) :
    s.getline = ({ s with rest := [], eofbit := true }, some s.rest) := by
  have htake := List.takeWhile_eq_self_iff.mpr (bne_newline h)
  have hdrop := List.dropWhile_eq_nil_iff.mpr (bne_newline h)
  unfold getline
  rw [if_pos hgood]
  split
  · next hnil => exact absurd hnil hne
  · next b bs hcons =>
    rw [hcons] at htake hdrop
    simp only [hdrop, htake, hcons]

/-- `getline` takes the first of the lines that are left. -/
theorem getline_unread (s : InStream) :
    s.getline.2 = s.unread.head? ∧ s.getline.1.unread = s.unread.tail := by
  by_cases hgood : s.good = true
  · have hunread : s.unread = lines s.rest := if_pos hgood
    by_cases hnewline : 10 ∈ s.rest
    · obtain ⟨line, rest, hrest, hnot⟩ := List.eq_append_cons_of_mem hnewline
      rw [getline_newline hgood hnot hrest, hunread, hrest, lines_append hnot]
      exact ⟨rfl, if_pos hgood⟩
    · by_cases hne : s.rest = []
      · have hline : s.getline = ({ s with eofbit := true, failbit := true }, none) := by
          unfold getline
          rw [if_pos hgood, hne]
        rw [hline, hunread, hne]
        exact ⟨rfl, rfl⟩
      · rw [getline_last hgood hne hnewline, hunread, lines_of_not_mem hne hnewline]
        exact ⟨rfl, rfl⟩
  · have hline : s.getline = ({ s with failbit := true }, none) := if_neg hgood
    rw [hline, unread, if_neg hgood]
    refine ⟨rfl, if_neg ?_⟩
    simp [good]

theorem getline_of_nil {s : InStream} (h : s.unread = []) : ∃ s', s.getline = (s', none) := by
  refine ⟨s.getline.1, ?_⟩
  rw [← Prod.mk.eta (p := s.getline), (getline_unread s).1, h]
  rfl

theorem getline_of_cons {s : InStream} {line : List UInt8} {rest : List (List UInt8)}
    (h : s.unread = line :: rest) : ∃ s', s.getline = (s', some line) ∧ s'.unread = rest := by
  refine ⟨s.getline.1, ?_, ?_⟩
  · rw [← Prod.mk.eta (p := s.getline), (getline_unread s).1, h]
    rfl
  · rw [(getline_unread s).2, h]
    rfl

end InStream

end PennCloud.Library.FileStream
