import Mathlib.Data.List.Infix
import Mathlib.Data.List.TakeWhile

/-!
# Searching a text and cutting it into lines

The first position of a pattern, and the lines of a text that a separator ends, with what follows
the last separator as the unfinished rest. Cutting commutes with arrival in pieces: the lines of a
text are those of a first piece, followed by the lines of its rest and the second piece.
-/

namespace PennCloud.Library.TextSearch

variable {α : Type*} [DecidableEq α]

/-- The first position of a pattern. -/
def find? (pattern : List α) : List α → Option ℕ
  | [] => if pattern = [] then some 0 else none
  | b :: text => if pattern <+: b :: text then some 0 else (find? pattern text).map (· + 1)

theorem find?_eq_some_iff {pattern text : List α} {p : ℕ} :
    find? pattern text = some p ↔
      p ≤ text.length ∧ pattern <+: text.drop p ∧ ∀ q < p, ¬pattern <+: text.drop q := by
  induction text generalizing p with
  | nil =>
    rw [find?]
    split
    · next hnil =>
      subst hnil
      simp only [Option.some.injEq, List.length_nil, List.nil_prefix, not_true_eq_false]
      constructor
      · rintro rfl
        exact ⟨le_rfl, trivial, fun q hq ↦ absurd hq (Nat.not_lt_zero q)⟩
      · rintro ⟨hle, -, -⟩
        exact (Nat.le_zero.mp hle).symm
    · next hne =>
      simp [hne]
  | cons b text ih =>
    rw [find?]
    split
    · next hhead =>
      constructor
      · intro h
        obtain rfl := Option.some.inj h
        exact ⟨Nat.zero_le _, hhead, fun q hq ↦ absurd hq (Nat.not_lt_zero q)⟩
      · rintro ⟨-, -, hfirst⟩
        cases p with
        | zero => rfl
        | succ p => exact absurd hhead (hfirst 0 (Nat.succ_pos p))
    · next hhead =>
      rw [Option.map_eq_some_iff]
      constructor
      · rintro ⟨p, hp, rfl⟩
        obtain ⟨hle, hat, hfirst⟩ := ih.mp hp
        refine ⟨Nat.succ_le_succ hle, hat, fun q hq ↦ ?_⟩
        cases q with
        | zero => exact hhead
        | succ q => exact hfirst q (Nat.lt_of_succ_lt_succ hq)
      · rintro ⟨hle, hat, hfirst⟩
        cases p with
        | zero => exact absurd hat hhead
        | succ p =>
          exact ⟨p, ih.mpr ⟨Nat.le_of_succ_le_succ hle, hat,
            fun q hq ↦ hfirst (q + 1) (Nat.succ_lt_succ hq)⟩, rfl⟩

theorem find?_eq_none_iff {pattern text : List α} :
    find? pattern text = none ↔ ∀ q ≤ text.length, ¬pattern <+: text.drop q := by
  induction text with
  | nil =>
    rw [find?]
    split
    · next hnil => simp [hnil]
    · next hne => simp [hne]
  | cons b text ih =>
    rw [find?]
    split
    · next hhead =>
      refine iff_of_false (Option.some_ne_none 0) fun h ↦ ?_
      exact h 0 (Nat.zero_le _) hhead
    · next hhead =>
      rw [Option.map_eq_none_iff, ih]
      constructor
      · intro h q hq
        cases q with
        | zero => exact hhead
        | succ q => exact h q (Nat.le_of_succ_le_succ hq)
      · intro h q hq
        exact h (q + 1) (Nat.succ_le_succ hq)

/-- A text begins with what is found at its start. -/
theorem find?_eq_zero_iff {pattern text : List α} :
    find? pattern text = some 0 ↔ pattern <+: text := by
  rw [find?_eq_some_iff]
  simp

/-- The text around the first occurrence. -/
theorem eq_of_find? {pattern text : List α} {p : ℕ} (h : find? pattern text = some p) :
    text = text.take p ++ pattern ++ text.drop (p + pattern.length) := by
  obtain ⟨-, ⟨rest, hrest⟩, -⟩ := find?_eq_some_iff.mp h
  have hdrop : text.drop (p + pattern.length) = rest := by
    rw [← List.drop_drop, ← hrest, List.drop_left]
  rw [hdrop, List.append_assoc, hrest, List.take_append_drop]

theorem add_length_le_of_find? {pattern text : List α} {p : ℕ} (h : find? pattern text = some p) :
    p + pattern.length ≤ text.length := by
  obtain ⟨hle, hat, -⟩ := find?_eq_some_iff.mp h
  have hlen := hat.length_le
  rw [List.length_drop] at hlen
  omega

theorem find?_singleton_of_not_mem {b : α} {text : List α} (h : b ∉ text) :
    find? [b] text = none := by
  rw [find?_eq_none_iff]
  rintro q - ⟨rest, hrest⟩
  apply h
  apply List.mem_of_mem_drop (i := q)
  rw [← hrest]
  exact List.mem_cons_self

/-- The first occurrence behind a text without its first character. -/
theorem find?_append_right {b : α} {front : List α} (h : b ∉ front) (pattern rest : List α) :
    find? (b :: pattern) (front ++ rest) =
      (find? (b :: pattern) rest).map (· + front.length) := by
  induction front with
  | nil => simp
  | cons c front ih =>
    rw [List.mem_cons, not_or] at h
    have hfirst : ¬b :: pattern <+: c :: (front ++ rest) :=
      fun hbegins ↦ h.1 (List.cons_prefix_cons.mp hbegins).1
    rw [List.cons_append, find?, if_neg hfirst, ih h.2, Option.map_map]
    rfl

theorem find?_append_of_not_mem {b : α} {front : List α} (h : b ∉ front) (pattern rest : List α) :
    find? (b :: pattern) (front ++ (b :: pattern ++ rest)) = some front.length := by
  rw [find?_append_right h, find?_eq_zero_iff.mpr (List.prefix_append _ _), Option.map_some,
    Nat.zero_add]

theorem find?_singleton_append {b : α} {front : List α} (h : b ∉ front) (rest : List α) :
    find? [b] (front ++ b :: rest) = some front.length :=
  find?_append_of_not_mem h [] rest

/-- What follows a text does not move the first occurrence in it. -/
theorem find?_append_of_some {pattern text : List α} {p : ℕ} (h : find? pattern text = some p)
    (more : List α) : find? pattern (text ++ more) = some p := by
  have hlen := add_length_le_of_find? h
  obtain ⟨hle, hat, hfirst⟩ := find?_eq_some_iff.mp h
  refine find?_eq_some_iff.mpr ⟨by rw [List.length_append]; omega, ?_, fun q hq hfound ↦ ?_⟩
  · rw [List.drop_append_of_le_length hle]
    exact hat.trans (List.prefix_append _ _)
  · have hq' : q ≤ text.length := by omega
    rw [List.drop_append_of_le_length hq'] at hfound
    refine hfirst q hq (List.prefix_of_prefix_length_le hfound (List.prefix_append _ _) ?_)
    rw [List.length_drop]
    omega

/-- Where a text has no occurrence, the first one in a longer text ends behind it. -/
theorem length_lt_of_find?_append {pattern text more : List α} {p : ℕ}
    (hnone : find? pattern text = none) (h : find? pattern (text ++ more) = some p) :
    text.length < p + pattern.length := by
  by_contra hge
  obtain ⟨-, hat, -⟩ := find?_eq_some_iff.mp h
  have hp : p ≤ text.length := by omega
  rw [List.drop_append_of_le_length hp] at hat
  refine find?_eq_none_iff.mp hnone p hp
    (List.prefix_of_prefix_length_le hat (List.prefix_append _ _) ?_)
  rw [List.length_drop]
  omega

/-- Nothing is found that is no part of the text. -/
theorem find?_eq_none_iff_not_isInfix {pattern text : List α} :
    find? pattern text = none ↔ ¬pattern <:+: text := by
  rw [find?_eq_none_iff]
  constructor
  · rintro h ⟨front, rest, rfl⟩
    apply h front.length
    · rw [List.append_assoc, List.length_append]
      omega
    · rw [List.append_assoc, List.drop_left]
      exact List.prefix_append pattern rest
  · intro h q _ hbegins
    exact h (hbegins.isInfix.trans (List.drop_suffix q text).isInfix)

/-! ## Pieces -/

section Pieces

variable {d : α} {pattern : List α} (hd : d ∉ pattern)

include hd

omit [DecidableEq α] in
/-- What has no delimiter is in front of the first one. -/
theorem prefix_append_cons_iff {piece : List α} (rest : List α) :
    pattern <+: piece ++ d :: rest ↔ pattern <+: piece := by
  constructor
  · intro h
    rcases List.prefix_or_prefix_of_prefix h (List.prefix_append piece _) with hpiece | hlong
    · exact hpiece
    · obtain ⟨more, rfl⟩ := hlong
      have hmore := (List.prefix_append_right_inj piece).mp h
      cases more with
      | nil => rw [List.append_nil]
      | cons b more =>
        obtain ⟨rfl, -⟩ := List.cons_prefix_cons.mp hmore
        exact absurd (List.mem_append_right piece List.mem_cons_self) hd
  · exact fun h ↦ h.trans (List.prefix_append piece _)

/-- A pattern without the delimiter is found in the first piece or behind it. -/
theorem find?_append_cons (hne : pattern ≠ []) (piece rest : List α) :
    find? pattern (piece ++ d :: rest) =
      (find? pattern piece).or ((find? pattern rest).map (· + (piece.length + 1))) := by
  induction piece with
  | nil =>
    have hfirst : ¬pattern <+: d :: rest := by
      intro hbegins
      exact hne (List.prefix_nil.mp ((prefix_append_cons_iff hd rest).mp hbegins))
    have hnil : find? pattern [] = none := if_neg hne
    rw [List.nil_append, hnil, Option.none_or, find?, if_neg hfirst]
    rfl
  | cons b piece ih =>
    have hbegins : pattern <+: (b :: piece) ++ d :: rest ↔ pattern <+: b :: piece :=
      prefix_append_cons_iff hd rest
    rw [List.cons_append] at hbegins ⊢
    rw [find?, find?]
    by_cases h : pattern <+: b :: piece
    · rw [if_pos (hbegins.mpr h), if_pos h, Option.some_or]
    · rw [if_neg (mt hbegins.mp h), if_neg h, ih, Option.map_or, Option.map_map]
      rfl

end Pieces

/-! ## Behind the first occurrence -/

/-- What follows the first occurrence. -/
def behind? (pattern text : List α) : Option (List α) :=
  (find? pattern text).map fun p ↦ text.drop (p + pattern.length)

theorem behind?_eq_none_iff {pattern text : List α} :
    behind? pattern text = none ↔ ¬pattern <:+: text := by
  rw [behind?, Option.map_eq_none_iff, find?_eq_none_iff_not_isInfix]

theorem behind?_append_left (pattern rest : List α) : behind? pattern (pattern ++ rest) = some rest := by
  rw [behind?, find?_eq_zero_iff.mpr (List.prefix_append pattern rest), Option.map_some, Nat.zero_add,
    List.drop_left]

theorem behind?_append_cons {d : α} {pattern : List α} (hd : d ∉ pattern) (hne : pattern ≠ [])
    (piece rest : List α) :
    behind? pattern (piece ++ d :: rest) =
      ((behind? pattern piece).map (· ++ d :: rest)).or (behind? pattern rest) := by
  rw [behind?, find?_append_cons hd hne, behind?, behind?]
  cases hpiece : find? pattern piece with
  | some p =>
    have hlength := add_length_le_of_find? hpiece
    rw [Option.some_or, Option.map_some, Option.map_some, Option.map_some, Option.some_or,
      List.drop_append_of_le_length hlength]
  | none =>
    rw [Option.none_or, Option.map_map, Option.map_none, Option.map_none, Option.none_or]
    refine Option.map_congr fun p _ ↦ ?_
    rw [Function.comp_apply, show p + (piece.length + 1) + pattern.length =
      piece.length + (p + pattern.length + 1) by omega, List.drop_length_add_append,
      List.drop_succ_cons]

/-- Something follows the first occurrence exactly if the pattern is in front of the last character. -/
theorem behind?_ne_nil_iff {pattern text : List α} (hne : pattern ≠ []) :
    (behind? pattern text).getD [] ≠ [] ↔ pattern <:+: text.dropLast := by
  have hpos := List.length_pos_iff.mpr hne
  constructor
  · intro h
    cases hfind : find? pattern text with
    | none =>
      rw [behind?, hfind] at h
      exact absurd rfl h
    | some p =>
      rw [behind?, hfind, Option.map_some, Option.getD_some] at h
      refine ⟨text.take p, (text.drop (p + pattern.length)).dropLast, ?_⟩
      conv_rhs => rw [eq_of_find? hfind]
      rw [List.dropLast_append_of_ne_nil h]
  · intro h
    rcases List.eq_nil_or_concat' text with rfl | ⟨text, b, rfl⟩
    · exact absurd (List.infix_nil.mp h) hne
    · rw [List.dropLast_concat] at h
      cases hfind : find? pattern text with
      | none => exact absurd h (find?_eq_none_iff_not_isInfix.mp hfind)
      | some p =>
        have hlength := add_length_le_of_find? hfind
        rw [behind?, find?_append_of_some hfind, Option.map_some, Option.getD_some,
          List.drop_append_of_le_length hlength]
        exact List.append_ne_nil_of_right_ne_nil _ (List.cons_ne_nil b [])

/-! ## Up to a character -/

theorem forall_ne_of_not_mem {b : α} {text : List α} (h : b ∉ text) :
    ∀ c ∈ text, decide (c ≠ b) = true :=
  fun _ hc ↦ decide_eq_true fun heq ↦ h (heq ▸ hc)

theorem takeWhile_ne_append {b : α} {front : List α} (h : b ∉ front) (rest : List α) :
    (front ++ rest).takeWhile (· ≠ b) = front ++ rest.takeWhile (· ≠ b) :=
  List.takeWhile_append_of_pos (forall_ne_of_not_mem h)

theorem takeWhile_ne_of_not_mem {b : α} {text : List α} (h : b ∉ text) :
    text.takeWhile (· ≠ b) = text := List.takeWhile_eq_self_iff.mpr (forall_ne_of_not_mem h)

/-- The text in front of the first such character, and that character with what follows. -/
theorem takeWhile_ne_append_cons {b : α} {front : List α} (h : b ∉ front) (rest : List α) :
    (front ++ b :: rest).takeWhile (· ≠ b) = front := by
  rw [takeWhile_ne_append h, List.takeWhile_cons_of_neg (by simp), List.append_nil]

theorem dropWhile_ne_append_cons {b : α} {front : List α} (h : b ∉ front) (rest : List α) :
    (front ++ b :: rest).dropWhile (· ≠ b) = b :: rest := by
  rw [List.dropWhile_append_of_pos (forall_ne_of_not_mem h),
    List.dropWhile_cons_of_neg (by simp)]

/-- A text without the delimiter goes to the first piece. -/
theorem splitOn_append_of_not_mem {b : α} {front : List α} (h : b ∉ front) (text : List α) :
    (front ++ text).splitOn b = (text.splitOn b).modifyHead (front ++ ·) := by
  by_cases hmem : b ∈ text
  · obtain ⟨piece, rest, rfl, hpiece⟩ := List.eq_append_cons_of_mem hmem
    have hfront : b ∉ front ++ piece := by
      rw [List.mem_append, not_or]
      exact ⟨h, hpiece⟩
    rw [← List.append_assoc, List.splitOn_append_cons_self_of_not_mem hfront,
      List.splitOn_append_cons_self_of_not_mem hpiece, List.modifyHead_cons]
  · have hfront : b ∉ front ++ text := by
      rw [List.mem_append, not_or]
      exact ⟨h, hmem⟩
    rw [List.splitOn_eq_singleton hfront, List.splitOn_eq_singleton hmem, List.modifyHead_cons]

/-- The pieces consist of the characters of the text beside the delimiter. -/
theorem mem_of_mem_splitOn {b d : α} {text piece : List α} (hpiece : piece ∈ text.splitOn d)
    (hb : b ∈ piece) : b ∈ text ∧ b ≠ d := by
  induction hn : text.length using Nat.strong_induction_on generalizing text with
  | _ n ih =>
    by_cases hd : d ∈ text
    · obtain ⟨front, rest, rfl, hfront⟩ := List.eq_append_cons_of_mem hd
      rw [List.splitOn_append_cons_self_of_not_mem hfront, List.mem_cons] at hpiece
      rcases hpiece with rfl | hrest
      · exact ⟨List.mem_append_left _ hb, fun heq ↦ hfront (heq ▸ hb)⟩
      · have hshorter : rest.length < n := by
          rw [← hn, List.length_append, List.length_cons]
          omega
        have hin := ih _ hshorter hrest rfl
        exact ⟨List.mem_append_right front (List.mem_cons_of_mem d hin.1), hin.2⟩
    · rw [List.splitOn_eq_singleton hd, List.mem_singleton] at hpiece
      subst hpiece
      exact ⟨hb, fun heq ↦ hd (heq ▸ hb)⟩

/-! ## Lines -/

/-- Cut off at most `n` lines. -/
def cutWith (sep : List α) : ℕ → List α → List (List α) × List α
  | 0, text => ([], text)
  | n + 1, text =>
    match find? sep text with
    | none => ([], text)
    | some p =>
      let (lines, rest) := cutWith sep n (text.drop (p + sep.length))
      (text.take p :: lines, rest)

/-- The lines that a separator ends, and the unfinished rest. -/
def cut (sep text : List α) : List (List α) × List α := cutWith sep text.length text

variable {sep text : List α} (hsep : sep ≠ [])

include hsep in
theorem cutWith_eq {n : ℕ} (hn : text.length ≤ n) : cutWith sep n text = cut sep text := by
  have hpos : 0 < sep.length := List.length_pos_iff.mpr hsep
  have hall : ∀ (m : ℕ) (text : List α), text.length ≤ m →
      ∀ n, text.length ≤ n → cutWith sep n text = cutWith sep m text := by
    intro m
    induction m with
    | zero =>
      intro text hm n _
      obtain rfl := List.length_eq_zero_iff.mp (Nat.le_zero.mp hm)
      cases n with
      | zero => rfl
      | succ n => simp [cutWith, find?, hsep]
    | succ m ih =>
      intro text hm n hn
      cases n with
      | zero =>
        obtain rfl := List.length_eq_zero_iff.mp (Nat.le_zero.mp hn)
        simp [cutWith, find?, hsep]
      | succ n =>
        cases hfind : find? sep text with
        | none => simp only [cutWith, hfind]
        | some p =>
          have hlen := add_length_le_of_find? hfind
          have hdrop : (text.drop (p + sep.length)).length = text.length - (p + sep.length) :=
            List.length_drop
          simp only [cutWith, hfind]
          rw [ih _ (by omega) n (by omega)]
  exact hall text.length text le_rfl n hn

theorem cut_of_none (h : find? sep text = none) : cut sep text = ([], text) := by
  unfold cut
  cases text.length with
  | zero => rfl
  | succ n => simp only [cutWith, h]

include hsep in
theorem cut_of_some {p : ℕ} (h : find? sep text = some p) :
    cut sep text = (text.take p :: (cut sep (text.drop (p + sep.length))).1,
      (cut sep (text.drop (p + sep.length))).2) := by
  have hpos : 0 < sep.length := List.length_pos_iff.mpr hsep
  have hlen := add_length_le_of_find? h
  have hdrop : (text.drop (p + sep.length)).length = text.length - (p + sep.length) :=
    List.length_drop
  conv_lhs => rw [cut]
  obtain ⟨n, hn⟩ : ∃ n, text.length = n + 1 := ⟨text.length - 1, by omega⟩
  rw [hn]
  simp only [cutWith, h]
  rw [cutWith_eq hsep (by omega)]

/-- Lines without the first character of the separator. -/
theorem cut_lines {b : α} {pattern : List α} {lines : List (List α)}
    (h : ∀ line ∈ lines, b ∉ line) (rest : List α) :
    cut (b :: pattern) ((lines.map (· ++ b :: pattern)).flatten ++ rest) =
      (lines ++ (cut (b :: pattern) rest).1, (cut (b :: pattern) rest).2) := by
  induction lines with
  | nil => rfl
  | cons line lines ih =>
    obtain ⟨hline, hlines⟩ := List.forall_mem_cons.mp h
    rw [List.map_cons, List.flatten_cons, List.append_assoc, List.append_assoc,
      cut_of_some (List.cons_ne_nil b pattern) (find?_append_of_not_mem hline pattern _),
      List.take_left, ← List.append_assoc line, ← List.length_append, List.drop_left, ih hlines]
    rfl

include hsep in
/-- Induction over the lines of a text. -/
theorem cut_induction {motive : List α → Prop}
    (hnone : ∀ text, find? sep text = none → motive text)
    (hsome : ∀ text p, find? sep text = some p → motive (text.drop (p + sep.length)) →
      motive text) (text : List α) : motive text := by
  have hpos : 0 < sep.length := List.length_pos_iff.mpr hsep
  induction hn : text.length using Nat.strong_induction_on generalizing text with
  | _ n ih =>
    cases hfind : find? sep text with
    | none => exact hnone text hfind
    | some p =>
      have hlen := add_length_le_of_find? hfind
      apply hsome text p hfind
      apply ih (text.length - (p + sep.length)) (by omega)
      exact List.length_drop

include hsep in
/-- The unfinished rest holds no separator. -/
theorem find?_rest (text : List α) : find? sep (cut sep text).2 = none := by
  induction text using cut_induction hsep with
  | hnone text h => rwa [cut_of_none h]
  | hsome text p h ih => rwa [cut_of_some hsep h]

include hsep in
/-- Lines and rest make up the text. -/
theorem flatten_cut (text : List α) :
    ((cut sep text).1.map (· ++ sep)).flatten ++ (cut sep text).2 = text := by
  induction text using cut_induction hsep with
  | hnone text h => rw [cut_of_none h]; rfl
  | hsome text p h ih =>
    rw [cut_of_some hsep h, List.map_cons, List.flatten_cons, List.append_assoc, ih]
    exact (eq_of_find? h).symm

include hsep in
/-- A text that arrives in two pieces. -/
theorem cut_append (text more : List α) :
    cut sep (text ++ more) = ((cut sep text).1 ++ (cut sep ((cut sep text).2 ++ more)).1,
      (cut sep ((cut sep text).2 ++ more)).2) := by
  induction text using cut_induction hsep with
  | hnone text h => rw [cut_of_none h]; rfl
  | hsome text p h ih =>
    have hlen := add_length_le_of_find? h
    have hp : p ≤ text.length := by omega
    rw [cut_of_some hsep (find?_append_of_some h more), cut_of_some hsep h,
      List.take_append_of_le_length hp, List.drop_append_of_le_length hlen, ih]
    rfl

include hsep in
/-- The rest of a first piece is shorter than a bound on the lines and the rest of the whole, but
for a separator that has begun. -/
theorem length_rest_lt {n : ℕ} (text more : List α)
    (hlines : ∀ line ∈ (cut sep (text ++ more)).1, line.length < n)
    (hrest : (cut sep (text ++ more)).2.length < n) :
    (cut sep text).2.length < n + sep.length - 1 := by
  have hpos : 0 < sep.length := List.length_pos_iff.mpr hsep
  rw [cut_append hsep] at hlines hrest
  have hnone := find?_rest hsep text
  cases hfind : find? sep ((cut sep text).2 ++ more) with
  | none =>
    simp only [cut_of_none hfind, List.length_append] at hrest
    omega
  | some p =>
    have hbegun := length_lt_of_find?_append hnone hfind
    have hlen := add_length_le_of_find? hfind
    have hline : (((cut sep text).2 ++ more).take p).length < n := by
      apply hlines
      rw [cut_of_some hsep hfind]
      exact List.mem_append_right _ List.mem_cons_self
    rw [List.length_take] at hline
    omega

include hsep in
theorem cut_fst_eq_nil_iff : (cut sep text).1 = [] ↔ ¬sep <:+: text := by
  rw [← find?_eq_none_iff_not_isInfix]
  cases hfind : find? sep text with
  | none =>
    rw [cut_of_none hfind]
    exact iff_of_true rfl rfl
  | some p =>
    rw [cut_of_some hsep hfind]
    exact iff_of_false (List.cons_ne_nil _ _) (Option.some_ne_none p)

/-! ## Blocks

The separator is a line: its last character, which is not within it, also ends every block. -/

section Blocks

variable {e : α} {pattern : List α} (he : e ∉ pattern)

include he

/-- The first separator behind a block that has none. -/
theorem find?_append_separator {block : List α} (hend : block = [] ∨ ∃ front, block = front ++ [e])
    (hnone : find? (pattern ++ [e]) block = none) (rest : List α) :
    find? (pattern ++ [e]) (block ++ (pattern ++ [e] ++ rest)) = some block.length := by
  rw [find?_eq_some_iff, List.drop_left]
  refine ⟨by rw [List.length_append]; omega, List.prefix_append _ rest, fun q hq hfound ↦ ?_⟩
  rw [List.drop_append_of_le_length hq.le] at hfound
  have hlonger : ¬pattern ++ [e] <+: block.drop q := find?_eq_none_iff.mp hnone q hq.le
  have hmem : e ∈ block.drop q := by
    rcases hend with rfl | ⟨front, rfl⟩
    · exact absurd hq (Nat.not_lt_zero q)
    · rw [List.length_append, List.length_singleton] at hq
      rw [List.drop_append_of_le_length (by omega)]
      exact List.mem_append_right _ (List.mem_singleton_self e)
  rcases List.prefix_or_prefix_of_prefix hfound (List.prefix_append _ _) with hin | hacross
  · exact hlonger hin
  · rcases List.prefix_concat_iff.mp hacross with heq | hpattern
    · exact hlonger (heq ▸ List.prefix_refl _)
    · exact he (hpattern.subset hmem)

theorem cut_append_separator {block : List α} (hend : block = [] ∨ ∃ front, block = front ++ [e])
    (rest : List α) :
    (cut (pattern ++ [e]) (block ++ (pattern ++ [e] ++ rest))).1 =
      (cut (pattern ++ [e]) block).1 ++ (cut (pattern ++ [e]) block).2 ::
        (cut (pattern ++ [e]) rest).1 := by
  have hne : pattern ++ [e] ≠ [] := List.append_ne_nil_of_right_ne_nil _ (List.cons_ne_nil e [])
  have hrest : (cut (pattern ++ [e]) block).2 = [] ∨
      ∃ front, (cut (pattern ++ [e]) block).2 = front ++ [e] := by
    rcases List.eq_nil_or_concat' (cut (pattern ++ [e]) block).2 with hnil | ⟨front, c, hconcat⟩
    · exact .inl hnil
    · have hwhole := flatten_cut hne block
      rw [hconcat, ← List.append_assoc] at hwhole
      rcases hend with rfl | ⟨whole, rfl⟩
      · exact absurd hwhole (List.append_ne_nil_of_right_ne_nil _ (List.cons_ne_nil c []))
      · have hlast := (List.append_inj' hwhole rfl).2
        rw [hconcat, hlast]
        exact .inr ⟨front, rfl⟩
  have hfind := find?_append_separator he hrest (find?_rest hne block) rest
  rw [cut_append hne, cut_of_some hne hfind, List.take_left, List.drop_length_add_append,
    List.drop_left]

section Cut

variable {blocks : List (List α)}
  (hend : ∀ block ∈ blocks, block = [] ∨ ∃ front, block = front ++ [e])

include hend

/-- Blocks without a separator are what is cut off. -/
theorem cut_blocks (hnone : ∀ block ∈ blocks, ¬pattern ++ [e] <:+: block) :
    (cut (pattern ++ [e]) (blocks.map (· ++ (pattern ++ [e]))).flatten).1 = blocks := by
  induction blocks with
  | nil => rfl
  | cons block blocks ih =>
    obtain ⟨hblock, hblocks⟩ := List.forall_mem_cons.mp hend
    obtain ⟨hfirst, hothers⟩ := List.forall_mem_cons.mp hnone
    rw [List.map_cons, List.flatten_cons, List.append_assoc, cut_append_separator he hblock,
      ih hblocks hothers, cut_of_none (find?_eq_none_iff_not_isInfix.mpr hfirst)]
    rfl

theorem length_le_cut_blocks : blocks.length ≤
    (cut (pattern ++ [e]) (blocks.map (· ++ (pattern ++ [e]))).flatten).1.length := by
  induction blocks with
  | nil => exact Nat.zero_le _
  | cons block blocks ih =>
    obtain ⟨hblock, hblocks⟩ := List.forall_mem_cons.mp hend
    have hle := ih hblocks
    rw [List.map_cons, List.flatten_cons, List.append_assoc, cut_append_separator he hblock,
      List.length_append, List.length_cons, List.length_cons]
    omega

/-- Every separator in a block makes one more. -/
theorem not_isInfix_of_length_cut_blocks
    (h : (cut (pattern ++ [e]) (blocks.map (· ++ (pattern ++ [e]))).flatten).1.length =
      blocks.length) : ∀ block ∈ blocks, ¬pattern ++ [e] <:+: block := by
  have hne : pattern ++ [e] ≠ [] := List.append_ne_nil_of_right_ne_nil _ (List.cons_ne_nil e [])
  induction blocks with
  | nil => exact fun _ hblock ↦ absurd hblock List.not_mem_nil
  | cons block blocks ih =>
    obtain ⟨hblock, hblocks⟩ := List.forall_mem_cons.mp hend
    have hle := length_le_cut_blocks he hblocks
    rw [List.map_cons, List.flatten_cons, List.append_assoc, cut_append_separator he hblock,
      List.length_append, List.length_cons, List.length_cons] at h
    have hfirst : (cut (pattern ++ [e]) block).1.length = 0 := by omega
    exact List.forall_mem_cons.mpr ⟨(cut_fst_eq_nil_iff hne).mp (List.length_eq_zero_iff.mp hfirst),
      ih hblocks (by omega)⟩

end Cut

end Blocks

end PennCloud.Library.TextSearch
