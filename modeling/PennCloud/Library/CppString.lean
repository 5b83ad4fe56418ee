import PennCloud.Library.TextSearch
import Mathlib.Data.Nat.Digits.Defs
import Mathlib.Data.Int.Init

/-!
# Parts of the C++ standard library on byte strings

`std::string` is a list of bytes and `size_t` a natural number below `2 ^ 64`, with `npos` its
largest value. Conversions between `int` and `size_t` wrap as the implementation does.
Functions that can throw return in `Except StdException`.
-/

namespace PennCloud.Library.CppString

/-- The standard exceptions that the modelled functions throw. -/
inductive StdException
  | invalidArgument
  | outOfRange
  | lengthError
  deriving DecidableEq, Repr

/-- `std::string::npos`. -/
def npos : ℕ := 2 ^ 64 - 1

/-- `size_t` to `int`. -/
def sizeToInt (n : ℕ) : ℤ := Int.bmod n (2 ^ 32)

/-- `int` to `size_t`. -/
def intToSize (i : ℤ) : ℕ := (i % 2 ^ 64).toNat

/-- `a + b` in `size_t`. -/
def sizeAdd (a b : ℕ) : ℕ := (a + b) % 2 ^ 64

/-- `a - b` in `size_t`. -/
def sizeSub (a b : ℕ) : ℕ := (a + 2 ^ 64 - b) % 2 ^ 64

theorem sizeAdd_of_lt {a b : ℕ} (h : a + b < 2 ^ 64) : sizeAdd a b = a + b := Nat.mod_eq_of_lt h

theorem sizeSub_of_le {a b : ℕ} (hle : b ≤ a) (h : a < 2 ^ 64) : sizeSub a b = a - b := by
  unfold sizeSub
  omega

/-- `line.find_first_of(set, pos)`. -/
def findFirstOf (line set : List UInt8) (pos : ℕ) : ℕ :=
  match (line.drop pos).findIdx? fun b ↦ set.contains b with
  | some offset => pos + offset
  | none => npos

/-- `line.find(b, pos)`. -/
def findFrom (line : List UInt8) (b : UInt8) (pos : ℕ) : ℕ :=
  match TextSearch.find? [b] (line.drop pos) with
  | some offset => pos + offset
  | none => npos

/-- `line.substr(pos, count)`. -/
def substr (line : List UInt8) (pos count : ℕ) : Except StdException (List UInt8) :=
  if line.length < pos then .error .outOfRange else .ok ((line.drop pos).take count)

theorem findFrom_of_not_mem {line : List UInt8} {b : UInt8} {pos : ℕ} (h : b ∉ line.drop pos) :
    findFrom line b pos = npos := by
  rw [findFrom, TextSearch.find?_singleton_of_not_mem h]

theorem findFrom_of_drop {line piece rest : List UInt8} {b : UInt8} {pos : ℕ}
    (h : line.drop pos = piece ++ b :: rest) (hpiece : b ∉ piece) :
    findFrom line b pos = pos + piece.length := by
  rw [findFrom, h, TextSearch.find?_singleton_append hpiece]

/-- What follows the byte that was found. -/
theorem drop_behind {line piece rest : List UInt8} {b : UInt8} {pos : ℕ}
    (h : line.drop pos = piece ++ b :: rest) : line.drop (pos + piece.length + 1) = rest := by
  rw [Nat.add_assoc, ← List.drop_drop, h, ← List.drop_drop, List.drop_left]
  rfl

theorem length_of_drop {line piece rest : List UInt8} {b : UInt8} {pos : ℕ}
    (h : line.drop pos = piece ++ b :: rest) :
    line.length - pos = piece.length + (rest.length + 1) := by
  rw [← List.length_drop, h, List.length_append, List.length_cons]

/-- `isspace` in the C locale. -/
def isSpace (b : UInt8) : Bool := b == 32 || (9 ≤ b && b ≤ 13)

def isDigit (b : UInt8) : Bool := 48 ≤ b && b ≤ 57

/-- The value of a string of decimal digits. -/
def digitsValue (digits : List UInt8) : ℕ :=
  digits.foldl (fun value b ↦ 10 * value + (b.toNat - 48)) 0

/-- `std::stoi`: blanks, a sign, then the longest run of digits; the rest is ignored. -/
def stoi (text : List UInt8) : Except StdException ℤ :=
  let text := text.dropWhile isSpace
  let (negative, text) :=
    match text with
    | 45 :: tail => (true, tail)
    | 43 :: tail => (false, tail)
    | _ => (false, text)
  let digits := text.takeWhile isDigit
  if digits = [] then
    .error .invalidArgument
  else
    let magnitude : ℤ := digitsValue digits
    let value := if negative then -magnitude else magnitude
    if -2 ^ 31 ≤ value ∧ value < 2 ^ 31 then .ok value else .error .outOfRange

/-- The decimal text of an unsigned number. -/
def decimal (n : ℕ) : List UInt8 := (Nat.toDigits 10 n).map fun c ↦ UInt8.ofNat c.toNat

theorem toNat_of_mem_toDigits {n : ℕ} {c : Char} (h : c ∈ Nat.toDigits 10 n) :
    48 ≤ c.toNat ∧ c.toNat ≤ 57 := by
  have hdigit := Nat.isDigit_of_mem_toDigits (by omega) (by omega) h
  simp only [Char.isDigit, Bool.and_eq_true, decide_eq_true_eq] at hdigit
  exact ⟨hdigit.1, hdigit.2⟩

theorem isDigit_of_mem_decimal {n : ℕ} {b : UInt8} (h : b ∈ decimal n) : 48 ≤ b ∧ b ≤ 57 := by
  obtain ⟨c, hc, rfl⟩ := List.mem_map.mp h
  have hrange := toNat_of_mem_toDigits hc
  have hvalue : (UInt8.ofNat c.toNat).toNat = c.toNat := by
    rw [UInt8.toNat_ofNat']
    omega
  rw [UInt8.le_iff_toNat_le, UInt8.le_iff_toNat_le, hvalue]
  exact hrange

/-- Reading the digits of a number gives it back. -/
theorem digitsValue_decimal (n : ℕ) : digitsValue (decimal n) = n := by
  have hfold : ∀ (cs : List Char) (value : ℕ), (∀ c ∈ cs, c.toNat ≤ 57) →
      (cs.map fun c ↦ UInt8.ofNat c.toNat).foldl (fun value b ↦ 10 * value + (b.toNat - 48)) value =
        Nat.ofDigitChars 10 cs value := by
    intro cs
    induction cs with
    | nil =>
      intro value _
      simp
    | cons c cs ih =>
      intro value hcs
      have hbyte : (UInt8.ofNat c.toNat).toNat = c.toNat := by
        have hle := hcs c List.mem_cons_self
        rw [UInt8.toNat_ofNat']
        omega
      rw [List.map_cons, List.foldl_cons, hbyte, ih _ fun c hc ↦ hcs c (List.mem_cons_of_mem _ hc),
        Nat.ofDigitChars_cons]
      rfl
  unfold digitsValue decimal
  rw [hfold _ _ fun c hc ↦ (toNat_of_mem_toDigits hc).2,
    Nat.ofDigitChars_toDigits (by omega) (by omega)]

theorem decimal_injective {m n : ℕ} (h : decimal m = decimal n) : m = n := by
  rw [← digitsValue_decimal m, h, digitsValue_decimal]

theorem sizeToInt_natCast {n : ℕ} (h : n < 2 ^ 31) : sizeToInt n = n := by
  unfold sizeToInt
  exact Int.bmod_eq_of_le (by omega) (by omega)

theorem sizeToInt_le (n : ℕ) : sizeToInt n ≤ n := by
  unfold sizeToInt Int.bmod
  dsimp only
  split <;> omega

theorem sizeToInt_range (n : ℕ) : -2 ^ 31 ≤ sizeToInt n ∧ sizeToInt n < 2 ^ 31 := by
  unfold sizeToInt Int.bmod
  dsimp only
  split <;> omega

/-- What is lost is a multiple of 2 ^ 32. -/
theorem exists_sizeToInt_eq (n : ℕ) : ∃ k : ℤ, sizeToInt n = n - 2 ^ 32 * k := by
  unfold sizeToInt Int.bmod
  dsimp only
  split
  · exact ⟨n / 2 ^ 32, by omega⟩
  · exact ⟨n / 2 ^ 32 + 1, by omega⟩

theorem intToSize_natCast {n : ℕ} (h : n < 2 ^ 64) : intToSize n = n := by
  unfold intToSize
  omega

theorem stoi_lt {text : List UInt8} {value : ℤ} (h : stoi text = .ok value) : value < 2 ^ 31 := by
  have hrange : ∀ (digits : List UInt8) (number : ℤ),
      (if digits = [] then .error .invalidArgument
        else if -2 ^ 31 ≤ number ∧ number < 2 ^ 31 then .ok number else .error .outOfRange :
        Except StdException ℤ) = .ok value → value < 2 ^ 31 := by
    intro digits number hnumber
    split at hnumber
    · cases hnumber
    · split at hnumber
      · next hfits =>
        obtain rfl := Except.ok.inj hnumber
        exact hfits.2
      · cases hnumber
  unfold stoi at h
  dsimp only at h
  split at h
  · exact hrange _ _ h
  · exact hrange _ _ h
  · exact hrange _ _ h

end PennCloud.Library.CppString
