import Mathlib.Data.List.Basic
import Mathlib.Data.Nat.Notation

/-!
# Decoding UTF-8

The decoder that never fails: a byte that cannot continue a character ends it as a replacement character
and begins the next one. So a byte below 128 stands for itself whatever is in front of it, and decoding
commutes with cutting a text at such bytes.
-/

namespace PennCloud.Library.Utf8Decoder

def replacement : Char := Char.ofNat 0xFFFD

/-- A character of which bytes are missing; the next one has to be within the bounds. -/
structure State where
  needed : ℕ := 0
  point : ℕ := 0
  lower : UInt8 := 0x80
  upper : UInt8 := 0xBF
  lower_le : 0x80 ≤ lower := by decide

/-- The first byte of a character. -/
def first (b : UInt8) : State × List Char :=
  if b < 0x80 then
    ({}, [Char.ofNat b.toNat])
  else if 0xC2 ≤ b ∧ b ≤ 0xDF then
    ({ needed := 1, point := b.toNat % 32 }, [])
  else if 0xE0 ≤ b ∧ b ≤ 0xEF then
    ({ needed := 2
       point := b.toNat % 16
       lower := if b = 0xE0 then 0xA0 else 0x80
       upper := if b = 0xED then 0x9F else 0xBF
       lower_le := by split <;> decide }, [])
  else if 0xF0 ≤ b ∧ b ≤ 0xF4 then
    ({ needed := 3
       point := b.toNat % 8
       lower := if b = 0xF0 then 0x90 else 0x80
       upper := if b = 0xF4 then 0x8F else 0xBF
       lower_le := by split <;> decide }, [])
  else
    ({}, [replacement])

/-- What is left at the end of the text. -/
def State.finish (s : State) : List Char := if s.needed = 0 then [] else [replacement]

def State.step (s : State) (b : UInt8) : State × List Char :=
  if s.needed = 0 then
    first b
  else if s.lower ≤ b ∧ b ≤ s.upper then
    let point := s.point * 64 + b.toNat % 64
    if s.needed = 1 then ({}, [Char.ofNat point])
    else ({ needed := s.needed - 1, point := point }, [])
  else
    ((first b).1, replacement :: (first b).2)

def decodeFrom (s : State) : List UInt8 → List Char
  | [] => s.finish
  | b :: bytes => (s.step b).2 ++ decodeFrom (s.step b).1 bytes

theorem decodeFrom_cons (s : State) (b : UInt8) (bytes : List UInt8) :
    decodeFrom s (b :: bytes) = (s.step b).2 ++ decodeFrom (s.step b).1 bytes := rfl

def decode (bytes : List UInt8) : List Char := decodeFrom {} bytes

def encode (text : List Char) : List UInt8 := text.flatMap String.utf8EncodeChar

/-! ## Bytes that stand for themselves -/

/-- The character of a byte below 128. -/
def ascii (b : UInt8) : Char := Char.ofNat b.toNat

variable {b : UInt8}

/-- Such a byte ends the character in front of it. -/
theorem step_ascii (h : b < 0x80) (s : State) : s.step b = ({}, s.finish ++ [ascii b]) := by
  have hfirst : first b = ({}, [ascii b]) := if_pos h
  unfold State.step State.finish
  by_cases hneeded : s.needed = 0
  · rw [if_pos hneeded, if_pos hneeded, hfirst, List.nil_append]
  · have hbelow : ¬(s.lower ≤ b ∧ b ≤ s.upper) := fun hwithin ↦
      absurd (UInt8.lt_of_lt_of_le h (UInt8.le_trans s.lower_le hwithin.1)) (UInt8.lt_irrefl b)
    rw [if_neg hneeded, if_neg hneeded, if_neg hbelow, hfirst]
    rfl

theorem decodeFrom_append_cons (h : b < 0x80) (s : State) (front rest : List UInt8) :
    decodeFrom s (front ++ b :: rest) = decodeFrom s front ++ ascii b :: decode rest := by
  induction front generalizing s with
  | nil =>
    rw [List.nil_append, decodeFrom_cons, step_ascii h, List.append_assoc]
    rfl
  | cons c front ih =>
    rw [List.cons_append, decodeFrom_cons, ih, decodeFrom_cons, List.append_assoc]

theorem decode_append_cons (h : b < 0x80) (front rest : List UInt8) :
    decode (front ++ b :: rest) = decode front ++ ascii b :: decode rest :=
  decodeFrom_append_cons h {} front rest

/-- A text of such bytes in front. -/
theorem decode_ascii_append {front : List UInt8} (h : ∀ b ∈ front, b < 0x80)
    (rest : List UInt8) : decode (front ++ rest) = front.map ascii ++ decode rest := by
  induction front with
  | nil => rfl
  | cons b front ih =>
    obtain ⟨hb, hfront⟩ := List.forall_mem_cons.mp h
    have hcons := decode_append_cons hb [] (front ++ rest)
    rw [ih hfront] at hcons
    exact hcons

end PennCloud.Library.Utf8Decoder
