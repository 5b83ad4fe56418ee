import Mathlib.Data.List.Basic

/-!
# Prefix codes

A code whose words can be read off the front of a text: whatever follows a word, the decoder
returns the word's value and what follows. Words can then be written one after the other without
any separator, and a text that ends within a word reads as the words before it.
-/

namespace PennCloud.Library.PrefixCode

/-- An encoder with a decoder that reads one word from the front of a text. -/
structure Code (α σ : Type*) where
  encode : α → List σ
  decode : List σ → Option (α × List σ)
  decode_append : ∀ a rest, decode (encode a ++ rest) = some (a, rest)
  eq_append : ∀ {text a rest}, decode text = some (a, rest) → text = encode a ++ rest
  encode_ne_nil : ∀ a, encode a ≠ []

variable {α σ : Type*}

/-- A code from an encoder and a guess of the first value of a text, right where a word stands
at its front: the decoder compares the guess with the text. -/
def ofGuess [DecidableEq σ] (encode : α → List σ) (guess : List σ → α)
    (hguess : ∀ a rest, guess (encode a ++ rest) = a) (hne : ∀ a, encode a ≠ []) :
    Code α σ where
  encode := encode
  decode text :=
    if encode (guess text) <+: text then
      some (guess text, text.drop (encode (guess text)).length)
    else none
  decode_append a rest := by
    rw [hguess, if_pos (List.prefix_append _ _), List.drop_left]
  eq_append := by
    intro text a rest h
    split at h
    · next hfront =>
      cases h
      exact (List.prefix_iff_eq_append.mp hfront).symm
    · cases h
  encode_ne_nil := hne

/-- A text that ends before the word does. -/
def Cut (part word : List σ) : Prop := part <+: word ∧ part ≠ word

theorem Cut.append_left {part back : List σ} (front : List σ) (h : Cut part back) :
    Cut (front ++ part) (front ++ back) :=
  ⟨(List.prefix_append_right_inj front).mpr h.1, fun heq ↦ h.2 (List.append_cancel_left heq)⟩

theorem Cut.append_right {part front back : List σ} (hpart : part <+: front) (hback : back ≠ []) :
    Cut part (front ++ back) := by
  constructor
  · exact hpart.trans (List.prefix_append front back)
  · intro heq
    have hlength := hpart.length_le
    rw [heq, List.length_append] at hlength
    exact hback (List.length_eq_zero_iff.mp (by omega))

variable (code : Code α σ)

namespace Code

theorem rest_length_lt {text rest : List σ} {a : α} (h : code.decode text = some (a, rest)) :
    rest.length < text.length := by
  rw [code.eq_append h, List.length_append]
  have hpos := List.length_pos_iff.mpr (code.encode_ne_nil a)
  omega

/-- All the words that can be read one after the other. -/
def decodeAll (text : List σ) : List α :=
  match h : code.decode text with
  | none => []
  | some (a, rest) =>
    have _hlt := code.rest_length_lt h
    a :: decodeAll rest
termination_by text.length

/-- Words written one after the other. -/
def encodeAll (as : List α) : List σ := as.flatMap code.encode

theorem decodeAll_of_none {text : List σ} (h : code.decode text = none) :
    code.decodeAll text = [] := by
  unfold decodeAll
  split
  · rfl
  · next hsome =>
    rw [h] at hsome
    cases hsome

theorem decodeAll_of_some {text rest : List σ} {a : α} (h : code.decode text = some (a, rest)) :
    code.decodeAll text = a :: code.decodeAll rest := by
  conv_lhs => unfold decodeAll
  split
  · next hnone =>
    rw [h] at hnone
    cases hnone
  · next hsome =>
    rw [h] at hsome
    cases hsome
    rfl

theorem decodeAll_append (as : List α) (rest : List σ) :
    code.decodeAll (code.encodeAll as ++ rest) = as ++ code.decodeAll rest := by
  induction as with
  | nil => rfl
  | cons a as ih =>
    have hfirst := code.decode_append a (code.encodeAll as ++ rest)
    rw [encodeAll, List.flatMap_cons, List.append_assoc, ← encodeAll,
      code.decodeAll_of_some hfirst, ih, List.cons_append]

/-- A text that ends within its first word cannot be read. -/
theorem decode_of_cut {part : List σ} {a : α} (hcut : Cut part (code.encode a)) :
    code.decode part = none := by
  obtain ⟨⟨missing, hword⟩, hne⟩ := hcut
  cases hdecode : code.decode part with
  | none => rfl
  | some read =>
    obtain ⟨a', rest⟩ := read
    have htext := code.eq_append hdecode
    have hagain := code.decode_append a' (rest ++ missing)
    rw [← List.append_assoc, ← htext, hword, ← List.append_nil (code.encode a),
      code.decode_append] at hagain
    simp only [Option.some.injEq, Prod.mk.injEq] at hagain
    obtain ⟨-, hmissing⟩ := List.append_eq_nil_iff.mp hagain.2.symm
    rw [hmissing, List.append_nil] at hword
    exact absurd hword hne

theorem decodeAll_nil : code.decodeAll [] = [] := by
  apply code.decodeAll_of_none
  cases hdecode : code.decode [] with
  | none => rfl
  | some read =>
    have htext := code.eq_append hdecode
    exact absurd (List.append_eq_nil_iff.mp htext.symm).1 (code.encode_ne_nil _)

theorem decodeAll_encodeAll (as : List α) : code.decodeAll (code.encodeAll as) = as := by
  have h := code.decodeAll_append as []
  rwa [List.append_nil, decodeAll_nil, List.append_nil] at h

/-- Different sequences of words are different texts. -/
theorem encodeAll_injective : Function.Injective code.encodeAll :=
  Function.LeftInverse.injective code.decodeAll_encodeAll

/-- A text that ends within its first word has no word. -/
theorem decodeAll_of_cut {part : List σ} {a : α} (hcut : Cut part (code.encode a)) :
    code.decodeAll part = [] :=
  code.decodeAll_of_none (code.decode_of_cut hcut)

end Code

end PennCloud.Library.PrefixCode
