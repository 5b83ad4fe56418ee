import PennCloud.Library.TextSearch

/-!
# C strings in a character array

A fixed array of bytes, the string that ends at its first zero byte, and the functions of the C
library that a reader works with. An access outside the array has no result.
-/

open PennCloud.Library.TextSearch

namespace PennCloud.Library.CBuffer

/-- The C string at the start of an array. -/
def content (buffer : List UInt8) : List UInt8 := buffer.takeWhile (· ≠ 0)

/-- `strstr(buffer, pattern)`, as an offset. Without a zero byte it reads on behind the array. -/
def strstr (buffer pattern : List UInt8) : Option (Option ℕ) :=
  if 0 ∈ buffer then some (find? pattern (content buffer)) else none

/-- `memcpy(buffer + offset, bytes, bytes.size())`. -/
def store (buffer : List UInt8) (offset : ℕ) (bytes : List UInt8) : Option (List UInt8) :=
  if offset + bytes.length ≤ buffer.length then
    some (buffer.take offset ++ bytes ++ buffer.drop (offset + bytes.length))
  else none

/-- The `count` bytes from `offset` on; a negative `count` is a huge `size_t`. -/
def load (buffer : List UInt8) (offset : ℕ) (count : ℤ) : Option (List UInt8) :=
  if 0 ≤ count ∧ offset + count ≤ buffer.length then
    some ((buffer.drop offset).take count.toNat)
  else none

/-- `memmove(buffer, buffer + offset, count)`. -/
def moveDown (buffer : List UInt8) (offset : ℕ) (count : ℤ) : Option (List UInt8) := do
  store buffer 0 (← load buffer offset count)

theorem content_append {front : List UInt8} (h : 0 ∉ front) (text : List UInt8) :
    content (front ++ text) = front ++ content text := takeWhile_ne_append h text

/-- The array holds this text, followed by a zero byte. -/
def Holds (buffer text : List UInt8) : Prop := text ++ [0] <+: buffer ∧ 0 ∉ text

theorem Holds.length_lt {buffer text : List UInt8} (h : Holds buffer text) :
    text.length < buffer.length := by
  have hlen := h.1.length_le
  rw [List.length_append, List.length_singleton] at hlen
  omega

theorem Holds.content {buffer text : List UInt8} (h : Holds buffer text) :
    content buffer = text := by
  obtain ⟨⟨rest, rfl⟩, hzero⟩ := h
  rw [List.append_assoc]
  exact takeWhile_ne_append_cons hzero rest

theorem Holds.strstr {buffer text : List UInt8} (h : Holds buffer text) (pattern : List UInt8) :
    strstr buffer pattern = some (find? pattern text) := by
  have hmem : (0 : UInt8) ∈ buffer := h.1.subset (List.mem_append_right _ (List.mem_singleton_self 0))
  rw [CBuffer.strstr, if_pos hmem, h.content]

theorem store_length {buffer bytes stored : List UInt8} {offset : ℕ}
    (h : store buffer offset bytes = some stored) : stored.length = buffer.length := by
  unfold store at h
  split at h
  · next hfits =>
    rw [← Option.some.inj h]
    simp only [List.length_append, List.length_take, List.length_drop]
    omega
  · cases h

/-- What is stored leaves the bytes behind it. -/
theorem drop_store {buffer bytes stored : List UInt8} {offset : ℕ}
    (h : store buffer offset bytes = some stored) :
    stored.drop (offset + bytes.length) = buffer.drop (offset + bytes.length) := by
  unfold store at h
  split at h
  · next hfits =>
    rw [← Option.some.inj h]
    have hlen : (buffer.take offset ++ bytes).length = offset + bytes.length := by
      rw [List.length_append, List.length_take, min_eq_left (by omega)]
    rw [← hlen, List.drop_left]
  · cases h

/-- Bytes stored behind a text at the start of an array: the text goes on to the first zero byte. -/
theorem holds_store_upTo {buffer text more behind : List UInt8} (htext : text <+: buffer)
    (hzero : 0 ∉ text) (hmore : 0 ∉ more)
    (hfits : text.length + (more ++ 0 :: behind).length ≤ buffer.length) :
    ∃ stored, store buffer text.length (more ++ 0 :: behind) = some stored ∧
      Holds stored (text ++ more) := by
  refine ⟨_, if_pos hfits, ?_, ?_⟩
  · rw [← List.prefix_iff_eq_take.mp htext]
    refine ⟨behind ++ buffer.drop (text.length + (more ++ 0 :: behind).length), ?_⟩
    simp only [List.append_assoc, List.cons_append, List.nil_append]
  · rw [List.mem_append]
    rintro (hin | hin)
    · exact hzero hin
    · exact hmore hin

/-- Text stored behind a text at the start of an array, with a zero byte of its own. -/
theorem holds_store {buffer text more : List UInt8} (htext : text <+: buffer) (hzero : 0 ∉ text)
    (hmore : 0 ∉ more) (hfits : text.length + more.length < buffer.length) :
    ∃ stored, store buffer text.length (more ++ [0]) = some stored ∧
      Holds stored (text ++ more) := by
  apply holds_store_upTo htext hzero hmore
  rw [List.length_append, List.length_singleton]
  omega

/-- Bytes stored behind the zero byte leave the text. -/
theorem Holds.store_behind {buffer text bytes stored : List UInt8} {offset : ℕ}
    (h : Holds buffer text) (hoffset : text.length < offset)
    (hstore : store buffer offset bytes = some stored) : Holds stored text := by
  refine ⟨?_, h.2⟩
  unfold store at hstore
  split at hstore
  · next hfits =>
    rw [← Option.some.inj hstore, List.append_assoc]
    refine List.IsPrefix.trans ?_ (List.prefix_append _ _)
    rw [List.prefix_take_iff]
    refine ⟨h.1, ?_⟩
    rw [List.length_append, List.length_singleton]
    omega
  · cases hstore

/-- A zero byte stored in a text ends it there. -/
theorem Holds.cut {buffer text : List UInt8} (h : Holds buffer text) {p : ℕ}
    (hp : p ≤ text.length) :
    ∃ stored, store buffer p [0] = some stored ∧ Holds stored (text.take p) := by
  have hbegin : text.take p <+: buffer :=
    ((List.take_prefix p text).trans (List.prefix_append _ _)).trans h.1
  have hzero : 0 ∉ text.take p := fun hin ↦ h.2 (List.mem_of_mem_take hin)
  have hlen : (text.take p).length = p := by rw [List.length_take, min_eq_left hp]
  have hlt := h.length_lt
  have hstore := holds_store hbegin hzero List.not_mem_nil
    (by rw [hlen, List.length_nil]; omega)
  rwa [hlen, List.nil_append, List.append_nil] at hstore

/-- Text with its zero byte, and maybe more, is moved to the start. -/
theorem holds_moveDown {buffer rest : List UInt8} {offset : ℕ} {count : ℤ}
    (h : rest ++ [0] <+: buffer.drop offset) (hzero : 0 ∉ rest) (hcount : rest.length + 1 ≤ count)
    (hfits : offset + count ≤ buffer.length) :
    ∃ moved, moveDown buffer offset count = some moved ∧ Holds moved rest := by
  have hload : load buffer offset count = some ((buffer.drop offset).take count.toNat) :=
    if_pos ⟨by omega, hfits⟩
  have hlen : ((buffer.drop offset).take count.toNat).length = count.toNat := by
    rw [List.length_take, List.length_drop, min_eq_left (by omega)]
  have hbytes : rest ++ [0] <+: (buffer.drop offset).take count.toNat := by
    rw [List.prefix_take_iff]
    refine ⟨h, ?_⟩
    rw [List.length_append, List.length_singleton]
    omega
  have hstore : store buffer 0 ((buffer.drop offset).take count.toNat) = _ :=
    if_pos (by rw [hlen]; omega)
  refine ⟨_, by rw [moveDown, hload]; exact hstore, ?_, hzero⟩
  exact hbytes.trans (List.prefix_append _ _)

/-- Behind the zero byte of a line, the rest of the text is moved to the start. -/
theorem Holds.moveRest {buffer stored text : List UInt8} {p q : ℕ} {count : ℤ}
    (h : Holds buffer text) (hstore : store buffer p [0] = some stored) (hpq : p < q)
    (hq : q ≤ text.length) (hcount : (text.drop q).length + 1 ≤ count)
    (hfits : q + count ≤ buffer.length) :
    ∃ moved, moveDown stored q count = some moved ∧ Holds moved (text.drop q) := by
  have hbehind : stored.drop q = buffer.drop q := by
    have hsum : p + [(0 : UInt8)].length + (q - (p + 1)) = q := by
      rw [List.length_singleton]
      omega
    have hdrop := congrArg (List.drop (q - (p + 1))) (drop_store hstore)
    rwa [List.drop_drop, List.drop_drop, hsum] at hdrop
  have hrest : text.drop q ++ [0] <+: stored.drop q := by
    obtain ⟨⟨more, hmore⟩, -⟩ := h
    rw [hbehind, ← hmore, List.append_assoc, List.drop_append_of_le_length hq, ← List.append_assoc]
    exact List.prefix_append _ _
  rw [← store_length hstore] at hfits
  exact holds_moveDown hrest (fun hin ↦ h.2 (List.mem_of_mem_drop hin)) hcount hfits

theorem moveDown_length {buffer moved : List UInt8} {offset : ℕ} {count : ℤ}
    (h : moveDown buffer offset count = some moved) : moved.length = buffer.length := by
  unfold moveDown at h
  obtain ⟨bytes, -, hstore⟩ := Option.bind_eq_some_iff.mp h
  exact store_length hstore

end PennCloud.Library.CBuffer
