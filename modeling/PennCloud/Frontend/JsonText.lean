import PennCloud.Frontend.HttpText

/-!
# Bodies that a page has made

A page sends an object of texts in the compact form of `JSON.stringify`. The reader of bodies drops
braces wherever they are, and in keys also colons and commas, so that what it reads of a key can be
another key; and it leaves out a last pair without a value. It reads back what the page has sent
exactly if nothing is dropped from a value that is asked for.
-/

open PennCloud.Library.CppString PennCloud.KV.TabletCells
open PennCloud.Frontend.KVClient PennCloud.Frontend.HttpText

namespace PennCloud.Frontend.JsonText

/-! ## The text of an object -/

/-- A text in which nothing has to be escaped. -/
def Plain (text : Bytes) : Prop := ∀ b ∈ text, 32 ≤ b ∧ b ≠ 34 ∧ b ≠ 92

instance (text : Bytes) : Decidable (Plain text) :=
  inferInstanceAs (Decidable (∀ b ∈ text, 32 ≤ b ∧ b ≠ 34 ∧ b ≠ 92))

structure JsonObject where
  pairs : List (Bytes × Bytes)
  plain : ∀ pair ∈ pairs, Plain pair.1 ∧ Plain pair.2
  named : ∀ pair ∈ pairs, pair.1 ≠ []
  distinct : (pairs.map Prod.fst).Nodup

def member (pair : Bytes × Bytes) : Bytes :=
  lit "\"" ++ pair.1 ++ lit "\":\"" ++ pair.2 ++ lit "\""

/-- `JSON.stringify`. -/
def stringify (pairs : List (Bytes × Bytes)) : Bytes :=
  lit "\x7b" ++ join (pairs.map member) (lit ",") ++ lit "\x7d"

/-! ## What is read of it -/

def isBrace (b : UInt8) : Bool := b = 123 || b = 125

def isMark (b : UInt8) : Bool := isBrace b || b = colon || b = comma

/-- What the reader keeps of a value. -/
def bareValue (value : Bytes) : Bytes := value.filter (!isBrace ·)

/-- What the reader keeps of a key. -/
def bareKey (key : Bytes) : Bytes := key.filter (!isMark ·)

/-- No value has a brace in it, a key with a brace, a colon or a comma in it has no value, and what is
kept of a key, but for the last one, is no earlier key that has a value. -/
structure ReadBack (pairs : List (Bytes × Bytes)) : Prop where
  values : ∀ pair ∈ pairs, ∀ b ∈ pair.2, isBrace b = false
  keys : ∀ pair ∈ pairs, (∃ b ∈ pair.1, isMark b = true) → pair.2 = []
  overwritten : pairs.dropLast.Pairwise fun earlier later ↦
    bareKey later.1 = earlier.1 → earlier.2 = []

theorem bareValue_eq_iff {value : Bytes} :
    bareValue value = value ↔ ∀ b ∈ value, isBrace b = false := by
  rw [bareValue, List.filter_eq_self]
  simp only [Bool.not_eq_true']

theorem bareKey_eq_or (key : Bytes) : bareKey key = key ∨ ∃ b ∈ key, isMark b = true := by
  rw [bareKey, List.filter_eq_self]
  by_cases h : ∃ b ∈ key, isMark b = true
  · exact .inr h
  · push Not at h
    exact .inl fun b hb ↦ by simpa using h b hb

theorem bareKey_ne {key : Bytes} (h : ∃ b ∈ key, isMark b = true) (other : Bytes) :
    bareKey other ≠ key := by
  rintro rfl
  obtain ⟨b, hb, hmark⟩ := h
  have hkept := (List.mem_filter.mp hb).2
  rw [hmark] at hkept
  cases hkept

/-! ## The pairs in the map -/

theorem at_insert (params : StringMap) (name value key : Bytes) :
    StringMap.at (params.insert name value) key = if name = key then value else params.at key := by
  unfold StringMap.at
  split
  · next heq => rw [heq, AList.lookup_insert, Option.getD_some]
  · next hne => rw [AList.lookup_insert_ne (Ne.symm hne)]

/-- The map after these pairs. -/
def insertAll (params : StringMap) (pairs : List (Bytes × Bytes)) : StringMap :=
  pairs.foldl (fun params pair ↦ params.insert (bareKey pair.1) (bareValue pair.2)) params

variable {params : StringMap} {pairs : List (Bytes × Bytes)} {key : Bytes}

theorem insertAll_cons (params : StringMap) (pair : Bytes × Bytes) (pairs : List (Bytes × Bytes)) :
    insertAll params (pair :: pairs) =
      insertAll (params.insert (bareKey pair.1) (bareValue pair.2)) pairs := rfl

theorem at_insertAll_concat (params : StringMap) (pairs : List (Bytes × Bytes))
    (last : Bytes × Bytes) (key : Bytes) :
    (insertAll params (pairs ++ [last])).at key =
      if bareKey last.1 = key then bareValue last.2 else (insertAll params pairs).at key := by
  rw [insertAll, List.foldl_append, List.foldl_cons, List.foldl_nil, at_insert, ← insertAll]

theorem at_insertAll_of_not_mem (h : ∀ pair ∈ pairs, bareKey pair.1 ≠ key) :
    (insertAll params pairs).at key = params.at key := by
  induction pairs using List.reverseRecOn with
  | nil => rfl
  | append_singleton pairs last ih =>
    obtain ⟨hpairs, hlast⟩ := List.forall_mem_append.mp h
    rw [at_insertAll_concat, if_neg (hlast last (List.mem_singleton_self last)), ih hpairs]

/-- The value is that of one of the pairs with the key. -/
theorem at_insertAll_of_mem (h : ∃ pair ∈ pairs, bareKey pair.1 = key) :
    ∃ pair ∈ pairs, bareKey pair.1 = key ∧
      (insertAll params pairs).at key = bareValue pair.2 := by
  induction pairs using List.reverseRecOn with
  | nil =>
    obtain ⟨pair, hpair, -⟩ := h
    exact absurd hpair List.not_mem_nil
  | append_singleton pairs last ih =>
    by_cases hlast : bareKey last.1 = key
    · refine ⟨last, List.mem_append_right pairs (List.mem_singleton_self last), hlast, ?_⟩
      rw [at_insertAll_concat, if_pos hlast]
    · obtain ⟨pair, hpair, hkey⟩ := h
      have hfront : pair ∈ pairs := by
        rcases List.mem_append.mp hpair with hfront | hsingle
        · exact hfront
        · rw [List.mem_singleton.mp hsingle] at hkey
          exact absurd hkey hlast
      obtain ⟨found, hfound, hfoundKey, hat⟩ := ih ⟨pair, hfront, hkey⟩
      refine ⟨found, List.mem_append_left [last] hfound, hfoundKey, ?_⟩
      rw [at_insertAll_concat, if_neg hlast, hat]

theorem at_insertAll_of_mark (h : ∃ b ∈ key, isMark b = true) :
    (insertAll ∅ pairs).at key = [] :=
  at_insertAll_of_not_mem fun pair _ ↦ bareKey_ne h pair.1

/-- No value in the map has a brace in it. -/
theorem isBrace_at_insertAll (pairs : List (Bytes × Bytes)) (key : Bytes) :
    ∀ b ∈ (insertAll ∅ pairs).at key, isBrace b = false := by
  by_cases h : ∃ pair ∈ pairs, bareKey pair.1 = key
  · obtain ⟨pair, -, -, hat⟩ := @at_insertAll_of_mem ∅ pairs key h
    rw [hat]
    intro b hb
    simpa using (List.mem_filter.mp hb).2
  · push Not at h
    rw [at_insertAll_of_not_mem h]
    exact fun _ hb ↦ absurd hb List.not_mem_nil

/-! ## The loop -/

/-- The loop within the quotes of a key. -/
def inKey (params : StringMap) (key : Bytes) : JsonState where
  params := params
  inQuotes := true
  key := key

/-- The loop within the quotes of a value. -/
def inValue (params : StringMap) (key value : Bytes) : JsonState where
  params := params
  isKey := false
  inQuotes := true
  isValue := true
  key := key
  value := value

/-- The loop behind a pair. -/
def behind (params : StringMap) (pair : Bytes × Bytes) : JsonState where
  params := params
  isKey := false
  isValue := true
  key := bareKey pair.1
  value := bareValue pair.2

/-- A loop that keeps some bytes. -/
theorem foldl_keep {σ : Type} {step : σ → UInt8 → σ} {state : Bytes → σ} {keep : UInt8 → Bool}
    {text : Bytes}
    (h : ∀ b ∈ text, ∀ front, step (state front) b = state (front ++ [b].filter keep))
    (front : Bytes) : text.foldl step (state front) = state (front ++ text.filter keep) := by
  induction text generalizing front with
  | nil => rw [List.filter_nil, List.append_nil, List.foldl_nil]
  | cons b text ih =>
    obtain ⟨hb, htext⟩ := List.forall_mem_cons.mp h
    rw [List.foldl_cons, hb, ih htext, List.append_assoc, ← List.filter_append,
      List.singleton_append]

theorem not_blank {b : UInt8} (h : 32 ≤ b) : b ≠ 9 ∧ b ≠ 10 := by
  constructor
  · rintro rfl
    exact absurd h (by decide)
  · rintro rfl
    exact absurd h (by decide)

theorem step_inKey {b : UInt8} (h : 32 ≤ b ∧ b ≠ 34 ∧ b ≠ 92) (params : StringMap) (key : Bytes) :
    (inKey params key).step b = inKey params (key ++ bareKey [b]) := by
  have hblank := not_blank h.1
  by_cases hopen : b = 123
  · simp [JsonState.step, inKey, bareKey, isMark, isBrace, hopen]
  by_cases hclose : b = 125
  · simp [JsonState.step, inKey, bareKey, isMark, isBrace, hclose]
  by_cases hcolon : b = colon
  · simp [JsonState.step, inKey, bareKey, isMark, isBrace, hcolon]
  by_cases hcomma : b = comma
  · simp [JsonState.step, inKey, bareKey, isMark, isBrace, hcomma]
  have hkept : bareKey [b] = [b] := by
    simp [bareKey, isMark, isBrace, hopen, hclose, hcolon, hcomma]
  simp [JsonState.step, inKey, hkept, hopen, hclose, hcolon, hcomma, hblank, h.2.1]

theorem step_inValue {b : UInt8} (h : 32 ≤ b ∧ b ≠ 34 ∧ b ≠ 92) (params : StringMap)
    (key value : Bytes) :
    (inValue params key value).step b = inValue params key (value ++ bareValue [b]) := by
  have hblank := not_blank h.1
  by_cases hopen : b = 123
  · simp [JsonState.step, inValue, bareValue, isBrace, hopen]
  by_cases hclose : b = 125
  · simp [JsonState.step, inValue, bareValue, isBrace, hclose]
  have hkept : bareValue [b] = [b] := by simp [bareValue, isBrace, hopen, hclose]
  simp [JsonState.step, inValue, hkept, hopen, hclose, hblank, h.2.1]

/-- A pair is read. -/
theorem foldl_member {pair : Bytes × Bytes} (h : Plain pair.1 ∧ Plain pair.2)
    (params : StringMap) :
    (member pair).foldl JsonState.step { params := params } = behind params pair := by
  have hkey : pair.1.foldl JsonState.step (inKey params []) = inKey params (bareKey pair.1) :=
    foldl_keep (fun b hb key ↦ step_inKey (h.1 b hb) params key) []
  have hvalue : pair.2.foldl JsonState.step (inValue params (bareKey pair.1) []) =
      inValue params (bareKey pair.1) (bareValue pair.2) :=
    foldl_keep (fun b hb value ↦ step_inValue (h.2 b hb) params (bareKey pair.1) value) []
  have hbegin : (lit "\"").foldl JsonState.step { params := params } = inKey params [] := rfl
  have hmiddle : (lit "\":\"").foldl JsonState.step (inKey params (bareKey pair.1)) =
      inValue params (bareKey pair.1) [] := rfl
  rw [member, List.foldl_append, List.foldl_append, List.foldl_append, List.foldl_append, hbegin,
    hkey, hmiddle, hvalue]
  rfl

/-- Pairs that a comma ends are inserted. -/
theorem foldl_members {pairs : List (Bytes × Bytes)}
    (h : ∀ pair ∈ pairs, Plain pair.1 ∧ Plain pair.2) (params : StringMap) :
    ((pairs.map member).map (· ++ lit ",")).flatten.foldl JsonState.step { params := params } =
      { params := insertAll params pairs } := by
  induction pairs generalizing params with
  | nil => rfl
  | cons pair pairs ih =>
    obtain ⟨hpair, hpairs⟩ := List.forall_mem_cons.mp h
    have hcomma : (lit ",").foldl JsonState.step (behind params pair) =
        { params := params.insert (bareKey pair.1) (bareValue pair.2) } := rfl
    rw [List.map_cons, List.map_cons, List.flatten_cons, List.foldl_append, List.foldl_append,
      foldl_member hpair, hcomma, ih hpairs, insertAll_cons]

theorem parseJson_stringify {pairs : List (Bytes × Bytes)} {last : Bytes × Bytes}
    (h : ∀ pair ∈ pairs ++ [last], Plain pair.1 ∧ Plain pair.2) :
    parseJson (stringify (pairs ++ [last])) =
      if bareKey last.1 ≠ [] ∧ bareValue last.2 ≠ [] then insertAll ∅ (pairs ++ [last])
      else insertAll ∅ pairs := by
  obtain ⟨hpairs, hlast⟩ := List.forall_mem_append.mp h
  have hopen : (lit "\x7b").foldl JsonState.step {} = {} := rfl
  have hclose : ∀ s : JsonState, (lit "\x7d").foldl JsonState.step s = s := fun _ ↦ rfl
  have hloop : (stringify (pairs ++ [last])).foldl JsonState.step {} =
      behind (insertAll ∅ pairs) last := by
    rw [stringify, List.foldl_append, List.foldl_append, hopen, hclose, List.map_append,
      List.map_singleton, join_concat, List.foldl_append, foldl_members hpairs,
      foldl_member (hlast last (List.mem_singleton_self last))]
  rw [parseJson, hloop]
  conv_rhs => rw [insertAll, List.foldl_append]
  rfl

theorem at_parseJson_stringify {last : Bytes × Bytes}
    (h : ∀ pair ∈ pairs ++ [last], Plain pair.1 ∧ Plain pair.2) (hne : key ≠ []) :
    (parseJson (stringify (pairs ++ [last]))).at key =
      if bareKey last.1 = key ∧ bareValue last.2 ≠ [] then bareValue last.2
      else (insertAll ∅ pairs).at key := by
  rw [parseJson_stringify h]
  by_cases hkey : bareKey last.1 = key
  · subst hkey
    by_cases hvalue : bareValue last.2 = []
    · rw [if_neg fun hboth ↦ hboth.2 hvalue, if_neg fun hboth ↦ hboth.2 hvalue]
    · rw [if_pos ⟨hne, hvalue⟩, if_pos ⟨rfl, hvalue⟩, at_insertAll_concat, if_pos rfl]
  · split
    · rw [at_insertAll_concat, if_neg hkey, if_neg fun hboth ↦ hkey hboth.1]
    · rw [if_neg fun hboth ↦ hkey hboth.1]

/-! ## Reading back -/

section ReadBack

variable (hdistinct : (pairs.map Prod.fst).Nodup)
  (hkeys : ∀ pair ∈ pairs, (∃ b ∈ pair.1, isMark b = true) → pair.2 = [])

/-- Another key that is kept as this one has no value. -/
theorem value_of_clash {pair : Bytes × Bytes}
    (hkeys : (∃ b ∈ pair.1, isMark b = true) → pair.2 = []) (hkey : bareKey pair.1 = key)
    (hother : pair.1 ≠ key) : pair.2 = [] := by
  rcases bareKey_eq_or pair.1 with hsame | hmark
  · exact absurd (hsame.symm.trans hkey) hother
  · exact hkeys hmark

include hkeys

/-- A key that is none of the pairs has no value, though another one may be kept as it. -/
theorem at_insertAll_of_fresh (h : key ∉ pairs.map Prod.fst) :
    (insertAll ∅ pairs).at key = [] := by
  by_cases hfound : ∃ pair ∈ pairs, bareKey pair.1 = key
  · obtain ⟨pair, hpair, hkey, hat⟩ := @at_insertAll_of_mem ∅ pairs key hfound
    have hother : pair.1 ≠ key := fun hsame ↦ h (hsame ▸ List.mem_map_of_mem hpair)
    rw [hat, value_of_clash (hkeys pair hpair) hkey hother]
    rfl
  · push Not at hfound
    exact at_insertAll_of_not_mem hfound

include hdistinct

theorem at_insertAll (hvalues : ∀ pair ∈ pairs, ∀ b ∈ pair.2, isBrace b = false)
    (hoverwritten : pairs.Pairwise fun earlier later ↦
      bareKey later.1 = earlier.1 → earlier.2 = []) :
    ∀ pair ∈ pairs, (insertAll ∅ pairs).at pair.1 = pair.2 := by
  induction pairs using List.reverseRecOn with
  | nil => exact fun _ hpair ↦ absurd hpair List.not_mem_nil
  | append_singleton pairs last ih =>
    obtain ⟨hvalues, hvalue⟩ := List.forall_mem_append.mp hvalues
    obtain ⟨hkeys, hkey⟩ := List.forall_mem_append.mp hkeys
    obtain ⟨hoverwritten, -, hlast⟩ := List.pairwise_append.mp hoverwritten
    rw [List.forall_mem_singleton] at hvalue hkey
    rw [List.map_append, List.nodup_append] at hdistinct
    rw [List.forall_mem_append, List.forall_mem_singleton]
    constructor
    · intro pair hpair
      rw [at_insertAll_concat]
      split
      · next heq =>
        have hother : last.1 ≠ pair.1 := fun hsame ↦
          hdistinct.2.2 pair.1 (List.mem_map_of_mem hpair) last.1 List.mem_cons_self hsame.symm
        rw [value_of_clash hkey heq hother,
          hlast pair hpair last (List.mem_singleton_self last) heq]
        rfl
      · exact ih hdistinct.1 hkeys hvalues hoverwritten pair hpair
    · rw [at_insertAll_concat]
      split
      · exact bareValue_eq_iff.mpr hvalue
      · next hne =>
        have hmark := (bareKey_eq_or last.1).resolve_left hne
        rw [at_insertAll_of_mark hmark, hkey hmark]

theorem pairwise_of_at (params : StringMap)
    (hat : ∀ pair ∈ pairs, (insertAll params pairs).at pair.1 = pair.2) :
    pairs.Pairwise fun earlier later ↦ bareKey later.1 = earlier.1 → earlier.2 = [] := by
  induction pairs generalizing params with
  | nil => exact List.Pairwise.nil
  | cons pair pairs ih =>
    obtain ⟨-, hkeys⟩ := List.forall_mem_cons.mp hkeys
    obtain ⟨hpair, hpairs⟩ := List.forall_mem_cons.mp hat
    obtain ⟨hnew, hdistinct⟩ := List.nodup_cons.mp hdistinct
    rw [insertAll_cons] at hpair hpairs
    refine List.Pairwise.cons (fun later hlater hkey ↦ ?_) (ih hdistinct hkeys _ hpairs)
    obtain ⟨found, hfound, hfoundKey, hvalue⟩ := at_insertAll_of_mem ⟨later, hlater, hkey⟩
    have hother : found.1 ≠ pair.1 := fun hsame ↦ hnew (hsame ▸ List.mem_map_of_mem hfound)
    rw [← hpair, hvalue, value_of_clash (hkeys found hfound) hfoundKey hother]
    rfl

end ReadBack

section Concat

variable {last : Bytes × Bytes} (hplain : ∀ pair ∈ pairs ++ [last], Plain pair.1 ∧ Plain pair.2)
  (hnamed : ∀ pair ∈ pairs ++ [last], pair.1 ≠ [])
  (hdistinct : ((pairs ++ [last]).map Prod.fst).Nodup)

include hplain hnamed hdistinct

/-- The last pair is no earlier one. -/
theorem at_parseJson_earlier (hkey : (∃ b ∈ last.1, isMark b = true) → last.2 = [])
    {pair : Bytes × Bytes} (hpair : pair ∈ pairs) :
    (parseJson (stringify (pairs ++ [last]))).at pair.1 = (insertAll ∅ pairs).at pair.1 := by
  rw [List.map_append, List.nodup_append] at hdistinct
  have hother : last.1 ≠ pair.1 := fun hsame ↦
    hdistinct.2.2 pair.1 (List.mem_map_of_mem hpair) last.1 List.mem_cons_self hsame.symm
  rw [at_parseJson_stringify hplain (hnamed pair (List.mem_append_left [last] hpair)), if_neg]
  rintro ⟨heq, hvalue⟩
  rw [value_of_clash hkey heq hother] at hvalue
  exact hvalue rfl

theorem readBack_of_at (hat : ∀ pair ∈ pairs ++ [last],
    (parseJson (stringify (pairs ++ [last]))).at pair.1 = pair.2) : ReadBack (pairs ++ [last]) := by
  have hkeys : ∀ pair ∈ pairs ++ [last], (∃ b ∈ pair.1, isMark b = true) → pair.2 = [] := by
    intro pair hpair hmark
    rw [← hat pair hpair, at_parseJson_stringify hplain (hnamed pair hpair),
      if_neg fun hboth ↦ bareKey_ne hmark last.1 hboth.1, at_insertAll_of_mark hmark]
  constructor
  · intro pair hpair
    rw [← hat pair hpair, at_parseJson_stringify hplain (hnamed pair hpair)]
    split
    · intro b hb
      simpa using (List.mem_filter.mp hb).2
    · exact isBrace_at_insertAll pairs pair.1
  · exact hkeys
  · rw [List.dropLast_concat]
    have hfront : (pairs.map Prod.fst).Nodup := by
      rw [List.map_append, List.nodup_append] at hdistinct
      exact hdistinct.1
    refine pairwise_of_at hfront (fun pair hpair ↦ hkeys pair (List.mem_append_left [last] hpair)) ∅
      fun pair hpair ↦ ?_
    have hlast := hkeys last (List.mem_append_right pairs (List.mem_singleton_self last))
    rw [← at_parseJson_earlier hplain hnamed hdistinct hlast hpair]
    exact hat pair (List.mem_append_left [last] hpair)

theorem at_of_readBack (h : ReadBack (pairs ++ [last])) : ∀ pair ∈ pairs ++ [last],
    (parseJson (stringify (pairs ++ [last]))).at pair.1 = pair.2 := by
  obtain ⟨hvalues, hkeys, hoverwritten⟩ := h
  rw [List.dropLast_concat] at hoverwritten
  obtain ⟨hvalues, hvalue⟩ := List.forall_mem_append.mp hvalues
  obtain ⟨hkeys, hkey⟩ := List.forall_mem_append.mp hkeys
  rw [List.forall_mem_singleton] at hvalue hkey
  obtain ⟨hfront, -, hfresh⟩ : (pairs.map Prod.fst).Nodup ∧ ([last].map Prod.fst).Nodup ∧
      ∀ a ∈ pairs.map Prod.fst, ∀ b ∈ [last].map Prod.fst, a ≠ b := by
    rwa [List.map_append, List.nodup_append] at hdistinct
  rw [List.forall_mem_append, List.forall_mem_singleton]
  constructor
  · intro pair hpair
    rw [at_parseJson_earlier hplain hnamed hdistinct hkey hpair]
    exact at_insertAll hfront hkeys hvalues hoverwritten pair hpair
  · have hname := hnamed last (List.mem_append_right pairs (List.mem_singleton_self last))
    have hnew : last.1 ∉ pairs.map Prod.fst := fun hmem ↦
      hfresh last.1 hmem last.1 List.mem_cons_self rfl
    rw [at_parseJson_stringify hplain hname, bareValue_eq_iff.mpr hvalue]
    split
    · rfl
    · next hnot =>
      -- a last key that is kept has no value here, as one that is not kept
      have hempty : last.2 = [] := by
        rcases bareKey_eq_or last.1 with hsame | hmark
        · by_contra hne
          exact hnot ⟨hsame, hne⟩
        · exact hkey hmark
      rw [at_insertAll_of_fresh hkeys hnew, hempty]

end Concat

/-- The object is read back exactly if nothing is dropped from it. -/
theorem parseJson_stringify_iff (object : JsonObject) :
    (∀ pair ∈ object.pairs, (parseJson (stringify object.pairs)).at pair.1 = pair.2) ↔
      ReadBack object.pairs := by
  obtain ⟨pairs, hplain, hnamed, hdistinct⟩ := object
  rcases List.eq_nil_or_concat' pairs with rfl | ⟨pairs, last, rfl⟩
  · refine iff_of_true (fun _ hpair ↦ absurd hpair List.not_mem_nil) ⟨?_, ?_, List.Pairwise.nil⟩
    · exact fun _ hpair ↦ absurd hpair List.not_mem_nil
    · exact fun _ hpair ↦ absurd hpair List.not_mem_nil
  · exact ⟨readBack_of_at hplain hnamed hdistinct, at_of_readBack hplain hnamed hdistinct⟩

/-- A brace in the text of a mail. -/
def braces : JsonObject where
  pairs := [(lit "to", lit "u@penncloud.com"), (lit "subject", []), (lit "body", lit "a \x7bb\x7d")]
  plain := by decide +kernel
  named := by decide +kernel
  distinct := by decide +kernel

/-- The braces are not read. -/
theorem parseJson_drops_braces :
    ¬∀ object : JsonObject, ∀ pair ∈ object.pairs,
      (parseJson (stringify object.pairs)).at pair.1 = pair.2 := by
  intro h
  have hbody := h braces (lit "body", lit "a \x7bb\x7d") (by decide)
  revert hbody
  decide +kernel

end PennCloud.Frontend.JsonText
