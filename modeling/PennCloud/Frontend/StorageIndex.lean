import PennCloud.Frontend.Storage
import PennCloud.Library.RelyGuarantee

/-!
# The storage index

The index as a list of entries, what the handlers' string operations do to that list, and the calls
of the client as steps of a contract. Every change of an index is a compare-and-set whose new
value is computed from the compared one.
-/

open PennCloud.Library.CppString PennCloud.Library.TextSearch PennCloud.Library.Programs
open PennCloud.Library.RelyGuarantee PennCloud.KV.TabletCells
open PennCloud.Frontend.KVClient PennCloud.Frontend.HttpText PennCloud.Frontend.Storage

namespace PennCloud.Frontend.StorageIndex

/-- The cell of a user's index. -/
def indexCell (user : Bytes) : Bytes × Bytes := (user, lit "storage")

/-- The index as the handlers read it; a missing one is empty. -/
def indexOf (user : Bytes) (store : Store) : Bytes := (store (indexCell user)).getD []

/-- The nonempty pieces between commas. -/
def entries (index : Bytes) : List Bytes := (split index comma).filter (· ≠ [])

/-! ## Entries -/

theorem entries_nil : entries [] = [] := rfl

theorem entries_append_comma (index entry : Bytes) :
    entries (index ++ lit "," ++ entry) = entries index ++ entries entry := by
  have hcut : index ++ lit "," ++ entry = index ++ comma :: entry := by
    rw [List.append_assoc]
    rfl
  rw [hcut]
  unfold entries split
  rw [List.splitOn_append_cons_self, List.filter_append]

theorem entries_appendEntry (index entry : Bytes) :
    entries (appendEntry index entry) = entries index ++ entries entry := by
  unfold appendEntry
  split
  · next hempty =>
    rw [hempty, entries_nil, List.nil_append]
  · exact entries_append_comma index entry

theorem entries_of_not_mem {entry : Bytes} (hne : entry ≠ []) (hcomma : comma ∉ entry) :
    entries entry = [entry] := by
  unfold entries split
  rw [List.splitOn_eq_singleton hcomma, List.filter_singleton]
  simp [hne]

/-! ## The entry of an upload -/

theorem not_mem_chunkKey {b : UInt8} (hk : b ≠ 107) (hdigit : ¬(48 ≤ b ∧ b ≤ 57)) (n : ℕ) :
    b ∉ chunkKey n := by
  intro hmem
  rcases List.mem_append.mp hmem with hhead | hdecimal
  · exact hk (List.mem_singleton.mp hhead)
  · exact hdigit (isDigit_of_mem_decimal hdecimal)

/-- A byte of joined texts is that of one of them or the delimiter. -/
theorem not_mem_join {b c : UInt8} (hne : b ≠ c) {pieces : List Bytes}
    (h : ∀ piece ∈ pieces, b ∉ piece) : b ∉ join pieces [c] := by
  induction pieces with
  | nil => exact List.not_mem_nil
  | cons piece pieces ih =>
    obtain ⟨hpiece, hpieces⟩ := List.forall_mem_cons.mp h
    cases pieces with
    | nil => rwa [join, List.intercalate_singleton]
    | cons next pieces =>
      intro hmem
      rw [join, List.intercalate_cons_cons] at hmem
      rcases List.mem_append.mp hmem with hfront | hrest
      · rcases List.mem_append.mp hfront with hhead | hsep
        · exact hpiece hhead
        · exact hne (List.mem_singleton.mp hsep)
      · exact ih hpieces hrest

/-- A byte that is no letter of the keys is not in the entry's list of keys. -/
theorem not_mem_keys {b : UInt8} (hk : b ≠ 107) (hplus : b ≠ plus) (hdigit : ¬(48 ≤ b ∧ b ≤ 57))
    (ns : List ℕ) : b ∉ join (ns.map chunkKey) (lit "+") := by
  apply not_mem_join hplus
  intro key hkey
  obtain ⟨n, -, rfl⟩ := List.mem_map.mp hkey
  exact not_mem_chunkKey hk hdigit n

theorem comma_not_mem_uploadEntry (body : Bytes) : comma ∉ uploadEntry body := by
  intro hmem
  rcases List.mem_append.mp hmem with hname | hkeys
  · exact absurd hname (by decide)
  · exact not_mem_keys (by decide) (by decide) (by decide) _ hkeys

theorem entries_uploadEntry (body : Bytes) : entries (uploadEntry body) = [uploadEntry body] :=
  entries_of_not_mem (List.append_ne_nil_of_left_ne_nil (by decide) _)
    (comma_not_mem_uploadEntry body)

/-! ## What a call does to the index -/

theorem indexOf_update_index (user : Bytes) (store : Store) (index : Bytes) :
    indexOf user (Function.update store (user, lit "storage") (some index)) = index := by
  rw [indexOf, indexCell, Function.update_self, Option.getD_some]

theorem indexOf_update_of_ne {user row : Bytes} (h : row ≠ user) (store : Store) (col : Bytes)
    (value : Option Bytes) :
    indexOf user (Function.update store (row, col) value) = indexOf user store := by
  rw [indexOf, indexOf, Function.update_of_ne]
  exact fun heq ↦ h (Prod.mk.inj heq).1.symm

theorem fileRow_ne_user (user path : Bytes) : fileRow user path ≠ user := by
  intro h
  have hlength := congrArg List.length h
  simp only [fileRow, List.length_append] at hlength
  have hcolon : (lit ":").length = 1 := rfl
  omega

theorem execute_get_store (row col : Bytes) (store : Store) :
    (execute () (.get row col) store).1 = store := by
  cases hcell : store (row, col) with
  | some value => simp only [execute, hcell]
  | none => simp only [execute, hcell]

/-- The comparison is with the index as it is read. -/
theorem matches_iff {user v1 : Bytes} {store : Store} :
    Matches (store (indexCell user)) v1 ↔ indexOf user store = v1 := by
  unfold Matches indexOf
  cases store (indexCell user) with
  | none => simp [eq_comm]
  | some index => simp

theorem indexOf_cput {user v1 : Bytes} {store : Store} (v2 : Bytes)
    (h : Matches (store (indexCell user)) v1) :
    indexOf user (execute () (.cput user (lit "storage") v1 v2) store).1 = v2 := by
  have hexecute := execute_cput_of_matches v2 h
  rw [hexecute]
  exact indexOf_update_index user store v2

theorem store_cput_of_not {user v1 : Bytes} {store : Store} (v2 : Bytes)
    (h : ¬Matches (store (indexCell user)) v1) :
    (execute () (.cput user (lit "storage") v1 v2) store).1 = store := by
  have hexecute := execute_cput_of_not_matches v2 h
  rw [hexecute]

/-! ## Calls under a contract -/

abbrev KVWorld (ι : Type) := World ι KVOp KVOp.Answer Thrown Store

section Calls

variable {ι : Type} [DecidableEq ι] {C : Contract ι KVOp KVOp.Answer Thrown Store} {i : ι}
  {w : KVWorld ι} {α : Type} {E : Thrown → KVWorld ι → Prop}

/-- A catch clause; an exception that it does not name goes through. -/
theorem meets_catch {P : α → KVWorld ι → Prop} {E' : Thrown → KVWorld ι → Prop}
    {caught : Thrown → Prop} [DecidablePred caught] {p f : KVProg α}
    (h : Meets execute C i P E' p w)
    (hcaught : ∀ e v, caught e → Lasting C i (E' e) v → Meets execute C i P E f v)
    (hraised : ∀ e v, ¬caught e → E' e v → E e v) :
    Meets execute C i P E (p.handle fun e ↦ if caught e then f else .raise e) w := by
  apply h.handle
  intro e v hv
  split
  · next he => exact hcaught e v he hv
  · next he => exact fun u hu ↦ hraised e u he (hv u hu)

/-- Reading the index. -/
theorem meets_getIndex {user : Bytes} {P : Bytes → KVWorld ι → Prop}
    (h : ∀ v, C.Others i w v → C.allowed (.get user (lit "storage")) v →
      C.guarantee v (v.answer execute i () (.get user (lit "storage"))) ∧
      Lasting C i (P (indexOf user v.store))
        (v.answer execute i () (.get user (lit "storage")))) :
    Meets execute C i P E (getdefault user (lit "storage") []) w := by
  have hget : Meets execute C i P (fun e u ↦ e = .kvNotFound ∧ P [] u)
      (KVClient.get user (lit "storage")) w := by
    apply meets_perform
    intro v hv hallowed _
    refine ⟨(h v hv hallowed).1, ?_⟩
    have hlasting := (h v hv hallowed).2
    cases hcell : v.store (user, lit "storage") with
    | some index =>
      simp only [indexOf, indexCell, hcell, Option.getD_some] at hlasting
      simp only [execute, hcell]
      exact hlasting
    | none =>
      simp only [indexOf, indexCell, hcell, Option.getD_none] at hlasting
      simp only [execute, hcell]
      exact fun u hu ↦ ⟨rfl, hlasting u hu⟩
  apply meets_catch hget
  · exact fun e v _ hv u hu ↦ (hv u hu).2
  · exact fun e v he hv ↦ absurd hv.1 he

/-- Comparing and setting the index. -/
theorem meets_cputIndex {user v1 v2 : Bytes} {P : Unit → KVWorld ι → Prop}
    (h : ∀ v, C.Others i w v → C.allowed (.cput user (lit "storage") v1 v2) v →
      C.guarantee v (v.answer execute i () (.cput user (lit "storage") v1 v2)) ∧
      if Matches (v.store (indexCell user)) v1 then
        Lasting C i (P ()) (v.answer execute i () (.cput user (lit "storage") v1 v2))
      else
        Lasting C i (E (mismatch (v.store (indexCell user))))
          (v.answer execute i () (.cput user (lit "storage") v1 v2))) :
    Meets execute C i P E (cput user (lit "storage") v1 v2) w := by
  apply meets_perform
  intro v hv hallowed _
  refine ⟨(h v hv hallowed).1, ?_⟩
  have hanswer := (h v hv hallowed).2
  split at hanswer
  · next hmatches =>
    rw [execute_cput_of_matches v2 hmatches]
    exact hanswer
  · next hmatches =>
    rw [execute_cput_of_not_matches v2 hmatches]
    exact hanswer

end Calls

/-! ## Runs of two requests -/

/-- The contents that two requests have answered. -/
def answered (s : Shared Bool KVOp KVOp.Answer Thrown Response Store) : Option (Bytes × Bytes) :=
  match s.now false, s.now true with
  | .ret (.done first), .ret (.done second) => some (first.content, second.content)
  | _, _ => none

theorem returned_of_answered {s : Shared Bool KVOp KVOp.Answer Thrown Response Store}
    {first second : Bytes} (h : answered s = some (first, second)) :
    (∃ response, s.Returned false response ∧ response.content = first) ∧
      ∃ response, s.Returned true response ∧ response.content = second := by
  unfold answered at h
  split at h
  · next response response' hfirst hsecond =>
    obtain ⟨rfl, rfl⟩ := Prod.mk.inj (Option.some.inj h)
    exact ⟨⟨response, hfirst, rfl⟩, response', hsecond, rfl⟩
  · cases h

theorem exists_returned_of_answered {s : Shared Bool KVOp KVOp.Answer Thrown Response Store}
    {contents : Bytes × Bytes} (h : answered s = some contents) (i : Bool) :
    ∃ response, s.Returned i response := by
  obtain ⟨⟨first, hfirst, -⟩, second, hsecond, -⟩ := returned_of_answered h
  cases i with
  | false => exact ⟨first, hfirst⟩
  | true => exact ⟨second, hsecond⟩

/-- A compare-and-set by request `i` compares the present index. -/
def comparesPresent (user : Bytes) (i : Bool)
    (s : Shared Bool KVOp KVOp.Answer Thrown Response Store) (event : Bool × Unit) : Bool :=
  match s.now event.1 with
  | .call (.cput _ _ v1 _) _ => event.1 ≠ i ∨ indexOf user s.store = v1
  | _ => true

end PennCloud.Frontend.StorageIndex
