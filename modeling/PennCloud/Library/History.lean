import Mathlib.Data.List.DropRight

/-!
# Histories

A history lists what has happened, the latest entry last. A law about a history may say of every
entry something about the entries before it, or look only at the entries since the last
one of some kind. Both are followed entry by entry.
-/

namespace PennCloud.Library.History

variable {α : Type*}

/-- Every entry stands in this relation to the entries before it. -/
def Every (P : List α → α → Prop) (past : List α) : Prop :=
  ∀ before x after, past = before ++ x :: after → P before x

theorem every_nil (P : List α → α → Prop) : Every P [] := by
  intro before x after h
  simp at h

theorem every_concat {P : List α → α → Prop} {past : List α} {x : α} :
    Every P (past ++ [x]) ↔ Every P past ∧ P past x := by
  constructor
  · intro h
    refine ⟨fun before y after heq ↦ h before y (after ++ [x]) ?_, h past x [] rfl⟩
    rw [heq, List.append_assoc, List.cons_append]
  · rintro ⟨hpast, hx⟩ before y after heq
    rcases List.eq_nil_or_concat after with rfl | ⟨rest, z, rfl⟩
    · obtain ⟨rfl, hy⟩ := List.append_inj' heq rfl
      obtain rfl : x = y := (List.cons.inj hy).1
      exact hx
    · have hsplit : past ++ [x] = (before ++ y :: rest) ++ [z] := by
        rw [heq, List.concat_eq_append, List.append_assoc, List.cons_append]
      exact hpast before y rest (List.append_inj' hsplit rfl).1

section Since

variable (p : α → Prop) [DecidablePred p]

/-- The entries after the last one of a kind. -/
def since (past : List α) : List α := past.rtakeWhile fun x ↦ ¬p x

variable {p}

theorem since_concat_of {x : α} (h : p x) (past : List α) : since p (past ++ [x]) = [] :=
  List.rtakeWhile_concat_neg _ _ _ (by simp [h])

theorem since_concat_of_not {x : α} (h : ¬p x) (past : List α) :
    since p (past ++ [x]) = since p past ++ [x] :=
  List.rtakeWhile_concat_pos _ _ _ (by simp [h])

theorem since_suffix (past : List α) : since p past <:+ past := List.rtakeWhile_suffix _ _

/-- An entry that nothing of the kind follows. -/
theorem mem_since {before after : List α} {x : α} (hx : ¬p x) (hafter : ∀ y ∈ after, ¬p y) :
    x ∈ since p (before ++ x :: after) := by
  induction after using List.reverseRecOn with
  | nil =>
    rw [since_concat_of_not hx]
    exact List.mem_append_right _ (List.mem_singleton_self x)
  | append_singleton after y ih =>
    have hy : ¬p y := hafter y (List.mem_append_right _ (List.mem_singleton_self y))
    have hsplit : before ++ x :: (after ++ [y]) = (before ++ x :: after) ++ [y] := by
      rw [List.append_assoc, List.cons_append]
    rw [hsplit, since_concat_of_not hy]
    exact List.mem_append_left _ (ih fun z hz ↦ hafter z (List.mem_append_left _ hz))

end Since

/-- What stands before the last entry of a sublist. -/
theorem exists_split_of_sublist_concat {xs past : List α} {x : α} (h : (xs ++ [x]).Sublist past) :
    ∃ before after, past = before ++ x :: after ∧ xs.Sublist before := by
  obtain ⟨front, back, rfl, hxs, hx⟩ := List.append_sublist_iff.mp h
  obtain ⟨before, after, rfl⟩ := List.append_of_mem (List.singleton_sublist.mp hx)
  refine ⟨front ++ before, after, by rw [List.append_assoc], ?_⟩
  exact hxs.trans (List.sublist_append_left _ _)

end PennCloud.Library.History
