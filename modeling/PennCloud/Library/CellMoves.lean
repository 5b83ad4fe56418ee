import Mathlib.Data.List.Nodup
import Mathlib.Logic.Function.Basic

/-!
# Moving cells one after the other

A move takes the value of its source to its target and leaves the source empty. A transfer makes moves
one by one and stops where a source is empty. Moves are made while the sources of later ones
are still in place, so a move can go to a cell that a later one takes away. All values
arrive exactly if no source is taken twice and no move goes to the source of a later one or to its own.
-/

namespace PennCloud.Library.CellMoves

structure Move (κ : Type*) where
  source : κ
  target : κ

variable {κ ν : Type*} [DecidableEq κ]

/-- The cells after a move. -/
def move (store : κ → Option ν) (m : Move κ) : κ → Option ν :=
  Function.update (Function.update store m.target (store m.source)) m.source none

/-- The cells after moves, and whether all of them were made. -/
def transfer (store : κ → Option ν) : List (Move κ) → (κ → Option ν) × Bool
  | [] => (store, true)
  | m :: ms => if (store m.source).isSome then transfer (move store m) ms else (store, false)

/-- No source is taken twice, and no move goes to the source of a later one or to its own. -/
structure Clear (ms : List (Move κ)) : Prop where
  sources : (ms.map Move.source).Nodup
  order : ms.Pairwise fun m later ↦ m.target ≠ later.source
  apart : ∀ m ∈ ms, m.target ≠ m.source

/-- Different sources go to different targets. -/
def Separate (ms : List (Move κ)) : Prop :=
  ∀ m ∈ ms, ∀ n ∈ ms, m.target = n.target → m.source = n.source

variable {store : κ → Option ν} {ms : List (Move κ)} {cell : κ}

/-! ## One move -/

theorem move_source (store : κ → Option ν) (m : Move κ) : move store m m.source = none :=
  Function.update_self _ _ _

theorem move_target {m : Move κ} (h : m.target ≠ m.source) :
    move store m m.target = store m.source := by
  rw [move, Function.update_of_ne h, Function.update_self]

theorem move_of_ne {m : Move κ} (hsource : cell ≠ m.source) (htarget : cell ≠ m.target) :
    move store m cell = store cell := by
  rw [move, Function.update_of_ne hsource, Function.update_of_ne htarget]

/-- A move empties no cell but its source. -/
theorem move_ne_none {m : Move κ} (hsource : store m.source ≠ none) (hne : cell ≠ m.source)
    (hcell : store cell ≠ none) : move store m cell ≠ none := by
  by_cases htarget : cell = m.target
  · subst htarget
    rwa [move_target hne]
  · rwa [move_of_ne hne htarget]

/-! ## A transfer -/

theorem transfer_cons_of_some {m : Move κ} (h : store m.source ≠ none) :
    transfer store (m :: ms) = transfer (move store m) ms :=
  if_pos (Option.isSome_iff_ne_none.mpr h)

theorem transfer_cons_of_none {m : Move κ} (h : store m.source = none) :
    transfer store (m :: ms) = (store, false) := by
  rw [transfer, h]
  rfl

theorem transfer_append (store : κ → Option ν) (ms ns : List (Move κ)) :
    transfer store (ms ++ ns) =
      if (transfer store ms).2 then transfer (transfer store ms).1 ns
      else transfer store ms := by
  induction ms generalizing store with
  | nil => rfl
  | cons m ms ih =>
    by_cases h : store m.source = none
    · rw [List.cons_append, transfer_cons_of_none h, transfer_cons_of_none h]
      rfl
    · rw [List.cons_append, transfer_cons_of_some h, transfer_cons_of_some h, ih]

/-- A transfer that stops leaves a source empty. -/
theorem exists_source_of_stopped (h : (transfer store ms).2 = false) :
    ∃ m ∈ ms, (transfer store ms).1 m.source = none := by
  induction ms generalizing store with
  | nil => cases h
  | cons m ms ih =>
    by_cases hm : store m.source = none
    · rw [transfer_cons_of_none hm]
      exact ⟨m, List.mem_cons_self, hm⟩
    · rw [transfer_cons_of_some hm] at h ⊢
      obtain ⟨n, hn, hnone⟩ := ih h
      exact ⟨n, List.mem_cons_of_mem m hn, hnone⟩

theorem transfer_of_ne (h : ∀ m ∈ ms, cell ≠ m.source ∧ cell ≠ m.target) :
    (transfer store ms).1 cell = store cell := by
  induction ms generalizing store with
  | nil => rfl
  | cons m ms ih =>
    obtain ⟨⟨hsource, htarget⟩, hms⟩ := List.forall_mem_cons.mp h
    by_cases hm : store m.source = none
    · rw [transfer_cons_of_none hm]
    · rw [transfer_cons_of_some hm, ih hms, move_of_ne hsource htarget]

/-- A cell that is empty stays so unless something goes there. -/
theorem transfer_eq_none (hcell : store cell = none) (h : ∀ m ∈ ms, cell ≠ m.target) :
    (transfer store ms).1 cell = none := by
  induction ms generalizing store with
  | nil => exact hcell
  | cons m ms ih =>
    obtain ⟨htarget, hms⟩ := List.forall_mem_cons.mp h
    by_cases hm : store m.source = none
    · rwa [transfer_cons_of_none hm]
    · rw [transfer_cons_of_some hm]
      apply ih _ hms
      by_cases hsource : cell = m.source
      · rw [hsource, move_source]
      · rwa [move_of_ne hsource htarget]

/-- No source is taken twice if all are there before. -/
theorem transfer_all (hsources : (ms.map Move.source).Nodup)
    (hthere : ∀ m ∈ ms, store m.source ≠ none) : (transfer store ms).2 = true := by
  induction ms generalizing store with
  | nil => rfl
  | cons m ms ih =>
    obtain ⟨hm, hms⟩ := List.forall_mem_cons.mp hthere
    rw [List.map_cons, List.nodup_cons] at hsources
    rw [transfer_cons_of_some hm]
    apply ih hsources.2
    intro n hn
    apply move_ne_none hm _ (hms n hn)
    intro heq
    exact hsources.1 (heq ▸ List.mem_map_of_mem hn)

/-- The two parts of a transfer that does not stop. -/
theorem transfer_split {front back : List (Move κ)}
    (h : (transfer store (front ++ back)).2 = true) :
    (transfer store front).2 = true ∧ (transfer (transfer store front).1 back).2 = true := by
  rw [transfer_append] at h
  split at h
  · next hfront => exact ⟨hfront, h⟩
  · next hfront => exact absurd h hfront

theorem source_ne_none_of_all {m : Move κ} (h : (transfer store (m :: ms)).2 = true) :
    store m.source ≠ none := by
  intro hnone
  rw [transfer_cons_of_none hnone] at h
  cases h

/-- A source to which nothing else goes is left empty. -/
theorem transfer_source (hall : (transfer store ms).2 = true) {m : Move κ} (hm : m ∈ ms)
    (h : ∀ n ∈ ms, m.source ≠ n.target) : (transfer store ms).1 m.source = none := by
  induction ms generalizing store with
  | nil => exact absurd hm List.not_mem_nil
  | cons n ms ih =>
    have hn := source_ne_none_of_all hall
    have hms := List.forall_mem_of_forall_mem_cons h
    rw [transfer_cons_of_some hn] at hall ⊢
    rcases List.mem_cons.mp hm with rfl | hrest
    · exact transfer_eq_none (move_source store m) hms
    · exact ih hall hrest hms

/-- An empty cell that is a source stops the transfer, unless something else goes there before. -/
theorem stops_of_empty (hcell : store cell = none) (hsource : cell ∈ ms.map Move.source)
    (h : ∀ m ∈ ms, m.target = cell → m.source = cell) : (transfer store ms).2 = false := by
  induction ms generalizing store with
  | nil => exact absurd hsource List.not_mem_nil
  | cons m ms ih =>
    obtain ⟨hm, hms⟩ := List.forall_mem_cons.mp h
    by_cases hnone : store m.source = none
    · rw [transfer_cons_of_none hnone]
    · have hne : cell ≠ m.source := fun heq ↦ hnone (heq ▸ hcell)
      have htarget : cell ≠ m.target := fun heq ↦ hne (hm heq.symm).symm
      rw [transfer_cons_of_some hnone]
      apply ih _ ((List.mem_cons.mp hsource).resolve_left hne) hms
      rwa [move_of_ne hne htarget]

/-- A source that is taken twice stops the transfer, unless something else goes there between. -/
theorem stops_of_twice (h : ∀ m ∈ ms, ∀ n ∈ ms, m.target = n.source → m.source = n.source)
    (htwice : ¬(ms.map Move.source).Nodup) : (transfer store ms).2 = false := by
  induction ms generalizing store with
  | nil => exact absurd List.nodup_nil htwice
  | cons m ms ih =>
    by_cases hnone : store m.source = none
    · rw [transfer_cons_of_none hnone]
    · rw [transfer_cons_of_some hnone]
      by_cases hagain : m.source ∈ ms.map Move.source
      · apply stops_of_empty (move_source store m) hagain
        exact fun n hn ↦ h n (List.mem_cons_of_mem m hn) m List.mem_cons_self
      · apply ih
        · intro n hn p hp
          exact h n (List.mem_cons_of_mem m hn) p (List.mem_cons_of_mem m hp)
        · intro hnodup
          rw [List.map_cons, List.nodup_cons] at htwice
          exact htwice ⟨hagain, hnodup⟩

/-! ## Arrival -/

omit [DecidableEq κ] in
theorem Separate.tail {m : Move κ} (h : Separate (m :: ms)) : Separate ms :=
  fun n hn p hp ↦ h n (List.mem_cons_of_mem m hn) p (List.mem_cons_of_mem m hp)

omit [DecidableEq κ] in
theorem clear_cons_iff {m : Move κ} : Clear (m :: ms) ↔
    m.source ∉ ms.map Move.source ∧ (∀ n ∈ ms, m.target ≠ n.source) ∧ m.target ≠ m.source ∧
      Clear ms := by
  constructor
  · rintro ⟨hsources, horder, hapart⟩
    rw [List.map_cons, List.nodup_cons] at hsources
    rw [List.pairwise_cons] at horder
    rw [List.forall_mem_cons] at hapart
    exact ⟨hsources.1, horder.1, hapart.1, hsources.2, horder.2, hapart.2⟩
  · rintro ⟨hnew, hfirst, hself, hsources, horder, hapart⟩
    refine ⟨?_, List.pairwise_cons.mpr ⟨hfirst, horder⟩, List.forall_mem_cons.mpr ⟨hself, hapart⟩⟩
    rw [List.map_cons, List.nodup_cons]
    exact ⟨hnew, hsources⟩

omit [DecidableEq κ] in
/-- Nothing else goes where the first move goes. -/
theorem Separate.target_ne {m : Move κ} (h : Separate (m :: ms))
    (hnew : m.source ∉ ms.map Move.source) : ∀ n ∈ ms, m.target ≠ n.target := by
  intro n hn heq
  apply hnew
  rw [h m List.mem_cons_self n (List.mem_cons_of_mem m hn) heq]
  exact List.mem_map_of_mem hn

theorem Clear.arrives (h : Clear ms) (hseparate : Separate ms)
    (hthere : ∀ m ∈ ms, store m.source ≠ none) {m : Move κ} (hm : m ∈ ms) :
    (transfer store ms).1 m.target = store m.source := by
  induction ms generalizing store with
  | nil => exact absurd hm List.not_mem_nil
  | cons n ms ih =>
    obtain ⟨hnew, hfirst, hself, hms⟩ := clear_cons_iff.mp h
    obtain ⟨hn, hrest⟩ := List.forall_mem_cons.mp hthere
    -- The first move leaves the sources of the others as they are.
    have hkept : ∀ p ∈ ms, move store n p.source = store p.source := by
      intro p hp
      apply move_of_ne
      · intro heq
        exact hnew (heq ▸ List.mem_map_of_mem hp)
      · exact (hfirst p hp).symm
    rw [transfer_cons_of_some hn]
    rcases List.mem_cons.mp hm with rfl | hlater
    · rw [transfer_of_ne, move_target hself]
      exact fun p hp ↦ ⟨hfirst p hp, hseparate.target_ne hnew p hp⟩
    · rw [← hkept m hlater]
      apply ih hms hseparate.tail _ hlater
      intro p hp
      rw [hkept p hp]
      exact hrest p hp

theorem clear_of_arrives (hsources : (ms.map Move.source).Nodup) (hseparate : Separate ms)
    (hthere : ∀ m ∈ ms, store m.source ≠ none)
    (h : ∀ m ∈ ms, (transfer store ms).1 m.target = store m.source) : Clear ms := by
  induction ms generalizing store with
  | nil => exact ⟨hsources, List.Pairwise.nil, List.forall_mem_nil _⟩
  | cons m ms ih =>
    have hall := transfer_all hsources hthere
    obtain ⟨hm, hrest⟩ := List.forall_mem_cons.mp hthere
    rw [transfer_cons_of_some hm] at hall h
    rw [List.map_cons, List.nodup_cons] at hsources
    obtain ⟨hfirst, hlater⟩ := List.forall_mem_cons.mp h
    have htargets := hseparate.target_ne hsources.1
    have hne : ∀ n ∈ ms, m.target ≠ n.source := by
      intro n hn heq
      apply hm
      rw [← hfirst, heq]
      exact transfer_source hall hn fun p hp ↦ heq ▸ htargets p hp
    have hself : m.target ≠ m.source := by
      intro heq
      apply hm
      rw [← hfirst]
      apply transfer_eq_none _ htargets
      rw [heq, move_source]
    have hkept : ∀ n ∈ ms, move store m n.source = store n.source := by
      intro n hn
      apply move_of_ne
      · intro heq
        exact hsources.1 (heq ▸ List.mem_map_of_mem hn)
      · exact (hne n hn).symm
    refine clear_cons_iff.mpr ⟨hsources.1, hne, hself,
      @ih (move store m) hsources.2 hseparate.tail ?_ ?_⟩
    · intro n hn
      rw [hkept n hn]
      exact hrest n hn
    · intro n hn
      rw [hkept n hn]
      exact hlater n hn

end PennCloud.Library.CellMoves
