import Mathlib.Data.List.Induction

/-!
# Walks along a path

The components of a path move a position in a tree of directories: stay, up or down. Whatever the
start is, the walk goes up a number of levels and then down some names. A walk ends below a directory
exactly if it comes down again by the names of the directories that it left.
-/

namespace PennCloud.Library.PathWalk

variable {α : Type*}

inductive Move (α : Type*)
  | stay
  | up
  | down (name : α)
  deriving DecidableEq

/-- The position is the list of names from the root, and there is nothing above the root. -/
def Move.apply (position : List α) : Move α → List α
  | .stay => position
  | .up => position.dropLast
  | .down name => position ++ [name]

def walk (position : List α) (moves : List (Move α)) : List α := moves.foldl Move.apply position

theorem walk_append (position : List α) (moves more : List (Move α)) :
    walk position (moves ++ more) = walk (walk position moves) more := List.foldl_append

theorem walk_cons (position : List α) (move : Move α) (moves : List (Move α)) :
    walk position (move :: moves) = walk (move.apply position) moves := rfl

/-- Levels up, then names down. -/
structure Route (α : Type*) where
  ups : ℕ := 0
  names : List α := []

def Route.add (route : Route α) : Move α → Route α
  | .stay => route
  | .up =>
    if route.names = [] then { route with ups := route.ups + 1 }
    else { route with names := route.names.dropLast }
  | .down name => { route with names := route.names ++ [name] }

/-- The route of a walk, its detours left out. -/
def routeOf (moves : List (Move α)) : Route α := moves.foldl Route.add {}

theorem routeOf_concat (moves : List (Move α)) (move : Move α) :
    routeOf (moves ++ [move]) = (routeOf moves).add move := by
  rw [routeOf, List.foldl_append]
  rfl

theorem walk_eq (position : List α) (moves : List (Move α)) :
    walk position moves =
      position.take (position.length - (routeOf moves).ups) ++ (routeOf moves).names := by
  induction moves using List.reverseRecOn with
  | nil => simp [walk, routeOf]
  | append_singleton moves move ih =>
    rw [walk_append, ih, routeOf_concat]
    cases move with
    | stay => rfl
    | down name => exact List.append_assoc _ _ _
    | up =>
      simp only [walk, List.foldl_cons, List.foldl_nil, Move.apply, Route.add]
      split
      · next hnames =>
        rw [hnames, List.append_nil, List.append_nil, List.dropLast_eq_take, List.take_take,
          List.length_take]
        congr 1
        dsimp only
        omega
      · next hnames => exact List.dropLast_append_of_ne_nil hnames

/-- A walk that starts beside or in a directory ends below it. -/
theorem prefix_walk_iff (base : List α) (dir start : α) (moves : List (Move α)) :
    base ++ [dir] <+: walk (base ++ [start]) moves ↔
      ((routeOf moves).ups = 0 → start = dir) ∧
        (base ++ [dir]).drop (base.length + 1 - (routeOf moves).ups) <+: (routeOf moves).names := by
  rw [walk_eq, List.length_append, List.length_singleton]
  generalize (routeOf moves).ups = ups, (routeOf moves).names = names
  cases ups with
  | zero =>
    have hlength : base.length + 1 = (base ++ [start]).length := by simp
    have hdrop : (base ++ [dir]).drop (base.length + 1) = [] := by simp
    rw [Nat.sub_zero, hdrop, and_iff_left List.nil_prefix, hlength, List.take_length,
      List.append_assoc, List.prefix_append_right_inj, List.singleton_append,
      List.cons_prefix_cons, and_iff_left List.nil_prefix]
    exact ⟨fun heq _ ↦ heq.symm, fun heq ↦ (heq rfl).symm⟩
  | succ ups =>
    have hle : base.length + 1 - (ups + 1) ≤ base.length := by omega
    have htake : (base ++ [dir]).take (base.length + 1 - (ups + 1)) =
        (base ++ [start]).take (base.length + 1 - (ups + 1)) := by
      rw [List.take_append_of_le_length hle, List.take_append_of_le_length hle]
    rw [and_iff_right fun hzero ↦ absurd hzero (Nat.succ_ne_zero ups), ← htake]
    nth_rewrite 1 [← List.take_append_drop (base.length + 1 - (ups + 1)) (base ++ [dir])]
    exact List.prefix_append_right_inj _

end PennCloud.Library.PathWalk
