import Mathlib.Data.List.Infix

namespace Lexical

-- A path component: "." and the empty component stay, ".." goes up.
inductive Move (ν : Type) where
  | stay
  | up
  | down (name : ν)

-- Where a path leads without looking at any directory: `ups` levels above its
-- start and from there down along `names`, the innermost name first.
structure Place (ν : Type) where
  ups : Nat
  names : List ν
deriving DecidableEq

variable {ν : Type}

def Place.start : Place ν := ⟨0, []⟩

-- Above a root there is only the root.
def Place.move (rooted : Bool) : Place ν → Move ν → Place ν
  | p, .stay => p
  | ⟨ups, _ :: names⟩, .up => ⟨ups, names⟩
  | ⟨ups, []⟩, .up => ⟨if rooted then ups else ups + 1, []⟩
  | ⟨ups, names⟩, .down name => ⟨ups, name :: names⟩

def Place.walk (rooted : Bool) (p : Place ν) (moves : List (Move ν)) : Place ν :=
  moves.foldl (Place.move rooted) p

-- The place that `q` leads to from `p`.
def Place.join (rooted : Bool) (p q : Place ν) : Place ν :=
  ⟨if rooted then p.ups else p.ups + (q.ups - p.names.length), q.names ++ p.names.drop q.ups⟩

-- `q` is `p` or lies below it.
def Place.Below (p q : Place ν) : Prop := q.ups = p.ups ∧ p.names <:+ q.names

-- From `p` the place `q` does not leave `p`, or comes back through the names it
-- has left.
def Place.Returns (rooted : Bool) (p q : Place ν) : Prop :=
  (rooted = true ∨ q.ups ≤ p.names.length) ∧ p.names.take q.ups <:+ q.names

@[simp] theorem Place.join_start (rooted : Bool) (p : Place ν) : p.join rooted .start = p := by
  simp [Place.join, Place.start]

theorem Place.move_join (rooted : Bool) (p q : Place ν) (m : Move ν) :
    (p.join rooted q).move rooted m = p.join rooted (q.move false m) := by
  obtain ⟨k, names⟩ := q
  cases m with
  | stay => rfl
  | down name => rfl
  | up =>
      cases names with
      | cons name names => rfl
      | nil =>
          cases hdrop : p.names.drop k with
          | nil =>
              have hlen := List.drop_eq_nil_iff.mp hdrop
              cases rooted <;> simp only [Place.join, List.nil_append, hdrop, Place.move] <;>
                simp <;> omega
          | cons name rest =>
              have hlen : k < p.names.length := by
                by_contra hle
                rw [List.drop_eq_nil_of_le (Nat.le_of_not_lt hle)] at hdrop
                simp at hdrop
              have hnext : p.names.drop (k + 1) = rest := by
                rw [← List.drop_drop, hdrop, List.drop_one, List.tail_cons]
              have hups : k + 1 - p.names.length = k - p.names.length := by omega
              simp [Place.join, hdrop, Place.move, hnext, hups]

-- A path read from `p` on is the path read on its own, joined to `p`.
theorem Place.walk_join (rooted : Bool) (p q : Place ν) (moves : List (Move ν)) :
    (p.join rooted q).walk rooted moves = p.join rooted (q.walk false moves) := by
  induction moves generalizing q with
  | nil => rfl
  | cons m moves ih =>
      simp only [Place.walk, List.foldl_cons] at ih ⊢
      rw [Place.move_join, ih]

theorem Place.below_join_iff (rooted : Bool) (p q : Place ν) :
    p.Below (p.join rooted q) ↔ p.Returns rooted q := by
  have hups : (p.join rooted q).ups = p.ups ↔ rooted = true ∨ q.ups ≤ p.names.length := by
    cases rooted <;> simp [Place.join, Nat.sub_eq_zero_iff_le]
  have hnames : p.names <:+ (p.join rooted q).names ↔ p.names.take q.ups <:+ q.names := by
    constructor
    · rintro ⟨front, hfront⟩
      refine ⟨front, ?_⟩
      have hsplit : p.names = p.names.take q.ups ++ p.names.drop q.ups := (List.take_append_drop ..).symm
      simp only [Place.join] at hfront
      nth_rewrite 1 [hsplit] at hfront
      rw [← List.append_assoc] at hfront
      exact List.append_cancel_right hfront
    · rintro ⟨front, hfront⟩
      refine ⟨front, ?_⟩
      simp only [Place.join]
      rw [← hfront, List.append_assoc, List.take_append_drop]
  rw [Place.Below, Place.Returns, hups, hnames]

instance [DecidableEq ν] (rooted : Bool) (p q : Place ν) : Decidable (p.Returns rooted q) :=
  inferInstanceAs (Decidable (_ ∧ _))

section Links

-- The text of a symbolic link leads on from the root or from the directory it lies in.
structure LinkText (ν : Type) where
  rooted : Bool
  moves : List (Move ν)

-- A walk from the root comes to a place, the outermost name first, or to a link.
inductive Walked (ν : Type) where
  | arrived (place : List ν)
  | link (dir : List ν) (moves : List (Move ν))

-- Only a walk that follows looks at what its last name is.
def pass (links : List ν → Option (LinkText ν)) (follow : Bool) : List ν → List (Move ν) → Walked ν
  | place, [] => .arrived place
  | place, .stay :: moves => pass links follow place moves
  | place, .up :: moves => pass links follow place.dropLast moves
  | place, .down name :: moves =>
      if moves.isEmpty && !follow then .arrived (place ++ [name])
      else match links (place ++ [name]) with
        | none => pass links follow (place ++ [name]) moves
        | some text => .link (if text.rooted then [] else place) (text.moves ++ moves)

-- Where a path really leads; `none` once there are too many links on the way.
def arrive (links : List ν → Option (LinkText ν)) (follow : Bool) :
    Nat → List ν → List (Move ν) → Option (List ν)
  | 0, _, _ => none
  | fuel + 1, place, moves =>
      match pass links follow place moves with
      | .arrived place => some place
      | .link dir moves => arrive links follow fuel dir moves

end Links

end Lexical
