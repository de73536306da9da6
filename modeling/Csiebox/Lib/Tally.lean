import Mathlib.Algebra.BigOperators.Group.Finset.Basic
import Mathlib.Algebra.Order.BigOperators.Group.Finset
import Mathlib.Algebra.BigOperators.Fin
import Mathlib.Tactic.Abel

namespace Tally

variable {ι α M : Type*} [Fintype ι]

-- What the members of a population contribute together.
def tally [AddCommMonoid M] (f : α → M) (w : ι → α) : M :=
  ∑ i, f (w i)

section Sum

variable [AddCommMonoid M] (f : α → M) (w : ι → α)

theorem tally_update [DecidableEq ι] (i : ι) (a : α) :
    tally f (Function.update w i a) + f (w i) = tally f w + f a := by
  have hrest : ∑ j ∈ Finset.univ.erase i, f (Function.update w i a j) = ∑ j ∈ Finset.univ.erase i,
    f (w j) :=
    Finset.sum_congr rfl fun j hj => by rw [Function.update_of_ne (Finset.ne_of_mem_erase hj)]
  rw [tally, tally, ← Finset.add_sum_erase _ _ (Finset.mem_univ i), hrest, Function.update_self,
    ← Finset.add_sum_erase _ (fun j => f (w j)) (Finset.mem_univ i)]
  abel

theorem tally_eq [DecidableEq ι] {w : ι → α} {i : ι} {a : α} (h : f a = f (w i)) :
    tally f (Function.update w i a) = tally f w := by
  have hsame : ∀ j, f (Function.update w i a j) = f (w j) := by
    intro j
    by_cases hj : j = i
    · rw [hj, Function.update_self, h]
    · rw [Function.update_of_ne hj]
  exact Finset.sum_congr rfl fun j _ => hsame j

theorem tally_zero {w : ι → α} (h : ∀ i, f (w i) = 0) : tally f w = 0 :=
  Finset.sum_eq_zero fun i _ => h i

theorem tally_congr {f : α → M} {w w' : ι → α} (h : ∀ i, f (w i) = f (w' i)) : tally f w = tally f w' :=
  Finset.sum_congr rfl fun i _ => h i

end Sum

section Nat

variable (f : α → Nat) (w : ι → α)

-- Changes of at most `b` each.
theorem tally_le_add {w w' : ι → α} {b : Nat} (h : ∀ i, f (w' i) ≤ f (w i) + b) :
    tally f w' ≤ tally f w + Fintype.card ι * b := by
  calc tally f w' ≤ ∑ i, (f (w i) + b) := Finset.sum_le_sum fun i _ => h i
    _ = tally f w + Fintype.card ι * b := by simp [tally, Finset.sum_add_distrib]

end Nat

end Tally
