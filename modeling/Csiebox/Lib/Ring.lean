import Mathlib.Logic.Function.Basic
import Mathlib.Data.List.Basic

namespace Ring

variable {τ : Type*}

-- What a ring of `size` slots holds, its oldest element first.
def contents (slots : Nat → τ) (size head count : Nat) : List τ :=
  (List.range count).map fun i => slots ((head + i) % size)

-- The indices of a ring agree with each other and stay inside the array.
structure Inside (size head tail count : Nat) : Prop where
  headLt : head < size
  tailEq : tail = (head + count) % size
  countLe : count ≤ size

variable {slots : Nat → τ} {size head tail count : Nat}

@[simp] theorem contents_zero : contents slots size head 0 = [] := rfl

@[simp] theorem length_contents : (contents slots size head count).length = count := by
  simp [contents]

theorem Inside.tail_lt (h : Inside size head tail count) : tail < size := by
  rw [h.tailEq]
  exact Nat.mod_lt _ (by have := h.headLt; omega)

theorem Inside.empty (h : 0 < size) : Inside size 0 0 0 :=
  ⟨h, by simp, by omega⟩

theorem Inside.push (h : Inside size head tail count) (hroom : count ≠ size) :
    Inside size head ((tail + 1) % size) (count + 1) := by
  refine ⟨h.headLt, ?_, ?_⟩
  · rw [h.tailEq, Nat.mod_add_mod, Nat.add_assoc]
  · have := h.countLe
    omega

theorem Inside.pop (h : Inside size head tail count) (hcount : count ≠ 0) :
    Inside size ((head + 1) % size) tail (count - 1) := by
  refine ⟨Nat.mod_lt _ ?_, ?_, ?_⟩
  · have := h.headLt
    omega
  · rw [h.tailEq, Nat.mod_add_mod]
    congr 1
    omega
  · have := h.countLe
    omega

-- Two places less than a round apart are different slots.
theorem mod_ne_of_lt {i j : Nat} (hij : i < j) (hj : j < size) : (head + i) % size ≠ (head + j) % size := by
  intro h
  have hd : size ∣ (head + j) - (head + i) := Nat.dvd_of_mod_eq_zero (Nat.sub_mod_eq_zero_of_mod_eq h.symm)
  have := Nat.le_of_dvd (by omega) hd
  omega

theorem contents_push (h : Inside size head tail count) (hroom : count ≠ size) (x : τ) :
    contents (Function.update slots tail x) size head (count + 1) =
      contents slots size head count ++ [x] := by
  have hcount := h.countLe
  simp only [contents, List.range_succ, List.map_append, List.map_cons, List.map_nil]
  rw [← h.tailEq, Function.update_self]
  congr 1
  apply List.map_congr_left
  intro i hi
  rw [List.mem_range] at hi
  rw [Function.update_of_ne]
  rw [h.tailEq]
  exact mod_ne_of_lt hi (by omega)

theorem contents_pop (h : Inside size head tail count) (hcount : count ≠ 0) :
    contents slots size head count =
      slots head :: contents slots size ((head + 1) % size) (count - 1) := by
  obtain ⟨n, rfl⟩ := Nat.exists_eq_succ_of_ne_zero hcount
  simp only [contents, Nat.succ_eq_add_one, Nat.add_sub_cancel, List.range_succ_eq_map, List.map_cons,
    List.map_map, Nat.add_zero, Nat.mod_eq_of_lt h.headLt]
  congr 1
  apply List.map_congr_left
  intro i _
  simp only [Function.comp, Nat.mod_add_mod]
  congr 2
  omega

end Ring
