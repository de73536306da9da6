import Mathlib.Data.List.Nodup
import Mathlib.Data.List.Perm.Subperm

namespace CellHeap

variable {ν : Type}

-- A heap of cells indexed by address. A freed cell reads as `none`, and
-- allocation always appends, so an address is never handed out twice.
abbrev Heap (ν : Type) := List (Option ν)

def read (heap : Heap ν) (a : Nat) : Option ν := (heap[a]?).join

def alloc (heap : Heap ν) (v : ν) : Heap ν := heap ++ [some v]

def write (heap : Heap ν) (a : Nat) (v : ν) : Heap ν := heap.set a (some v)

def free (heap : Heap ν) (a : Nat) : Heap ν := heap.set a none

theorem read_lt {heap : Heap ν} {a : Nat} {v : ν} (h : read heap a = some v) : a < heap.length := by
  by_contra hn
  simp [read, List.getElem?_eq_none (Nat.le_of_not_lt hn)] at h

@[simp] theorem read_alloc_new (heap : Heap ν) (v : ν) : read (alloc heap v) heap.length = some v := by
  simp [read, alloc]

theorem read_alloc_old {heap : Heap ν} {a : Nat} (v : ν) (h : a < heap.length) :
    read (alloc heap v) a = read heap a := by
  simp [read, alloc, List.getElem?_append_left h]

theorem read_write_self {heap : Heap ν} {a : Nat} (v : ν) (h : a < heap.length) :
    read (write heap a v) a = some v := by
  simp [read, write, h]

theorem read_write_ne {heap : Heap ν} {a b : Nat} (v : ν) (h : a ≠ b) :
    read (write heap a v) b = read heap b := by
  simp [read, write, List.getElem?_set_ne h]

theorem read_free_ne {heap : Heap ν} {a b : Nat} (h : a ≠ b) :
    read (free heap a) b = read heap b := by
  simp [read, free, List.getElem?_set_ne h]

section Segments

variable (next : ν → Option Nat)

-- `Seg next heap p cells q`: following `next` from `p` meets exactly `cells`
-- and arrives at `q`. A null-terminated chain ends at `none`.
def Seg (heap : Heap ν) : Option Nat → List (Nat × ν) → Option Nat → Prop
  | p, [], q => p = q
  | p, (a, v) :: rest, q => p = some a ∧ read heap a = some v ∧ Seg heap (next v) rest q

abbrev Chain (heap : Heap ν) (p : Option Nat) (cells : List (Nat × ν)) : Prop :=
  Seg next heap p cells none

variable {next} {heap : Heap ν}

theorem seg_append {p q : Option Nat} {xs ys : List (Nat × ν)} :
    Seg next heap p (xs ++ ys) q ↔ ∃ m, Seg next heap p xs m ∧ Seg next heap m ys q := by
  induction xs generalizing p with
  | nil => simp [Seg]
  | cons cell xs ih =>
      simp only [List.cons_append, Seg, ih]
      constructor
      · rintro ⟨hp, hr, m, hx, hy⟩
        exact ⟨m, ⟨hp, hr, hx⟩, hy⟩
      · rintro ⟨m, ⟨hp, hr, hx⟩, hy⟩
        exact ⟨hp, hr, m, hx, hy⟩

theorem chain_none {cells : List (Nat × ν)} (h : Chain next heap none cells) : cells = [] := by
  cases cells with
  | nil => rfl
  | cons cell rest =>
      obtain ⟨hp, -⟩ := h
      simp at hp

theorem seg_read {p q : Option Nat} {cells : List (Nat × ν)} (h : Seg next heap p cells q)
    {a : Nat} {v : ν} (hm : (a, v) ∈ cells) : read heap a = some v := by
  induction cells generalizing p with
  | nil => simp at hm
  | cons cell rest ih =>
      obtain ⟨-, hr, hs⟩ := h
      rcases List.mem_cons.mp hm with rfl | hm
      · exact hr
      · exact ih hs hm

-- A chain is determined by the heap and its first address.
theorem chain_unique {p : Option Nat} {xs ys : List (Nat × ν)}
    (hx : Chain next heap p xs) (hy : Chain next heap p ys) : xs = ys := by
  induction xs generalizing p ys with
  | nil =>
      cases ys with
      | nil => rfl
      | cons cell rest =>
          obtain rfl : p = none := hx
          obtain ⟨hp, -⟩ := hy
          simp at hp
  | cons cell xs ih =>
      obtain ⟨a, v⟩ := cell
      obtain ⟨rfl, hr, hs⟩ := hx
      cases ys with
      | nil => simp [Seg] at hy
      | cons cell' ys =>
          obtain ⟨b, w⟩ := cell'
          obtain ⟨hab, hr', hs'⟩ := hy
          obtain rfl : a = b := Option.some.inj hab
          obtain rfl : v = w := Option.some.inj (hr.symm.trans hr')
          rw [ih hs hs']

-- Meeting an address twice would make a proper suffix equal to the whole
-- chain, so the addresses of a null-terminated chain are pairwise distinct.
theorem chain_nodup {p : Option Nat} {cells : List (Nat × ν)}
    (h : Chain next heap p cells) : (cells.map Prod.fst).Nodup := by
  induction cells generalizing p with
  | nil => simp
  | cons cell rest ih =>
      obtain ⟨a, v⟩ := cell
      obtain ⟨hp, hr, hs⟩ := h
      simp only [List.map_cons, List.nodup_cons]
      refine ⟨?_, ih hs⟩
      intro hm
      obtain ⟨⟨b, w⟩, hmem, rfl⟩ := List.mem_map.mp hm
      obtain ⟨before, after, rfl⟩ := List.append_of_mem hmem
      obtain ⟨m, -, hb, hw, hafter⟩ := seg_append.mp hs
      have hwhole : Chain next heap (some b) ((b, v) :: (before ++ (b, w) :: after)) :=
        ⟨rfl, hr, hs⟩
      have hsuffix : Chain next heap (some b) ((b, w) :: after) := ⟨rfl, hw, hafter⟩
      have hlen := congrArg List.length (chain_unique hwhole hsuffix)
      simp only [List.length_cons, List.length_append] at hlen
      omega

theorem chain_length_le {p : Option Nat} {cells : List (Nat × ν)}
    (h : Chain next heap p cells) : cells.length ≤ heap.length := by
  have hsub : cells.map Prod.fst ⊆ List.range heap.length := by
    intro a ha
    obtain ⟨⟨b, v⟩, hm, rfl⟩ := List.mem_map.mp ha
    exact List.mem_range.mpr (read_lt (seg_read h hm))
  simpa using ((chain_nodup h).subperm hsub).length_le

-- A heap change that keeps the cells of a segment keeps the segment.
theorem seg_transport {heap' : Heap ν} {p q : Option Nat} {cells : List (Nat × ν)}
    (h : Seg next heap p cells q)
    (hkeep : ∀ a ∈ cells.map Prod.fst, read heap' a = read heap a) :
    Seg next heap' p cells q := by
  induction cells generalizing p with
  | nil => exact h
  | cons cell rest ih =>
      obtain ⟨hp, hr, hs⟩ := h
      refine ⟨hp, (hkeep _ (by simp)).trans hr, ih hs ?_⟩
      intro a ha
      exact hkeep a (by simp only [List.map_cons, List.mem_cons]; exact Or.inr ha)

end Segments

end CellHeap
