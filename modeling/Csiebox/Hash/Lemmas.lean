import Csiebox.Hash
import Mathlib.Data.List.Basic
import Mathlib.Data.List.Nodup

namespace Csiebox.Hash

open CellHeap

variable {α : Type}

abbrev Links (heap : Heap (HashNode α)) (p : Option Nat) (cells : List (Nat × HashNode α)) : Prop :=
  Chain HashNode.next heap p cells

def entry (cell : Nat × HashNode α) : Int × α := (cell.2.hashCode, cell.2.contain)

def codes (entries : List (Int × α)) : List Int := entries.map Prod.fst

@[simp] theorem entry_fst (cell : Nat × HashNode α) : (entry cell).1 = cell.2.hashCode := rfl

@[simp] theorem codes_nil : codes ([] : List (Int × α)) = [] := rfl

@[simp] theorem codes_cons (e : Int × α) (es : List (Int × α)) : codes (e :: es) = e.1 :: codes es := rfl

@[simp] theorem codes_append (xs ys : List (Int × α)) : codes (xs ++ ys) = codes xs ++ codes ys :=
  List.map_append

theorem lookup_cons_ne {c code : Int} (h : c ≠ code) (x : α) (es : List (Int × α)) :
    ((code, x) :: es).lookup c = es.lookup c := by
  have hb : (c == code) = false := beq_eq_false_iff_ne.mpr h
  simp [List.lookup_cons, hb]

theorem lookup_eq_none {entries : List (Int × α)} {code : Int} :
    entries.lookup code = none ↔ code ∉ codes entries := by
  induction entries with
  | nil => simp
  | cons e es ih =>
      obtain ⟨c, x⟩ := e
      by_cases h : code = c
      · simp [h]
      · simp [lookup_cons_ne h, h, ih]

section Walks

variable {heap : Heap (HashNode α)} {code : Int} {fuel : Nat}

theorem getWalk_eq {p : Option Nat} {cells : List (Nat × HashNode α)}
    (h : Links heap p cells) (hf : cells.length < fuel) :
    getWalk heap code fuel p = (cells.map entry).lookup code := by
  induction cells generalizing p fuel with
  | nil =>
      obtain rfl : p = none := h
      cases fuel with
      | zero => simp at hf
      | succ fuel => rfl
  | cons cell rest ih =>
      obtain ⟨a, v⟩ := cell
      obtain ⟨rfl, hr, hs⟩ := h
      cases fuel with
      | zero => simp at hf
      | succ fuel =>
          have hi := ih hs (Nat.lt_of_succ_lt_succ hf)
          simp only [getWalk, hr, hi, List.map_cons, entry]
          by_cases hc : v.hashCode = code
          · simp [hc]
          · simp [hc, lookup_cons_ne (Ne.symm hc)]

theorem putWalk_eq {a : Nat} {cells : List (Nat × HashNode α)}
    (h : Links heap (some a) cells) (hf : cells.length < fuel) :
    putWalk heap code fuel a =
      if code ∈ codes (cells.map entry) then none else (cells.getLast?).map Prod.fst := by
  induction cells generalizing a fuel with
  | nil => simp [Seg] at h
  | cons cell rest ih =>
      obtain ⟨b, v⟩ := cell
      obtain ⟨hab, hr, hs⟩ := h
      obtain rfl : a = b := Option.some.inj hab
      cases fuel with
      | zero => simp at hf
      | succ fuel =>
          simp only [putWalk, hr, List.map_cons, codes_cons, List.mem_cons, entry]
          cases hn : v.next with
          | none =>
              rw [hn] at hs
              obtain rfl := chain_none hs
              by_cases hc : v.hashCode = code
              · simp [hc]
              · simp [hc, Ne.symm hc]
          | some next =>
              rw [hn] at hs
              have hi := ih hs (Nat.lt_of_succ_lt_succ hf)
              have hne : rest ≠ [] := by
                rintro rfl
                simp [Seg] at hs
              by_cases hc : v.hashCode = code
              · simp [hc]
              · simp only [hc, if_false, hi, Ne.symm hc, false_or, List.getLast?_cons]
                rw [List.getLast?_eq_some_getLast hne]
                rfl

theorem delWalk_absent {pre p : Option Nat} {cells : List (Nat × HashNode α)}
    (h : Links heap p cells) (hc : code ∉ codes (cells.map entry)) :
    delWalk heap code fuel pre p = none := by
  induction cells generalizing pre p fuel with
  | nil =>
      obtain rfl : p = none := h
      cases fuel <;> rfl
  | cons cell rest ih =>
      obtain ⟨a, v⟩ := cell
      obtain ⟨rfl, hr, hs⟩ := h
      simp only [List.map_cons, codes_cons, entry, List.mem_cons, not_or] at hc
      cases fuel with
      | zero => rfl
      | succ fuel => simp only [delWalk, hr, Ne.symm hc.1, if_false, ih hs hc.2]

theorem delWalk_found {pre p : Option Nat} {before after : List (Nat × HashNode α)}
    {a : Nat} {v : HashNode α} (h : Links heap p (before ++ (a, v) :: after))
    (hc : code ∉ codes (before.map entry)) (hv : v.hashCode = code)
    (hf : before.length < fuel) :
    delWalk heap code fuel pre p = some ((before.getLast?.map Prod.fst).or pre, a, v) := by
  induction before generalizing pre p fuel with
  | nil =>
      obtain ⟨rfl, hr, -⟩ := h
      cases fuel with
      | zero => simp at hf
      | succ fuel => simp [delWalk, hr, hv]
  | cons cell before ih =>
      obtain ⟨b, w⟩ := cell
      obtain ⟨rfl, hr, hs⟩ := h
      simp only [List.map_cons, codes_cons, entry, List.mem_cons, not_or] at hc
      cases fuel with
      | zero => simp at hf
      | succ fuel =>
          have hi := @ih fuel (some b) _ hs hc.2 (Nat.lt_of_succ_lt_succ hf)
          simp only [delWalk, hr, Ne.symm hc.1, if_false, hi, List.getLast?_cons]
          cases before.getLast? <;> simp

end Walks

end Csiebox.Hash
