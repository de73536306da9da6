import Csiebox.Lib.Chain
import Mathlib.Order.Basic

namespace Csiebox

open CellHeap

-- A chain node. `contain` is whatever the caller's `void*` stands for, and
-- `next` is an address in the table's heap (`none` is NULL).
structure HashNode (α : Type) where
  contain : α
  hashCode : Int
  next : Option Nat

-- `node` is the bucket array; the empty list is the NULL array of a zeroed `hash`.
structure Hash (α : Type) where
  node : List (Option Nat)
  n : Int
  heap : Heap (HashNode α)

variable {α : Type}

-- The zeroed structure that `init_hash` expects.
def Hash.zero : Hash α := { node := [], n := 0, heap := [] }

-- `malloc` says whether the allocation inside the call succeeds.
def initHash (malloc : Bool) (h : Hash α) (n : Int) : Int × Hash α :=
  if n ≤ 0 ∨ ¬h.node.isEmpty then (0, h)
  else if !malloc then (0, h)
  else (1, { h with node := List.replicate n.toNat none, n := n })

-- C's `%` truncates, so a negative code leaves a remainder in `(-n, 0]`.
def Hash.position (h : Hash α) (hashCode : Int) : Int :=
  let pos := hashCode.tmod h.n
  if pos < 0 then h.n + pos else pos

def Hash.bucket (h : Hash α) (pos : Int) : Option Nat := (h.node[pos.toNat]?).join

def Hash.setBucket (h : Hash α) (pos : Int) (p : Option Nat) : Hash α :=
  { h with node := h.node.set pos.toNat p }

-- The loops below follow `next` pointers; the fuel is the number of cells ever
-- allocated plus one, which a chain cannot exceed.
def Hash.fuel (h : Hash α) : Nat := h.heap.length + 1

-- The loop of `put_into_hash` stops at the last node, whose code is compared
-- after the loop. `none` is the early `return 0`.
def putWalk (heap : Heap (HashNode α)) (hashCode : Int) : Nat → Nat → Option Nat
  | 0, _ => none
  | fuel + 1, a =>
      match read heap a with
      | none => none
      | some node =>
          match node.next with
          | some next => if node.hashCode = hashCode then none else putWalk heap hashCode fuel next
          | none => if node.hashCode = hashCode then none else some a

def putIntoHash (malloc : Bool) (h : Hash α) (contain : α) (hashCode : Int) : Int × Hash α :=
  let pos := h.position hashCode
  match h.bucket pos with
  | none =>
      if !malloc then (0, h)
      else
        let newNode := h.heap.length
        let heap := alloc h.heap { contain, hashCode, next := none }
        (1, Hash.setBucket { h with heap } pos (some newNode))
  | some n =>
      match putWalk h.heap hashCode h.fuel n with
      | none => (0, h)
      | some last =>
          if !malloc then (0, h)
          else
            let newNode := h.heap.length
            let heap := alloc h.heap { contain, hashCode, next := none }
            match read heap last with
            | none => (0, h)
            | some node => (1, { h with heap := write heap last { node with next := some newNode } })

def getWalk (heap : Heap (HashNode α)) (hashCode : Int) : Nat → Option Nat → Option α
  | 0, _ => none
  | _, none => none
  | fuel + 1, some a =>
      match read heap a with
      | none => none
      | some node =>
          if node.hashCode = hashCode then some node.contain
          else getWalk heap hashCode fuel node.next

-- The second component is the `*contain` written through the out parameter.
def getFromHash (h : Hash α) (hashCode : Int) : Int × Option α :=
  match getWalk h.heap hashCode h.fuel (h.bucket (h.position hashCode)) with
  | none => (0, none)
  | some contain => (1, some contain)

-- The found node with its address and its predecessor `pre` (NULL at the head).
def delWalk (heap : Heap (HashNode α)) (hashCode : Int) :
    Nat → Option Nat → Option Nat → Option (Option Nat × Nat × HashNode α)
  | 0, _, _ => none
  | _, _, none => none
  | fuel + 1, pre, some a =>
      match read heap a with
      | none => none
      | some node =>
          if node.hashCode = hashCode then some (pre, a, node)
          else delWalk heap hashCode fuel (some a) node.next

def delFromHash (h : Hash α) (hashCode : Int) : Int × Option α × Hash α :=
  let pos := h.position hashCode
  match delWalk h.heap hashCode h.fuel none (h.bucket pos) with
  | none => (0, none, h)
  | some (pre, a, node) =>
      let unlinked := match pre with
        | some p =>
            match read h.heap p with
            | some preNode => { h with heap := write h.heap p { preNode with next := node.next } }
            | none => h
        -- the head's bucket is set to NULL, whatever follows the head
        | none => h.setBucket pos none
      (1, some node.contain, { unlinked with heap := free unlinked.heap a })

end Csiebox
