import Csiebox.Hash.Rep

namespace Csiebox.Hash

open CellHeap

variable {α : Type}

section Spec

-- What the table is for: a finite map from hash codes to pointers.
abbrev CodeMap (α : Type) := Int → Option α

inductive Op (α : Type) where
  | put (contain : α) (code : Int)
  | get (code : Int)
  | del (code : Int)

-- The returned int, and the pointer left in `*contain`.
abbrev Reply (α : Type) := Int × Option α

def Op.run (h : Hash α) : Op α → Reply α × Hash α
  | .put contain code =>
      let r := putIntoHash true h contain code
      ((r.1, none), r.2)
  | .get code => (getFromHash h code, h)
  | .del code =>
      let r := delFromHash h code
      ((r.1, r.2.1), r.2.2)

def Op.spec (m : CodeMap α) : Op α → Reply α × CodeMap α
  | .put contain code =>
      match m code with
      | none => ((1, none), Function.update m code (some contain))
      | some _ => ((0, none), m)
  | .get code =>
      match m code with
      | none => ((0, none), m)
      | some x => ((1, some x), m)
  | .del code =>
      match m code with
      | none => ((0, none), m)
      | some x => ((1, some x), Function.update m code none)

def binding (h : Hash α) (code : Int) : Option α := (getFromHash h code).2

-- Along the whole run every reply is the map's reply, and in every state
-- every code has the binding the map gives it.
def BehavesAsMap : List (Op α) → Hash α → CodeMap α → Prop
  | [], h, m => ∀ code, binding h code = m code
  | op :: ops, h, m =>
      (∀ code, binding h code = m code) ∧ (op.run h).1 = (op.spec m).1 ∧
        BehavesAsMap ops (op.run h).2 (op.spec m).2

-- The node of `code` is the head of its chain and the chain goes on behind it.
def headWithSuccessor (h : Hash α) (code : Int) : Bool :=
  match (h.bucket (h.position code)).bind (read h.heap) with
  | none => false
  | some node => node.hashCode == code && node.next.isSome

def DeletesNoLongHead : List (Op α) → Hash α → Prop
  | [], _ => True
  | op :: ops, h =>
      (∀ code, op = .del code → headWithSuccessor h code = false) ∧
        DeletesNoLongHead ops (op.run h).2

end Spec

section Refinement

-- The bucket lists, read as a map.
def Models (h : Hash α) (m : CodeMap α) : Prop :=
  ∃ table, Rep h table ∧ ∀ code, m code = (table (slot h code)).lookup code

theorem models_binding {h : Hash α} {m : CodeMap α} (hm : Models h m) (code : Int) :
    binding h code = m code := by
  obtain ⟨table, hr, hmap⟩ := hm
  rw [binding, getFromHash_eq hr, hmap]
  cases (table (slot h code)).lookup code <;> rfl

theorem slot_congr {h h' : Hash α} (hn : h'.n = h.n) (code : Int) : slot h' code = slot h code := by
  simp only [slot, position_congr hn]

-- A new bucket list that changes the lookup of `code` only.
theorem models_update {h h' : Hash α} {table : Nat → List (Int × α)} {m : CodeMap α}
    (hmap : ∀ code, m code = (table (slot h code)).lookup code) (hn : h'.n = h.n) {code : Int}
    {entries : List (Int × α)} (hr : Rep h' (Function.update table (slot h code) entries))
    (value : Option α) (hself : entries.lookup code = value)
    (hother : ∀ c, c ≠ code → entries.lookup c = (table (slot h code)).lookup c) :
    Models h' (Function.update m code value) := by
  refine ⟨_, hr, ?_⟩
  intro c
  rw [slot_congr hn]
  by_cases hc : c = code
  · subst c
    rw [Function.update_self, Function.update_self, hself]
  · rw [Function.update_of_ne hc, hmap]
    by_cases hs : slot h c = slot h code
    · rw [hs, Function.update_self, hother c hc]
    · rw [Function.update_of_ne hs]

theorem eraseP_not_mem {code : Int} {entries : List (Int × α)} (hd : (codes entries).Nodup) :
    code ∉ codes (entries.eraseP (fun e => e.1 = code)) := by
  induction entries with
  | nil => simp
  | cons e es ih =>
      obtain ⟨hn, hes⟩ := List.nodup_cons.mp hd
      rw [List.eraseP_cons]
      by_cases he : e.1 = code
      · simpa [he] using he ▸ hn
      · simp only [he, decide_false, cond_false, codes_cons, List.mem_cons, not_or]
        exact ⟨Ne.symm he, ih hes⟩

theorem lookup_remaining_self {code : Int} {entries : List (Int × α)}
    (hd : (codes entries).Nodup) : (remaining code entries).lookup code = none := by
  cases entries with
  | nil => rfl
  | cons e es =>
      simp only [remaining]
      split_ifs with he
      · rfl
      · rw [lookup_eq_none, codes_cons, List.mem_cons, not_or]
        exact ⟨Ne.symm he, eraseP_not_mem (List.nodup_cons.mp hd).2⟩

theorem lookup_eraseP_ne {c code : Int} (hc : c ≠ code) (entries : List (Int × α)) :
    (entries.eraseP (fun e => e.1 = code)).lookup c = entries.lookup c := by
  induction entries with
  | nil => rfl
  | cons e es ih =>
      obtain ⟨c', x⟩ := e
      rw [List.eraseP_cons]
      by_cases he : c' = code
      · subst c'
        simp [lookup_cons_ne hc]
      · simp only [he, decide_false, cond_false, List.lookup_cons, ih]

theorem lookup_remaining_ne {c code : Int} {entries : List (Int × α)} (hc : c ≠ code)
    (hlong : ∀ x e es, entries ≠ (code, x) :: e :: es) :
    (remaining code entries).lookup c = entries.lookup c := by
  match entries with
  | [] => rfl
  | [(c', x)] =>
      simp only [remaining]
      split_ifs with he
      · exact (lookup_cons_ne (he ▸ hc) x []).symm
      · rfl
  | (c', x) :: e :: es =>
      have he : c' ≠ code := by
        rintro rfl
        exact hlong x e es rfl
      simp only [remaining, he, if_false, List.lookup_cons, lookup_eraseP_ne hc (e :: es)]

-- The test on the pointers, read on the bucket list.
theorem headWithSuccessor_iff {h : Hash α} {table : Nat → List (Int × α)} (hr : Rep h table)
    (code : Int) :
    headWithSuccessor h code = true ↔ ∃ x e es, table (slot h code) = (code, x) :: e :: es := by
  obtain ⟨cells, hc, he⟩ := hr.chains _ (slot_lt hr code)
  rw [headWithSuccessor, bucket_position hr.pos, ← he]
  match cells with
  | [] =>
      rw [show h.bucket (slot h code : Nat) = none from hc]
      simp
  | [(a, v)] =>
      obtain ⟨hp, hread, hend⟩ := hc
      rw [hp, Option.bind_some, hread]
      simp [show v.next = none from hend]
  | (a, v) :: (b, w) :: rest =>
      obtain ⟨hp, hread, hnext, -⟩ := hc
      rw [hp, Option.bind_some, hread]
      simp [hnext, entry]

theorem models_init {n : Int} (hn : 0 < n) :
    Models (initHash true (Hash.zero : Hash α) n).2 (fun _ => none) :=
  ⟨_, (initHash_rep hn).2, fun _ => rfl⟩

theorem put_step {h : Hash α} {m : CodeMap α} (hm : Models h m) (x : α) (code : Int) :
    ((Op.put x code).run h).1 = ((Op.put x code).spec m).1 ∧
      Models ((Op.put x code).run h).2 ((Op.put x code).spec m).2 := by
  obtain ⟨table, hr, hmap⟩ := hm
  simp only [Op.run, Op.spec]
  cases hl : m code with
  | some y =>
      have hbound : code ∈ codes (table (slot h code)) := by
        by_contra hn
        rw [hmap, lookup_eq_none.mpr hn] at hl
        simp at hl
      rw [putIntoHash_bound hr true x hbound]
      exact ⟨rfl, table, hr, hmap⟩
  | none =>
      rw [hmap, lookup_eq_none] at hl
      obtain ⟨hret, hn, hrep⟩ := putIntoHash_fresh hr x hl
      refine ⟨by rw [hret], models_update hmap hn hrep _ ?_ ?_⟩
      · simp [List.lookup_append, lookup_eq_none.mpr hl]
      · intro c hc
        simp [List.lookup_append, lookup_cons_ne hc]

theorem get_step {h : Hash α} {m : CodeMap α} (hm : Models h m) (code : Int) :
    ((Op.get code).run h).1 = ((Op.get code).spec m).1 ∧
      Models ((Op.get code).run h).2 ((Op.get code).spec m).2 := by
  obtain ⟨table, hr, hmap⟩ := hm
  simp only [Op.run, Op.spec, hmap, getFromHash_eq hr]
  cases hl : (table (slot h code)).lookup code with
  | none => exact ⟨rfl, table, hr, hmap⟩
  | some x => exact ⟨rfl, table, hr, hmap⟩

theorem del_step {h : Hash α} {m : CodeMap α} (hm : Models h m) {code : Int}
    (hsafe : headWithSuccessor h code = false) :
    ((Op.del code).run h).1 = ((Op.del code).spec m).1 ∧
      Models ((Op.del code).run h).2 ((Op.del code).spec m).2 := by
  obtain ⟨table, hr, hmap⟩ := hm
  simp only [Op.run, Op.spec]
  cases hl : m code with
  | none =>
      rw [hmap, lookup_eq_none] at hl
      rw [delFromHash_absent hr hl]
      exact ⟨rfl, table, hr, hmap⟩
  | some x =>
      have hbound : code ∈ codes (table (slot h code)) := by
        by_contra hn
        rw [hmap, lookup_eq_none.mpr hn] at hl
        simp at hl
      obtain ⟨hret, hptr, hn, hrep⟩ := delFromHash_present hr hbound
      have hlong : ∀ x e es, table (slot h code) ≠ (code, x) :: e :: es := by
        intro x e es hx
        rw [(headWithSuccessor_iff hr code).mpr ⟨x, e, es, hx⟩] at hsafe
        simp at hsafe
      refine ⟨by rw [hret, hptr, ← hmap, hl], models_update hmap hn hrep none ?_ ?_⟩
      · exact lookup_remaining_self (hr.distinct _ (slot_lt hr code))
      · exact fun c hc => lookup_remaining_ne hc hlong

theorem op_step {h : Hash α} {m : CodeMap α} (hm : Models h m) (op : Op α)
    (hsafe : ∀ code, op = .del code → headWithSuccessor h code = false) :
    (op.run h).1 = (op.spec m).1 ∧ Models (op.run h).2 (op.spec m).2 := by
  cases op with
  | put x code => exact put_step hm x code
  | get code => exact get_step hm code
  | del code => exact del_step hm (hsafe code rfl)

-- Deleting such a head drops the whole chain: the second node's binding is lost.
theorem del_long_head_loses {h : Hash α} {m : CodeMap α} (hm : Models h m) {code : Int}
    (hlong : headWithSuccessor h code = true) :
    ∃ c, binding ((Op.del code).run h).2 c ≠ ((Op.del code).spec m).2 c := by
  obtain ⟨table, hr, hmap⟩ := hm
  obtain ⟨x, ⟨c, y⟩, es, ht⟩ := (headWithSuccessor_iff hr code).mp hlong
  have hbound : code ∈ codes (table (slot h code)) := by simp [ht]
  obtain ⟨-, -, hn, hrep⟩ := delFromHash_present hr hbound
  have hdistinct := hr.distinct _ (slot_lt hr code)
  rw [ht] at hdistinct
  simp only [codes_cons, List.nodup_cons, List.mem_cons, not_or] at hdistinct
  have hc : c ≠ code := Ne.symm hdistinct.1.1
  have hslot : slot h c = slot h code := by
    have hpos := hr.home _ (slot_lt hr code) (c, y) (by simp [ht])
    exact_mod_cast (slot_spec hr.pos c).trans hpos
  have hspec : ((Op.del code).spec m).2 c = some y := by
    simp [Op.spec, hmap, ht, Function.update_of_ne hc, hslot, lookup_cons_ne hc]
  refine ⟨c, ?_⟩
  have hlost : binding ((Op.del code).run h).2 c = none := by
    rw [binding, Op.run, getFromHash_eq hrep, slot_congr hn, hslot, Function.update_self, ht]
    simp [remaining]
  rw [hlost, hspec]
  simp

theorem behaves_iff {h : Hash α} {m : CodeMap α} (hm : Models h m) (ops : List (Op α)) :
    BehavesAsMap ops h m ↔ DeletesNoLongHead ops h := by
  induction ops generalizing h m with
  | nil => exact ⟨fun _ => trivial, fun _ => models_binding hm⟩
  | cons op ops ih =>
      constructor
      · rintro ⟨-, -, hrest⟩
        have hsafe : ∀ code, op = .del code → headWithSuccessor h code = false := by
          rintro code rfl
          by_contra hlong
          obtain ⟨c, hc⟩ := del_long_head_loses hm (Bool.not_eq_false _ ▸ hlong)
          cases ops with
          | nil => exact hc (hrest c)
          | cons op' ops => exact hc (hrest.1 c)
        exact ⟨hsafe, (ih (op_step hm op hsafe).2).mp hrest⟩
      · rintro ⟨hsafe, hrest⟩
        obtain ⟨hreply, hm'⟩ := op_step hm op hsafe
        exact ⟨models_binding hm, hreply, (ih hm').mpr hrest⟩

end Refinement

-- After `init_hash` the table is a finite map along exactly the runs that
-- never delete the head of a chain with further nodes.
theorem table_behaves_as_map_iff {n : Int} (hn : 0 < n) (ops : List (Op α)) :
    (initHash true (Hash.zero : Hash α) n).1 = 1 ∧
      (BehavesAsMap ops (initHash true (Hash.zero : Hash α) n).2 (fun _ => none) ↔
        DeletesNoLongHead ops (initHash true (Hash.zero : Hash α) n).2) :=
  ⟨(initHash_rep hn).1, behaves_iff (models_init hn) ops⟩

theorem table_behaves_as_map_three :
    (initHash true (Hash.zero : Hash Nat) 3).1 = 1 ∧
      (BehavesAsMap [.put 7 (-4), .put 8 2, .del 2, .get (-4)]
          (initHash true (Hash.zero : Hash Nat) 3).2 (fun _ => none) ↔
        DeletesNoLongHead [.put 7 (-4), .put 8 2, .del 2, .get (-4)]
          (initHash true (Hash.zero : Hash Nat) 3).2) :=
  table_behaves_as_map_iff (by decide) _

-- Codes 0 and 100 share a bucket of the registrar's table; deleting code 0
-- makes code 100 unbound.
theorem del_head_drops_chain :
    ¬BehavesAsMap [Op.put 1 0, .put 2 100, .del 0]
      (initHash true (Hash.zero : Hash Nat) 100).2 (fun _ => none) := by
  rintro ⟨-, -, -, -, -, -, hend⟩
  exact absurd (hend 100) (by decide)

end Csiebox.Hash
