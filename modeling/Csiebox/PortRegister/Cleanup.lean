import Csiebox.PortRegister.Lemmas

namespace Csiebox.PortRegister

open CellHeap CBytes Hash

-- A record that some bucket chain of `record_hash` leads to.
def Stored (s : Registrar) (r : Nat) : Prop :=
  ∃ i < s.recordHash.node.length, ∃ cells,
    Links s.recordHash.heap (s.recordHash.bucket (i : Nat)) cells ∧ (r ∈ cells.map (·.2.contain))

def StoredRecord (s : Registrar) (r : Nat) (record : Record) : Prop :=
  Stored s r ∧ read s.records r = some record

def InRange (port : Int) : Prop :=
  defaultRegisterPort + 1 ≤ port ∧ port ≤ defaultRegisterPort + portReserveSize

-- The bucket lists of a registrar between two requests: every node's record is
-- allocated and holds a port of the range, and no record is stored twice.
structure Tidy (s : Registrar) (table : Nat → List (Int × Nat)) : Prop where
  rep : Rep s.recordHash table
  size : s.portReserve.length = portReserveSize
  ported : ∀ i < s.recordHash.node.length, ∀ e ∈ table i,
    ∃ record, read s.records e.2 = some record ∧ InRange record.port
  separate : ∀ i < s.recordHash.node.length, ∀ j < s.recordHash.node.length,
    ∀ e ∈ table i, ∀ e' ∈ table j, e.2 = e'.2 → e = e'

-- Somebody listens on the port of this entry's record.
def live (bindFails : Int → Bool) (records : Heap Record) (e : Int × Nat) : Bool :=
  match read records e.2 with
  | some record => bindFails record.port
  | none => false

-- What a cleanup leaves of a bucket: a dead first record takes the chain with it.
def survivors (bindFails : Int → Bool) (records : Heap Record) :
    List (Int × Nat) → List (Int × Nat)
  | [] => []
  | e :: es =>
      if live bindFails records e then e :: es.filter (live bindFails records) else []

theorem survivors_sublist (bindFails : Int → Bool) (records : Heap Record)
    (entries : List (Int × Nat)) : (survivors bindFails records entries).Sublist entries := by
  cases entries with
  | nil => exact List.Sublist.refl _
  | cons e es =>
      simp only [survivors]
      split_ifs
      · exact List.filter_sublist.cons_cons e
      · exact List.nil_sublist _

theorem live_survivors {bindFails : Int → Bool} {records : Heap Record}
    {entries : List (Int × Nat)} :
    ∀ e ∈ survivors bindFails records entries, live bindFails records e = true := by
  intro e he
  cases entries with
  | nil => simp [survivors] at he
  | cons first rest =>
      simp only [survivors] at he
      split_ifs at he with hfirst
      · rcases List.mem_cons.mp he with rfl | he
        · exact hfirst
        · exact (List.mem_filter.mp he).2
      · simp at he

section Walk

variable {s : Registrar} {table : Nat → List (Int × Nat)} {bindFails : Int → Bool}

theorem stored_iff (h : Tidy s table) {r : Nat} :
    Stored s r ↔ ∃ i < s.recordHash.node.length, ∃ e ∈ table i, e.2 = r := by
  constructor
  · rintro ⟨i, hi, cells, hc, hr⟩
    obtain ⟨cells', hc', he⟩ := h.rep.chains i hi
    obtain rfl := chain_unique hc hc'
    obtain ⟨cell, hcell, rfl⟩ := List.mem_map.mp hr
    exact ⟨i, hi, entry cell, he ▸ List.mem_map_of_mem hcell, rfl⟩
  · rintro ⟨i, hi, e, he, rfl⟩
    obtain ⟨cells, hc, hmap⟩ := h.rep.chains i hi
    rw [← hmap] at he
    obtain ⟨cell, hcell, rfl⟩ := List.mem_map.mp he
    exact ⟨i, hi, cells, hc, List.mem_map.mpr ⟨cell, hcell, rfl⟩⟩

-- The state after a walk that left `table'`: the records still stored have not
-- been touched.
structure Walked (s s' : Registrar) (table' : Nat → List (Int × Nat)) : Prop where
  tidy : Tidy s' table'
  n : s'.recordHash.n = s.recordHash.n
  kept : ∀ j < s.recordHash.node.length, ∀ e ∈ table' j, read s'.records e.2 = read s.records e.2

theorem Rep.length_congr {h h' : Hash Nat} {table table' : Nat → List (Int × Nat)} (hr : Rep h table)
    (hr' : Rep h' table') (hn : h'.n = h.n) : h'.node.length = h.node.length := by
  have hs := hr.size
  have hs' := hr'.size
  rw [hn] at hs'
  omega

theorem Walked.length {s' : Registrar} {table' : Nat → List (Int × Nat)} (h : Tidy s table)
    (hw : Walked s s' table') : s'.recordHash.node.length = s.recordHash.node.length :=
  Rep.length_congr h.rep hw.tidy.rep hw.n

theorem Walked.refl (h : Tidy s table) : Walked s s table := ⟨h, rfl, fun _ _ _ _ => rfl⟩

theorem Walked.trans {s' s'' : Registrar} {table' table'' : Nat → List (Int × Nat)}
    (h : Tidy s table) (h₁ : Walked s s' table') (h₂ : Walked s' s'' table'')
    (hsub : ∀ j, table'' j ⊆ table' j) : Walked s s'' table'' := by
  refine ⟨h₂.tidy, h₂.n.trans h₁.n, ?_⟩
  intro j hj e he
  rw [h₂.kept j (h₁.length h ▸ hj) e he]
  exact h₁.kept j hj e (hsub j he)

end Walk

end Csiebox.PortRegister
