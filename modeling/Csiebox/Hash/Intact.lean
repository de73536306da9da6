import Csiebox.Hash.Rep

namespace Csiebox.Hash

open CellHeap

variable {α : Type}

-- The nodes of bucket `i`: its head and, from each node on, the one behind it.
inductive Reaches (h : Hash α) (i : Nat) : Nat → Prop where
  | head {a : Nat} : h.bucket i = some a → Reaches h i a
  | next {a b : Nat} {node : HashNode α} :
      Reaches h i a → read h.heap a = some node → node.next = some b → Reaches h i b

-- What every operation relies on and leaves behind.
structure Intact (h : Hash α) : Prop where
  size : (h.node.length : Int) = h.n
  index : ∀ code, 0 ≤ h.position code ∧ h.position code < h.n
  home : ∀ i < h.node.length, ∀ a, Reaches h i a →
    ∃ node, read h.heap a = some node ∧ h.position node.hashCode = i
  distinct : ∀ i < h.node.length, ∀ j < h.node.length, ∀ a b node node',
    Reaches h i a → Reaches h j b → read h.heap a = some node → read h.heap b = some node' →
      node.hashCode = node'.hashCode → a = b

-- A call by a user of the table; `malloc` is the outcome of the allocation that
-- a put may make.
inductive Call (α : Type) where
  | put (malloc : Bool) (contain : α) (code : Int)
  | get (code : Int)
  | del (code : Int)

def Call.run (h : Hash α) : Call α → Hash α
  | .put malloc contain code => (putIntoHash malloc h contain code).2
  | .get _ => h
  | .del code => (delFromHash h code).2.2

def runCalls (h : Hash α) (calls : List (Call α)) : Hash α := calls.foldl Call.run h

section Chains

variable {h : Hash α} {table : Nat → List (Int × α)}

theorem reaches_mem {i a : Nat} {cells : List (Nat × HashNode α)}
    (hc : Links h.heap (h.bucket i) cells) (ha : Reaches h i a) : ∃ node, (a, node) ∈ cells := by
  induction ha with
  | head hb =>
      rw [hb] at hc
      cases cells with
      | nil => simp [Seg] at hc
      | cons cell rest =>
          obtain ⟨hab, -, -⟩ := hc
          exact ⟨cell.2, by rw [Option.some.inj hab]; exact List.mem_cons_self⟩
  | next _ hr hn ih =>
      obtain ⟨node, hm⟩ := ih
      obtain rfl := Option.some.inj ((seg_read hc hm).symm.trans hr)
      obtain ⟨before, after, rfl⟩ := List.append_of_mem hm
      obtain ⟨-, -, -, -, hrest⟩ := seg_append.mp hc
      rw [hn] at hrest
      cases after with
      | nil => simp [Seg] at hrest
      | cons cell rest =>
          obtain ⟨hab, -, -⟩ := hrest
          exact ⟨cell.2, by rw [Option.some.inj hab]; simp⟩

-- A node found from bucket `i` is one of the entries the bucket stands for.
theorem Rep.entry_of_reaches (hr : Rep h table) {i a : Nat} (hi : i < h.node.length)
    (ha : Reaches h i a) : ∃ node, read h.heap a = some node ∧ entry (a, node) ∈ table i := by
  obtain ⟨cells, hc, he⟩ := hr.chains i hi
  obtain ⟨node, hm⟩ := reaches_mem hc ha
  exact ⟨node, seg_read hc hm, he ▸ List.mem_map_of_mem hm⟩

theorem Rep.home_of_reaches (hr : Rep h table) {i a : Nat} (hi : i < h.node.length)
    (ha : Reaches h i a) {node : HashNode α} (hnode : read h.heap a = some node) :
    h.position node.hashCode = i := by
  obtain ⟨node', hr', hm⟩ := hr.entry_of_reaches hi ha
  obtain rfl := Option.some.inj (hnode.symm.trans hr')
  exact hr.home i hi _ hm

-- Nodes of one code sit in one bucket, where codes are distinct.
theorem Rep.distinct_of_reaches (hr : Rep h table) {i j a b : Nat} (hi : i < h.node.length)
    (hj : j < h.node.length) {node node' : HashNode α} (ha : Reaches h i a) (hb : Reaches h j b)
    (hna : read h.heap a = some node) (hnb : read h.heap b = some node')
    (hcode : node.hashCode = node'.hashCode) : a = b := by
  have hpi := hr.home_of_reaches hi ha hna
  have hpj := hr.home_of_reaches hj hb hnb
  obtain rfl : i = j := by
    rw [hcode] at hpi
    exact_mod_cast hpi.symm.trans hpj
  obtain ⟨cells, hc, he⟩ := hr.chains i hi
  obtain ⟨v, hv⟩ := reaches_mem hc ha
  obtain ⟨w, hw⟩ := reaches_mem hc hb
  obtain rfl := Option.some.inj ((seg_read hc hv).symm.trans hna)
  obtain rfl := Option.some.inj ((seg_read hc hw).symm.trans hnb)
  have hdistinct := hr.distinct i hi
  have hcodes : codes (table i) = cells.map (fun cell => cell.2.hashCode) := by
    rw [← he, codes, List.map_map]
    rfl
  rw [hcodes] at hdistinct
  have hcell := List.inj_on_of_nodup_map hdistinct hv hw hcode
  exact congrArg Prod.fst hcell

theorem Rep.intact (hr : Rep h table) : Intact h where
  size := hr.size
  index := position_range hr.pos
  home := by
    intro i hi a ha
    obtain ⟨node, hnode, -⟩ := hr.entry_of_reaches hi ha
    exact ⟨node, hnode, hr.home_of_reaches hi ha hnode⟩
  distinct := by
    intro i hi j hj a b node node' ha hb hna hnb hcode
    exact hr.distinct_of_reaches hi hj ha hb hna hnb hcode

end Chains

section Runs

theorem put_rep {h : Hash α} {table : Nat → List (Int × α)} (hr : Rep h table) (malloc : Bool)
    (x : α) (code : Int) :
    (putIntoHash malloc h x code).2.n = h.n ∧
      ∃ table', Rep (putIntoHash malloc h x code).2 table' := by
  cases malloc with
  | false =>
      rw [putIntoHash_noMemory]
      exact ⟨rfl, table, hr⟩
  | true =>
      by_cases hm : code ∈ codes (table (slot h code))
      · rw [putIntoHash_bound hr true x hm]
        exact ⟨rfl, table, hr⟩
      · obtain ⟨-, hn, hrep⟩ := putIntoHash_fresh hr x hm
        exact ⟨hn, _, hrep⟩

theorem del_rep {h : Hash α} {table : Nat → List (Int × α)} (hr : Rep h table) (code : Int) :
    (delFromHash h code).2.2.n = h.n ∧ ∃ table', Rep (delFromHash h code).2.2 table' := by
  by_cases hm : code ∈ codes (table (slot h code))
  · obtain ⟨-, -, hn, hrep⟩ := delFromHash_present hr hm
    exact ⟨hn, _, hrep⟩
  · rw [delFromHash_absent hr hm]
    exact ⟨rfl, table, hr⟩

theorem call_rep {h : Hash α} {table : Nat → List (Int × α)} (hr : Rep h table) (call : Call α) :
    (call.run h).n = h.n ∧ ∃ table', Rep (call.run h) table' := by
  cases call with
  | put malloc contain code => exact put_rep hr malloc contain code
  | get code => exact ⟨rfl, table, hr⟩
  | del code => exact del_rep hr code

theorem runCalls_rep {h : Hash α} {table : Nat → List (Int × α)} (hr : Rep h table)
    (calls : List (Call α)) :
    (runCalls h calls).n = h.n ∧ ∃ table', Rep (runCalls h calls) table' := by
  induction calls generalizing h table with
  | nil => exact ⟨rfl, table, hr⟩
  | cons call calls ih =>
      obtain ⟨hn, table', hr'⟩ := call_rep hr call
      obtain ⟨hn', hrest⟩ := ih hr'
      exact ⟨hn'.trans hn, hrest⟩

-- The table is intact after every sequence of calls, and so at every call of
-- a longer one.
theorem table_stays_intact {n : Int} (hn : 0 < n) (calls : List (Call α)) :
    (runCalls (initHash true (Hash.zero : Hash α) n).2 calls).n = n ∧
      Intact (runCalls (initHash true (Hash.zero : Hash α) n).2 calls) := by
  obtain ⟨hlen, table, hr⟩ := runCalls_rep (initHash_rep (α := α) hn).2 calls
  refine ⟨?_, hr.intact⟩
  have hsize : (initHash true (Hash.zero : Hash α) n).2.n = n := by
    have hnot : ¬(n ≤ 0 ∨ ¬(Hash.zero : Hash α).node.isEmpty) := by
      simp [Hash.zero]; omega
    simp only [initHash, hnot, if_false, Bool.not_true, Bool.false_eq_true]
  rw [hlen, hsize]

-- INT_MIN and codes that share a bucket with it.
theorem table_stays_intact_min :
    (runCalls (initHash true (Hash.zero : Hash Nat) 3).2
        [.put true 5 (-2147483648), .put true 6 1, .put false 7 2, .del 1, .get 1]).n = 3 ∧
      Intact (runCalls (initHash true (Hash.zero : Hash Nat) 3).2
        [.put true 5 (-2147483648), .put true 6 1, .put false 7 2, .del 1, .get 1]) :=
  table_stays_intact (by decide) _

end Runs

end Csiebox.Hash
