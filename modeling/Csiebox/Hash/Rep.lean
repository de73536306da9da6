import Csiebox.Hash.Lemmas
import Mathlib.Logic.Function.Basic

namespace Csiebox.Hash

open CellHeap

variable {α : Type}

-- The bucket lists a table stands for: every bucket is a null-terminated chain
-- of its own nodes, a node lies in the bucket of its code, and codes are distinct.
structure Rep (h : Hash α) (table : Nat → List (Int × α)) : Prop where
  pos : 0 < h.n
  size : (h.node.length : Int) = h.n
  chains : ∀ i < h.node.length, ∃ cells, Links h.heap (h.bucket i) cells ∧ cells.map entry = table i
  home : ∀ i < h.node.length, ∀ e ∈ table i, h.position e.1 = i
  distinct : ∀ i < h.node.length, (codes (table i)).Nodup

def slot (h : Hash α) (code : Int) : Nat := (h.position code).toNat

theorem position_congr {h h' : Hash α} (hn : h'.n = h.n) (code : Int) :
    h'.position code = h.position code := by
  simp only [Hash.position, hn]

theorem position_range {h : Hash α} (hpos : 0 < h.n) (code : Int) :
    0 ≤ h.position code ∧ h.position code < h.n := by
  have hlo := Int.lt_tmod_of_pos code hpos
  have hhi := Int.tmod_lt_of_pos code hpos
  unfold Hash.position
  constructor <;> (dsimp only; split_ifs <;> omega)

theorem slot_spec {h : Hash α} (hpos : 0 < h.n) (code : Int) :
    (slot h code : Int) = h.position code :=
  Int.toNat_of_nonneg (position_range hpos code).1

theorem slot_lt {h : Hash α} {table : Nat → List (Int × α)} (hr : Rep h table) (code : Int) :
    slot h code < h.node.length := by
  have hs := slot_spec hr.pos code
  have hp := (position_range hr.pos code).2
  have hz := hr.size
  omega

@[simp] theorem bucket_natCast (h : Hash α) (i : Nat) : h.bucket (i : Int) = (h.node[i]?).join := by
  simp [Hash.bucket]

theorem bucket_position {h : Hash α} (hpos : 0 < h.n) (code : Int) :
    h.bucket (h.position code) = h.bucket (slot h code : Nat) := by
  rw [slot_spec hpos]

-- A cell met in two buckets has one code, hence one bucket.
theorem Rep.bucket_of_cell {h : Hash α} {table : Nat → List (Int × α)} (hr : Rep h table)
    {i j : Nat} (hi : i < h.node.length) (hj : j < h.node.length)
    {xs ys : List (Nat × HashNode α)} (hx : Links h.heap (h.bucket i) xs)
    (hy : Links h.heap (h.bucket j) ys) {a : Nat}
    (hax : a ∈ xs.map Prod.fst) (hay : a ∈ ys.map Prod.fst) : i = j := by
  obtain ⟨⟨b, v⟩, hv, rfl⟩ := List.mem_map.mp hax
  obtain ⟨⟨b', w⟩, hw, hab⟩ := List.mem_map.mp hay
  obtain rfl : b' = b := hab
  have hvw : v = w := Option.some.inj ((seg_read hx hv).symm.trans (seg_read hy hw))
  subst w
  obtain ⟨xs', hx', hex⟩ := hr.chains i hi
  obtain ⟨ys', hy', hey⟩ := hr.chains j hj
  obtain rfl := chain_unique hx hx'
  obtain rfl := chain_unique hy hy'
  have hpi := hr.home i hi (entry (b', v)) (hex ▸ List.mem_map_of_mem hv)
  have hpj := hr.home j hj (entry (b', v)) (hey ▸ List.mem_map_of_mem hw)
  exact_mod_cast hpi.symm.trans hpj

-- An operation that rewires one bucket and leaves every other allocated cell
-- alone changes exactly that bucket's list.
theorem Rep.update {h : Hash α} {table : Nat → List (Int × α)} (hr : Rep h table)
    (h' : Hash α) {i : Nat} (hi : i < h.node.length) (hn : h'.n = h.n)
    (hlen : h'.node.length = h.node.length)
    (hbucket : ∀ j : Nat, j ≠ i → h'.bucket j = h.bucket j)
    {cells : List (Nat × HashNode α)} (hcells : Links h.heap (h.bucket i) cells)
    (hkeep : ∀ a < h.heap.length, a ∉ cells.map Prod.fst → read h'.heap a = read h.heap a)
    (cells' : List (Nat × HashNode α)) (hcells' : Links h'.heap (h'.bucket i) cells')
    {entries : List (Int × α)}
    (hentries : cells'.map entry = entries)
    (hhome : ∀ e ∈ entries, h.position e.1 = i) (hdistinct : (codes entries).Nodup) :
    Rep h' (Function.update table i entries) where
  pos := hn ▸ hr.pos
  size := by rw [hlen, hn]; exact hr.size
  chains := by
    intro j hj
    rw [hlen] at hj
    by_cases hji : j = i
    · subst j
      exact ⟨cells', hcells', by rw [Function.update_self, hentries]⟩
    · obtain ⟨other, ho, he⟩ := hr.chains j hj
      refine ⟨other, ?_, by rw [Function.update_of_ne hji, he]⟩
      rw [hbucket j hji]
      apply seg_transport ho
      intro a ha
      obtain ⟨⟨b, v⟩, hv, rfl⟩ := List.mem_map.mp ha
      exact hkeep b (read_lt (seg_read ho hv))
        (fun hm => hji (hr.bucket_of_cell hj hi ho hcells ha hm))
  home := by
    intro j hj e he
    rw [hlen] at hj
    rw [position_congr hn]
    by_cases hji : j = i
    · subst j
      exact hhome e (by simpa using he)
    · exact hr.home j hj e (by simpa [Function.update_of_ne hji] using he)
  distinct := by
    intro j hj
    rw [hlen] at hj
    by_cases hji : j = i
    · subst j
      simpa using hdistinct
    · simpa [Function.update_of_ne hji] using hr.distinct j hj

theorem initHash_rep {n : Int} (hn : 0 < n) :
    (initHash true (Hash.zero : Hash α) n).1 = 1 ∧
      Rep (initHash true (Hash.zero : Hash α) n).2 (fun _ => []) := by
  have hnot : ¬(n ≤ 0 ∨ ¬(Hash.zero : Hash α).node.isEmpty) := by
    simp [Hash.zero]; omega
  simp only [initHash, hnot, if_false, Bool.not_true, Bool.false_eq_true]
  refine ⟨trivial, ⟨hn, by simp; omega, ?_, by simp, by simp⟩⟩
  intro i hi
  refine ⟨[], ?_, rfl⟩
  simp only [List.length_replicate] at hi
  simp [Links, Seg, hi]

section Operations

variable {h : Hash α} {table : Nat → List (Int × α)}

theorem eq_nil_or_snoc (cells : List (Nat × HashNode α)) :
    cells = [] ∨ ∃ init a node, cells = init ++ [(a, node)] := by
  rcases List.eq_nil_or_concat cells with rfl | ⟨init, ⟨a, node⟩, h⟩
  · exact Or.inl rfl
  · exact Or.inr ⟨init, a, node, by rw [h, List.concat_eq_append]⟩

theorem fuel_ok {p : Option Nat} {cells : List (Nat × HashNode α)}
    (hc : Links h.heap p cells) : cells.length < h.fuel :=
  Nat.lt_succ_of_le (chain_length_le hc)

theorem getFromHash_eq (hr : Rep h table) (code : Int) :
    getFromHash h code =
      match (table (slot h code)).lookup code with
      | none => (0, none)
      | some x => (1, some x) := by
  obtain ⟨cells, hc, he⟩ := hr.chains _ (slot_lt hr code)
  cases hlookup : (table (slot h code)).lookup code <;>
    simp only [getFromHash, bucket_position hr.pos, getWalk_eq hc (fuel_ok hc), he, hlookup]

theorem putIntoHash_bound (hr : Rep h table) (malloc : Bool) (x : α) {code : Int}
    (hm : code ∈ codes (table (slot h code))) :
    putIntoHash malloc h x code = (0, h) := by
  obtain ⟨cells, hc, he⟩ := hr.chains _ (slot_lt hr code)
  rw [← he] at hm
  simp only [putIntoHash, bucket_position hr.pos]
  cases hb : h.bucket (slot h code : Nat) with
  | none =>
      rw [hb] at hc
      simp [chain_none hc] at hm
  | some a =>
      rw [hb] at hc
      simp [putWalk_eq hc (fuel_ok hc), hm]

theorem putIntoHash_noMemory (h : Hash α) (x : α) (code : Int) :
    putIntoHash false h x code = (0, h) := by
  simp only [putIntoHash]
  split
  · rfl
  · split <;> rfl

-- Appending at the end of the bucket: the new node hangs off the bucket when
-- the chain is empty and off the last node otherwise.
theorem putIntoHash_fresh (hr : Rep h table) (x : α) {code : Int}
    (hm : code ∉ codes (table (slot h code))) :
    (putIntoHash true h x code).1 = 1 ∧
      (putIntoHash true h x code).2.n = h.n ∧
      Rep (putIntoHash true h x code).2
        (Function.update table (slot h code) (table (slot h code) ++ [(code, x)])) := by
  have hi := slot_lt hr code
  obtain ⟨cells, hc, he⟩ := hr.chains _ hi
  have hhome : ∀ e ∈ table (slot h code) ++ [(code, x)], h.position e.1 = (slot h code : Nat) := by
    intro e hm
    rcases List.mem_append.mp hm with hm | hm
    · exact hr.home _ hi e hm
    · obtain rfl := List.mem_singleton.mp hm
      exact (slot_spec hr.pos code).symm
  have hdistinct : (codes (table (slot h code) ++ [(code, x)])).Nodup := by
    simp only [codes_append, codes_cons, codes_nil]
    exact List.nodup_append.mpr ⟨hr.distinct _ hi, by simp, by
      rintro a ha b hb rfl
      exact hm ((List.mem_singleton.mp hb) ▸ ha)⟩
  let fresh : HashNode α := { contain := x, hashCode := code, next := none }
  rcases eq_nil_or_snoc cells with rfl | ⟨init, last, node, rfl⟩
  · have hb : h.bucket (slot h code : Nat) = none := hc
    let h' := Hash.setBucket { h with heap := alloc h.heap fresh } (slot h code : Nat)
      (some h.heap.length)
    have hput : putIntoHash true h x code = (1, h') := by
      simp only [putIntoHash]
      rw [bucket_position hr.pos, hb]
      simp [h', fresh, slot_spec hr.pos]
    rw [hput]
    refine ⟨rfl, rfl, hr.update h' hi rfl (by simp [h', Hash.setBucket]) ?_ hc ?_
      [(h.heap.length, fresh)] ?_ (by simp [← he, entry, fresh]) hhome hdistinct⟩
    · intro j hj
      simp [h', Hash.setBucket, List.getElem?_set_ne (Ne.symm hj)]
    · intro a ha _
      exact read_alloc_old fresh ha
    · simp [Links, Seg, h', Hash.setBucket, hi, fresh]
  · obtain ⟨m, hinit, rfl, hread, hend⟩ := seg_append.mp hc
    obtain ⟨first, hb⟩ : ∃ first, h.bucket (slot h code : Nat) = some first := by
      cases hb : h.bucket (slot h code : Nat) with
      | none => rw [hb] at hc; simpa using chain_none hc
      | some first => exact ⟨first, rfl⟩
    have hwalk : putWalk h.heap code h.fuel first = some last := by
      rw [hb] at hc
      rw [putWalk_eq hc (fuel_ok hc), he, if_neg hm]
      simp
    have hlt := read_lt hread
    let linked : HashNode α := { node with next := some h.heap.length }
    let h' : Hash α := { h with heap := write (alloc h.heap fresh) last linked }
    have hput : putIntoHash true h x code = (1, h') := by
      have hnew := (read_alloc_old fresh hlt).trans hread
      simp [putIntoHash, bucket_position hr.pos, hb, hwalk, fresh, hnew, linked, h']
    have hlast : ∀ a ∈ init.map Prod.fst, last ≠ a := by
      rintro a ha rfl
      have hnodup := chain_nodup hc
      simp only [List.map_append, List.map_cons, List.map_nil] at hnodup
      exact (List.nodup_append.mp hnodup).2.2 last ha last (by simp) rfl
    rw [hput]
    refine ⟨rfl, rfl, hr.update h' hi rfl rfl (fun _ _ => rfl) hc ?_
      (init ++ [(last, linked), (h.heap.length, fresh)]) ?_
      (by simp [← he, entry, fresh, linked]) hhome hdistinct⟩
    · intro a ha hn
      have hne : last ≠ a := by
        rintro rfl
        simp at hn
      rw [read_write_ne _ hne, read_alloc_old fresh ha]
    · refine seg_append.mpr ⟨some last, seg_transport hinit ?_, rfl, ?_, rfl, ?_, rfl⟩
      · intro a ha
        obtain ⟨⟨b, v⟩, hv, rfl⟩ := List.mem_map.mp ha
        rw [read_write_ne _ (hlast b ha), read_alloc_old fresh (read_lt (seg_read hinit hv))]
      · exact read_write_self _ (by simp [alloc]; omega)
      · rw [read_write_ne _ (by omega), read_alloc_new]

-- What `del_from_hash` leaves of the bucket that holds `code`: nothing at all
-- when the deleted node is the first one.
def remaining (code : Int) : List (Int × α) → List (Int × α)
  | [] => []
  | e :: es => if e.1 = code then [] else e :: es.eraseP (fun e => e.1 = code)

theorem delFromHash_absent (hr : Rep h table) {code : Int}
    (hm : code ∉ codes (table (slot h code))) :
    delFromHash h code = (0, none, h) := by
  obtain ⟨cells, hc, he⟩ := hr.chains _ (slot_lt hr code)
  rw [← he] at hm
  simp only [delFromHash, bucket_position hr.pos, delWalk_absent hc hm]

theorem remaining_sublist (code : Int) (entries : List (Int × α)) :
    (remaining code entries).Sublist entries := by
  cases entries with
  | nil => exact List.Sublist.refl _
  | cons e es =>
      simp only [remaining]
      split_ifs
      · exact List.nil_sublist _
      · exact (List.eraseP_sublist).cons_cons e

theorem remaining_append {code : Int} {x : α} {xs ys : List (Int × α)}
    (hc : code ∉ codes xs) (hne : xs ≠ []) :
    remaining code (xs ++ (code, x) :: ys) = xs ++ ys := by
  cases xs with
  | nil => exact absurd rfl hne
  | cons e es =>
      simp only [codes_cons, List.mem_cons, not_or] at hc
      have hnone : ∀ e ∈ es, ¬decide (e.1 = code) = true := by
        intro e he hce
        exact hc.2 (of_decide_eq_true hce ▸ List.mem_map_of_mem he)
      simp [remaining, Ne.symm hc.1, List.eraseP_append_right _ hnone]

-- The deletion of a chain's first node clears the bucket, whatever follows it.
theorem delFromHash_head (hr : Rep h table) {code : Int} {a : Nat} {v : HashNode α}
    {after : List (Nat × HashNode α)}
    (hc : Links h.heap (h.bucket (slot h code : Nat)) ((a, v) :: after)) (hv : v.hashCode = code) :
    delFromHash h code =
      (1, some v.contain,
        { h.setBucket (slot h code : Nat) none with heap := free h.heap a }) := by
  have hfound := @delWalk_found _ _ _ h.fuel none _ [] _ _ _ hc (by simp) hv (Nat.succ_pos _)
  simp only [delFromHash]
  rw [bucket_position hr.pos, hfound]
  simp [slot_spec hr.pos, Hash.setBucket]

-- Any other node is bridged by its predecessor.
theorem delFromHash_inner (hr : Rep h table) {code : Int} {p a : Nat} {pre v : HashNode α}
    {init after : List (Nat × HashNode α)}
    (hc : Links h.heap (h.bucket (slot h code : Nat)) (init ++ (p, pre) :: (a, v) :: after))
    (habsent : code ∉ codes ((init ++ [(p, pre)]).map entry)) (hv : v.hashCode = code) :
    delFromHash h code =
      (1, some v.contain,
        { h with heap := free (write h.heap p { pre with next := v.next }) a }) := by
  have hread : read h.heap p = some pre := seg_read hc (by simp)
  have hsplit : init ++ (p, pre) :: (a, v) :: after = init ++ [(p, pre)] ++ (a, v) :: after := by
    simp
  rw [hsplit] at hc
  have hfuel : (init ++ [(p, pre)]).length < h.fuel := by
    have hlen := fuel_ok hc
    simp only [List.length_append, List.length_cons] at hlen ⊢
    omega
  have hfound := @delWalk_found _ _ _ _ none _ _ _ _ _ hc habsent hv hfuel
  simp only [delFromHash]
  rw [bucket_position hr.pos, hfound]
  simp [hread]

-- Bridging a node leaves the other cells alone and the chain without it.
theorem bridge_links {heap : Heap (HashNode α)} {q : Option Nat} {p a : Nat} {pre v : HashNode α}
    {init after : List (Nat × HashNode α)}
    (hc : Links heap q (init ++ (p, pre) :: (a, v) :: after)) :
    let heap' := free (write heap p { pre with next := v.next }) a
    (∀ b, b ≠ p → b ≠ a → read heap' b = read heap b) ∧
      Seg HashNode.next heap' q (init ++ [(p, { pre with next := v.next })]) v.next ∧
      Links heap' v.next after := by
  intro heap'
  have haddr := chain_nodup hc
  obtain ⟨m, hinit, rfl, hpre, hpa, hav, hafter⟩ := seg_append.mp hc
  simp only [List.map_append, List.map_cons] at haddr
  obtain ⟨-, htail, happ⟩ := List.nodup_append.mp haddr
  obtain ⟨hp', ha'⟩ := List.nodup_cons.mp htail
  have hpne : p ≠ a := fun hpa => hp' (hpa ▸ List.mem_cons_self)
  have hkeep : ∀ b, b ≠ p → b ≠ a → read heap' b = read heap b := by
    intro b hbp hba
    rw [read_free_ne (Ne.symm hba), read_write_ne _ (Ne.symm hbp)]
  refine ⟨hkeep, seg_append.mpr ⟨some p, seg_transport hinit ?_, rfl, ?_, rfl⟩,
    seg_transport hafter ?_⟩
  · intro b hb
    exact hkeep b (happ b hb p (by simp)) (happ b hb a (by simp))
  · rw [read_free_ne (Ne.symm hpne)]
    exact read_write_self _ (read_lt hpre)
  · intro b hb
    apply hkeep b
    · rintro rfl
      exact hp' (List.mem_cons_of_mem _ hb)
    · rintro rfl
      exact (List.nodup_cons.mp ha').1 hb

-- The unlinking of a node: through its predecessor when it has one, by
-- clearing the bucket when it is the head.
theorem delFromHash_present (hr : Rep h table) {code : Int}
    (hm : code ∈ codes (table (slot h code))) :
    (delFromHash h code).1 = 1 ∧
      (delFromHash h code).2.1 = (table (slot h code)).lookup code ∧
      (delFromHash h code).2.2.n = h.n ∧
      Rep (delFromHash h code).2.2
        (Function.update table (slot h code) (remaining code (table (slot h code)))) := by
  have hi := slot_lt hr code
  obtain ⟨cells, hc, he⟩ := hr.chains _ hi
  have hsub := remaining_sublist code (table (slot h code))
  have hhome : ∀ e ∈ remaining code (table (slot h code)), h.position e.1 = (slot h code : Nat) :=
    fun e hm => hr.home _ hi e (hsub.subset hm)
  have hdistinct : (codes (remaining code (table (slot h code)))).Nodup :=
    (hr.distinct _ hi).sublist (hsub.map Prod.fst)
  have hnodup := hr.distinct _ hi
  rw [← he] at hm hnodup
  obtain ⟨e, hmem, hcode⟩ := List.mem_map.mp hm
  obtain ⟨⟨a, v⟩, hcell, rfl⟩ := List.mem_map.mp hmem
  have hv : v.hashCode = code := hcode
  obtain ⟨before, after, rfl⟩ := List.append_of_mem hcell
  have habsent : code ∉ codes (before.map entry) := by
    intro hb
    simp only [List.map_append, List.map_cons, codes_append, codes_cons, entry, hv] at hnodup
    exact (List.nodup_append.mp hnodup).2.2 code hb code (by simp) rfl
  have hlookup : (table (slot h code)).lookup code = some v.contain := by
    rw [← he, List.map_append, List.lookup_append, lookup_eq_none.mpr habsent]
    simp [entry, hv]
  rw [hlookup]
  rcases eq_nil_or_snoc before with rfl | ⟨init, p, pre, rfl⟩
  · have hrem : remaining code (table (slot h code)) = [] := by
      simp [← he, remaining, hv, entry]
    let h' : Hash α := { h.setBucket (slot h code : Nat) none with heap := free h.heap a }
    rw [delFromHash_head hr hc hv]
    rw [hrem] at hhome hdistinct ⊢
    refine ⟨rfl, rfl, rfl, hr.update h' hi rfl (by simp [h', Hash.setBucket]) ?_ hc ?_
      [] ?_ rfl hhome hdistinct⟩
    · intro j hj
      simp [h', Hash.setBucket, List.getElem?_set_ne (Ne.symm hj)]
    · intro b _ hb
      refine read_free_ne ?_
      rintro rfl
      simp at hb
    · simp [h', Links, Seg, Hash.setBucket, hi]
  · have hsplit : init ++ [(p, pre)] ++ (a, v) :: after =
        init ++ (p, pre) :: (a, v) :: after := by simp
    rw [hsplit] at hc
    obtain ⟨hkeep, hfront, hback⟩ := bridge_links hc
    have hrem : (init ++ [(p, { pre with next := v.next })] ++ after).map entry =
        remaining code (table (slot h code)) := by
      have hentry : entry (a, v) = (code, v.contain) := by rw [entry, hv]
      have hrem := @remaining_append _ _ v.contain _ (after.map entry) habsent (by simp)
      have hcells : (init ++ [(p, pre)] ++ (a, v) :: after).map entry =
          (init ++ [(p, pre)]).map entry ++ (code, v.contain) :: after.map entry := by
        rw [List.map_append, List.map_cons, hentry]
      rw [← he, hcells, hrem]
      simp [entry]
    let h' : Hash α :=
      { h with heap := free (write h.heap p { pre with next := v.next }) a }
    rw [delFromHash_inner hr hc habsent hv]
    refine ⟨rfl, rfl, rfl, hr.update h' hi rfl rfl (fun _ _ => rfl) hc ?_
      (init ++ [(p, { pre with next := v.next })] ++ after) ?_ hrem hhome hdistinct⟩
    · intro b _ hb
      simp only [List.map_append, List.map_cons, List.mem_append, List.mem_cons, not_or] at hb
      exact hkeep b hb.2.1 hb.2.2.1
    · exact seg_append.mpr ⟨v.next, hfront, hback⟩

end Operations

end Csiebox.Hash
