import Csiebox.PortRegister.Cleanup

namespace Csiebox.PortRegister

open CellHeap CBytes Hash

variable {s : Registrar} {table : Nat → List (Int × Nat)} (bindFails : Int → Bool)

theorem Tidy.slot_eq (h : Tidy s table) {i : Nat} (hi : i < s.recordHash.node.length)
    {e : Int × Nat} (he : e ∈ table i) : slot s.recordHash e.1 = i := by
  have hpos := h.rep.home i hi e he
  exact_mod_cast (slot_spec h.rep.pos e.1).trans hpos

theorem update_subset {i : Nat} {entries entries' : List (Int × Nat)} (h : entries' ⊆ entries)
    (j : Nat) : Function.update table i entries' j ⊆ Function.update table i entries j := by
  by_cases hji : j = i
  · subst j
    rwa [Function.update_self, Function.update_self]
  · rw [Function.update_of_ne hji, Function.update_of_ne hji]
    exact List.Subset.refl _

-- The removal of one entry from its bucket, with the record it points to.
theorem Tidy.remove (h : Tidy s table) {i : Nat} (hi : i < s.recordHash.node.length)
    {before after : List (Int × Nat)} {e : Int × Nat} (ht : table i = before ++ e :: after)
    {s' : Registrar} {entries : List (Int × Nat)} (hn : s'.recordHash.n = s.recordHash.n)
    (hrep : Rep s'.recordHash (Function.update table i entries)) (hsub : entries ⊆ before ++ after)
    (hrecords : s'.records = free s.records e.2)
    (hsize : s'.portReserve.length = portReserveSize) : Walked s s' (Function.update table i entries) := by
  have hlen := Rep.length_congr h.rep hrep hn
  have hmem : e ∈ table i := by simp [ht]
  have hold : ∀ j, ∀ e' ∈ Function.update table i entries j, e' ∈ table j := by
    intro j e' he'
    by_cases hji : j = i
    · subst j
      rw [Function.update_self] at he'
      have hm := hsub he'
      rw [ht]
      simp only [List.mem_append, List.mem_cons] at hm ⊢
      exact hm.imp_right Or.inr
    · rwa [Function.update_of_ne hji] at he'
  have hother : ∀ j < s.recordHash.node.length, ∀ e' ∈ Function.update table i entries j,
      e.2 ≠ e'.2 := by
    intro j hj e' he' heq
    obtain rfl := h.separate i hi j hj e hmem e' (hold j e' he') heq
    obtain rfl : i = j := (h.slot_eq hi hmem).symm.trans (h.slot_eq hj (hold j e he'))
    rw [Function.update_self] at he'
    have hnodup := h.rep.distinct i hi
    simp only [ht, codes_append, codes_cons] at hnodup
    obtain ⟨-, hafter, hbefore⟩ := List.nodup_append.mp hnodup
    rcases List.mem_append.mp (hsub he') with hm | hm
    · exact hbefore _ (List.mem_map_of_mem hm) e.1 List.mem_cons_self rfl
    · exact (List.nodup_cons.mp hafter).1 (List.mem_map_of_mem hm)
  have hkept : ∀ j < s.recordHash.node.length, ∀ e' ∈ Function.update table i entries j,
      read s'.records e'.2 = read s.records e'.2 := by
    intro j hj e' he'
    rw [hrecords, read_free_ne (hother j hj e' he')]
  refine ⟨⟨hrep, hsize, ?_, ?_⟩, hn, hkept⟩
  · intro j hj e' he'
    rw [hlen] at hj
    rw [hkept j hj e' he']
    exact h.ported j hj e' (hold j e' he')
  · intro j hj j' hj' e₁ he₁ e₂ he₂
    rw [hlen] at hj hj'
    exact h.separate j hj j' hj' e₁ (hold j e₁ he₁) e₂ (hold j' e₂ he₂)

-- The index the cleanup computes from a port of the range.
theorem index_range {record : Record} (h : Tidy s table) (hport : InRange record.port) :
    ¬(record.port - 1 - defaultRegisterPort < 0 ∨
      (s.portReserve.length : Int) ≤ record.port - 1 - defaultRegisterPort) := by
  have hsize := h.size
  unfold InRange at hport
  omega

-- After its head is dropped a chain is walked to its end without effect on
-- the table: nothing is found under the codes of its nodes.
theorem cleanWalk_dropped (h : Tidy s table) {i : Nat} (hempty : table i = []) {fuel : Nat}
    {p : Option Nat} {rest : List (Nat × HashNode Nat)} (hc : Links s.recordHash.heap p rest)
    (hslot : ∀ e ∈ rest.map entry, slot s.recordHash e.1 = i)
    (hported : ∀ e ∈ rest.map entry, ∃ record, read s.records e.2 = some record ∧
      InRange record.port) (hf : rest.length ≤ fuel) :
    ∃ s', cleanWalk bindFails fuel p s = some s' ∧ Walked s s' table := by
  induction rest generalizing p fuel s with
  | nil =>
      obtain rfl : p = none := hc
      exact ⟨s, by cases fuel <;> rfl, Walked.refl h⟩
  | cons cell rest ih =>
      obtain ⟨a, node⟩ := cell
      obtain ⟨rfl, hread, hrest⟩ := hc
      obtain ⟨record, hrecord, hport⟩ := hported (entry (a, node)) (by simp)
      have hrecord' : read s.records node.contain = some record := hrecord
      have hslot' : ∀ e ∈ rest.map entry, slot s.recordHash e.1 = i :=
        fun e he => hslot e (by simp only [List.map_cons, List.mem_cons]; exact Or.inr he)
      have hported' : ∀ e ∈ rest.map entry, ∃ record, read s.records e.2 = some record ∧
          InRange record.port :=
        fun e he => hported e (by simp only [List.map_cons, List.mem_cons]; exact Or.inr he)
      cases fuel with
      | zero => simp at hf
      | succ fuel =>
          have hf' : rest.length ≤ fuel := Nat.le_of_succ_le_succ hf
          simp only [cleanWalk, hread, hrecord']
          by_cases hlive : bindFails record.port = true
          · rw [if_pos hlive]
            exact ih h hrest hslot' hported' hf'
          · have habsent : node.hashCode ∉ codes (table (slot s.recordHash node.hashCode)) := by
              rw [show slot s.recordHash node.hashCode = i from hslot (entry (a, node)) (by simp),
                hempty]
              simp
            rw [if_neg hlive, if_neg (index_range h hport), delFromHash_absent h.rep habsent]
            let s₁ : Registrar :=
              { s with portReserve := s.portReserve.set (record.port - 1 - defaultRegisterPort).toNat 0 }
            have h₁ : Tidy s₁ table :=
              ⟨h.rep, (List.length_set ..).trans h.size, h.ported, h.separate⟩
            obtain ⟨s', hrun, hw⟩ := ih h₁ hrest hslot' hported' hf'
            exact ⟨s', hrun, hw.tidy, hw.n, hw.kept⟩

-- Behind a first node that stays, the walk unlinks exactly the dead nodes.
theorem cleanWalk_linked (h : Tidy s table) {i : Nat} (hi : i < s.recordHash.node.length)
    {fuel : Nat} {p : Option Nat} {kept rest : List (Nat × HashNode Nat)} (hne : kept ≠ [])
    (hfront : Seg HashNode.next s.recordHash.heap (s.recordHash.bucket (i : Nat)) kept p)
    (hc : Links s.recordHash.heap p rest) (hf : rest.length ≤ fuel) :
    ∃ s', cleanWalk bindFails fuel p s = some s' ∧
      Walked s s' (Function.update table i
        (kept.map entry ++ (rest.map entry).filter (live bindFails s.records))) := by
  induction rest generalizing p fuel s table kept with
  | nil =>
      obtain rfl : p = none := hc
      refine ⟨s, by cases fuel <;> rfl, ?_⟩
      obtain ⟨cells, hcells, hmap⟩ := h.rep.chains i hi
      obtain rfl := chain_unique hcells hfront
      simp only [List.map_nil, List.filter_nil, List.append_nil]
      rw [hmap, Function.update_eq_self]
      exact Walked.refl h
  | cons cell rest ih =>
      obtain ⟨a, node⟩ := cell
      have hwhole : Links s.recordHash.heap (s.recordHash.bucket (i : Nat))
          (kept ++ (a, node) :: rest) := seg_append.mpr ⟨p, hfront, hc⟩
      obtain ⟨rfl, hread, hrest⟩ := hc
      obtain ⟨cells, hcells, hmap⟩ := h.rep.chains i hi
      obtain rfl := chain_unique hcells hwhole
      have ht : table i = kept.map entry ++ entry (a, node) :: rest.map entry := by
        rw [← hmap, List.map_append, List.map_cons]
      have hin : entry (a, node) ∈ table i := by simp [ht]
      obtain ⟨record, hrecord, hport⟩ := h.ported i hi _ hin
      have hrecord' : read s.records node.contain = some record := hrecord
      cases fuel with
      | zero => simp at hf
      | succ fuel =>
          have hf' : rest.length ≤ fuel := Nat.le_of_succ_le_succ hf
          simp only [cleanWalk, hread, hrecord']
          by_cases hlive : bindFails record.port = true
          · have hkeep : live bindFails s.records (entry (a, node)) = true := by
              simp [live, hrecord, hlive]
            have hfront' : Seg HashNode.next s.recordHash.heap (s.recordHash.bucket (i : Nat))
                (kept ++ [(a, node)]) node.next :=
              seg_append.mpr ⟨some a, hfront, rfl, hread, rfl⟩
            obtain ⟨s', hrun, hw⟩ := ih h hi (by simp) hfront' hrest hf'
            refine ⟨s', by rw [if_pos hlive]; exact hrun, ?_⟩
            rw [List.map_cons, List.filter_cons_of_pos hkeep]
            simpa using hw
          · have hdead : ¬live bindFails s.records (entry (a, node)) = true := by
              simp [live, hrecord, hlive]
            have hslot : slot s.recordHash node.hashCode = i := h.slot_eq hi hin
            obtain ⟨init, q, pre, rfl⟩ :=
              (eq_nil_or_snoc kept).resolve_left hne
            have hsplit : init ++ [(q, pre)] ++ (a, node) :: rest =
                init ++ (q, pre) :: (a, node) :: rest := by simp
            have hnodup := h.rep.distinct i hi
            simp only [ht, codes_append, codes_cons] at hnodup
            have habsent : node.hashCode ∉ codes ((init ++ [(q, pre)]).map entry) :=
              fun hm => (List.nodup_append.mp hnodup).2.2 _ hm _ List.mem_cons_self rfl
            rw [hsplit] at hwhole
            have hdel := delFromHash_inner h.rep (hslot.symm ▸ hwhole) habsent rfl
            obtain ⟨-, hfront', hrest'⟩ := bridge_links hwhole
            have hbound : node.hashCode ∈ codes (table (slot s.recordHash node.hashCode)) := by
              rw [hslot, ht, codes_append, codes_cons]
              exact List.mem_append.mpr (Or.inr List.mem_cons_self)
            obtain ⟨-, -, -, hrep⟩ := delFromHash_present h.rep hbound
            have hentry : entry (a, node) = (node.hashCode, node.contain) := rfl
            rw [hslot, hdel, ht, hentry, remaining_append habsent (by simp)] at hrep
            let s₁ : Registrar :=
              { recordHash := { s.recordHash with
                  heap := free (write s.recordHash.heap q { pre with next := node.next }) a }
                records := free s.records node.contain
                portReserve :=
                  s.portReserve.set (record.port - 1 - defaultRegisterPort).toNat 0 }
            have hw₁ : Walked s s₁
                (Function.update table i ((init ++ [(q, pre)]).map entry ++ rest.map entry)) :=
              h.remove hi ht rfl hrep (List.Subset.refl _) rfl
                ((List.length_set ..).trans h.size)
            obtain ⟨s', hrun, hw⟩ := ih hw₁.tidy hi (by simp) hfront' hrest' hf'
            have hsame : (rest.map entry).filter (live bindFails s₁.records) =
                (rest.map entry).filter (live bindFails s.records) := by
              apply List.filter_congr
              intro e he
              rw [live, live, hw₁.kept i hi e (by
                rw [Function.update_self]; exact List.mem_append.mpr (Or.inr he))]
            have hkept : (init ++ [(q, { pre with next := node.next })]).map entry =
                (init ++ [(q, pre)]).map entry := by simp [entry]
            rw [hsame, hkept, Function.update_idem] at hw
            refine ⟨s', ?_, ?_⟩
            · rw [if_neg hlive, if_neg (index_range h hport), hdel]
              exact hrun
            · rw [List.map_cons, List.filter_cons_of_neg hdead]
              refine Walked.trans h hw₁ hw (update_subset ?_)
              exact (List.filter_sublist.append_left _).subset

theorem cleanBucket_spec (h : Tidy s table) {i : Nat} (hi : i < s.recordHash.node.length) :
    ∃ s', cleanBucket bindFails s i = some s' ∧
      Walked s s' (Function.update table i (survivors bindFails s.records (table i))) := by
  obtain ⟨cells, hc, hmap⟩ := h.rep.chains i hi
  have hlen : cells.length ≤ s.recordHash.heap.length := chain_length_le hc
  unfold cleanBucket Hash.fuel
  cases cells with
  | nil =>
      have hnil : table i = [] := hmap.symm
      refine ⟨s, by rw [show s.recordHash.bucket (i : Nat) = none from hc]; rfl, ?_⟩
      rw [show survivors bindFails s.records (table i) = table i by rw [hnil]; rfl,
        Function.update_eq_self]
      exact Walked.refl h
  | cons cell rest =>
      obtain ⟨a, node⟩ := cell
      have hwhole := hc
      obtain ⟨hp, hread, hrest⟩ := hc
      have ht : table i = [] ++ entry (a, node) :: rest.map entry := by rw [← hmap]; rfl
      have hin : entry (a, node) ∈ table i := by simp [ht]
      obtain ⟨record, hrecord, hport⟩ := h.ported i hi _ hin
      have hrecord' : read s.records node.contain = some record := hrecord
      have hf : rest.length ≤ s.recordHash.heap.length := Nat.le_of_succ_le hlen
      rw [hp]
      simp only [cleanWalk, hread, hrecord']
      by_cases hlive : bindFails record.port = true
      · have hkeep : live bindFails s.records (entry (a, node)) = true := by
          simp [live, hrecord, hlive]
        have hfront : Seg HashNode.next s.recordHash.heap (s.recordHash.bucket (i : Nat))
            [(a, node)] node.next := ⟨hp, hread, rfl⟩
        obtain ⟨s', hrun, hw⟩ :=
          cleanWalk_linked bindFails h hi (by simp) hfront hrest hf
        refine ⟨s', by rw [if_pos hlive]; exact hrun, ?_⟩
        rw [show survivors bindFails s.records (table i) = [(a, node)].map entry ++
          (rest.map entry).filter (live bindFails s.records) by
            rw [ht, List.nil_append, survivors, if_pos hkeep]; rfl]
        exact hw
      · have hdead : ¬live bindFails s.records (entry (a, node)) = true := by
          simp [live, hrecord, hlive]
        have hslot : slot s.recordHash node.hashCode = i := h.slot_eq hi hin
        have hdel := delFromHash_head h.rep (hslot.symm ▸ hwhole) rfl
        rw [hslot] at hdel
        have hbound : node.hashCode ∈ codes (table (slot s.recordHash node.hashCode)) := by
          rw [hslot, ht]
          exact List.mem_cons_self
        obtain ⟨-, -, -, hrep⟩ := delFromHash_present h.rep hbound
        have hrem : remaining node.hashCode (table i) = [] := by
          simp [ht, remaining, entry]
        rw [hslot, hdel, hrem] at hrep
        let s₁ : Registrar :=
          { recordHash := { s.recordHash.setBucket (i : Nat) none with
              heap := free s.recordHash.heap a }
            records := free s.records node.contain
            portReserve := s.portReserve.set (record.port - 1 - defaultRegisterPort).toNat 0 }
        have hw₁ : Walked s s₁ (Function.update table i []) :=
          h.remove hi ht rfl hrep (List.nil_subset _) rfl ((List.length_set ..).trans h.size)
        have haddr := chain_nodup hwhole
        simp only [List.map_cons, List.nodup_cons] at haddr
        have hrest' : Links s₁.recordHash.heap node.next rest := by
          apply seg_transport hrest
          intro b hb
          apply read_free_ne
          rintro rfl
          exact haddr.1 hb
        have hcodes := h.rep.distinct i hi
        rw [ht] at hcodes
        have hmem : ∀ e ∈ rest.map entry, e ∈ table i := by
          intro e he
          rw [ht]
          exact List.mem_cons_of_mem _ he
        have hslot' : ∀ e ∈ rest.map entry, slot s₁.recordHash e.1 = i :=
          fun e he => h.slot_eq hi (hmem e he)
        have hported : ∀ e ∈ rest.map entry, ∃ record, read s₁.records e.2 = some record ∧
            InRange record.port := by
          intro e he
          have hne : node.contain ≠ e.2 := by
            intro heq
            obtain rfl := h.separate i hi i hi _ hin e (hmem e he) heq
            exact (List.nodup_cons.mp hcodes).1 (List.mem_map_of_mem he)
          rw [read_free_ne hne]
          exact h.ported i hi e (hmem e he)
        obtain ⟨s', hrun, hw⟩ := cleanWalk_dropped bindFails hw₁.tidy
          (Function.update_self ..) hrest' hslot' hported hf
        refine ⟨s', ?_, ?_⟩
        · rw [if_neg hlive, if_neg (index_range h hport), hdel]
          exact hrun
        · rw [show survivors bindFails s.records (table i) = [] by
            rw [ht, List.nil_append, survivors, if_neg hdead]]
          exact Walked.trans h hw₁ hw fun j => List.Subset.refl _

-- The table after the first `k` buckets.
def cleaned (records : Heap Record) (table : Nat → List (Int × Nat)) (k j : Nat) :
    List (Int × Nat) :=
  if j < k then survivors bindFails records (table j) else table j

theorem cleaned_subset (records : Heap Record) (k j : Nat) :
    cleaned bindFails records table k j ⊆ table j := by
  unfold cleaned
  split_ifs
  · exact (survivors_sublist bindFails records (table j)).subset
  · exact List.Subset.refl _

theorem cleaned_succ (records : Heap Record) (k : Nat) :
    Function.update (cleaned bindFails records table k) k
        (survivors bindFails records (cleaned bindFails records table k k)) =
      cleaned bindFails records table (k + 1) := by
  funext j
  by_cases hj : j = k
  · subst j
    simp [cleaned]
  · rw [Function.update_of_ne hj, cleaned, cleaned]
    have hiff : j < k ↔ j < k + 1 := by omega
    simp only [hiff]

theorem survivors_congr {records records' : Heap Record} {entries : List (Int × Nat)}
    (h : ∀ e ∈ entries, read records' e.2 = read records e.2) :
    survivors bindFails records' entries = survivors bindFails records entries := by
  have hlive : ∀ e ∈ entries, live bindFails records' e = live bindFails records e := by
    intro e he
    rw [live, live, h e he]
  cases entries with
  | nil => rfl
  | cons e es =>
      have hrest : ∀ e ∈ es, live bindFails records' e = live bindFails records e :=
        fun e he => hlive e (List.mem_cons_of_mem _ he)
      rw [survivors, survivors, hlive e List.mem_cons_self, List.filter_congr hrest]

theorem cleanBuckets_spec (h : Tidy s table) {k : Nat} (hk : k ≤ s.recordHash.node.length) :
    ∃ s', (List.range k).foldlM (cleanBucket bindFails) s = some s' ∧
      Walked s s' (cleaned bindFails s.records table k) := by
  induction k with
  | zero =>
      have hzero : cleaned bindFails s.records table 0 = table := by
        funext j
        simp [cleaned]
      rw [hzero]
      exact ⟨s, rfl, Walked.refl h⟩
  | succ k ih =>
      obtain ⟨s₁, hrun, hw₁⟩ := ih (Nat.le_of_succ_le hk)
      have hk₁ : k < s₁.recordHash.node.length := by
        rw [hw₁.length h]
        exact hk
      obtain ⟨s₂, hrun₂, hw₂⟩ := cleanBucket_spec bindFails hw₁.tidy hk₁
      rw [survivors_congr bindFails (hw₁.kept k hk), cleaned_succ] at hw₂
      refine ⟨s₂, ?_, Walked.trans h hw₁ hw₂ ?_⟩
      · rw [List.range_succ, List.foldlM_append, hrun]
        simpa using hrun₂
      · intro j
        rw [← cleaned_succ]
        intro e he
        by_cases hj : j = k
        · subst j
          rw [Function.update_self] at he
          exact (survivors_sublist _ _ _).subset he
        · rwa [Function.update_of_ne hj] at he

@[simp] theorem checkPortReserve_recordHash (probe : Nat → Bool) (s : Registrar) :
    (checkPortReserve probe s).recordHash = s.recordHash := by rw [checkPortReserve]

@[simp] theorem checkPortReserve_records (probe : Nat → Bool) (s : Registrar) :
    (checkPortReserve probe s).records = s.records := by rw [checkPortReserve]

theorem checkPortReserve_length (probe : Nat → Bool) (s : Registrar) :
    (checkPortReserve probe s).portReserve.length = portReserveSize := by
  simp only [checkPortReserve, List.length_map, List.length_range]

theorem checkPortReserve_slot (probe : Nat → Bool) (s : Registrar) {i : Nat}
    (hi : i < portReserveSize) :
    (checkPortReserve probe s).portReserve[i]? = some (if probe i then 1 else 0) := by
  simp only [checkPortReserve, List.getElem?_map, List.getElem?_range hi, Option.map_some]

-- A whole cleanup: every bucket is cut down to its survivors, and the final
-- probe decides every slot.
theorem cleanPortReserve_spec (h : Tidy s table) :
    ∃ s', cleanPortReserve bindFails s = some s' ∧
      Walked s s' (cleaned bindFails s.records table s.recordHash.node.length) ∧
      ∀ i : Nat, i < portReserveSize →
        s'.portReserve[i]? = some (if bindFails (i + defaultRegisterPort + 1) then 1 else 0) := by
  have hn : s.recordHash.n.toNat = s.recordHash.node.length := by
    have hsize := h.rep.size
    omega
  obtain ⟨s₁, hrun, hw⟩ := cleanBuckets_spec bindFails h (le_of_eq hn)
  rw [hn] at hw
  let probe : Nat → Bool := fun i => bindFails (i + defaultRegisterPort + 1)
  refine ⟨checkPortReserve probe s₁, ?_, ?_, fun i => checkPortReserve_slot probe s₁⟩
  · simp only [cleanPortReserve, hrun, Option.bind_eq_bind, Option.bind_some, Option.pure_def, probe]
  · have hrep := hw.tidy.rep
    have hported := hw.tidy.ported
    have hseparate := hw.tidy.separate
    have hsize := checkPortReserve_length probe s₁
    refine ⟨⟨?_, hsize, ?_, ?_⟩, ?_, ?_⟩ <;>
      simp only [checkPortReserve_recordHash, checkPortReserve_records]
    · exact hrep
    · exact hported
    · exact hseparate
    · exact hw.n
    · exact hw.kept

end Csiebox.PortRegister
