import Csiebox.PortRegister.Cleanup.Lemmas
import Csiebox.PortRegister.Theorems

namespace Csiebox.PortRegister

open CellHeap CBytes Hash

section Events

-- What the loop of `main` does in one turn: it serves a connection, or it
-- cleans up because `select` timed out.
inductive Event where
  | serve (q : Request)
  | tick (bindFails : Int → Bool)

def Event.step (s : Registrar) : Event → Option Registrar
  | .serve q => some (q.serve s).2
  | .tick bindFails => cleanPortReserve bindFails s

def runEvents (events : List Event) (s : Registrar) : Option Registrar :=
  events.foldlM Event.step s

structure Exclusive (s : Registrar) : Prop where
  allocated : ∀ r, Stored s r → ∃ record, StoredRecord s r record
  reserved : ∀ r record, StoredRecord s r record →
    InRange record.port ∧
      s.portReserve[(record.port - 1 - defaultRegisterPort).toNat]? = some 1
  separate : ∀ r r' record record', StoredRecord s r record → StoredRecord s r' record' →
    record.port = record'.port → r = r'

-- The stored records of `s'` are those of `s` whose port could not be bound, and
-- their names are still answered with their ports.
def KeepsLive (bindFails : Int → Bool) (s s' : Registrar) : Prop :=
  (∀ r record, StoredRecord s' r record ↔ StoredRecord s r record ∧ bindFails record.port = true) ∧
    ∀ name : Name, ∀ port, getPort s name.bytes = port → port ≠ -1 → bindFails port = true →
      getPort s' name.bytes = port

-- A bucket chain begins with a record whose port can be bound and has behind it
-- one whose port cannot.
def DeadHeadBeforeLive (bindFails : Int → Bool) (s : Registrar) : Prop :=
  ∃ i < s.recordHash.node.length, ∃ first rest,
    Links s.recordHash.heap (s.recordHash.bucket (i : Nat)) (first :: rest) ∧
      live bindFails s.records (entry first) = false ∧
      ∃ cell ∈ rest, live bindFails s.records (entry cell) = true

end Events

section Registry

-- The map of codes to ports, with what keeps two of its ports apart.
structure Registry (s : Registrar) (codeMap : CodeMap Nat) (ports : Int → Option Int) : Prop
    extends Ports s codeMap ports where
  size : s.portReserve.length = portReserveSize
  bits : ∀ v ∈ s.portReserve, v = 0 ∨ v = 1
  exclusive : ∀ code code' port, ports code = some port → ports code' = some port → code = code'

variable {s : Registrar} {codeMap : CodeMap Nat} {ports : Int → Option Int}

theorem boot_registry (bindFails : Nat → Bool) :
    Registry (Registrar.boot bindFails) (fun _ => none) (fun _ => none) where
  toPorts := boot_ports bindFails
  size := checkPortReserve_length _ _
  bits := by
    intro v hv
    simp only [Registrar.boot, checkPortReserve, List.mem_map] at hv
    obtain ⟨i, -, rfl⟩ := hv
    split_ifs <;> simp
  exclusive := by simp

theorem mem_lookup {entries : List (Int × Nat)} (h : (codes entries).Nodup) {e : Int × Nat} :
    e ∈ entries ↔ entries.lookup e.1 = some e.2 := by
  induction entries with
  | nil => simp
  | cons first rest ih =>
      obtain ⟨hnot, hrest⟩ := List.nodup_cons.mp h
      by_cases he : e.1 = first.1
      · have hne : e ∉ rest := fun hm => hnot (he ▸ List.mem_map_of_mem hm)
        rw [List.lookup_cons, he, beq_self_eq_true, List.mem_cons, Prod.ext_iff]
        simp only [he, true_and, hne, or_false, Option.some.injEq]
        exact eq_comm
      · rw [lookup_cons_ne he, ← ih hrest, List.mem_cons]
        constructor
        · rintro (rfl | hm)
          · exact absurd rfl he
          · exact hm
        · exact Or.inr

theorem codeMap_mem {table : Nat → List (Int × Nat)} (hrep : Rep s.recordHash table)
    (hmap : ∀ code, codeMap code = (table (slot s.recordHash code)).lookup code) {i : Nat}
    (hi : i < s.recordHash.node.length) {e : Int × Nat} (he : e ∈ table i) :
    slot s.recordHash e.1 = i ∧ codeMap e.1 = some e.2 := by
  have hpos := hrep.home i hi e he
  have hslot : slot s.recordHash e.1 = i := by
    exact_mod_cast (slot_spec hrep.pos e.1).trans hpos
  refine ⟨hslot, ?_⟩
  rw [hmap, hslot]
  exact (mem_lookup (hrep.distinct i hi)).mp he

theorem Registry.inRange (hr : Registry s codeMap ports) {code port : Int}
    (hport : ports code = some port) :
    InRange port ∧ s.portReserve[(port - 1 - defaultRegisterPort).toNat]? = some 1 := by
  obtain ⟨i, rfl, v, hv, hne⟩ := hr.reserved code port hport
  obtain ⟨hlt, hget⟩ := List.getElem?_eq_some_iff.mp hv
  have hindex : ((i : Int) + defaultRegisterPort + 1 - 1 - defaultRegisterPort).toNat = i := by
    omega
  rw [hindex, hv]
  have hsize := hr.size
  refine ⟨by unfold InRange; omega, ?_⟩
  rcases hr.bits v (hget ▸ List.getElem_mem hlt) with rfl | rfl
  · exact absurd rfl hne
  · rfl

theorem Registry.tidy (hr : Registry s codeMap ports) {table : Nat → List (Int × Nat)}
    (hrep : Rep s.recordHash table)
    (hmap : ∀ code, codeMap code = (table (slot s.recordHash code)).lookup code) :
    Tidy s table := by
  refine ⟨hrep, hr.size, ?_, ?_⟩
  · intro i hi e he
    obtain ⟨-, hcode⟩ := codeMap_mem hrep hmap hi he
    obtain ⟨record, hread, hport⟩ := hr.stored _ _ hcode
    exact ⟨record, hread, (hr.inRange hport).1⟩
  · intro i hi j hj e he e' he' heq
    obtain ⟨-, hcode⟩ := codeMap_mem hrep hmap hi he
    obtain ⟨-, hcode'⟩ := codeMap_mem hrep hmap hj he'
    exact Prod.ext (hr.separate _ _ _ hcode (heq ▸ hcode')) heq

theorem stored_codeMap (hr : Registry s codeMap ports) {r : Nat} :
    Stored s r ↔ ∃ code, codeMap code = some r := by
  obtain ⟨table, hrep, hmap⟩ := hr.models
  rw [stored_iff (hr.tidy hrep hmap)]
  constructor
  · rintro ⟨i, hi, e, he, rfl⟩
    exact ⟨e.1, (codeMap_mem hrep hmap hi he).2⟩
  · rintro ⟨code, hcode⟩
    rw [hmap] at hcode
    have hi := slot_lt hrep code
    exact ⟨_, hi, (code, r), (mem_lookup (hrep.distinct _ hi)).mpr hcode, rfl⟩

theorem Registry.isExclusive (hr : Registry s codeMap ports) : Exclusive s := by
  have hport : ∀ r record, StoredRecord s r record →
      ∃ code, codeMap code = some r ∧ ports code = some record.port := by
    rintro r record ⟨hstored, hread⟩
    obtain ⟨code, hcode⟩ := (stored_codeMap hr).mp hstored
    obtain ⟨record', hread', hport⟩ := hr.stored code r hcode
    obtain rfl : record' = record := Option.some.inj (hread'.symm.trans hread)
    exact ⟨code, hcode, hport⟩
  refine ⟨?_, ?_, ?_⟩
  · intro r hstored
    obtain ⟨code, hcode⟩ := (stored_codeMap hr).mp hstored
    obtain ⟨record, hread, -⟩ := hr.stored code r hcode
    exact ⟨record, hstored, hread⟩
  · intro r record hrecord
    obtain ⟨code, -, hport⟩ := hport r record hrecord
    exact hr.inRange hport
  · intro r r' record record' hrecord hrecord' hsame
    obtain ⟨code, hcode, hport₁⟩ := hport r record hrecord
    obtain ⟨code', hcode', hport₂⟩ := hport r' record' hrecord'
    obtain rfl := hr.exclusive code code' _ hport₁ (hsame ▸ hport₂)
    exact Option.some.inj (hcode.symm.trans hcode')

-- A port with a free slot is held by no stored record.
theorem Registry.free_slot (hr : Registry s codeMap ports) {i : Nat}
    (hi : s.portReserve[i]? = some 0) (code : Int) :
    ports code ≠ some (i + defaultRegisterPort + 1) := by
  intro hport
  obtain ⟨j, heq, v, hv, hne⟩ := hr.reserved code _ hport
  obtain rfl : i = j := by omega
  rw [hi] at hv
  exact hne (Option.some.inj hv).symm

theorem bookPort_registry (hr : Registry s codeMap ports) (name : Bytes) :
    ∃ codeMap' ports', Registry (bookPort true true s name).2 codeMap' ports' := by
  by_cases hfree : (0 : Int) ∈ s.portReserve
  · obtain ⟨i, hi, -, hreserve, codeMap', hp⟩ := bookPort_free hr.toPorts hfree name
    refine ⟨codeMap', _, hp, ?_, ?_, ?_⟩
    · rw [hreserve, List.length_set]
      exact hr.size
    · intro v hv
      rw [hreserve] at hv
      rcases List.mem_or_eq_of_mem_set hv with hv | rfl
      · exact hr.bits v hv
      · exact Or.inr rfl
    · intro code code' port hport hport'
      by_cases hcode : code = getHashCode name <;> by_cases hcode' : code' = getHashCode name
      · rw [hcode, hcode']
      · rw [hcode, Function.update_self] at hport
        rw [Function.update_of_ne hcode'] at hport'
        exact absurd (hport'.trans hport.symm) (hr.free_slot hi code')
      · rw [hcode', Function.update_self] at hport'
        rw [Function.update_of_ne hcode] at hport
        exact absurd (hport.trans hport'.symm) (hr.free_slot hi code)
      · rw [Function.update_of_ne hcode] at hport
        rw [Function.update_of_ne hcode'] at hport'
        exact hr.exclusive code code' port hport hport'
  · rw [bookPort_full hfree]
    exact ⟨codeMap, ports, hr⟩

theorem bookPort_fresh (hr : Registry s codeMap ports) (name : Bytes)
    (hport : (bookPort true true s name).1 ≠ -1) :
    ∀ r record, StoredRecord s r record → record.port ≠ (bookPort true true s name).1 := by
  rintro r record ⟨hstored, hread⟩
  by_cases hfree : (0 : Int) ∈ s.portReserve
  · obtain ⟨i, hi, hbooked, -⟩ := bookPort_free hr.toPorts hfree name
    obtain ⟨code, hcode⟩ := (stored_codeMap hr).mp hstored
    obtain ⟨record', hread', hold⟩ := hr.stored code r hcode
    obtain rfl : record' = record := Option.some.inj (hread'.symm.trans hread)
    intro hsame
    rw [hsame, hbooked] at hold
    exact hr.free_slot hi code hold
  · rw [bookPort_full hfree] at hport
    exact absurd rfl hport

-- What a bucket keeps over a cleanup is what was there with somebody listening.
theorem cleaned_lookup {table : Nat → List (Int × Nat)} {bindFails : Int → Bool} {s' : Registrar}
    (h : Tidy s table)
    (hw : Walked s s' (cleaned bindFails s.records table s.recordHash.node.length)) {code : Int}
    {r : Nat}
    (hcode : (cleaned bindFails s.records table s.recordHash.node.length
      (slot s'.recordHash code)).lookup code = some r) :
    (table (slot s.recordHash code)).lookup code = some r ∧
      ∃ record, read s.records r = some record ∧ read s'.records r = some record ∧
        InRange record.port ∧ bindFails record.port = true := by
  have hi := slot_lt h.rep code
  have hdistinct := hw.tidy.rep.distinct _ (slot_lt hw.tidy.rep code)
  have hmem := (mem_lookup hdistinct (e := (code, r))).mpr hcode
  rw [slot_congr hw.n] at hmem
  have hold := cleaned_subset _ _ _ _ hmem
  obtain ⟨record, hread, hrange⟩ := h.ported _ hi _ hold
  have hkept := hw.kept _ hi _ hmem
  rw [cleaned, if_pos hi] at hmem
  have hlive := live_survivors _ hmem
  rw [live, hread] at hlive
  exact ⟨(mem_lookup (h.rep.distinct _ hi)).mp hold, record, hread, hkept.trans hread, hrange, hlive⟩

theorem cleanPortReserve_registry (hr : Registry s codeMap ports) (bindFails : Int → Bool) :
    ∃ s', cleanPortReserve bindFails s = some s' ∧
      ∃ codeMap' ports', Registry s' codeMap' ports' := by
  obtain ⟨table, hrep, hmap⟩ := hr.models
  have h := hr.tidy hrep hmap
  obtain ⟨s', hrun, hw, hslots⟩ := cleanPortReserve_spec bindFails h
  let codeMap' : CodeMap Nat := fun code =>
    (cleaned bindFails s.records table s.recordHash.node.length (slot s'.recordHash code)).lookup code
  let ports' : Int → Option Int := fun code =>
    (codeMap' code).bind fun r => (read s'.records r).map (·.port)
  have hports : ∀ code port, ports' code = some port →
      ports code = some port ∧ InRange port ∧ bindFails port = true := by
    intro code port hport
    obtain ⟨r, hcode, hrecord⟩ := Option.bind_eq_some_iff.mp hport
    obtain ⟨hold, record, hread, hread', hrange, hlive⟩ := cleaned_lookup h hw hcode
    rw [hread'] at hrecord
    obtain rfl : record.port = port := Option.some.inj hrecord
    obtain ⟨record', hread₁, hport₁⟩ := hr.stored code r ((hmap code).trans hold)
    obtain rfl : record' = record := Option.some.inj (hread₁.symm.trans hread)
    exact ⟨hport₁, hrange, hlive⟩
  refine ⟨s', hrun, codeMap', ports', ⟨⟨_, hw.tidy.rep, fun _ => rfl⟩, ?_, ?_, ?_, ?_⟩,
    hw.tidy.size, ?_, ?_⟩
  · intro code r hcode
    obtain ⟨-, record, -, hread', -, -⟩ := cleaned_lookup h hw hcode
    exact ⟨record, hread', by simp [ports', hcode, hread']⟩
  · intro code hcode
    simp [ports', hcode]
  · intro code code' r hcode hcode'
    have hc := (cleaned_lookup h hw hcode).1
    have hc' := (cleaned_lookup h hw hcode').1
    exact hr.separate code code' r ((hmap code).trans hc) ((hmap code').trans hc')
  · intro code port hport
    obtain ⟨-, hrange, hlive⟩ := hports code port hport
    unfold InRange at hrange
    have heq : port = ((port - 1 - defaultRegisterPort).toNat : Int) + defaultRegisterPort + 1 := by
      omega
    refine ⟨_, heq, 1, ?_, by decide⟩
    rw [hslots _ (by omega), ← heq, if_pos hlive]
  · intro v hv
    obtain ⟨i, hi, rfl⟩ := List.mem_iff_getElem.mp hv
    have hslot := hslots i (hw.tidy.size ▸ hi)
    rw [List.getElem?_eq_getElem hi, Option.some.injEq] at hslot
    rw [hslot]
    split_ifs <;> simp
  · intro code code' port hport hport'
    exact hr.exclusive code code' port (hports code port hport).1 (hports code' port hport').1

theorem step_registry (hr : Registry s codeMap ports) (event : Event) :
    ∃ s', event.step s = some s' ∧ ∃ codeMap' ports', Registry s' codeMap' ports' := by
  cases event with
  | tick bindFails => exact cleanPortReserve_registry hr bindFails
  | serve q =>
      cases q with
      | book name =>
          rw [Event.step, book_serve]
          exact ⟨_, rfl, bookPort_registry hr name.bytes⟩
      | query name =>
          rw [Event.step, query_serve]
          exact ⟨s, rfl, codeMap, ports, hr⟩

theorem run_registry (hr : Registry s codeMap ports) (events : List Event) :
    ∃ s', runEvents events s = some s' ∧ ∃ codeMap' ports', Registry s' codeMap' ports' := by
  induction events generalizing s codeMap ports with
  | nil => exact ⟨s, rfl, codeMap, ports, hr⟩
  | cons event events ih =>
      obtain ⟨s₁, hstep, codeMap₁, ports₁, hr₁⟩ := step_registry hr event
      obtain ⟨s₂, hrun, hrest⟩ := ih hr₁
      refine ⟨s₂, ?_, hrest⟩
      rw [runEvents, List.foldlM_cons, hstep]
      exact hrun

end Registry

-- Along every run no memory access of the registrar goes wrong, stored records
-- keep distinct reserved ports of the range, and a booking hands out a port
-- that no stored record holds.
theorem ports_exclusive (probe : Nat → Bool) (events : List Event) :
    ∃ s, runEvents events (Registrar.boot probe) = some s ∧ Exclusive s ∧
      (∀ bindFails, (cleanPortReserve bindFails s).isSome) ∧
      ∀ name : Name, ∀ port, ((Request.book name).serve s).1 = some port → port ≠ -1 →
        ∀ r record, StoredRecord s r record → record.port ≠ port := by
  obtain ⟨s, hrun, codeMap, ports, hr⟩ := run_registry (boot_registry probe) events
  refine ⟨s, hrun, hr.isExclusive, ?_, ?_⟩
  · intro bindFails
    obtain ⟨s', hclean, -⟩ := cleanPortReserve_registry hr bindFails
    rw [hclean]
    rfl
  · intro name port hserve hport
    rw [book_serve] at hserve
    obtain rfl := Option.some.inj hserve
    exact bookPort_fresh hr name.bytes hport

section Cleanup

variable {s s' : Registrar} {table : Nat → List (Int × Nat)} {bindFails : Int → Bool}

theorem survivors_filter {records : Heap Record} {entries : List (Int × Nat)}
    (h : ∀ first rest, entries = first :: rest → live bindFails records first = false →
      ∀ e ∈ rest, live bindFails records e = false) :
    survivors bindFails records entries = entries.filter (live bindFails records) := by
  cases entries with
  | nil => rfl
  | cons first rest =>
      cases hfirst : live bindFails records first with
      | true => rw [survivors, if_pos hfirst, List.filter_cons_of_pos hfirst]
      | false =>
          have hrest := h first rest rfl hfirst
          rw [survivors, if_neg (by simp [hfirst]), List.filter_cons_of_neg (by simp [hfirst])]
          symm
          rw [List.filter_eq_nil_iff]
          intro e he
          simp [hrest e he]

theorem storedRecord_iff (h : Tidy s table) {r : Nat} {record : Record} :
    StoredRecord s r record ↔
      ∃ i < s.recordHash.node.length, ∃ e ∈ table i, e.2 = r ∧ read s.records r = some record := by
  rw [StoredRecord, stored_iff h]
  constructor
  · rintro ⟨⟨i, hi, e, he, hr⟩, hread⟩
    exact ⟨i, hi, e, he, hr, hread⟩
  · rintro ⟨i, hi, e, he, hr, hread⟩
    exact ⟨⟨i, hi, e, he, hr⟩, hread⟩

-- No dead first record: every bucket keeps exactly its live records.
theorem keepsLive_of_no_dead_head (h : Tidy s table)
    (hw : Walked s s' (cleaned bindFails s.records table s.recordHash.node.length))
    (hno : ¬DeadHeadBeforeLive bindFails s) : KeepsLive bindFails s s' := by
  have hlen := hw.length h
  have hfilter : ∀ i < s.recordHash.node.length,
      cleaned bindFails s.records table s.recordHash.node.length i =
        (table i).filter (live bindFails s.records) := by
    intro i hi
    rw [cleaned, if_pos hi]
    apply survivors_filter
    intro first rest ht hfirst e he
    obtain ⟨cells, hc, hmap⟩ := h.rep.chains i hi
    rw [ht] at hmap
    obtain ⟨cell, rest', rfl, rfl, rfl⟩ := List.map_eq_cons_iff.mp hmap
    obtain ⟨cell', hcell', rfl⟩ := List.mem_map.mp he
    by_contra hlive
    exact hno ⟨i, hi, cell, rest', hc, hfirst, cell', hcell', by simpa using hlive⟩
  constructor
  · intro r record
    rw [storedRecord_iff hw.tidy, storedRecord_iff h, hlen]
    constructor
    · rintro ⟨i, hi, e, he, rfl, hread⟩
      rw [hw.kept i hi e he] at hread
      rw [hfilter i hi] at he
      obtain ⟨hmem, hlive⟩ := List.mem_filter.mp he
      rw [live, hread] at hlive
      exact ⟨⟨i, hi, e, hmem, rfl, hread⟩, hlive⟩
    · rintro ⟨⟨i, hi, e, hmem, rfl, hread⟩, hlive⟩
      have he : e ∈ cleaned bindFails s.records table s.recordHash.node.length i := by
        rw [hfilter i hi]
        exact List.mem_filter.mpr ⟨hmem, by rw [live, hread]; exact hlive⟩
      exact ⟨i, hi, e, he, rfl, (hw.kept i hi e he).trans hread⟩
  · rintro name port hport hne hlive
    let code := getHashCode name.bytes
    have hi := slot_lt h.rep code
    cases hl : (table (slot s.recordHash code)).lookup code with
    | none =>
        rw [getPort, getFromHash_eq h.rep, hl] at hport
        exact absurd hport.symm hne
    | some r =>
        have hmem := (mem_lookup (h.rep.distinct _ hi) (e := (code, r))).mpr hl
        obtain ⟨record, hread, -⟩ := h.ported _ hi _ hmem
        rw [getPort, getFromHash_eq h.rep, hl] at hport
        simp only [hread] at hport
        subst hport
        have he : (code, r) ∈ cleaned bindFails s.records table s.recordHash.node.length
            (slot s.recordHash code) := by
          rw [hfilter _ hi]
          exact List.mem_filter.mpr ⟨hmem, by simp only [live, hread]; exact hlive⟩
        have hread' := (hw.kept _ hi _ he).trans hread
        have hl' := (mem_lookup (hw.tidy.rep.distinct _ (hlen ▸ hi))).mp he
        rw [getPort, getFromHash_eq hw.tidy.rep, slot_congr hw.n, hl']
        simp only [hread']

theorem dead_head_loses (h : Tidy s table)
    (hw : Walked s s' (cleaned bindFails s.records table s.recordHash.node.length))
    (hdead : DeadHeadBeforeLive bindFails s) : ¬KeepsLive bindFails s s' := by
  rintro ⟨hstored, -⟩
  obtain ⟨i, hi, first, rest, hc, hfirst, cell, hcell, hlive⟩ := hdead
  obtain ⟨cells, hcells, hmap⟩ := h.rep.chains i hi
  obtain rfl := chain_unique hcells hc
  have hmem : entry cell ∈ table i := by
    rw [← hmap]
    exact List.mem_map_of_mem (List.mem_cons_of_mem _ hcell)
  obtain ⟨record, hread, -⟩ := h.ported i hi _ hmem
  rw [live, hread] at hlive
  have hold : StoredRecord s (entry cell).2 record :=
    (storedRecord_iff h).mpr ⟨i, hi, _, hmem, rfl, hread⟩
  obtain ⟨j, hj, e, he, hsame, -⟩ :=
    (storedRecord_iff hw.tidy).mp ((hstored _ _).mpr ⟨hold, hlive⟩)
  rw [hw.length h] at hj
  have hej := cleaned_subset _ _ _ _ he
  obtain rfl := h.separate j hj i hi e hej _ hmem hsame
  obtain rfl : j = i := (h.slot_eq hj hej).symm.trans (h.slot_eq hi hmem)
  rw [cleaned, if_pos hj, ← hmap, List.map_cons, survivors, if_neg (by simp [hfirst])] at he
  simp at he

end Cleanup

-- A cleanup removes exactly the dead records in exactly the states in which no
-- dead record heads a chain with a live one behind it.
theorem cleanup_keeps_live_iff (probe : Nat → Bool) (events : List Event)
    (bindFails : Int → Bool) :
    ∃ s s', runEvents events (Registrar.boot probe) = some s ∧
      cleanPortReserve bindFails s = some s' ∧
      (KeepsLive bindFails s s' ↔ ¬DeadHeadBeforeLive bindFails s) := by
  obtain ⟨s, hrun, codeMap, ports, hr⟩ := run_registry (boot_registry probe) events
  obtain ⟨table, hrep, hmap⟩ := hr.models
  have h := hr.tidy hrep hmap
  obtain ⟨s', hclean, hw, -⟩ := cleanPortReserve_spec bindFails h
  refine ⟨s, s', hrun, hclean, ?_, keepsLive_of_no_dead_head h hw⟩
  intro hkeeps hdead
  exact dead_head_loses h hw hdead hkeeps

-- "a" and "aA" share a bucket. When only the port of "aA" is in use, the
-- cleanup that removes "a" loses "aA" as well.
theorem cleanup_loses_live :
    ¬∀ s s', runEvents [.serve (.book ⟨[0x61], by decide, by decide⟩),
          .serve (.book ⟨[0x61, 0x41], by decide, by decide⟩)]
        (Registrar.boot fun _ => false) = some s →
      cleanPortReserve (fun port => port = 2502) s = some s' →
        KeepsLive (fun port => port = 2502) s s' := by
  intro h
  obtain ⟨s, hrun, codeMap, ports, hr⟩ := run_registry (boot_registry fun _ => false)
    [.serve (.book ⟨[0x61], by decide, by decide⟩),
      .serve (.book ⟨[0x61, 0x41], by decide, by decide⟩)]
  obtain ⟨s', hclean, -⟩ := cleanPortReserve_registry hr fun port => port = 2502
  have hport : (runEvents [.serve (.book ⟨[0x61], by decide, by decide⟩),
      .serve (.book ⟨[0x61, 0x41], by decide, by decide⟩)]
      (Registrar.boot fun _ => false)).map (getPort · [0x61, 0x41]) = some 2502 := by
    decide +kernel
  have hlost : ((runEvents [.serve (.book ⟨[0x61], by decide, by decide⟩),
      .serve (.book ⟨[0x61, 0x41], by decide, by decide⟩)]
      (Registrar.boot fun _ => false)).bind (cleanPortReserve fun port => port = 2502)).map
        (getPort · [0x61, 0x41]) = some (-1) := by
    decide +kernel
  rw [hrun] at hport hlost
  rw [Option.bind_some, hclean] at hlost
  obtain ⟨-, hanswer⟩ := h s s' hrun hclean
  have hkept := hanswer ⟨[0x61, 0x41], by decide, by decide⟩ 2502 (Option.some.inj hport)
    (by decide) (by decide)
  have hgone : getPort s' [0x61, 0x41] = -1 := Option.some.inj hlost
  exact absurd (hkept.symm.trans hgone) (by decide)

end Csiebox.PortRegister
