import Csiebox.PortRegister.Cleanup.Theorems

namespace Csiebox.PortRegister

open CellHeap CBytes Hash

section Calls

-- What the registrar does in one turn of its loop, with the outcomes of the two
-- allocations a booking can make.
inductive Call where
  | book (mallocRecord mallocNode : Bool) (name : Bytes)
  | query (name : Bytes)
  | tick (bindFails : Int → Bool)

def Call.step (s : Registrar) : Call → Option Registrar
  | .book mallocRecord mallocNode name => some (bookPort mallocRecord mallocNode s name).2
  | .query _ => some s
  | .tick bindFails => cleanPortReserve bindFails s

def runCalls (calls : List Call) (s : Registrar) : Option Registrar := calls.foldlM Call.step s

-- A port that is handed out is the one `get_port` finds next; a failure leaves no
-- trace in the two tables.
structure AllOrNothing (mallocRecord mallocNode : Bool) (s : Registrar) (name : Bytes) : Prop where
  answered : (bookPort mallocRecord mallocNode s name).1 ≠ -1 →
    getPort (bookPort mallocRecord mallocNode s name).2 name =
      (bookPort mallocRecord mallocNode s name).1
  unchanged : (bookPort mallocRecord mallocNode s name).1 = -1 →
    (bookPort mallocRecord mallocNode s name).2 = s

-- A record is stored under the code of the name.
def Booked (s : Registrar) (name : Bytes) : Prop :=
  (getFromHash s.recordHash (getHashCode name)).1 = 1

end Calls

section Booking

variable {s : Registrar} {codeMap : CodeMap Nat} {ports : Int → Option Int} {name : Bytes}

theorem booked_iff (hp : Ports s codeMap ports) :
    Booked s name ↔ ∃ r, codeMap (getHashCode name) = some r := by
  rw [Booked, getFromHash_models hp.models]
  cases codeMap (getHashCode name) with
  | none => simp
  | some r => simp

theorem not_booked (hp : Ports s codeMap ports) (hnew : ¬Booked s name) :
    codeMap (getHashCode name) = none :=
  Option.eq_none_iff_forall_ne_some.mpr fun r hr => hnew ((booked_iff hp).mpr ⟨r, hr⟩)

theorem bookPort_no_port (hfull : (0 : Int) ∉ s.portReserve) (mallocRecord mallocNode : Bool) :
    bookPort mallocRecord mallocNode s name = (-1, s) := by
  simp [bookPort, getNextPort_full hfull]

-- A name that is booked needs no allocation.
theorem bookPort_booked (hp : Ports s codeMap ports) (hbooked : Booked s name)
    (mallocRecord mallocNode : Bool) :
    bookPort mallocRecord mallocNode s name = bookPort true true s name := by
  obtain ⟨r, hr⟩ := (booked_iff hp).mp hbooked
  by_cases hfree : (0 : Int) ∈ s.portReserve
  · obtain ⟨i, -, hnext⟩ := getNextPort_free hfree
    simp only [bookPort, hnext, getFromHash_models hp.models, hr]
  · rw [bookPort_no_port hfree, bookPort_no_port hfree]

theorem slot_port_ne (i : Nat) : (i : Int) + defaultRegisterPort + 1 ≠ -1 := by
  unfold defaultRegisterPort
  omega

-- Without a record the slot is taken all the same.
theorem bookPort_no_record (hp : Ports s codeMap ports) (hfree : (0 : Int) ∈ s.portReserve)
    (hnew : ¬Booked s name) (mallocNode : Bool) :
    ∃ i : Nat, s.portReserve[i]? = some 0 ∧ bookPort false mallocNode s name =
      (-1, { s with portReserve := s.portReserve.set i 1 }) := by
  obtain ⟨i, hi, hnext⟩ := getNextPort_free hfree
  have hnone := not_booked hp hnew
  refine ⟨i, hi, ?_⟩
  simp only [bookPort, hnext, if_neg (slot_port_ne i), getFromHash_models hp.models, hnone]
  rfl

-- Without a node the record is in no chain, and the port is returned all the same.
theorem bookPort_no_node (hp : Ports s codeMap ports) (hfree : (0 : Int) ∈ s.portReserve)
    (hnew : ¬Booked s name) :
    ∃ i : Nat, s.portReserve[i]? = some 0 ∧ bookPort true false s name =
      (i + defaultRegisterPort + 1, { s with
        portReserve := s.portReserve.set i 1
        records := alloc s.records
          { name := strncpy name name.length, port := i + defaultRegisterPort + 1 } }) := by
  obtain ⟨i, hi, hnext⟩ := getNextPort_free hfree
  have hnone := not_booked hp hnew
  refine ⟨i, hi, ?_⟩
  simp only [bookPort, hnext, if_neg (slot_port_ne i), getFromHash_models hp.models, hnone,
    putIntoHash_noMemory]
  rfl

-- A slot that is taken for nobody, and a record nobody finds, disturb nothing.
theorem Registry.leak (hr : Registry s codeMap ports) (i : Nat) {records : Heap Record}
    (hrecords : ∀ r record, read s.records r = some record → read records r = some record) :
    Registry { s with portReserve := s.portReserve.set i 1, records } codeMap ports where
  models := hr.models
  stored := by
    intro code r hcode
    obtain ⟨record, hread, hport⟩ := hr.stored code r hcode
    exact ⟨record, hrecords r record hread, hport⟩
  unbound := hr.unbound
  separate := hr.separate
  reserved := fun code port hport => reserved_set (hr.reserved code port hport)
  size := (List.length_set ..).trans hr.size
  bits := by
    intro v hv
    rcases List.mem_or_eq_of_mem_set hv with hv | rfl
    · exact hr.bits v hv
    · exact Or.inr rfl
  exclusive := hr.exclusive

theorem bookPort_registry_any (hr : Registry s codeMap ports) (mallocRecord mallocNode : Bool)
    (name : Bytes) :
    ∃ codeMap' ports', Registry (bookPort mallocRecord mallocNode s name).2 codeMap' ports' := by
  by_cases hfree : (0 : Int) ∈ s.portReserve
  · by_cases hbooked : Booked s name
    · rw [bookPort_booked hr.toPorts hbooked]
      exact bookPort_registry hr name
    · cases mallocRecord with
      | false =>
          obtain ⟨i, -, hbook⟩ := bookPort_no_record hr.toPorts hfree hbooked mallocNode
          rw [hbook]
          exact ⟨codeMap, ports, hr.leak i fun _ _ h => h⟩
      | true =>
          cases mallocNode with
          | false =>
              obtain ⟨i, -, hbook⟩ := bookPort_no_node hr.toPorts hfree hbooked
              rw [hbook]
              exact ⟨codeMap, ports,
                hr.leak i fun r record h => (read_alloc_old _ (read_lt h)).trans h⟩
          | true => exact bookPort_registry hr name
  · rw [bookPort_no_port hfree]
    exact ⟨codeMap, ports, hr⟩

theorem runCalls_registry (hr : Registry s codeMap ports) (calls : List Call) :
    ∃ s', runCalls calls s = some s' ∧ ∃ codeMap' ports', Registry s' codeMap' ports' := by
  induction calls generalizing s codeMap ports with
  | nil => exact ⟨s, rfl, codeMap, ports, hr⟩
  | cons call calls ih =>
      have hstep : ∃ s₁, call.step s = some s₁ ∧ ∃ codeMap₁ ports₁, Registry s₁ codeMap₁ ports₁ := by
        cases call with
        | book mallocRecord mallocNode name =>
            exact ⟨_, rfl, bookPort_registry_any hr mallocRecord mallocNode name⟩
        | query name => exact ⟨s, rfl, codeMap, ports, hr⟩
        | tick bindFails => exact cleanPortReserve_registry hr bindFails
      obtain ⟨s₁, hs₁, codeMap₁, ports₁, hr₁⟩ := hstep
      obtain ⟨s₂, hrun, hrest⟩ := ih hr₁
      refine ⟨s₂, ?_, hrest⟩
      rw [runCalls, List.foldlM_cons, hs₁]
      exact hrun

theorem bookPort_answered (hp : Ports s codeMap ports) (hfree : (0 : Int) ∈ s.portReserve) :
    getPort (bookPort true true s name).2 name = (bookPort true true s name).1 := by
  obtain ⟨i, -, hport, -, codeMap', hp'⟩ := bookPort_free hp hfree name
  rw [getPort_eq hp', hport, Function.update_self]
  rfl

theorem set_ne_self {i : Nat} (hi : s.portReserve[i]? = some 0) :
    s.portReserve.set i 1 ≠ s.portReserve := by
  intro heq
  have hlt := (List.getElem?_eq_some_iff.mp hi).1
  rw [← heq, List.getElem?_set_self hlt] at hi
  exact absurd (Option.some.inj hi) (by decide)

theorem allOrNothing_iff (hp : Ports s codeMap ports) (mallocRecord mallocNode : Bool) :
    AllOrNothing mallocRecord mallocNode s name ↔
      (0 : Int) ∉ s.portReserve ∨ Booked s name ∨ (mallocRecord = true ∧ mallocNode = true) := by
  have hsuccess : (0 : Int) ∈ s.portReserve → AllOrNothing true true s name := by
    intro hfree
    refine ⟨fun _ => bookPort_answered hp hfree, fun hfailed => ?_⟩
    obtain ⟨i, -, hport, -⟩ := bookPort_free hp hfree name
    exact absurd (hport.symm.trans hfailed) (slot_port_ne i)
  by_cases hfree : (0 : Int) ∈ s.portReserve
  · by_cases hbooked : Booked s name
    · refine iff_of_true ?_ (.inr (.inl hbooked))
      have hsame := bookPort_booked hp hbooked mallocRecord mallocNode
      have hall := hsuccess hfree
      exact ⟨by rw [hsame]; exact hall.answered, by rw [hsame]; exact hall.unchanged⟩
    · have hnot : ∀ {b : Bool}, b = false → ¬((0 : Int) ∉ s.portReserve ∨ Booked s name ∨ b = true) := by
        rintro b rfl (h | h | h)
        · exact h hfree
        · exact hbooked h
        · cases h
      cases mallocRecord with
      | false =>
          refine iff_of_false (fun hall => ?_) fun h => hnot rfl (h.imp_right fun h => h.imp_right And.left)
          obtain ⟨i, hi, hbook⟩ := bookPort_no_record hp hfree hbooked mallocNode
          have hsame := hall.unchanged (by rw [hbook])
          rw [hbook] at hsame
          exact set_ne_self hi (congrArg Registrar.portReserve hsame)
      | true =>
          cases mallocNode with
          | false =>
              refine iff_of_false (fun hall => ?_) fun h =>
                hnot rfl (h.imp_right fun h => h.imp_right And.right)
              obtain ⟨i, -, hbook⟩ := bookPort_no_node hp hfree hbooked
              have hport := hall.answered (by rw [hbook]; exact slot_port_ne i)
              rw [hbook, getPort, getFromHash_models hp.models, not_booked hp hbooked] at hport
              exact slot_port_ne i hport.symm
          | true => exact iff_of_true (hsuccess hfree) (.inr (.inr ⟨rfl, rfl⟩))
  · refine iff_of_true ⟨fun hport => ?_, fun _ => ?_⟩ (.inl hfree)
    · rw [bookPort_no_port hfree] at hport
      exact absurd rfl hport
    · rw [bookPort_no_port hfree]

end Booking

-- In every state the registrar gets into, a booking is all or nothing exactly when there
-- is no port to give, the name is booked already, or both allocations succeed.
theorem book_all_or_nothing_iff (probe : Nat → Bool) (calls : List Call) :
    ∃ s, runCalls calls (Registrar.boot probe) = some s ∧
      ∀ name mallocRecord mallocNode, AllOrNothing mallocRecord mallocNode s name ↔
        (0 : Int) ∉ s.portReserve ∨ Booked s name ∨ (mallocRecord = true ∧ mallocNode = true) := by
  obtain ⟨s, hrun, codeMap, ports, hr⟩ := runCalls_registry (boot_registry probe) calls
  exact ⟨s, hrun, fun name mallocRecord mallocNode => allOrNothing_iff hr.toPorts mallocRecord mallocNode⟩

-- "a" is given port 2501, but no node can be allocated for its record.
theorem booking_without_node :
    ¬∀ s, runCalls [] (Registrar.boot fun _ => false) = some s →
      ∀ name mallocRecord mallocNode, AllOrNothing mallocRecord mallocNode s name := by
  intro hall
  have hbook := hall _ rfl [0x61] true false
  have hport : (bookPort true false (Registrar.boot fun _ => false) [0x61]).1 = 2501 := by
    decide +kernel
  have hquery : getPort (bookPort true false (Registrar.boot fun _ => false) [0x61]).2 [0x61] = -1 := by
    decide +kernel
  have hanswer := hbook.answered (by rw [hport]; decide)
  rw [hport, hquery] at hanswer
  exact absurd hanswer (by decide)

end Csiebox.PortRegister
