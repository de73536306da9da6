import Csiebox.PortRegister
import Csiebox.Hash.Theorems

namespace Csiebox.PortRegister

open CellHeap CBytes Hash

theorem wrap32_step (v c : Int) : wrap32 (wrap32 (wrap32 v * 256) + c) = wrap32 (v * 256 + c) := by
  rw [wrap32_eq_iff]
  exact ((wrap32_modEq _).trans ((wrap32_modEq v).mul_right 256)).add_right c

theorem foldl_wrap (v : Int) (name : Bytes) :
    name.foldl (fun code b => wrap32 (wrap32 (code * 256) + charInt b)) (wrap32 v) =
      wrap32 (name.foldl (fun v b => v * 256 + charInt b) v) := by
  induction name generalizing v with
  | nil => rfl
  | cons b name ih => rw [List.foldl_cons, List.foldl_cons, wrap32_step, ih]

theorem getHashCode_eq (name : Bytes) : getHashCode name = wrap32 (signedValue name) :=
  foldl_wrap 0 name

-- 256 ^ 4 vanishes modulo 2 ^ 32, so the code sees the last four bytes only.
theorem getHashCode_eq_iff (a b : Bytes) :
    getHashCode a = getHashCode b ↔ lastPadded 4 a = lastPadded 4 b := by
  have hmod : (256 : Int) ^ 4 = 2 ^ 32 := by norm_num
  have ha := signedValue_modEq_lastPadded 4 a
  have hb := signedValue_modEq_lastPadded 4 b
  rw [getHashCode_eq, getHashCode_eq, wrap32_eq_iff]
  rw [hmod] at ha hb
  constructor
  · intro h
    apply signedValue_injective (by simp)
    rw [lastPadded_length, hmod]
    exact (ha.symm.trans h).trans hb
  · intro h
    rw [h] at ha
    exact ha.trans hb.symm

section Ports

-- A port whose slot of `port_reserve` is not free.
def Reserved (s : Registrar) (port : Int) : Prop :=
  ∃ i : Nat, port = i + defaultRegisterPort + 1 ∧ ∃ v, s.portReserve[i]? = some v ∧ v ≠ 0

-- The registrar as a map from hash codes to ports: `codeMap` is the table's map
-- from codes to record addresses.
structure Ports (s : Registrar) (codeMap : CodeMap Nat) (ports : Int → Option Int) : Prop where
  models : Models s.recordHash codeMap
  stored : ∀ code r, codeMap code = some r →
    ∃ record, read s.records r = some record ∧ ports code = some record.port
  unbound : ∀ code, codeMap code = none → ports code = none
  separate : ∀ code code' r, codeMap code = some r → codeMap code' = some r → code = code'
  reserved : ∀ code port, ports code = some port → Reserved s port

variable {s : Registrar} {codeMap : CodeMap Nat} {ports : Int → Option Int}

theorem boot_ports (bindFails : Nat → Bool) :
    Ports (Registrar.boot bindFails) (fun _ => none) (fun _ => none) where
  models := models_init (by decide)
  stored := by simp
  unbound := by simp
  separate := by simp
  reserved := by simp

theorem getFromHash_models {h : Hash Nat} {m : CodeMap Nat} (hm : Models h m) (code : Int) :
    getFromHash h code = match m code with
      | none => (0, none)
      | some r => (1, some r) := by
  have hstep := (get_step hm code).1
  simp only [Op.run, Op.spec] at hstep
  cases hc : m code with
  | none => simpa [hc] using hstep
  | some r => simpa [hc] using hstep

theorem getPort_eq (hp : Ports s codeMap ports) (name : Bytes) :
    getPort s name = (ports (getHashCode name)).getD (-1) := by
  rw [getPort, getFromHash_models hp.models]
  cases hc : codeMap (getHashCode name) with
  | none => simp [hp.unbound _ hc]
  | some r =>
      obtain ⟨record, hread, hport⟩ := hp.stored _ r hc
      simp [hread, hport]

theorem getNextPort_full (hfull : (0 : Int) ∉ s.portReserve) : getNextPort s = (-1, s) := by
  have hnone : s.portReserve.findIdx? (· == 0) = none := by
    rw [List.findIdx?_eq_none_iff]
    intro v hv
    simp only [beq_eq_false_iff_ne]
    rintro rfl
    exact hfull hv
  simp [getNextPort, hnone]

theorem getNextPort_free (hfree : (0 : Int) ∈ s.portReserve) :
    ∃ i : Nat, s.portReserve[i]? = some 0 ∧
      getNextPort s = (i + defaultRegisterPort + 1, { s with portReserve := s.portReserve.set i 1 }) := by
  cases hf : s.portReserve.findIdx? (· == 0) with
  | none =>
      have hnone := List.findIdx?_eq_none_iff.mp hf 0 hfree
      simp at hnone
  | some i =>
      obtain ⟨hi, hv, -⟩ := List.findIdx?_eq_some_iff_getElem.mp hf
      refine ⟨i, ?_, by simp [getNextPort, hf]⟩
      rw [List.getElem?_eq_getElem hi]
      simpa using hv

theorem bookPort_full (hfull : (0 : Int) ∉ s.portReserve) (name : Bytes) :
    bookPort true true s name = (-1, s) := by
  simp [bookPort, getNextPort_full hfull]

theorem reserved_set {i : Nat} {port : Int} (h : Reserved s port) :
    Reserved { s with portReserve := s.portReserve.set i 1 } port := by
  obtain ⟨j, hport, v, hv, hne⟩ := h
  refine ⟨j, hport, ?_⟩
  by_cases hij : i = j
  · subst j
    have hlt := (List.getElem?_eq_some_iff.mp hv).1
    exact ⟨1, by simp [hlt], by decide⟩
  · exact ⟨v, by rw [List.getElem?_set_ne hij]; exact hv, hne⟩

theorem reserved_new {i : Nat} (hi : s.portReserve[i]? = some 0) :
    Reserved { s with portReserve := s.portReserve.set i 1 } (i + defaultRegisterPort + 1) := by
  have hlt := (List.getElem?_eq_some_iff.mp hi).1
  exact ⟨i, rfl, 1, by simp [hlt], by decide⟩

-- A booking with a free slot points the name's code at the new port and
-- leaves every other code's port alone.
theorem bookPort_free (hp : Ports s codeMap ports) (hfree : (0 : Int) ∈ s.portReserve)
    (name : Bytes) :
    ∃ i : Nat, s.portReserve[i]? = some 0 ∧
      (bookPort true true s name).1 = i + defaultRegisterPort + 1 ∧
      (bookPort true true s name).2.portReserve = s.portReserve.set i 1 ∧
      ∃ codeMap', Ports (bookPort true true s name).2 codeMap'
        (Function.update ports (getHashCode name) (some (i + defaultRegisterPort + 1))) := by
  obtain ⟨i, hi, hnext⟩ := getNextPort_free hfree
  have hport : ¬(i : Int) + defaultRegisterPort + 1 = -1 := by
    unfold defaultRegisterPort
    omega
  refine ⟨i, hi, ?_⟩
  simp only [bookPort, hnext, if_neg hport, getFromHash_models hp.models]
  cases hc : codeMap (getHashCode name) with
  | none =>
      obtain ⟨-, hmodels⟩ := put_step hp.models s.records.length (getHashCode name)
      simp only [Op.spec, hc] at hmodels
      refine ⟨rfl, rfl, _, hmodels, ?_, ?_, ?_, ?_⟩
      · intro code r hr
        by_cases hcode : code = getHashCode name
        · subst code
          obtain rfl : s.records.length = r := by simpa using hr
          exact ⟨_, read_alloc_new _ _, by simp⟩
        · rw [Function.update_of_ne hcode] at hr ⊢
          obtain ⟨record, hread, hp'⟩ := hp.stored code r hr
          exact ⟨record, (read_alloc_old _ (read_lt hread)).trans hread, hp'⟩
      · intro code hr
        by_cases hcode : code = getHashCode name
        · subst code
          simp at hr
        · rw [Function.update_of_ne hcode] at hr ⊢
          exact hp.unbound code hr
      · intro code code' r hr hr'
        by_cases hcode : code = getHashCode name <;> by_cases hcode' : code' = getHashCode name
        · rw [hcode, hcode']
        · subst code
          obtain rfl : s.records.length = r := by simpa using hr
          rw [Function.update_of_ne hcode'] at hr'
          obtain ⟨record, hread, -⟩ := hp.stored code' _ hr'
          exact absurd (read_lt hread) (lt_irrefl _)
        · subst code'
          obtain rfl : s.records.length = r := by simpa using hr'
          rw [Function.update_of_ne hcode] at hr
          obtain ⟨record, hread, -⟩ := hp.stored code _ hr
          exact absurd (read_lt hread) (lt_irrefl _)
        · rw [Function.update_of_ne hcode] at hr
          rw [Function.update_of_ne hcode'] at hr'
          exact hp.separate code code' r hr hr'
      · intro code port hr
        by_cases hcode : code = getHashCode name
        · subst code
          obtain rfl : (i : Int) + defaultRegisterPort + 1 = port := by simpa using hr
          exact reserved_new hi
        · rw [Function.update_of_ne hcode] at hr
          exact reserved_set (hp.reserved code port hr)
  | some r =>
      obtain ⟨record, hread, hold⟩ := hp.stored _ r hc
      simp only [hread]
      refine ⟨trivial, trivial, codeMap, hp.models, ?_, ?_, hp.separate, ?_⟩
      · intro code r' hr'
        by_cases hcode : code = getHashCode name
        · subst code
          obtain rfl : r = r' := by simpa [hc] using hr'
          exact ⟨_, read_write_self _ (read_lt hread), by simp⟩
        · have hne : r ≠ r' := fun he => hcode (hp.separate code _ r' hr' (he ▸ hc))
          obtain ⟨record', hread', hp'⟩ := hp.stored code r' hr'
          exact ⟨record', (read_write_ne _ hne).trans hread', by rw [Function.update_of_ne hcode, hp']⟩
      · intro code hr'
        have hcode : code ≠ getHashCode name := by
          rintro rfl
          simp [hc] at hr'
        rw [Function.update_of_ne hcode]
        exact hp.unbound code hr'
      · intro code port hr'
        by_cases hcode : code = getHashCode name
        · subst code
          obtain rfl : (i : Int) + defaultRegisterPort + 1 = port := by simpa using hr'
          exact reserved_new hi
        · rw [Function.update_of_ne hcode] at hr'
          exact reserved_set (hp.reserved code port hr')

end Ports

end Csiebox.PortRegister
