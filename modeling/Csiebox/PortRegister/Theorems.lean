import Csiebox.PortRegister.Lemmas

namespace Csiebox.PortRegister

open CellHeap CBytes Hash

section Requests

-- A name as one `read` into the registrar's buffer delivers it.
structure Name where
  bytes : Bytes
  nonempty : bytes ≠ []
  fits : bytes.length ≤ registerProtocolBufSize
deriving DecidableEq

inductive Request where
  | book (name : Name)
  | query (name : Name)
deriving DecidableEq

def Request.serve (s : Registrar) : Request → Option Int × Registrar
  | .book name => registrarRequest true true s [0x30] name.bytes
  | .query name => registrarRequest true true s [0x31] name.bytes

-- The port of the latest successful booking of `name`, after one more request.
def latestPort (name : Name) (latest : Int) (reply : Option Int) : Request → Int
  | .book booked => if booked = name ∧ reply ≠ some (-1) then reply.getD latest else latest
  | .query _ => latest

-- In every state of the run the answer for `name` is its own latest booking.
def AnswersOwnBookings (name : Name) : List Request → Registrar → Int → Prop
  | [], s, latest => getPort s name.bytes = latest
  | q :: qs, s, latest =>
      getPort s name.bytes = latest ∧ (q = .query name → (q.serve s).1 = some latest) ∧
        AnswersOwnBookings name qs (q.serve s).2 (latestPort name latest (q.serve s).1 q)

-- Another name with the same last four bytes.
def Twin (name other : Name) : Prop :=
  other ≠ name ∧ lastPadded 4 other.bytes = lastPadded 4 name.bytes

-- No twin of `name` is booked while a port is free.
def NoTwinBooked (name : Name) : List Request → Registrar → Prop
  | [], _ => True
  | q :: qs, s =>
      (∀ other, q = .book other → Twin name other → (0 : Int) ∉ s.portReserve) ∧
        NoTwinBooked name qs (q.serve s).2

end Requests

section Runs

variable {s : Registrar} {codeMap : CodeMap Nat} {ports : Int → Option Int}

theorem book_serve (name : Name) :
    (Request.book name).serve s =
      (some (bookPort true true s name.bytes).1, (bookPort true true s name.bytes).2) := by
  simp [Request.serve, registrarRequest, name.nonempty]

theorem query_serve (name : Name) :
    (Request.query name).serve s = (some (getPort s name.bytes), s) := by
  simp [Request.serve, registrarRequest, name.nonempty]

theorem serve_ports (hp : Ports s codeMap ports) (q : Request) :
    ∃ codeMap' ports', Ports (q.serve s).2 codeMap' ports' := by
  cases q with
  | book name =>
      rw [book_serve]
      by_cases hfree : (0 : Int) ∈ s.portReserve
      · obtain ⟨i, -, -, -, codeMap', hp'⟩ := bookPort_free hp hfree name.bytes
        exact ⟨codeMap', _, hp'⟩
      · rw [bookPort_full hfree]
        exact ⟨codeMap, ports, hp⟩
  | query name =>
      rw [query_serve]
      exact ⟨codeMap, ports, hp⟩

-- A booking changes the answers of exactly the names that end in the same
-- four bytes.
theorem getPort_after_book (hp : Ports s codeMap ports) (hfree : (0 : Int) ∈ s.portReserve)
    (booked : Name) (bytes : Bytes) :
    getPort ((Request.book booked).serve s).2 bytes =
      if lastPadded 4 booked.bytes = lastPadded 4 bytes then (bookPort true true s booked.bytes).1
      else getPort s bytes := by
  obtain ⟨i, -, hport, -, codeMap', hp'⟩ := bookPort_free hp hfree booked.bytes
  rw [book_serve, getPort_eq hp', getPort_eq hp, hport]
  by_cases hcode : getHashCode booked.bytes = getHashCode bytes
  · rw [if_pos ((getHashCode_eq_iff _ _).mp hcode), hcode]
    simp
  · rw [if_neg (fun h => hcode ((getHashCode_eq_iff _ _).mpr h)),
      Function.update_of_ne (Ne.symm hcode)]

theorem bookPort_ne (hp : Ports s codeMap ports) (hfree : (0 : Int) ∈ s.portReserve)
    (booked : Name) (bytes : Bytes) :
    (bookPort true true s booked.bytes).1 ≠ -1 ∧
      (bookPort true true s booked.bytes).1 ≠ getPort s bytes := by
  obtain ⟨i, hi, hport, -⟩ := bookPort_free hp hfree booked.bytes
  have hpos : (i : Int) + defaultRegisterPort + 1 ≠ -1 := by
    unfold defaultRegisterPort
    omega
  rw [hport, getPort_eq hp]
  refine ⟨hpos, ?_⟩
  cases hc : ports (getHashCode bytes) with
  | none => exact hpos
  | some port =>
      obtain ⟨j, rfl, v, hv, hne⟩ := hp.reserved _ _ hc
      intro heq
      obtain rfl : i = j := by
        simp only [Option.getD_some] at heq
        omega
      rw [hi] at hv
      exact hne (Option.some.inj hv).symm

-- The answer for `name` stays its own latest booking over one request exactly
-- when that request does not book a twin.
theorem serve_step (hp : Ports s codeMap ports) (name : Name) (q : Request) :
    getPort (q.serve s).2 name.bytes =
        latestPort name (getPort s name.bytes) (q.serve s).1 q ↔
      ∀ other, q = .book other → Twin name other → (0 : Int) ∉ s.portReserve := by
  cases q with
  | query queried => simp [query_serve, latestPort]
  | book booked =>
      by_cases hfree : (0 : Int) ∈ s.portReserve
      · obtain ⟨hne, hnew⟩ := bookPort_ne hp hfree booked name.bytes
        rw [getPort_after_book hp hfree, book_serve]
        by_cases hsame : booked = name
        · subst hsame
          simp [latestPort, hne, Twin]
        · by_cases hlast : lastPadded 4 booked.bytes = lastPadded 4 name.bytes
          · simp [latestPort, hsame, hlast, hnew, Twin, hfree]
          · simp [latestPort, hsame, hlast, Twin]
      · simp [book_serve, bookPort_full hfree, latestPort, hfree]

theorem answers_iff (hp : Ports s codeMap ports) (name : Name) (qs : List Request) :
    AnswersOwnBookings name qs s (getPort s name.bytes) ↔ NoTwinBooked name qs s := by
  induction qs generalizing s codeMap ports with
  | nil => simp [AnswersOwnBookings, NoTwinBooked]
  | cons q qs ih =>
      obtain ⟨codeMap', ports', hp'⟩ := serve_ports hp q
      have hquery : q = .query name → (q.serve s).1 = some (getPort s name.bytes) := by
        rintro rfl
        rw [query_serve]
      have hfirst : ∀ latest, AnswersOwnBookings name qs (q.serve s).2 latest →
          getPort (q.serve s).2 name.bytes = latest := by
        intro latest h
        cases qs with
        | nil => exact h
        | cons _ _ => exact h.1
      constructor
      · rintro ⟨-, -, hrest⟩
        have hkept := hfirst _ hrest
        refine ⟨(serve_step hp name q).mp hkept, (ih hp').mp ?_⟩
        rw [hkept]
        exact hrest
      · rintro ⟨hsafe, hrest⟩
        refine ⟨rfl, hquery, ?_⟩
        rw [← (serve_step hp name q).mpr hsafe]
        exact (ih hp').mpr hrest

end Runs

-- The registrar answers a name with that name's own latest port along exactly
-- the runs in which no name with the same last four bytes gets a port.
theorem answers_own_bookings_iff (bindFails : Nat → Bool) (name : Name) (qs : List Request) :
    AnswersOwnBookings name qs (Registrar.boot bindFails) (-1) ↔
      NoTwinBooked name qs (Registrar.boot bindFails) := by
  have hboot : getPort (Registrar.boot bindFails) name.bytes = -1 :=
    getPort_eq (boot_ports bindFails) name.bytes
  rw [← hboot]
  exact answers_iff (boot_ports bindFails) name qs

-- After "Xabcd" is booked, booking "Yabcd" changes the answer for "Xabcd".
theorem twin_takes_over :
    ¬AnswersOwnBookings ⟨[0x58, 0x61, 0x62, 0x63, 0x64], by decide, by decide⟩
      [.book ⟨[0x58, 0x61, 0x62, 0x63, 0x64], by decide, by decide⟩,
        .book ⟨[0x59, 0x61, 0x62, 0x63, 0x64], by decide, by decide⟩]
      (Registrar.boot fun _ => false) (-1) := by
  rintro ⟨-, -, -, -, hend⟩
  simp only [AnswersOwnBookings] at hend
  exact absurd hend (by decide +kernel)

end Csiebox.PortRegister
