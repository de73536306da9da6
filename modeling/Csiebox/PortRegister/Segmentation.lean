import Csiebox.PortRegister.Allocation

namespace Csiebox.PortRegister

open CellHeap CBytes Hash

section Connection

-- What `read` delivers of the pieces in which the bytes of a connection arrive, and
-- what is left of them.
def readPiece (size : Nat) : List Bytes → Bytes × List Bytes
  | [] => ([], [])
  | piece :: pieces =>
      (piece.take size, if piece.length ≤ size then pieces else piece.drop size :: pieces)

-- The bytes of the two `read` calls of `handle_request`.
def readRequest (pieces : List Bytes) : Bytes × Bytes :=
  let (first, pieces) := readPiece 1 pieces
  (first, (readPiece registerProtocolBufSize pieces).1)

def handleRequest (mallocRecord mallocNode : Bool) (s : Registrar) (pieces : List Bytes) :
    Option Int × Registrar :=
  registrarRequest mallocRecord mallocNode s (readRequest pieces).1 (readRequest pieces).2

-- What `server_start` and `client_start` send.
def serverStart (name : Bytes) : Bytes := 0x30 :: name

def clientStart (name : Bytes) : Bytes := 0x31 :: name

-- A way in which the transport can deliver a message.
structure Splits (message : Bytes) (pieces : List Bytes) : Prop where
  whole : pieces.flatten = message
  nonempty : ∀ piece ∈ pieces, piece ≠ []

-- The registrar acts on the whole name both times, and the port of the booking, unless
-- it is the -1 of a failure, is what the query right behind it yields.
structure SplittingsAgree (mallocRecord mallocNode : Bool) (s : Registrar) (name : Bytes)
    (booking query : List Bytes) : Prop where
  booksName : (readRequest booking).2 = name
  queriesName : (readRequest query).2 = name
  obtains : ∀ port, (handleRequest mallocRecord mallocNode s booking).1 = some port → port ≠ -1 →
    (handleRequest mallocRecord mallocNode (handleRequest mallocRecord mallocNode s booking).2 query).1 =
      some port

-- The name behind the first byte arrives in one piece.
def Uncut (name : Bytes) (pieces : List Bytes) : Prop :=
  ∃ act, pieces = [act :: name] ∨ pieces = [[act], name]

end Connection

section Splittings

variable {act : UInt8} {name : Bytes} {pieces booking query : List Bytes}

theorem flatten_ne_nil {piece : Bytes} {pieces : List Bytes}
    (hnonempty : ∀ p ∈ piece :: pieces, p ≠ []) : piece ++ pieces.flatten ≠ [] :=
  List.append_ne_nil_of_left_ne_nil (hnonempty piece (List.mem_cons_self ..)) _

-- The first byte comes alone or with a part of the name.
theorem splits_cons (hsplits : Splits (act :: name) pieces) :
    ∃ part rest, pieces = (act :: part) :: rest ∧ part ++ rest.flatten = name ∧
      ∀ piece ∈ rest, piece ≠ [] := by
  obtain ⟨hwhole, hnonempty⟩ := hsplits
  cases pieces with
  | nil => cases hwhole
  | cons piece rest =>
      cases piece with
      | nil => exact absurd rfl (hnonempty [] (List.mem_cons_self ..))
      | cons b part =>
          obtain ⟨rfl, hname⟩ := List.cons.inj hwhole
          exact ⟨part, rest, rfl, hname, fun piece h => hnonempty piece (List.mem_cons_of_mem _ h)⟩

theorem readRequest_first (hsplits : Splits (act :: name) pieces) : (readRequest pieces).1 = [act] := by
  obtain ⟨part, rest, rfl, -, -⟩ := splits_cons hsplits
  rfl

-- A first piece that is the name leaves nothing for the others.
theorem eq_single {piece : Bytes} {rest : List Bytes} (hnonempty : ∀ p ∈ rest, p ≠ [])
    (hname : piece ++ rest.flatten = piece) : rest = [] := by
  cases rest with
  | nil => rfl
  | cons p ps =>
      have hempty : (p :: ps).flatten = [] := by simpa using hname
      exact absurd hempty (flatten_ne_nil hnonempty)

theorem reads_name_iff (hsplits : Splits (act :: name) pieces) (hne : name ≠ [])
    (hlen : name.length ≤ registerProtocolBufSize) :
    (readRequest pieces).2 = name ↔ Uncut name pieces := by
  obtain ⟨part, rest, rfl, hname, hnonempty⟩ := splits_cons hsplits
  have hshort : part.length + rest.flatten.length ≤ registerProtocolBufSize := by
    rw [← List.length_append, hname]
    exact hlen
  cases part with
  | nil =>
      cases rest with
      | nil => exact absurd hname.symm hne
      | cons piece rest =>
          have hpiece : piece.length ≤ registerProtocolBufSize := by
            simp only [List.flatten_cons, List.length_append] at hshort
            omega
          have hread : (readRequest ([act] :: piece :: rest)).2 = piece := List.take_of_length_le hpiece
          rw [hread]
          constructor
          · rintro rfl
            have hrest : rest = [] :=
              eq_single (fun p h => hnonempty p (List.mem_cons_of_mem _ h)) hname
            exact ⟨act, .inr (by rw [hrest])⟩
          · rintro ⟨_, h | h⟩ <;> simp_all
  | cons b part =>
      have hread : (readRequest ((act :: b :: part) :: rest)).2 = b :: part := by
        have hpart : (b :: part).length ≤ registerProtocolBufSize := by omega
        simp only [readRequest, readPiece, List.length_cons]
        rw [if_neg (by omega)]
        exact List.take_of_length_le hpart
      rw [hread]
      constructor
      · rintro rfl
        exact ⟨act, .inl (by rw [eq_single hnonempty hname])⟩
      · rintro ⟨_, h | h⟩ <;> simp_all

variable {s : Registrar} {codeMap : CodeMap Nat} {ports : Int → Option Int}

theorem handle_booking (mallocRecord mallocNode : Bool) (hsplits : Splits (serverStart name) booking)
    (hne : name ≠ []) (hreads : (readRequest booking).2 = name) :
    handleRequest mallocRecord mallocNode s booking =
      (some (bookPort mallocRecord mallocNode s name).1, (bookPort mallocRecord mallocNode s name).2) := by
  rw [handleRequest, readRequest_first hsplits, hreads]
  simp [registrarRequest, hne]

theorem handle_query (mallocRecord mallocNode : Bool) (hsplits : Splits (clientStart name) query)
    (hne : name ≠ []) (hreads : (readRequest query).2 = name) :
    handleRequest mallocRecord mallocNode s query = (some (getPort s name), s) := by
  rw [handleRequest, readRequest_first hsplits, hreads]
  simp [registrarRequest, hne]

-- Over whole names the answer is the booked port, unless the record could not be stored.
theorem answered_iff (hp : Ports s codeMap ports) (mallocRecord mallocNode : Bool) :
    ((bookPort mallocRecord mallocNode s name).1 ≠ -1 →
      getPort (bookPort mallocRecord mallocNode s name).2 name =
        (bookPort mallocRecord mallocNode s name).1) ↔
      ((0 : Int) ∈ s.portReserve → ¬Booked s name → mallocRecord = true → mallocNode = true) := by
  constructor
  · intro hanswered hfree hnew hrecord
    subst hrecord
    cases mallocNode with
    | true => rfl
    | false =>
        obtain ⟨i, -, hbook⟩ := bookPort_no_node hp hfree hnew
        rw [hbook] at hanswered
        have hport := hanswered (slot_port_ne i)
        rw [getPort, getFromHash_models hp.models, not_booked hp hnew] at hport
        exact absurd hport.symm (slot_port_ne i)
  · intro hnode
    by_cases hfree : (0 : Int) ∈ s.portReserve
    · by_cases hnew : Booked s name
      · exact ((allOrNothing_iff hp mallocRecord mallocNode).mpr (.inr (.inl hnew))).answered
      · cases mallocRecord with
        | false =>
            obtain ⟨i, -, hbook⟩ := bookPort_no_record hp hfree hnew mallocNode
            rw [hbook]
            exact fun h => absurd rfl h
        | true =>
            rw [hnode hfree hnew rfl]
            exact ((allOrNothing_iff hp true true).mpr (.inr (.inr ⟨rfl, rfl⟩))).answered
    · rw [bookPort_no_port hfree]
      exact fun h => absurd rfl h

theorem splittings_agree (hp : Ports s codeMap ports) (mallocRecord mallocNode : Bool)
    (hne : name ≠ []) (hlen : name.length ≤ registerProtocolBufSize)
    (hbooking : Splits (serverStart name) booking) (hquery : Splits (clientStart name) query) :
    SplittingsAgree mallocRecord mallocNode s name booking query ↔
      Uncut name booking ∧ Uncut name query ∧
        ((0 : Int) ∈ s.portReserve → ¬Booked s name → mallocRecord = true → mallocNode = true) := by
  rw [← reads_name_iff hbooking hne hlen, ← reads_name_iff hquery hne hlen, ← answered_iff hp]
  constructor
  · rintro ⟨hbooks, hqueries, hobtains⟩
    rw [handle_booking _ _ hbooking hne hbooks, handle_query _ _ hquery hne hqueries] at hobtains
    exact ⟨hbooks, hqueries, fun hport => Option.some.inj (hobtains _ rfl hport)⟩
  · rintro ⟨hbooks, hqueries, hanswered⟩
    refine ⟨hbooks, hqueries, fun port hgiven hport => ?_⟩
    rw [handle_booking _ _ hbooking hne hbooks] at hgiven ⊢
    obtain rfl := Option.some.inj hgiven
    rw [handle_query _ _ hquery hne hqueries]
    exact congrArg some (hanswered hport)

end Splittings

-- In every state of the registrar two splittings of a name agree exactly when neither
-- cuts the name and the booked record, if it is a new one, can be stored.
theorem splittings_agree_iff (probe : Nat → Bool) (calls : List Call) (mallocRecord mallocNode : Bool)
    (name : Bytes) (hne : name ≠ []) (hlen : name.length ≤ 510) (booking query : List Bytes)
    (hbooking : Splits (serverStart name) booking) (hquery : Splits (clientStart name) query) :
    ∃ s, runCalls calls (Registrar.boot probe) = some s ∧
      (SplittingsAgree mallocRecord mallocNode s name booking query ↔
        Uncut name booking ∧ Uncut name query ∧
          ((0 : Int) ∈ s.portReserve → ¬Booked s name → mallocRecord = true → mallocNode = true)) := by
  obtain ⟨s, hrun, codeMap, ports, hr⟩ := runCalls_registry (boot_registry probe) calls
  have hfits : name.length ≤ registerProtocolBufSize := hlen.trans (by decide)
  exact ⟨s, hrun, splittings_agree hr.toPorts mallocRecord mallocNode hne hfits hbooking hquery⟩

-- "ab" is booked in one piece behind the '0', and queried in one piece with the '1'.
theorem splittings_agree_iff_whole :
    SplittingsAgree true true (Registrar.boot fun _ => false) [0x61, 0x62]
      [[0x30], [0x61, 0x62]] [[0x31, 0x61, 0x62]] := by
  obtain ⟨s, hrun, hiff⟩ := splittings_agree_iff (fun _ => false) [] true true [0x61, 0x62]
    (by decide) (by decide) [[0x30], [0x61, 0x62]] [[0x31, 0x61, 0x62]]
    ⟨rfl, by decide⟩ ⟨rfl, by decide⟩
  obtain rfl := Option.some.inj hrun
  exact hiff.mpr ⟨⟨0x30, .inr rfl⟩, ⟨0x31, .inl rfl⟩, fun _ _ h => h⟩

-- The booking of "ab" comes in two pieces: the port is given to "a".
theorem cut_name_loses_port :
    ¬∀ s, runCalls [] (Registrar.boot fun _ => false) = some s →
      ∀ name : Bytes, name ≠ [] → name.length ≤ 510 → ∀ booking query : List Bytes,
        Splits (serverStart name) booking → Splits (clientStart name) query →
          SplittingsAgree true true s name booking query := by
  intro hall
  have hagree := hall _ rfl [0x61, 0x62] (by decide) (by decide) [[0x30, 0x61], [0x62]]
    [[0x31, 0x61, 0x62]] ⟨rfl, by decide⟩ ⟨rfl, by decide⟩
  exact absurd hagree.booksName (by decide)

end Csiebox.PortRegister
