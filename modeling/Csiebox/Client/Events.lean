import Csiebox.Client
import Csiebox.Lib.Unroll

namespace Csiebox

open CBytes Program Prog

section Layout

-- An event as `read` delivers it. A name is followed by NULs; an event about the watched
-- directory itself has no name and no NUL.
structure InotifyEvent where
  wd : Int
  mask : Nat
  cookie : Nat
  name : CStr
  pad : Nat
  fits : name.val.length + pad < 2 ^ 32
  padded : name.val = [] ↔ pad = 0

-- The name of an event about the watched directory itself.
theorem nil_noNul : ∀ b ∈ ([] : Bytes), b ≠ 0 := by simp

theorem nil_unpadded : ([] : Bytes) = [] ↔ 0 = 0 := by simp

namespace InotifyEvent

variable (event : InotifyEvent)

def len : Nat := event.name.val.length + event.pad

def head : Bytes :=
  leBytes 4 (event.wd % 2 ^ 32).toNat ++ leBytes 4 event.mask ++ leBytes 4 event.cookie ++
    leBytes 4 event.len

def bytes : Bytes := event.head ++ event.name.val ++ zeros event.pad

-- The event without its padding.
def alone : Bytes := event.head ++ event.name.val

end InotifyEvent

def layout (events : List InotifyEvent) : Bytes := (events.map InotifyEvent.bytes).flatten

-- The zeroed buffer behind a `read`, and the memory behind the buffer.
def eventMemory (got behind : Bytes) : Bytes := overlay (zeros eventBufLen) got ++ behind

-- What a turn of the loop finds at `i`: the fixed part of an event and the string behind it.
def visitAt (buffer : Bytes) (i : Nat) : Bytes := slice i eventSize buffer ++ eventName (buffer.drop i)

-- What the turns of the loop find one after the other.
def eventsSeen (buffer : Bytes) (length i : Nat) : List Bytes :=
  if i < length then
    visitAt buffer i :: eventsSeen buffer length (i + eventSize + eventLen (buffer.drop i))
  else []
termination_by length - i
decreasing_by
  unfold eventSize
  omega

-- Behind every event without a name there is a zero byte: the lowest byte of the next
-- `wd`, or what follows the last event.
def NulsBehind (behind : Bytes) : List InotifyEvent → Prop
  | [] => True
  | [event] => event.name.val = [] → behind.headD 0 = 0
  | event :: next :: events =>
      (event.name.val = [] → next.wd % 256 = 0) ∧ NulsBehind behind (next :: events)

end Layout

section Fields

variable {x y : Bytes}

-- An event as the loop sees it.
def seen (x : Bytes) : Bytes := x.take eventSize ++ eventName x

theorem visitAt_eq (buffer : Bytes) (i : Nat) : visitAt buffer i = seen (buffer.drop i) := rfl

theorem seen_slice {off len : Nat} (h : off + len ≤ eventSize) :
    slice off len (seen x) = slice off len x := by
  by_cases hx : eventSize ≤ x.length
  · have htake : (x.take eventSize).length = eventSize := List.length_take_of_le hx
    conv_rhs => rw [← List.take_append_drop eventSize x]
    rw [seen, slice_append_left (by omega), slice_append_left (by omega)]
  · have hdrop : x.drop eventSize = [] := List.drop_eq_nil_of_le (by omega)
    rw [seen, eventName, hdrop, List.take_of_length_le (by omega)]
    exact congrArg (slice off len) (List.append_nil x)

theorem seen_name : eventName (seen x) = eventName x := by
  by_cases hx : eventSize ≤ x.length
  · have htake : (x.take eventSize).length = eventSize := List.length_take_of_le hx
    rw [eventName, seen, List.drop_append_of_le_length htake.ge, List.drop_eq_nil_of_le htake.le,
      List.nil_append]
    exact cString_eq_self cString_nonzero
  · have hdrop : x.drop eventSize = [] := List.drop_eq_nil_of_le (by omega)
    rw [seen, eventName, eventName, hdrop, List.take_of_length_le (by omega)]
    exact congrArg (fun y => cString (List.drop eventSize y))
      (List.append_nil x) |>.trans (congrArg cString hdrop)

-- The code reads `wd`, `mask` and the name of an event.
theorem handleEvent_congr (md5 : Bytes → Mem 16) (client : Client) (hwd : eventWd x = eventWd y)
    (hmask : eventMask x = eventMask y) (hname : eventName x = eventName y) :
    handleEvent md5 x client = handleEvent md5 y client := by
  unfold handleEvent onCreate onDelete onChange eventHas
  rw [hwd, hmask, hname]

theorem handleEvent_seen (md5 : Bytes → Mem 16) (x : Bytes) (client : Client) :
    handleEvent md5 (seen x) client = handleEvent md5 x client := by
  refine handleEvent_congr md5 client ?_ ?_ seen_name
  · rw [eventWd, seen_slice (by decide), eventWd]
  · rw [eventMask, seen_slice (by decide), eventMask]

end Fields

section Loop

variable (md5 : Bytes → Mem 16) (buffer : Bytes) (length : Nat)

theorem eventsSeen_done {i : Nat} (h : length ≤ i) : eventsSeen buffer length i = [] := by
  rw [eventsSeen, if_neg (by omega)]

theorem eventsSeen_next {i : Nat} (h : i < length) : eventsSeen buffer length i =
    visitAt buffer i :: eventsSeen buffer length (i + eventSize + eventLen (buffer.drop i)) := by
  rw [eventsSeen, if_pos h]

-- The loop handles what it finds, and has then come to its end.
theorem events_sameEnds (i : Nat) (client : Client) :
    SameEnds (iter (nextEvent md5 buffer length) (i, client))
      ((eventsSeen buffer length i).foldlM (fun client event => handleEvent md5 event client) client) := by
  induction i using eventsSeen.induct buffer length generalizing client with
  | case1 i hi ih =>
      refine (sameEnds_iter _ _).trans ?_
      rw [eventsSeen_next buffer length hi, List.foldlM_cons, visitAt_eq, handleEvent_seen]
      have hround : nextEvent md5 buffer length (i, client) = handleEvent md5 (buffer.drop i) client >>=
          fun client => ret (.inl (i + eventSize + eventLen (buffer.drop i), client)) :=
        if_neg (by omega)
      rw [hround, bind_assoc]
      exact sameEnds_bind (.refl _) fun client => ih client
  | case2 i hi =>
      refine (sameEnds_iter _ _).trans ?_
      have hround : nextEvent md5 buffer length (i, client) = ret (.inr client) := if_pos (by omega)
      rw [hround, eventsSeen_done buffer length (by omega)]
      exact .refl _

end Loop

section Names

variable (event : InotifyEvent) (rest : Bytes)

@[simp] theorem InotifyEvent.head_length : event.head.length = eventSize := by
  simp only [InotifyEvent.head, List.length_append, leBytes_length, eventSize]

@[simp] theorem InotifyEvent.bytes_length : event.bytes.length = eventSize + event.len := by
  simp only [InotifyEvent.bytes, List.length_append, InotifyEvent.head_length, zeros_length,
    InotifyEvent.len]
  omega

theorem eventLen_bytes : eventLen (event.bytes ++ rest) = event.len := by
  have hslice : slice 12 4 (event.bytes ++ rest) = leBytes 4 event.len := by
    rw [InotifyEvent.bytes, List.append_assoc, List.append_assoc,
      slice_append_left (by simp [eventSize]), InotifyEvent.head, slice_append_right (by simp)]
    exact List.take_of_length_le (leBytes_length ..).le
  have hfits : event.len < 256 ^ 4 := event.fits
  rw [eventLen, hslice, leNat_leBytes, Nat.mod_eq_of_lt hfits]

theorem eventMask_head (x : Bytes) : eventMask (event.head ++ x) = event.mask % 2 ^ 32 := by
  have hslice : slice 4 4 (event.head ++ x) = leBytes 4 event.mask := by
    rw [slice_append_left (by simp [eventSize]), InotifyEvent.head, List.append_assoc, List.append_assoc,
      slice_append_right (by simp), slice_append_left (by simp)]
    exact List.take_of_length_le (leBytes_length ..).le
  exact (congrArg leNat hslice).trans (leNat_leBytes 4 event.mask)

theorem seen_bytes :
    seen (event.bytes ++ rest) = event.head ++ cString (event.name.val ++ (zeros event.pad ++ rest)) := by
  have hbytes : event.bytes ++ rest = event.head ++ (event.name.val ++ (zeros event.pad ++ rest)) := by
    simp only [InotifyEvent.bytes, List.append_assoc]
  rw [hbytes, seen, eventName, List.take_left' event.head_length, List.drop_left' event.head_length]

-- The string behind the fixed part is the name if there is one, and what comes next in
-- memory if there is none.
theorem cString_name_iff : cString (event.name.val ++ (zeros event.pad ++ rest)) = event.name.val ↔
    (event.name.val = [] → rest.headD 0 = 0) := by
  obtain ⟨pad, hpad⟩ : ∃ pad, event.pad = pad := ⟨_, rfl⟩
  cases pad with
  | zero =>
      have hname : event.name.val = [] := event.padded.mpr hpad
      rw [hname, hpad]
      exact cString_eq_nil_iff.trans ⟨fun h _ => h, fun h => h rfl⟩
  | succ pad =>
      have hname : event.name.val ≠ [] := fun h => by
        have hzero := event.padded.mp h
        omega
      refine iff_of_true ?_ fun h => absurd h hname
      rw [hpad, zeros, List.replicate_succ, List.cons_append]
      exact cString_append_zero event.name.property _

theorem head_wd : (event.bytes ++ rest).headD 0 = 0 ↔ event.wd % 256 = 0 := by
  have hfirst : (event.bytes ++ rest).headD 0 = UInt8.ofNat (event.wd % 2 ^ 32).toNat := by
    simp only [InotifyEvent.bytes, InotifyEvent.head, leBytes, List.cons_append, List.headD_cons]
  rw [hfirst, ← UInt8.toNat_inj]
  change (event.wd % 2 ^ 32).toNat % 256 = 0 ↔ _
  omega

theorem nulsBehind_cons (behind : Bytes) (events : List InotifyEvent) :
    NulsBehind behind (event :: events) ↔
      (event.name.val = [] → (layout events ++ behind).headD 0 = 0) ∧ NulsBehind behind events := by
  cases events with
  | nil => exact (and_iff_left trivial).symm
  | cons next events =>
      have hlayout : layout (next :: events) ++ behind = next.bytes ++ (layout events ++ behind) := by
        rw [layout, List.map_cons, List.flatten_cons, List.append_assoc]
        rfl
      rw [hlayout, head_wd]
      rfl

-- The loop goes on behind an event that it has found.
theorem eventsSeen_cons (front behind : Bytes) (events : List InotifyEvent) :
    eventsSeen (front ++ (layout (event :: events) ++ behind))
        (front.length + (layout (event :: events)).length) front.length =
      (event.head ++ cString (event.name.val ++ (zeros event.pad ++ (layout events ++ behind)))) ::
        eventsSeen ((front ++ event.bytes) ++ (layout events ++ behind))
          ((front ++ event.bytes).length + (layout events).length) (front ++ event.bytes).length := by
  have hlayout : layout (event :: events) = event.bytes ++ layout events := by
    rw [layout, List.map_cons, List.flatten_cons]
    rfl
  have hdrop : (front ++ (layout (event :: events) ++ behind)).drop front.length =
      event.bytes ++ (layout events ++ behind) := by
    rw [List.drop_left, hlayout, List.append_assoc]
  have hlen : front.length + (layout (event :: events)).length =
      (front ++ event.bytes).length + (layout events).length := by
    rw [hlayout, List.length_append, List.length_append]
    omega
  have hnext : front.length + eventSize + event.len = (front ++ event.bytes).length := by
    rw [List.length_append, InotifyEvent.bytes_length]
    omega
  rw [eventsSeen_next _ _ (by rw [hlen, List.length_append, event.bytes_length, eventSize]; omega),
    visitAt_eq, hdrop, eventLen_bytes, hnext, seen_bytes, hlen, hlayout, List.append_assoc front,
    ← List.append_assoc event.bytes]

theorem eventsSeen_iff (front behind : Bytes) (events : List InotifyEvent) :
    eventsSeen (front ++ (layout events ++ behind)) (front.length + (layout events).length) front.length =
      events.map InotifyEvent.alone ↔ NulsBehind behind events := by
  induction events generalizing front with
  | nil => exact iff_of_true (eventsSeen_done _ _ (by simp [layout])) trivial
  | cons event events ih =>
      rw [eventsSeen_cons, List.map_cons, List.cons_eq_cons, InotifyEvent.alone,
        List.append_cancel_left_eq, cString_name_iff, ih, nulsBehind_cons]

-- The events are found, with the names that there are.
theorem eventsSeen_named (front behind : Bytes) (events : List InotifyEvent) :
    ∀ x ∈ eventsSeen (front ++ (layout events ++ behind)) (front.length + (layout events).length) front.length,
      ∃ event ∈ events, ∃ name, x = event.head ++ name ∧
        (event.name.val ≠ [] → name = event.name.val) := by
  induction events generalizing front with
  | nil =>
      intro x hx
      rw [eventsSeen_done _ _ (by simp [layout])] at hx
      simp at hx
  | cons event events ih =>
      intro x hx
      rw [eventsSeen_cons] at hx
      rcases List.mem_cons.mp hx with rfl | hx
      · exact ⟨event, List.mem_cons_self .., _, rfl, fun hname =>
          (cString_name_iff event _).mpr fun h => absurd h hname⟩
      · obtain ⟨e, he, hfound⟩ := ih (front ++ event.bytes) x hx
        exact ⟨e, List.mem_cons_of_mem _ he, hfound⟩

end Names

section Decoding

theorem eventsSeen_memory (events : List InotifyEvent) (behind : Bytes) :
    eventsSeen (eventMemory (layout events) behind) (layout events).length 0 =
      events.map InotifyEvent.alone ↔
        NulsBehind (zeros (eventBufLen - (layout events).length) ++ behind) events := by
  have hmemory : eventMemory (layout events) behind =
      [] ++ (layout events ++ (zeros (eventBufLen - (layout events).length) ++ behind)) := by
    simp only [eventMemory, overlay, zeros, List.drop_replicate, List.append_assoc, List.nil_append]
  rw [← eventsSeen_iff [], ← hmemory, List.length_nil, Nat.zero_add]

variable (md5 : Bytes → Mem 16) (events : List InotifyEvent) (behind : Bytes)

-- Every event is handled as if it stood alone, once each and in order, and nothing else is.
structure Decodes : Prop where
  ends : ∀ client, SameEnds
    (handleEvents md5 (eventMemory (layout events) behind) (layout events).length client)
    ((eventsSeen (eventMemory (layout events) behind) (layout events).length 0).foldlM
      (fun client event => handleEvent md5 event client) client)
  visited : eventsSeen (eventMemory (layout events) behind) (layout events).length 0 =
    events.map InotifyEvent.alone
  names : (eventsSeen (eventMemory (layout events) behind) (layout events).length 0).map eventName =
    events.map fun event => event.name.val

theorem eventName_alone (event : InotifyEvent) : eventName event.alone = event.name.val := by
  rw [eventName, InotifyEvent.alone, List.drop_left' event.head_length]
  exact cString_eq_self event.name.property

-- The buffer is taken apart into its events exactly when a zero byte follows every event
-- without a name.
theorem event_buffer_decoding_iff : Decodes md5 events behind ↔
    NulsBehind (zeros (eventBufLen - (layout events).length) ++ behind) events := by
  rw [← eventsSeen_memory]
  constructor
  · exact Decodes.visited
  · intro hseen
    refine ⟨events_sameEnds md5 _ _ 0, hseen, ?_⟩
    rw [hseen, List.map_map]
    exact List.map_congr_left fun event _ => eventName_alone event

end Decoding

-- A change of the directory of watch 1, and then one of the directory of watch 2.
def attribEvents : List InotifyEvent :=
  [{ wd := 1, mask := inAttrib, cookie := 0, name := ⟨[], by simp⟩, pad := 0,
     fits := by decide, padded := by decide },
   { wd := 2, mask := inAttrib, cookie := 0, name := ⟨[], by simp⟩, pad := 0,
     fits := by decide, padded := by decide }]

-- The first event is given the name "\x02".
theorem unnamed_event_named :
    ¬∀ md5 events behind, (layout events).length ≤ eventBufLen → Decodes md5 events behind := by
  intro hall
  have hdecodes := hall (fun _ => ⟨zeros 16, rfl⟩) attribEvents [] (by decide)
  have hseen := (eventsSeen_memory attribEvents []).mp hdecodes.visited
  exact absurd (hseen.1 rfl) (by decide)

end Csiebox
