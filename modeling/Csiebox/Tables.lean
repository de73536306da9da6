import Csiebox.Traverse.Lemmas

namespace Csiebox.Tables

open CBytes Pull

-- An element of one of the tables of fixed size.
inductive Slot where
  | eventPath (wd : Int)
  | clientLink (i : Nat)
  | serverCount (fd : Nat)
  | serverLink (fd i : Nat)
deriving DecidableEq

-- `char event_path[1500][PATH_MAX]`, `H hl[1000]`, `int cnt[200]`, `H hl[200][110]`
def Slot.Inside : Slot → Prop
  | eventPath wd => 0 ≤ wd ∧ wd < maxWatches
  | clientLink i => i < maxClientLinks
  | serverCount fd => fd < maxConns
  | serverLink fd i => fd < maxConns ∧ i < maxLinks

-- What the calls of `traverse_file` give in one directory, name by name: a hidden name,
-- an `lstat` that fails and ends the directory, or an entry with its meta data, what
-- lies below it and what comes behind it. `call` is what else is asked of an entry.
inductive Dir (ω : Type) where
  | done
  | hidden (rest : Dir ω)
  | lost
  | entry (st : Mem 144) (call : ω) (below rest : Dir ω)

section Client

-- What the client does with its tables and inotify, in the order of the run.
inductive Act where
  | added (wd : Int)
  | event (wd : Int)
  | use (slot : Slot)
deriving DecidableEq

-- A descriptor goes straight into `event_path`.
def addWatch (wd : Int) : List Act := [.added wd, .use (.eventPath wd)]

-- The lookups go past `hl[cnt - 1]` to the new element, whatever they find.
def clientEntry (st : Bytes) (cnt : Nat) : List Act × Nat :=
  if linked st then ((List.range (cnt + 1)).map fun i => .use (.clientLink i), cnt + 1) else ([], cnt)

-- `call` is the answer of `inotify_add_watch` where `d_type` says DT_DIR.
def clientTraverse : Dir (Option Int) → Nat → List Act × Nat
  | .done, cnt => ([], cnt)
  | .hidden rest, cnt => clientTraverse rest cnt
  | .lost, cnt => ([], cnt)
  | .entry st call below rest, cnt =>
      let (acts, cnt) := clientEntry st.val cnt
      let (acts', cnt) := match call with
        | none => ([], cnt)
        | some wd => let (inner, cnt) := clientTraverse below cnt; (addWatch wd ++ inner, cnt)
      let (acts'', cnt) := clientTraverse rest cnt
      (acts ++ (acts' ++ acts''), cnt)

-- An event, the meta data found under its path and the answer of `inotify_add_watch`
-- in the branch of IN_CREATE.
structure Event where
  wd : Int
  mask : Nat
  st : Option (Mem 144)
  added : Int

def handleEvent (e : Event) : List Act :=
  [.event e.wd, .use (.eventPath e.wd)] ++
    if e.mask &&& inCreate ≠ 0 ∧ ∃ st ∈ e.st, sIsDir (stMode st.val) then addWatch e.added else []

-- The pull loop with an answer for every directory it makes, or `traverse_file`.
inductive Start where
  | pull (wds : List Int)
  | traverse (dir : Dir (Option Int))

def Start.acts : Start → List Act
  | pull wds => wds.flatMap addWatch
  | traverse dir => (clientTraverse dir 0).1

-- `csiebox_client_run`: the first synchronisation, the watch on "." and the events.
structure ClientRun where
  start : Start
  wd : Int
  events : List Event

def ClientRun.acts (run : ClientRun) : List Act :=
  run.start.acts ++ (addWatch run.wd ++ run.events.flatMap handleEvent)

-- `given` descriptors have been handed out so far, the numbers 1 to `given`. A watch
-- fails, is one there already, or gets the next number; an event has a number that was
-- handed out, or -1 where the queue has overflowed.
def Possible : Nat → List Act → Prop
  | _, [] => True
  | given, .added wd :: acts =>
      (wd = -1 ∨ 1 ≤ wd ∧ wd ≤ given + 1) ∧ Possible (if wd = given + 1 then given + 1 else given) acts
  | given, .event wd :: acts => (wd = -1 ∨ 1 ≤ wd ∧ wd ≤ given) ∧ Possible given acts
  | given, .use _ :: acts => Possible given acts

def givenAfter : Nat → List Act → Nat
  | given, [] => given
  | given, .added wd :: acts => givenAfter (if wd = given + 1 then given + 1 else given) acts
  | given, .event _ :: acts => givenAfter given acts
  | given, .use _ :: acts => givenAfter given acts

end Client

section Server

def serverEntry (fd : Nat) (st : Bytes) (cnt : Nat) : List Slot × Nat :=
  if linked st then
    (.serverCount fd :: (List.range (cnt + 1)).map fun i => .serverLink fd i, cnt + 1)
  else ([], cnt)

def serverTraverse (fd : Nat) : Dir Unit → Nat → List Slot × Nat
  | .done, cnt => ([], cnt)
  | .hidden rest, cnt => serverTraverse fd rest cnt
  | .lost, cnt => ([], cnt)
  | .entry st _ below rest, cnt =>
      let (slots, cnt) := serverEntry fd st.val cnt
      let (slots', cnt) := if sIsDir (stMode st.val) then serverTraverse fd below cnt else ([], cnt)
      let (slots'', cnt) := serverTraverse fd rest cnt
      (slots ++ (slots' ++ slots''), cnt)

-- The pulls of all sessions in their order, each with the descriptor of its connection;
-- nothing sets a counter back.
def serverRun : List (Nat × Dir Unit) → (Nat → Nat) → List Slot
  | [], _ => []
  | (fd, dir) :: pulls, cnt =>
      (serverTraverse fd dir (cnt fd)).1 ++
        serverRun pulls (Function.update cnt fd (serverTraverse fd dir (cnt fd)).2)

end Server

section Counts

variable {ω : Type}

-- The files with several links that a traversal meets.
def Dir.links (enters : Mem 144 → ω → Bool) : Dir ω → Nat
  | .done => 0
  | .hidden rest => rest.links enters
  | .lost => 0
  | .entry st call below rest =>
      (if linked st.val then 1 else 0) + ((if enters st call then below.links enters else 0) +
        rest.links enters)

def Start.links : Start → Nat
  | pull _ => 0
  | traverse dir => dir.links fun _ call => call.isSome

def serverLinks (fd : Nat) : List (Nat × Dir Unit) → Nat
  | [] => 0
  | (fd', dir) :: pulls =>
      (if fd' = fd then dir.links fun st _ => sIsDir (stMode st.val) else 0) + serverLinks fd pulls

end Counts

-- No watch fails, no event is lost, fewer than 1500 descriptors are ever handed out and
-- at most 1000 files with several links are met.
def ClientRun.Small (run : ClientRun) : Prop :=
  .added (-1) ∉ run.acts ∧ .event (-1) ∉ run.acts ∧ givenAfter 0 run.acts < maxWatches ∧
    run.start.links ≤ maxClientLinks

-- The sessions on one descriptor meet no file with several links, or at most 110 and the
-- descriptor is below 200.
def SmallSessions (pulls : List (Nat × Dir Unit)) : Prop :=
  ∀ fd, serverLinks fd pulls = 0 ∨ fd < maxConns ∧ serverLinks fd pulls ≤ maxLinks

end Csiebox.Tables
