import Csiebox.Lib.Interference
import Csiebox.Session.Files

namespace Csiebox.Locks

open CBytes Program Prog Session

section Fcntl

-- The bytes of two locks meet.
def Overlap (fl other : Flock) : Prop :=
  (other.len = 0 ∨ fl.start < other.start + other.len) ∧ (fl.len = 0 ∨ other.start < fl.start + fl.len)

-- Two processes cannot both have these locks on a file.
def Conflict (fl other : Flock) : Prop :=
  Overlap fl other ∧ fl.type ≠ .unlck ∧ other.type ≠ .unlck ∧ (fl.type = .wrlck ∨ other.type = .wrlck)

instance (fl other : Flock) : Decidable (Overlap fl other) :=
  inferInstanceAs (Decidable (_ ∧ _))

instance (fl other : Flock) : Decidable (Conflict fl other) :=
  inferInstanceAs (Decidable (_ ∧ _ ∧ _ ∧ _))

-- A file system and the locks on the one file that is open for writing: `held` are those
-- of other processes, `own` those of the server. stdio has `buffer` for it, and passes on
-- the first `passes n` of `n` bytes when it is given some.
structure SharedFs (G : Type) where
  base : G
  held : List Flock
  own : List Flock
  buffer : Bytes
  passes : Nat → Nat

variable {G : Type}

-- `F_GETLK`: a conflicting lock overwrites what was asked for.
def SharedFs.getlk (s : SharedFs G) (fl : Flock) : Flock :=
  match s.held.find? fun other => Conflict fl other with
  | some other => other
  | none => { fl with type := .unlck }

-- `F_SETLK`; the code locks whole files only, so that no lock is split.
def SharedFs.setlk (s : SharedFs G) (fl : Flock) : Bool × SharedFs G :=
  if fl.type = .unlck then (true, { s with own := s.own.filter fun mine => ¬Overlap fl mine })
  else if s.held.any fun other => Conflict fl other then (false, s)
  else (true, { s with own := fl :: s.own.filter fun mine => ¬Overlap fl mine })

variable [Posix G]

def passOn (g : G) (fp : Nat) (bs : Bytes) : G := if bs = [] then g else Posix.fwrite g fp bs

-- What `fwrite` hands on to the file at once.
def SharedFs.passed (s : SharedFs G) (bs : Bytes) : Bytes :=
  (s.buffer ++ bs).take (s.passes (s.buffer ++ bs).length)

def SharedFs.fwrite (s : SharedFs G) (fp : Nat) (bs : Bytes) : SharedFs G :=
  { s with
    base := passOn s.base fp (s.passed bs)
    buffer := (s.buffer ++ bs).drop (s.passes (s.buffer ++ bs).length) }

-- The rest of the buffer is written, and the process loses its locks.
def SharedFs.fclose (s : SharedFs G) (fp : Nat) : SharedFs G :=
  { s with base := Posix.fclose (passOn s.base fp s.buffer) fp, own := [], buffer := [] }

def SharedFs.set (s : SharedFs G) (r : α × G) : α × SharedFs G := (r.1, { s with base := r.2 })

instance : Posix (SharedFs G) where
  lstat s path := Posix.lstat s.base path
  readlink s path size := Posix.readlink s.base path size
  reads s path := Posix.reads s.base path
  fopenRead s path := Posix.fopenRead s.base path
  fopenWrite s path := (Posix.fopenWrite s.base path).map fun (fp, base) =>
    (fp, { s with base, buffer := [] })
  fwrite s fp bs := s.fwrite fp bs
  fclose s fp := s.fclose fp
  getlk s _ fl := s.getlk fl
  setlk s _ fl := s.setlk fl
  setlkw s _ fl := if (s.setlk fl).1 then some (s.setlk fl) else none
  mkdir s path mode := s.set (Posix.mkdir s.base path mode)
  symlink s target path := s.set (Posix.symlink s.base target path)
  link s old new := s.set (Posix.link s.base old new)
  remove s path := s.set (Posix.remove s.base path)
  utime s path atime mtime := s.set (Posix.utime s.base path atime mtime)
  chdir s path := s.set (Posix.chdir s.base path)
  opendir s path := Posix.opendir s.base path
  addWatch s path := s.set (Posix.addWatch s.base path)
  rmWatch s wd := s.set (Posix.rmWatch s.base wd)
  readEvents s size := (Posix.readEvents s.base size).map s.set

end Fcntl

section Schedules

variable {F G : Type}

-- A lock for writing the whole file.
def whole : Flock := { type := .wrlck, start := 0, len := 0, pid := 0 }

-- Another process has a lock in the way of the server's.
def SharedFs.Locked (s : SharedFs G) : Prop := ∃ other ∈ s.held, Conflict whole other

instance (s : SharedFs G) : Decidable s.Locked :=
  inferInstanceAs (Decidable (∃ other ∈ s.held, Conflict whole other))

-- What a query for a lock has been told.
def told : (γ : Type) → Sys γ → γ → List LockType
  | _, .getlk _ _, fl => [fl.type]
  | _, _, _ => []

-- The server's view, and what its queries have been told so far.
abbrev Polling (G : Type) := Host (SharedFs G) × List LockType

-- The client and the server, which is to update the file.
abbrev Update (F G : Type) := Net Sys UInt8 Fault (Host F) (Polling G) Unit Unit

-- Other processes acquire and release locks; none gets one in conflict with the server's.
def Others (s s' : Polling G) : Prop :=
  ∃ held, s' = ({ s.1 with fs := { s.1.fs with held } }, s.2) ∧
    ∀ other ∈ held, other ∈ s.1.fs.held ∨ ∀ mine ∈ s.1.fs.own, ¬Conflict mine other

variable [Posix F] [Posix G]

def polling : Kernel Sys (Polling G) := Kernel.noting host told

-- No lock of others is in the way where the server is about to empty a file that is not
-- empty, to reply, to pass bytes on to the file or to write out the rest, and none where
-- it asks for locks.
def Unopposed (files : Files G) : Head Sys UInt8 Fault → Polling G → Prop
  | .call (.fopenWrite path), s =>
      s.1.fs.Locked → (files.found s.1.fs.base path).content = some []
  | .call (.getlk _ fl), s => ∀ other ∈ s.1.fs.held, ¬Conflict fl other
  | .call (.fwrite _ bs), s => s.1.fs.Locked → s.1.fs.passed bs = []
  | .call (.fclose _), s => s.1.fs.Locked → s.1.fs.buffer = []
  | .send _, s => ¬s.1.fs.Locked
  | _, _ => True

-- Client, server and the other processes, where the server keeps to `C`.
abbrev Steps (C : Head Sys UInt8 Fault → Polling G → Prop) (c d : Update F G) : Prop :=
  Net.Disturbed host polling Others C c d

end Schedules

section Serving

variable {F G : Type} [Posix F] [Posix G]

-- What is left of `sync_file` behind the request.
def awaitTransfer (st path : Bytes) : Code Unit := do
  let header ← iter awaitVerdict (zeros sizeofHeader)
  if headerStatus header = statusMore then sendFile st path else ret ()

-- The client has sent a request, the server has read it.
def serving (md5 : Bytes → Mem 16) (st path filepath hash : Bytes) (client : Host F)
    (peer : Host (SharedFs G)) (a b : Bytes) : Update F G :=
  ⟨awaitTransfer st path, client, answerMeta md5 filepath st hash, (peer, []), [], [], a, b⟩

def replyOf (status : UInt8) (r : Bytes) : Prop := r.length = sizeofHeader ∧ headerStatus r = status

-- Behind `b` the server has sent BLOCK replies only.
def Blocked (b : Bytes) (c : Update F G) : Prop :=
  ∃ rs : List Bytes, (∀ r ∈ rs, replyOf statusBlock r) ∧ c.rightSaid = b ++ rs.flatten

-- And then one that says MORE.
def Answered (b : Bytes) (c : Update F G) : Prop :=
  ∃ (rs : List Bytes) (more : Bytes), (∀ r ∈ rs, replyOf statusBlock r) ∧ replyOf statusMore more ∧
    c.rightSaid = b ++ (rs.flatten ++ more)

-- The client makes a call or sends.
def Acts : Head Sys UInt8 Fault → Prop
  | .call _ => True
  | .send _ => True
  | _ => False

-- One step as it should be: under a conflicting lock the content stays and replies say BLOCK.
structure Orderly (files : Files G) (filepath : Bytes) (c d : Update F G) : Prop where
  content : c.rightState.1.fs.Locked →
    files.found d.rightState.1.fs.base filepath = files.found c.rightState.1.fs.base filepath
  blocked : ∀ r, c.rightState.1.fs.Locked → d.rightSaid = c.rightSaid ++ r → r ≠ [] →
    headerStatus r = statusBlock

-- What is asked of a state while the request is served. All steps are orderly; there is
-- one reply that is not a BLOCK, it follows a query that found no lock, and until it has
-- gone out the server is never stuck; the client does nothing before it, and has read
-- every reply by then.
structure Patient (files : Files G) (Step : Update F G → Update F G → Prop) (filepath b : Bytes)
    (c : Update F G) : Prop where
  orderly : ∀ d, Step c d → Orderly files filepath c d
  replies : Blocked b c ∨ Answered b c
  queried : Answered b c → c.rightState.2.getLast? = some .unlck
  goesOn : Blocked b c → ∃ d, c.rightStep polling = some d
  served : c.right = ret () → Answered b c
  client : Acts c.left.head → Answered b c ∧ c.toLeft = []

end Serving

end Csiebox.Locks
