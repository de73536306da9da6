import Csiebox.Client
import Csiebox.Lib.Dialogue

namespace Csiebox.Session

open CBytes Program Prog

-- What a logged-in client asks for. The path of `sync` and `remove` starts
-- with "./".
inductive Request where
  | sync (st : Mem 144) (path : Bytes)
  | hardlink (oldPath newPath : Bytes) (st : Mem 144)
  | remove (path : Bytes)

def Request.run (md5 : Bytes → Mem 16) : Request → Code Unit
  | .sync st path => syncFile md5 st.val path
  | .hardlink oldPath newPath st => do
      sendHardlink oldPath newPath
      let _ ← sendMessage st.val
      ret ()
  | .remove path => sendRm (path.drop 2)

def runRequests (md5 : Bytes → Mem 16) : List Request → Code Unit
  | [] => ret ()
  | r :: rs => do
      r.run md5
      runRequests md5 rs

abbrev Joint (F G α : Type) := Net Sys UInt8 Fault (Host F) (Host G) α Unit

section Joint

variable {F G α : Type} [Posix F] [Posix G]

-- Either end takes a step.
abbrev Step (c d : Joint F G α) : Prop := Net.Step host host c d

abbrev Runs (c d : Joint F G α) : Prop := Net.Runs host host c d

-- The client at `program`, the server about to receive the header of a request.
def session (md5 : Bytes → Mem 16) (connFd : Nat) (server : Server) (program : Code α)
    (client : Host F) (peer : Host G) (leftSaid rightSaid : Bytes) : Joint F G α :=
  ⟨program, client, unroll (serveRound md5 connFd) server, peer, [], [], leftSaid, rightSaid⟩

-- The client is done, the server waits for the next header, and nothing is in
-- flight.
structure Idle (md5 : Bytes → Mem 16) (connFd : Nat) (server : Server) (c : Joint F G Unit) :
    Prop where
  left : c.left = ret ()
  right : c.right = unroll (serveRound md5 connFd) server
  toLeft : c.toLeft = []
  toRight : c.toRight = []

-- A run that writes no notice.
structure Quiet (c d : Joint F G α) : Prop where
  run : Runs c d
  left : d.leftState.notices = c.leftState.notices
  right : d.rightState.notices = c.rightState.notices

variable {c d e : Joint F G α}

theorem Quiet.refl (c : Joint F G α) : Quiet c c := ⟨.refl, rfl, rfl⟩

theorem Quiet.trans (h : Quiet c d) (h' : Quiet d e) : Quiet c e :=
  ⟨h.run.trans h'.run, h'.left.trans h.left, h'.right.trans h.right⟩

end Joint

end Csiebox.Session
