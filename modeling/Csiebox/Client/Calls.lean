import Csiebox.Client
import Csiebox.Lib.Calls

namespace Csiebox

open CBytes Program Prog

section Calls

-- The calls that `send_meta` and `send_file` make.
structure SendCalls (P : {ι : Type} → Sys ι → Prop) : Prop where
  readlink : ∀ path size, P (.readlink path size)
  reads : ∀ path, P (.reads path)
  fopenRead : ∀ path, P (.fopenRead path)
  setlkw : ∀ fp fl, P (.setlkw fp fl)
  fclose : ∀ fp, P (.fclose fp)

-- With the calls that store what is pulled.
structure PullCalls (P : {ι : Type} → Sys ι → Prop) : Prop extends SendCalls P where
  uninit : ∀ n, P (.uninit n)
  fopenWrite : ∀ path, P (.fopenWrite path)
  fwrite : ∀ fp bs, P (.fwrite fp bs)
  mkdir : ∀ path mode, P (.mkdir path mode)
  symlink : ∀ target path, P (.symlink target path)
  link : ∀ old new, P (.link old new)
  utime : ∀ path atime mtime, P (.utime path atime mtime)

variable {P : {ι : Type} → Sys ι → Prop} {md5 : Bytes → Mem 16}

theorem calls_checkSize {fits : Prop} [Decidable fits] : (checkSize fits).Calls P := by
  unfold checkSize
  split_ifs
  · exact calls_ret
  · exact calls_halt

theorem calls_sendMessage {m : Bytes} : (sendMessage m).Calls P := by
  unfold sendMessage
  split_ifs
  · exact calls_ret
  · exact calls_say

theorem calls_recvMessage {m : Bytes} {len : Nat} : (recvMessage m len).Calls P := by
  unfold recvMessage
  split_ifs
  · exact calls_ret
  · exact calls_bind calls_hear fun _ => calls_bind calls_checkSize fun _ => calls_ret

theorem calls_metaDigest (hP : SendCalls P) {st path : Bytes} : (metaDigest md5 st path).Calls P := by
  unfold metaDigest
  split_ifs
  · refine calls_bind (calls_sys (hP.readlink ..)) fun target => ?_
    cases target with
    | none => exact calls_halt
    | some target => exact calls_ret
  · refine calls_bind (calls_bind (calls_sys (hP.reads ..)) fun rs => ?_) fun _ => calls_ret
    cases rs with
    | none => exact calls_ret
    | some rs =>
        cases hbytes : hashedBytes rs with
        | none =>
            simp only [hbytes]
            exact calls_halt
        | some bs =>
            simp only [hbytes]
            exact calls_ret
  · exact calls_ret

theorem calls_sendMeta (hP : SendCalls P) {st path : Bytes} : (sendMeta md5 st path).Calls P := by
  refine calls_bind (calls_metaDigest hP) fun hash => calls_bind (calls_iter fun _ => ?_) fun _ =>
    calls_bind calls_sendMessage fun _ => calls_ret
  exact calls_bind calls_sendMessage fun _ => calls_bind calls_recvMessage fun _ => calls_ret

theorem calls_sendChunks {chunk : Nat} {content : Bytes} : (sendChunks chunk content).Calls P :=
  calls_iter fun _ => calls_bind calls_sendMessage fun _ => calls_bind calls_sendMessage fun _ => calls_ret

theorem calls_sendFile (hP : SendCalls P) {st path : Bytes} : (sendFile st path).Calls P := by
  unfold sendFile
  split_ifs
  · refine calls_bind (calls_sys (hP.fopenRead ..)) fun opened => ?_
    cases opened with
    | none => exact calls_halt
    | some opened =>
        exact calls_bind (calls_sys (hP.setlkw ..)) fun _ => calls_bind calls_sendChunks fun _ =>
          calls_bind (calls_sys (hP.setlkw ..)) fun _ => calls_sys (hP.fclose ..)
  · refine calls_bind (calls_sys (hP.readlink ..)) fun target => ?_
    cases target with
    | none => exact calls_halt
    | some target =>
        exact calls_bind calls_sendMessage fun _ => calls_bind calls_sendMessage fun _ => calls_ret
  · exact calls_ret

theorem calls_syncFile (hP : SendCalls P) {st path : Bytes} : (syncFile md5 st path).Calls P := by
  refine calls_bind (calls_sendMeta hP) fun _ => calls_bind (calls_iter fun _ => ?_) fun header => ?_
  · exact calls_bind calls_recvMessage fun _ => calls_ret
  · split_ifs
    · exact calls_sendFile hP
    · exact calls_ret

theorem calls_sendHardlink {oldPath newPath : Bytes} : (sendHardlink oldPath newPath).Calls P := by
  refine calls_bind (calls_iter fun _ => ?_) fun _ => calls_bind calls_sendMessage fun _ =>
    calls_bind calls_sendMessage fun _ => calls_ret
  exact calls_bind calls_sendMessage fun _ => calls_bind calls_recvMessage fun _ => calls_ret

theorem calls_clientKnownLinks {st target : Bytes} {hl : List HardLink} :
    (clientKnownLinks st target hl).Calls P := by
  induction hl with
  | nil => exact calls_ret
  | cons h hs ih =>
      rw [clientKnownLinks]
      split_ifs
      · exact calls_bind calls_sendHardlink fun _ => calls_bind calls_sendMessage fun _ => ih
      · exact ih

theorem calls_sendKnownLinks {st target : Bytes} {hl : List HardLink} :
    (sendKnownLinks st target hl).Calls P := by
  induction hl with
  | nil => exact calls_ret
  | cons h hs ih =>
      rw [sendKnownLinks]
      split_ifs
      · exact calls_bind calls_sendMessage fun _ => calls_bind calls_sendHardlink fun _ =>
          calls_bind calls_sendMessage fun _ => ih
      · exact ih

theorem calls_sendEntry (hP : SendCalls P) {len : Nat} {st cpath : Bytes} :
    (sendEntry md5 len st cpath).Calls P :=
  calls_bind calls_sendMessage fun _ => calls_bind (calls_sendMeta hP) fun _ => calls_sendFile hP

theorem calls_serverEntry (hP : SendCalls P) {len connFd : Nat} {st cpath : Bytes} {hl : List HardLink} :
    (serverEntry md5 len connFd st cpath hl).Calls P := by
  unfold serverEntry
  split_ifs
  · exact calls_bind calls_checkSize fun _ => calls_bind calls_sendKnownLinks fun _ =>
      calls_bind (calls_sendEntry hP) fun _ => calls_bind calls_checkSize fun _ => calls_ret
  · exact calls_bind (calls_sendEntry hP) fun _ => calls_ret

theorem calls_serverTraverseFile (hP : SendCalls P) (hlstat : ∀ path, P (.lstat path))
    (hopendir : ∀ path, P (.opendir path)) {len connFd : Nat} (depth : Nat) (dirName : Bytes)
    (hl : List HardLink) : (serverTraverseFile md5 len connFd depth dirName hl).Calls P := by
  induction depth generalizing dirName hl with
  | zero => exact calls_halt
  | succ depth ih =>
      refine calls_bind (calls_sys (hopendir _)) fun found => ?_
      cases found with
      | none => exact calls_ret
      | some entries =>
          simp only
          induction entries generalizing hl with
          | nil => exact calls_ret
          | cons entry entries ihe =>
              rw [serverVisit]
              split_ifs
              · exact ihe hl
              · refine calls_bind (calls_sys (hlstat _)) fun st => ?_
                cases st with
                | none => exact calls_ret
                | some st =>
                    refine calls_bind (calls_serverEntry hP) fun hl => ?_
                    split_ifs
                    · exact calls_bind (ih _ hl) fun hl => ihe hl
                    · exact ihe hl

theorem calls_pullLink (hP : PullCalls P) {recPath : Bytes} : (pullLink recPath).Calls P := by
  unfold pullLink
  exact calls_bind (calls_sys (hP.uninit _)) fun _ => calls_bind calls_recvMessage fun _ =>
    calls_bind calls_checkSize fun _ => calls_bind calls_recvMessage fun _ =>
      calls_bind (calls_sys (hP.symlink ..)) fun _ => calls_ret

theorem calls_receiveChunks (hP : PullCalls P) {chunk fp : Nat} {req buf : Bytes} :
    (receiveChunks chunk fp req buf).Calls P :=
  calls_iter fun _ => calls_bind calls_recvMessage fun _ => calls_bind calls_recvMessage fun _ =>
    calls_bind calls_checkSize fun _ => calls_bind (calls_sys (hP.fwrite ..)) fun _ => calls_ret

theorem calls_pullFile (hP : PullCalls P) {recPath : Bytes} : (pullFile recPath).Calls P := by
  unfold pullFile
  refine calls_bind (calls_sys (hP.uninit _)) fun req =>
    calls_bind (calls_sys (hP.fopenWrite _)) fun opened => ?_
  cases opened with
  | none => exact calls_halt
  | some fp =>
      exact calls_bind (calls_sys (hP.setlkw ..)) fun _ => calls_bind (calls_receiveChunks hP) fun _ =>
        calls_bind (calls_sys (hP.setlkw ..)) fun _ => calls_sys (hP.fclose _)

theorem calls_pullHardlink (hP : PullCalls P) : pullHardlink.Calls P := by
  unfold pullHardlink
  exact calls_bind calls_recvMessage fun _ => calls_bind calls_recvMessage fun _ =>
    calls_bind calls_recvMessage fun _ => calls_bind calls_recvMessage fun _ =>
      calls_bind (calls_sys (hP.link ..)) fun _ => calls_bind (calls_sys (hP.utime ..)) fun _ => calls_ret

theorem calls_sendRm {path : Bytes} : (sendRm path).Calls P := by
  refine calls_bind (calls_iter fun _ => ?_) fun _ => calls_bind calls_sendMessage fun _ => calls_ret
  exact calls_bind calls_sendMessage fun _ => calls_bind calls_recvMessage fun _ => calls_ret

theorem calls_onDelete (hP : ∀ wd, P (.rmWatch wd)) {event epath : Bytes} :
    (onDelete event epath).Calls P := by
  unfold onDelete
  split_ifs
  · exact calls_bind calls_sendRm fun _ => calls_bind (calls_sys (hP _)) fun _ => calls_ret
  · exact calls_bind calls_sendRm fun _ => calls_ret
  · exact calls_ret

theorem calls_onChange (hP : SendCalls P) {flag : Nat} {event st epath : Bytes} :
    (onChange md5 flag event st epath).Calls P := by
  unfold onChange
  split_ifs
  · exact calls_syncFile hP
  · exact calls_ret

theorem calls_clientLogin {client : Client} : (client.login md5).Calls P := by
  refine calls_iter fun _ => calls_bind calls_sendMessage fun sent => ?_
  split_ifs
  · exact calls_ret
  · exact calls_bind calls_recvMessage fun _ => calls_ret

end Calls

end Csiebox
