import Csiebox.Lib.Text
import Csiebox.Service.Counter

namespace Csiebox.Monitor

open CBytes

-- `buf.readInt32BE(0)` on what `readSync` put into the four bytes.
def readInt32BE (buf : Bytes) : Int := signed 32 (leNat (buf.take 4).reverse)

-- `struct.unpack(">I", data)`: an error unless there are exactly four bytes.
def unpackUInt32 (data : Bytes) : Option Int :=
  if data.length = 4 then some (leNat data.reverse) else none

-- `threads_active` of api.js.
def threadsActive (fifo : Bytes) : Int := readInt32BE fifo

-- The loop of printStatus.py: a text file is read, its text is encoded again.
def threadNum (fifo : Bytes) : Option Int :=
  (decodeText fifo).bind fun text => unpackUInt32 (encodeText (universalNewlines text))

-- The count's four digits in base 256, the most significant first.
def octets (count : Nat) : Bytes :=
  [UInt8.ofNat (count / 256 ^ 3), UInt8.ofNat (count / 256 ^ 2), UInt8.ofNat (count / 256),
    UInt8.ofNat count]

-- The digits spell a text without a carriage return.
def SpellsText (count : Nat) : Prop := ∃ text, encodeText text = octets count ∧ '\r' ∉ text

def BothRecover (server : Server) : Prop :=
  threadsActive (sigUsr server) = server.clientNum ∧
    threadNum (sigUsr server) = some server.clientNum

section Decoders

theorem reverse_leBytes_four (v : Nat) : (leBytes 4 v).reverse = octets v := by
  simp [leBytes, octets, Nat.div_div_eq_div_mul]

theorem octets_length (v : Nat) : (octets v).length = 4 := rfl

theorem leNat_reverse_octets {v : Nat} (hv : v < 2 ^ 32) : leNat (octets v).reverse = v := by
  rw [← reverse_leBytes_four, List.reverse_reverse, leNat_leBytes]
  exact Nat.mod_eq_of_lt (by omega)

-- Four bytes are determined by the number they stand for.
theorem unpackUInt32_eq_iff {data : Bytes} {v : Nat} (hv : v < 2 ^ 32) :
    unpackUInt32 data = some (v : Int) ↔ data = octets v := by
  constructor
  · intro h
    unfold unpackUInt32 at h
    split_ifs at h with hlen
    have hnum : leNat data.reverse = v := by exact_mod_cast Option.some.inj h
    have hbytes : leBytes 4 (leNat data.reverse) = data.reverse := by
      have hrev : data.reverse.length = 4 := by rw [List.length_reverse, hlen]
      rw [← hrev]
      exact leBytes_leNat _
    rw [← reverse_leBytes_four, ← hnum, hbytes, List.reverse_reverse]
  · intro h
    rw [h, unpackUInt32, if_pos (octets_length v), leNat_reverse_octets hv]

theorem threadsActive_octets {v : Nat} (hv : v < 2 ^ 31) : threadsActive (octets v) = v := by
  have htake : (octets v).take 4 = octets v := rfl
  rw [threadsActive, readInt32BE, htake, leNat_reverse_octets (by omega), signed]
  exact Int.bmod_eq_of_le (by omega) (by omega)

-- The text survives exactly if the newline translation leaves it alone.
theorem threadNum_octets_iff {v : Nat} (hv : v < 2 ^ 32) :
    threadNum (octets v) = some (v : Int) ↔ SpellsText v := by
  unfold threadNum SpellsText
  rw [Option.bind_eq_some_iff]
  constructor
  · intro h
    obtain ⟨text, htext, hnum⟩ := h
    rw [decodeText_eq_some_iff] at htext
    rw [unpackUInt32_eq_iff hv, ← htext] at hnum
    exact ⟨text, htext, universalNewlines_eq_self_iff.mp (encodeText_injective hnum)⟩
  · intro h
    obtain ⟨text, htext, hcr⟩ := h
    refine ⟨text, decodeText_eq_some_iff.mpr htext, ?_⟩
    rw [universalNewlines_eq_self_iff.mpr hcr, htext]
    exact (unpackUInt32_eq_iff hv).mpr rfl

end Decoders

section Counts

variable {server : Server}

theorem sigUsr_octets (hcount : 0 ≤ server.clientNum) (hint : server.clientNum < 2 ^ 31) :
    sigUsr server = octets server.clientNum.toNat := by
  rw [sigUsr, reverse_leBytes_four, Int.emod_eq_of_lt hcount (by omega)]

-- The web page always shows the count; the script does when its bytes are text
-- without a carriage return.
theorem count_survives_iff (hcount : 0 ≤ server.clientNum) (hint : server.clientNum < 2 ^ 31) :
    BothRecover server ↔ SpellsText server.clientNum.toNat := by
  have hnum : (server.clientNum.toNat : Int) = server.clientNum := Int.toNat_of_nonneg hcount
  have hweb := threadsActive_octets (by omega : server.clientNum.toNat < 2 ^ 31)
  have hscript := threadNum_octets_iff (by omega : server.clientNum.toNat < 2 ^ 32)
  rw [hnum] at hweb hscript
  unfold BothRecover
  rw [sigUsr_octets hcount hint, hscript]
  exact ⟨fun h => h.2, fun h => ⟨hweb, h⟩⟩

def serverWith (count : Int) : Server where
  path := []
  accountPath := []
  nullUser := none
  client _ := none
  clientNum := count
  masterset _ := false
  hl _ := []

theorem count_three_survives :
    BothRecover (serverWith 3) ↔ SpellsText (serverWith 3).clientNum.toNat :=
  count_survives_iff (by decide) (by decide)

-- Thirteen clients: the byte 0x0d is a carriage return, and the script shows ten.
theorem count_thirteen_lost :
    threadNum (sigUsr (serverWith 13)) = some 10 ∧ ¬BothRecover (serverWith 13) := by
  have htext : decodeText (sigUsr (serverWith 13)) = some ['\x00', '\x00', '\x00', '\r'] := by
    rw [decodeText_eq_some_iff]
    decide +kernel
  have hten : threadNum (sigUsr (serverWith 13)) = some 10 := by
    rw [threadNum, htext]
    decide +kernel
  refine ⟨hten, ?_⟩
  intro h
  have hlost := h.2
  rw [hten] at hlost
  exact absurd hlost (by decide)

end Counts

end Csiebox.Monitor
