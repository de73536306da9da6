import Csiebox.Config.Theorems
import Csiebox.Lib.Text

namespace Csiebox.Monitor

open CBytes Program

section Server

variable {n : Nat}

-- `strcpy` to a place inside a field.
def strcpyAt (dst : Mem n) (off : Nat) (text : Bytes) : Except Fault (Mem n) :=
  if h : off + text.length < n then
    .ok ⟨dst.val.take off ++ (text ++ 0 :: dst.val.drop (off + text.length + 1)), by
      simp only [List.length_append, List.length_take, List.length_cons, List.length_drop, dst.property]
      omega⟩
  else .error .overrun

def fifoStem : List Char := ['c', 's', 'i', 'e', 'b', 'o', 'x', '_', 's', 'e', 'r', 'v', 'e', 'r', '.']

def pidText (pid : Nat) : List Char := Nat.toDigits 10 pid

-- The start of `csiebox_server_run`: the path of the pid file, which holds the
-- digits of the process id, and from it the path of the FIFO.
def serverFifoPath (runPath : Mem pathMax) (pid : Bytes) : Except Fault Bytes := do
  let fifo ← strcpyAt (⟨zeros pathMax, zeros_length _⟩ : Mem pathMax) 0 (cString runPath.val)
  let fifo ← strcatField fifo (encodeText (fifoStem ++ ['p', 'i', 'd']))
  if pid.length < 32 then
    let fifo ← strcpyAt fifo ((cString fifo.val).length - 3) pid
    return cString fifo.val
  else .error .overrun

end Server

section WebPage

-- What `trim` takes off: the white space and the line ends of ECMAScript.
def isTrimmed (c : Char) : Bool :=
  c.toNat ∈ [0x9, 0xa, 0xb, 0xc, 0xd, 0x20, 0xa0, 0x1680, 0x2028, 0x2029, 0x202f, 0x205f, 0x3000, 0xfeff] ||
    (0x2000 ≤ c.toNat && c.toNat ≤ 0x200a)

-- `toString("utf8")`; `replaced` is what bytes that are not UTF-8 become.
def toUtf8String (replaced : Bytes → List Char) (bs : Bytes) : List Char :=
  (decodeText bs).getD (replaced bs)

def readLine (tmp : List Char → Option (List Char)) (line : List Char) : List Char → Option (List Char) :=
  let v := line.splitOn '='
  Function.update tmp (v.headD []) v[1]?

-- `read_cfg` of helper.js; `none` is `undefined`.
def readCfg (text : List Char) : List Char → Option (List Char) :=
  (((text.rdropWhile isTrimmed).dropWhile isTrimmed).splitOn '\n').foldl readLine fun _ => none

def runPathName : List Char := ['r', 'u', 'n', '_', 'p', 'a', 't', 'h']

def undefinedText : List Char := ['u', 'n', 'd', 'e', 'f', 'i', 'n', 'e', 'd']

-- `fifo_path` of `threads_active`.
def webFifoPath (args : List Char → Option (List Char)) (pid : Nat) : List Char :=
  (args runPathName).getD undefinedText ++ '/' :: (fifoStem ++ pidText pid)

end WebPage

section Script

-- `re.findall("run_path=(.*)\n", content)[0]`: a match needs a line end, and behind
-- an occurrence without one there is none for a later occurrence.
def findRunPath (content : List Char) : Option (List Char) :=
  (firstBehind (runPathName ++ ['=']) content).bind fun rest =>
    if '\n' ∈ rest then some (rest.takeWhile (· ≠ '\n')) else none

-- `os.path.join` with a name that has no '/'.
def joinPath (path name : List Char) : List Char :=
  if path = [] ∨ path.getLast? = some '/' then path ++ name else path ++ '/' :: name

-- `pidfile` of printStatus.py: the configuration is read as text.
def scriptFifoPath (cfg : Bytes) (pid : Nat) : Option (List Char) := do
  let content ← decodeText cfg
  let runPath ← findRunPath (universalNewlines content)
  return joinPath runPath (fifoStem ++ pidText pid)

end Script

-- The three paths lead to one FIFO: they are equal up to repeated slashes.
def Agree (replaced : Bytes → List Char) (cfg : Bytes) (arg : ServerArg) (pid : Nat) : Prop :=
  ∃ path, serverFifoPath arg.runPath (encodeText (pidText pid)) = .ok path ∧
    squeeze slash (encodeText (webFifoPath (readCfg (toUtf8String replaced cfg)) pid)) =
      squeeze slash path ∧
    ∃ pidfile, scriptFifoPath cfg pid = some pidfile ∧
      squeeze slash (encodeText pidfile) = squeeze slash path

-- The path, also with the name of the pid file in place of the FIFO's, and the
-- process id stay inside their arrays.
def HasRoom (runPath : Mem pathMax) (pid : Bytes) : Prop :=
  (cString runPath.val).length + 18 < pathMax ∧ pid.length < 32 ∧
    (cString runPath.val).length + 15 + pid.length < pathMax

section ServerPath

variable {n : Nat}

theorem bind_eq_ok_iff {ε α β : Type} {x : Except ε α} {f : α → Except ε β} {b : β} :
    x >>= f = .ok b ↔ ∃ a, x = .ok a ∧ f a = .ok b := by
  cases x with
  | error e => simp [bind, Except.bind]
  | ok a => simp [bind, Except.bind]

theorem strcpyAt_eq_ok_iff (dst : Mem n) (off : Nat) (text : Bytes) (htext : ∀ b ∈ text, b ≠ 0)
    (hoff : ∀ b ∈ dst.val.take off, b ≠ 0) {Q : Bytes → Prop} :
    (∃ field, strcpyAt dst off text = .ok field ∧ Q (cString field.val)) ↔
      off + text.length < n ∧ Q (dst.val.take off ++ text) := by
  have hplain : ∀ b ∈ dst.val.take off ++ text, b ≠ 0 := by
    intro b hb
    cases List.mem_append.mp hb with
    | inl hb => exact hoff b hb
    | inr hb => exact htext b hb
  have hstring : ∀ rest, cString (dst.val.take off ++ (text ++ 0 :: rest)) = dst.val.take off ++ text := by
    intro rest
    rw [← List.append_assoc]
    exact cString_append_zero hplain rest
  unfold strcpyAt
  split_ifs with hfits
  · simp [hfits, hstring]
  · simp [hfits]

theorem strcatField_eq_ok_iff (dst : Mem n) (text : Bytes) (htext : ∀ b ∈ text, b ≠ 0)
    {Q : Bytes → Prop} :
    (∃ field, strcatField dst text = .ok field ∧ Q (cString field.val)) ↔
      (cString dst.val).length + text.length < n ∧ Q (cString dst.val ++ text) := by
  constructor
  · intro h
    obtain ⟨field, hfield, hQ⟩ := h
    obtain ⟨hfits, -, hstring⟩ := strcatField_ok htext hfield
    exact ⟨hfits, hstring ▸ hQ⟩
  · intro h
    have hok : ∃ field, strcatField dst text = .ok field := ⟨_, dif_pos h.1⟩
    obtain ⟨field, hfield⟩ := hok
    obtain ⟨-, -, hstring⟩ := strcatField_ok htext hfield
    exact ⟨field, hfield, hstring ▸ h.2⟩

theorem take_eq_take_cString {bs : Bytes} {off : Nat} (h : off ≤ (cString bs).length) :
    bs.take off = (cString bs).take off := by
  have hpre : cString bs <+: bs := List.takeWhile_prefix _
  rw [List.prefix_iff_eq_take.mp hpre, List.take_take, Nat.min_eq_left h]

theorem pidText_bytes (pid : Nat) : ∀ b ∈ encodeText (pidText pid), b ≠ 0 := by
  rintro b hb rfl
  have hnul : '\x00' ∈ pidText pid := (mem_encodeText_iff (d := '\x00') (by decide)).mp hb
  have hdigit := Nat.isDigit_of_mem_toDigits (by omega) (by omega) hnul
  exact absurd hdigit (by decide)

theorem serverFifoPath_eq_ok_iff {runPath : Mem pathMax} {pid : Bytes} (hpid : ∀ b ∈ pid, b ≠ 0)
    {path : Bytes} :
    serverFifoPath runPath pid = .ok path ↔
      HasRoom runPath pid ∧ path = cString runPath.val ++ (encodeText fifoStem ++ pid) := by
  have hrun : ∀ b ∈ cString runPath.val, b ≠ 0 := cString_nonzero
  have hstem : ∀ b ∈ encodeText fifoStem, b ≠ 0 := by decide +kernel
  have hname : ∀ b ∈ encodeText (fifoStem ++ ['p', 'i', 'd']), b ≠ 0 := by decide +kernel
  have hstemLen : (encodeText fifoStem).length = 15 := by decide +kernel
  have hnameLen : (encodeText (fifoStem ++ ['p', 'i', 'd'])).length = 18 := by decide +kernel
  unfold serverFifoPath
  simp only [bind_eq_ok_iff]
  have hlast : ∀ fifo : Mem pathMax,
      (if pid.length < 32 then
        (do let fifo ← strcpyAt fifo ((cString fifo.val).length - 3) pid; return cString fifo.val)
        else .error .overrun : Except Fault Bytes) = .ok path ↔
      (pid.length < 32 ∧ (cString fifo.val).length - 3 + pid.length < pathMax ∧
        path = (cString fifo.val).take ((cString fifo.val).length - 3) ++ pid) := by
    intro fifo
    have htake := take_eq_take_cString (Nat.sub_le (cString fifo.val).length 3)
    have hcopy := strcpyAt_eq_ok_iff fifo ((cString fifo.val).length - 3) pid
      (Q := fun text => text = path) hpid (by
        intro b hb
        rw [htake] at hb
        exact cString_nonzero b (List.mem_of_mem_take hb))
    rw [htake] at hcopy
    split_ifs with hroom
    · simp only [bind_eq_ok_iff, pure, Except.pure, Except.ok.injEq, hcopy, hroom, true_and]
      rw [eq_comm (a := path)]
    · simp [hroom]
  have hcat := fun fifo : Mem pathMax => strcatField_eq_ok_iff fifo
    (encodeText (fifoStem ++ ['p', 'i', 'd'])) (Q := fun name =>
      pid.length < 32 ∧ name.length - 3 + pid.length < pathMax ∧
        path = name.take (name.length - 3) ++ pid) hname
  have hcopy := strcpyAt_eq_ok_iff (⟨zeros pathMax, zeros_length _⟩ : Mem pathMax) 0
    (cString runPath.val) (Q := fun name =>
      name.length + (encodeText (fifoStem ++ ['p', 'i', 'd'])).length < pathMax ∧ pid.length < 32 ∧
        (name ++ encodeText (fifoStem ++ ['p', 'i', 'd'])).length - 3 + pid.length < pathMax ∧
        path = (name ++ encodeText (fifoStem ++ ['p', 'i', 'd'])).take
          ((name ++ encodeText (fifoStem ++ ['p', 'i', 'd'])).length - 3) ++ pid) hrun (by simp)
  simp only [hlast, hcat]
  rw [hcopy]
  have hcut : ∀ name : Bytes, (name ++ encodeText (fifoStem ++ ['p', 'i', 'd'])).take
      ((name ++ encodeText (fifoStem ++ ['p', 'i', 'd'])).length - 3) = name ++ encodeText fifoStem := by
    intro name
    rw [List.length_append, hnameLen, encodeText_append, ← List.append_assoc]
    exact List.take_left' (by rw [List.length_append, hstemLen]; omega)
  simp only [List.take_zero, List.nil_append, hcut]
  simp only [List.length_append, hnameLen, List.append_assoc]
  unfold HasRoom
  constructor
  · intro h
    obtain ⟨-, hname', hpid', hfifo, hpath⟩ := h
    exact ⟨⟨hname', hpid', by omega⟩, hpath⟩
  · intro h
    obtain ⟨⟨hname', hpid', hfifo⟩, hpath⟩ := h
    exact ⟨by omega, hname', hpid', by omega, hpath⟩

end ServerPath

-- The values that the two tools cut out lead where the server's field leads.
def SameDirs (cfg : Bytes) (runPath : Mem pathMax) (pid : Nat) : Prop :=
  HasRoom runPath (encodeText (pidText pid)) ∧ ∃ content, encodeText content = cfg ∧
    squeeze slash (encodeText ((readCfg content runPathName).getD undefinedText) ++ [slash]) =
      squeeze slash (cString runPath.val) ∧
    ∃ v, findRunPath (universalNewlines content) = some v ∧ v ≠ [] ∧
      squeeze slash (encodeText v ++ [slash]) = squeeze slash (cString runPath.val)

section Agreement

variable {replaced : Bytes → List Char} {cfg : Bytes} {arg : ServerArg} {pid : Nat}

def fifoName (pid : Nat) : Bytes := encodeText (fifoStem ++ pidText pid)

theorem encodeText_slash (text : List Char) : encodeText ('/' :: text) = slash :: encodeText text := rfl

theorem head?_fifoName (pid : Nat) : (fifoName pid).head? ≠ some slash := by
  have hstem : (encodeText fifoStem).head? = some 0x63 := by decide +kernel
  rw [fifoName, encodeText_append, List.head?_append, hstem, Option.some_or]
  decide

-- Two directories with the name behind them are the same path if they are the same.
theorem squeeze_name_iff (pid : Nat) (dir dir' : Bytes) :
    squeeze slash (dir ++ fifoName pid) = squeeze slash (dir' ++ fifoName pid) ↔
      squeeze slash dir = squeeze slash dir' := by
  rw [squeeze_append (head?_fifoName pid), squeeze_append (head?_fifoName pid)]
  exact List.append_left_inj _

theorem joinPath_same_iff {v : List Char} {dir : Bytes} (hdir : dir ≠ []) :
    squeeze slash (encodeText (joinPath v (fifoStem ++ pidText pid))) =
        squeeze slash (dir ++ fifoName pid) ↔
      v ≠ [] ∧ squeeze slash (encodeText v ++ [slash]) = squeeze slash dir := by
  unfold joinPath
  by_cases hnil : v = []
  · subst hnil
    rw [if_pos (.inl rfl), List.nil_append, squeeze_append (head?_fifoName pid)]
    refine iff_of_false (fun h => ?_) fun h => h.1 rfl
    exact squeeze_ne_nil hdir (List.append_left_eq_self.mp h.symm)
  · by_cases hslash : v.getLast? = some '/'
    · rw [if_pos (.inr hslash), encodeText_append]
      have hsplit := List.dropLast_append_getLast? _ hslash
      have hv : squeeze slash (encodeText v ++ [slash]) = squeeze slash (encodeText v) := by
        rw [← hsplit, encodeText_append]
        have htwo := squeeze_replicate slash 1 (encodeText v.dropLast)
        rw [List.append_assoc]
        exact htwo
      rw [hv]
      have hname := squeeze_name_iff pid (encodeText v) dir
      rw [fifoName] at hname ⊢
      rw [hname]
      simp [hnil]
    · rw [if_neg (by simp [hnil, hslash]), encodeText_append, encodeText_slash]
      have hname := squeeze_name_iff pid (encodeText v ++ [slash]) dir
      rw [List.append_assoc] at hname
      rw [fifoName] at hname ⊢
      simpa [hnil] using hname

theorem agree_iff (hrun : ∃ dir, cString arg.runPath.val = dir ++ [slash]) :
    Agree replaced cfg arg pid ↔ SameDirs cfg arg.runPath pid := by
  have hne : cString arg.runPath.val ≠ [] := by
    obtain ⟨dir, hdir⟩ := hrun
    rw [hdir]
    simp
  have hname : encodeText fifoStem ++ encodeText (pidText pid) = fifoName pid :=
    (encodeText_append _ _).symm
  have hweb : ∀ args : List Char → Option (List Char),
      squeeze slash (encodeText (webFifoPath args pid)) =
          squeeze slash (cString arg.runPath.val ++ fifoName pid) ↔
        squeeze slash (encodeText ((args runPathName).getD undefinedText) ++ [slash]) =
          squeeze slash (cString arg.runPath.val) := by
    intro args
    rw [webFifoPath, encodeText_append, encodeText_slash]
    have hiff := squeeze_name_iff pid (encodeText ((args runPathName).getD undefinedText) ++ [slash])
      (cString arg.runPath.val)
    rw [List.append_assoc] at hiff
    exact hiff
  unfold Agree SameDirs
  simp only [serverFifoPath_eq_ok_iff (pidText_bytes pid), hname]
  constructor
  · intro h
    obtain ⟨path, ⟨hroom, rfl⟩, hpage, pidfile, hscript, hsame⟩ := h
    simp only [scriptFifoPath, Option.bind_eq_bind, Option.bind_eq_some_iff, decodeText_eq_some_iff,
      Option.pure_def, Option.some.injEq] at hscript
    obtain ⟨content, hcontent, v, hv, rfl⟩ := hscript
    have hread : toUtf8String replaced cfg = content := by
      rw [toUtf8String, decodeText_eq_some_iff.mpr hcontent]
      rfl
    rw [hread, hweb] at hpage
    exact ⟨hroom, content, hcontent, hpage, v, hv, (joinPath_same_iff hne).mp hsame⟩
  · intro h
    obtain ⟨hroom, content, hcontent, hpage, v, hv, hsame⟩ := h
    have hread : toUtf8String replaced cfg = content := by
      rw [toUtf8String, decodeText_eq_some_iff.mpr hcontent]
      rfl
    refine ⟨_, ⟨hroom, rfl⟩, ?_, joinPath v (fifoStem ++ pidText pid), ?_,
      (joinPath_same_iff hne).mpr hsame⟩
    · rw [hread, hweb]
      exact hpage
    · rw [scriptFifoPath, decodeText_eq_some_iff.mpr hcontent]
      simp [hv]

end Agreement

end Csiebox.Monitor
