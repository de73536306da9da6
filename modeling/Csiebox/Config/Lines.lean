import Csiebox.Config
import Csiebox.Lib.Layers

namespace Csiebox

open CBytes Program

-- A line `key=value`.
structure Entry where
  key : Bytes
  value : Bytes
  key_ne_nil : key ≠ []
  key_plain : 0x3d ∉ key ∧ 0x0a ∉ key
  value_plain : 0x0a ∉ value

namespace Entry

def line (e : Entry) : Bytes := e.key ++ 0x3d :: e.value

end Entry

def fileText (entries : List Entry) (final : Bool) : Bytes :=
  let text := entries.flatMap fun e => e.line ++ [0x0a]
  if final then text else text.dropLast

-- The loop of both `parse_arg`; `accept` is the chain of `strcmp` branches.
def configLoop {σ : Type} (accept : σ → Bytes → Bytes → Except Fault σ) :
    Nat → Bytes → σ → Except Fault σ
  | 0, _, parsed => .ok parsed
  | fuel + 1, text, parsed =>
      let (key, rest) := getdelim 0x3d text
      if key.length ≤ 1 then .ok parsed
      else
        let (val, rest) := getdelim 0x0a rest
        if val.length = 0 then .error .overrun
        else do
          let parsed ← accept parsed (cString (key.take (key.length - 1))) (val.take (val.length - 1))
          configLoop accept fuel rest parsed

-- What the loop gets from a file: the key as a C string and the value without the
-- character `getline` ends with, which is the last one of a value that ends the file.
def readPairs : List Entry → Bool → List (Bytes × Bytes)
  | [], _ => []
  | [e], final => [(cString e.key, if final then e.value else e.value.dropLast)]
  | e :: e' :: entries, final => (cString e.key, e.value) :: readPairs (e' :: entries) final

-- The file does not end behind a `=`.
def EndsRead (entries : List Entry) (final : Bool) : Prop :=
  final = true ∨ ∀ e ∈ entries.getLast?, e.value ≠ []

instance (entries : List Entry) (final : Bool) : Decidable (EndsRead entries final) :=
  inferInstanceAs (Decidable (_ ∨ _))

section Reading

theorem getdelim_append {delim : UInt8} {bs : Bytes} (h : delim ∉ bs) (rest : Bytes) :
    getdelim delim (bs ++ delim :: rest) = (bs ++ [delim], rest) := by
  have hall : ∀ b ∈ bs, decide (b ≠ delim) = true := by
    intro b hb
    exact decide_eq_true (ne_of_mem_of_not_mem hb h)
  have htake : (bs ++ delim :: rest).takeWhile (· ≠ delim) = bs := by
    rw [List.takeWhile_append_of_pos hall, List.takeWhile_cons_of_neg (by simp), List.append_nil]
  have hdrop : (bs ++ delim :: rest).dropWhile (· ≠ delim) = delim :: rest := by
    rw [List.dropWhile_append_of_pos hall, List.dropWhile_cons_of_neg (by simp)]
  rw [getdelim, htake, hdrop]
  rfl

theorem getdelim_eof {delim : UInt8} {bs : Bytes} (h : delim ∉ bs) : getdelim delim bs = (bs, []) := by
  have hall : ∀ b ∈ bs, decide (b ≠ delim) = true := by
    intro b hb
    exact decide_eq_true (ne_of_mem_of_not_mem hb h)
  rw [getdelim, List.takeWhile_eq_self_iff.mpr hall, List.dropWhile_eq_nil_iff.mpr hall]
  simp

variable {σ : Type} {accept : σ → Bytes → Bytes → Except Fault σ} {parsed : σ}

theorem configLoop_nil (fuel : Nat) : configLoop accept fuel [] parsed = .ok parsed := by
  cases fuel <;> rfl

theorem configLoop_line (e : Entry) (fuel : Nat) (rest : Bytes) :
    configLoop accept (fuel + 1) (e.line ++ 0x0a :: rest) parsed =
      (accept parsed (cString e.key) e.value).bind (configLoop accept fuel rest) := by
  have hkey : 0 < e.key.length := List.length_pos_iff.mpr e.key_ne_nil
  have hline : e.line ++ 0x0a :: rest = e.key ++ 0x3d :: (e.value ++ 0x0a :: rest) := by
    rw [Entry.line, List.append_assoc, List.cons_append]
  rw [hline, configLoop, getdelim_append e.key_plain.1]
  simp only [getdelim_append e.value_plain, List.length_append, List.length_singleton]
  rw [if_neg (by omega), if_neg (by omega)]
  simp only [Nat.add_sub_cancel, List.take_left']
  rfl

theorem configLoop_last (e : Entry) (fuel : Nat) :
    configLoop accept (fuel + 2) e.line parsed =
      if e.value = [] then .error .overrun else accept parsed (cString e.key) e.value.dropLast := by
  have hkey : 0 < e.key.length := List.length_pos_iff.mpr e.key_ne_nil
  rw [Entry.line, configLoop, getdelim_append e.key_plain.1]
  simp only [getdelim_eof e.value_plain, List.length_append, List.length_singleton]
  rw [if_neg (by omega)]
  by_cases hval : e.value = []
  · rw [if_pos hval, if_pos (by rw [hval]; rfl)]
  · rw [if_neg hval, if_neg (by rwa [List.length_eq_zero_iff])]
    simp only [Nat.add_sub_cancel, List.take_left', ← List.dropLast_eq_take]
    cases accept parsed (cString e.key) e.value.dropLast with
    | error fault => rfl
    | ok parsed' => exact configLoop_nil _

theorem fileText_cons (e e' : Entry) (entries : List Entry) (final : Bool) :
    fileText (e :: e' :: entries) final = e.line ++ 0x0a :: fileText (e' :: entries) final := by
  have hne : (e' :: entries).flatMap (fun e => e.line ++ [0x0a]) ≠ [] := by simp
  cases final with
  | true => simp [fileText]
  | false =>
      simp only [fileText, List.flatMap_cons, Bool.false_eq_true, if_false] at hne ⊢
      rw [List.dropLast_append_of_ne_nil hne, List.append_assoc]
      rfl

theorem fileText_singleton (e : Entry) (final : Bool) :
    fileText [e] final = if final then e.line ++ [0x0a] else e.line := by
  cases final <;> simp [fileText]

-- A run of the loop passes on what `readPairs` lists, line by line.
theorem configLoop_fileText (entries : List Entry) (final : Bool) (fuel : Nat) (parsed : σ)
    (hfuel : entries.length < fuel) (hend : EndsRead entries final) :
    configLoop accept fuel (fileText entries final) parsed =
      (readPairs entries final).foldlM (fun parsed pair => accept parsed pair.1 pair.2) parsed := by
  induction entries generalizing fuel parsed with
  | nil =>
      have hempty : fileText [] final = [] := by cases final <;> rfl
      rw [hempty, configLoop_nil]
      rfl
  | cons e entries ih =>
      obtain ⟨fuel, rfl⟩ : ∃ n, fuel = n + 2 := ⟨fuel - 2, by simp at hfuel; omega⟩
      cases entries with
      | nil =>
          rw [fileText_singleton]
          cases final with
          | true =>
              rw [if_pos rfl, configLoop_line]
              simp only [readPairs, if_true, List.foldlM_cons, List.foldlM_nil]
              refine congrArg _ (funext fun parsed' => ?_)
              exact configLoop_nil _
          | false =>
              have hval : e.value ≠ [] := by simpa [EndsRead] using hend
              rw [if_neg (by simp), configLoop_last, if_neg hval]
              simp [readPairs]
      | cons e' entries =>
          rw [fileText_cons, configLoop_line, readPairs, List.foldlM_cons]
          refine congrArg _ (funext fun parsed' => ?_)
          apply ih
          · simp only [List.length_cons] at hfuel ⊢
            omega
          · simpa [EndsRead] using hend

-- Behind a `=` at the end of the file the loop writes in front of its buffer.
theorem configLoop_endless (accept : σ → Bytes → Bytes → Except Fault σ) (entries : List Entry)
    (final : Bool) (fuel : Nat) (parsed : σ)
    (hfuel : entries.length < fuel) (hend : ¬EndsRead entries final) :
    ∃ fault, configLoop accept fuel (fileText entries final) parsed = .error fault := by
  induction entries generalizing fuel parsed with
  | nil => exact absurd (Or.inr (by simp)) hend
  | cons e entries ih =>
      obtain ⟨fuel, rfl⟩ : ∃ n, fuel = n + 2 := ⟨fuel - 2, by simp at hfuel; omega⟩
      cases entries with
      | nil =>
          have hfile : final = false ∧ e.value = [] := by simpa [EndsRead] using hend
          rw [fileText_singleton, hfile.1, if_neg (by simp), configLoop_last, if_pos hfile.2]
          exact ⟨_, rfl⟩
      | cons e' entries =>
          rw [fileText_cons, configLoop_line]
          cases accept parsed (cString e.key) e.value with
          | error fault => exact ⟨fault, rfl⟩
          | ok parsed' =>
              apply ih
              · simp only [List.length_cons] at hfuel ⊢
                omega
              · simpa [EndsRead] using hend

theorem length_le_fileText (entries : List Entry) (final : Bool) :
    entries.length ≤ (fileText entries final).length := by
  have hlines : 2 * entries.length ≤ (entries.flatMap fun e => e.line ++ [0x0a]).length := by
    induction entries with
    | nil => exact Nat.le_refl _
    | cons e entries ih =>
        simp only [List.flatMap_cons, Entry.line, List.length_append, List.length_cons] at ih ⊢
        omega
  cases final with
  | true =>
      rw [fileText, if_pos rfl]
      omega
  | false =>
      rw [fileText, if_neg (by simp), List.length_dropLast]
      cases entries with
      | nil => exact Nat.zero_le _
      | cons e entries =>
          simp only [List.length_cons] at hlines ⊢
          omega

-- What every branch keeps holds behind the loop, for any file.
theorem configLoop_invariant {I : σ → Prop}
    (haccept : ∀ parsed key val parsed', accept parsed key val = .ok parsed' → I parsed → I parsed')
    (fuel : Nat) (text : Bytes) (hstart : I parsed) {parsed' : σ}
    (h : configLoop accept fuel text parsed = .ok parsed') : I parsed' := by
  induction fuel generalizing text parsed with
  | zero =>
      obtain rfl := Except.ok.inj h
      exact hstart
  | succ fuel ih =>
      simp only [configLoop] at h
      split_ifs at h with hkey hval
      · obtain rfl := Except.ok.inj h
        exact hstart
      · generalize cString ((getdelim 61 text).1.take ((getdelim 61 text).1.length - 1)) = key at h
        generalize (getdelim 10 (getdelim 61 text).2).1.take
          ((getdelim 10 (getdelim 61 text).2).1.length - 1) = val at h
        cases hstep : accept parsed key val with
        | error fault =>
            rw [hstep] at h
            cases h
        | ok next =>
            rw [hstep] at h
            exact ih _ (haccept _ _ _ _ hstep hstart) h

end Reading

end Csiebox
