import Csiebox.Config.Fields

namespace Csiebox

open CBytes Program

namespace ClientArg

-- `parse_arg`, with an abnormal end told from a file that is refused.
def parseConfig (text : Bytes) : Except Fault (Option ClientArg) := do
  let (arg, accepted) ← configLoop (fun parsed key val => .ok (acceptConfig parsed key val))
    (text.length + 1) text (.zero, fun _ => false)
  return if Field.all.all accepted then some arg else none

-- Accepted exactly when every key has a value that fits, and then every array is the
-- last of these.
def Meets (entries : List Entry) : Except Fault (Option ClientArg) → Prop
  | .error _ => False
  | .ok none => ∃ f : Field, lastFitting f.size (given entries f.key) = none
  | .ok (some arg) =>
      ∀ f : Field, ∃ text, lastFitting f.size (given entries f.key) = some text ∧ HoldsText (arg f) text

-- What the branch of `f` copies.
def written (entries : List Entry) (final : Bool) (f : Field) : List Bytes :=
  copied f.size (valuesOf (readPairs entries final) f.key)

-- Every line of the key is too long to be copied.
def Unread (entries : List Entry) (final : Bool) (f : Field) : Prop :=
  ∀ val ∈ valuesOf (readPairs entries final) f.key, f.size < val.length

-- The files that are read as they should be.
def FileOk (entries : List Entry) (final : Bool) : Prop :=
  EndsRead entries final ∧
    ((∃ f, Unread entries final f) ∨ ∀ f : Field, FieldRead f.size entries final f.key)

end ClientArg

section Accepting

theorem Field.key_injective : Function.Injective Field.key := by
  intro f g h
  cases f <;> cases g <;> first | rfl | simp [Field.key] at h

theorem Field.mem_all (f : Field) : f ∈ Field.all := by
  cases f <;> decide

instance {p : Field → Prop} [DecidablePred p] : Decidable (∀ f, p f) :=
  decidable_of_iff (∀ f ∈ Field.all, p f) ⟨fun h f => h f f.mem_all, fun h f _ => h f⟩

theorem Field.cString_key (f : Field) : cString f.key = f.key := by
  cases f <;> decide

theorem acceptConfig_eq (parsed : Parsed) (key val : Bytes) (f : Field) :
    (acceptConfig parsed key val).1 f =
        (if f.key = key then copyFitting (parsed.1 f) val else parsed.1 f) ∧
      (acceptConfig parsed key val).2 f =
        (parsed.2 f || (decide (f.key = key) && decide (val.length ≤ f.size))) := by
  cases hfind : Field.all.find? (fun f => f.key = key) with
  | none =>
      have hne : f.key ≠ key := by simpa using List.find?_eq_none.mp hfind f f.mem_all
      simp [acceptConfig, hfind, hne]
  | some g =>
      have hg : g.key = key := by simpa using List.find?_some hfind
      by_cases hfg : f = g
      · subst hfg
        by_cases hval : val.length ≤ f.size
        · simp [acceptConfig, hfind, hg, hval, copyFitting]
        · simp [acceptConfig, hfind, hval, copyFitting]
      · have hne : f.key ≠ key := fun heq => hfg (Field.key_injective (heq.trans hg.symm))
        by_cases hval : val.length ≤ g.size
        · simp [acceptConfig, hfind, hne, hval, hfg]
        · simp [acceptConfig, hfind, hne, hval]

-- Field by field, the branches only see the values of their own key.
theorem foldl_acceptConfig (pairs : List (Bytes × Bytes)) (parsed : Parsed) (f : Field) :
    (pairs.foldl (fun parsed pair => acceptConfig parsed pair.1 pair.2) parsed).1 f =
        (valuesOf pairs f.key).foldl copyFitting (parsed.1 f) ∧
      (pairs.foldl (fun parsed pair => acceptConfig parsed pair.1 pair.2) parsed).2 f =
        (parsed.2 f || !(copied f.size (valuesOf pairs f.key)).isEmpty) := by
  induction pairs generalizing parsed with
  | nil => simp [valuesOf, copied]
  | cons pair pairs ih =>
      obtain ⟨hfield, hflag⟩ := ih (acceptConfig parsed pair.1 pair.2)
      obtain ⟨hfield', hflag'⟩ := acceptConfig_eq parsed pair.1 pair.2 f
      rw [List.foldl_cons, hfield, hflag, hfield', hflag']
      by_cases hkey : pair.1 = f.key
      · by_cases hval : pair.2.length ≤ f.size
        · simp [valuesOf, copied, hkey, hval]
        · simp [valuesOf, copied, hkey, hval]
      · simp [valuesOf, hkey, Ne.symm hkey]

end Accepting

theorem parseLines_eq (fuel : Nat) (text : Bytes) (parsed : Parsed) :
    parseLines fuel text parsed =
      (configLoop (fun parsed key val => .ok (acceptConfig parsed key val)) fuel text parsed).toOption := by
  induction fuel generalizing text parsed with
  | zero => rfl
  | succ fuel ih =>
      simp only [parseLines, configLoop]
      split_ifs
      · rfl
      · rfl
      · exact ih _ _

namespace ClientArg

-- The parser of the client's model only drops the difference between its two ends.
theorem parseArg_eq (text : Bytes) : parseArg text = (parseConfig text).toOption.join := by
  rw [parseArg, parseLines_eq, parseConfig]
  cases configLoop (fun parsed key val => .ok (acceptConfig parsed key val)) (text.length + 1) text
      (zero, fun _ => false) with
  | error fault => rfl
  | ok parsed => rfl

variable {entries : List Entry} {final : Bool}

theorem parseConfig_endless (hend : ¬EndsRead entries final) :
    ∃ fault, parseConfig (fileText entries final) = .error fault := by
  have hfuel := length_le_fileText entries final
  obtain ⟨fault, hloop⟩ := configLoop_endless
    (fun parsed key val => .ok (acceptConfig parsed key val)) entries final
    ((fileText entries final).length + 1) (.zero, fun _ => false) (by omega) hend
  exact ⟨fault, by rw [parseConfig, hloop]; rfl⟩

theorem parseConfig_eq (hend : EndsRead entries final) :
    parseConfig (fileText entries final) = .ok
      (if ∀ f, written entries final f ≠ [] then
        some fun f => (valuesOf (readPairs entries final) f.key).foldl copyFitting (zero f)
      else none) := by
  have hfuel := length_le_fileText entries final
  rw [parseConfig, configLoop_fileText entries final _ _ (by omega) hend]
  have hpure := List.foldlM_pure (m := Except Fault) (l := readPairs entries final)
    (f := fun (parsed : Parsed) pair => acceptConfig parsed pair.1 pair.2) (b := (zero, fun _ => false))
  simp only [pure, Except.pure] at hpure
  rw [hpure]
  have hsplit := foldl_acceptConfig (readPairs entries final) (zero, fun _ => false)
  have harg := funext fun f => (hsplit f).1
  have hflags : Field.all.all ((readPairs entries final).foldl
      (fun parsed pair => acceptConfig parsed pair.1 pair.2) (zero, fun _ => false)).2 = true ↔
      ∀ f, written entries final f ≠ [] := by
    rw [List.all_eq_true]
    constructor
    · intro h f
      have hf := h f f.mem_all
      rw [(hsplit f).2] at hf
      simpa [written] using hf
    · intro h f _
      rw [(hsplit f).2]
      simpa [written] using h f
  simp only [bind, Except.bind, pure, Except.pure, harg, hflags]

theorem unread_iff (f : Field) : Unread entries final f ↔ written entries final f = [] := by
  simp [Unread, written, copied, List.filter_eq_nil_iff]

theorem meets_iff : Meets entries (parseConfig (fileText entries final)) ↔ FileOk entries final := by
  by_cases hend : EndsRead entries final
  · rw [parseConfig_eq hend]
    by_cases hall : ∀ f, written entries final f ≠ []
    · rw [if_pos hall]
      have hnone : ¬∃ f, Unread entries final f := fun ⟨f, hf⟩ => hall f ((unread_iff f).mp hf)
      have hkept : ∀ f : Field,
          (∃ text, lastFitting f.size (given entries f.key) = some text ∧
            HoldsText ((valuesOf (readPairs entries final) f.key).foldl copyFitting (zero f)) text) ↔
          FieldRead f.size entries final f.key := by
        intro f
        rw [fieldRead_iff f.cString_key hend]
        refine exists_congr fun text => and_congr_right fun hlast => ?_
        exact holds_iff rfl (lastFitting_mem hlast).2
      simp only [Meets, FileOk, hkept, hend, hnone, true_and, false_or]
    · rw [if_neg hall]
      obtain ⟨f, hf⟩ := not_forall_not.mp hall
      have hunfit : lastFitting f.size (given entries f.key) = none := by
        by_contra hsome
        obtain ⟨text, htext⟩ := Option.ne_none_iff_exists'.mp hsome
        exact copied_ne_nil_of_lastFitting f.cString_key htext hf
      exact iff_of_true ⟨f, hunfit⟩ ⟨hend, .inl ⟨f, (unread_iff f).mpr hf⟩⟩
  · obtain ⟨fault, hfault⟩ := parseConfig_endless hend
    rw [hfault]
    exact iff_of_false id fun h => hend h.1

end ClientArg

end Csiebox
