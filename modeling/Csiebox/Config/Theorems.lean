import Csiebox.Config.Client
import Csiebox.Config.RunPath
import Csiebox.Lib.Text

namespace Csiebox

open CBytes Program

namespace ServerArg

-- What the branch of a key uses of the values that are read for it.
def written (entries : List Entry) (final : Bool) (k : ServerKey) : List Bytes :=
  let values := valuesOf (readPairs entries final) k.key
  match k with
  | .path | .accountPath => copied pathMax values
  | .threadNum | .runPath => values

-- The last value that fits; `run_path` also needs room for its '/', and a number
-- always fits.
def wanted (entries : List Entry) (k : ServerKey) : Option Bytes :=
  let values := given entries k.key
  match k with
  | .path | .accountPath => lastFitting pathMax values
  | .threadNum => values.getLast?
  | .runPath => lastFitting (pathMax - 1) values

-- The law of `parse_arg`, where `run_path` is held with the '/' the server puts
-- behind it.
def Meets (entries : List Entry) : Except Fault (Option ServerArg) → Prop
  | .error _ => False
  | .ok none => ∃ k, wanted entries k = none
  | .ok (some arg) =>
      (∃ text, wanted entries .path = some text ∧ HoldsText arg.path text) ∧
      (∃ text, wanted entries .accountPath = some text ∧ HoldsText arg.accountPath text) ∧
      (∃ text, wanted entries .threadNum = some text ∧ arg.threadNum = atoi text) ∧
      ∃ text, wanted entries .runPath = some text ∧ HoldsText arg.runPath (text ++ [slash])

-- Whether the branch of a key takes the value.
def passes (k : ServerKey) (val : Bytes) : Bool :=
  match k with
  | .path | .accountPath => val.length ≤ pathMax
  | .threadNum | .runPath => true

def Unread (entries : List Entry) (final : Bool) (k : ServerKey) : Prop :=
  ∀ val ∈ valuesOf (readPairs entries final) k.key, passes k val = false

-- A number that is cut is still the same number.
def NumberRead (entries : List Entry) (final : Bool) : Prop :=
  ∃ last ∈ (given entries ServerKey.threadNum.key).getLast?,
    if PlainAt entries ServerKey.threadNum.key then
      CutAt entries final ServerKey.threadNum.key → atoi last.dropLast = atoi last
    else ∃ val ∈ (valuesOf (readPairs entries final) ServerKey.threadNum.key).getLast?, atoi val = atoi last

-- The values of `run_path`, each with its '/', stay inside the field.
def RunPathFits (entries : List Entry) (final : Bool) : Prop :=
  let values := valuesOf (readPairs entries final) ServerKey.runPath.key
  if PlainAt entries ServerKey.runPath.key then runLength values < pathMax else RunPathStays values

-- The last `run_path` is no shorter than what the earlier ones have left. One that is cut
-- ends in a '/' which is still there.
def RunPathRead (entries : List Entry) (final : Bool) : Prop :=
  let values := given entries ServerKey.runPath.key
  ∃ text ∈ lastFitting (pathMax - 1) values,
    if PlainAt entries ServerKey.runPath.key then
      if CutAt entries final ServerKey.runPath.key then
        values.getLast? = some text ∧ runLength values.dropLast = text.length ∧ text.getLast? = some slash
      else runLength values.dropLast ≤ text.length
    else RunPathSpells (valuesOf (readPairs entries final) ServerKey.runPath.key) text

def FileOk (entries : List Entry) (final : Bool) : Prop :=
  EndsRead entries final ∧ RunPathFits entries final ∧
    ((∃ k, Unread entries final k) ∨
      FieldRead pathMax entries final ServerKey.path.key ∧
        FieldRead pathMax entries final ServerKey.accountPath.key ∧
          NumberRead entries final ∧ RunPathRead entries final)

end ServerArg

section Accepting

open ServerArg

theorem ServerKey.key_injective : Function.Injective ServerKey.key := by
  intro j k h
  cases j <;> cases k <;> first | rfl | simp [ServerKey.key] at h

theorem ServerKey.mem_all (k : ServerKey) : k ∈ ServerKey.all := by
  cases k <;> decide

theorem ServerKey.cString_key (k : ServerKey) : cString k.key = k.key := by
  cases k <;> decide

instance {p : ServerKey → Prop} [DecidablePred p] : Decidable (∀ k, p k) :=
  decidable_of_iff (∀ k ∈ ServerKey.all, p k) ⟨fun h k => h k k.mem_all, fun h k _ => h k⟩

theorem find_serverKey {k : ServerKey} {key : Bytes} :
    ServerKey.all.find? (fun k => k.key = key) = some k ↔ k.key = key := by
  constructor
  · intro h
    simpa using List.find?_some h
  · rintro rfl
    cases k <;> decide

-- One line leaves every field but that of its key as it was.
theorem serverAccept_eq (arg : ServerArg) (accepted : ServerKey → Bool) (key val : Bytes) :
    ServerArg.acceptConfig (arg, accepted) key val = do
      let runPath ←
        (if ServerKey.runPath.key = key then appendRunPath arg.runPath val else .ok arg.runPath)
      return ({
          path := if ServerKey.path.key = key then copyFitting arg.path val else arg.path
          accountPath :=
            if ServerKey.accountPath.key = key then copyFitting arg.accountPath val else arg.accountPath
          threadNum := if ServerKey.threadNum.key = key then atoi val else arg.threadNum
          runPath },
        fun k => accepted k || (decide (k.key = key) && passes k val)) := by
  unfold ServerArg.acceptConfig
  cases hfind : ServerKey.all.find? (fun k => k.key = key) with
  | none =>
      have hne : ∀ k : ServerKey, k.key ≠ key := by
        intro k
        simpa using List.find?_eq_none.mp hfind k k.mem_all
      simp only [hne, if_false, bind, Except.bind, pure, Except.pure, decide_false,
        Bool.false_and, Bool.or_false]
  | some g =>
      obtain rfl := find_serverKey.mp hfind
      have hkey : ∀ k : ServerKey, k.key = g.key ↔ k = g := fun k =>
        ServerKey.key_injective.eq_iff
      have hflags : ∀ taken : Bool, passes g val = taken →
          (fun k => accepted k || (decide (k = g) && passes k val)) =
            if taken then Function.update accepted g true else accepted := by
        intro taken htakes
        funext k
        by_cases hk : k = g
        · subst hk
          cases taken <;> simp [htakes]
        · cases taken <;> simp [hk]
      simp only [hkey]
      cases g with
      | path =>
          by_cases hval : val.length ≤ pathMax
          · rw [hflags true (by simpa [passes] using hval)]
            simp [hval, copyFitting, bind, Except.bind, pure, Except.pure]
          · rw [hflags false (by simpa [passes] using hval)]
            simp [hval, copyFitting, bind, Except.bind, pure, Except.pure]
      | accountPath =>
          by_cases hval : val.length ≤ pathMax
          · rw [hflags true (by simpa [passes] using hval)]
            simp [hval, copyFitting, bind, Except.bind, pure, Except.pure]
          · rw [hflags false (by simpa [passes] using hval)]
            simp [hval, copyFitting, bind, Except.bind, pure, Except.pure]
      | threadNum =>
          rw [hflags true rfl]
          simp [bind, Except.bind, pure, Except.pure]
      | runPath =>
          rw [hflags true rfl]
          simp

-- Key by key, the branches only see the values of their own key.
theorem foldlM_serverAccept (pairs : List (Bytes × Bytes)) (arg : ServerArg) (accepted : ServerKey → Bool) :
    pairs.foldlM (fun parsed pair => ServerArg.acceptConfig parsed pair.1 pair.2) (arg, accepted) = do
      let runPath ← (valuesOf pairs ServerKey.runPath.key).foldlM appendRunPath arg.runPath
      return ({
          path := (valuesOf pairs ServerKey.path.key).foldl copyFitting arg.path
          accountPath := (valuesOf pairs ServerKey.accountPath.key).foldl copyFitting arg.accountPath
          threadNum := (valuesOf pairs ServerKey.threadNum.key).foldl (fun _ => atoi) arg.threadNum
          runPath },
        fun k => accepted k || (valuesOf pairs k.key).any (passes k)) := by
  induction pairs generalizing arg accepted with
  | nil => simp [valuesOf, bind, Except.bind, pure, Except.pure]
  | cons pair pairs ih =>
      have hvalues : ∀ k : ServerKey, valuesOf (pair :: pairs) k.key =
          (if k.key = pair.1 then [pair.2] else []) ++ valuesOf pairs k.key := by
        intro k
        by_cases hk : k.key = pair.1
        · simp [valuesOf, hk]
        · simp [valuesOf, hk, Ne.symm hk]
      have hflags : ∀ k : ServerKey, (valuesOf (pair :: pairs) k.key).any (passes k) =
          ((decide (k.key = pair.1) && passes k pair.2) || (valuesOf pairs k.key).any (passes k)) := by
        intro k
        rw [hvalues, List.any_append]
        by_cases hk : k.key = pair.1
        · simp [hk]
        · simp [hk]
      have hrun : (valuesOf (pair :: pairs) ServerKey.runPath.key).foldlM appendRunPath arg.runPath =
          (if ServerKey.runPath.key =
            pair.1 then appendRunPath arg.runPath pair.2 else .ok arg.runPath).bind
            ((valuesOf pairs ServerKey.runPath.key).foldlM appendRunPath) := by
        rw [hvalues]
        split_ifs
        · rfl
        · rfl
      have hfold : ∀ {α : Type} (f : α → Bytes → α) (k : ServerKey) (a : α),
          (valuesOf (pair :: pairs) k.key).foldl f a =
            (valuesOf pairs k.key).foldl f (if k.key = pair.1 then f a pair.2 else a) := by
        intro α f k a
        rw [hvalues]
        split_ifs
        · rfl
        · rfl
      rw [List.foldlM_cons, serverAccept_eq, hrun]
      simp only [hflags, hfold, ← Bool.or_assoc]
      cases (if ServerKey.runPath.key = pair.1 then appendRunPath arg.runPath pair.2
          else Except.ok arg.runPath) with
      | error fault => rfl
      | ok runPath => exact ih _ _

end Accepting

namespace ServerArg

variable {entries : List Entry} {final : Bool}

theorem any_passes_iff (entries : List Entry) (final : Bool) (k : ServerKey) :
    (valuesOf (readPairs entries final) k.key).any (passes k) = true ↔ written entries final k ≠ [] := by
  cases k <;> simp [written, passes, copied, List.eq_nil_iff_forall_not_mem]

theorem parseArg_endless (hend : ¬EndsRead entries final) :
    ∃ fault, parseArg (fileText entries final) = .error fault := by
  have hfuel := length_le_fileText entries final
  obtain ⟨fault, hloop⟩ := configLoop_endless acceptConfig entries final
    ((fileText entries final).length + 1) (zero, fun _ => false) (by omega) hend
  exact ⟨fault, by rw [parseArg, hloop]; rfl⟩

-- What the fields hold behind the loop, given what `run_path` holds.
def filled (entries : List Entry) (final : Bool) (runPath : Mem pathMax) : ServerArg where
  path := (valuesOf (readPairs entries final) ServerKey.path.key).foldl copyFitting zero.path
  accountPath :=
    (valuesOf (readPairs entries final) ServerKey.accountPath.key).foldl copyFitting zero.accountPath
  threadNum := (valuesOf (readPairs entries final) ServerKey.threadNum.key).foldl (fun _ => atoi) 0
  runPath

theorem parseArg_eq (hend : EndsRead entries final) :
    parseArg (fileText entries final) =
      ((written entries final .runPath).foldlM appendRunPath zero.runPath).map fun runPath =>
        if ∀ k, written entries final k ≠ [] then some (filled entries final runPath) else none := by
  have hfuel := length_le_fileText entries final
  rw [parseArg, configLoop_fileText entries final _ _ (by omega) hend, foldlM_serverAccept]
  have hruns : written entries final .runPath =
    valuesOf (readPairs entries final) ServerKey.runPath.key := rfl
  rw [hruns]
  cases (valuesOf (readPairs entries final) ServerKey.runPath.key).foldlM appendRunPath zero.runPath with
  | error fault => rfl
  | ok runPath =>
      have hflags : ServerKey.all.all
          (fun k => false || (valuesOf (readPairs entries final) k.key).any (passes k)) = true ↔
          ∀ k, written entries final k ≠ [] := by
        rw [List.all_eq_true]
        constructor
        · intro h k
          exact (any_passes_iff entries final k).mp (h k k.mem_all)
        · intro h k _
          exact (any_passes_iff entries final k).mpr (h k)
      simp only [bind, Except.bind, pure, Except.pure, Except.map, hflags]
      rfl

-- A key whose branch is never taken is given no value that fits.
theorem wanted_eq_none {k : ServerKey} (h : written entries final k = []) : wanted entries k = none := by
  by_contra hsome
  obtain ⟨text, htext⟩ := Option.ne_none_iff_exists'.mp hsome
  have hread : ∀ {val : Bytes}, val ∈ given entries k.key →
      valuesOf (readPairs entries final) k.key ≠ [] := by
    intro val hval
    obtain ⟨val', hval', -⟩ := exists_read_of_given final k.cString_key hval
    exact List.ne_nil_of_mem hval'
  cases k with
  | path => exact copied_ne_nil_of_lastFitting ServerKey.path.cString_key htext h
  | accountPath => exact copied_ne_nil_of_lastFitting ServerKey.accountPath.cString_key htext h
  | threadNum => exact hread (List.mem_of_getLast? htext) h
  | runPath => exact hread (lastFitting_mem htext).1 h

theorem unread_iff (k : ServerKey) : Unread entries final k ↔ written entries final k = [] := by
  have hpasses := any_passes_iff entries final k
  rw [List.any_eq_true] at hpasses
  rw [Unread, ← not_iff_not, ← ne_eq, ← hpasses]
  simp

theorem numberRead_iff : NumberRead entries final ↔
    ∃ text, wanted entries .threadNum = some text ∧
      ∃ val ∈ (valuesOf (readPairs entries final) ServerKey.threadNum.key).getLast?,
        atoi val = atoi text := by
  refine exists_congr fun last => and_congr_right fun hlast => ?_
  split_ifs with hplain
  · rw [readFor_plain final ServerKey.threadNum.cString_key hplain]
    obtain ⟨front, hfront⟩ := List.getLast?_eq_some_iff.mp hlast
    split_ifs with hcut
    · rw [forall_prop_of_true hcut, hfront, cutLast_append]
      simp
    · rw [hfront]
      exact iff_of_true (fun h => absurd h hcut) (by simp)
  · exact Iff.rfl

theorem threadNum_iff {text : Bytes} {runPath : Mem pathMax} (h : written entries final .threadNum ≠ []) :
    (filled entries final runPath).threadNum = atoi text ↔
      ∃ val ∈ (written entries final .threadNum).getLast?, atoi val = atoi text := by
  have hsplit := List.dropLast_concat_getLast h
  have hlast := List.getLast?_eq_some_getLast h
  have hnum : (filled entries final runPath).threadNum =
      (written entries final .threadNum).foldl (fun _ => atoi) 0 := rfl
  rw [hnum, ← hsplit, List.foldl_append, hsplit, hlast]
  simp

theorem runPath_iff {text : Bytes} {field : Mem pathMax} (h : written entries final .runPath ≠ [])
    (hfield : (written entries final .runPath).foldlM appendRunPath zero.runPath = .ok field)
    (hfits : text.length < pathMax) :
    HoldsText field (text ++ [slash]) ↔ RunPathSpells (written entries final .runPath) text := by
  have hsplit := List.dropLast_concat_getLast h
  have hlast := List.getLast?_eq_some_getLast h
  have hparts : ∃ before,
      (written entries final .runPath).dropLast.foldlM appendRunPath zero.runPath = .ok before ∧
        appendRunPath before ((written entries final .runPath).getLast h) = .ok field := by
    rw [← hsplit, List.foldlM_append] at hfield
    simp only [List.foldlM_cons, List.foldlM_nil, bind_pure] at hfield
    cases hbefore : (written entries final .runPath).dropLast.foldlM appendRunPath zero.runPath with
    | error fault =>
        rw [hbefore] at hfield
        cases hfield
    | ok before =>
        rw [hbefore] at hfield
        exact ⟨before, rfl, hfield⟩
  obtain ⟨before, hbefore, hval⟩ := hparts
  rw [appendRunPath_holds_iff hval hfits, RunPathSpells, hbefore, hlast]
  constructor
  · intro hspells
    exact ⟨before, rfl, _, rfl, hspells⟩
  · intro hspells
    obtain ⟨before', hbefore', val, hval', hspells⟩ := hspells
    obtain rfl := Except.ok.inj hbefore'
    obtain rfl := Option.mem_some_iff.mp hval'
    exact hspells

-- Plain lines of `run_path` that are read whole.
theorem wholePath_iff {values : List Bytes} {field : Mem pathMax} (hplain : ∀ val ∈ values, 0 ∉ val)
    (hne : values ≠ []) (hfits : runLength values < pathMax)
    (hfield : values.foldlM appendRunPath zero.runPath = .ok field) :
    (∃ text ∈ lastFitting (pathMax - 1) values, runLength values.dropLast ≤ text.length) ↔
      ∃ text, lastFitting (pathMax - 1) values = some text ∧ HoldsText field (text ++ [slash]) := by
  obtain ⟨front, last, rfl⟩ := (List.eq_nil_or_concat values).resolve_left hne
  rw [List.concat_eq_append] at *
  obtain ⟨left, hlength, -, hholds⟩ := exists_runPath_text hplain hfits hfield
  rw [runLength_append] at hfits
  have hlast : lastFitting (pathMax - 1) (front ++ [last]) = some last := by
    rw [lastFitting_append, if_pos (by omega)]
  rw [hlast, List.dropLast_concat]
  simp only [Option.mem_some_iff, exists_eq_left', Option.some.injEq, hholds, ← hlength]
  rw [← List.drop_eq_nil_iff]
  exact (List.append_right_eq_self).symm

-- Plain lines of which the last one is cut.
theorem cutPath_iff {values : List Bytes} {field : Mem pathMax} (hplain : ∀ val ∈ values, 0 ∉ val)
    (hne : values ≠ []) (hlast : ∀ last ∈ values.getLast?, last ≠ [])
    (hfits : runLength (cutLast values) < pathMax)
    (hfield : (cutLast values).foldlM appendRunPath zero.runPath = .ok field) :
    (∃ text ∈ lastFitting (pathMax - 1) values, values.getLast? = some text ∧
        runLength values.dropLast = text.length ∧ text.getLast? = some slash) ↔
      ∃ text, lastFitting (pathMax - 1) values = some text ∧ HoldsText field (text ++ [slash]) := by
  obtain ⟨front, last, rfl⟩ := (List.eq_nil_or_concat values).resolve_left hne
  rw [List.concat_eq_append] at *
  obtain ⟨bs, b, rfl⟩ := (List.eq_nil_or_concat last).resolve_left (hlast _ (by simp))
  rw [List.concat_eq_append] at *
  rw [cutLast_append, List.dropLast_concat] at hfits hfield
  have hcut : ∀ val ∈ front ++ [bs], 0 ∉ val := by
    intro val hval
    rcases List.mem_append.mp hval with hval | hval
    · exact hplain val (List.mem_append_left _ hval)
    · obtain rfl := List.mem_singleton.mp hval
      exact fun h => hplain (val ++ [b]) (by simp) (List.mem_append_left _ h)
  obtain ⟨left, hlength, hslash, hholds⟩ := exists_runPath_text hcut hfits hfield
  rw [runLength_append, ← hlength] at hfits
  rw [lastFitting_append, List.dropLast_concat, ← hlength]
  simp only [hholds, List.length_append, List.length_singleton]
  by_cases hshort : bs.length + 1 < pathMax - 1
  · simp only [if_pos hshort, Option.mem_some_iff, exists_eq_left', Option.some.injEq,
      List.getLast?_append, List.getLast?_singleton, Option.some_or, true_and, List.append_cancel_left_eq,
      List.length_append, List.length_singleton]
    constructor
    · rintro ⟨hlen, rfl⟩
      have hleft : left ≠ [] := List.ne_nil_of_length_pos (by omega)
      have hend := hslash _ (List.getLast?_eq_some_getLast hleft)
      have hbs : left.dropLast.length = bs.length := by simp [hlen]
      rw [← List.dropLast_concat_getLast hleft, ← hbs, List.drop_left, hend]
    · intro hdrop
      have hlen := congrArg List.length hdrop
      rw [List.length_drop, List.length_singleton] at hlen
      refine ⟨by omega, hslash b ?_⟩
      rw [← List.take_append_drop bs.length left, hdrop]
      simp
  · simp only [if_neg hshort]
    refine iff_of_false ?_ ?_
    · rintro ⟨text, htext, hsame, -⟩
      have hfit := (lastFitting_mem htext).2
      have hsame' : bs ++ [b] = text := by simpa using hsame
      rw [← hsame', List.length_append, List.length_singleton] at hfit
      omega
    · rintro ⟨text, htext, hsame⟩
      obtain ⟨hmem, hfit⟩ := lastFitting_mem htext
      have hbelow := length_lt_runLength hmem
      rw [List.drop_eq_nil_of_le (by omega), List.append_nil] at hsame
      rw [← hsame] at hbelow
      omega

theorem runPathRead_iff (hend : EndsRead entries final) {field : Mem pathMax}
    (hne : written entries final .runPath ≠ [])
    (hfield : (written entries final .runPath).foldlM appendRunPath zero.runPath = .ok field) :
    RunPathRead entries final ↔
      ∃ text, wanted entries .runPath = some text ∧ HoldsText field (text ++ [slash]) := by
  have hwritten : written entries final .runPath =
    valuesOf (readPairs entries final) ServerKey.runPath.key := rfl
  unfold RunPathRead
  by_cases hplain : PlainAt entries ServerKey.runPath.key
  · have hvalues := plain_given ServerKey.runPath.cString_key hplain
    have hread := readFor_plain final ServerKey.runPath.cString_key hplain
    simp only [if_pos hplain]
    rw [hwritten, hread] at hne hfield
    split_ifs at hne hfield ⊢ with hcut
    · have hgiven : given entries ServerKey.runPath.key ≠ [] := by
        intro hnil
        rw [hnil] at hne
        exact hne rfl
      have hlast : ∀ last ∈ (given entries ServerKey.runPath.key).getLast?, last ≠ [] := by
        intro last hlast
        obtain ⟨e, he, hsome⟩ := given_getLast_of_cut hcut
        obtain rfl : e.value = last := Option.some.inj (hsome.symm.trans hlast)
        exact hend.resolve_left (by simp [hcut.1]) e he
      have hcutplain := plain_cutLast hvalues
      exact cutPath_iff hvalues hgiven hlast ((runPathStays_iff hcutplain).mp ⟨field, hfield⟩) hfield
    · exact wholePath_iff hvalues hne ((runPathStays_iff hvalues).mp ⟨field, hfield⟩) hfield
  · simp only [if_neg hplain]
    refine exists_congr fun text => and_congr_right fun htext => ?_
    have hfits := (lastFitting_mem htext).2
    exact (runPath_iff hne hfield (by omega)).symm

theorem runPathFits_iff : RunPathFits entries final ↔ RunPathStays (written entries final .runPath) := by
  unfold RunPathFits
  simp only
  split_ifs with hplain
  · have hvalues := plain_given ServerKey.runPath.cString_key hplain
    refine (runPathStays_iff ?_).symm
    rw [readFor_plain final ServerKey.runPath.cString_key hplain]
    split_ifs
    · exact plain_cutLast hvalues
    · exact hvalues
  · exact Iff.rfl

theorem meets_iff : Meets entries (parseArg (fileText entries final)) ↔ FileOk entries final := by
  by_cases hend : EndsRead entries final
  · rw [parseArg_eq hend, FileOk, runPathFits_iff]
    cases hruns : (written entries final .runPath).foldlM appendRunPath zero.runPath with
    | error fault =>
        refine iff_of_false id fun h => ?_
        obtain ⟨field, hfield⟩ := h.2.1
        rw [hruns] at hfield
        cases hfield
    | ok field =>
        have hstays : RunPathStays (written entries final .runPath) := ⟨field, hruns⟩
        by_cases hall : ∀ k, written entries final k ≠ []
        · have hnone : ¬∃ k, Unread entries final k := fun ⟨k, hk⟩ => hall k ((unread_iff k).mp hk)
          have hpath : FieldRead pathMax entries final ServerKey.path.key ↔
              ∃ text, wanted entries .path = some text ∧ HoldsText (filled entries final field).path text :=
            (fieldRead_iff ServerKey.path.cString_key hend).trans
              (exists_congr fun text => and_congr_right fun htext =>
                (holds_iff rfl (lastFitting_mem htext).2).symm)
          have haccount : FieldRead pathMax entries final ServerKey.accountPath.key ↔
              ∃ text, wanted entries .accountPath = some text ∧
                HoldsText (filled entries final field).accountPath text :=
            (fieldRead_iff ServerKey.accountPath.cString_key hend).trans
              (exists_congr fun text => and_congr_right fun htext =>
                (holds_iff rfl (lastFitting_mem htext).2).symm)
          have hthreads : NumberRead entries final ↔
              ∃ text, wanted entries .threadNum = some text ∧
                (filled entries final field).threadNum = atoi text :=
            numberRead_iff.trans
              (exists_congr fun text => and_congr_right fun _ => (threadNum_iff (hall .threadNum)).symm)
          rw [Except.map, if_pos hall, hpath, haccount, hthreads,
            runPathRead_iff hend (hall .runPath) hruns]
          simp only [Meets, hend, hstays, hnone, true_and, false_or]
          exact Iff.rfl
        · obtain ⟨k, hk⟩ := not_forall_not.mp hall
          rw [Except.map, if_neg hall]
          exact iff_of_true ⟨k, wanted_eq_none hk⟩ ⟨hend, hstays, .inl ⟨k, (unread_iff k).mpr hk⟩⟩
  · obtain ⟨fault, hfault⟩ := parseArg_endless hend
    rw [hfault]
    exact iff_of_false id fun h => hend h.1

end ServerArg

namespace ServerArg

variable {before field : Mem pathMax} {val : Bytes}

-- The string in the field behind a `run_path` line.
theorem appendRunPath_string (h : appendRunPath before val = .ok field) :
    cString field.val = cString (overlay before.val (padded val)) ++ [slash] := by
  unfold appendRunPath strncpyField at h
  split_ifs at h with hval
  · exact (strcatField_ok (by simp [slash]) h).2.2
  · cases h

-- A value with a NUL ends there; the string of any other starts with all of it.
theorem cString_overlay_padded (before : Bytes) (val : Bytes) :
    (0 ∈ val → cString (overlay before (padded val)) = cString val) ∧
      (0 ∉ val → cString (overlay before (padded val)) = val ++ cString (before.drop val.length)) := by
  constructor
  · intro hzero
    have hshort : (cString val).length < val.length := by
      by_contra hlong
      have hpre : cString val <+: val := List.takeWhile_prefix _
      have hlen := hpre.length_le
      have hall := hpre.eq_of_length (by omega)
      exact cString_nonzero 0 (hall ▸ hzero) rfl
    obtain ⟨k, hk⟩ : ∃ k, val.length - (cString val).length = k + 1 := ⟨_, (Nat.succ_pred (by omega)).symm⟩
    rw [overlay, padded, hk, zeros, List.replicate_succ, List.append_assoc, List.cons_append]
    exact cString_append_zero cString_nonzero _
  · intro hplain
    have hne : ∀ b ∈ val, b ≠ 0 := fun b hb hb0 => hplain (hb0 ▸ hb)
    rw [overlay, padded_eq_self hne, cString, List.takeWhile_append_of_pos (by simpa using hne)]
    rfl

-- The field of an accepted file was written by some line, whatever the file is.
theorem exists_runPath_line {text : Bytes} {arg : ServerArg} (h : parseArg text = .ok (some arg)) :
    ∃ before val, appendRunPath before val = .ok arg.runPath := by
  have hkeeps : ∀ (parsed : Parsed) (key val : Bytes) (parsed' : Parsed),
      acceptConfig parsed key val = .ok parsed' →
      (parsed.2 .runPath = true → ∃ before val, appendRunPath before val = .ok parsed.1.runPath) →
      parsed'.2 .runPath = true → ∃ before val, appendRunPath before val = .ok parsed'.1.runPath := by
    intro parsed key val parsed' haccept hparsed hflag
    rw [← Prod.mk.eta (p := parsed), serverAccept_eq] at haccept
    by_cases hkey : ServerKey.runPath.key = key
    · rw [if_pos hkey] at haccept
      cases hrun : appendRunPath parsed.1.runPath val with
      | error fault =>
          rw [hrun] at haccept
          cases haccept
      | ok runPath =>
          rw [hrun] at haccept
          obtain rfl := Except.ok.inj haccept
          exact ⟨_, _, hrun⟩
    · rw [if_neg hkey] at haccept
      obtain rfl := Except.ok.inj haccept
      exact hparsed (by simpa [hkey] using hflag)
  unfold parseArg at h
  cases hloop : configLoop ServerArg.acceptConfig (text.length + 1) text (zero, fun _ => false) with
  | error fault =>
      rw [hloop] at h
      cases h
  | ok parsed =>
      rw [hloop] at h
      have hbehind := configLoop_invariant hkeeps _ _ (by simp) hloop
      obtain ⟨arg', accepted⟩ := parsed
      have hresult : (if ServerKey.all.all accepted then some arg' else none) = some arg := Except.ok.inj h
      split_ifs at hresult with hall
      obtain rfl := Option.some.inj hresult
      exact hbehind (List.all_eq_true.mp hall _ (ServerKey.mem_all _))

-- In a file of plain lines it was the last one of the key.
theorem exists_last_runPath {entries : List Entry} {arg : ServerArg} (hplain : ∀ e ∈ entries, 0 ∉ e.key)
    (h : parseArg (fileText entries true) = .ok (some arg)) :
    ∃ front e back before, entries = front ++ e :: back ∧ e.key = ServerKey.runPath.key ∧
      (∀ e' ∈ back, e'.key ≠ ServerKey.runPath.key) ∧
      (given front ServerKey.runPath.key).foldlM appendRunPath zero.runPath = .ok before ∧
      appendRunPath before e.value = .ok arg.runPath := by
  rw [parseArg_eq (.inl rfl)] at h
  have hgiven : written entries true .runPath = given entries ServerKey.runPath.key := by
    rw [written, readPairs_plain hplain]
    rfl
  rw [hgiven] at h
  cases hruns : (given entries ServerKey.runPath.key).foldlM appendRunPath zero.runPath with
  | error fault =>
      rw [hruns] at h
      cases h
  | ok field =>
      rw [hruns] at h
      have hresult : (if ∀ k, written entries true k ≠ [] then some (filled entries true field) else none) =
          some arg := Except.ok.inj h
      split_ifs at hresult with hall
      obtain rfl := Option.some.inj hresult
      have hsome : ∃ e ∈ entries, e.key = ServerKey.runPath.key := by
        have hne := hall .runPath
        rw [hgiven] at hne
        obtain ⟨val, hval⟩ := List.exists_mem_of_ne_nil _ hne
        obtain ⟨e, he, hkey, -⟩ := mem_given.mp hval
        exact ⟨e, he, hkey⟩
      obtain ⟨front, e, back, rfl, hkey, hback⟩ := exists_last hsome
      have hsplit : given (front ++ e :: back) ServerKey.runPath.key =
          given front ServerKey.runPath.key ++ [e.value] := by
        have hnone : given back ServerKey.runPath.key = [] := by
          rw [List.eq_nil_iff_forall_not_mem]
          intro val hval
          obtain ⟨e', he', hkey', -⟩ := mem_given.mp hval
          exact hback e' he' hkey'
        have hone : given [e] ServerKey.runPath.key = [e.value] := by simp [given, valuesOf, hkey]
        rw [← List.singleton_append, given_append, given_append, hone, hnone, List.append_nil]
      rw [hsplit, List.foldlM_append] at hruns
      cases hbefore : (given front ServerKey.runPath.key).foldlM appendRunPath zero.runPath with
      | error fault =>
          rw [hbefore] at hruns
          cases hruns
      | ok before =>
          rw [hbefore] at hruns
          simp only [List.foldlM_cons, List.foldlM_nil, bind_pure] at hruns
          exact ⟨front, e, back, before, rfl, hkey, hback, hbefore, hruns⟩

end ServerArg

section Configurations

-- Both parsers read a file as its lines say exactly if it does not end behind a `=` and the
-- values of a key have the right lengths: no earlier one reaches behind the last that fits.
theorem configurations_read_iff (entries : List Entry) (final : Bool) :
    (ClientArg.Meets entries (ClientArg.parseConfig (fileText entries final)) ↔
        ClientArg.FileOk entries final) ∧
      (ServerArg.Meets entries (ServerArg.parseArg (fileText entries final)) ↔
        ServerArg.FileOk entries final) :=
  ⟨ClientArg.meets_iff, ServerArg.meets_iff⟩

def longPasswd : Bytes := List.replicate 30 0x70

-- A client's file whose password is as long as its field.
def longPasswdFile : List Entry :=
  [⟨Field.name.key, [0x63], by decide, by decide, by decide⟩,
    ⟨Field.server.key, [0x68], by decide, by decide, by decide⟩,
    ⟨Field.user.key, [0x75], by decide, by decide, by decide⟩,
    ⟨Field.passwd.key, longPasswd, by decide, by decide, by decide⟩,
    ⟨Field.path.key, [0x2f], by decide, by decide, by decide⟩]

theorem long_passwd_unterminated :
    (∃ arg, ClientArg.parseConfig (fileText longPasswdFile true) = .ok (some arg) ∧
      0 ∉ (arg .passwd).val) ∧
    ¬ClientArg.Meets longPasswdFile (ClientArg.parseConfig (fileText longPasswdFile true)) := by
  have hall : ∀ f, ClientArg.written longPasswdFile true f ≠ [] := by decide
  have hunfit : lastFitting Field.passwd.size (given longPasswdFile Field.passwd.key) = none := by decide
  constructor
  · rw [ClientArg.parseConfig_eq (.inl rfl), if_pos hall]
    exact ⟨_, rfl, by decide +kernel⟩
  · rw [ClientArg.meets_iff]
    intro h
    obtain ⟨-, ⟨f, hf⟩ | hkept⟩ := h
    · exact hall f ((ClientArg.unread_iff f).mp hf)
    · obtain ⟨text, htext, -⟩ := (fieldRead_iff Field.passwd.cString_key (.inl rfl)).mp (hkept .passwd)
      have hmem : lastFitting Field.passwd.size (given longPasswdFile Field.passwd.key) = some text := htext
      rw [hunfit] at hmem
      cases hmem

end Configurations

end Csiebox
