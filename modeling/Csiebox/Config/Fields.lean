import Csiebox.Config.Lines

namespace Csiebox

open CBytes Program

section Fields

variable {n : Nat}

-- The field is terminated and reads as `text`.
def HoldsText (field : Mem n) (text : Bytes) : Prop := 0 ∈ field.val ∧ cString field.val = text

-- A branch of `parse_arg` that checks `vallen <= sizeof`.
def copyFitting (dst : Mem n) (val : Bytes) : Mem n :=
  if h : val.length ≤ n then copyField dst val h else dst

def valuesOf (pairs : List (Bytes × Bytes)) (key : Bytes) : List Bytes :=
  (pairs.filter (·.1 = key)).map (·.2)

-- The values the file gives for a key.
def given (entries : List Entry) (key : Bytes) : List Bytes :=
  valuesOf (entries.map fun e => (e.key, e.value)) key

-- A value fits when its field has room for the NUL.
def lastFitting (n : Nat) (values : List Bytes) : Option Bytes :=
  (values.filter (·.length < n)).getLast?

-- What `strncpy` writes of the values that pass the check.
def copied (n : Nat) (values : List Bytes) : List Bytes :=
  (values.filter (·.length ≤ n)).map padded

theorem copyFitting_val (dst : Mem n) (val : Bytes) :
    (copyFitting dst val).val = if val.length ≤ n then overlay dst.val (padded val) else dst.val := by
  unfold copyFitting
  split_ifs <;> rfl

theorem foldl_copyFitting (values : List Bytes) (dst : Mem n) :
    (values.foldl copyFitting dst).val = (copied n values).foldl overlay dst.val := by
  induction values generalizing dst with
  | nil => rfl
  | cons val values ih =>
      rw [List.foldl_cons, ih, copyFitting_val]
      by_cases hval : val.length ≤ n
      · simp [copied, hval]
      · simp [copied, hval]

theorem length_le_of_mem_copied {values : List Bytes} {bs : Bytes} (h : bs ∈ copied n values) :
    bs.length ≤ n := by
  obtain ⟨val, hval, rfl⟩ := List.mem_map.mp h
  rw [padded_length]
  simpa using (List.mem_filter.mp hval).2

-- A zeroed field holds what its layers spell.
theorem holds_iff {values : List Bytes} {dst : Mem n} {text : Bytes} (hdst : dst.val = zeros n)
    (hfits : text.length < n) : HoldsText (values.foldl copyFitting dst) text ↔
      Spells (copied n values) text := by
  rw [HoldsText, foldl_copyFitting, hdst]
  exact foldl_overlay_spells_iff (fun _ => length_le_of_mem_copied) hfits

theorem lastFitting_mem {values : List Bytes} {text : Bytes} (h : lastFitting n values = some text) :
    text ∈ values ∧ text.length < n := by
  have hmem := List.mem_filter.mp (List.mem_of_getLast? h)
  exact ⟨hmem.1, by simpa using hmem.2⟩

theorem mem_valuesOf {pairs : List (Bytes × Bytes)} {key val : Bytes} :
    val ∈ valuesOf pairs key ↔ (key, val) ∈ pairs := by
  simp [valuesOf]

theorem mem_given {entries : List Entry} {key val : Bytes} :
    val ∈ given entries key ↔ ∃ e ∈ entries, e.key = key ∧ e.value = val := by
  simp [given, mem_valuesOf]

theorem given_append (entries entries' : List Entry) (key : Bytes) :
    given (entries ++ entries') key = given entries key ++ given entries' key := by
  simp [given, valuesOf]

-- A line is read with no more than its value.
theorem exists_read {entries : List Entry} (final : Bool) {e : Entry} (h : e ∈ entries) :
    ∃ val, (cString e.key, val) ∈ readPairs entries final ∧ val.length ≤ e.value.length := by
  induction entries with
  | nil => exact absurd h List.not_mem_nil
  | cons e' entries ih =>
      cases entries with
      | nil =>
          obtain rfl : e = e' := by simpa using h
          refine ⟨_, List.mem_singleton.mpr rfl, ?_⟩
          split_ifs
          · exact Nat.le_refl _
          · rw [List.length_dropLast]
            omega
      | cons e'' entries =>
          obtain rfl | hmem := List.mem_cons.mp h
          · exact ⟨e.value, List.mem_cons_self .., Nat.le_refl _⟩
          · obtain ⟨val, hval, hlen⟩ := ih hmem
            exact ⟨val, List.mem_cons_of_mem _ hval, hlen⟩

-- A key for which nothing passes the check is given no value that fits.
theorem exists_read_of_given {entries : List Entry} (final : Bool) {key text : Bytes}
    (hkey : cString key = key) (h : text ∈ given entries key) :
    ∃ val ∈ valuesOf (readPairs entries final) key, val.length ≤ text.length := by
  obtain ⟨e, he, rfl, rfl⟩ := mem_given.mp h
  obtain ⟨val, hval, hlen⟩ := exists_read final he
  rw [hkey] at hval
  exact ⟨val, mem_valuesOf.mpr hval, hlen⟩

theorem copied_ne_nil_of_lastFitting {entries : List Entry} {final : Bool} {key text : Bytes}
    (hkey : cString key = key) (h : lastFitting n (given entries key) = some text) :
    copied n (valuesOf (readPairs entries final) key) ≠ [] := by
  obtain ⟨hmem, hfits⟩ := lastFitting_mem h
  obtain ⟨val, hval, hlen⟩ := exists_read_of_given final hkey hmem
  have hcopied : padded val ∈ copied n (valuesOf (readPairs entries final) key) :=
    List.mem_map_of_mem (List.mem_filter.mpr ⟨hval, by simp; omega⟩)
  exact List.ne_nil_of_mem hcopied

theorem copied_plain {values : List Bytes} (hplain : ∀ val ∈ values, 0 ∉ val) :
    copied n values = values.filter (·.length ≤ n) := by
  rw [copied]
  conv => rhs; rw [← List.map_id (values.filter (·.length ≤ n))]
  refine List.map_congr_left fun val hval => padded_eq_self fun b hb hb0 => ?_
  exact hplain val (List.mem_filter.mp hval).1 (hb0 ▸ hb)

-- Without NULs the last fitting value is kept if nothing longer is copied too.
theorem spells_copied_iff {values : List Bytes} {text : Bytes} (hplain : ∀ val ∈ values, 0 ∉ val)
    (htext : lastFitting n values = some text) :
    Spells (copied n values) text ↔ ∀ val ∈ values, val.length ≤ n → val.length ≤ text.length := by
  have hfits := (lastFitting_mem htext).2
  have hcopies : ∀ val ∈ values.filter (·.length ≤ n), 0 ∉ val := fun val hval =>
    hplain val (List.mem_filter.mp hval).1
  rw [copied_plain hplain]
  constructor
  · intro h val hval hlen
    have hzero := h.2 text.length le_rfl
    rw [List.getD_eq_default _ _ le_rfl, layered_eq_zero_iff hcopies] at hzero
    exact hzero val (List.mem_filter.mpr ⟨hval, by simpa using hlen⟩)
  · intro h
    have hsame : values.filter (·.length ≤ n) = values.filter (·.length < n) := by
      refine List.filter_congr fun val hval => ?_
      have hle := h val hval
      simp only [decide_eq_decide]
      omega
    have hne : values.filter (·.length < n) ≠ [] := by
      intro hnil
      rw [lastFitting, hnil] at htext
      cases htext
    have hlast : (values.filter (·.length < n)).getLast hne = text := by
      rw [lastFitting, List.getLast?_eq_some_getLast hne] at htext
      exact Option.some.inj htext
    have hsplit := List.dropLast_concat_getLast hne
    rw [hlast] at hsplit
    rw [hsame] at hcopies ⊢
    rw [← hsplit] at hcopies ⊢
    rw [spells_last_iff hcopies]
    intro val hval
    have hmem : val ∈ values.filter (·.length < n) := by
      rw [← hsplit]
      exact List.mem_append_left _ hval
    have hval' := List.mem_filter.mp hmem
    exact h val hval'.1 (by have := hval'.2; simp at this; omega)

theorem readPairs_plain {entries : List Entry} (hplain : ∀ e ∈ entries, 0 ∉ e.key) :
    readPairs entries true = entries.map fun e => (e.key, e.value) := by
  induction entries with
  | nil => rfl
  | cons e entries ih =>
      have hkey : cString e.key = e.key :=
        cString_eq_self fun b hb hb0 => hplain e (by simp) (hb0 ▸ hb)
      have htail := ih fun e' he' => hplain e' (by simp [he'])
      cases entries with
      | nil => simp [readPairs, hkey]
      | cons e' entries => rw [readPairs, htail, hkey, List.map_cons (l := e' :: entries)]

end Fields

section Lengths

variable {n : Nat} {entries : List Entry} {final : Bool} {key : Bytes}

-- The values of a key when the last of them loses its last byte.
def cutLast : List Bytes → List Bytes
  | [] => []
  | [val] => [val.dropLast]
  | val :: val' :: values => val :: cutLast (val' :: values)

-- The file ends in a line of the key without a newline.
def CutAt (entries : List Entry) (final : Bool) (key : Bytes) : Prop :=
  final = false ∧ ∃ e ∈ entries.getLast?, e.key = key

-- What is read as a line of the key has the key itself and a value without NUL.
def PlainAt (entries : List Entry) (key : Bytes) : Prop :=
  ∀ e ∈ entries, cString e.key = key → e.key = key ∧ 0 ∉ e.value

instance : Decidable (CutAt entries final key) := inferInstanceAs (Decidable (_ ∧ _))

instance : Decidable (PlainAt entries key) := inferInstanceAs (Decidable (∀ _ ∈ _, _))

-- No value that is copied is longer than the last one that fits. Where the last line is
-- cut, that is the one before it, or another value of its length has ended as it does.
def FieldKept (n : Nat) (values : List Bytes) (cut : Prop) [Decidable cut] : Prop :=
  ∃ text ∈ lastFitting n values,
    if cut then
      (∀ val ∈ values.dropLast, val.length ≤ n → val.length ≤ text.length) ∧
        ∃ last ∈ values.getLast?,
          if last.length < n then
            ∃ twin ∈ (values.dropLast.filter (·.length = last.length)).getLast?,
              twin.getLast? = last.getLast?
          else last.length ≤ n + 1 → last.dropLast = text
    else ∀ val ∈ values, val.length ≤ n → val.length ≤ text.length

-- The lines of a key are plain and their lengths are right; with a NUL among them the
-- bytes of the copies decide.
def FieldRead (n : Nat) (entries : List Entry) (final : Bool) (key : Bytes) : Prop :=
  if PlainAt entries key then FieldKept n (given entries key) (CutAt entries final key)
  else ∃ text ∈ lastFitting n (given entries key),
    Spells (copied n (valuesOf (readPairs entries final) key)) text

theorem cutLast_cons {val : Bytes} {values : List Bytes} (h : values ≠ []) :
    cutLast (val :: values) = val :: cutLast values := by
  cases values with
  | nil => exact absurd rfl h
  | cons val' values => rfl

theorem cutLast_append (front : List Bytes) (last : Bytes) :
    cutLast (front ++ [last]) = front ++ [last.dropLast] := by
  induction front with
  | nil => rfl
  | cons val front ih => rw [List.cons_append, cutLast_cons (by simp), ih, List.cons_append]

theorem plain_cutLast {values : List Bytes} (h : ∀ val ∈ values, 0 ∉ val) :
    ∀ val ∈ cutLast values, 0 ∉ val := by
  rcases List.eq_nil_or_concat values with rfl | ⟨front, last, rfl⟩
  · exact h
  · rw [List.concat_eq_append] at *
    rw [cutLast_append]
    intro val hval
    rcases List.mem_append.mp hval with hval | hval
    · exact h val (List.mem_append_left _ hval)
    · obtain rfl := List.mem_singleton.mp hval
      exact fun hzero => h last (by simp) ((List.dropLast_sublist last).subset hzero)

theorem given_cons (e : Entry) (entries : List Entry) (key : Bytes) :
    given (e :: entries) key = if e.key = key then e.value :: given entries key else given entries key := by
  by_cases hkey : e.key = key
  · simp [given, valuesOf, hkey]
  · simp [given, valuesOf, hkey]

-- The cut line gives the last value.
theorem given_getLast_of_cut (hcut : CutAt entries final key) :
    ∃ e ∈ entries.getLast?, (given entries key).getLast? = some e.value := by
  obtain ⟨-, e, he, hkey⟩ := hcut
  obtain ⟨front, rfl⟩ := List.getLast?_eq_some_iff.mp he
  refine ⟨e, he, ?_⟩
  rw [given_append, given_cons, if_pos hkey]
  simp [given, valuesOf]

theorem plain_given (hkey : cString key = key) (hplain : PlainAt entries key) :
    ∀ val ∈ given entries key, 0 ∉ val := by
  intro val hval
  obtain ⟨e, he, hkey', rfl⟩ := mem_given.mp hval
  exact (hplain e he (by rw [hkey', hkey])).2

-- Plain lines are read as they are, the cut one without its last byte.
theorem readFor_plain (final : Bool) (hkey : cString key = key) (hplain : PlainAt entries key) :
    valuesOf (readPairs entries final) key =
      if CutAt entries final key then cutLast (given entries key) else given entries key := by
  induction entries with
  | nil => simp [readPairs, valuesOf, given, CutAt]
  | cons e entries ih =>
      have hsame : cString e.key = key ↔ e.key = key :=
        ⟨fun h => (hplain e (by simp) h).1, fun h => by rw [h, hkey]⟩
      cases entries with
      | nil =>
          rw [given_cons]
          by_cases hone : e.key = key
          · cases final <;> simp [readPairs, valuesOf, given, CutAt, hone, hkey, cutLast]
          · have hnot : cString e.key ≠ key := fun h => hone (hsame.mp h)
            simp [readPairs, valuesOf, given, CutAt, hone, hnot]
      | cons e' entries =>
          have htail := ih fun e'' he'' => hplain e'' (List.mem_cons_of_mem _ he'')
          have hcut : CutAt (e :: e' :: entries) final key ↔ CutAt (e' :: entries) final key := by
            rw [CutAt, CutAt, List.getLast?_cons_cons]
          have hread : valuesOf (readPairs (e :: e' :: entries) final) key =
              if e.key = key then e.value :: valuesOf (readPairs (e' :: entries) final) key
              else valuesOf (readPairs (e' :: entries) final) key := by
            rw [readPairs, valuesOf, List.filter_cons]
            simp only [decide_eq_true_eq, hsame]
            split_ifs <;> rfl
          rw [hread, htail, given_cons e (e' :: entries) key]
          simp only [hcut]
          split_ifs with hone hlast
          · obtain ⟨e'', -, hsome⟩ := given_getLast_of_cut hlast
            rw [cutLast_cons fun hnil => by simp [hnil] at hsome]
          · rfl
          · rfl
          · rfl

theorem lastFitting_append (front : List Bytes) (last : Bytes) :
    lastFitting n (front ++ [last]) = if last.length < n then some last else lastFitting n front := by
  by_cases hlast : last.length < n
  · simp [lastFitting, hlast]
  · simp [lastFitting, hlast]

-- The copies of plain values, the last of which is cut.
theorem spells_cutLast_iff {values : List Bytes} {text : Bytes} (hplain : ∀ val ∈ values, 0 ∉ val)
    (hlast : ∀ last ∈ values.getLast?, last ≠ []) (htext : lastFitting n values = some text) :
    Spells (copied n (cutLast values)) text ↔
      (∀ val ∈ values.dropLast, val.length ≤ n → val.length ≤ text.length) ∧
        ∃ last ∈ values.getLast?,
          if last.length < n then
            ∃ twin ∈ (values.dropLast.filter (·.length = last.length)).getLast?,
              twin.getLast? = last.getLast?
          else last.length ≤ n + 1 → last.dropLast = text := by
  have hfits := (lastFitting_mem htext).2
  have hvalues : values ≠ [] := List.ne_nil_of_mem (lastFitting_mem htext).1
  obtain ⟨front, last, rfl⟩ := (List.eq_nil_or_concat values).resolve_left hvalues
  rw [List.concat_eq_append] at *
  obtain ⟨bs, b, rfl⟩ := (List.eq_nil_or_concat last).resolve_left (hlast _ (by simp))
  rw [List.concat_eq_append] at *
  have hfront : ∀ val ∈ front, 0 ∉ val := fun val hval => hplain val (List.mem_append_left _ hval)
  have hcopies : ∀ w ∈ front.filter (·.length ≤ n) ++ [bs ++ [b]], 0 ∉ w := by
    intro w hw
    rcases List.mem_append.mp hw with hw | hw
    · exact hfront w (List.mem_filter.mp hw).1
    · exact hplain w (List.mem_append_right _ hw)
  have hbs : ∀ w ∈ front ++ [bs], 0 ∉ w := by
    intro w hw
    rcases List.mem_append.mp hw with hw | hw
    · exact hfront w hw
    · obtain rfl := List.mem_singleton.mp hw
      exact fun h => hplain (w ++ [b]) (by simp) (List.mem_append_left _ h)
  have hall : ∀ m, (∀ w ∈ front.filter (·.length ≤ n), w.length ≤ m) ↔
      ∀ val ∈ front, val.length ≤ n → val.length ≤ m := by
    intro m
    simp only [List.mem_filter, decide_eq_true_eq, and_imp]
  rw [lastFitting_append] at htext
  rw [cutLast_append, List.dropLast_concat, copied_plain hbs, List.filter_append]
  simp only [List.dropLast_concat, List.getLast?_append, List.getLast?_singleton, Option.some_or,
    Option.mem_some_iff, exists_eq_left', List.length_append, List.length_singleton] at htext ⊢
  split_ifs at htext ⊢ with hshort
  · obtain rfl := Option.some.inj htext
    have hone : [bs].filter (·.length ≤ n) = [bs] := by
      rw [List.filter_cons_of_pos (by simp; omega), List.filter_nil]
    have htwins : (front.filter (·.length ≤ n)).filter (·.length = bs.length + 1) =
        front.filter (·.length = bs.length + 1) := by
      rw [List.filter_filter]
      refine List.filter_congr fun w _ => ?_
      rw [← Bool.decide_and, decide_eq_decide]
      omega
    rw [hone, spells_cut_iff hcopies, hall, htwins]
    simp
  · by_cases hcopied : bs.length ≤ n
    · have hone : [bs].filter (·.length ≤ n) = [bs] := by
        rw [List.filter_cons_of_pos (by simpa using hcopied), List.filter_nil]
      rw [hone, spells_covered_iff ?_ (by omega), hall, and_comm, forall_prop_of_true (by omega)]
      intro w hw
      rcases List.mem_append.mp hw with hw | hw
      · exact hfront w (List.mem_filter.mp hw).1
      · exact hbs w (List.mem_append_right _ hw)
    · have hnone : [bs].filter (·.length ≤ n) = [] := by
        rw [List.filter_cons_of_neg (by simpa using hcopied), List.filter_nil]
      rw [hnone, List.append_nil, ← copied_plain hfront, spells_copied_iff hfront htext]
      exact (and_iff_left fun h => absurd h (by omega)).symm

-- What is read of a key leaves the last value that fits.
theorem fieldRead_iff (hkey : cString key = key) (hend : EndsRead entries final) :
    FieldRead n entries final key ↔ ∃ text ∈ lastFitting n (given entries key),
      Spells (copied n (valuesOf (readPairs entries final) key)) text := by
  unfold FieldRead
  split_ifs with hplain
  · have hvalues := plain_given hkey hplain
    rw [readFor_plain final hkey hplain]
    refine exists_congr fun text => and_congr_right fun htext => ?_
    split_ifs with hcut
    · refine (spells_cutLast_iff hvalues (fun last hlast => ?_) htext).symm
      obtain ⟨e, he, hsome⟩ := given_getLast_of_cut hcut
      obtain rfl : e.value = last := Option.some.inj (hsome.symm.trans hlast)
      exact hend.resolve_left (by simp [hcut.1]) e he
    · exact (spells_copied_iff hvalues htext).symm
  · exact Iff.rfl

end Lengths

end Csiebox
