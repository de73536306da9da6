import Csiebox.Config.Server

namespace Csiebox

open CBytes Program

section RunPath

variable {n : Nat}

theorem strcatField_ok {dst field : Mem n} {text : Bytes} (htext : ∀ b ∈ text, b ≠ 0)
    (h : strcatField dst text = .ok field) :
    (cString dst.val).length + text.length < n ∧ 0 ∈ field.val ∧
      cString field.val = cString dst.val ++ text := by
  unfold strcatField at h
  split_ifs at h with hfits
  obtain rfl := Except.ok.inj h
  have hsplit : overlay dst.val (cString dst.val ++ (text ++ [0])) =
      (cString dst.val ++ text) ++ 0 :: dst.val.drop (cString dst.val ++ (text ++ [0])).length := by
    simp [overlay]
  have hplain : ∀ b ∈ cString dst.val ++ text, b ≠ 0 := by
    intro b hb
    cases List.mem_append.mp hb with
    | inl hb => exact cString_nonzero b hb
    | inr hb => exact htext b hb
  refine ⟨hfits, ?_, ?_⟩
  · show (0 : UInt8) ∈ overlay dst.val _
    rw [hsplit]
    simp
  · show cString (overlay dst.val _) = _
    rw [hsplit]
    exact cString_append_zero hplain _

-- The string in the field is the last value and the '/', if the value and what the
-- earlier ones left behind it spell the value.
theorem appendRunPath_holds_iff {before field : Mem pathMax} {val text : Bytes}
    (h : ServerArg.appendRunPath before val = .ok field) (hfits : text.length < pathMax) :
    HoldsText field (text ++ [slash]) ↔ Spells [before.val, padded val] text := by
  unfold ServerArg.appendRunPath strncpyField at h
  split_ifs at h with hval
  · obtain ⟨hroom, hzero, hstring⟩ := strcatField_ok (by simp [slash]) h
    have hbuf : (copyField before val hval).val = overlay before.val (padded val) := rfl
    have hlen := (copyField before val hval).property
    have hterminated : 0 ∈ (copyField before val hval).val := by
      by_contra hnone
      rw [cString_eq_self fun b hb hb0 => hnone (hb0 ▸ hb), hlen] at hroom
      omega
    have hspells := cString_eq_iff (show text.length < (copyField before val hval).val.length by omega)
    have hlayers : ∀ i, (copyField before val hval).val.getD i 0 = layered [before.val, padded val] i := by
      intro i
      rw [hbuf, getD_overlay]
      rfl
    simp only [hlayers] at hspells
    rw [HoldsText, hstring, Spells, ← hspells]
    constructor
    · intro hheld
      exact ⟨hterminated, List.append_cancel_right hheld.2⟩
    · intro hheld
      exact ⟨hzero, by rw [hheld.2]⟩
  · cases h

-- Behind plain values a string is followed by zeros only.
structure Terminated (field : Mem n) (text : Bytes) : Prop where
  bytes : field.val = text ++ zeros (n - text.length)
  fits : text.length < n
  plain : 0 ∉ text

theorem terminated_cString {field : Mem n} {text : Bytes} (h : Terminated field text) :
    cString field.val = text := by
  rw [h.bytes, cString_append_zeros]
  exact cString_eq_self fun b hb hb0 => h.plain (hb0 ▸ hb)

theorem Terminated.holds_iff {field : Mem n} {text text' : Bytes} (h : Terminated field text) :
    HoldsText field text' ↔ text = text' := by
  have hzero : (0 : UInt8) ∈ field.val := by
    rw [h.bytes]
    refine List.mem_append_right _ (List.mem_replicate.mpr ⟨?_, rfl⟩)
    have := h.fits
    omega
  rw [HoldsText, terminated_cString h]
  exact and_iff_right hzero

theorem strcatField_spec (dst : Mem n) (text : Bytes) :
    if (cString dst.val).length + text.length < n then
      ∃ field : Mem n, strcatField dst text = .ok field ∧
        field.val = overlay dst.val (cString dst.val ++ (text ++ [0]))
    else ∃ fault, strcatField dst text = .error fault := by
  unfold strcatField
  split_ifs
  · exact ⟨_, rfl, rfl⟩
  · exact ⟨_, rfl⟩

-- A plain value over a string, and its '/'.
theorem appendRunPath_plain {before : Mem pathMax} {text val : Bytes} (h : Terminated before text)
    (hval : 0 ∉ val) :
    if max text.length val.length + 1 < pathMax then
      ∃ field, ServerArg.appendRunPath before val = .ok field ∧
        Terminated field (val ++ text.drop val.length ++ [slash])
    else ∃ fault, ServerArg.appendRunPath before val = .error fault := by
  have hpad : padded val = val := padded_eq_self fun b hb hb0 => hval (hb0 ▸ hb)
  have hfits := h.fits
  have hplain : 0 ∉ val ++ text.drop val.length := by
    intro hzero
    rcases List.mem_append.mp hzero with hzero | hzero
    · exact hval hzero
    · exact h.plain (List.mem_of_mem_drop hzero)
  have hnonzero : ∀ b ∈ val ++ text.drop val.length, b ≠ 0 := fun b hb hb0 => hplain (hb0 ▸ hb)
  have hlength : (val ++ text.drop val.length).length = max text.length val.length := by
    rw [List.length_append, List.length_drop]
    omega
  by_cases hcopy : val.length ≤ pathMax
  · have hbuf : (copyField before val hcopy).val =
        val ++ text.drop val.length ++ zeros (pathMax - max text.length val.length) := by
      show overlay before.val (padded val) = _
      rw [hpad, overlay, h.bytes, List.drop_append, ← List.append_assoc, zeros, List.drop_replicate, zeros]
      congr 2
      omega
    have hstring : cString (copyField before val hcopy).val = val ++ text.drop val.length := by
      rw [hbuf, cString_append_zeros, cString_eq_self hnonzero]
    have hstep : ServerArg.appendRunPath before val = strcatField (copyField before val hcopy) [slash] := by
      rw [ServerArg.appendRunPath, strncpyField, dif_pos hcopy]
      rfl
    have hspec := strcatField_spec (copyField before val hcopy) [slash]
    rw [hstring, hlength, ← hstep, List.length_singleton] at hspec
    generalize val ++ text.drop val.length = joined at *
    generalize max text.length val.length = len at *
    split_ifs at hspec ⊢ with hroom
    · obtain ⟨field, hfield, hbytes⟩ := hspec
      have hlen : (joined ++ ([slash] ++ [0])).length = len + 2 := by simp [hlength]
      have hlen' : (joined ++ [slash]).length = len + 1 := by simp [hlength]
      refine ⟨field, hfield, ?_, ?_, ?_⟩
      · have hrest : zeros (pathMax - (len + 1)) = [0] ++ zeros (pathMax - (len + 2)) := by
          rw [show pathMax - (len + 1) = pathMax - (len + 2) + 1 by omega]
          rfl
        have hdrop : (zeros (pathMax - len)).drop (len + 2 - len) = zeros (pathMax - (len + 2)) := by
          rw [zeros, List.drop_replicate, zeros]
          congr 1
          omega
        rw [hbytes, hbuf, overlay, List.drop_append, hlen, hlen', hrest,
          List.drop_eq_nil_of_le (by omega), List.nil_append, hlength, hdrop]
        simp only [List.append_assoc]
      · rw [hlen']
        exact hroom
      · intro hzero
        rcases List.mem_append.mp hzero with hzero | hzero
        · exact hplain hzero
        · exact absurd (List.mem_singleton.mp hzero) (by decide)
    · exact hspec
  · rw [if_neg (by omega)]
    exact ⟨.overrun, by rw [ServerArg.appendRunPath, strncpyField, dif_neg hcopy]; rfl⟩

end RunPath

namespace ServerArg

-- Every `run_path`, with its '/' and what earlier ones left, stays in the field.
def RunPathStays (values : List Bytes) : Prop :=
  ∃ field, values.foldlM appendRunPath zero.runPath = .ok field

-- The last `run_path` ends where its value does, not in what an earlier one left.
def RunPathSpells (values : List Bytes) (text : Bytes) : Prop :=
  ∃ before, values.dropLast.foldlM appendRunPath zero.runPath = .ok before ∧
    ∃ val ∈ values.getLast?, Spells [before.val, padded val] text

-- How long the string is that plain values leave, each with its '/'.
def runLength (values : List Bytes) : Nat := values.foldl (fun len val => max len val.length + 1) 0

theorem runLength_append (values : List Bytes) (val : Bytes) :
    runLength (values ++ [val]) = max (runLength values) val.length + 1 := by
  simp [runLength]

theorem length_lt_runLength {values : List Bytes} {val : Bytes} (h : val ∈ values) :
    val.length < runLength values := by
  induction values using List.reverseRecOn with
  | nil => exact absurd h List.not_mem_nil
  | append_singleton values last ih =>
      rw [runLength_append]
      rcases List.mem_append.mp h with h | h
      · have := ih h
        omega
      · obtain rfl := List.mem_singleton.mp h
        omega

-- Plain values, from the first to the last.
theorem foldlM_appendRunPath {values : List Bytes} (hplain : ∀ val ∈ values, 0 ∉ val) :
    if runLength values < pathMax then
      ∃ field text, values.foldlM appendRunPath zero.runPath = .ok field ∧ Terminated field text ∧
        text.length = runLength values ∧ ∀ b ∈ text.getLast?, b = slash
    else ∃ fault, values.foldlM appendRunPath zero.runPath = .error fault := by
  induction values using List.reverseRecOn with
  | nil => exact ⟨zero.runPath, [], rfl, ⟨by simp [zero], by decide, by simp⟩, rfl, by simp⟩
  | append_singleton values val ih =>
      have hbefore := ih fun val' hval' => hplain val' (List.mem_append_left _ hval')
      rw [runLength_append, List.foldlM_append]
      simp only [List.foldlM_cons, List.foldlM_nil, bind_pure]
      split_ifs at hbefore with hroom
      · obtain ⟨before, text, hvalues, hends, hlength, -⟩ := hbefore
        have hstep := appendRunPath_plain hends (hplain val (by simp))
        rw [hvalues, ← hlength]
        split_ifs at hstep ⊢
        · obtain ⟨field, hfield, hends'⟩ := hstep
          refine ⟨field, _, hfield, hends', ?_, by simp⟩
          rw [List.length_append, List.length_append, List.length_drop, List.length_singleton]
          omega
        · exact hstep
      · obtain ⟨fault, hfault⟩ := hbefore
        rw [if_neg (by omega), hfault]
        exact ⟨fault, rfl⟩

theorem runPathStays_iff {values : List Bytes} (hplain : ∀ val ∈ values, 0 ∉ val) :
    RunPathStays values ↔ runLength values < pathMax := by
  have hvalues := foldlM_appendRunPath hplain
  split_ifs at hvalues with hroom
  · obtain ⟨field, -, hfield, -⟩ := hvalues
    exact iff_of_true ⟨field, hfield⟩ hroom
  · obtain ⟨fault, hfault⟩ := hvalues
    refine iff_of_false ?_ hroom
    rintro ⟨field, hfield⟩
    rw [hfault] at hfield
    cases hfield

-- What the last of them leaves.
theorem exists_runPath_text {values : List Bytes} {val : Bytes}
    (hplain : ∀ val' ∈ values ++ [val], 0 ∉ val')
    (hroom : runLength (values ++ [val]) < pathMax) {field : Mem pathMax}
    (hfield : (values ++ [val]).foldlM appendRunPath zero.runPath = .ok field) :
    ∃ text : Bytes, text.length = runLength values ∧ (∀ b ∈ text.getLast?, b = slash) ∧
      ∀ wanted, HoldsText field (wanted ++ [slash]) ↔ val ++ text.drop val.length = wanted := by
  rw [runLength_append] at hroom
  have hbefore := foldlM_appendRunPath fun val' hval' => hplain val' (List.mem_append_left _ hval')
  rw [if_pos (by omega)] at hbefore
  obtain ⟨before, text, hvalues, hends, hlength, hlast⟩ := hbefore
  rw [List.foldlM_append, hvalues] at hfield
  simp only [List.foldlM_cons, List.foldlM_nil, bind_pure] at hfield
  have hstep := appendRunPath_plain hends (hplain val (by simp))
  rw [hlength, if_pos hroom] at hstep
  obtain ⟨field', hfield', hends'⟩ := hstep
  obtain rfl : field' = field := Except.ok.inj (hfield'.symm.trans hfield)
  refine ⟨text, hlength, hlast, fun wanted => ?_⟩
  rw [hends'.holds_iff]
  exact List.append_left_inj _

-- From the byte `n` on the values leave slashes only: at every place the last value that
-- reaches it has one.
def SlashesBehind (values : List Bytes) (n : Nat) : Prop :=
  ∀ before val after, values = before ++ val :: after → ∀ i, n ≤ i → i < val.length →
    (∀ later ∈ after, later.length ≤ i) → val.getD i 0 = slash

theorem slashesBehind_append {values : List Bytes} {val : Bytes} {n : Nat} :
    SlashesBehind (values ++ [val]) n ↔
      (∀ i, n ≤ i → i < val.length → val.getD i 0 = slash) ∧ SlashesBehind values (max n val.length) := by
  constructor
  · intro h
    refine ⟨fun i hn hi => h values val [] rfl i hn hi (List.forall_mem_nil _), ?_⟩
    intro before val' after hsplit i hi hval' hlater
    refine h before val' (after ++ [val]) (by simp [hsplit]) i (by omega) hval' ?_
    intro later hmem
    rcases List.mem_append.mp hmem with hmem | hmem
    · exact hlater later hmem
    · obtain rfl := List.mem_singleton.mp hmem
      omega
  · rintro ⟨hlast, hrest⟩ before val' after hsplit i hn hi hlater
    rcases List.eq_nil_or_concat after with rfl | ⟨after', last, rfl⟩
    · obtain ⟨-, rfl⟩ := List.append_inj' hsplit rfl |>.imp_right fun h => List.head_eq_of_cons_eq h
      exact hlast i hn hi
    · rw [List.concat_eq_append, ← List.cons_append, ← List.append_assoc] at hsplit
      obtain ⟨hvalues, hval⟩ := List.append_inj' hsplit rfl
      obtain rfl := List.head_eq_of_cons_eq hval
      have hle := hlater val (by simp)
      exact hrest before val' after' hvalues i (by omega) hi fun later hmem =>
        hlater later (by simp [hmem])

theorem drop_slashes_iff {bs : Bytes} {n : Nat} :
    (∀ b ∈ bs.drop n, b = slash) ↔ ∀ i, n ≤ i → i < bs.length → bs.getD i 0 = slash := by
  constructor
  · intro h i hn hi
    rw [List.getD_eq_getElem _ _ hi]
    exact h _ (List.mem_drop_iff_getElem.mpr ⟨i - n, by omega, by simp only [Nat.add_sub_cancel' hn]⟩)
  · intro h b hb
    obtain ⟨i, hi, rfl⟩ := List.mem_drop_iff_getElem.mp hb
    rw [← List.getD_eq_getElem _ 0]
    exact h _ (by omega) (by omega)

-- What plain values leave behind the first `n` bytes of the field.
theorem slashes_foldlM {values : List Bytes} (hplain : ∀ val ∈ values, 0 ∉ val) {field : Mem pathMax}
    (hfield : values.foldlM appendRunPath zero.runPath = .ok field) (n : Nat) :
    (∀ b ∈ (cString field.val).drop n, b = slash) ↔ SlashesBehind values n := by
  induction values using List.reverseRecOn generalizing field n with
  | nil =>
      obtain rfl := Except.ok.inj hfield
      refine iff_of_true ?_ ?_
      · have hnil : cString zero.runPath.val = [] := rfl
        simp [hnil]
      · intro before val after hsplit
        simp at hsplit
  | append_singleton values val ih =>
      have hbefore := foldlM_appendRunPath fun val' hval' => hplain val' (List.mem_append_left _ hval')
      rw [List.foldlM_append] at hfield
      split_ifs at hbefore with hroom
      · obtain ⟨before, text, hvalues, hends, -, -⟩ := hbefore
        have hrest := ih (fun val' hval' => hplain val' (List.mem_append_left _ hval')) hvalues
          (max n val.length)
        rw [terminated_cString hends] at hrest
        rw [hvalues] at hfield
        simp only [List.foldlM_cons, List.foldlM_nil, bind_pure] at hfield
        change appendRunPath before val = .ok field at hfield
        have hstep := appendRunPath_plain hends (hplain val (by simp))
        split_ifs at hstep with hfits
        · obtain ⟨field', hfield', hends'⟩ := hstep
          obtain rfl := Except.ok.inj (hfield'.symm.trans hfield)
          rw [terminated_cString hends', slashesBehind_append, ← hrest, ← drop_slashes_iff]
          have hdrop : ((text.drop val.length).drop (n - val.length)) = text.drop (max n val.length) := by
            rw [List.drop_drop]
            congr 1
            omega
          rw [List.append_assoc, List.drop_append, List.forall_mem_append, List.drop_append, hdrop,
            List.forall_mem_append]
          have hlast : ∀ b ∈ [slash].drop (n - val.length - (text.drop val.length).length), b = slash :=
            fun b hb => List.mem_singleton.mp (List.mem_of_mem_drop hb)
          rw [and_iff_left hlast]
        · obtain ⟨fault, hfault⟩ := hstep
          cases hfault.symm.trans hfield
      · obtain ⟨fault, hfault⟩ := hbefore
        rw [hfault] at hfield
        cases hfield

end ServerArg

end Csiebox
