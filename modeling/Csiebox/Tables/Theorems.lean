import Csiebox.Tables

namespace Csiebox.Tables

open CBytes Pull

section EventPath

-- `event_path` is indexed with the descriptors that inotify hands out or reports.
def Balanced (acts : List Act) : Prop :=
  ∀ wd, .use (.eventPath wd) ∈ acts ↔ .added wd ∈ acts ∨ .event wd ∈ acts

theorem Balanced.append {acts acts' : List Act} (h : Balanced acts) (h' : Balanced acts') :
    Balanced (acts ++ acts') := by
  intro wd
  simp only [List.mem_append, h wd, h' wd]
  tauto

theorem balanced_nil : Balanced [] := by
  intro wd
  simp

theorem balanced_flatMap {α : Type} {xs : List α} {f : α → List Act} (h : ∀ x, Balanced (f x)) :
    Balanced (xs.flatMap f) := by
  induction xs with
  | nil => exact balanced_nil
  | cons x xs ih =>
      rw [List.flatMap_cons]
      exact (h x).append ih

theorem balanced_addWatch (wd : Int) : Balanced (addWatch wd) := by
  intro wd'
  simp [addWatch]

theorem balanced_handleEvent (e : Event) : Balanced (handleEvent e) := by
  have hevent : Balanced [.event e.wd, .use (.eventPath e.wd)] := by
    intro wd
    simp
  refine hevent.append ?_
  split_ifs
  · exact balanced_addWatch e.added
  · exact balanced_nil

theorem balanced_clientEntry (st : Bytes) (cnt : Nat) : Balanced (clientEntry st cnt).1 := by
  intro wd
  unfold clientEntry
  split_ifs
  · simp
  · simp

theorem balanced_clientTraverse (dir : Dir (Option Int)) (cnt : Nat) :
    Balanced (clientTraverse dir cnt).1 := by
  induction dir generalizing cnt with
  | done => exact balanced_nil
  | hidden rest ih => exact ih cnt
  | lost => exact balanced_nil
  | entry st call below rest ihbelow ihrest =>
      refine (balanced_clientEntry st.val cnt).append (Balanced.append ?_ (ihrest _))
      cases call with
      | none => exact balanced_nil
      | some wd => exact (balanced_addWatch wd).append (ihbelow _)

theorem balanced_run (run : ClientRun) : Balanced run.acts := by
  refine Balanced.append ?_ ((balanced_addWatch run.wd).append (balanced_flatMap balanced_handleEvent))
  cases run.start with
  | pull wds => exact balanced_flatMap balanced_addWatch
  | traverse dir => exact balanced_clientTraverse dir 0

end EventPath

section Inotify

theorem le_givenAfter (given : Nat) (acts : List Act) : given ≤ givenAfter given acts := by
  induction acts generalizing given with
  | nil => exact Nat.le_refl _
  | cons act acts ih =>
      cases act with
      | added wd =>
          have hnext := ih (if wd = given + 1 then given + 1 else given)
          rw [givenAfter]
          split_ifs at hnext ⊢
          · omega
          · exact hnext
      | event wd => exact ih given
      | use slot => exact ih given

-- Only numbers that were handed out come back.
theorem descriptor_le {given : Nat} {acts : List Act} (h : Possible given acts) {wd : Int}
    (hmem : .added wd ∈ acts ∨ .event wd ∈ acts) :
    wd = -1 ∨ 1 ≤ wd ∧ wd ≤ givenAfter given acts := by
  induction acts generalizing given with
  | nil => simp at hmem
  | cons act acts ih =>
      cases act with
      | added wd' =>
          have hmem' : wd = wd' ∨ .added wd ∈ acts ∨ .event wd ∈ acts := by simpa [or_assoc] using hmem
          obtain rfl | hmem' := hmem'
          · have hle := le_givenAfter (if wd = given + 1 then given + 1 else given) acts
            obtain hfail | hwd := h.1
            · exact .inl hfail
            · rw [givenAfter]
              split_ifs at hle ⊢ with hnew
              · omega
              · omega
          · exact ih h.2 hmem'
      | event wd' =>
          have hmem' : wd = wd' ∨ .added wd ∈ acts ∨ .event wd ∈ acts := by
            simp only [List.mem_cons, reduceCtorEq, false_or, Act.event.injEq] at hmem
            tauto
          obtain rfl | hmem' := hmem'
          · have hle := le_givenAfter given acts
            obtain hfail | hwd := h.1
            · exact .inl hfail
            · rw [givenAfter]
              omega
          · exact ih h.2 hmem'
      | use slot =>
          have hmem' : .added wd ∈ acts ∨ .event wd ∈ acts := by simpa using hmem
          exact ih h hmem'

-- The last number that was handed out is one of the run's answers.
theorem added_givenAfter {given : Nat} {acts : List Act} (h : given < givenAfter given acts) :
    .added (givenAfter given acts) ∈ acts := by
  induction acts generalizing given with
  | nil => exact absurd h (Nat.lt_irrefl _)
  | cons act acts ih =>
      cases act with
      | added wd =>
          rw [givenAfter] at h ⊢
          by_cases hlater : (if wd = given + 1 then given + 1 else given) <
              givenAfter (if wd = given + 1 then given + 1 else given) acts
          · exact List.mem_cons_of_mem _ (ih hlater)
          · have hle := le_givenAfter (if wd = given + 1 then given + 1 else given) acts
            split_ifs at h hlater hle ⊢ with hnew
            · have hlast : givenAfter (given + 1) acts = given + 1 := by omega
              rw [hlast, hnew]
              exact List.mem_cons_self ..
            · omega
      | event wd => exact List.mem_cons_of_mem _ (ih h)
      | use slot => exact List.mem_cons_of_mem _ (ih h)

end Inotify

section ClientLinks

theorem clientEntry_count (st : Bytes) (cnt : Nat) :
    (clientEntry st cnt).2 = cnt + if linked st then 1 else 0 := by
  unfold clientEntry
  split_ifs <;> rfl

theorem clientTraverse_count (dir : Dir (Option Int)) (cnt : Nat) :
    (clientTraverse dir cnt).2 = cnt + dir.links fun _ call => call.isSome := by
  induction dir generalizing cnt with
  | done => rfl
  | hidden rest ih => exact ih cnt
  | lost => rfl
  | entry st call below rest ihbelow ihrest =>
      cases call with
      | none =>
          simp only [clientTraverse, Dir.links, ihrest, clientEntry_count, Option.isSome_none,
            Bool.false_eq_true, if_false]
          omega
      | some wd =>
          simp only [clientTraverse, Dir.links, ihrest, ihbelow, clientEntry_count, Option.isSome_some,
            if_true]
          omega

theorem clientLink_not_addWatch (i : Nat) (wd : Int) : .use (.clientLink i) ∉ addWatch wd := by
  simp [addWatch]

theorem clientLink_entry (st : Bytes) (cnt i : Nat) :
    .use (.clientLink i) ∈ (clientEntry st cnt).1 ↔ linked st ∧ i ≤ cnt := by
  unfold clientEntry
  split_ifs with hlinked
  · simp only [hlinked, List.mem_map, List.mem_range, Act.use.injEq, Slot.clientLink.injEq, exists_eq_right,
      Nat.lt_succ_iff, true_and]
  · simp [hlinked]

-- Every link that is met leads up to the next free element.
theorem clientLink_traverse (dir : Dir (Option Int)) (cnt i : Nat) :
    .use (.clientLink i) ∈ (clientTraverse dir cnt).1 ↔
      0 < (dir.links fun _ call => call.isSome) ∧ i < cnt + dir.links fun _ call => call.isSome := by
  induction dir generalizing cnt with
  | done => simp [clientTraverse, Dir.links]
  | hidden rest ih => exact ih cnt
  | lost => simp [clientTraverse, Dir.links]
  | entry st call below rest ihbelow ihrest =>
      cases call with
      | none =>
          simp only [clientTraverse, Dir.links, List.mem_append, clientLink_entry, ihrest,
            clientEntry_count, List.not_mem_nil, Option.isSome_none, Bool.false_eq_true, if_false, false_or]
          split_ifs with hlinked
          · simp only [hlinked, true_and]
            omega
          · simp only [hlinked, Bool.false_eq_true, false_and, false_or]
            omega
      | some wd =>
          simp only [clientTraverse, Dir.links, List.mem_append, clientLink_entry, ihrest, ihbelow,
            clientEntry_count, clientTraverse_count, clientLink_not_addWatch, Option.isSome_some, if_true,
            false_or]
          split_ifs with hlinked
          · simp only [hlinked, true_and]
            omega
          · simp only [hlinked, Bool.false_eq_true, false_and, false_or]
            omega

end ClientLinks

section ClientRuns

theorem clientLink_run (run : ClientRun) (i : Nat) :
    .use (.clientLink i) ∈ run.acts ↔ i < run.start.links := by
  have hevents : .use (.clientLink i) ∉ run.events.flatMap handleEvent := by
    simp only [List.mem_flatMap, not_exists, not_and]
    intro e _
    unfold handleEvent
    split_ifs
    · simp [clientLink_not_addWatch]
    · simp
  have hstart : .use (.clientLink i) ∈ run.start.acts ↔ i < run.start.links := by
    cases run.start with
    | pull wds => simp [Start.acts, Start.links, clientLink_not_addWatch]
    | traverse dir =>
        rw [Start.acts, Start.links, clientLink_traverse]
        omega
  simp only [ClientRun.acts, List.mem_append, hstart, hevents, clientLink_not_addWatch, or_false]

-- The client never touches the server's tables.
def ClientSlots (acts : List Act) : Prop :=
  ∀ slot, .use slot ∈ acts → (∃ wd, slot = .eventPath wd) ∨ ∃ i, slot = .clientLink i

theorem ClientSlots.append {acts acts' : List Act} (h : ClientSlots acts) (h' : ClientSlots acts') :
    ClientSlots (acts ++ acts') := by
  intro slot hmem
  cases List.mem_append.mp hmem with
  | inl hmem => exact h slot hmem
  | inr hmem => exact h' slot hmem

theorem clientSlots_flatMap {α : Type} {xs : List α} {f : α → List Act} (h : ∀ x, ClientSlots (f x)) :
    ClientSlots (xs.flatMap f) := by
  intro slot hmem
  obtain ⟨x, -, hx⟩ := List.mem_flatMap.mp hmem
  exact h x slot hx

theorem clientSlots_addWatch (wd : Int) : ClientSlots (addWatch wd) := by
  intro slot hmem
  simp only [addWatch, List.mem_cons, reduceCtorEq, Act.use.injEq, List.not_mem_nil, or_false,
    false_or] at hmem
  exact .inl ⟨wd, hmem⟩

theorem clientSlots_nil : ClientSlots [] := fun _ hmem => absurd hmem List.not_mem_nil

theorem clientSlots_entry (st : Bytes) (cnt : Nat) : ClientSlots (clientEntry st cnt).1 := by
  unfold clientEntry
  split_ifs
  · intro slot hmem
    obtain ⟨i, -, hi⟩ := List.mem_map.mp hmem
    exact .inr ⟨i, (Act.use.inj hi).symm⟩
  · exact clientSlots_nil

theorem clientSlots_traverse (dir : Dir (Option Int)) (cnt : Nat) :
    ClientSlots (clientTraverse dir cnt).1 := by
  induction dir generalizing cnt with
  | done => exact clientSlots_nil
  | hidden rest ih => exact ih cnt
  | lost => exact clientSlots_nil
  | entry st call below rest ihbelow ihrest =>
      refine (clientSlots_entry st.val cnt).append (ClientSlots.append ?_ (ihrest _))
      cases call with
      | none => exact clientSlots_nil
      | some wd => exact (clientSlots_addWatch wd).append (ihbelow _)

theorem clientSlots_run (run : ClientRun) : ClientSlots run.acts := by
  refine ClientSlots.append ?_ ((clientSlots_addWatch run.wd).append (clientSlots_flatMap fun e => ?_))
  · cases run.start with
    | pull wds => exact clientSlots_flatMap clientSlots_addWatch
    | traverse dir => exact clientSlots_traverse dir 0
  · unfold handleEvent
    refine ClientSlots.append (fun slot hmem => ?_) ?_
    · simp only [List.mem_cons, reduceCtorEq, Act.use.injEq, List.not_mem_nil, or_false, false_or] at hmem
      exact .inl ⟨e.wd, hmem⟩
    · split_ifs
      · exact clientSlots_addWatch e.added
      · exact clientSlots_nil

theorem client_inside_iff (run : ClientRun) (hkernel : Possible 0 run.acts) :
    (∀ slot, .use slot ∈ run.acts → slot.Inside) ↔ run.Small := by
  have hbalanced := balanced_run run
  have hpos : ¬(Slot.eventPath (-1)).Inside := by
    simp [Slot.Inside]
  constructor
  · intro h
    refine ⟨fun hadded => ?_, fun hevent => ?_, ?_, ?_⟩
    · exact hpos (h _ ((hbalanced (-1)).mpr (.inl hadded)))
    · exact hpos (h _ ((hbalanced (-1)).mpr (.inr hevent)))
    · by_cases hgiven : 0 < givenAfter 0 run.acts
      · have hlast := h _ ((hbalanced _).mpr (.inl (added_givenAfter hgiven)))
        have hbound := hlast.2
        omega
      · have hzero : givenAfter 0 run.acts = 0 := by omega
        rw [hzero]
        decide
    · by_contra hmany
      have hbound : maxClientLinks < maxClientLinks :=
        h _ ((clientLink_run run maxClientLinks).mpr (by omega))
      exact absurd hbound (Nat.lt_irrefl _)
  · intro h slot hmem
    obtain ⟨hadded, hevent, hgiven, hlinks⟩ := h
    obtain ⟨wd, rfl⟩ | ⟨i, rfl⟩ := clientSlots_run run slot hmem
    · have hwd := (hbalanced wd).mp hmem
      obtain rfl | hrange := descriptor_le hkernel hwd
      · obtain hwd | hwd := hwd
        · exact absurd hwd hadded
        · exact absurd hwd hevent
      · exact ⟨by omega, by omega⟩
    · have hi := (clientLink_run run i).mp hmem
      exact show i < maxClientLinks by omega

end ClientRuns

section ServerRuns

theorem serverEntry_count (fd : Nat) (st : Bytes) (cnt : Nat) :
    (serverEntry fd st cnt).2 = cnt + if linked st then 1 else 0 := by
  unfold serverEntry
  split_ifs <;> rfl

theorem serverTraverse_count (fd : Nat) (dir : Dir Unit) (cnt : Nat) :
    (serverTraverse fd dir cnt).2 = cnt + dir.links fun st _ => sIsDir (stMode st.val) := by
  induction dir generalizing cnt with
  | done => rfl
  | hidden rest ih => exact ih cnt
  | lost => rfl
  | entry st call below rest ihbelow ihrest =>
      simp only [serverTraverse, Dir.links, ihrest, serverEntry_count]
      split_ifs
      · rw [ihbelow]
        omega
      · rw [ihbelow]
        omega
      · omega
      · omega

theorem serverEntry_inside_iff (fd : Nat) (st : Bytes) (cnt : Nat) :
    (∀ slot ∈ (serverEntry fd st cnt).1, slot.Inside) ↔
      (linked st → fd < maxConns ∧ cnt + 1 ≤ maxLinks) := by
  unfold serverEntry
  split_ifs with hlinked
  · constructor
    · intro h _
      have hlast := h (.serverLink fd cnt) (by simp)
      exact hlast
    · intro h slot hmem
      obtain ⟨hfd, hcnt⟩ := h hlinked
      obtain rfl | hmem := List.mem_cons.mp hmem
      · exact hfd
      · obtain ⟨i, hi, rfl⟩ := List.mem_map.mp hmem
        have hle := List.mem_range.mp hi
        exact ⟨hfd, by omega⟩
  · simp [hlinked]

theorem serverTraverse_inside_iff (fd : Nat) (dir : Dir Unit) (cnt : Nat) :
    (∀ slot ∈ (serverTraverse fd dir cnt).1, slot.Inside) ↔
      (dir.links fun st _ => sIsDir (stMode st.val)) = 0 ∨
        fd < maxConns ∧ (cnt + dir.links fun st _ => sIsDir (stMode st.val)) ≤ maxLinks := by
  induction dir generalizing cnt with
  | done => simp [serverTraverse, Dir.links]
  | hidden rest ih => exact ih cnt
  | lost => simp [serverTraverse, Dir.links]
  | entry st call below rest ihbelow ihrest =>
      simp only [serverTraverse, Dir.links, List.forall_mem_append, serverEntry_inside_iff,
        serverEntry_count]
      by_cases hlinked : linked st.val
      · by_cases hdir : sIsDir (stMode st.val)
        · simp only [if_pos hdir, hlinked, ihbelow, ihrest, serverTraverse_count, true_implies, if_true]
          omega
        · simp only [if_neg hdir, hlinked, ihrest, true_implies, List.not_mem_nil, false_implies,
            implies_true, true_and, if_true]
          omega
      · by_cases hdir : sIsDir (stMode st.val)
        · simp only [if_pos hdir, hlinked, ihbelow, ihrest, serverTraverse_count, false_implies,
            true_and, Bool.false_eq_true, if_false]
          omega
        · simp only [if_neg hdir, hlinked, ihrest, List.not_mem_nil, false_implies, implies_true,
            true_and, Bool.false_eq_true, if_false]
          omega

theorem serverRun_inside_iff (pulls : List (Nat × Dir Unit)) (cnt : Nat → Nat) :
    (∀ slot ∈ serverRun pulls cnt, slot.Inside) ↔
      ∀ fd, serverLinks fd pulls = 0 ∨ fd < maxConns ∧ cnt fd + serverLinks fd pulls ≤ maxLinks := by
  induction pulls generalizing cnt with
  | nil => simp [serverRun, serverLinks]
  | cons pull pulls ih =>
      obtain ⟨fd, dir⟩ := pull
      rw [serverRun, List.forall_mem_append, ih, serverTraverse_inside_iff, serverTraverse_count]
      constructor
      · intro h fd'
        obtain ⟨hdir, hrest⟩ := h
        have hfd' := hrest fd'
        by_cases hsame : fd = fd'
        · subst hsame
          simp only [serverLinks, if_true, Function.update_self] at hfd' ⊢
          omega
        · simp only [serverLinks, if_neg hsame, Function.update_of_ne (Ne.symm hsame)] at hfd' ⊢
          omega
      · intro h
        have hfd := h fd
        simp only [serverLinks, if_true] at hfd
        refine ⟨by omega, fun fd' => ?_⟩
        by_cases hsame : fd = fd'
        · subst hsame
          rw [Function.update_self]
          omega
        · have hfd' := h fd'
          simp only [serverLinks, if_neg hsame] at hfd'
          rw [Function.update_of_ne (Ne.symm hsame)]
          omega

end ServerRuns

section Runs

-- In every run of the client, with any answers inotify can give, and in every run of
-- the server, every index is inside its table exactly if the history stays small.
theorem indices_inside_iff (run : ClientRun) (pulls : List (Nat × Dir Unit))
    (hkernel : Possible 0 run.acts) :
    ((∀ slot, .use slot ∈ run.acts → slot.Inside) ↔ run.Small) ∧
      ((∀ slot ∈ serverRun pulls fun _ => 0, slot.Inside) ↔ SmallSessions pulls) := by
  refine ⟨client_inside_iff run hkernel, ?_⟩
  rw [serverRun_inside_iff, SmallSessions]
  simp only [Nat.zero_add]

-- A regular file with two links.
def twoLinks : Mem 144 := ⟨zeros 16 ++ [2] ++ zeros 7 ++ [0xa4, 0x81] ++ zeros 118, by decide +kernel⟩

def dirStat : Mem 144 := ⟨zeros 24 ++ [0xed, 0x41] ++ zeros 118, by decide +kernel⟩

instance decidablePossible : (given : Nat) → (acts : List Act) → Decidable (Possible given acts)
  | _, [] => isTrue trivial
  | _, .added _ :: acts => @instDecidableAnd _ _ inferInstance (decidablePossible _ acts)
  | given, .event _ :: acts => @instDecidableAnd _ _ inferInstance (decidablePossible given acts)
  | given, .use _ :: acts => decidablePossible given acts

-- A tree with two directories and three files with several links, then the making of a
-- directory and a change in it.
def watchedRun : ClientRun where
  start := .traverse (.entry dirStat (some 1)
    (.entry twoLinks none .done (.entry twoLinks none .done .done))
    (.hidden (.entry twoLinks none .done (.entry dirStat (some 2) .done .lost))))
  wd := 3
  events := [⟨1, inCreate, some dirStat, 4⟩, ⟨4, inModify, some twoLinks, 0⟩]

-- Two sessions on one descriptor and one on another.
def threeSessions : List (Nat × Dir Unit) :=
  [(4, .entry dirStat () (.entry twoLinks () .done .done) (.entry twoLinks () .done .done)),
    (5, .entry twoLinks () .done (.entry twoLinks () .done .done)),
    (4, .hidden (.entry dirStat () (.entry twoLinks () .done .lost) .done))]

theorem indices_inside_small :
    (∀ slot, .use slot ∈ watchedRun.acts → slot.Inside) ∧
      ∀ slot ∈ serverRun threeSessions fun _ => 0, slot.Inside := by
  have hsmall : watchedRun.Small := by
    refine ⟨?_, ?_, ?_, ?_⟩ <;> decide +kernel
  have hsessions : SmallSessions threeSessions := by
    intro fd
    by_cases hfour : fd = 4
    · subst hfour
      exact .inr (by decide +kernel)
    · by_cases hfive : fd = 5
      · subst hfive
        exact .inr (by decide +kernel)
      · simp [threeSessions, serverLinks, Ne.symm hfour, Ne.symm hfive]
  have hboth := indices_inside_iff watchedRun threeSessions (by decide +kernel)
  exact ⟨hboth.1.mpr hsmall, hboth.2.mpr hsessions⟩

-- A watch that cannot be added indexes `event_path` with -1, and one file with two links
-- is enough on descriptor 200.
theorem index_outside :
    ¬(∀ run : ClientRun, Possible 0 run.acts → ∀ slot, .use slot ∈ run.acts → slot.Inside) ∧
    ¬(∀ pulls, ∀ slot ∈ serverRun pulls fun _ => 0, slot.Inside) := by
  have hclient : ¬(∀ run : ClientRun, Possible 0 run.acts → ∀ slot, .use slot ∈ run.acts →
      slot.Inside) := by
    intro h
    have hslot := h ⟨.traverse .done, -1, []⟩ ⟨.inl rfl, trivial⟩ (.eventPath (-1)) (by decide)
    exact absurd hslot.1 (by omega)
  have hserver : ¬(∀ pulls, ∀ slot ∈ serverRun pulls fun _ => 0, slot.Inside) := by
    intro h
    have hslot := h [(200, .entry twoLinks () .done .done)] (.serverCount 200) (by decide +kernel)
    exact absurd hslot (by simp [Slot.Inside, maxConns])
  exact ⟨hclient, hserver⟩

end Runs

end Csiebox.Tables
