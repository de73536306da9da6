import Csiebox.Client.Calls
import Csiebox.Client.Events
import Csiebox.Lib.Interference
import Csiebox.Tables

namespace Csiebox.Tables

open CBytes Program Prog Pull

section Notes

-- The answers that decide what the client does with its tables.
inductive Note where
  | found (st : Option (Mem 144))
  | added (wd : Int)
  | read (got : Bytes)

def tableNotes : (γ : Type) → Sys γ → γ → List Note
  | _, .lstat _, st => [.found st]
  | _, .addWatch _, wd => [.added wd]
  | _, .readEvents _, got => [.read got]
  | _, _, _ => []

-- The calls of which nothing is noted.
def Unnoted : {ι : Type} → Sys ι → Prop
  | _, .lstat _ => False
  | _, .addWatch _ => False
  | _, .readEvents _ => False
  | _, _ => True

def Dir.notes : Dir (Option Int) → List Note
  | .done => []
  | .hidden rest => rest.notes
  | .lost => [.found none]
  | .entry st answer below rest =>
      .found (some st) ::
        ((match answer with
          | none => []
          | some wd => .added wd :: below.notes) ++ rest.notes)

def Start.notes : Start → List Note
  | pull wds => wds.map .added
  | traverse dir => dir.notes

def Event.notes (e : Event) : List Note :=
  .found e.st :: if e.mask &&& inCreate ≠ 0 ∧ ∃ st ∈ e.st,
    sIsDir (stMode st.val) then [.added e.added] else []

-- What one `read` delivers and the events handled behind it.
structure Round where
  got : Bytes
  events : List Event

def Round.notes (r : Round) : List Note := .read r.got :: r.events.flatMap Event.notes

def kinds (buffer : Bytes) (length i : Nat) : List (Int × Nat) :=
  (eventsSeen buffer length i).map fun x => (eventWd x, eventMask x)

-- The events are the ones that lie in the buffer.
def Round.Decodes (r : Round) : Prop :=
  (r.events.map fun e => (e.wd, e.mask)) = kinds (overlay (zeros eventBufLen) r.got) r.got.length 0

-- `run` is what the client has done behind these rounds and answers, all of it inside.
structure Accounts (run : ClientRun) (rounds : List Round) (notes : List Note) : Prop where
  events : run.events = rounds.flatMap Round.events
  decodes : ∀ r ∈ rounds, r.Decodes
  notes : notes = run.start.notes ++ .added run.wd :: rounds.flatMap Round.notes
  inside : ∀ slot, .use slot ∈ run.acts → slot.Inside

-- Where the client reads events, all it has done before is accounted for.
def AtRead {F : Type} : {ι : Type} → Sys ι → Host F × List Note → Prop
  | _, .readEvents _, s => ∃ run rounds, Accounts run rounds s.2
  | _, _, _ => True

end Notes

variable {F α : Type} [Posix F]

-- The client's calls with the notes taken of them.
def noting (F : Type) [Posix F] : Kernel Sys (Host F × List Note) := Kernel.noting host tableNotes

abbrev Goes (p : Code α) (s : Host F × List Note) (l : Link UInt8)
    (Q : α → Host F × List Note → Link UInt8 → Prop) : Prop :=
  Along (noting F) AtRead anyHalt p s l Q

variable {md5 : Bytes → Mem 16} {s : Host F × List Note} {l : Link UInt8}

section Rules

theorem keeps_notes (notes : List Note) : Keeps (noting F) Unnoted fun s => s.2 = notes := by
  intro ι op s r s' hop hs hexec
  obtain ⟨-, hnotes⟩ := noting_exec.mp hexec
  rw [hnotes, hs]
  cases op <;> first | exact List.append_nil _ | exact absurd hop (by simp [Unnoted])

theorem goes_silent {p : Code α} (hp : p.Calls Unnoted) : Goes p s l fun _ s' _ => s'.2 = s.2 :=
  along_calls (keeps_notes s.2) (fun op _ hop _ => by cases op <;> trivial) hp rfl

theorem goes_lstat (path : Bytes) : Goes (sys (.lstat path)) s l fun st s' _ => s'.2 = s.2 ++ [.found st] :=
  along_sys trivial fun _ _ hexec => (noting_exec.mp hexec).2

theorem goes_checkSize {fits : Prop} [Decidable fits] :
    Goes (checkSize fits) s l fun _ s' _ => fits ∧ s'.2 = s.2 := by
  by_cases hfits : fits
  · rw [checkSize_pos hfits]
    exact along_ret ⟨hfits, rfl⟩
  · rw [checkSize_neg hfits]
    exact along_halt trivial

-- A watch, and the row of `event_path` it is spelled in.
theorem goes_watch (client : Client) (cpath : Bytes) :
    Goes (sys (.addWatch cpath) >>= fun wd => setEventPath client wd cpath) s l fun client' s' _ =>
      client'.hl = client.hl ∧ ∃ wd, s'.2 = s.2 ++ [.added wd] ∧ (Slot.eventPath wd).Inside := by
  refine along_bind (along_sys trivial fun wd s₁ hexec => ?_)
  refine along_bind (goes_checkSize.mono fun _ s₂ _ hchecked => ?_)
  obtain ⟨hfits, hnotes⟩ := hchecked
  refine along_ret ⟨rfl, wd, ?_, ?_⟩
  · rw [hnotes]
    exact (noting_exec.mp hexec).2
  · exact ⟨hfits.1, hfits.2.1⟩

theorem unnoted_pulls : PullCalls Unnoted :=
  ⟨⟨fun _ _ => trivial, fun _ => trivial, fun _ => trivial, fun _ _ => trivial, fun _ => trivial⟩,
    fun _ => trivial, fun _ => trivial, fun _ _ => trivial, fun _ _ => trivial, fun _ _ => trivial,
    fun _ _ => trivial, fun _ _ _ => trivial⟩

end Rules

section Traversal

theorem goes_clientEntry (st cpath : Bytes) (client : Client) :
    Goes (Csiebox.clientEntry md5 st cpath client) s l fun client' s' _ => s'.2 = s.2 ∧
      client'.hl.length = (clientEntry st client.hl.length).2 ∧
        ∀ slot, .use slot ∈ (clientEntry st client.hl.length).1 → slot.Inside := by
  have hsync : (syncFile md5 st cpath).Calls Unnoted := calls_syncFile unnoted_pulls.toSendCalls
  unfold Csiebox.clientEntry clientEntry
  split_ifs with hlinked hlinked'
  · refine along_bind ((goes_silent calls_clientKnownLinks).mono fun _ s₁ _ h₁ => ?_)
    refine along_bind ((goes_silent hsync).mono fun _ s₂ _ h₂ => ?_)
    refine along_bind (goes_checkSize.mono fun _ s₃ _ hchecked => ?_)
    obtain ⟨hfits, h₃⟩ := hchecked
    refine along_ret ⟨?_, ?_, ?_⟩
    · rw [h₃, h₂, h₁]
    · rw [List.length_append, List.length_singleton]
    · intro slot hmem
      obtain ⟨i, hi, hslot⟩ := List.mem_map.mp hmem
      obtain rfl := Act.use.inj hslot
      exact lt_of_le_of_lt (Nat.lt_succ_iff.mp (List.mem_range.mp hi)) hfits
  · exact absurd hlinked hlinked'
  · exact absurd ‹linked st = true› hlinked
  · exact along_bind ((goes_silent hsync).mono fun _ s₁ _ h₁ => along_ret ⟨h₁, rfl, by simp⟩)

-- What a traversal that began with `cnt` links has come to in `dir`.
structure Behind (cnt : Nat) (dir : Dir (Option Int)) (notes : List Note) (client' : Client)
    (s' : Host F × List Note) : Prop where
  notes : s'.2 = notes ++ dir.notes
  count : client'.hl.length = (clientTraverse dir cnt).2
  inside : ∀ slot, .use slot ∈ (clientTraverse dir cnt).1 → slot.Inside

omit [Posix F] in
theorem behind_done (client : Client) : Behind client.hl.length .done s.2 client s :=
  ⟨(List.append_nil _).symm, rfl, by simp [clientTraverse]⟩

-- A directory behind its watch.
theorem goes_watched {descend : Bytes → Client → Code Client}
    (hdescend : ∀ dirName client (s : Host F × List Note) l, Goes (descend dirName client) s l
      fun client' s' _ => ∃ dir, Behind client.hl.length dir s.2 client' s')
    (cpath : Bytes) (client : Client) : Goes (watchAndDescend descend cpath client) s l fun client' s' _ =>
      ∃ wd dir, Behind client.hl.length dir (s.2 ++ [.added wd]) client' s' ∧
        (Slot.eventPath wd).Inside := by
  have hwatch := goes_watch (s := s) (l := l) client cpath
  unfold watchAndDescend
  rw [← bind_assoc]
  refine along_bind (hwatch.mono ?_)
  rintro client₁ s₁ l₁ ⟨hhl, wd, hnotes, hinside⟩
  refine (hdescend cpath client₁ s₁ l₁).mono ?_
  rintro client' s' _ ⟨dir, hdir⟩
  refine ⟨wd, dir, ?_, hinside⟩
  rwa [hhl, hnotes] at hdir

theorem goes_clientVisit {descend : Bytes → Client → Code Client}
    (hdescend : ∀ dirName client (s : Host F × List Note) l, Goes (descend dirName client) s l
      fun client' s' _ => ∃ dir, Behind client.hl.length dir s.2 client' s')
    (dirName : Bytes) (entries : List Dirent) (client : Client) :
    Goes (clientVisit md5 descend dirName entries client) s l fun client' s' _ =>
      ∃ dir, Behind client.hl.length dir s.2 client' s' := by
  induction entries generalizing client s l with
  | nil => exact along_ret ⟨.done, behind_done client⟩
  | cons entry entries ih =>
      rw [clientVisit]
      by_cases hhidden : entry.name.val.head? = some dot
      · rw [if_pos hhidden]
        refine (ih client).mono ?_
        rintro _ _ _ ⟨dir, hdir⟩
        exact ⟨.hidden dir, hdir.notes, hdir.count, hdir.inside⟩
      · rw [if_neg hhidden]
        refine along_bind ((goes_lstat _).mono fun found s₁ l₁ hfound => ?_)
        cases found with
        | none => exact along_ret ⟨.lost, hfound, rfl, by simp [clientTraverse]⟩
        | some st =>
            refine along_bind ((goes_clientEntry st.val _ client).mono fun client₂ s₂ l₂ hentry => ?_)
            obtain ⟨hnotes, hcount, hinside⟩ := hentry
            by_cases hdir : entry.isDir = true
            · rw [if_pos hdir]
              refine along_bind ((goes_watched hdescend _ client₂).mono ?_)
              rintro client₃ s₃ l₃ ⟨wd, below, hbelow, hwd⟩
              refine (ih client₃).mono ?_
              rintro client' s' _ ⟨rest, hrest⟩
              refine ⟨.entry st (some wd) below rest, ?_⟩
              rw [hbelow.count, hcount] at hrest
              rw [hcount] at hbelow
              constructor
              · rw [hrest.notes, hbelow.notes, hnotes, hfound]
                simp [Dir.notes]
              · exact hrest.count
              · intro slot hmem
                simp only [clientTraverse, addWatch, List.mem_append, List.mem_cons, reduceCtorEq,
                  Act.use.injEq, List.not_mem_nil, or_false, false_or] at hmem
                rcases hmem with hmem | (rfl | hmem) | hmem
                · exact hinside slot hmem
                · exact hwd
                · exact hbelow.inside slot hmem
                · exact hrest.inside slot hmem
            · rw [if_neg hdir]
              refine along_bind (along_ret ?_)
              refine (ih client₂).mono ?_
              rintro client' s' _ ⟨rest, hrest⟩
              refine ⟨.entry st none .done rest, ?_⟩
              rw [hcount] at hrest
              constructor
              · rw [hrest.notes, hnotes, hfound]
                simp [Dir.notes]
              · exact hrest.count
              · intro slot hmem
                simp only [clientTraverse, List.nil_append, List.mem_append] at hmem
                exact hmem.elim (hinside slot) (hrest.inside slot)

theorem goes_clientTraverseFile (depth : Nat) (dirName : Bytes) (client : Client) :
    Goes (clientTraverseFile md5 depth dirName client) s l fun client' s' _ =>
      ∃ dir, Behind client.hl.length dir s.2 client' s' := by
  induction depth generalizing dirName client s l with
  | zero => exact along_halt trivial
  | succ depth ih =>
      rw [clientTraverseFile]
      have hopendir : (sys (.opendir dirName) : Code _).Calls Unnoted := calls_sys trivial
      refine along_bind ((goes_silent hopendir).mono fun found s₁ l₁ hnotes => ?_)
      rw [← hnotes]
      cases found with
      | none => exact along_ret ⟨.done, behind_done client⟩
      | some entries => exact goes_clientVisit (fun dirName client s l =>
        ih dirName client) dirName entries client

end Traversal

section Pull

-- Only watches are noted, all of them with a row.
def Adds (notes notes' : List Note) : Prop :=
  ∃ wds : List Int, notes' = notes ++ wds.map .added ∧ ∀ wd ∈ wds, (Slot.eventPath wd).Inside

theorem adds_refl {notes notes' : List Note} (h : notes' = notes) : Adds notes notes' :=
  ⟨[], by simp [h], by simp⟩

theorem Adds.trans {notes notes' notes'' : List Note} (h : Adds notes notes') (h' : Adds notes' notes'') :
    Adds notes notes'' := by
  obtain ⟨wds, rfl, hinside⟩ := h
  obtain ⟨wds', rfl, hinside'⟩ := h'
  refine ⟨wds ++ wds', by simp, fun wd hwd => ?_⟩
  exact (List.mem_append.mp hwd).elim (hinside wd) (hinside' wd)

theorem goes_pullEntry (client : Client) (st recPath : Bytes) :
    Goes (pullEntry client st recPath) s l fun _ s' _ => Adds s.2 s'.2 := by
  have hmkdir : (sys (.mkdir recPath homeMode) : Code _).Calls Unnoted := calls_sys trivial
  unfold pullEntry
  split_ifs
  · refine along_bind ((goes_silent hmkdir).mono fun _ s₁ _ h₁ => ?_)
    refine (goes_watch client recPath).mono ?_
    rintro _ s' _ ⟨-, wd, hnotes, hinside⟩
    exact ⟨[wd], by rw [hnotes, h₁]; rfl, by simpa using hinside⟩
  · exact along_bind ((goes_silent (calls_pullLink unnoted_pulls)).mono fun _ _ _ h₁ =>
      along_ret (adds_refl h₁))
  · exact along_bind ((goes_silent (calls_pullFile unnoted_pulls)).mono fun _ _ _ h₁ =>
      along_ret (adds_refl h₁))
  · exact along_ret (adds_refl rfl)

theorem goes_pullMeta (client : Client) (head : Bytes) :
    Goes (pullMeta client head) s l fun _ s' _ => Adds s.2 s'.2 := by
  unfold pullMeta
  refine along_bind ((goes_silent calls_recvMessage).mono fun received s₁ _ h₁ => ?_)
  refine along_bind ((goes_silent calls_sendMessage).mono fun _ s₂ _ h₂ => ?_)
  refine along_bind (goes_checkSize.mono fun _ s₃ _ hchecked => ?_)
  obtain ⟨-, h₃⟩ := hchecked
  refine along_bind ((goes_silent calls_recvMessage).mono fun path s₄ _ h₄ => ?_)
  refine along_bind ((goes_pullEntry client _ _).mono fun _ s₅ _ h₅ => ?_)
  have hutime : ∀ path atime mtime, (sys (.utime path atime mtime) : Code _).Calls Unnoted :=
    fun _ _ _ => calls_sys trivial
  refine along_bind ((goes_silent (hutime _ _ _)).mono fun _ s₆ _ h₆ => along_ret ?_)
  have hbefore : s₄.2 = s.2 := by rw [h₄, h₃, h₂, h₁]
  rw [hbefore] at h₅
  exact h₅.trans (adds_refl h₆)

theorem goes_pull (client : Client) : Goes (pull client) s l fun _ s' _ => Adds s.2 s'.2 := by
  refine along_iter (fun _ s' _ => Adds s.2 s'.2) (adds_refl rfl) ?_
  rintro ⟨header, client⟩ s₁ l₁ hadds
  unfold pullRound
  refine along_bind ((goes_silent calls_recvMessage).mono fun received s₂ _ h₂ => ?_)
  obtain ⟨ok, head⟩ := received
  have hadds₂ : Adds s.2 s₂.2 := hadds.trans (adds_refl h₂)
  simp only
  split_ifs
  · exact along_ret hadds₂
  · refine along_bind ((goes_silent (calls_pullHardlink unnoted_pulls)).mono fun _ s₃ _ h₃ => along_ret ?_)
    exact hadds₂.trans (adds_refl h₃)
  · exact along_bind ((goes_pullMeta client head).mono fun _ s₃ _ h₃ => along_ret (hadds₂.trans h₃))

end Pull

section Events

variable {event : Bytes} {client : Client}

-- IN_CREATE of a directory.
def Makes (mask : Nat) (st : Option (Mem 144)) : Prop :=
  mask &&& inCreate ≠ 0 ∧ ∃ m ∈ st, sIsDir (stMode m.val)

theorem goes_onCreate (st : Option (Mem 144)) (epath : Bytes) :
    Goes (onCreate md5 event ((st.map Subtype.val).getD (zeros sizeofStat)) epath client) s l
      fun _ s' _ => Makes (eventMask event) st ∧
        (∃ wd, s'.2 = s.2 ++ [.added wd] ∧ (Slot.eventPath wd).Inside) ∨
        ¬Makes (eventMask event) st ∧ s'.2 = s.2 := by
  have hsync : ∀ st, (syncFile md5 st epath).Calls Unnoted :=
    fun _ => calls_syncFile unnoted_pulls.toSendCalls
  have hdir : sIsDir (stMode ((st.map Subtype.val).getD (zeros sizeofStat))) = true ↔
      ∃ m ∈ st, sIsDir (stMode m.val) := by
    cases st with
    | none => exact iff_of_false (by decide) (by simp)
    | some m => simp
  unfold onCreate
  by_cases hcreate : eventHas event inCreate = true
  · have hmask : eventMask event &&& inCreate ≠ 0 := by simpa [eventHas] using hcreate
    rw [if_pos hcreate]
    refine along_bind ((goes_silent (hsync _)).mono fun _ s₁ _ h₁ => ?_)
    rw [← h₁]
    split_ifs with hmade
    · refine (goes_watch client epath).mono ?_
      rintro _ _ _ ⟨-, hwatch⟩
      exact .inl ⟨⟨hmask, hdir.mp hmade⟩, hwatch⟩
    · exact along_ret (.inr ⟨fun h => hmade (hdir.mpr h.2), rfl⟩)
  · have hmask : ¬(eventMask event &&& inCreate ≠ 0) := by simpa [eventHas] using hcreate
    rw [if_neg hcreate]
    exact along_ret (.inr ⟨fun h => hmask h.1, rfl⟩)

-- An event that has been handled, with what was asked about it.
structure Handled (wd : Int) (mask : Nat) (notes notes' : List Note) (e : Event) : Prop where
  wd : e.wd = wd
  mask : e.mask = mask
  notes : notes' = notes ++ e.notes
  inside : ∀ slot, .use slot ∈ handleEvent e → slot.Inside

theorem handleEvent_inside {row wd : Int} {mask : Nat} {st : Option (Mem 144)}
    (hrow : (Slot.eventPath row).Inside) (hwd : Makes mask st → (Slot.eventPath wd).Inside) :
    ∀ slot, .use slot ∈ handleEvent ⟨row, mask, st, wd⟩ → slot.Inside := by
  intro slot hmem
  rcases List.mem_append.mp hmem with hevent | hadded
  · simp only [List.mem_cons, reduceCtorEq, Act.use.injEq, List.not_mem_nil, or_false, false_or] at hevent
    rw [hevent]
    exact hrow
  · split_ifs at hadded with hmade
    · simp only [addWatch, List.mem_cons, reduceCtorEq, Act.use.injEq, List.not_mem_nil, or_false,
        false_or] at hadded
      rw [hadded]
      exact hwd hmade
    · exact absurd hadded List.not_mem_nil

theorem handled_made {row wd : Int} {mask : Nat} {st : Option (Mem 144)} {notes notes' : List Note}
    (hmakes : Makes mask st)
    (hrow : (Slot.eventPath row).Inside) (hwd : (Slot.eventPath wd).Inside)
    (hnotes : notes' = notes ++ [.found st, .added wd]) :
    Handled row mask notes notes' ⟨row, mask, st, wd⟩ where
  wd := rfl
  mask := rfl
  notes := by
    rw [hnotes]
    exact congrArg (notes ++ _ :: ·) (if_pos hmakes).symm
  inside := handleEvent_inside hrow fun _ => hwd

theorem handled_only {row : Int} {mask : Nat} {st : Option (Mem 144)} {notes notes' : List Note}
    (hmakes : ¬Makes mask st)
    (hrow : (Slot.eventPath row).Inside) (hnotes : notes' = notes ++ [.found st]) :
    Handled row mask notes notes' ⟨row, mask, st, 0⟩ where
  wd := rfl
  mask := rfl
  notes := by
    rw [hnotes]
    exact congrArg (notes ++ _ :: ·) (if_neg hmakes).symm
  inside := handleEvent_inside hrow fun hmade => absurd hmade hmakes

theorem goes_handleEvent (event : Bytes) (client : Client) :
    Goes (Csiebox.handleEvent md5 event client) s l fun _ s' _ =>
      ∃ e, Handled (eventWd event) (eventMask event) s.2 s'.2 e := by
  have hstrcat : ∀ base path, (strcat base path).Calls Unnoted := fun _ _ =>
    calls_bind calls_checkSize fun _ => calls_ret
  have hdelete : ∀ epath, (onDelete event epath).Calls Unnoted := fun _ => calls_onDelete fun _ => trivial
  have hchange : ∀ flag st epath, (onChange md5 flag event st epath).Calls Unnoted := fun _ _ _ =>
    calls_onChange unnoted_pulls.toSendCalls
  unfold Csiebox.handleEvent
  refine along_bind (goes_checkSize.mono fun _ s₁ _ hchecked => ?_)
  obtain ⟨hfits, h₁⟩ := hchecked
  refine along_bind ((goes_silent (hstrcat _ _)).mono fun epath s₂ _ h₂ => ?_)
  refine along_bind ((goes_silent (hstrcat _ _)).mono fun epath s₃ _ h₃ => ?_)
  refine along_bind ((goes_lstat epath).mono fun st s₄ _ h₄ => ?_)
  refine along_bind ((goes_onCreate st epath).mono fun client s₅ _ h₅ => ?_)
  refine along_bind ((goes_silent (hdelete epath)).mono fun _ s₆ _ h₆ => ?_)
  refine along_bind ((goes_silent (hchange _ _ epath)).mono fun _ s₇ _ h₇ => ?_)
  refine along_bind ((goes_silent (hchange _ _ epath)).mono fun _ s₈ _ h₈ => along_ret ?_)
  have hbehind : s₈.2 = s₅.2 := by rw [h₈, h₇, h₆]
  have hbefore : s₄.2 = s.2 ++ [.found st] := by rw [h₄, h₃, h₂, h₁]
  have hrow : (Slot.eventPath (eventWd event)).Inside := ⟨hfits.1, hfits.2⟩
  rw [hbehind]
  rcases h₅ with ⟨hmakes, wd, hnotes, hwd⟩ | ⟨hnot, hnotes⟩
  · exact ⟨_, handled_made hmakes hrow hwd (by rw [hnotes, hbefore, List.append_assoc]; rfl)⟩
  · exact ⟨_, handled_only hnot hrow (by rw [hnotes, hbefore])⟩

-- The events that have been handled, as far as they go.
structure HandledAll (todo all : List (Int × Nat)) (notes notes' : List Note) (events : List Event) :
    Prop where
  kinds : (events.map fun e => (e.wd, e.mask)) ++ todo = all
  notes : notes' = notes ++ events.flatMap Event.notes
  inside : ∀ slot, .use slot ∈ events.flatMap handleEvent → slot.Inside

theorem HandledAll.snoc {wd : Int} {mask : Nat} {todo all : List (Int × Nat)}
    {notes notes' notes'' : List Note}
    {events : List Event} {e : Event} (h : HandledAll ((wd, mask) :: todo) all notes notes' events)
    (he : Handled wd mask notes' notes'' e) : HandledAll todo all notes notes'' (events ++ [e]) where
  kinds := by
    rw [List.map_append, List.map_singleton, he.wd, he.mask, List.append_assoc]
    exact h.kinds
  notes := by
    rw [he.notes, h.notes, List.flatMap_append, List.flatMap_singleton, List.append_assoc]
  inside slot hmem := by
    rw [List.flatMap_append, List.flatMap_singleton, List.mem_append] at hmem
    exact hmem.elim (h.inside slot) (he.inside slot)

theorem goes_handleEvents (buffer : Bytes) (length : Nat) (client : Client) :
    Goes (handleEvents md5 buffer length client) s l fun _ s' _ =>
      ∃ events, HandledAll [] (kinds buffer length 0) s.2 s'.2 events := by
  refine along_iter (fun place s' _ => ∃ events, HandledAll (kinds buffer length place.1)
    (kinds buffer length 0) s.2 s'.2 events) ⟨[], rfl, by simp, by simp⟩ ?_
  rintro ⟨i, client⟩ s₁ l₁ ⟨events, hevents⟩
  unfold nextEvent
  simp only
  split_ifs with hend
  · have hnone : kinds buffer length i = [] := by
      rw [kinds, eventsSeen_done buffer length hend, List.map_nil]
    rw [hnone] at hevents
    exact along_ret ⟨events, hevents⟩
  · refine along_bind ((goes_handleEvent _ client).mono fun _ s₂ _ hevent => ?_)
    obtain ⟨e, he⟩ := hevent
    refine along_ret ⟨events ++ [e], ?_⟩
    have hnext : kinds buffer length i = (eventWd (buffer.drop i), eventMask (buffer.drop i)) ::
        kinds buffer length (i + eventSize + eventLen (buffer.drop i)) := by
      rw [kinds, eventsSeen_next buffer length (by omega), List.map_cons, visitAt_eq]
      refine congrArg (· :: _) (Prod.ext ?_ ?_)
      · rw [eventWd, seen_slice (by decide), eventWd]
      · rw [eventMask, seen_slice (by decide), eventMask]
    rw [hnext] at hevents
    exact hevents.snoc he

end Events

section Runs

variable {client : Client}

theorem Accounts.snoc {run : ClientRun} {rounds : List Round} {notes notes' : List Note} {got : Bytes}
    {events : List Event} (h : Accounts run rounds notes)
    (hevents : HandledAll [] (kinds (overlay (zeros eventBufLen) got) got.length 0) (notes ++ [.read got])
      notes' events) :
    Accounts { run with events := run.events ++ events } (rounds ++ [⟨got, events⟩]) notes' where
  events := by rw [List.flatMap_append, List.flatMap_singleton, h.events]
  decodes := by
    intro r hr
    rcases List.mem_append.mp hr with hold | hnew
    · exact h.decodes r hold
    · obtain rfl := List.mem_singleton.mp hnew
      exact (List.append_nil _).symm.trans hevents.kinds
  notes := by
    rw [hevents.notes, h.notes, List.flatMap_append, List.flatMap_singleton]
    simp [Round.notes]
  inside slot hmem := by
    simp only [ClientRun.acts, List.flatMap_append, List.mem_append] at hmem
    have hold := h.inside slot
    simp only [ClientRun.acts, List.mem_append] at hold
    rcases hmem with hstart | hroot | hevent | hlast
    · exact hold (.inl hstart)
    · exact hold (.inr (.inl hroot))
    · exact hold (.inr (.inr hevent))
    · exact hevents.inside slot hlast

-- Rounds without end: what has been done is accounted for in each of them.
theorem goes_watchLoop (client : Client) (haccounts : ∃ run rounds, Accounts run rounds s.2) :
    Goes (watch md5 client) s l fun _ s' _ => ∃ run rounds, Accounts run rounds s'.2 := by
  refine along_iter (fun _ s' _ => ∃ run rounds, Accounts run rounds s'.2) haccounts ?_
  rintro client s₁ l₁ ⟨run, rounds, hrun⟩
  unfold watchRound
  refine along_bind (along_sys ⟨run, rounds, hrun⟩ fun got s₂ hexec => ?_)
  have hread : s₂.2 = s₁.2 ++ [.read got] := (noting_exec.mp hexec).2
  split_ifs with hempty
  · obtain rfl := List.eq_nil_of_length_eq_zero hempty
    have hdone : kinds (overlay (zeros eventBufLen) []) 0 0 = [] := by
      rw [kinds, eventsSeen_done _ _ (Nat.zero_le 0), List.map_nil]
    have hnone : HandledAll [] (kinds (overlay (zeros eventBufLen) []) 0 0) (s₁.2 ++ [.read []]) s₂.2 [] :=
      ⟨hdone.symm, by simp [hread], by simp⟩
    exact along_ret ⟨_, _, hrun.snoc hnone⟩
  · refine along_bind ((goes_handleEvents _ _ client).mono fun _ s₃ _ hhandled => along_ret ?_)
    obtain ⟨events, hevents⟩ := hhandled
    rw [hread] at hevents
    exact ⟨_, _, hrun.snoc hevents⟩

-- Up to "start watch".
theorem goes_initialSync (client : Client) : Goes (initialSync md5 client) s l fun _ s' _ =>
    ∃ start : Start, s'.2 = s.2 ++ start.notes ∧ ∀ slot, .use slot ∈ start.acts → slot.Inside := by
  have hchdir : (sys (.chdir client.path) : Code _).Calls Unnoted := calls_sys trivial
  have hopendir : (sys (.opendir dotSlash) : Code _).Calls Unnoted := calls_sys trivial
  have hnotice : ∀ n, (sys (.notice n) : Code _).Calls Unnoted := fun _ => calls_sys trivial
  unfold initialSync
  refine along_bind ((goes_silent hchdir).mono fun _ s₁ _ h₁ => ?_)
  refine along_bind ((goes_silent hopendir).mono fun found s₂ _ h₂ => ?_)
  cases found with
  | none => exact along_halt trivial
  | some entries =>
      refine along_bind ((goes_silent (hnotice _)).mono fun _ s₃ _ h₃ => ?_)
      have hstart : s₃.2 = s.2 := by rw [h₃, h₂, h₁]
      rw [← hstart]
      refine along_bind (Along.mono (Q := fun _ s' _ => ∃ start : Start, s'.2 = s₃.2 ++ start.notes ∧
        ∀ slot, .use slot ∈ start.acts → slot.Inside) ?_ ?_)
      · split_ifs
        · refine along_bind ((goes_pull _).mono fun _ s₄ _ hpulled => ?_)
          obtain ⟨wds, hnotes, hwds⟩ := hpulled
          refine along_bind ((goes_silent (hnotice _)).mono fun _ s₅ _ h₅ => along_ret ⟨.pull wds, ?_, ?_⟩)
          · rw [h₅, hnotes]
            rfl
          · intro slot hmem
            obtain ⟨wd, hwd, hslot⟩ := List.mem_flatMap.mp hmem
            simp only [addWatch, List.mem_cons, reduceCtorEq, Act.use.injEq, List.not_mem_nil, or_false,
              false_or] at hslot
            rw [hslot]
            exact hwds wd hwd
        · refine (goes_clientTraverseFile _ _ _).mono ?_
          rintro _ _ _ ⟨dir, hdir⟩
          exact ⟨.traverse dir, hdir.notes, hdir.inside⟩
      · rintro client' s₄ _ ⟨start, hnotes, hinside⟩
        refine along_bind ((goes_silent (hnotice _)).mono fun _ s₅ _ h₅ => along_ret ⟨start, ?_, hinside⟩)
        rw [h₅, hnotes]

-- In every run of `csiebox_client_run`, whenever it reads events and when it comes back
-- from them, the tables have been used as `ClientRun` lists it for the answers that the
-- calls gave, and nowhere outside.
theorem clientRun_accounted (md5 : Bytes → Mem 16) (client : Client) (h : Host F) (l : Link UInt8) :
    Goes (csieboxClientRun md5 client) (h, []) l fun result s _ =>
      result = 1 → ∃ run rounds, Accounts run rounds s.2 := by
  unfold csieboxClientRun startClient
  rw [bind_assoc]
  refine along_bind ((goes_silent calls_clientLogin).mono fun result s₁ _ h₁ => ?_)
  cases result with
  | none => exact along_ret (by simp)
  | some client =>
      simp only [bind_assoc, ret_bind]
      refine along_bind ((goes_initialSync client).mono fun client s₂ l₂ hsynced => ?_)
      obtain ⟨start, h₂, hstart⟩ := hsynced
      simp only [← bind_assoc]
      rw [bind_assoc]
      refine along_bind ((goes_watch client [dot]).mono fun client s₃ l₃ hwatched => ?_)
      obtain ⟨-, wd, h₃, hwd⟩ := hwatched
      have hnotes : s₃.2 = start.notes ++ [.added wd] := by
        rw [h₃, h₂, h₁, List.nil_append]
      have haccounts : Accounts ⟨start, wd, []⟩ [] s₃.2 := by
        refine ⟨rfl, by simp, by rw [hnotes]; rfl, fun slot hmem => ?_⟩
        simp only [ClientRun.acts, addWatch, List.flatMap_nil, List.append_nil, List.mem_append,
          List.mem_cons, reduceCtorEq, Act.use.injEq, List.not_mem_nil, or_false, false_or] at hmem
        rcases hmem with hmem | rfl
        · exact hstart slot hmem
        · exact hwd
      exact along_bind ((goes_watchLoop client ⟨_, _, haccounts⟩).mono fun _ _ _ hrun =>
        along_ret fun _ => hrun)

end Runs

end Csiebox.Tables
