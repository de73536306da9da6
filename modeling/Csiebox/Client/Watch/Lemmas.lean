import Csiebox.Client.Calls
import Csiebox.Client.Watch

namespace Csiebox

open CBytes Program Prog

section Names

variable (p : Path) (n : Name)

theorem tailName_snoc : tailName (p ++ [n]) = tailName p ++ slash :: n.val := by
  simp [tailName]

theorem tailName_cons : tailName (n :: p) = slash :: (n.val ++ tailName p) := by
  simp [tailName]

theorem watchName_snoc : watchName (p ++ [n]) = watchName p ++ slash :: n.val := by
  rw [watchName, tailName_snoc]
  rfl

-- A path below the root starts with a slash.
theorem tailName_pathName {p : Path} (hp : p ≠ []) : tailName p = slash :: pathName p := by
  cases p with
  | nil => exact absurd rfl hp
  | cons n p =>
      rw [pathName, tailName_cons]
      rfl

theorem watchName_pathName {p : Path} (hp : p ≠ []) : watchName p = dotSlash ++ pathName p := by
  rw [watchName, tailName_pathName hp]
  rfl

theorem watchName_length_snoc :
    (watchName (p ++ [n])).length = (watchName p).length + 1 + n.val.length := by
  rw [watchName_snoc, List.length_append, List.length_cons]
  omega

theorem watchName_length_lt {p : Path} (hp : p ≠ []) : 2 < (watchName p).length := by
  obtain ⟨q, m, rfl⟩ : ∃ q m, p = q ++ [m] := ⟨_, _, (List.dropLast_concat_getLast hp).symm⟩
  have hname : 0 < m.val.length := List.length_pos_iff.mpr m.property.1
  have hhead : 0 < (watchName q).length := Nat.succ_pos _
  rw [watchName_length_snoc]
  omega

theorem pathName_nonzero : ∀ b ∈ pathName p, b ≠ 0 := by
  intro b hb
  have htail : b ∈ tailName p := List.mem_of_mem_drop hb
  simp only [tailName, List.mem_flatten, List.mem_map] at htail
  obtain ⟨_, ⟨n, -, rfl⟩, hmem⟩ := htail
  rcases List.mem_cons.mp hmem with rfl | hmem
  · decide
  · exact n.property.2.2.2.2 b hmem

theorem takeWhile_name : (n.val ++ tailName p).takeWhile (· ≠ slash) = n.val := by
  have hname : ∀ b ∈ n.val, decide (b ≠ slash) = true := fun b hb =>
    decide_eq_true fun h => n.property.2.2.2.1 (h ▸ hb)
  rw [List.takeWhile_append_of_pos hname]
  cases p with
  | nil => exact List.append_nil _
  | cons m p =>
      rw [tailName_cons]
      exact List.append_nil _

theorem watchName_injective : Function.Injective watchName := by
  intro p q heq
  have htail : tailName p = tailName q := List.tail_eq_of_cons_eq heq
  clear heq
  induction p generalizing q with
  | nil =>
      cases q with
      | nil => rfl
      | cons m q => simp [tailName] at htail
  | cons n p ih =>
      cases q with
      | nil => simp [tailName] at htail
      | cons m q =>
          rw [tailName_cons, tailName_cons] at htail
          have hbehind := List.tail_eq_of_cons_eq htail
          have hname : n = m := Subtype.ext (by rw [← takeWhile_name p n, hbehind, takeWhile_name])
          subst hname
          rw [ih (List.append_cancel_left hbehind)]

-- How `traverse_file` joins a directory and a name, and where it goes from there.
theorem clientPath_watchName (hp : p ≠ []) (hfit : (watchName (p ++ [n])).length < pathMax) :
    clientPath (watchName p) n.val = watchName (p ++ [n]) := by
  have hlong := watchName_length_lt hp
  rw [clientPath, if_neg (by omega), snprintfPath, ← watchName_snoc, List.take_of_length_le (by omega)]

theorem traverseName_snoc : traverseName (p ++ [n]) = clientPath (traverseName p) n.val := by
  simp [traverseName]

theorem traverseName_eq {p : Path} (hp : p ≠ []) (hfit : (watchName p).length < pathMax) :
    traverseName p = watchName p := by
  induction p using List.reverseRecOn with
  | nil => exact absurd rfl hp
  | append_singleton p n ih =>
      rw [traverseName_snoc]
      by_cases hroot : p = []
      · subst hroot
        rw [watchName_snoc] at hfit ⊢
        exact List.take_of_length_le (Nat.le_sub_one_of_lt hfit)
      · have hshort : (watchName p).length < pathMax := by
          rw [watchName_length_snoc] at hfit
          omega
        rw [ih hroot hshort, clientPath_watchName p n hroot hfit]

theorem clientPath_traverseName (hfit : (watchName (p ++ [n])).length < pathMax) :
    clientPath (traverseName p) n.val = watchName (p ++ [n]) := by
  rw [← traverseName_snoc]
  exact traverseName_eq (by simp) hfit

end Names

section Calls

variable {md5 : Bytes → Mem 16}

abbrev Code.NoWatch {α : Type} (p : Code α) : Prop := p.Calls Csiebox.NoWatch

abbrev Code.WatchFree {α : Type} (p : Code α) : Prop := p.Calls Csiebox.WatchFree

theorem watchFree_of {α : Type} {p : Code α} (hp : p.NoWatch) : p.WatchFree :=
  calls_mono (fun op hop => by cases op <;> trivial) hp

theorem noWatch_sends : SendCalls Csiebox.NoWatch :=
  ⟨fun _ _ => trivial, fun _ => trivial, fun _ => trivial, fun _ _ => trivial, fun _ => trivial⟩

theorem noWatch_pulls : PullCalls Csiebox.NoWatch :=
  ⟨noWatch_sends, fun _ => trivial, fun _ => trivial, fun _ _ => trivial, fun _ _ => trivial,
    fun _ _ => trivial, fun _ _ => trivial, fun _ _ _ => trivial⟩

end Calls

section Tables

variable {F : Type} [Posix F] {I : Inotify F} {md5 : Bytes → Mem 16} {client client' client'' : Client}
  {f f' : F} {h : Host F} {l : Link UInt8}

-- The table has some directory's spelling for the descriptor.
def Spelled (client : Client) (wd : Nat) : Prop := ∃ p, client.eventPath wd = watchName p

-- The table is right, and has not lost a spelling.
structure Inotify.Grows (I : Inotify F) (client client' : Client) (f : F) : Prop where
  named : I.Named client' f
  spelled : ∀ wd, Spelled client wd → Spelled client' wd

omit [Posix F] in
theorem Inotify.Grows.trans (hfirst : I.Grows client client' f) (hnext : I.Grows client' client'' f') :
    I.Grows client client'' f' :=
  ⟨hnext.named, fun wd hwd => hnext.spelled wd (hfirst.spelled wd hwd)⟩

omit [Posix F] in
theorem Inotify.Named.grows (hnamed : I.Named client f) (hsame : client'.eventPath = client.eventPath) :
    I.Grows client client' f :=
  ⟨⟨hnamed.1, by rw [hsame]; exact hnamed.2⟩, fun wd hwd => by rwa [Spelled, hsame]⟩

omit [Posix F] in
theorem Inotify.Named.passes (hnamed : I.Named client f) (hpasses : I.Passes f f') : I.Named client f' :=
  ⟨hpasses.1, fun wd p hwd => hnamed.2 wd p (hpasses.2 wd p hwd)⟩

theorem keeps_named (hI : I.Lawful) (client : Client) :
    Keeps host WatchFree fun h : Host F => I.Named client h.fs :=
  fun op h r h' hop hnamed hexec => hnamed.passes (hI.keeps op h r h' hop hnamed.1 hexec)

-- A part of the client that does not touch the table.
theorem ends_named {α : Type} {p : Code α} (hI : I.Lawful) (hp : p.WatchFree)
    (hnamed : I.Named client h.fs) : Ends host p h l fun _ h' _ => I.Named client h'.fs :=
  ends_calls (keeps_named hI client) hp hnamed

theorem ends_checkSize {fits : Prop} [Decidable fits] {Q : Unit → Host F → Link UInt8 → Prop}
    (hQ : fits → Q () h l) : Ends host (checkSize fits) h l Q := by
  by_cases hfits : fits
  · rw [checkSize_pos hfits]
    exact along_ret (hQ hfits)
  · rw [checkSize_neg hfits]
    exact along_halt trivial

-- A watch is added and spelled.
theorem ends_watch (hI : I.Lawful) (p : Path) (hnamed : I.Named client h.fs) :
    Ends host (do
      let wd ← sys (.addWatch (watchName p))
      setEventPath client wd (watchName p)) h l fun client' h' _ => I.Grows client client' h'.fs := by
  refine along_bind (along_sys trivial fun wd h' hexec => ?_)
  refine along_bind (ends_checkSize fun hfits => along_ret ?_)
  obtain ⟨hadded, rfl⟩ := Prod.mk.inj (Option.some.inj hexec)
  obtain ⟨hok, hgiven⟩ := hI.adds h.fs p wd _ hnamed.1 (Prod.ext hadded rfl) hfits.1
  refine ⟨⟨hok, fun n q hn => ?_⟩, fun n hn => ?_⟩
  · rcases hgiven n q hn with ⟨rfl, rfl⟩ | ⟨hne, hold⟩
    · exact Function.update_self ..
    · exact (Function.update_of_ne hne ..).trans (hnamed.2 n q hold)
  · by_cases hwd : n = wd.toNat
    · subst hwd
      exact ⟨p, Function.update_self ..⟩
    · obtain ⟨q, hq⟩ := hn
      exact ⟨q, (Function.update_of_ne hwd ..).trans hq⟩

theorem ends_clientEntry (hI : I.Lawful) {st cpath : Bytes} (hnamed : I.Named client h.fs) :
    Ends host (clientEntry md5 st cpath client) h l fun client' h' _ => I.Grows client client' h'.fs := by
  rw [clientEntry]
  split_ifs
  · refine along_bind ((ends_named hI (watchFree_of calls_clientKnownLinks) hnamed).mono
      fun _ h l hnamed => ?_)
    refine along_bind ((ends_named hI (watchFree_of (calls_syncFile noWatch_sends)) hnamed).mono
      fun _ h l hnamed => ?_)
    exact along_bind (ends_checkSize fun _ => along_ret (hnamed.grows rfl))
  · refine along_bind ((ends_named hI (watchFree_of (calls_syncFile noWatch_sends)) hnamed).mono
      fun _ h l hnamed => ?_)
    exact along_ret (hnamed.grows rfl)

end Tables

section Traversal

variable {F : Type} [Posix F] {I : Inotify F} {md5 : Bytes → Mem 16} {client : Client}
  {h : Host F} {l : Link UInt8}

-- What can be called an entry's name.
theorem validName_of_entry {name : CStr} (hname : name.val ≠ [] ∧ slash ∉ name.val)
    (hshown : name.val.head? ≠ some dot) : ValidName name.val :=
  ⟨hname.1, fun hdot => hshown (by rw [hdot]; rfl), fun hdots => hshown (by rw [hdots]; rfl), hname.2,
    name.property⟩

theorem watchName_le_traverseName {p : Path} (hp : (watchName p).length < pathMax) :
    (watchName p).length ≤ (traverseName p).length := by
  by_cases hroot : p = []
  · subst hroot
    exact Nat.le_succ 1
  · rw [traverseName_eq hroot hp]

theorem ends_clientVisit (hI : I.Lawful) {p : Path} (hp : (watchName p).length < pathMax)
    {descend : Bytes → Client → Code Client}
    (hdescend : ∀ n, (watchName (p ++ [n])).length < pathMax → ∀ client (h : Host F) l,
      I.Named client h.fs → Ends host (descend (watchName (p ++ [n])) client) h l
        fun client' h' _ => I.Grows client client' h'.fs)
    (entries : List Dirent)
    (hentries : ∀ entry ∈ entries, entry.name.val ≠ [] ∧ slash ∉ entry.name.val ∧
      (traverseName p).length + 1 + entry.name.val.length < pathMax)
    (hnamed : I.Named client h.fs) :
    Ends host (clientVisit md5 descend (traverseName p) entries client) h l
      fun client' h' _ => I.Grows client client' h'.fs := by
  induction entries generalizing client h l with
  | nil => exact along_ret (hnamed.grows rfl)
  | cons entry entries ih =>
      have hrest := fun e he => hentries e (List.mem_cons_of_mem _ he)
      obtain ⟨hname, hslash, hlen⟩ := hentries entry (List.mem_cons_self ..)
      rw [clientVisit]
      by_cases hhidden : entry.name.val.head? = some dot
      · rw [if_pos hhidden]
        exact ih hrest hnamed
      · rw [if_neg hhidden]
        obtain ⟨n, hn⟩ : ∃ n : Name, n.val = entry.name.val :=
          ⟨⟨_, validName_of_entry ⟨hname, hslash⟩ hhidden⟩, rfl⟩
        have hfit : (watchName (p ++ [n])).length < pathMax := by
          have hle := watchName_le_traverseName hp
          rw [watchName_length_snoc, hn]
          omega
        rw [← hn, clientPath_traverseName p n hfit]
        have hlstat : Code.WatchFree (sys (.lstat (watchName (p ++ [n])))) := calls_sys trivial
        refine along_bind ((ends_named hI hlstat hnamed).mono fun found h l hnamed => ?_)
        cases found with
        | none => exact along_ret (hnamed.grows rfl)
        | some st =>
            refine along_bind ((ends_clientEntry hI hnamed).mono fun client₁ h l hfirst => ?_)
            refine along_bind (Along.mono ?_ fun client₂ h l hnext =>
              (ih hrest hnext.named).mono fun _ _ _ hlast => (hfirst.trans hnext).trans hlast)
            split_ifs with hdir
            · rw [watchAndDescend, ← bind_assoc]
              refine along_bind ((ends_watch hI (p ++ [n]) hfirst.named).mono
                fun client₂ h l hwatched => ?_)
              exact (hdescend n hfit client₂ h l hwatched.named).mono fun _ _ _ hbelow =>
                hwatched.trans hbelow
            · exact along_ret (hfirst.named.grows rfl)

theorem ends_clientTraverse (hI : I.Lawful) (hentries : ∀ f, I.ok f → EntriesFit traverseName f)
    (depth : Nat) {p : Path} (hp : (watchName p).length < pathMax) (hnamed : I.Named client h.fs) :
    Ends host (clientTraverseFile md5 depth (traverseName p) client) h l
      fun client' h' _ => I.Grows client client' h'.fs := by
  induction depth generalizing p client h l with
  | zero => exact along_halt trivial
  | succ depth ih =>
      rw [clientTraverseFile]
      refine along_bind (along_sys trivial fun found h' hexec => ?_)
      obtain ⟨hfound, rfl⟩ := Prod.mk.inj (Option.some.inj hexec)
      cases found with
      | none => exact along_ret (hnamed.grows rfl)
      | some entries =>
          refine ends_clientVisit hI hp (fun n hfit client h l hnamed => ?_) entries
            (hentries h.fs hnamed.1 p entries hfound) hnamed
          rw [← traverseName_eq (by simp) hfit]
          exact ih hfit hnamed

end Traversal

end Csiebox
