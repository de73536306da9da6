import Csiebox.Pull.Theorems
import Csiebox.Traverse.Lemmas
import Csiebox.Traverse.Returns
import Mathlib.Data.List.Nodup

namespace Csiebox.Traverse

open CBytes Program Prog Pull Session

section Bookkeeping

variable {len inode : Nat} {hl : List HardLink} {us vs : List Visit} {items : List Item}

theorem linked_of_severalLinks {st : Bytes} (h : severalLinks st = true) : linked st = true := by
  simp only [severalLinks, linked, Bool.and_eq_true, decide_eq_true_eq, bne_iff_ne] at h ⊢
  exact ⟨h.1, by omega⟩

-- Inodes that are met once are never found in the table.
theorem itemsOf_fresh (hfresh : Fresh hl vs) :
    itemsOf len hl vs = vs.map fun v => .content v.st.val (v.path.drop len) := by
  induction vs generalizing hl with
  | nil => rfl
  | cons v vs ih =>
      obtain ⟨hv, hvs⟩ := (fresh_append len).mp (show Fresh hl ([v] ++ vs) from hfresh)
      have hnone : itemsFor len hl v = [.content v.st.val (v.path.drop len)] := by
        rw [itemsFor]
        split_ifs with hlinked
        · have hempty : known hl (stIno v.st.val) = [] := by
            rw [known, List.filter_eq_nil_iff]
            intro h hh heq
            refine hv.new h hh ?_
            simpa [inodes, hlinked] using heq
          rw [hempty]
          rfl
        · rfl
      rw [itemsOf, hnone, ih hvs]
      rfl

theorem contentsOf_map (len inode : Nat) (vs : List Visit) :
    contentsOf inode (vs.map fun v => .content v.st.val (v.path.drop len)) = pathsOf len inode vs := by
  induction vs with
  | nil => rfl
  | cons v vs ih =>
      rw [List.map_cons, contentsOf, List.filterMap_cons, ← contentsOf, ih, pathsOf, pathsOf,
        List.filter_cons]
      split_ifs with hinode <;> simp [hinode]

theorem hardlinksOf_map (len inode : Nat) (vs : List Visit) :
    hardlinksOf inode (vs.map fun v => .content v.st.val (v.path.drop len)) = [] := by
  simp [hardlinksOf]

-- No inode is met under two paths.
theorem pathsOf_length_le (honce : (inodes vs).Nodup) : (pathsOf len inode vs).length ≤ 1 := by
  have hcount := List.nodup_iff_count_le_one.mp honce inode
  rw [inodes, List.count, List.countP_map, List.countP_filter] at hcount
  rw [pathsOf, List.length_map, ← List.countP_eq_length_filter]
  refine le_trans (List.countP_mono_left fun v _ hv => ?_) hcount
  simp only [Bool.and_eq_true, beq_iff_eq, Function.comp] at hv ⊢
  exact ⟨hv.2, linked_of_severalLinks hv.1⟩

theorem bookkept_of_once (honce : (inodes vs).Nodup) :
    Bookkept len vs (itemsOf len [] vs) (linksOf len vs) := by
  have hfresh : Fresh [] vs := ⟨honce, by simp⟩
  have hpaths : ∀ inode, (pathsOf len inode vs).length ≤ 1 := fun inode => pathsOf_length_le honce
  rw [itemsOf_fresh hfresh]
  constructor
  · intro inode
    rw [contentsOf_map, List.take_of_length_le (hpaths inode)]
  · intro inode
    have htail : (pathsOf len inode vs).tail = [] := by
      rw [← List.length_eq_zero_iff, List.length_tail]
      have := hpaths inode
      omega
    rw [hardlinksOf_map, htail]
    exact .refl _
  · intro inode link hlink
    rw [hardlinksOf_map] at hlink
    simp at hlink
  · intro cnt _
    rw [List.map_take, linksOf_inodes]
    exact honce.sublist (List.take_sublist ..)

theorem Bookkept.once (h : Bookkept len vs items (linksOf len vs)) : (inodes vs).Nodup := by
  have hall := h.distinct _ le_rfl
  rwa [List.take_length, linksOf_inodes] at hall

end Bookkeeping

-- What the messages of a call and its table are.
theorem Call.Returns.sends {F : Type} [Posix F] (hF : Steady F) {md5 : Bytes → Mem 16} {c : Call}
    {h : Host F}
    {l : Link UInt8} (hopen : l.closed = false) {ws : List (Word UInt8)} {hl : List HardLink}
    (hreturns : c.Returns md5 h l ws hl) :
    itemsIn ws = itemsOf c.len [] (c.visits h.fs) ∧ hl = linksOf c.len (c.visits h.fs) := by
  cases c with
  | push depth dirName client =>
      obtain ⟨client', h', l', hrun, rfl⟩ := hreturns
      have hvisited := says_clientTraverseFile hF depth dirName { client with hl := [] } (by simp [Short])
        (.refl h.fs) hopen _ _ _ _ hrun
      exact ⟨by rw [itemsIn, hvisited.items]; rfl, hvisited.table.trans (List.nil_append _)⟩
  | pull len connFd depth dirName =>
      obtain ⟨h', l', hrun⟩ := hreturns
      have hvisited := says_serverTraverseFile hF.toLocking depth dirName [] (by simp [Short]) (.refl h.fs)
        hopen _ _ _ _ hrun
      exact ⟨by rw [itemsIn, hvisited.items]; rfl, hvisited.table.trans (List.nil_append _)⟩

-- Either traversal comes to its end with the right bookkeeping exactly where nothing stops
-- it and no file with several links is met twice.
theorem bookkept_iff {F : Type} [Posix F] (hF : Steady F) (md5 : Bytes → Mem 16) (c : Call) (h : Host F)
    (l : Link UInt8) (hopen : l.closed = false) :
    (∃ ws hl, c.Returns md5 h l ws hl ∧ Bookkept c.len (c.visits h.fs) (itemsIn ws) hl) ↔
      c.GetsThrough md5 h.fs l = true ∧ (inodes (c.visits h.fs)).Nodup := by
  constructor
  · rintro ⟨ws, hl, hreturns, hbook⟩
    rw [(hreturns.sends hF hopen).2] at hbook
    exact ⟨(Call.returns_iff c).mp ⟨ws, hl, hreturns⟩, hbook.once⟩
  · rintro ⟨hthrough, honce⟩
    obtain ⟨ws, hl, hreturns⟩ := (Call.returns_iff c).mpr hthrough
    obtain ⟨hitems, rfl⟩ := hreturns.sends hF hopen
    refine ⟨ws, _, hreturns, ?_⟩
    rw [hitems]
    exact bookkept_of_once honce

section Instances

-- The watches are no part of the tree.
theorem sameTree_watches (f : TreeFs) (watches : List (Nat × Path)) (nextWd : Nat) :
    SameTree f { f with watches, nextWd } := by
  have hresolve : ∀ path, ({ f with watches, nextWd } : TreeFs).resolve path = f.resolve path :=
    TreeFs.resolve_congr rfl fun _ => rfl
  constructor
  · intro path
    simp only [Posix.lstat, hresolve]
    rfl
  · intro path
    simp only [Posix.opendir, hresolve]
    rfl

theorem treeFs_steady : Steady TreeFs where
  setlkw f f' fp fl granted hlock := by
    obtain ⟨-, rfl⟩ := Prod.mk.inj (Option.some.inj hlock)
    exact .refl f
  fclose f fp := .refl f
  addWatch f path := by
    simp only [Posix.addWatch, TreeFs.addWatchAt]
    split
    · split_ifs
      · exact .refl f
      · split
        · exact .refl f
        · exact sameTree_watches f _ _
    · exact .refl f
  linkFits := treeFs_undisturbed.linkFits

-- The server's traversal, whose requests the client answers with OK.
def pullCall : Call := .pull (exampleHome.length + 1) 5 pathMax exampleHome

def pullAnswers : Link UInt8 := ⟨zeros 36, false⟩

-- The client's one, whose files the server does not want to have.
def pushCall : Call := .push pathMax dotSlash exampleClient

def pushAnswers : Link UInt8 := ⟨zeros 72, false⟩

theorem pullCall_getsThrough {h : Host TreeFs}
    (hend : (evaluate host 400
      ⟨serverTraverseFile md5OfX (exampleHome.length + 1) 5 pathMax exampleHome [], h,
      pullAnswers⟩).2.result.isSome = true) : pullCall.GetsThrough md5OfX h.fs pullAnswers = true := by
  obtain ⟨hl, hresult⟩ := Option.isSome_iff_exists.mp hend
  obtain ⟨ws, hrun⟩ := (exec_result hresult).spoken
  exact (Call.returns_iff pullCall).mp ⟨ws, hl, _, _, hrun⟩

theorem pushCall_getsThrough {h : Host TreeFs}
    (hend : (evaluate host 400 ⟨clientTraverseFile md5OfX pathMax dotSlash exampleClient, h,
      pushAnswers⟩).2.result.isSome = true) : pushCall.GetsThrough md5OfX h.fs pushAnswers = true := by
  obtain ⟨client, hresult⟩ := Option.isSome_iff_exists.mp hend
  obtain ⟨ws, hrun⟩ := (exec_result hresult).spoken
  exact (Call.returns_iff pushCall).mp ⟨ws, client.hl, client, _, _, hrun, rfl⟩

-- One file under the name a in the home directory and the name b above it.
def homeWithOneName : Host TreeFs :=
  { homeWithLinks with fs := { homeWithLinks.fs with
      entries := [([⟨[0x73], validName_s⟩], 0), ([⟨[0x73], validName_s⟩, ⟨[0x75], validName_u⟩], 1),
        ([⟨[0x73], validName_s⟩, ⟨[0x75], validName_u⟩, ⟨[0x61], validName_a⟩], 2),
        ([⟨[0x62], validName_b⟩], 2)] } }

theorem validName_hidden : ValidName [dot, 0x62] := by decide +kernel

-- One symbolic link under the names a and .b, and a directory s with another one in it.
def clientWithOneName : Host TreeFs :=
  exampleHost { exampleFs [] (fun i => if i = 1 then .dir else .link [0x78]) with
    entries := [([⟨[0x61], validName_a⟩], 0), ([⟨[dot, 0x62], validName_hidden⟩], 0),
      ([⟨[0x73], validName_s⟩], 1), ([⟨[0x73], validName_s⟩, ⟨[0x62], validName_b⟩], 2)]
    nextInode := 3 }

-- One symbolic link under the names a and b at the top of the client's tree.
def clientWithTwoNames : Host TreeFs :=
  exampleHost { exampleFs [] (fun _ => .link [0x78]) with
    entries := [([⟨[0x61], validName_a⟩], 0), ([⟨[0x62], validName_b⟩], 0)]
    nextInode := 1 }

theorem bookkept_one_name :
    (∃ ws hl, pullCall.Returns md5OfX homeWithOneName pullAnswers ws hl ∧
      Bookkept pullCall.len (pullCall.visits homeWithOneName.fs) (itemsIn ws) hl) ∧
    ∃ ws hl, pushCall.Returns md5OfX clientWithOneName pushAnswers ws hl ∧
      Bookkept pushCall.len (pushCall.visits clientWithOneName.fs) (itemsIn ws) hl :=
  ⟨(bookkept_iff treeFs_steady md5OfX pullCall homeWithOneName pullAnswers rfl).mpr
      ⟨pullCall_getsThrough (by decide +kernel), by decide +kernel⟩,
    (bookkept_iff treeFs_steady md5OfX pushCall clientWithOneName pushAnswers rfl).mpr
      ⟨pushCall_getsThrough (by decide +kernel), by decide +kernel⟩⟩

-- Both names are sent as files, and the table has the inode twice.
theorem two_names_not_bookkept :
    Steady TreeFs ∧
      (∃ ws hl, pullCall.Returns md5OfX homeWithLinks pullAnswers ws hl ∧
        ¬Bookkept pullCall.len (pullCall.visits homeWithLinks.fs) (itemsIn ws) hl) ∧
      ∃ ws hl, pushCall.Returns md5OfX clientWithTwoNames pushAnswers ws hl ∧
        ¬Bookkept pushCall.len (pushCall.visits clientWithTwoNames.fs) (itemsIn ws) hl := by
  refine ⟨treeFs_steady, ?_, ?_⟩
  · obtain ⟨ws, hl, hreturns⟩ := (Call.returns_iff pullCall).mpr
      (pullCall_getsThrough (h := homeWithLinks) (by decide +kernel))
    refine ⟨ws, hl, hreturns, fun hbook => homeWithLinks_twice ?_⟩
    rw [(hreturns.sends treeFs_steady rfl).2] at hbook
    exact hbook.once
  · obtain ⟨ws, hl, hreturns⟩ := (Call.returns_iff pushCall).mpr
      (pushCall_getsThrough (h := clientWithTwoNames) (by decide +kernel))
    refine ⟨ws, hl, hreturns, fun hbook => ?_⟩
    rw [(hreturns.sends treeFs_steady rfl).2] at hbook
    exact absurd hbook.once (by decide +kernel)

end Instances

end Csiebox.Traverse
