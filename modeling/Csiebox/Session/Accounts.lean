import Csiebox.Config
import Csiebox.Session.Login

namespace Csiebox.Session

open CBytes Program Prog

section AccountFile

abbrev comma : UInt8 := 0x2c

abbrev newline : UInt8 := 0x0a

-- A field of an account line.
structure IsField (size : Nat) (bs : Bytes) : Prop where
  nonempty : bs ≠ []
  short : bs.length ≤ size
  noComma : comma ∉ bs
  noNewline : newline ∉ bs

structure Account where
  user : Bytes
  passwd : Bytes
  userField : IsField userLenMax user
  passwdField : IsField passwdLenMax passwd

-- The lines of an account file, `none` a blank one; `terminated` says that the last
-- line ends with a newline too.
structure AccountFile where
  lines : List (Option Account)
  terminated : Bool
  distinct : (lines.filterMap (Option.map Account.user)).Nodup

def accountLine : Option Account → Bytes
  | none => []
  | some a => a.user ++ comma :: a.passwd

def accountText : List (Option Account) → Bool → Bytes
  | [], _ => []
  | [line], terminated => accountLine line ++ (if terminated then [newline] else [])
  | line :: next :: rest, terminated =>
      accountLine line ++ newline :: accountText (next :: rest) terminated

def AccountFile.text (file : AccountFile) : Bytes := accountText file.lines file.terminated

def AccountFile.Lists (file : AccountFile) (user passwd : Bytes) : Prop :=
  ∃ a, some a ∈ file.lines ∧ a.user = user ∧ a.passwd = passwd

-- The password that is left of a line when its last byte is cut off; `after` are
-- the lines behind it.
def shownPasswd (terminated : Bool) (after : List (Option Account)) (passwd : Bytes) : Bytes :=
  cString (if after.isEmpty && !terminated then passwd.dropLast else passwd)

-- The password that the lines in front of the first blank one show for a user.
def shownFor (terminated : Bool) (user : Bytes) : List (Option Account) → Option Bytes
  | [] => none
  | none :: _ => none
  | some a :: after =>
      if a.user = user ∧ shownPasswd terminated after a.passwd ≠ [] then
        some (shownPasswd terminated after a.passwd)
      else shownFor terminated user after

end AccountFile

section Lines

variable {xs rest : Bytes}

theorem lines_cons (hnone : newline ∉ xs) (rest : Bytes) :
    lines (xs ++ newline :: rest) = (xs ++ [newline]) :: lines rest := by
  induction xs with
  | nil => rw [List.nil_append, lines, if_pos (by rfl)]; rfl
  | cons b xs ih =>
      rw [List.mem_cons, not_or] at hnone
      rw [List.cons_append, lines, if_neg (Ne.symm hnone.1), ih hnone.2]
      rfl

theorem lines_single (hne : xs ≠ []) (hnone : newline ∉ xs) : lines xs = [xs] := by
  induction xs with
  | nil => exact absurd rfl hne
  | cons b xs ih =>
      rw [List.mem_cons, not_or] at hnone
      rw [lines, if_neg (Ne.symm hnone.1)]
      cases xs with
      | nil => rfl
      | cons c xs => rw [ih (by simp) hnone.2]

theorem strtok_field (hne : xs ≠ []) (hnone : comma ∉ xs) (rest : Bytes) :
    strtok (xs ++ comma :: rest) = some (xs, rest) := by
  obtain ⟨b, bs, rfl⟩ := List.exists_cons_of_ne_nil hne
  have hall : ∀ c ∈ b :: bs, decide (c ≠ 0x2c) = true := by
    intro c hc
    have hcomma : c ≠ comma := fun h => hnone (h ▸ hc)
    simpa using hcomma
  have hfirst : b ≠ 0x2c := by simpa using hall b List.mem_cons_self
  rw [strtok, List.cons_append, List.dropWhile_cons_of_neg (by simpa using hfirst)]
  simp only [← List.cons_append]
  rw [List.takeWhile_append_of_pos hall, List.dropWhile_append_of_pos hall]
  simp [comma]

theorem strtok_last (hne : xs ≠ []) (hnone : comma ∉ xs) : strtok xs = some (xs, []) := by
  obtain ⟨b, bs, rfl⟩ := List.exists_cons_of_ne_nil hne
  have hall : ∀ c ∈ b :: bs, decide (c ≠ 0x2c) = true := by
    intro c hc
    have hcomma : c ≠ comma := fun h => hnone (h ▸ hc)
    simpa using hcomma
  have hfirst : b ≠ 0x2c := by simpa using hall b List.mem_cons_self
  rw [strtok, List.dropWhile_cons_of_neg (by simpa using hfirst)]
  simp only
  rw [List.takeWhile_eq_self_iff.mpr hall, List.dropWhile_eq_nil_iff.mpr hall]
  rfl

theorem cString_append_of_noNul (hnul : (0 : UInt8) ∉ xs) (rest : Bytes) :
    cString (xs ++ rest) = xs ++ cString rest := by
  apply List.takeWhile_append_of_pos
  intro b hb
  have hne : b ≠ 0 := fun h => hnul (h ▸ hb)
  simpa using hne

theorem cString_append_of_nul (hnul : (0 : UInt8) ∈ xs) (rest : Bytes) :
    cString (xs ++ rest) = cString xs := by
  induction xs with
  | nil => simp at hnul
  | cons b xs ih =>
      simp only [cString, List.cons_append, List.takeWhile_cons] at ih ⊢
      split_ifs with hb
      · have hin : (0 : UInt8) ∈ xs := by
          rcases List.mem_cons.mp hnul with rfl | hin
          · simp at hb
          · exact hin
        rw [ih hin]
      · rfl

end Lines

section Search

variable {md5 : Bytes → Mem 16} {user info : Bytes}

-- One line with its last byte cut off.
theorem findAccount_line {a : Account} {line shown : Bytes} {rest : List Bytes}
    (hline : line.take (line.length - 1) = a.user ++ comma :: shown) (hcomma : comma ∉ shown)
    (hnul : (0 : UInt8) ∉ user) :
    ∃ info', (info' = info ∨ info' = overlay info user) ∧
      findAccount md5 user info (line :: rest) =
        if a.user = user ∧ cString shown ≠ [] then
          (true, (overlay info user).take userLenMax ++ (md5 (cString shown)).val ++
            (overlay info user).drop (userLenMax + 16))
        else findAccount md5 user info' rest := by
  have hlong : ¬line.length ≤ 1 := by
    intro hle
    have hlen := congrArg List.length hline
    simp only [List.length_take, List.length_append, List.length_cons] at hlen
    omega
  rw [findAccount, if_neg hlong, hline]
  by_cases hin : (0 : UInt8) ∈ a.user
  · -- the line ends inside the name
    have hne : a.user ≠ user := fun h => hnul (h ▸ hin)
    have hshort : comma ∉ cString a.user :=
      fun h => a.userField.noComma ((List.takeWhile_prefix _).subset h)
    have hother : ¬(a.user = user ∧ cString shown ≠ []) := fun h => hne h.1
    rw [cString_append_of_nul hin]
    by_cases hempty : cString a.user = []
    · refine ⟨info, .inl rfl, ?_⟩
      rw [hempty, if_neg hother]
      rfl
    · rw [strtok_last hempty hshort]
      by_cases huser : user = cString a.user
      · refine ⟨overlay info user, .inr rfl, ?_⟩
        simp only [if_pos huser, if_neg hother]
        rfl
      · refine ⟨info, .inl rfl, ?_⟩
        simp only [if_neg huser, if_neg hother]
  · rw [cString_append_of_noNul hin, cString, List.takeWhile_cons_of_pos (by decide), ← cString,
      strtok_field a.userField.nonempty a.userField.noComma]
    by_cases huser : user = a.user
    · refine ⟨overlay info user, .inr rfl, ?_⟩
      simp only [if_pos huser]
      have hrest : comma ∉ cString shown := fun h => hcomma ((List.takeWhile_prefix _).subset h)
      by_cases hempty : cString shown = []
      · rw [hempty, if_neg (by simp)]
        rfl
      · rw [strtok_last hempty hrest, if_pos ⟨huser.symm, hempty⟩]
    · refine ⟨info, .inl rfl, ?_⟩
      simp only [if_neg huser]
      rw [if_neg (fun h => huser h.1.symm)]

theorem accountText_cons {terminated : Bool} {after : List (Option Account)}
    (hcut : (after.isEmpty && !terminated) = false) (line : Option Account) :
    accountText (line :: after) terminated =
      accountLine line ++ newline :: accountText after terminated := by
  cases after with
  | nil =>
      obtain rfl : terminated = true := by simpa using hcut
      rfl
  | cons next rest => rfl

theorem accountText_cut {terminated : Bool} {after : List (Option Account)}
    (hcut : (after.isEmpty && !terminated) = true) (line : Option Account) :
    accountText (line :: after) terminated = accountLine line := by
  obtain ⟨hempty, hterminated⟩ := Bool.and_eq_true_iff.mp hcut
  obtain rfl := List.isEmpty_iff.mp hempty
  obtain rfl : terminated = false := by simpa using hterminated
  exact List.append_nil _

theorem newline_notMem_line (a : Account) : newline ∉ accountLine (some a) := by
  rw [accountLine, List.mem_append, List.mem_cons]
  rintro (h | h | h)
  · exact a.userField.noNewline h
  · exact absurd h (by decide)
  · exact a.passwdField.noNewline h

-- The password a line shows, and the search of the rest.
theorem findAccount_account (md5 : Bytes → Mem 16) (info : Bytes) (terminated : Bool)
    (after : List (Option Account)) (a : Account)
    (hnul : (0 : UInt8) ∉ user) :
    ∃ info', (info' = info ∨ info' = overlay info user) ∧
      findAccount md5 user info (lines (accountText (some a :: after) terminated)) =
        if a.user = user ∧ shownPasswd terminated after a.passwd ≠ [] then
          (true, (overlay info user).take userLenMax ++
            (md5 (shownPasswd terminated after a.passwd)).val ++
            (overlay info user).drop (userLenMax + 16))
        else findAccount md5 user info' (lines (accountText after terminated)) := by
  cases hcut : after.isEmpty && !terminated with
  | false =>
      rw [accountText_cons hcut, lines_cons (newline_notMem_line a), shownPasswd, hcut, if_neg (by simp)]
      refine findAccount_line ?_ a.passwdField.noComma hnul
      rw [List.length_append, List.length_singleton, Nat.add_sub_cancel, List.take_left]
      rfl
  | true =>
      obtain ⟨hempty, -⟩ := Bool.and_eq_true_iff.mp hcut
      obtain rfl := List.isEmpty_iff.mp hempty
      have hne : accountLine (some a) ≠ [] := by simp [accountLine]
      rw [accountText_cut hcut, lines_single hne (newline_notMem_line a), shownPasswd, hcut, if_pos rfl]
      refine findAccount_line ?_ (fun h => a.passwdField.noComma (List.dropLast_subset _ h)) hnul
      rw [← List.dropLast_eq_take, accountLine, List.dropLast_append_of_ne_nil (by simp),
        List.dropLast_cons_of_ne_nil a.passwdField.nonempty]

theorem findAccount_blank (terminated : Bool) (after : List (Option Account)) :
    findAccount md5 user info (lines (accountText (none :: after) terminated)) = (false, info) := by
  cases hcut : after.isEmpty && !terminated with
  | false =>
      rw [accountText_cons hcut, accountLine, lines_cons (by simp), findAccount, if_pos (by simp)]
  | true =>
      rw [accountText_cut hcut]
      rfl

-- The whole search: it ends at the first blank line.
theorem findAccount_text (md5 : Bytes → Mem 16) (terminated : Bool) (ls : List (Option Account))
    (hnul : (0 : UInt8) ∉ user)
    (hinfo : overlay info user = overlay (zeros sizeofAccount) user) :
    (∀ p, shownFor terminated user ls = some p →
      findAccount md5 user info (lines (accountText ls terminated)) =
        (true, (overlay (zeros sizeofAccount) user).take userLenMax ++ (md5 p).val ++
          (overlay (zeros sizeofAccount) user).drop (userLenMax + 16))) ∧
      (shownFor terminated user ls = none →
        (findAccount md5 user info (lines (accountText ls terminated))).1 = false) := by
  induction ls generalizing info with
  | nil => exact ⟨by simp [shownFor], fun _ => rfl⟩
  | cons line after ih =>
      cases line with
      | none =>
          rw [findAccount_blank]
          exact ⟨by simp [shownFor], fun _ => rfl⟩
      | some a =>
          obtain ⟨info', hinfo', hfind⟩ := findAccount_account md5 info terminated after a hnul
          rw [hfind, shownFor]
          by_cases hshown : a.user = user ∧ shownPasswd terminated after a.passwd ≠ []
          · rw [if_pos hshown, if_pos hshown, hinfo]
            refine ⟨?_, by simp⟩
            rintro p hp
            rw [Option.some.inj hp]
          · rw [if_neg hshown, if_neg hshown]
            apply ih
            rcases hinfo' with rfl | rfl
            · exact hinfo
            · rw [overlay_twice, hinfo]

end Search

section Shows

-- The lines in front of the first blank one show this pair: the password is what is
-- left of the line's, and not empty.
def AccountFile.Shows (file : AccountFile) (user passwd : Bytes) : Prop :=
  passwd ≠ [] ∧ ∃ before a after, file.lines = before ++ some a :: after ∧ none ∉ before ∧
    a.user = user ∧ shownPasswd file.terminated after a.passwd = passwd

variable {terminated : Bool} {user passwd : Bytes} {ls : List (Option Account)}

theorem shownFor_eq_some_iff (hdistinct : (ls.filterMap (Option.map Account.user)).Nodup) :
    shownFor terminated user ls = some passwd ↔
      passwd ≠ [] ∧ ∃ before a after, ls = before ++ some a :: after ∧ none ∉ before ∧
        a.user = user ∧ shownPasswd terminated after a.passwd = passwd := by
  induction ls with
  | nil => simp [shownFor]
  | cons line after ih =>
      cases line with
      | none =>
          refine ⟨by simp [shownFor], ?_⟩
          rintro ⟨-, before, a, rest, hsplit, hblank, -⟩
          cases before with
          | nil => simp at hsplit
          | cons first before =>
              obtain ⟨rfl, -⟩ := List.cons_eq_cons.mp hsplit
              simp at hblank
      | some a =>
          have hnodup : a.user ∉ after.filterMap (Option.map Account.user) ∧
              (after.filterMap (Option.map Account.user)).Nodup := List.nodup_cons.mp hdistinct
          have hlater : ∀ b, some b ∈ after → b.user ≠ a.user := by
            intro b hb hsame
            apply hnodup.1
            rw [← hsame]
            exact List.mem_filterMap.mpr ⟨some b, hb, rfl⟩
          rw [shownFor]
          split_ifs with hshown
          · constructor
            · intro h
              rw [← Option.some.inj h]
              exact ⟨hshown.2, [], a, after, rfl, by simp, hshown.1, rfl⟩
            · rintro ⟨-, before, b, rest, hsplit, -, huser, hpasswd⟩
              cases before with
              | nil =>
                  obtain ⟨hab, rfl⟩ := List.cons_eq_cons.mp hsplit
                  rw [Option.some.inj hab, hpasswd]
              | cons first before =>
                  obtain ⟨-, rfl⟩ := List.cons_eq_cons.mp hsplit
                  exact absurd (huser.trans hshown.1.symm) (hlater b (by simp))
          · rw [ih hnodup.2]
            constructor
            · rintro ⟨hne, before, b, rest, rfl, hblank, huser, hpasswd⟩
              exact ⟨hne, some a :: before, b, rest, rfl, by simpa using hblank, huser, hpasswd⟩
            · rintro ⟨hne, before, b, rest, hsplit, hblank, huser, hpasswd⟩
              cases before with
              | nil =>
                  obtain ⟨hab, rfl⟩ := List.cons_eq_cons.mp hsplit
                  rw [← Option.some.inj hab] at huser hpasswd
                  exact absurd ⟨huser, hpasswd ▸ hne⟩ hshown
              | cons first before =>
                  obtain ⟨-, rfl⟩ := List.cons_eq_cons.mp hsplit
                  exact ⟨hne, before, b, rest, rfl, fun h => hblank (List.mem_cons_of_mem _ h), huser,
                    hpasswd⟩

end Shows

end Csiebox.Session
