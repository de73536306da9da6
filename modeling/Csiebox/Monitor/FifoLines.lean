import Csiebox.Monitor.FifoPath

namespace Csiebox.Monitor

open CBytes Program

-- The text of lines `key=value`.
def linesText (pairs : List (List Char × List Char)) : List Char :=
  pairs.flatMap fun e => e.1 ++ '=' :: (e.2 ++ ['\n'])

-- What `trim` leaves of the lines, apart from the first key.
def lastTrimmed : List (List Char × List Char) → List (List Char × List Char)
  | [] => []
  | [e] => [(e.1, e.2.rdropWhile isTrimmed)]
  | e :: e' :: pairs => e :: lastTrimmed (e' :: pairs)

-- Keys and values of lines have no line end, keys no `=`.
def LinesOk (pairs : List (List Char × List Char)) : Prop :=
  ∀ e ∈ pairs, '=' ∉ e.1 ∧ '\n' ∉ e.1 ∧ '\n' ∉ e.2

section Trimming

variable {pairs : List (List Char × List Char)}

theorem linesText_cons (e : List Char × List Char) (pairs : List (List Char × List Char)) :
    linesText (e :: pairs) = (e.1 ++ '=' :: e.2) ++ '\n' :: linesText pairs := by
  simp [linesText]

theorem equals_mem_linesText (hne : pairs ≠ []) : '=' ∈ linesText pairs := by
  cases pairs with
  | nil => exact absurd rfl hne
  | cons e pairs => simp [linesText]

theorem splitOn_trimmed_end (hne : pairs ≠ []) (hok : LinesOk pairs) :
    ((linesText pairs).rdropWhile isTrimmed).splitOn '\n' =
      (lastTrimmed pairs).map fun e => e.1 ++ '=' :: e.2 := by
  induction pairs with
  | nil => exact absurd rfl hne
  | cons e pairs ih =>
      have he := hok e (by simp)
      cases pairs with
      | nil =>
          have htext : linesText [e] = e.1 ++ '=' :: (e.2 ++ ['\n']) := by simp [linesText]
          have hend : (e.2 ++ ['\n']).rdropWhile isTrimmed = e.2.rdropWhile isTrimmed := by
            rw [List.rdropWhile_concat_pos _ _ _ (by decide)]
          have hline : '\n' ∉ e.1 ++ '=' :: e.2.rdropWhile isTrimmed := by
            intro hmem
            simp only [List.mem_append, List.mem_cons] at hmem
            obtain hmem | hmem | hmem := hmem
            · exact he.2.1 hmem
            · exact absurd hmem (by decide)
            · exact he.2.2 ((List.rdropWhile_prefix isTrimmed e.2).subset hmem)
          rw [htext, rdropWhile_stops (by decide), hend, List.splitOn_eq_singleton hline]
          rfl
      | cons e' pairs =>
          have hline : '\n' ∉ e.1 ++ '=' :: e.2 := by
            simp [he.2.1, he.2.2]
          have htail := ih (by simp) fun e'' he'' => hok e'' (by simp [he''])
          have hmem : '=' ∈ '\n' :: linesText (e' :: pairs) := by
            simp [equals_mem_linesText (List.cons_ne_nil e' pairs)]
          have hend : ('\n' :: linesText (e' :: pairs)).rdropWhile isTrimmed =
              '\n' :: (linesText (e' :: pairs)).rdropWhile isTrimmed :=
            rdropWhile_append_of_mem (x := '=') (by decide) (equals_mem_linesText (by simp)) ['\n']
          rw [linesText_cons, rdropWhile_append_of_mem (x := '=') (by decide) hmem, hend,
            List.splitOn_append_cons_self_of_not_mem hline, htail]
          rfl

-- `trim` also takes the white space in front of the first key.
theorem splitOn_trimmed (e : List Char × List Char) (hok : LinesOk (e :: pairs)) :
    (((linesText (e :: pairs)).rdropWhile isTrimmed).dropWhile isTrimmed).splitOn '\n' =
      (lastTrimmed ((e.1.dropWhile isTrimmed, e.2) :: pairs)).map fun e => e.1 ++ '=' :: e.2 := by
  have he := hok e (by simp)
  have hok' : LinesOk ((e.1.dropWhile isTrimmed, e.2) :: pairs) := by
    intro e' he'
    obtain rfl | hmem := List.mem_cons.mp he'
    · have hsub := (List.dropWhile_suffix (l := e.1) isTrimmed).subset
      exact ⟨fun h => he.1 (hsub h), fun h => he.2.1 (hsub h), he.2.2⟩
    · exact hok e' (by simp [hmem])
  have hfront : ∀ key : List Char, (linesText ((key, e.2) :: pairs)).rdropWhile isTrimmed =
      key ++ '=' :: (e.2 ++ '\n' :: linesText pairs).rdropWhile isTrimmed := by
    intro key
    have htext : linesText ((key, e.2) :: pairs) = key ++ '=' :: (e.2 ++ '\n' :: linesText pairs) := by
      simp [linesText]
    rw [htext, rdropWhile_stops (by decide)]
  have hwhole := hfront e.1
  rw [Prod.mk.eta] at hwhole
  rw [← splitOn_trimmed_end (by simp) hok', hwhole, dropWhile_stops (by decide), hfront]

theorem lastTrimmed_append (front : List (List Char × List Char)) (e : List Char × List Char)
    (back : List (List Char × List Char)) :
    lastTrimmed (front ++ e :: back) = front ++ lastTrimmed (e :: back) := by
  induction front with
  | nil => rfl
  | cons e' front ih =>
      cases front with
      | nil => rfl
      | cons e'' front =>
          rw [List.cons_append, List.cons_append, lastTrimmed, ← List.cons_append, ih]
          rfl

theorem lastTrimmed_cons (e : List Char × List Char) (back : List (List Char × List Char)) :
    lastTrimmed (e :: back) =
      (e.1, if back = [] then e.2.rdropWhile isTrimmed else e.2) :: lastTrimmed back := by
  cases back with
  | nil => rfl
  | cons e' back => rfl

theorem keys_lastTrimmed (pairs : List (List Char × List Char)) :
    (lastTrimmed pairs).map Prod.fst = pairs.map Prod.fst := by
  induction pairs with
  | nil => rfl
  | cons e pairs ih =>
      cases pairs with
      | nil => rfl
      | cons e' pairs =>
          rw [lastTrimmed, List.map_cons, ih]
          rfl

end Trimming

section Lookup

variable {tmp : List Char → Option (List Char)} {key : List Char}

theorem readLine_line (e : List Char × List Char) (hkey : '=' ∉ e.1) :
    readLine tmp (e.1 ++ '=' :: e.2) = Function.update tmp e.1 (some (e.2.takeWhile (· ≠ '='))) := by
  have hsplit : (e.1 ++ '=' :: e.2).splitOn '=' = e.1 :: e.2.splitOn '=' :=
    List.splitOn_append_cons_self_of_not_mem hkey _
  have hvalue : (e.1 :: e.2.splitOn '=')[1]? = some (e.2.takeWhile (· ≠ '=')) := by
    rw [List.getElem?_cons_succ, ← List.head?_eq_getElem?, head?_splitOn]
  rw [readLine, hsplit, hvalue]
  rfl

theorem foldl_readLine_other {pairs : List (List Char × List Char)} (hok : ∀ e ∈ pairs, '=' ∉ e.1)
    (hother : key ∉ pairs.map Prod.fst) :
    ((pairs.map fun e => e.1 ++ '=' :: e.2).foldl readLine tmp) key = tmp key := by
  induction pairs generalizing tmp with
  | nil => rfl
  | cons e pairs ih =>
      simp only [List.map_cons, List.mem_cons, not_or] at hother
      rw [List.map_cons, List.foldl_cons, ih (fun e' he' => hok e' (by simp [he'])) hother.2,
        readLine_line e (hok e (by simp)), Function.update_of_ne hother.1]

-- The last line of a key tells its value, up to the next `=`.
theorem foldl_readLine_last {front back : List (List Char × List Char)} {e : List Char × List Char}
    (hok : ∀ e' ∈ front ++ e :: back, '=' ∉ e'.1) (hback : e.1 ∉ back.map Prod.fst) :
    (((front ++ e :: back).map fun e => e.1 ++ '=' :: e.2).foldl readLine tmp) e.1 =
      some (e.2.takeWhile (· ≠ '=')) := by
  rw [List.map_append, List.foldl_append, List.map_cons, List.foldl_cons,
    foldl_readLine_other (fun e' he' => hok e' (by simp [he'])) hback,
    readLine_line e (hok e (by simp)), Function.update_self]

end Lookup

end Csiebox.Monitor
