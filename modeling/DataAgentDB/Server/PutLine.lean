import DataAgentDB.Lib.Words
import DataAgentDB.Server.Exchange

/-! The two scans of a PUT line. `handle_client` takes the key from the words of the line and
the value from the line's first two blanks; they agree on the lines this module describes. -/

namespace DataAgentDB.Server
open Storage Words

theorem splitWs_eq (s : Bytes) : splitWs s = words isSpace s := by
  unfold splitWs words
  congr 1
  funext word
  cases word <;> rfl

theorem findIdx?_blank (before rest : Bytes) (absent : 32 ∉ before) :
    (before ++ 32 :: rest).findIdx? (fun other => other = 32) = some before.length := by
  have passed : before.findIdx? (fun other => other = 32) = none := by
    rw [List.findIdx?_eq_none_iff]
    intro c member
    have other : c ≠ 32 := fun same => absent (same ▸ member)
    simpa using other
  rw [List.findIdx?_append, passed, List.findIdx?_cons]
  simp

theorem find_none {line : Bytes} {pos : Nat} (absent : 32 ∉ line.drop pos) : find line 32 pos = none := by
  have passed : (line.drop pos).findIdx? (fun other => other = 32) = none := by
    rw [List.findIdx?_eq_none_iff]
    intro c member
    have other : c ≠ 32 := fun same => absent (same ▸ member)
    simpa using other
  rw [find, passed, Option.map_none]

theorem find_first (before rest : Bytes) (absent : 32 ∉ before) :
    find (before ++ 32 :: rest) 32 0 = some before.length := by
  rw [find, List.drop_zero, findIdx?_blank before rest absent, Option.map_some, Nat.zero_add]

theorem drop_past (before rest : Bytes) (c : UInt8) :
    (before ++ c :: rest).drop (before.length + 1) = rest := by
  rw [List.drop_append, List.drop_of_length_le (by omega), Nat.add_sub_cancel_left]
  rfl

namespace Session

theorem putValue_two (before between rest : Bytes) (first : 32 ∉ before) (second : 32 ∉ between) :
    putValue (before ++ 32 :: (between ++ 32 :: rest)) = rest := by
  have next : find (before ++ 32 :: (between ++ 32 :: rest)) 32 (before.length + 1) =
      some (before.length + 1 + between.length) := by
    rw [find, drop_past, findIdx?_blank between rest second, Option.map_some]
  simp only [putValue, find_first before _ first, next]
  rw [show before.length + 1 + between.length + 1 = before.length + 1 + (between.length + 1) by omega,
    ← List.drop_drop, drop_past, drop_past]

theorem putValue_one (before rest : Bytes) (first : 32 ∉ before) (second : 32 ∉ rest) :
    putValue (before ++ 32 :: rest) = [] := by
  have next : find (before ++ 32 :: rest) 32 (before.length + 1) = none :=
    find_none (by rwa [drop_past])
  simp only [putValue, find_first before rest first, next]

theorem putValue_none (line : Bytes) (absent : 32 ∉ line) : putValue line = [] := by
  have nowhere : find line 32 0 = none := find_none (by rwa [List.drop_zero])
  simp only [putValue, nowhere]

end Session

/-- A line up to its first blank, when it has one. -/
theorem exists_blank {line : Bytes} (member : 32 ∈ line) :
    ∃ before rest, line = before ++ 32 :: rest ∧ 32 ∉ before := by
  obtain ⟨before, rest, split, absent⟩ := List.eq_append_cons_of_mem member
  exact ⟨before, rest, split, absent⟩

/-- The line past its second word. -/
def pastKey (line : Bytes) : Bytes := afterWord isSpace (afterWord isSpace line)

/-- The line up to the end of its second word. -/
def uptoKey (line : Bytes) : Bytes := line.take (line.length - (pastKey line).length)

/-- What begins one character after the end of the second word. -/
def afterKey (line : Bytes) : Bytes := (pastKey line).drop 1

/-- One blank stands before the end of the second word, and one right after it; other
separators there are no blanks. -/
def OneBlankApart (line : Bytes) : Prop :=
  (uptoKey line).count 32 = 1 ∧ (pastKey line).head? = some 32

instance (line : Bytes) : Decidable (OneBlankApart line) := inferInstanceAs (Decidable (_ ∧ _))

theorem splitWs_cons {line word : Bytes} {more : List Bytes} (found : splitWs line = word :: more) :
    ∃ before, line = before ++ afterWord isSpace line ∧ Parted isSpace (afterWord isSpace line) ∧
      splitWs (afterWord isSpace line) = more := by
  rw [splitWs_eq] at found
  obtain ⟨gap, rest, whole, isGap, isWord, parted, later⟩ := exists_of_words_cons found
  have past : afterWord isSpace line = rest := by rw [whole, afterWord_eq isGap isWord parted]
  rw [past, splitWs_eq]
  exact ⟨gap ++ word, whole, parted, later⟩

/-- A line with three words goes on after the second with a separator, and the third word. -/
theorem pastKey_spec {line word key third : Bytes} {more : List Bytes}
    (found : splitWs line = word :: key :: third :: more) :
    line = uptoKey line ++ pastKey line ∧
      ∃ c, pastKey line = c :: afterKey line ∧ splitWs (afterKey line) = third :: more := by
  obtain ⟨before, whole, _, later⟩ := splitWs_cons found
  obtain ⟨between, rest, parted, last⟩ := splitWs_cons later
  have split : line = (before ++ between) ++ pastKey line := by
    rw [List.append_assoc, pastKey, ← rest, ← whole]
  have upto : uptoKey line = before ++ between := by
    have lengths := congrArg List.length split
    rw [List.length_append] at lengths
    rw [uptoKey, show line.length - (pastKey line).length = (before ++ between).length by omega]
    conv_lhs => rw [split]
    exact List.take_left
  refine ⟨by rw [upto]; exact split, ?_⟩
  cases past : pastKey line with
  | nil => rw [pastKey] at past; rw [past] at last; cases last
  | cons c tail =>
    have after : afterKey line = tail := by rw [afterKey, past]; rfl
    have parts : isSpace c = true := parted c (by rw [← pastKey, past]; rfl)
    refine ⟨c, by rw [after], ?_⟩
    rw [← pastKey, past, splitWs_eq, words_cons_sep tail parts] at last
    rw [after, splitWs_eq]
    exact last

theorem putValue_eq_afterKey_iff {line word key third : Bytes} {more : List Bytes}
    (found : splitWs line = word :: key :: third :: more) :
    Session.putValue line = afterKey line ↔ OneBlankApart line := by
  obtain ⟨whole, c, past, later⟩ := pastKey_spec found
  constructor
  · intro same
    have nonempty : afterKey line ≠ [] := by
      intro empty
      rw [empty] at later
      cases later
    by_cases blank : 32 ∈ line
    · obtain ⟨before, rest, split, first⟩ := exists_blank blank
      by_cases again : 32 ∈ rest
      · obtain ⟨between, tail, split', second⟩ := exists_blank again
        rw [split'] at split
        have value := Session.putValue_two before between tail first second
        rw [← split, same] at value
        -- Both decompositions of the line end in the same suffix, one character after a mark.
        have whole' : line = uptoKey line ++ c :: tail := by
          rw [value] at past
          rwa [past] at whole
        have marks : (before ++ 32 :: between) ++ [32] = uptoKey line ++ [c] := by
          apply (List.append_left_inj tail).mp
          calc (before ++ 32 :: between) ++ [32] ++ tail
              = line := by rw [split]; simp
            _ = uptoKey line ++ [c] ++ tail := by rw [List.append_assoc]; exact whole'
        obtain ⟨upto, last⟩ := List.append_inj' marks rfl
        obtain ⟨rfl, -⟩ := List.cons.inj last
        refine ⟨?_, by rw [past]; rfl⟩
        rw [← upto, List.count_append, List.count_cons_self, List.count_eq_zero.mpr first,
          List.count_eq_zero.mpr second]
      · rw [split, Session.putValue_one before rest first again, ← split] at same
        exact absurd same.symm nonempty
    · rw [Session.putValue_none line blank] at same
      exact absurd same.symm nonempty
  · rintro ⟨one, head⟩
    rw [past, List.head?_cons, Option.some.injEq] at head
    subst head
    have member : 32 ∈ uptoKey line := List.count_pos_iff.mp (by omega)
    obtain ⟨before, between, split, first⟩ := exists_blank member
    have second : 32 ∉ between := by
      rw [split, List.count_append, List.count_cons_self] at one
      exact List.count_eq_zero.mp (by omega)
    have value := Session.putValue_two before between (afterKey line) first second
    rwa [← List.cons_append, ← List.append_assoc, ← split, ← past, ← whole] at value

theorem calls_doPut (s : Session) {line word key third : Bytes} {more : List Bytes} (results : Results)
    (open_ : s.inTxn = true) :
    calls (s.doPut line (word :: key :: third :: more) results).log =
      calls s.log ++ [.put key (Session.putValue line)] := by
  have asked := Exchanged.put s key (Session.putValue line) results
  simp only [Session.doPut, open_, if_true]
  split
  · exact (asked.andSend _).calls
  · exact ((asked.withState _ _ _).andSend _).calls
  · exact (asked.andSend _).calls

theorem dispatch_put (s : Session) {line word : Bytes} {more : List Bytes} (results : Results)
    (tokens : splitWs line = word :: more) (command : upper word = bytes "PUT") :
    s.dispatch line results = s.doPut line (word :: more) results := by
  have start : bytes "PUT" ≠ bytes "START" := by decide
  have get : bytes "PUT" ≠ bytes "GET" := by decide
  simp only [Session.dispatch, tokens, command, if_neg start, if_neg get, if_true]

/-- In an open transaction the key of a PUT line is its second word, and its value begins one
character after that word exactly when no further blank comes before. -/
theorem put_parses_iff (s : Session) {line word key third : Bytes} {more : List Bytes} (results : Results)
    (tokens : splitWs line = word :: key :: third :: more) (command : upper word = bytes "PUT")
    (open_ : s.inTxn = true) :
    calls (s.dispatch line results).log = calls s.log ++ [.put key (afterKey line)] ↔
      OneBlankApart line := by
  rw [dispatch_put s results tokens command, calls_doPut s results open_,
    ← putValue_eq_afterKey_iff tokens]
  simp

/-- A tab before the command and a value with blanks of its own. -/
theorem put_parses_inner_blanks :
    let s := (connected []).start ⟨7, 1, .RCOK, [], .RCOK, .RCOK⟩
    calls (s.dispatch (bytes "\tput k  a b ") ⟨7, 1, .RCOK, [], .RCOK, .RCOK⟩).log =
      calls s.log ++ [.put (bytes "k") (bytes " a b ")] := by
  have tokens : splitWs (bytes "\tput k  a b ") = [bytes "put", bytes "k", bytes "a", bytes "b"] := by
    decide +kernel
  exact (put_parses_iff _ _ tokens (by decide +kernel) (by decide +kernel)).mpr (by decide +kernel)

/-- A second blank before the key hands the key to the value. -/
theorem put_second_blank_splits :
    ¬ ∀ (s : Session) (line word key third : Bytes) (more : List Bytes) (results : Results),
      splitWs line = word :: key :: third :: more → upper word = bytes "PUT" → s.inTxn = true →
        calls (s.dispatch line results).log = calls s.log ++ [.put key (afterKey line)] := by
  intro parses
  have passed := parses ((connected []).start ⟨7, 1, .RCOK, [], .RCOK, .RCOK⟩) (bytes "PUT  k v")
    (bytes "PUT") (bytes "k") (bytes "v") [] ⟨7, 1, .RCOK, [], .RCOK, .RCOK⟩
    (by decide +kernel) (by decide +kernel) (by decide +kernel)
  exact absurd passed (by decide +kernel)

end DataAgentDB.Server
