import Mathlib.Data.List.TakeWhile

/-! Words of a list: its maximal runs without separators. -/

namespace Words

section
variable {α : Type} {sep : α → Bool}

def words (sep : α → Bool) (s : List α) : List (List α) :=
  (s.splitOnP sep).filter (fun word => !word.isEmpty)

/-- What follows the first word. -/
def afterWord (sep : α → Bool) (s : List α) : List α :=
  (s.dropWhile sep).dropWhile (fun c => !sep c)

def IsGap (sep : α → Bool) (gap : List α) : Prop := ∀ c ∈ gap, sep c = true

structure IsWord (sep : α → Bool) (word : List α) : Prop where
  nonempty : word ≠ []
  inside : ∀ c ∈ word, sep c = false

/-- A list that no word runs into. -/
def Parted (sep : α → Bool) (s : List α) : Prop := ∀ c ∈ s.head?, sep c = true

@[simp] theorem words_nil : words sep [] = [] := rfl

theorem words_append_sep (s rest : List α) {c : α} (parts : sep c = true) :
    words sep (s ++ c :: rest) = words sep s ++ words sep rest := by
  simp only [words, List.splitOnP_append_cons s rest parts, List.filter_append]

theorem words_cons_sep (s : List α) {c : α} (parts : sep c = true) :
    words sep (c :: s) = words sep s := words_append_sep [] s parts

theorem words_gap_append {gap : List α} (isGap : IsGap sep gap) (s : List α) :
    words sep (gap ++ s) = words sep s := by
  induction gap with
  | nil => rfl
  | cons c gap ih =>
    have parts : sep c = true := isGap c List.mem_cons_self
    rw [List.cons_append, words_cons_sep _ parts]
    exact ih (fun other member => isGap other (List.mem_cons_of_mem c member))

theorem isWord_of_all {word : List α} (nonempty : word.isEmpty = false)
    (inside : word.all (fun c => !sep c) = true) : IsWord sep word where
  nonempty := List.isEmpty_eq_false_iff.mp nonempty
  inside := fun c member => Bool.not_eq_true' _ |>.mp (List.all_eq_true.mp inside c member)

theorem words_word {word : List α} (isWord : IsWord sep word) : words sep word = [word] := by
  have whole : word.splitOnP sep = [word] := List.splitOnP_eq_singleton isWord.inside
  have kept : (!word.isEmpty) = true := by simpa using isWord.nonempty
  simp only [words, whole, List.filter_cons, kept, if_true, List.filter_nil]

theorem words_word_append {word rest : List α} (isWord : IsWord sep word)
    (parted : Parted sep rest) : words sep (word ++ rest) = word :: words sep rest := by
  cases rest with
  | nil => rw [List.append_nil, words_word isWord, words_nil]
  | cons c rest =>
    have parts : sep c = true := parted c rfl
    rw [words_append_sep word rest parts, words_word isWord, words_cons_sep rest parts]
    rfl

theorem afterWord_eq {gap word rest : List α} (isGap : IsGap sep gap) (isWord : IsWord sep word)
    (parted : Parted sep rest) : afterWord sep (gap ++ word ++ rest) = rest := by
  obtain ⟨c, word', rfl⟩ := List.exists_cons_of_ne_nil isWord.nonempty
  have outside : ¬ sep c = true := by simp [isWord.inside c List.mem_cons_self]
  have skipped : (gap ++ (c :: word') ++ rest).dropWhile sep = (c :: word') ++ rest := by
    rw [List.append_assoc, List.dropWhile_append_of_pos isGap, List.cons_append,
      List.dropWhile_cons_of_neg outside]
  have passed : ∀ x ∈ c :: word', (!sep x) = true := by
    intro x member
    rw [isWord.inside x member]
    rfl
  rw [afterWord, skipped, List.dropWhile_append_of_pos passed]
  cases rest with
  | nil => rfl
  | cons d rest => rw [List.dropWhile_cons_of_neg (by simp [parted d rfl])]

theorem parted_dropWhile (sep : α → Bool) (s : List α) : Parted sep (s.dropWhile (fun c => !sep c)) := by
  intro c head
  have stop := List.head?_dropWhile_not (fun c => !sep c) s
  rw [Option.mem_def.mp head] at stop
  simpa using stop

/-- The first word of a list, with the gap before it and what follows it. -/
theorem exists_of_words_cons {s word : List α} {more : List (List α)}
    (found : words sep s = word :: more) :
    ∃ gap rest, s = gap ++ word ++ rest ∧ IsGap sep gap ∧ IsWord sep word ∧ Parted sep rest ∧
      words sep rest = more := by
  have gapped : IsGap sep (s.takeWhile sep) := fun c member => List.mem_takeWhile_imp member
  have first := List.takeWhile_append_dropWhile (p := fun c => !sep c) (l := s.dropWhile sep)
  have whole := List.takeWhile_append_dropWhile (p := sep) (l := s)
  have parted := parted_dropWhile sep (s.dropWhile sep)
  rw [← whole, words_gap_append gapped] at found
  cases run : (s.dropWhile sep).takeWhile (fun c => !sep c) with
  | nil =>
    -- An empty run ends at a separator, where `dropWhile` would not have stopped.
    rw [run, List.nil_append] at first
    rw [first] at parted
    cases left : s.dropWhile sep with
    | nil => rw [left] at found; exact absurd found (by simp)
    | cons c rest =>
      have stop := List.head?_dropWhile_not sep s
      rw [left] at stop parted
      have parts : sep c = true := parted c rfl
      simp [parts] at stop
  | cons c run' =>
    have isWord : IsWord sep (c :: run') := by
      refine ⟨List.cons_ne_nil c run', fun x member => ?_⟩
      rw [← run] at member
      simpa using List.mem_takeWhile_imp member
    rw [run] at first
    rw [← first, words_word_append isWord parted] at found
    obtain ⟨rfl, rfl⟩ := List.cons.inj found
    refine ⟨s.takeWhile sep, _, ?_, gapped, isWord, parted, rfl⟩
    rw [List.append_assoc, first, whole]

theorem words_ne_nil {s : List α} {c : α} (member : c ∈ s) (outside : sep c = false) :
    words sep s ≠ [] := by
  intro empty
  induction s with
  | nil => cases member
  | cons d s ih =>
    by_cases parts : sep d = true
    · rw [words_cons_sep s parts] at empty
      rcases List.mem_cons.mp member with rfl | later
      · rw [outside] at parts; cases parts
      · exact ih later empty
    · have whole := List.takeWhile_append_dropWhile (p := fun c => !sep c) (l := d :: s)
      have isWord : IsWord sep ((d :: s).takeWhile (fun c => !sep c)) := by
        refine ⟨?_, fun x inRun => by simpa using List.mem_takeWhile_imp inRun⟩
        rw [List.takeWhile_cons_of_pos (by simpa using parts)]
        exact List.cons_ne_nil _ _
      rw [← whole, words_word_append isWord (parted_dropWhile sep _)] at empty
      cases empty

theorem length_le_of_mem {s word : List α} (member : word ∈ words sep s) : word.length ≤ s.length := by
  generalize listed : words sep s = all at member
  induction all generalizing s with
  | nil => cases member
  | cons first more ih =>
    obtain ⟨gap, rest, rfl, _, _, _, later⟩ := exists_of_words_cons listed
    simp only [List.length_append]
    rcases List.mem_cons.mp member with rfl | inMore
    · omega
    · have shorter := ih later inMore
      omega

end

end Words
