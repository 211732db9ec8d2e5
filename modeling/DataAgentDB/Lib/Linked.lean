import Mathlib.Data.List.Nodup
import Mathlib.Tactic.Common

/-! Chains of cells linked by a next pointer. `next a` is absent where there is no cell, and
`some none` where the cell's pointer is null. -/

namespace Linked

variable {A : Type*}

/-- Following the pointers from `start` visits the cells of the list and then stands at `stop`. -/
def Path (next : A → Option (Option A)) : Option A → List A → Option A → Prop
  | start, [], stop => start = stop
  | start, a :: rest, stop => start = some a ∧ ∃ after, next a = some after ∧ Path next after rest stop

/-- The pointers end in null after the cells of the list. -/
def Chain (next : A → Option (Option A)) (start : Option A) (list : List A) : Prop :=
  Path next start list none

variable {next next' : A → Option (Option A)} {start stop middle : Option A} {list front back : List A}

theorem path_append : Path next start (front ++ back) stop ↔
    ∃ middle, Path next start front middle ∧ Path next middle back stop := by
  induction front generalizing start with
  | nil => simp [Path]
  | cons a rest ih =>
    simp only [List.cons_append, Path, ih]
    constructor
    · rintro ⟨here, after, follows, middle, first, second⟩
      exact ⟨middle, ⟨here, after, follows, first⟩, second⟩
    · rintro ⟨middle, ⟨here, after, follows, first⟩, second⟩
      exact ⟨here, after, follows, middle, first, second⟩

/-- Where a path stops is decided by where it starts and the cells it visits. -/
theorem Path.stop_unique {stop' : Option A} (first : Path next start list stop)
    (second : Path next start list stop') : stop = stop' := by
  induction list generalizing start with
  | nil => exact first.symm.trans second
  | cons a rest ih =>
    obtain ⟨_, after, follows, first⟩ := first
    obtain ⟨_, after', follows', second⟩ := second
    cases follows.symm.trans follows'
    exact ih first second

/-- A path only reads the pointers of the cells it visits. -/
theorem Path.frame (path : Path next start list stop) (same : ∀ a ∈ list, next' a = next a) :
    Path next' start list stop := by
  induction list generalizing start with
  | nil => exact path
  | cons a rest ih =>
    obtain ⟨here, after, follows, path⟩ := path
    exact ⟨here, after, (same a List.mem_cons_self).trans follows,
      ih path (fun b member => same b (List.mem_cons_of_mem _ member))⟩

theorem Path.is_cell (path : Path next start list stop) {a : A} (member : a ∈ list) :
    next a ≠ none := by
  induction list generalizing start with
  | nil => cases member
  | cons b rest ih =>
    obtain ⟨_, after, follows, path⟩ := path
    rcases List.mem_cons.mp member with rfl | later
    · simp [follows]
    · exact ih path later

theorem Chain.unique {list' : List A} (first : Chain next start list) (second : Chain next start list') :
    list = list' := by
  induction list generalizing start list' with
  | nil =>
    cases list' with
    | nil => rfl
    | cons b rest =>
      obtain ⟨here, _⟩ := second
      cases first.symm.trans here
  | cons a rest ih =>
    obtain ⟨here, after, follows, first⟩ := first
    cases list' with
    | nil => cases here.symm.trans second
    | cons b rest' =>
      obtain ⟨here', after', follows', second⟩ := second
      cases here.symm.trans here'
      cases follows.symm.trans follows'
      rw [ih first second]

/-- A chain that ends visits no cell twice. -/
theorem Chain.nodup (chain : Chain next start list) : list.Nodup := by
  induction list generalizing start with
  | nil => exact .nil
  | cons a rest ih =>
    obtain ⟨here, after, follows, chain⟩ := chain
    refine List.nodup_cons.mpr ⟨?_, ih chain⟩
    intro again
    obtain ⟨before, later, rfl⟩ := List.mem_iff_append.mp again
    obtain ⟨middle, _, second⟩ := path_append.mp chain
    have whole : Chain next (some a) (a :: (before ++ a :: later)) := ⟨rfl, after, follows, chain⟩
    have part : Chain next (some a) (a :: later) := second.1 ▸ second
    have lengths := congrArg List.length (whole.unique part)
    simp only [List.length_cons, List.length_append] at lengths
    omega

/-- A new cell linked from the last one. -/
theorem Chain.snoc {last a : A} (chain : Chain next start (list ++ [last]))
    (same : ∀ b ∈ list, next' b = next b) (link : next' last = some (some a)) (final : next' a = some none) :
    Chain next' start (list ++ [last] ++ [a]) := by
  obtain ⟨middle, first, here, after, follows, -⟩ := path_append.mp chain
  simp only [List.append_assoc, List.singleton_append]
  exact path_append.mpr ⟨middle, first.frame same, here, some a, link, rfl, none, final, rfl⟩

end Linked
