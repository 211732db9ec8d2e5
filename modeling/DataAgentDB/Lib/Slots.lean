import Mathlib.Data.List.Induction
import Mathlib.Logic.Function.Basic

/-! One slot for each hash value. A pair of key and value overwrites its slot whatever is there, or
is put in it only when the slot is empty or has the same key. -/

namespace Slots

variable {κ ν β : Type*}

/-- The key that a slot has is the key of each pair with its hash. -/
def NoCollision (hash : κ → β) (slots : β → Option (κ × ν)) (pairs : List (κ × ν)) : Prop :=
  ∀ pair ∈ pairs, (∀ other ∈ pairs, hash other.1 = hash pair.1 → other.1 = pair.1) ∧
    ∀ entry, slots (hash pair.1) = some entry → entry.1 = pair.1

theorem NoCollision.front {hash : κ → β} {slots : β → Option (κ × ν)} {front back : List (κ × ν)}
    (apart : NoCollision hash slots (front ++ back)) : NoCollision hash slots front := by
  intro pair member
  obtain ⟨others, initial⟩ := apart pair (List.mem_append_left _ member)
  exact ⟨fun other within => others other (List.mem_append_left _ within), initial⟩

variable [DecidableEq β]

def overwrite (hash : κ → β) (slots : β → Option (κ × ν)) (pair : κ × ν) : β → Option (κ × ν) :=
  Function.update slots (hash pair.1) (some pair)

/-- What a slot holds after a pair with its hash was put. -/
def merge [DecidableEq κ] (old : Option (κ × ν)) (pair : κ × ν) : κ × ν :=
  match old with
  | none => pair
  | some entry => if entry.1 = pair.1 then pair else entry

def upsert [DecidableEq κ] (hash : κ → β) (slots : β → Option (κ × ν)) (pair : κ × ν) : β → Option (κ × ν) :=
  Function.update slots (hash pair.1) (some (merge (slots (hash pair.1)) pair))

/-- A slot holds what it held at first, or the last pair with its hash. -/
theorem foldl_overwrite_cases (hash : κ → β) (slots : β → Option (κ × ν)) (pairs : List (κ × ν)) (p : β) :
    (pairs.foldl (overwrite hash) slots p = slots p ∧ ∀ pair ∈ pairs, hash pair.1 ≠ p) ∨
    ∃ before pair after, pairs = before ++ pair :: after ∧ hash pair.1 = p ∧
      (∀ later ∈ after, hash later.1 ≠ p) ∧ pairs.foldl (overwrite hash) slots p = some pair := by
  induction pairs using List.reverseRecOn with
  | nil => exact .inl ⟨rfl, fun _ member => (nomatch member)⟩
  | append_singleton pairs pair ih =>
    rw [List.foldl_append, List.foldl_cons, List.foldl_nil, overwrite]
    by_cases here : hash pair.1 = p
    · subst here
      exact .inr ⟨pairs, pair, [], rfl, rfl, fun _ member => (nomatch member), Function.update_self _ _ _⟩
    · rw [Function.update_of_ne (Ne.symm here)]
      rcases ih with ⟨same, others⟩ | ⟨before, last, after, split, hashed, later, same⟩
      · refine .inl ⟨same, fun other member => ?_⟩
        rcases List.mem_append.mp member with earlier | last
        · exact others other earlier
        · rwa [List.mem_singleton.mp last]
      · refine .inr ⟨before, last, after ++ [pair], by rw [split]; simp, hashed, fun other member => ?_, same⟩
        rcases List.mem_append.mp member with earlier | last
        · exact later other earlier
        · rwa [List.mem_singleton.mp last]

variable {hash : κ → β} {slots : β → Option (κ × ν)}

/-- Without collisions, what a slot has under the hash of a pair is of the key of that pair. -/
theorem key_of_overwritten {pairs : List (κ × ν)} {pair entry : κ × ν}
    (apart : NoCollision hash slots (pairs ++ [pair]))
    (found : pairs.foldl (overwrite hash) slots (hash pair.1) = some entry) : entry.1 = pair.1 := by
  obtain ⟨others, initial⟩ := apart pair (by simp)
  rcases foldl_overwrite_cases hash slots pairs (hash pair.1) with
    ⟨same, -⟩ | ⟨before, last, after, rfl, hashed, -, same⟩
  · exact initial entry (same ▸ found)
  · rw [same] at found
    cases found
    exact others entry (by simp) hashed

/-- Without collisions the two ways fill the slots alike. -/
theorem foldl_upsert_eq [DecidableEq κ] {pairs : List (κ × ν)} (apart : NoCollision hash slots pairs) :
    pairs.foldl (upsert hash) slots = pairs.foldl (overwrite hash) slots := by
  induction pairs using List.reverseRecOn with
  | nil => rfl
  | append_singleton pairs pair ih =>
    simp only [List.foldl_append, List.foldl_cons, List.foldl_nil, ih apart.front]
    have merged : merge (pairs.foldl (overwrite hash) slots (hash pair.1)) pair = pair := by
      cases found : pairs.foldl (overwrite hash) slots (hash pair.1) with
      | none => rfl
      | some entry => simp only [merge, key_of_overwritten apart found, ↓reduceIte]
    rw [upsert, overwrite, merged]

/-- A slot that was filled at first keeps its key under puts. -/
theorem foldl_upsert_key [DecidableEq κ] {pairs : List (κ × ν)} {p : β} {entry : κ × ν}
    (filled : slots p = some entry) :
    ∃ value, pairs.foldl (upsert hash) slots p = some (entry.1, value) := by
  induction pairs generalizing slots entry with
  | nil => exact ⟨entry.2, filled⟩
  | cons pair pairs ih =>
    rw [List.foldl_cons]
    by_cases here : hash pair.1 = p
    · subst here
      have merged : (merge (some entry) pair).1 = entry.1 := by
        by_cases same : entry.1 = pair.1
        · rw [merge, if_pos same, same]
        · rw [merge, if_neg same]
      have step : upsert hash slots pair (hash pair.1) = some (merge (some entry) pair) := by
        rw [upsert, Function.update_self, filled]
      rw [← merged]
      exact ih step
    · exact ih ((Function.update_of_ne (Ne.symm here) _ _).trans filled)

end Slots
