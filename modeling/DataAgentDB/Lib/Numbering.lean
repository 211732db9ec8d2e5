import Mathlib.Data.List.Nodup
import Mathlib.Data.List.Forall2
import Mathlib.Logic.Function.Basic

/-! Items numbered in the order in which they are added, each found by its name. -/

namespace Numbering

variable {α : Type*} {names : List α} {number : α → Option Nat}

/-- A name leads to an item with that name, and each item's name leads to one. -/
structure Numbers (names : List α) (number : α → Option Nat) : Prop where
  named : ∀ (name : α) (i : Nat), number name = some i → names[i]? = some name
  known : ∀ name ∈ names, ∃ i, number name = some i

theorem Numbers.nil : Numbers ([] : List α) (fun _ => none) := ⟨nofun, nofun⟩

/-- The item that is added last is the one that is found by its name. -/
theorem Numbers.snoc [DecidableEq α] (numbers : Numbers names number) (name : α) :
    Numbers (names ++ [name]) (Function.update number name (some names.length)) := by
  constructor
  · intro other i found
    by_cases same : other = name
    · subst same
      rw [Function.update_self] at found
      cases found
      exact List.getElem?_concat_length
    · rw [Function.update_of_ne same] at found
      have before := numbers.named other i found
      rwa [List.getElem?_append_left (List.getElem?_eq_some_iff.mp before).1]
  · intro other member
    by_cases same : other = name
    · subst same
      exact ⟨_, Function.update_self _ _ _⟩
    · rw [Function.update_of_ne same]
      rcases List.mem_append.mp member with before | last
      · exact numbers.known other before
      · exact absurd (List.mem_singleton.mp last) same

/-- Each item is found by its name exactly when no two have the same. -/
theorem Numbers.eq_some_iff (numbers : Numbers names number) (apart : names.Nodup) (name : α) (i : Nat) :
    number name = some i ↔ names[i]? = some name := by
  constructor
  · exact numbers.named name i
  · intro found
    obtain ⟨j, known⟩ := numbers.known name (List.mem_of_getElem? found)
    have other := numbers.named name j known
    obtain ⟨inside, -⟩ := List.getElem?_eq_some_iff.mp found
    rw [known, (List.getElem?_inj inside apart).mp (found.trans other.symm)]

theorem nodup_of_found (found : ∀ (name : α) (i : Nat), names[i]? = some name → number name = some i) :
    names.Nodup := by
  rw [List.nodup_iff_getElem?_ne_getElem?]
  intro i j less inside same
  have here := List.getElem?_eq_getElem (Nat.lt_trans less inside)
  have both := (found _ i here).symm.trans (found _ j (same.symm.trans here))
  exact absurd (Option.some.inj both) (Nat.ne_of_lt less)

section
variable {β : Type*} {R S : α → β → Prop} {xs : List α} {ys : List β}

theorem forall₂_snoc (all : List.Forall₂ R xs ys) {x : α} {y : β} (last : R x y) :
    List.Forall₂ R (xs ++ [x]) (ys ++ [y]) :=
  List.rel_append all (.cons last .nil)

theorem filterMap_snoc (f : α → Option β) (xs : List α) (x : α) :
    (xs ++ [x]).filterMap f = xs.filterMap f ++ (f x).toList := by
  rw [List.filterMap_append]
  cases found : f x with
  | none => rw [List.filterMap_cons_none found, List.filterMap_nil, Option.toList_none]
  | some y => rw [List.filterMap_cons_some found, List.filterMap_nil, Option.toList_some]

theorem exists_of_mem {x : α} (all : List.Forall₂ R xs ys) (all' : List.Forall₂ S xs ys) (member : x ∈ xs) :
    ∃ y, R x y ∧ S x y := by
  induction all with
  | nil => cases member
  | cons here later ih =>
    cases all' with
    | cons here' later' =>
      rcases List.mem_cons.mp member with rfl | member
      · exact ⟨_, here, here'⟩
      · exact ih later' member

end

end Numbering
