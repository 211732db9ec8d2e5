import Mathlib.Order.Lattice
import Mathlib.Tactic.Common

/-! Bubble sort over a list with a comparison that may be read off a key in a linear order. -/

namespace BubbleSort

variable {α : Type*} (gt : α → α → Bool)

/-- One run of the inner loop: that many neighbouring pairs are compared from the front. -/
def sift : Nat → List α → List α
  | n + 1, x :: y :: rest =>
      if gt x y then y :: sift n (x :: rest) else x :: sift n (y :: rest)
  | _, rest => rest

/-- The outer loop: the runs get shorter by one comparison each. -/
def passes : Nat → List α → List α
  | 0, rest => rest
  | n + 1, rest => passes n (sift gt (n + 1) rest)

def sort (entries : List α) : List α := passes gt (entries.length - 1) entries

theorem sift_perm (n : Nat) (entries : List α) : (sift gt n entries).Perm entries := by
  induction n generalizing entries with
  | zero => cases entries <;> simp [sift]
  | succ n ih =>
    match entries with
    | [] => simp [sift]
    | [x] => simp [sift]
    | x :: y :: rest =>
      simp only [sift]
      split
      · exact ((ih (x :: rest)).cons y).trans (.swap x y rest)
      · exact (ih (y :: rest)).cons x

theorem passes_perm (n : Nat) (entries : List α) : (passes gt n entries).Perm entries := by
  induction n generalizing entries with
  | zero => exact .refl _
  | succ n ih => exact (ih _).trans (sift_perm gt (n + 1) entries)

theorem sort_perm (entries : List α) : (sort gt entries).Perm entries := passes_perm gt _ entries

section Map
variable {β : Type*} (f : β → α)

theorem sift_map (n : Nat) (entries : List β) :
    sift gt n (entries.map f) = (sift (fun a b => gt (f a) (f b)) n entries).map f := by
  induction n generalizing entries with
  | zero => cases entries <;> simp [sift]
  | succ n ih =>
    match entries with
    | [] => simp [sift]
    | [x] => simp [sift]
    | x :: y :: rest =>
      simp only [List.map_cons, sift]
      split
      · rw [List.map_cons, ← ih, List.map_cons]
      · rw [List.map_cons, ← ih, List.map_cons]

theorem passes_map (n : Nat) (entries : List β) :
    passes gt n (entries.map f) = (passes (fun a b => gt (f a) (f b)) n entries).map f := by
  induction n generalizing entries with
  | zero => rfl
  | succ n ih => rw [passes, passes, sift_map, ih]

/-- Entries that are compared through a map are sorted alike. -/
theorem sort_map (entries : List β) :
    sort gt (entries.map f) = (sort (fun a b => gt (f a) (f b)) entries).map f := by
  rw [sort, sort, List.length_map, passes_map]

end Map

variable {κ : Type*} [LinearOrder κ] (key : α → κ)
  (reads : ∀ x y, gt x y = true ↔ key y < key x)
include reads

/-- A run of the inner loop carries a largest entry of the compared front to its end. -/
theorem sift_split (n : Nat) (front back : List α) (length : front.length = n + 1) :
    ∃ rest top, sift gt n (front ++ back) = rest ++ top :: back ∧
      (rest ++ [top]).Perm front ∧ ∀ x ∈ rest, key x ≤ key top := by
  induction n generalizing front with
  | zero =>
    obtain ⟨x, rfl⟩ := List.length_eq_one_iff.mp length
    exact ⟨[], x, by simp [sift], by simp, by simp⟩
  | succ n ih =>
    match front, length with
    | x :: y :: front, length =>
      have shorter : ∀ z : α, (z :: front).length = n + 1 := by
        intro z; simpa using length
      by_cases above : gt x y = true
      · obtain ⟨rest, top, split, perm, most⟩ := ih (x :: front) (shorter x)
        refine ⟨y :: rest, top, ?_, ?_, ?_⟩
        · simp only [List.cons_append, sift, if_pos above]
          exact congrArg (y :: ·) split
        · exact (perm.cons y).trans (.swap x y front)
        · have covered : key x ≤ key top := by
            rcases List.mem_append.mp (perm.mem_iff.mpr (List.mem_cons_self ..)) with inner | last
            · exact most x inner
            · exact (List.mem_singleton.mp last) ▸ le_rfl
          intro z member
          rcases List.mem_cons.mp member with rfl | inner
          · exact ((reads x z).mp above).le.trans covered
          · exact most z inner
      · obtain ⟨rest, top, split, perm, most⟩ := ih (y :: front) (shorter y)
        refine ⟨x :: rest, top, ?_, perm.cons x, ?_⟩
        · simp only [List.cons_append, sift, if_neg above]
          exact congrArg (x :: ·) split
        · have covered : key y ≤ key top := by
            rcases List.mem_append.mp (perm.mem_iff.mpr (List.mem_cons_self ..)) with inner | last
            · exact most y inner
            · exact (List.mem_singleton.mp last) ▸ le_rfl
          have below : key x ≤ key y := not_lt.mp (fun less => above ((reads x y).mpr less))
          intro z member
          rcases List.mem_cons.mp member with rfl | inner
          · exact below.trans covered
          · exact most z inner

/-- The remaining passes sort the front when the back is sorted and above it. -/
theorem passes_sorted (n : Nat) (front back : List α) (length : front.length = n + 1)
    (above : ∀ x ∈ front, ∀ y ∈ back, key x ≤ key y)
    (sorted : back.Pairwise (fun x y => key x ≤ key y)) :
    (passes gt n (front ++ back)).Pairwise (fun x y => key x ≤ key y) := by
  induction n generalizing front back with
  | zero =>
    obtain ⟨x, rfl⟩ := List.length_eq_one_iff.mp length
    exact List.pairwise_cons.mpr ⟨above x (by simp), sorted⟩
  | succ n ih =>
    obtain ⟨rest, top, split, perm, most⟩ := sift_split gt key reads (n + 1) front back length
    rw [passes, split]
    have inFront : ∀ x, x ∈ rest ++ [top] → x ∈ front := fun x member => perm.mem_iff.mp member
    apply ih rest (top :: back)
    · have same := perm.length_eq
      simp only [List.length_append, List.length_singleton] at same
      omega
    · intro x member y later
      rcases List.mem_cons.mp later with rfl | later
      · exact most x member
      · exact above x (inFront x (List.mem_append_left _ member)) y later
    · exact List.pairwise_cons.mpr ⟨above top (inFront top (by simp)), sorted⟩

theorem sort_sorted (entries : List α) :
    (sort gt entries).Pairwise (fun x y => key x ≤ key y) := by
  cases entries with
  | nil => simp [sort, passes]
  | cons x rest =>
    have sorted := passes_sorted gt key reads rest.length (x :: rest) [] rfl (by simp) .nil
    simpa [sort] using sorted

end BubbleSort
