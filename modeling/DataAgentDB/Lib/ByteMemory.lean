import Mathlib.Tactic.Common

/-! Memory by bytes, and regions of it. -/

namespace ByteMemory

abbrev Memory := Nat → UInt8

/-- The `n` bytes from an address on. -/
def read (mem : Memory) (a n : Nat) : List UInt8 := (List.range n).map (fun i => mem (a + i))

def write (mem : Memory) (a : Nat) (bytes : List UInt8) : Memory :=
  fun x => if a ≤ x then (bytes[x - a]?).getD (mem x) else mem x

structure Region where
  start : Nat
  len : Nat
  deriving DecidableEq, Repr

namespace Region

/-- They share no byte. -/
def Apart (r s : Region) : Prop :=
  r.len = 0 ∨ s.len = 0 ∨ r.start + r.len ≤ s.start ∨ s.start + s.len ≤ r.start

def Within (r s : Region) : Prop := s.start ≤ r.start ∧ r.start + r.len ≤ s.start + s.len

instance (r s : Region) : Decidable (r.Apart s) := by unfold Apart; infer_instance

instance (r s : Region) : Decidable (r.Within s) := by unfold Within; infer_instance

variable {r r' s s' : Region}

theorem Apart.symm (apart : r.Apart s) : s.Apart r := by
  unfold Apart at *
  omega

/-- Parts of regions apart are apart. -/
theorem Apart.within (apart : r.Apart s) (left : r'.Within r) (right : s'.Within s) : r'.Apart s' := by
  unfold Apart Within at *
  omega

theorem Within.refl (r : Region) : r.Within r := ⟨Nat.le_refl _, Nat.le_refl _⟩

theorem Within.trans {t : Region} (first : r.Within s) (second : s.Within t) : r.Within t := by
  unfold Within at *
  omega

/-- Apart regions that are not empty start at different addresses. -/
theorem Apart.start_ne (apart : r.Apart s) (left : 0 < r.len) (right : 0 < s.len) : r.start ≠ s.start := by
  unfold Apart at apart
  omega

end Region

/-- The two memories hold the same in the region. -/
def Agree (mem mem' : Memory) (r : Region) : Prop := ∀ x, r.start ≤ x → x < r.start + r.len → mem' x = mem x

variable {mem mem' : Memory} {a n : Nat} {bytes : List UInt8} {r s : Region}

theorem Agree.within (agree : Agree mem mem' s) (part : r.Within s) : Agree mem mem' r := by
  intro x above below
  unfold Region.Within at part
  exact agree x (by omega) (by omega)

/-- A write shows outside the bytes it writes as no change. -/
theorem write_agree (apart : r.Apart ⟨a, bytes.length⟩) : Agree mem (write mem a bytes) r := by
  intro x above below
  unfold Region.Apart at apart
  simp only at apart
  unfold write
  split
  next inside =>
    have past : bytes.length ≤ x - a := by omega
    rw [List.getElem?_eq_none past, Option.getD_none]
  next => rfl

theorem read_congr (agree : Agree mem mem' ⟨a, n⟩) : read mem' a n = read mem a n := by
  apply List.map_congr_left
  intro i member
  exact agree (a + i) (Nat.le_add_right _ _) (Nat.add_lt_add_left (List.mem_range.mp member) a)

theorem read_write (mem : Memory) (a : Nat) (bytes : List UInt8) :
    read (write mem a bytes) a bytes.length = bytes := by
  apply List.ext_getElem?
  intro i
  by_cases inside : i < bytes.length
  · simp [read, write, inside]
  · simp [read, inside]

end ByteMemory
