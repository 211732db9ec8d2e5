import DataAgentDB.Storage.Row

/-! The bytes of a number in decimal. -/

namespace DataAgentDB.Storage

theorem bytes_toString (n : Nat) :
    bytes (toString n) = (Nat.toDigits 10 n).map (fun c => c.toNat.toUInt8) := by
  have written : (toString n).toList = Nat.toDigits 10 n := Nat.toList_repr
  rw [bytes, written]

theorem toNat_digit {n : Nat} {digit : Char} (listed : digit ∈ Nat.toDigits 10 n) :
    digit.toNat.toUInt8.toNat = digit.toNat ∧ 48 ≤ digit.toNat ∧ digit.toNat ≤ 57 := by
  have isDigit := Nat.isDigit_of_mem_toDigits (by decide) (by decide) listed
  simp only [Char.isDigit, Bool.and_eq_true, decide_eq_true_eq] at isDigit
  have low : 48 ≤ digit.toNat := UInt32.le_iff_toNat_le.mp isDigit.1
  have high : digit.toNat ≤ 57 := UInt32.le_iff_toNat_le.mp isDigit.2
  refine ⟨?_, low, high⟩
  rw [Nat.toUInt8, UInt8.toNat_ofNat']
  omega

theorem digit_of_mem {n : Nat} {c : UInt8} (member : c ∈ bytes (toString n)) :
    48 ≤ c.toNat ∧ c.toNat ≤ 57 := by
  rw [bytes_toString] at member
  obtain ⟨digit, listed, rfl⟩ := List.mem_map.mp member
  obtain ⟨same, range⟩ := toNat_digit listed
  rwa [same]

/-- The digits read back as the number. -/
theorem foldl_numeral (n : Nat) :
    (bytes (toString n)).foldl (fun n c => 10 * n + (c.toNat - 48)) 0 = n := by
  have value := Nat.ofDigitChars_toDigits (b := 10) (n := n) (by decide) (by decide)
  rw [Nat.ofDigitChars_eq_foldl] at value
  rw [bytes_toString, List.foldl_map]
  refine (List.foldl_ext _ _ _ (fun sum digit listed => ?_)).trans value
  rw [(toNat_digit listed).1]
  rfl

end DataAgentDB.Storage
