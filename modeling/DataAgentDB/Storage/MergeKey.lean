import DataAgentDB.Storage.Row
import Mathlib.Data.Nat.Digits.Lemmas

/-! `merge_idx_key` (helper.cpp): several index keys packed into one. The loop over the keys runs
up to the width of a field, not up to the number of keys. -/

namespace DataAgentDB.Storage

/-- Why a call does not return. -/
inductive Fault where
  | assertion | outOfBounds | shiftWidth
  deriving DecidableEq, Repr

/-- One iteration of the loop, at `i`. -/
def mergeStep (len : Nat) (keys : List UInt64) (key : UInt64) (i : Nat) : Except Fault UInt64 :=
  match keys[i]? with
  | none => .error .outOfBounds
  | some field =>
      if 64 ≤ len then .error .shiftWidth
      else if field < (1 : UInt64) <<< len.toUInt64 then .ok (key <<< len.toUInt64 ||| field)
      else .error .assertion

/-- `merge_idx_key(key_cnt, keys)`, of an array with the keys of the list. -/
def mergeIdxKey (keyCnt : Nat) (keys : List UInt64) : Except Fault UInt64 :=
  let len := 64 / keyCnt
  (List.range len).foldlM (mergeStep len keys) 0

/-- `merge_idx_key(key1, key2)`. -/
def mergeIdxKey2 (key1 key2 : UInt64) : Except Fault UInt64 :=
  if key1 < (1 : UInt64) <<< 32 ∧ key2 < (1 : UInt64) <<< 32 then .ok (key1 <<< 32 ||| key2)
  else .error .assertion

/-- `merge_idx_key(key1, key2, key3)`. -/
def mergeIdxKey3 (key1 key2 key3 : UInt64) : Except Fault UInt64 :=
  if key1 < (1 : UInt64) <<< 21 ∧ key2 < (1 : UInt64) <<< 21 ∧ key3 < (1 : UInt64) <<< 21 then
    .ok (key1 <<< 42 ||| key2 <<< 21 ||| key3)
  else .error .assertion

/-- An array of `keyCnt` keys of which each fits its share of the 64 bits. -/
structure Fields (keyCnt : Nat) (keys : List UInt64) : Prop where
  length : keys.length = keyCnt
  narrow : ∀ key ∈ keys, key.toNat < 2 ^ (64 / keyCnt)

/-- Arrays of `keyCnt` keys merge into one key each, which tells them apart, as the overload for
their number does. -/
structure Merges (keyCnt : Nat) : Prop where
  returns : ∀ keys, Fields keyCnt keys → ∃ key, mergeIdxKey keyCnt keys = .ok key
  injective : ∀ keys keys', Fields keyCnt keys → Fields keyCnt keys' →
    mergeIdxKey keyCnt keys = mergeIdxKey keyCnt keys' → keys = keys'
  pair : keyCnt = 2 → ∀ key1 key2 key, mergeIdxKey2 key1 key2 = .ok key →
    mergeIdxKey keyCnt [key1, key2] = .ok key
  triple : keyCnt = 3 → ∀ key1 key2 key3 key, mergeIdxKey3 key1 key2 key3 = .ok key →
    mergeIdxKey keyCnt [key1, key2, key3] = .ok key

section Loop
variable {len n : Nat} {keys : List UInt64} {key merged : UInt64}

theorem loop_succ (len : Nat) (keys : List UInt64) (key : UInt64) (n : Nat) :
    (List.range (n + 1)).foldlM (mergeStep len keys) key =
      (List.range n).foldlM (mergeStep len keys) key >>= fun middle => mergeStep len keys middle n := by
  rw [List.range_succ, List.foldlM_append]
  simp only [List.foldlM_cons, List.foldlM_nil, bind_pure]

/-- The loop reads every index below its bound. -/
theorem length_of_loop (done : (List.range n).foldlM (mergeStep len keys) key = .ok merged) :
    n ≤ keys.length := by
  induction n generalizing merged with
  | zero => exact Nat.zero_le _
  | succ n ih =>
    rw [loop_succ] at done
    cases front : (List.range n).foldlM (mergeStep len keys) key with
    | error fault =>
      rw [front] at done
      cases done
    | ok middle =>
      rw [front] at done
      change mergeStep len keys middle n = .ok merged at done
      unfold mergeStep at done
      split at done
      next => cases done
      next field found => exact (List.getElem?_eq_some_iff.mp found).1

/-- The loop reads nothing else. -/
theorem loop_congr {keys' : List UInt64} (same : ∀ i < n, keys[i]? = keys'[i]?) (key : UInt64) :
    (List.range n).foldlM (mergeStep len keys) key = (List.range n).foldlM (mergeStep len keys') key := by
  induction n with
  | zero => rfl
  | succ n ih =>
    have step : ∀ middle, mergeStep len keys middle n = mergeStep len keys' middle n := by
      intro middle
      rw [mergeStep, mergeStep, same n (Nat.lt_succ_self n)]
    rw [loop_succ, loop_succ, ih (fun i low => same i (Nat.lt_succ_of_lt low))]
    simp only [step]

theorem toNat_shift (short : len < 64) : len.toUInt64.toNat % 64 = len := by
  simp only [Nat.toUInt64_eq, UInt64.toNat_ofNat']
  omega

/-- A shift without overflow, and a field in the bits it freed. -/
theorem toNat_shift_or {field : UInt64} (short : len < 64) (room : key.toNat * 2 ^ len < 2 ^ 64)
    (narrow : field.toNat < 2 ^ len) :
    (key <<< len.toUInt64 ||| field).toNat = field.toNat + 2 ^ len * key.toNat := by
  rw [UInt64.toNat_or, UInt64.toNat_shiftLeft, toNat_shift short, Nat.shiftLeft_eq, Nat.mod_eq_of_lt room,
    ← Nat.shiftLeft_eq, ← Nat.shiftLeft_add_eq_or_of_lt narrow, Nat.shiftLeft_eq]
  rw [Nat.mul_comm, Nat.add_comm]

theorem mergeStep_ok {field : UInt64} (short : len < 64) (found : keys[n]? = some field)
    (narrow : field.toNat < 2 ^ len) (key : UInt64) :
    mergeStep len keys key n = .ok (key <<< len.toUInt64 ||| field) := by
  have power : ((1 : UInt64) <<< len.toUInt64).toNat = 2 ^ len := by
    rw [UInt64.toNat_shiftLeft, toNat_shift short, UInt64.toNat_one, Nat.one_shiftLeft]
    exact Nat.mod_eq_of_lt (Nat.pow_lt_pow_right (by decide) short)
  have passes : field < (1 : UInt64) <<< len.toUInt64 := by
    rw [UInt64.lt_iff_toNat_lt, power]
    exact narrow
  simp only [mergeStep, found, if_neg (Nat.not_le.mpr short), if_pos passes]

/-- The loop over a prefix makes the number with the prefix as its digits, the first on top. -/
theorem loop_digits (positive : 0 < len) (short : len < 64) (room : len * n ≤ 64) (front : n ≤ keys.length)
    (narrow : ∀ key ∈ keys, key.toNat < 2 ^ len) :
    ∃ merged, (List.range n).foldlM (mergeStep len keys) 0 = .ok merged ∧
      merged.toNat = Nat.ofDigits (2 ^ len) ((keys.take n).map UInt64.toNat).reverse := by
  induction n with
  | zero => exact ⟨0, rfl, rfl⟩
  | succ n ih =>
    rw [Nat.mul_succ] at room
    obtain ⟨middle, done, value⟩ := ih (by omega) (Nat.le_of_succ_le front)
    have found : keys[n]? = some keys[n] := List.getElem?_eq_getElem front
    have small : keys[n].toNat < 2 ^ len := narrow _ (List.getElem_mem front)
    have low : middle.toNat < (2 ^ len) ^ n := by
      have digits : ∀ d ∈ ((keys.take n).map UInt64.toNat).reverse, d < 2 ^ len := by
        intro d member
        obtain ⟨key, taken, rfl⟩ := List.mem_map.mp (List.mem_reverse.mp member)
        exact narrow key (List.mem_of_mem_take taken)
      have bound := Nat.ofDigits_lt_base_pow_length (Nat.one_lt_two_pow positive.ne') digits
      rw [List.length_reverse, List.length_map, List.length_take, Nat.min_eq_left (by omega)] at bound
      rwa [value]
    have fits : middle.toNat * 2 ^ len < 2 ^ 64 := by
      have top : (2 ^ len) ^ n * 2 ^ len = 2 ^ (len * n + len) := by rw [← Nat.pow_mul, ← Nat.pow_add]
      have widest : 2 ^ (len * n + len) ≤ 2 ^ 64 := Nat.pow_le_pow_right (by decide) room
      have scaled := Nat.mul_lt_mul_of_pos_right low (Nat.two_pow_pos len)
      omega
    refine ⟨middle <<< len.toUInt64 ||| keys[n], ?_, ?_⟩
    · rw [loop_succ, done]
      exact mergeStep_ok short found small middle
    · rw [toNat_shift_or short fits small, value, List.take_succ_eq_append_getElem front, List.map_append,
        List.reverse_append]
      exact (Nat.ofDigits_cons).symm

end Loop

theorem mergeIdxKey_eight {keys : List UInt64} (fields : Fields 8 keys) :
    ∃ merged, mergeIdxKey 8 keys = .ok merged ∧
      merged.toNat = Nat.ofDigits (2 ^ 8) (keys.map UInt64.toNat).reverse := by
  have merges := @loop_digits 8 8 keys (by decide) (by decide) (by decide) fields.length.ge fields.narrow
  rwa [List.take_of_length_le fields.length.le] at merges

/-- With as many fields as bits in a field every array merges into a key of its own. -/
theorem merges_eight : Merges 8 where
  returns := by
    intro keys fields
    obtain ⟨merged, done, -⟩ := mergeIdxKey_eight fields
    exact ⟨merged, done⟩
  injective := by
    intro keys keys' fields fields' same
    have narrow : ∀ {keys : List UInt64}, Fields 8 keys → ∀ d ∈ (keys.map UInt64.toNat).reverse, d < 2 ^ 8 := by
      intro keys fields d member
      obtain ⟨key, listed, rfl⟩ := List.mem_map.mp (List.mem_reverse.mp member)
      exact fields.narrow key listed
    obtain ⟨merged, done, value⟩ := mergeIdxKey_eight fields
    obtain ⟨merged', done', value'⟩ := mergeIdxKey_eight fields'
    rw [done, done'] at same
    cases same
    have lengths : (keys.map UInt64.toNat).reverse.length = (keys'.map UInt64.toNat).reverse.length := by
      simp only [List.length_reverse, List.length_map, fields.length, fields'.length]
    have equal := Nat.ofDigits_inj_of_len_eq (by decide) lengths (narrow fields) (narrow fields')
      (value.symm.trans value')
    exact List.map_injective_iff.mpr (fun _ _ => UInt64.toNat_inj.mp) (List.reverse_injective equal)
  pair := fun two => (nomatch two)
  triple := fun three => (nomatch three)

/-- Merging works for eight keys and for no other number of them. -/
theorem merges_iff {keyCnt : Nat} (positive : 0 < keyCnt) (atMost : keyCnt ≤ 64) :
    Merges keyCnt ↔ keyCnt = 8 := by
  constructor
  · intro merges
    have zeros : Fields keyCnt (List.replicate keyCnt 0) := by
      refine ⟨List.length_replicate, fun key member => ?_⟩
      rw [List.eq_of_mem_replicate member]
      exact Nat.two_pow_pos _
    obtain ⟨merged, done⟩ := merges.returns _ zeros
    have within := length_of_loop done
    rw [List.length_replicate] at within
    -- the loop stops before the last key when a field is narrower than the number of keys
    have covers : keyCnt ≤ 64 / keyCnt := by
      by_contra short
      have wide : 0 < 64 / keyCnt := Nat.div_pos atMost positive
      have other : Fields keyCnt (List.replicate (keyCnt - 1) 0 ++ [1]) := by
        refine ⟨by simp; omega, fun key member => ?_⟩
        rcases List.mem_append.mp member with zero | one
        · rw [List.eq_of_mem_replicate zero]
          exact Nat.two_pow_pos _
        · rw [List.mem_singleton.mp one]
          exact Nat.one_lt_two_pow wide.ne'
      have same : mergeIdxKey keyCnt (List.replicate keyCnt 0) =
          mergeIdxKey keyCnt (List.replicate (keyCnt - 1) 0 ++ [1]) := by
        refine loop_congr (fun i low => ?_) 0
        rw [List.getElem?_append_left (by simp; omega), List.getElem?_replicate, List.getElem?_replicate,
          if_pos (by omega), if_pos (by omega)]
      have equal := congrArg (fun keys => keys[keyCnt - 1]?) (merges.injective _ _ zeros other same)
      simp [positive] at equal
    have square : keyCnt = 64 / keyCnt := Nat.le_antisymm covers within
    have low : keyCnt * keyCnt ≤ 64 := (Nat.le_div_iff_mul_le positive).mp covers
    have high : 64 < (keyCnt + 1) * keyCnt := (Nat.div_lt_iff_lt_mul positive).mp (Nat.lt_succ_of_le within)
    have small : keyCnt ≤ 8 := by nlinarith
    interval_cases keyCnt <;> omega
  · rintro rfl
    exact merges_eight

theorem merges_iff_eight : Merges 8 := (merges_iff (by decide) (by decide)).mpr rfl

/-- Two keys that their own overload merges are read past their array. -/
theorem merge_reads_past : Fields 2 [1, 2] ∧ mergeIdxKey2 1 2 = .ok 4294967298 ∧
    mergeIdxKey 2 [1, 2] = .error .outOfBounds ∧ ¬ Merges 2 := by
  have past : mergeIdxKey 2 [1, 2] = .error .outOfBounds := by decide +kernel
  have fields : Fields 2 [1, 2] := by
    refine ⟨rfl, fun key member => ?_⟩
    have small : key.toNat ≤ 64 / 2 := by
      rcases List.mem_pair.mp member with rfl | rfl <;> decide
    exact Nat.lt_of_le_of_lt small Nat.lt_two_pow_self
  refine ⟨fields, by decide, past, fun merges => ?_⟩
  obtain ⟨key, done⟩ := merges.returns [1, 2] fields
  rw [past] at done
  cases done

end DataAgentDB.Storage
