import DataAgentDB.Storage.IndexHash
import Mathlib.Algebra.Group.Nat.Defs
import Mathlib.Data.List.Induction
import Mathlib.Data.List.Nodup

/-! What the hash index stores: for each key and partition the item last inserted, whatever was
in the memory of its buckets before `init` and however many keys share a bucket. -/

namespace DataAgentDB.Storage
variable {ι : Type}

namespace IndexHash

/-- The loop of `init` over the buckets of a partition, from `n` on. Its counter has 32 bits;
`none` is a loop still running after `fuel` iterations. -/
def initBuckets (count : Nat) (fuel : Nat) (n : UInt32) (part : Nat → BucketHeader ι) :
    Option (Nat → BucketHeader ι) :=
  if n.toNat < count then
    match fuel with
    | 0 => none
    | fuel + 1 => initBuckets count fuel (n + 1) (Function.update part n.toNat [])
  else some part

/-- The loop of `init` over the partitions from `i` on, `left` of them. -/
def initParts (count fuel : Nat) (i : Nat) (left : Nat) (buckets : Nat → Nat → BucketHeader ι) :
    Option (Nat → Nat → BucketHeader ι) :=
  match left with
  | 0 => some buckets
  | left + 1 =>
      match initBuckets count fuel 0 (buckets i) with
      | none => none
      | some part => initParts count fuel (i + 1) left (Function.update buckets i part)

/-- `IndexHash::init` on buckets that `_mm_malloc` returned with `memory` in them. -/
def initOn (memory : Nat → Nat → BucketHeader ι) (fuel bucketCnt partCnt : Nat) : Option (IndexHash ι) :=
  let perPart := bucketCnt / partCnt
  (initParts perPart fuel 0 partCnt memory).map (fun buckets => ⟨bucketCnt, perPart, buckets⟩)

/-- The overload of `index_read` that takes a thread id. -/
def indexReadThd (index : IndexHash ι) (key partId _thdId : Nat) : Option ι :=
  (index.buckets partId (index.hash key)).readItem key

theorem initBuckets_eq {count fuel : Nat} (small : count < 2 ^ 32) (n : UInt32)
    (part : Nat → BucketHeader ι) (within : n.toNat ≤ count) (enough : count ≤ n.toNat + fuel) :
    initBuckets count fuel n part =
      some (fun bkt => if n.toNat ≤ bkt ∧ bkt < count then [] else part bkt) := by
  induction fuel generalizing n part with
  | zero =>
    have done : ¬ n.toNat < count := by omega
    have nothing : ∀ bkt, ¬ (n.toNat ≤ bkt ∧ bkt < count) := by intro bkt; omega
    rw [initBuckets, if_neg done]
    simp only [if_neg (nothing _)]
  | succ fuel ih =>
    by_cases more : n.toNat < count
    · have counted : (n + 1).toNat = n.toNat + 1 := by
        rw [UInt32.toNat_add]
        change (n.toNat + 1) % 2 ^ 32 = n.toNat + 1
        omega
      rw [initBuckets, if_pos more]
      change initBuckets count fuel (n + 1) (Function.update part n.toNat []) = _
      rw [ih (n + 1) _ (by omega) (by omega), counted]
      congr 1
      funext bkt
      by_cases here : bkt = n.toNat
      · have done : ¬ (n.toNat + 1 ≤ bkt ∧ bkt < count) := by omega
        have inside : n.toNat ≤ bkt ∧ bkt < count := by omega
        rw [if_neg done, if_pos inside, here, Function.update_self]
      · have same : (n.toNat + 1 ≤ bkt ∧ bkt < count) ↔ (n.toNat ≤ bkt ∧ bkt < count) := by omega
        simp only [same, Function.update_of_ne here]
    · have nothing : ∀ bkt, ¬ (n.toNat ≤ bkt ∧ bkt < count) := by intro bkt; omega
      rw [initBuckets, if_neg more]
      simp only [if_neg (nothing _)]

theorem initParts_eq {count fuel : Nat} (small : count < 2 ^ 32) (enough : count ≤ fuel) (left : Nat)
    (i : Nat) (memory : Nat → Nat → BucketHeader ι) :
    initParts count fuel i left memory =
      some (fun part bkt => if (i ≤ part ∧ part < i + left) ∧ bkt < count then [] else memory part bkt) := by
  induction left generalizing i memory with
  | zero =>
    have nothing : ∀ part, ¬ (i ≤ part ∧ part < i + 0) := by intro part; omega
    simp only [initParts, nothing, false_and, if_false]
  | succ left ih =>
    have first := initBuckets_eq small 0 (memory i) (Nat.zero_le _) (by simpa using enough)
    rw [initParts, first]
    change initParts count fuel (i + 1) left _ = _
    rw [ih (i + 1)]
    congr 1
    funext part bkt
    by_cases here : part = i
    · have later : ¬ (i + 1 ≤ part ∧ part < i + 1 + left) := by omega
      have inside : i ≤ part ∧ part < i + (left + 1) := by omega
      rw [if_neg (fun both => later both.1), here, Function.update_self]
      have zero : (0 : UInt32).toNat ≤ bkt := Nat.zero_le bkt
      rw [here] at inside
      simp only [zero, inside, true_and]
    · have same : (i + 1 ≤ part ∧ part < i + 1 + left) ↔ (i ≤ part ∧ part < i + (left + 1)) := by omega
      simp only [same, Function.update_of_ne here]

/-- Buckets hold one node for each of their keys, and only keys that hash to them. -/
structure WellPlaced (index : IndexHash ι) (partCnt : Nat) : Prop where
  distinct : ∀ part < partCnt, ∀ bkt < index.bucketCntPerPart,
    ((index.buckets part bkt).map BucketNode.key).Nodup
  placed : ∀ part < partCnt, ∀ bkt < index.bucketCntPerPart, ∀ node ∈ index.buckets part bkt,
    index.hash node.key = bkt

end IndexHash

namespace BucketHeader

theorem keys_insertItem (key : Nat) (item : ι) (bucket : BucketHeader ι) :
    (bucket.insertItem key item).map BucketNode.key =
      if key ∈ bucket.map BucketNode.key then bucket.map BucketNode.key
      else bucket.map BucketNode.key ++ [key] := by
  induction bucket with
  | nil => rfl
  | cons node rest ih =>
    rw [insertItem]
    by_cases here : node.key = key
    · simp [here]
    · have apart : ¬ key = node.key := fun same => here same.symm
      rw [if_neg here, List.map_cons, ih]
      simp only [List.map_cons, List.mem_cons, apart, false_or]
      split <;> rfl

theorem nodup_insertItem (key : Nat) (item : ι) {bucket : BucketHeader ι}
    (distinct : (bucket.map BucketNode.key).Nodup) :
    ((bucket.insertItem key item).map BucketNode.key).Nodup := by
  rw [keys_insertItem]
  split
  next => exact distinct
  next new =>
    rw [List.nodup_append]
    refine ⟨distinct, List.nodup_singleton key, ?_⟩
    intro other member last isLast same
    rw [List.mem_singleton.mp isLast] at same
    exact new (same ▸ member)

theorem key_of_mem_insertItem {key : Nat} {item : ι} {bucket : BucketHeader ι} {node : BucketNode ι}
    (member : node ∈ bucket.insertItem key item) :
    node.key = key ∨ ∃ old ∈ bucket, old.key = node.key := by
  have listed : node.key ∈ (bucket.insertItem key item).map BucketNode.key := List.mem_map_of_mem member
  rw [keys_insertItem] at listed
  split at listed
  · exact .inr (by simpa using listed)
  · rcases List.mem_append.mp listed with old | new
    · exact .inr (by simpa using old)
    · exact .inl (List.mem_singleton.mp new)

end BucketHeader

namespace IndexHash

theorem indexInsert_buckets (index : IndexHash ι) (key : Nat) (item : ι) (partId part bkt : Nat) :
    (index.indexInsert key item partId).buckets part bkt =
      if part = partId ∧ bkt = index.hash key then (index.buckets part bkt).insertItem key item
      else index.buckets part bkt := by
  change Function.update index.buckets partId (Function.update (index.buckets partId) (index.hash key)
    ((index.buckets partId (index.hash key)).insertItem key item)) part bkt = _
  by_cases samePart : part = partId
  · subst samePart
    rw [Function.update_self]
    by_cases sameBkt : bkt = index.hash key
    · rw [sameBkt, Function.update_self, if_pos ⟨rfl, rfl⟩]
    · rw [Function.update_of_ne sameBkt, if_neg (fun both => sameBkt both.2)]
  · rw [Function.update_of_ne samePart, if_neg (fun both => samePart both.1)]

theorem hash_indexInsert (index : IndexHash ι) (key other : Nat) (item : ι) (partId : Nat) :
    (index.indexInsert key item partId).hash other = index.hash other := rfl

theorem WellPlaced.indexInsert {index : IndexHash ι} {partCnt : Nat} (well : WellPlaced index partCnt)
    (key : Nat) (item : ι) (partId : Nat) : WellPlaced (index.indexInsert key item partId) partCnt := by
  constructor
  · intro part inParts bkt inBuckets
    have distinct := well.distinct part inParts bkt inBuckets
    rw [indexInsert_buckets]
    split
    · exact BucketHeader.nodup_insertItem key item distinct
    · exact distinct
  · intro part inParts bkt inBuckets node member
    have placed := well.placed part inParts bkt inBuckets
    rw [indexInsert_buckets] at member
    rw [hash_indexInsert]
    split at member
    next here =>
      rcases BucketHeader.key_of_mem_insertItem member with new | ⟨old, oldMember, same⟩
      · rw [new, here.2]
      · rw [← same]
        exact placed old oldMember
    next => exact placed node member

/-- An insert changes what is read under its own key and partition only. -/
theorem indexRead_indexInsert (index : IndexHash ι) (key : Nat) (item : ι) (partId other part : Nat) :
    (index.indexInsert key item partId).indexRead other part =
      if other = key ∧ part = partId then some item else index.indexRead other part := by
  by_cases samePart : part = partId
  · subst samePart
    rw [indexRead_eq, items_indexInsert, indexRead_eq]
    by_cases sameKey : other = key
    · rw [if_pos sameKey, if_pos ⟨sameKey, rfl⟩, List.head?_cons]
    · rw [if_neg sameKey, if_neg (fun both => sameKey both.1)]
  · rw [if_neg (fun both => samePart both.2), indexRead, indexRead, indexInsert_buckets,
      if_neg (fun both => samePart both.1), hash_indexInsert]

end IndexHash

/-- A call of `index_insert`. -/
structure Insertion (ι : Type) where
  key : Nat
  item : ι
  partId : Nat

namespace IndexHash

def insertAll (index : IndexHash ι) (insertions : List (Insertion ι)) : IndexHash ι :=
  insertions.foldl (fun index call => index.indexInsert call.key call.item call.partId) index

/-- The map the index stands for: the last item inserted under a key and a partition. -/
def lastInserted (insertions : List (Insertion ι)) (key part : Nat) : Option ι :=
  (insertions.reverse.find? (fun call => call.key = key ∧ call.partId = part)).map Insertion.item

theorem lastInserted_snoc (insertions : List (Insertion ι)) (call : Insertion ι) (key part : Nat) :
    lastInserted (insertions ++ [call]) key part =
      if key = call.key ∧ part = call.partId then some call.item
      else lastInserted insertions key part := by
  have swap : (call.key = key ∧ call.partId = part) ↔ (key = call.key ∧ part = call.partId) := by
    constructor <;> exact fun both => ⟨both.1.symm, both.2.symm⟩
  simp only [lastInserted, List.reverse_append, List.reverse_singleton, List.singleton_append,
    List.find?_cons]
  by_cases here : key = call.key ∧ part = call.partId
  · rw [if_pos here, decide_eq_true (swap.mpr here)]
    rfl
  · rw [if_neg here, decide_eq_false (fun both => here (swap.mp both))]

theorem lastInserted_eq_none (insertions : List (Insertion ι)) (key part : Nat) :
    lastInserted insertions key part = none ↔
      ∀ call ∈ insertions, ¬ (call.key = key ∧ call.partId = part) := by
  simp [lastInserted]

theorem insertAll_spec {start : IndexHash ι} {partCnt : Nat} (well : WellPlaced start partCnt)
    (empty : ∀ key, ∀ part < partCnt, start.indexRead key part = none) (insertions : List (Insertion ι)) :
    WellPlaced (start.insertAll insertions) partCnt ∧
      ∀ key, ∀ part < partCnt,
        (start.insertAll insertions).indexRead key part = lastInserted insertions key part := by
  induction insertions using List.reverseRecOn with
  | nil => exact ⟨well, empty⟩
  | append_singleton insertions call ih =>
    obtain ⟨before, reads⟩ := ih
    have last : start.insertAll (insertions ++ [call]) =
        (start.insertAll insertions).indexInsert call.key call.item call.partId := by
      simp only [insertAll, List.foldl_append, List.foldl_cons, List.foldl_nil]
    rw [last]
    refine ⟨before.indexInsert call.key call.item call.partId, ?_⟩
    intro key part inParts
    rw [indexRead_indexInsert, lastInserted_snoc, reads key part inParts]

/-- `init` completes, and from there on the index is a map under every sequence of inserts. -/
theorem index_refines_map (memory : Nat → Nat → BucketHeader ι) {bucketCnt partCnt : Nat}
    (small : bucketCnt < 2 ^ 32) (room : 0 < bucketCnt / partCnt) (insertions : List (Insertion ι)) :
    ∃ start, (∀ fuel ≥ bucketCnt, initOn memory fuel bucketCnt partCnt = some start) ∧
      let index := start.insertAll insertions
      (∀ part < partCnt, ∀ bkt < index.bucketCntPerPart,
        ((index.buckets part bkt).map BucketNode.key).Nodup ∧
        ∀ node ∈ index.buckets part bkt, index.hash node.key = bkt) ∧
      (∀ key, ∀ part < partCnt, index.indexRead key part = lastInserted insertions key part) ∧
      (∀ key, ∀ part < partCnt, index.indexRead key part = none ↔
        ∀ call ∈ insertions, ¬ (call.key = key ∧ call.partId = part)) ∧
      (∀ (call : Insertion ι) key part, ¬ (key = call.key ∧ part = call.partId) →
        (index.indexInsert call.key call.item call.partId).indexRead key part = index.indexRead key part) ∧
      ∀ key part thdId, index.indexReadThd key part thdId = index.indexRead key part := by
  have fits : bucketCnt / partCnt < 2 ^ 32 := Nat.lt_of_le_of_lt (Nat.div_le_self _ _) small
  let start : IndexHash ι := ⟨bucketCnt, bucketCnt / partCnt, fun part bkt =>
    if (0 ≤ part ∧ part < 0 + partCnt) ∧ bkt < bucketCnt / partCnt then [] else memory part bkt⟩
  have completes : ∀ fuel ≥ bucketCnt, initOn memory fuel bucketCnt partCnt = some start := by
    intro fuel enough
    rw [initOn, initParts_eq fits (Nat.le_trans (Nat.div_le_self _ _) enough), Option.map_some]
  have cleared : ∀ part < partCnt, ∀ bkt < bucketCnt / partCnt, start.buckets part bkt = [] := by
    intro part inParts bkt inBuckets
    exact if_pos ⟨⟨Nat.zero_le part, by omega⟩, inBuckets⟩
  have well : WellPlaced start partCnt := by
    constructor
    · intro part inParts bkt inBuckets
      rw [cleared part inParts bkt inBuckets]
      exact List.nodup_nil
    · intro part inParts bkt inBuckets node member
      rw [cleared part inParts bkt inBuckets] at member
      cases member
  have empty : ∀ key, ∀ part < partCnt, start.indexRead key part = none := by
    intro key part inParts
    have inBuckets : start.hash key < bucketCnt / partCnt := Nat.mod_lt key room
    rw [indexRead, cleared part inParts _ inBuckets]
    rfl
  obtain ⟨after, reads⟩ := insertAll_spec well empty insertions
  refine ⟨start, completes, ?_, reads, ?_, ?_, fun _ _ _ => rfl⟩
  · intro part inParts bkt inBuckets
    exact ⟨after.distinct part inParts bkt inBuckets, after.placed part inParts bkt inBuckets⟩
  · intro key part inParts
    rw [reads key part inParts]
    exact lastInserted_eq_none insertions key part
  · intro call key part apart
    rw [indexRead_indexInsert, if_neg apart]

/-- Two keys in the one bucket of the engine's index, over memory that was not cleared. -/
theorem index_refines_map_one_bucket :
    ∃ start : IndexHash Nat, initOn (fun _ _ => [⟨7, [9]⟩]) 1 1 1 = some start ∧
      let index := start.insertAll [⟨7, 1, 0⟩, ⟨8, 2, 0⟩, ⟨7, 3, 0⟩]
      index.indexRead 7 0 = some 3 ∧ index.indexRead 8 0 = some 2 ∧ index.indexRead 9 0 = none := by
  obtain ⟨start, completes, _, reads, _⟩ := index_refines_map (fun _ _ => [⟨7, [9]⟩])
    (by decide : 1 < 2 ^ 32) (by decide : 0 < 1 / 1) [⟨7, 1, 0⟩, ⟨8, 2, 0⟩, ⟨7, 3, 0⟩]
  exact ⟨start, completes 1 (by decide), reads 7 0 (by decide), reads 8 0 (by decide), reads 9 0 (by decide)⟩

end IndexHash

end DataAgentDB.Storage
