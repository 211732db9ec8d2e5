import Mathlib.Logic.Function.Basic
import Mathlib.Tactic.Common

/-! The hash index (index_hash.h, index_hash.cpp). A bucket is its chain of nodes from
`first_node`, a node holds the items of one key from `items` along `next`. -/

namespace DataAgentDB.Storage

structure BucketNode (ι : Type) where
  key : Nat
  items : List ι
  deriving DecidableEq, Repr

abbrev BucketHeader (ι : Type) := List (BucketNode ι)

namespace BucketHeader
variable {ι : Type}

/-- A new key gets a node at the end of the chain, a known key a new head of its items. -/
def insertItem (key : Nat) (item : ι) : BucketHeader ι → BucketHeader ι
  | [] => [{ key := key, items := [item] }]
  | node :: rest =>
      if node.key = key then { node with items := item :: node.items } :: rest
      else node :: insertItem key item rest

def readItem (key : Nat) : BucketHeader ι → Option ι
  | [] => none
  | node :: rest => if node.key = key then node.items.head? else readItem key rest

/-- All items of a key, the newest first. -/
def items (key : Nat) : BucketHeader ι → List ι
  | [] => []
  | node :: rest => if node.key = key then node.items else items key rest

theorem readItem_eq (key : Nat) (bucket : BucketHeader ι) :
    bucket.readItem key = (bucket.items key).head? := by
  induction bucket with
  | nil => rfl
  | cons node rest ih => simp only [readItem, items]; split <;> simp_all

theorem items_insertItem (key other : Nat) (item : ι) (bucket : BucketHeader ι) :
    (bucket.insertItem key item).items other =
      if other = key then item :: bucket.items key else bucket.items other := by
  induction bucket with
  | nil => simp only [insertItem, items]; split <;> simp_all [eq_comm]
  | cons node rest ih =>
    simp only [insertItem]
    by_cases here : node.key = key
    · by_cases same : other = key
      · simp [items, here, same]
      · have apart : ¬ key = other := fun equal => same equal.symm
        simp [items, here, same, apart]
    · rw [if_neg here]
      by_cases same : other = key
      · subst same
        rw [if_pos rfl] at ih ⊢
        simp only [items, if_neg here, ih]
      · simp only [items, ih, if_neg same]

end BucketHeader

structure IndexHash (ι : Type) where
  bucketCnt : Nat
  bucketCntPerPart : Nat
  buckets : Nat → Nat → BucketHeader ι

namespace IndexHash
variable {ι : Type}

def init (bucketCnt partCnt : Nat) : IndexHash ι :=
  { bucketCnt := bucketCnt, bucketCntPerPart := bucketCnt / partCnt, buckets := fun _ _ => [] }

/-- `IndexHash::init(table_t *)`: one bucket in one partition. -/
def initTable : IndexHash ι := init 1 1

def hash (index : IndexHash ι) (key : Nat) : Nat := key % index.bucketCntPerPart

def indexInsert (index : IndexHash ι) (key : Nat) (item : ι) (partId : Nat) : IndexHash ι :=
  match index with
  | ⟨bucketCnt, bucketCntPerPart, buckets⟩ =>
      let bktIdx := key % bucketCntPerPart
      let part := Function.update (buckets partId) bktIdx ((buckets partId bktIdx).insertItem key item)
      { bucketCnt := bucketCnt, bucketCntPerPart := bucketCntPerPart,
        buckets := Function.update buckets partId part }

def indexRead (index : IndexHash ι) (key : Nat) (partId : Nat) : Option ι :=
  (index.buckets partId (index.hash key)).readItem key

/-- The items stored under a key. -/
def items (index : IndexHash ι) (key : Nat) (partId : Nat) : List ι :=
  (index.buckets partId (index.hash key)).items key

theorem indexRead_eq (index : IndexHash ι) (key partId : Nat) :
    index.indexRead key partId = (index.items key partId).head? := BucketHeader.readItem_eq _ _

theorem items_indexInsert (index : IndexHash ι) (key other : Nat) (item : ι) (partId : Nat) :
    (index.indexInsert key item partId).items other partId =
      if other = key then item :: index.items key partId else index.items other partId := by
  obtain ⟨_, bucketCntPerPart, buckets⟩ := index
  simp only [items, indexInsert, hash, Function.update_self]
  by_cases bucket : other % bucketCntPerPart = key % bucketCntPerPart
  · rw [bucket, Function.update_self, BucketHeader.items_insertItem]
  · have apart : other ≠ key := fun same => bucket (by rw [same])
    rw [Function.update_of_ne bucket, if_neg apart]

end IndexHash

end DataAgentDB.Storage
