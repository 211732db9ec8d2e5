import DataAgentDB.Lib.Linked
import DataAgentDB.Storage.IndexHash
import Mathlib.Data.List.Induction

/-! The hash index as it lies in memory (index_hash.cpp, helper.h): nodes and items are cells
behind pointers. `insert_item` links an item to the older ones of its key but never ends the
chain, which is as long as the first item's memory happened to make it. -/

namespace DataAgentDB.Storage.ItemChains
open Linked

/-- `Data_type`. -/
inductive DataType where
  | DT_table | DT_page | DT_row
  deriving DecidableEq, Repr

/-- `itemid_t`. -/
structure ItemId where
  type : DataType
  location : Nat
  next : Option Nat
  valid : Bool
  deriving DecidableEq, Repr

/-- A `BucketNode` with its pointers. -/
structure NodeCell where
  key : Nat
  next : Option Nat
  items : Option Nat
  deriving DecidableEq, Repr

/-- `_buckets[0]`, the partition all callers insert into, with the cells of the nodes and items
by address. -/
structure Heap where
  bucketCntPerPart : Nat
  firstNode : Nat → Option Nat
  nodes : Nat → Option NodeCell
  items : Nat → Option ItemId

namespace Heap

/-- `IndexHash::init` with `BucketHeader::init`. -/
def init (bucketCntPerPart : Nat) : Heap :=
  { bucketCntPerPart := bucketCntPerPart, firstNode := fun _ => none, nodes := fun _ => none,
    items := fun _ => none }

def nextNode (heap : Heap) (a : Nat) : Option (Option Nat) := (heap.nodes a).map NodeCell.next

def nextItem (heap : Heap) (a : Nat) : Option (Option Nat) := (heap.items a).map ItemId.next

/-- The loop of `insert_item` and `read_item`: `cur_node` and `prev_node` where it stops. It
answers `none` when it has not stopped within `fuel` nodes or follows a pointer to no node. -/
def findNode (nodes : Nat → Option NodeCell) (key : Nat) :
    Nat → Option Nat → Option Nat → Option (Option Nat × Option Nat)
  | _, none, prev => some (none, prev)
  | 0, some _, _ => none
  | fuel + 1, some cur, prev =>
    match nodes cur with
    | none => none
    | some cell => if cell.key = key then some (some cur, prev) else findNode nodes key fuel cell.next (some cur)

/-- `BucketHeader::insert_item`; `node` is what `alloc` returns for a new `BucketNode`. -/
def insertItem (heap : Heap) (fuel bktIdx key item node : Nat) : Option Heap := do
  let (cur, prev) ← findNode heap.nodes key fuel (heap.firstNode bktIdx) none
  match cur, prev with
  | none, some prev =>
    let last ← heap.nodes prev
    let newNode : NodeCell := { key := key, next := last.next, items := some item }
    some { heap with
      nodes := Function.update (Function.update heap.nodes node (some newNode)) prev
        (some { last with next := some node }) }
  | none, none =>
    let newNode : NodeCell := { key := key, next := heap.firstNode bktIdx, items := some item }
    some { heap with
      nodes := Function.update heap.nodes node (some newNode)
      firstNode := Function.update heap.firstNode bktIdx (some node) }
  | some cur, _ =>
    let curNode ← heap.nodes cur
    let cell ← heap.items item
    some { heap with
      items := Function.update heap.items item (some { cell with next := curNode.items })
      nodes := Function.update heap.nodes cur (some { curNode with items := some item }) }

/-- `IndexHash::index_insert`. -/
def indexInsert (heap : Heap) (fuel key item node : Nat) : Option Heap :=
  let bktIdx := key % heap.bucketCntPerPart
  if bktIdx < heap.bucketCntPerPart then heap.insertItem fuel bktIdx key item node else none

/-- `IndexHash::index_read` with `BucketHeader::read_item`: the first item of a key. -/
def indexRead (heap : Heap) (fuel key : Nat) : Option (Option Nat) := do
  let (cur, _) ← findNode heap.nodes key fuel (heap.firstNode (key % heap.bucketCntPerPart)) none
  match cur with
  | none => some none
  | some cur => return (← heap.nodes cur).items

end Heap

/-- One `index_insert(key, item, 0)`: the item's cell as its caller prepared it in the memory that
`alloc` returned, and the memory a new node would get. -/
structure Insert where
  key : Nat
  item : Nat
  cell : ItemId
  node : Nat
  deriving DecidableEq, Repr

def Heap.insert (heap : Heap) (fuel : Nat) (call : Insert) : Option Heap :=
  { heap with items := Function.update heap.items call.item (some call.cell) }.indexInsert fuel
    call.key call.item call.node

/-- A sequence of inserts into an empty index. -/
def inserts (fuel bucketCntPerPart : Nat) (calls : List Insert) : Option Heap :=
  calls.foldlM (fun heap call => heap.insert fuel call) (Heap.init bucketCntPerPart)

/-- The items inserted under a key, the newest first. -/
def inserted (key : Nat) (calls : List Insert) : List Nat :=
  ((calls.filter (fun call => call.key = key)).map Insert.item).reverse

/-- What the memory of the first item of a key holds in `next`. -/
def tail (key : Nat) (calls : List Insert) : Option Nat :=
  ((calls.find? (fun call => call.key = key)).map (fun call => call.cell.next)).getD none

/-- `alloc` returns memory that is not in use. -/
structure Allocated (calls : List Insert) : Prop where
  items : (calls.map Insert.item).Nodup
  nodes : (calls.map Insert.node).Nodup

/-- A node cell with the chain of its items. -/
def Stored (heap : Heap) (stop : Nat → Option Nat) (a : Nat) (node : BucketNode Nat) : Prop :=
  ∃ cell, heap.nodes a = some cell ∧ cell.key = node.key ∧
    Linked.Path heap.nextItem cell.items node.items (stop node.key)

/-- The chain of a bucket, each node with its address. -/
def Linking (heap : Heap) (stop : Nat → Option Nat) (first : Option Nat)
    (chain : List (Nat × BucketNode Nat)) : Prop :=
  Chain heap.nextNode first (chain.map Prod.fst) ∧ ∀ entry ∈ chain, Stored heap stop entry.1 entry.2

structure Represents (heap : Heap) (stop : Nat → Option Nat) (index : IndexHash Nat) : Prop where
  count : index.bucketCntPerPart = heap.bucketCntPerPart
  chain : ∀ bktIdx, ∃ chain, Linking heap stop (heap.firstNode bktIdx) chain ∧
    chain.map Prod.snd = index.buckets 0 bktIdx
  placed : ∀ bktIdx, ∀ node ∈ index.buckets 0 bktIdx, node.key % heap.bucketCntPerPart = bktIdx

variable {heap : Heap} {stop stop' : Nat → Option Nat} {chain front back : List (Nat × BucketNode Nat)}
  {first prev : Option Nat} {key fuel item node : Nat}

theorem Linking.is_node (linking : Linking heap stop first chain) {entry : Nat × BucketNode Nat}
    (member : entry ∈ chain) : heap.nodes entry.1 ≠ none := by
  obtain ⟨cell, found, -⟩ := linking.2 entry member
  simp [found]

theorem Linking.cons {entry : Nat × BucketNode Nat} (linking : Linking heap stop first (entry :: chain)) :
    ∃ cell, first = some entry.1 ∧ heap.nodes entry.1 = some cell ∧ cell.key = entry.2.key ∧
      Linking heap stop cell.next chain := by
  obtain ⟨⟨here, after, follows, rest⟩, stored⟩ := linking
  obtain ⟨cell, found, named, -⟩ := stored entry List.mem_cons_self
  simp only [Heap.nextNode, found, Option.map_some, Option.some.injEq] at follows
  exact ⟨cell, here, found, named, follows ▸ rest,
    fun other member => stored other (List.mem_cons_of_mem _ member)⟩

/-- The last node of a bucket has no successor. -/
theorem Linking.last (linking : Linking heap stop first chain) {a : Nat}
    (last : (chain.map Prod.fst).getLast? = some a) : ∃ cell, heap.nodes a = some cell ∧ cell.next = none := by
  obtain ⟨front, same⟩ := List.getLast?_eq_some_iff.mp last
  have path := linking.1
  rw [same] at path
  obtain ⟨_, _, _, after, follows, rfl⟩ := path_append.mp path
  obtain ⟨cell, found, ended⟩ := Option.map_eq_some_iff.mp follows
  exact ⟨cell, found, ended⟩

/-- The loop over a chain without the key runs to its end. -/
theorem findNode_absent (prev : Option Nat) (linking : Linking heap stop first chain) (long : chain.length ≤ fuel)
    (absent : ∀ entry ∈ chain, entry.2.key ≠ key) :
    Heap.findNode heap.nodes key fuel first prev = some (none, ((chain.map Prod.fst).getLast?).or prev) := by
  induction chain generalizing first prev fuel with
  | nil =>
    obtain rfl : first = none := linking.1
    simp [Heap.findNode]
  | cons entry rest ih =>
    obtain ⟨cell, rfl, found, named, linking⟩ := linking.cons
    obtain ⟨fuel, rfl⟩ := Nat.exists_eq_add_of_le' (Nat.le_trans (Nat.le_add_left 1 _) long)
    have differs : cell.key ≠ key := named ▸ absent entry List.mem_cons_self
    simp only [Heap.findNode, found, if_neg differs]
    rw [ih (some entry.1) linking (by simpa using long)
      (fun other member => absent other (List.mem_cons_of_mem _ member))]
    simp [List.getLast?_cons]

theorem findNode_present (prev : Option Nat) {a : Nat} {known : BucketNode Nat}
    (linking : Linking heap stop first (front ++ (a, known) :: back)) (long : front.length < fuel)
    (absent : ∀ entry ∈ front, entry.2.key ≠ key) (named : known.key = key) :
    ∃ before, Heap.findNode heap.nodes key fuel first prev = some (some a, before) := by
  induction front generalizing first prev fuel with
  | nil =>
    obtain ⟨cell, rfl, found, same, -⟩ := linking.cons
    obtain ⟨fuel, rfl⟩ := Nat.exists_eq_add_of_le' long
    exact ⟨prev, by simp [Heap.findNode, found, same.trans named]⟩
  | cons entry rest ih =>
    obtain ⟨cell, rfl, found, same, linking⟩ := linking.cons
    obtain ⟨fuel, rfl⟩ := Nat.exists_eq_add_of_le' (Nat.le_trans (Nat.le_add_left 1 _) (Nat.le_of_lt long))
    have differs : cell.key ≠ key := same ▸ absent entry List.mem_cons_self
    simp only [Heap.findNode, found, if_neg differs]
    exact ih (some entry.1) linking (by simpa using long)
      (fun other member => absent other (List.mem_cons_of_mem _ member))

theorem insertItem_absent {bucket : BucketHeader Nat} (absent : ∀ known ∈ bucket, known.key ≠ key) :
    bucket.insertItem key item = bucket ++ [{ key := key, items := [item] }] := by
  induction bucket with
  | nil => rfl
  | cons known rest ih =>
    simp only [BucketHeader.insertItem, if_neg (absent known List.mem_cons_self), List.cons_append]
    rw [ih (fun other member => absent other (List.mem_cons_of_mem _ member))]

theorem insertItem_present {front back : BucketHeader Nat} {known : BucketNode Nat}
    (absent : ∀ other ∈ front, other.key ≠ key) (named : known.key = key) :
    BucketHeader.insertItem key item (front ++ known :: back) =
      front ++ { known with items := item :: known.items } :: back := by
  induction front with
  | nil => simp [BucketHeader.insertItem, named]
  | cons other rest ih =>
    simp only [List.cons_append, BucketHeader.insertItem, if_neg (absent other List.mem_cons_self)]
    rw [ih (fun other member => absent other (List.mem_cons_of_mem _ member))]

theorem items_of_split {front back : List (Nat × BucketNode Nat)} {a : Nat} {known : BucketNode Nat}
    (absent : ∀ entry ∈ front, entry.2.key ≠ key) (named : known.key = key) :
    BucketHeader.items key ((front ++ (a, known) :: back).map Prod.snd) = known.items := by
  induction front with
  | nil => simp [BucketHeader.items, named]
  | cons entry rest ih =>
    simp only [List.cons_append, List.map_cons, BucketHeader.items, if_neg (absent entry List.mem_cons_self)]
    exact ih (fun other member => absent other (List.mem_cons_of_mem _ member))

theorem exists_key_insertItem {bucket : BucketHeader Nat} {other : Nat} :
    (∃ known ∈ bucket.insertItem key item, known.key = other) ↔
      other = key ∨ ∃ known ∈ bucket, known.key = other := by
  induction bucket with
  | nil => simp [BucketHeader.insertItem, eq_comm]
  | cons known rest ih =>
    simp only [BucketHeader.insertItem]
    split
    next here => simp [here, eq_comm]
    next => simp only [List.exists_mem_cons_iff, ih]; tauto

theorem length_insertItem_le (key item : Nat) (bucket : BucketHeader Nat) :
    (bucket.insertItem key item).length ≤ bucket.length + 1 := by
  induction bucket with
  | nil => simp [BucketHeader.insertItem]
  | cons known rest ih =>
    simp only [BucketHeader.insertItem]
    split <;> simp_all

section Frame
variable {heap' : Heap} {a : Nat} {known : BucketNode Nat}

/-- What is stored in a node survives changes of its `next` and of other items. -/
theorem Stored.frame (stored : Stored heap stop a known)
    (nodes : ∀ cell, heap.nodes a = some cell → ∃ cell', heap'.nodes a = some cell' ∧
      cell'.key = cell.key ∧ cell'.items = cell.items)
    (items : ∀ i, heap.nextItem i ≠ none → heap'.nextItem i = heap.nextItem i)
    (stops : stop' known.key = stop known.key) : Stored heap' stop' a known := by
  obtain ⟨cell, found, named, path⟩ := stored
  obtain ⟨cell', found', key', items'⟩ := nodes cell found
  refine ⟨cell', found', key'.trans named, ?_⟩
  rw [items', stops]
  exact path.frame (fun i member => items i (path.is_cell member))

theorem Linking.frame (linking : Linking heap stop first chain)
    (nodes : ∀ entry ∈ chain, heap'.nodes entry.1 = heap.nodes entry.1)
    (items : ∀ i, heap.nextItem i ≠ none → heap'.nextItem i = heap.nextItem i)
    (stops : ∀ entry ∈ chain, stop' entry.2.key = stop entry.2.key) : Linking heap' stop' first chain := by
  refine ⟨linking.1.frame ?_, ?_⟩
  · intro b member
    obtain ⟨entry, inChain, rfl⟩ := List.mem_map.mp member
    simp only [Heap.nextNode, nodes entry inChain]
  · intro entry member
    refine (linking.2 entry member).frame ?_ items (stops entry member)
    intro cell found
    exact ⟨cell, (nodes entry member).trans found, rfl, rfl⟩

end Frame

/-- The heap after the item was linked before the older items of a node. -/
def linkItem (heap : Heap) (a item : Nat) (curNode : NodeCell) (cell : ItemId) : Heap :=
  { heap with
    items := Function.update heap.items item (some { cell with next := curNode.items })
    nodes := Function.update heap.nodes a (some { curNode with items := some item }) }

theorem linkItem_kept {a i : Nat} {curNode : NodeCell} {cell : ItemId} (fresh : heap.items item = none)
    (used : heap.nextItem i ≠ none) : (linkItem heap a item curNode cell).nextItem i = heap.nextItem i := by
  have apart : i ≠ item := by
    rintro rfl
    simp [Heap.nextItem, fresh] at used
  simp only [Heap.nextItem, linkItem, Function.update_of_ne apart]

theorem linkItem_used {a i : Nat} {curNode : NodeCell} {cell : ItemId}
    (used : (linkItem heap a item curNode cell).items i ≠ none) : i = item ∨ heap.items i ≠ none := by
  by_cases here : i = item
  · exact .inl here
  · exact .inr (by simpa [linkItem, Function.update_of_ne here] using used)

theorem linkItem_used_node {a b : Nat} {curNode : NodeCell} {cell : ItemId} (found : heap.nodes a = some curNode)
    (used : (linkItem heap a item curNode cell).nodes b ≠ none) : heap.nodes b ≠ none := by
  by_cases here : b = a
  · simp [here, found]
  · simpa [linkItem, Function.update_of_ne here] using used

theorem linking_linkItem {a : Nat} {known : BucketNode Nat} {curNode : NodeCell} {cell : ItemId}
    (linking : Linking heap stop first (front ++ (a, known) :: back))
    (found : heap.nodes a = some curNode) (fresh : heap.items item = none) :
    Linking (linkItem heap a item curNode cell) stop first
      (front ++ (a, { known with items := item :: known.items }) :: back) := by
  have items : ∀ i, heap.nextItem i ≠ none →
      (linkItem heap a item curNode cell).nextItem i = heap.nextItem i := fun i used => linkItem_kept fresh used
  have links : ∀ b, (linkItem heap a item curNode cell).nextNode b = heap.nextNode b := by
    intro b
    by_cases here : b = a
    · subst here
      simp [Heap.nextNode, linkItem, found]
    · simp only [Heap.nextNode, linkItem, Function.update_of_ne here]
  have addresses : (front ++ (a, { known with items := item :: known.items }) :: back).map Prod.fst =
      (front ++ (a, known) :: back).map Prod.fst := by simp
  have nodup := linking.1.nodup
  refine ⟨addresses ▸ linking.1.frame (fun b _ => links b), ?_⟩
  intro entry member
  have others : entry ∈ front ++ back → Stored (linkItem heap a item curNode cell) stop entry.1 entry.2 := by
    intro kept
    have listed : entry ∈ front ++ (a, known) :: back := by
      simp only [List.mem_append, List.mem_cons] at kept ⊢
      tauto
    have apart : entry.1 ≠ a := by
      rw [List.map_append, List.map_cons, List.nodup_middle, List.nodup_cons, ← List.map_append] at nodup
      intro same
      have again := List.mem_map_of_mem (f := Prod.fst) kept
      rw [same] at again
      exact nodup.1 again
    refine (linking.2 entry listed).frame ?_ items rfl
    intro other there
    exact ⟨other, by simp only [linkItem, Function.update_of_ne apart, there], rfl, rfl⟩
  simp only [List.mem_append, List.mem_cons] at member others
  rcases member with early | rfl | late
  · exact others (.inl early)
  · obtain ⟨cell', there, named, path⟩ := linking.2 (a, known) (by simp)
    cases found.symm.trans there
    refine ⟨{ curNode with items := some item }, by simp [linkItem], named, rfl, curNode.items, ?_, ?_⟩
    · simp [Heap.nextItem, linkItem]
    · exact path.frame (fun i member => items i (path.is_cell member))
  · exact others (.inr late)

/-- The heap after a node for the item's key was linked from the last node of its bucket. -/
def linkNode (heap : Heap) (bktIdx : Nat) (prev : Option Nat) (key item node : Nat) (cell : ItemId) : Heap :=
  let newNode : NodeCell := { key := key, next := none, items := some item }
  let items := Function.update heap.items item (some cell)
  match prev with
  | none =>
    { heap with
      items := items
      nodes := Function.update heap.nodes node (some newNode)
      firstNode := Function.update heap.firstNode bktIdx (some node) }
  | some prev =>
    { heap with
      items := items
      nodes := Function.update (Function.update heap.nodes node (some newNode)) prev
        ((heap.nodes prev).map (fun last => { last with next := some node })) }

section LinkNode
variable {bktIdx : Nat} {cell : ItemId}

theorem linkNode_items (prev : Option Nat) : (linkNode heap bktIdx prev key item node cell).items =
    Function.update heap.items item (some cell) := by
  cases prev <;> rfl

theorem linkNode_bucketCntPerPart :
    (linkNode heap bktIdx prev key item node cell).bucketCntPerPart = heap.bucketCntPerPart := by
  cases prev <;> rfl

theorem linkNode_firstNode {b : Nat} (apart : b ≠ bktIdx) :
    (linkNode heap bktIdx prev key item node cell).firstNode b = heap.firstNode b := by
  cases prev with
  | none => exact Function.update_of_ne apart ..
  | some p => rfl

theorem linkNode_kept (fresh : heap.items item = none) {i : Nat} (used : heap.nextItem i ≠ none) :
    (linkNode heap bktIdx prev key item node cell).nextItem i = heap.nextItem i := by
  have apart : i ≠ item := by
    rintro rfl
    simp [Heap.nextItem, fresh] at used
  simp only [Heap.nextItem, linkNode_items, Function.update_of_ne apart]

theorem linkNode_other {a : Nat} (apart : a ≠ node) (notPrev : prev ≠ some a) :
    (linkNode heap bktIdx prev key item node cell).nodes a = heap.nodes a := by
  cases prev with
  | none => simp only [linkNode, Function.update_of_ne apart]
  | some p =>
    have differs : a ≠ p := fun same => notPrev (same ▸ rfl)
    simp only [linkNode, Function.update_of_ne differs, Function.update_of_ne apart]

theorem linkNode_stored {a : Nat} (apart : a ≠ node) {other : NodeCell} (found : heap.nodes a = some other) :
    ∃ cell', (linkNode heap bktIdx prev key item node cell).nodes a = some cell' ∧
      cell'.key = other.key ∧ cell'.items = other.items := by
  by_cases here : prev = some a
  · subst here
    exact ⟨{ other with next := some node }, by simp [linkNode, found], rfl, rfl⟩
  · exact ⟨other, (linkNode_other apart here).trans found, rfl, rfl⟩

theorem linkNode_used {i : Nat} (used : (linkNode heap bktIdx prev key item node cell).items i ≠ none) :
    i = item ∨ heap.items i ≠ none := by
  rw [linkNode_items] at used
  by_cases here : i = item
  · exact .inl here
  · exact .inr (by simpa [Function.update_of_ne here] using used)

theorem linkNode_used_node {b : Nat} (used : (linkNode heap bktIdx prev key item node cell).nodes b ≠ none) :
    b = node ∨ heap.nodes b ≠ none := by
  by_cases here : b = node
  · exact .inl here
  · right
    by_cases last : prev = some b
    · subst last
      intro unused
      simp [linkNode, unused] at used
    · rwa [linkNode_other here last] at used

theorem linkNode_new (notPrev : prev ≠ some node) :
    (linkNode heap bktIdx prev key item node cell).nodes node =
      some { key := key, next := none, items := some item } := by
  cases prev with
  | none => simp [linkNode]
  | some p =>
    have differs : node ≠ p := fun same => notPrev (same ▸ rfl)
    simp [linkNode, Function.update_of_ne differs]

theorem chain_linkNode {addresses : List Nat}
    (chain : Chain heap.nextNode (heap.firstNode bktIdx) addresses) (fresh : heap.nodes node = none) :
    Chain (linkNode heap bktIdx addresses.getLast? key item node cell).nextNode
      ((linkNode heap bktIdx addresses.getLast? key item node cell).firstNode bktIdx) (addresses ++ [node]) := by
  have apart : ∀ b ∈ addresses, b ≠ node := by
    rintro b member rfl
    exact chain.is_cell member (by simp [Heap.nextNode, fresh])
  have final : (linkNode heap bktIdx addresses.getLast? key item node cell).nextNode node = some none := by
    rw [Heap.nextNode, linkNode_new (fun last => apart node (List.mem_of_getLast? last) rfl)]
    rfl
  rcases List.eq_nil_or_concat addresses with rfl | ⟨front, last, rfl⟩
  · exact ⟨by simp [linkNode], none, final, rfl⟩
  · simp only [List.concat_eq_append, List.getLast?_concat] at chain apart final ⊢
    refine chain.snoc ?_ ?_ final
    · intro b early
      have notLast : some last ≠ some b := by
        intro same
        cases Option.some.inj same
        exact (List.nodup_append.mp chain.nodup).2.2 _ early _ List.mem_cons_self rfl
      simp only [Heap.nextNode, linkNode_other (apart b (List.mem_append_left _ early)) notLast]
    · have used := chain.is_cell (List.mem_append_right front List.mem_cons_self)
      obtain ⟨cell', found⟩ := Option.ne_none_iff_exists'.mp used
      obtain ⟨other, there, -⟩ := Option.map_eq_some_iff.mp found
      simp [Heap.nextNode, linkNode, there]

theorem linking_linkNode (linking : Linking heap stop (heap.firstNode bktIdx) chain)
    (absent : ∀ entry ∈ chain, entry.2.key ≠ key) (freshItem : heap.items item = none)
    (freshNode : heap.nodes node = none) :
    Linking (linkNode heap bktIdx (chain.map Prod.fst).getLast? key item node cell)
      (Function.update stop key cell.next)
      ((linkNode heap bktIdx (chain.map Prod.fst).getLast? key item node cell).firstNode bktIdx)
      (chain ++ [(node, { key := key, items := [item] })]) := by
  refine ⟨?_, ?_⟩
  · rw [List.map_append]
    exact chain_linkNode linking.1 freshNode
  · intro entry member
    rcases List.mem_append.mp member with old | new
    · have apart : entry.1 ≠ node := fun same => linking.is_node old (same ▸ freshNode)
      refine (linking.2 entry old).frame (fun other found => linkNode_stored apart found)
        (fun i used => linkNode_kept freshItem used) ?_
      rw [Function.update_of_ne (absent entry old)]
    · obtain rfl := List.mem_singleton.mp new
      have notPrev : (chain.map Prod.fst).getLast? ≠ some node := by
        intro last
        obtain ⟨entry, member, same⟩ := List.mem_map.mp (List.mem_of_getLast? last)
        exact linking.is_node member (same ▸ freshNode)
      refine ⟨_, linkNode_new notPrev, rfl, rfl, cell.next, ?_, ?_⟩
      · simp [Heap.nextItem, linkNode_items]
      · simp [Linked.Path]

end LinkNode

theorem buckets_indexInsert (index : IndexHash Nat) (key item bktIdx : Nat) :
    (index.indexInsert key item 0).buckets 0 bktIdx =
      if bktIdx = key % index.bucketCntPerPart then (index.buckets 0 bktIdx).insertItem key item
      else index.buckets 0 bktIdx := by
  obtain ⟨_, bucketCntPerPart, buckets⟩ := index
  simp only [IndexHash.indexInsert, Function.update_self]
  split
  next here => rw [here, Function.update_self]
  next apart => rw [Function.update_of_ne apart]

namespace Represents

variable {index : IndexHash Nat}

/-- A node lies in one bucket only. -/
theorem bucket_unique (rep : Represents heap stop index) {b b' a : Nat} {known : BucketNode Nat}
    {chain' : List (Nat × BucketNode Nat)} (member : (a, known) ∈ chain)
    (linking : Linking heap stop (heap.firstNode b) chain) (bucket : chain.map Prod.snd = index.buckets 0 b)
    {entry : Nat × BucketNode Nat} (member' : entry ∈ chain')
    (linking' : Linking heap stop (heap.firstNode b') chain') (bucket' : chain'.map Prod.snd = index.buckets 0 b')
    (same : entry.1 = a) : b' = b := by
  obtain ⟨cell, found, named, -⟩ := linking.2 _ member
  obtain ⟨cell', found', named', -⟩ := linking'.2 _ member'
  rw [same] at found'
  cases found.symm.trans found'
  have here := rep.placed b known (bucket ▸ List.mem_map_of_mem (f := Prod.snd) member)
  have there := rep.placed b' entry.2 (bucket' ▸ List.mem_map_of_mem member')
  rw [← here, ← there, ← named, named']

theorem placed_insert (rep : Represents heap stop index) (key item : Nat) (bktIdx : Nat) :
    ∀ node ∈ (index.indexInsert key item 0).buckets 0 bktIdx, node.key % heap.bucketCntPerPart = bktIdx := by
  intro node member
  rw [buckets_indexInsert] at member
  split at member
  next here =>
    rcases exists_key_insertItem.mp ⟨node, member, rfl⟩ with same | ⟨known, listed, same⟩
    · rw [same, here, rep.count]
    · rw [← same]
      exact rep.placed bktIdx known listed
  next => exact rep.placed bktIdx node member

/-- An insert under a known key. -/
theorem insert_known (rep : Represents heap stop index) (positive : 0 < heap.bucketCntPerPart) {call : Insert}
    (long : (index.buckets 0 (call.key % heap.bucketCntPerPart)).length ≤ fuel)
    (fresh : heap.items call.item = none)
    (known : ∃ node ∈ index.buckets 0 (call.key % heap.bucketCntPerPart), node.key = call.key) :
    ∃ a curNode, heap.nodes a = some curNode ∧
      heap.insert fuel call = some (linkItem heap a call.item curNode call.cell) ∧
      Represents (linkItem heap a call.item curNode call.cell) stop (index.indexInsert call.key call.item 0) := by
  obtain ⟨chain, linking, bucket⟩ := rep.chain (call.key % heap.bucketCntPerPart)
  -- the loop stops at the first node of the key
  obtain ⟨⟨a, node⟩, first⟩ : ∃ entry, chain.find? (fun entry => entry.2.key = call.key) = some entry := by
    obtain ⟨node, listed, named⟩ := known
    rw [← bucket] at listed
    obtain ⟨entry, member, rfl⟩ := List.mem_map.mp listed
    exact Option.isSome_iff_exists.mp (List.find?_isSome.mpr ⟨entry, member, decide_eq_true named⟩)
  obtain ⟨named, front, back, rfl, early⟩ := List.find?_eq_some_iff_append.mp first
  have named : node.key = call.key := of_decide_eq_true named
  have absent : ∀ entry ∈ front, entry.2.key ≠ call.key :=
    fun entry member => by simpa using early entry member
  obtain ⟨curNode, found, -⟩ := linking.2 (a, node) (by simp)
  have room : front.length < fuel := by
    rw [← bucket] at long
    simp only [List.map_append, List.map_cons, List.length_append, List.length_map, List.length_cons] at long
    omega
  obtain ⟨before, stopped⟩ := findNode_present none linking room absent named
  refine ⟨a, curNode, found, ?_, rep.count, ?_, rep.placed_insert call.key call.item⟩
  · simp [Heap.insert, Heap.indexInsert, Nat.mod_lt _ positive, Heap.insertItem, stopped, found, linkItem]
  · intro b
    rw [buckets_indexInsert, rep.count]
    by_cases here : b = call.key % heap.bucketCntPerPart
    · subst here
      refine ⟨_, linking_linkItem linking found fresh, ?_⟩
      have others : ∀ other ∈ front.map Prod.snd, other.key ≠ call.key := by
        intro other member
        obtain ⟨entry, inFront, rfl⟩ := List.mem_map.mp member
        exact absent entry inFront
      rw [if_pos rfl, ← bucket]
      simp only [List.map_append, List.map_cons]
      rw [insertItem_present others named]
    · rw [if_neg here]
      obtain ⟨other, linking', bucket'⟩ := rep.chain b
      refine ⟨other, linking'.frame ?_ ?_ (fun _ _ => rfl), bucket'⟩
      · intro entry member
        have apart : entry.1 ≠ a := fun same =>
          here (rep.bucket_unique (List.mem_append_right _ List.mem_cons_self) linking bucket member linking'
            bucket' same)
        simp only [linkItem, Function.update_of_ne apart]
      · exact fun i used => linkItem_kept fresh used

/-- An insert under a new key. -/
theorem insert_new (rep : Represents heap stop index) (positive : 0 < heap.bucketCntPerPart) {call : Insert}
    (long : (index.buckets 0 (call.key % heap.bucketCntPerPart)).length ≤ fuel)
    (freshItem : heap.items call.item = none) (freshNode : heap.nodes call.node = none)
    (absent : ∀ node ∈ index.buckets 0 (call.key % heap.bucketCntPerPart), node.key ≠ call.key) :
    ∃ prev, heap.insert fuel call = some (linkNode heap (call.key % heap.bucketCntPerPart) prev call.key
        call.item call.node call.cell) ∧
      Represents (linkNode heap (call.key % heap.bucketCntPerPart) prev call.key call.item call.node call.cell)
        (Function.update stop call.key call.cell.next) (index.indexInsert call.key call.item 0) := by
  obtain ⟨chain, linking, bucket⟩ := rep.chain (call.key % heap.bucketCntPerPart)
  have missing : ∀ entry ∈ chain, entry.2.key ≠ call.key :=
    fun entry member => absent entry.2 (bucket ▸ List.mem_map_of_mem member)
  rw [← bucket, List.length_map] at long
  have stopped := findNode_absent none linking long missing
  refine ⟨(chain.map Prod.fst).getLast?, ?_, ?_, ?_, ?_⟩
  · simp only [Heap.insert, Heap.indexInsert, Nat.mod_lt _ positive, ↓reduceIte, Heap.insertItem, stopped,
      Option.or_none, Option.bind_eq_bind, Option.bind_some]
    cases last : (chain.map Prod.fst).getLast? with
    | none =>
      obtain rfl : chain = [] := by simpa using last
      obtain empty : heap.firstNode (call.key % heap.bucketCntPerPart) = none := linking.1
      simp [linkNode, empty]
    | some prev =>
      obtain ⟨cell, found, ended⟩ := linking.last last
      simp [linkNode, found, ended]
  · exact rep.count.trans linkNode_bucketCntPerPart.symm
  · intro b
    rw [buckets_indexInsert, rep.count]
    by_cases here : b = call.key % heap.bucketCntPerPart
    · subst here
      refine ⟨_, linking_linkNode linking missing freshItem freshNode, ?_⟩
      rw [if_pos rfl, insertItem_absent absent, ← bucket]
      simp
    · rw [if_neg here]
      obtain ⟨other, linking', bucket'⟩ := rep.chain b
      refine ⟨other, ?_, bucket'⟩
      rw [linkNode_firstNode here]
      refine linking'.frame ?_ (fun i used => linkNode_kept freshItem used) ?_
      · intro entry member
        refine linkNode_other (fun same => linking'.is_node member (same ▸ freshNode)) ?_
        intro last
        obtain ⟨⟨a, node⟩, listed, same⟩ := List.mem_map.mp (List.mem_of_getLast? last)
        exact here (rep.bucket_unique listed linking bucket member linking' bucket' same.symm)
      · intro entry member
        have elsewhere := rep.placed b entry.2 (bucket' ▸ List.mem_map_of_mem member)
        have apart : entry.2.key ≠ call.key := fun same => here (elsewhere ▸ same ▸ rfl)
        rw [Function.update_of_ne apart]
  · rw [linkNode_bucketCntPerPart]
    exact rep.placed_insert call.key call.item

end Represents

/-- The list model after the calls. -/
def listed (bucketCntPerPart : Nat) (calls : List Insert) : IndexHash Nat :=
  calls.foldl (fun index call => index.indexInsert call.key call.item 0)
    ⟨bucketCntPerPart, bucketCntPerPart, fun _ _ => []⟩

/-- The heap after some calls. -/
structure After (heap : Heap) (calls : List Insert) (bucketCntPerPart : Nat) : Prop where
  count : heap.bucketCntPerPart = bucketCntPerPart
  represents : Represents heap (fun key => tail key calls) (listed bucketCntPerPart calls)
  keys : ∀ key, (∃ node ∈ (listed bucketCntPerPart calls).buckets 0 (key % bucketCntPerPart), node.key = key) ↔
    ∃ call ∈ calls, call.key = key
  short : ∀ bktIdx, ((listed bucketCntPerPart calls).buckets 0 bktIdx).length ≤ calls.length
  items : ∀ a, heap.items a ≠ none → a ∈ calls.map Insert.item
  nodes : ∀ a, heap.nodes a ≠ none → a ∈ calls.map Insert.node

section Runs
variable {calls : List Insert} {call : Insert} {bucketCntPerPart : Nat}

theorem listed_snoc : listed bucketCntPerPart (calls ++ [call]) =
    (listed bucketCntPerPart calls).indexInsert call.key call.item 0 := by
  simp [listed, List.foldl_append]

theorem listed_count : (listed bucketCntPerPart calls).bucketCntPerPart = bucketCntPerPart := by
  induction calls using List.reverseRecOn with
  | nil => rfl
  | append_singleton calls call ih => rw [listed_snoc]; exact ih

theorem inserted_snoc (key : Nat) : inserted key (calls ++ [call]) =
    if call.key = key then call.item :: inserted key calls else inserted key calls := by
  unfold inserted
  rw [List.filter_append]
  by_cases same : call.key = key <;> simp [same]

theorem items_listed (key : Nat) : (listed bucketCntPerPart calls).items key 0 = inserted key calls := by
  induction calls using List.reverseRecOn with
  | nil => rfl
  | append_singleton calls call ih =>
    rw [listed_snoc, IndexHash.items_indexInsert, inserted_snoc, ih]
    by_cases same : call.key = key
    · subst same
      simp [ih]
    · simp [same, Ne.symm same]

theorem tail_snoc_known (known : ∃ other ∈ calls, other.key = call.key) (key : Nat) :
    tail key (calls ++ [call]) = tail key calls := by
  unfold tail
  rw [List.find?_append]
  cases first : calls.find? (fun call => call.key = key) with
  | some other => simp
  | none =>
    have apart : call.key ≠ key := by
      rintro rfl
      obtain ⟨other, member, same⟩ := known
      exact absurd (List.find?_eq_none.mp first other member) (by simp [same])
    simp [apart]

theorem tail_snoc_new (absent : ∀ other ∈ calls, other.key ≠ call.key) :
    (fun key => tail key (calls ++ [call])) =
      Function.update (fun key => tail key calls) call.key call.cell.next := by
  funext key
  unfold tail
  rw [List.find?_append]
  by_cases same : key = call.key
  · subst same
    have none : calls.find? (fun other => other.key = call.key) = none :=
      List.find?_eq_none.mpr (fun other member => by simpa using absent other member)
    simp [none]
  · rw [Function.update_of_ne same]
    simp [Ne.symm same]

theorem keys_snoc (keys : ∀ key, (∃ node ∈ (listed bucketCntPerPart calls).buckets 0 (key % bucketCntPerPart),
    node.key = key) ↔ ∃ call ∈ calls, call.key = key) (key : Nat) :
    (∃ node ∈ (listed bucketCntPerPart (calls ++ [call])).buckets 0 (key % bucketCntPerPart), node.key = key) ↔
      ∃ other ∈ calls ++ [call], other.key = key := by
  have later : (∃ other ∈ calls ++ [call], other.key = key) ↔ key = call.key ∨ ∃ other ∈ calls, other.key = key := by
    simp only [List.mem_append, List.mem_singleton, or_and_right, exists_or, exists_eq_left]
    rw [or_comm, eq_comm]
  rw [later, ← keys key, listed_snoc, buckets_indexInsert, listed_count]
  split
  next => exact exists_key_insertItem
  next apart =>
    have differs : key ≠ call.key := fun same => apart (by rw [same])
    simp [differs]

theorem short_snoc (short : ∀ bktIdx, ((listed bucketCntPerPart calls).buckets 0 bktIdx).length ≤ calls.length)
    (bktIdx : Nat) :
    ((listed bucketCntPerPart (calls ++ [call])).buckets 0 bktIdx).length ≤ (calls ++ [call]).length := by
  have before := short bktIdx
  rw [listed_snoc, buckets_indexInsert, List.length_append, List.length_singleton]
  split
  · have grows := length_insertItem_le call.key call.item
      ((listed bucketCntPerPart calls).buckets 0 bktIdx)
    omega
  · omega

theorem used_snoc {β : Type} {cells cells' : Nat → Option β} {address : Insert → Nat}
    (used : ∀ a, cells a ≠ none → a ∈ calls.map address)
    (grows : ∀ a, cells' a ≠ none → a = address call ∨ cells a ≠ none) (a : Nat) (now : cells' a ≠ none) :
    a ∈ (calls ++ [call]).map address := by
  rw [List.map_append, List.mem_append]
  rcases grows a now with rfl | before
  · exact .inr List.mem_cons_self
  · exact .inl (used a before)

/-- One more call, whose item and node are memory not in use. -/
theorem After.insert (after : After heap calls bucketCntPerPart) (positive : 0 < bucketCntPerPart)
    (long : calls.length ≤ fuel) (freshItem : call.item ∉ calls.map Insert.item)
    (freshNode : call.node ∉ calls.map Insert.node) :
    ∃ heap', heap.insert fuel call = some heap' ∧ After heap' (calls ++ [call]) bucketCntPerPart := by
  obtain ⟨rfl, rep, keys, short, items, nodes⟩ := after
  have noItem : heap.items call.item = none := by
    by_contra used
    exact freshItem (items _ used)
  have noNode : heap.nodes call.node = none := by
    by_contra used
    exact freshNode (nodes _ used)
  have fits := Nat.le_trans (short (call.key % heap.bucketCntPerPart)) long
  by_cases known : ∃ other ∈ calls, other.key = call.key
  · obtain ⟨a, curNode, found, result, rep'⟩ := rep.insert_known positive fits noItem ((keys call.key).mpr known)
    refine ⟨_, result, rfl, ?_, keys_snoc keys, short_snoc short, ?_, ?_⟩
    · rw [funext (tail_snoc_known known), listed_snoc]
      exact rep'
    · exact used_snoc items (fun i used => linkItem_used used)
    · exact used_snoc nodes (fun b used => .inr (linkItem_used_node found used))
  · have absent : ∀ other ∈ calls, other.key ≠ call.key := fun other member same => known ⟨other, member, same⟩
    have missing : ∀ node ∈ (listed heap.bucketCntPerPart calls).buckets 0 (call.key % heap.bucketCntPerPart),
        node.key ≠ call.key := fun node member same => known ((keys call.key).mp ⟨node, member, same⟩)
    obtain ⟨prev, result, rep'⟩ := rep.insert_new positive fits noItem noNode missing
    refine ⟨_, result, linkNode_bucketCntPerPart, ?_, keys_snoc keys, short_snoc short, ?_, ?_⟩
    · rw [tail_snoc_new absent, listed_snoc]
      exact rep'
    · exact used_snoc items (fun i used => linkNode_used used)
    · exact used_snoc nodes (fun b used => linkNode_used_node used)

theorem after_init : After (Heap.init bucketCntPerPart) [] bucketCntPerPart where
  count := rfl
  represents :=
    ⟨rfl, fun _ => ⟨[], ⟨rfl, fun _ member => nomatch member⟩, rfl⟩, fun _ _ member => nomatch member⟩
  keys key := by simp [listed]
  short bktIdx := Nat.le_refl 0
  items a used := absurd rfl used
  nodes a used := absurd rfl used

/-- Every sequence of inserts into memory not in use completes. -/
theorem inserts_after (positive : 0 < bucketCntPerPart) (fresh : Allocated calls) (long : calls.length ≤ fuel) :
    ∃ heap, inserts fuel bucketCntPerPart calls = some heap ∧ After heap calls bucketCntPerPart := by
  induction calls using List.reverseRecOn with
  | nil => exact ⟨_, rfl, after_init⟩
  | append_singleton calls call ih =>
    obtain ⟨items, nodes⟩ := fresh
    rw [List.length_append, List.length_singleton] at long
    simp only [List.map_append, List.map_cons, List.map_nil, List.nodup_append, List.mem_singleton] at items nodes
    obtain ⟨heap, ran, after⟩ := ih ⟨items.1, nodes.1⟩ (by omega)
    have freshItem : call.item ∉ calls.map Insert.item := fun member => items.2.2 _ member _ rfl rfl
    have freshNode : call.node ∉ calls.map Insert.node := fun member => nodes.2.2 _ member _ rfl rfl
    obtain ⟨heap', result, after'⟩ := after.insert positive (Nat.le_of_succ_le long) freshItem freshNode
    refine ⟨heap', ?_, after'⟩
    unfold inserts at ran ⊢
    rw [List.foldlM_append, ran]
    simpa using result

/-- From its bucket node, every item of a key is reached, the newest first; where the pointers
lead then is what the memory of the first item held. -/
theorem After.read_path (after : After heap calls bucketCntPerPart) (long : calls.length ≤ fuel) (key : Nat) :
    ∃ head, heap.indexRead fuel key = some head ∧
      Linked.Path heap.nextItem head (inserted key calls) (tail key calls) := by
  obtain ⟨rfl, rep, keys, short, -, -⟩ := after
  obtain ⟨chain, linking, bucket⟩ := rep.chain (key % heap.bucketCntPerPart)
  have fits : chain.length ≤ fuel := by
    have bound := short (key % heap.bucketCntPerPart)
    rw [← bucket, List.length_map] at bound
    omega
  have count : (listed heap.bucketCntPerPart calls).hash key = key % heap.bucketCntPerPart := by
    rw [IndexHash.hash, rep.count]
  have items : BucketHeader.items key (chain.map Prod.snd) = inserted key calls := by
    rw [bucket, ← items_listed, IndexHash.items, count]
  cases first : chain.find? (fun entry => entry.2.key = key) with
  | none =>
    have absent : ∀ entry ∈ chain, entry.2.key ≠ key :=
      fun entry member => by simpa using List.find?_eq_none.mp first entry member
    have none_inserted : ∀ call ∈ calls, call.key ≠ key := by
      intro call member same
      obtain ⟨node, listed, named⟩ := (keys key).mpr ⟨call, member, same⟩
      rw [← bucket] at listed
      obtain ⟨entry, inChain, rfl⟩ := List.mem_map.mp listed
      exact absent entry inChain named
    refine ⟨none, ?_, ?_⟩
    · simp [Heap.indexRead, findNode_absent none linking fits absent]
    · have empty : calls.find? (fun call => call.key = key) = none :=
        List.find?_eq_none.mpr (fun call member => by simpa using none_inserted call member)
      have nothing : inserted key calls = [] := by
        simpa [inserted, List.filter_eq_nil_iff] using none_inserted
      simp [tail, empty, nothing, Linked.Path]
  | some entry =>
    obtain ⟨a, node⟩ := entry
    obtain ⟨named, front, back, rfl, early⟩ := List.find?_eq_some_iff_append.mp first
    have named : node.key = key := of_decide_eq_true named
    have absent : ∀ entry ∈ front, entry.2.key ≠ key := fun entry member => by simpa using early entry member
    have room : front.length < fuel := by
      simp only [List.length_append, List.length_cons] at fits
      omega
    obtain ⟨before, stopped⟩ := findNode_present none linking room absent named
    obtain ⟨cell, found, -, path⟩ := linking.2 (a, node) (by simp)
    refine ⟨cell.items, by simp [Heap.indexRead, stopped, found], ?_⟩
    rw [named] at path
    rw [← items, items_of_split absent named]
    exact path

end Runs

/-- The chain reached from the bucket node of a key ends in NULL and lists exactly the items
inserted under the key, the newest first. -/
def ListsItems (fuel : Nat) (heap : Heap) (calls : List Insert) (key : Nat) : Prop :=
  ∃ head, heap.indexRead fuel key = some head ∧ Chain heap.nextItem head (inserted key calls)

theorem listsItems_iff {calls : List Insert} {bucketCntPerPart : Nat} (after : After heap calls bucketCntPerPart)
    (long : calls.length ≤ fuel) (key : Nat) : ListsItems fuel heap calls key ↔ tail key calls = none := by
  obtain ⟨head, read, path⟩ := after.read_path long key
  constructor
  · rintro ⟨head', read', chain⟩
    cases read.symm.trans read'
    exact path.stop_unique chain
  · intro ended
    rw [ended] at path
    exact ⟨head, read, path⟩

/-- What the callers write into the memory of a new item. -/
def newItem (raw : ItemId) (location : Nat) : ItemId :=
  { raw with type := .DT_row, location := location, valid := true }

/-- The item of `txn_man::Write`. -/
def writeItem (raw : ItemId) (newRow : Nat) : ItemId := newItem raw newRow

/-- The item of `init_engine`. -/
def initEngineItem (raw : ItemId) (newRow : Nat) : ItemId := newItem raw newRow

/-- The item of `TestWorkload::init_table`. -/
def initTableItem (raw : ItemId) (newRow : Nat) : ItemId := newItem raw newRow

/-- `itemid_t::init`. -/
def ItemId.init (item : ItemId) : ItemId := { item with valid := false, location := 0, next := none }

/-- The item of `workload::index_insert`, which alone of all callers initialises it. -/
def indexInsertItem (raw : ItemId) (row : Nat) : ItemId := newItem raw.init row

inductive Caller where
  | write | initEngine | initTable
  deriving DecidableEq, Repr

def Caller.prepare : Caller → ItemId → Nat → ItemId
  | .write => writeItem
  | .initEngine => initEngineItem
  | .initTable => initTableItem

/-- One of the callers creates an item in memory that held `raw` and inserts it. -/
structure Request where
  caller : Caller
  key : Nat
  row : Nat
  item : Nat
  raw : ItemId
  node : Nat
  deriving DecidableEq, Repr

def Request.insert (request : Request) : Insert :=
  { key := request.key, item := request.item, cell := request.caller.prepare request.raw request.row,
    node := request.node }

theorem Caller.prepare_next (caller : Caller) (raw : ItemId) (row : Nat) :
    (caller.prepare raw row).next = raw.next := by
  cases caller <;> rfl

theorem tail_requests (key : Nat) (requests : List Request) :
    tail key (requests.map Request.insert) =
      ((requests.find? (fun request => request.key = key)).map (fun request => request.raw.next)).getD none := by
  simp only [tail, List.find?_map, Option.map_map, Function.comp_def, Request.insert, Caller.prepare_next]
  rfl

/-- Over every sequence of inserts by the three callers, the chain of a key lists its items and
ends exactly when the memory of its first item held a null `next`. -/
theorem item_chains_end_iff (fuel bucketCntPerPart : Nat) (positive : 0 < bucketCntPerPart)
    (requests : List Request) (fresh : Allocated (requests.map Request.insert)) (long : requests.length ≤ fuel) :
    ∃ heap, inserts fuel bucketCntPerPart (requests.map Request.insert) = some heap ∧
      ∀ key, ListsItems fuel heap (requests.map Request.insert) key ↔
        ∀ first, requests.find? (fun request => request.key = key) = some first → first.raw.next = none := by
  have long' : (requests.map Request.insert).length ≤ fuel := by rwa [List.length_map]
  obtain ⟨heap, ran, after⟩ := inserts_after positive fresh long'
  refine ⟨heap, ran, fun key => (listsItems_iff after long' key).trans ?_⟩
  rw [tail_requests]
  cases requests.find? (fun request => request.key = key) <;> simp

/-- A loader's key and a transaction's, each twice; only the first item of a key needs NULL. -/
def twoKeys : List Request :=
  let clean : ItemId := ⟨.DT_table, 0, none, false⟩
  [⟨.initEngine, 7, 100, 1, clean, 11⟩, ⟨.write, 8, 101, 2, clean, 12⟩,
    ⟨.write, 7, 102, 3, { clean with next := some 99 }, 13⟩]

theorem item_chains_end_twoKeys : ∃ heap, inserts 3 1 (twoKeys.map Request.insert) = some heap ∧
    ListsItems 3 heap (twoKeys.map Request.insert) 7 := by
  obtain ⟨heap, ran, ends⟩ := item_chains_end_iff 3 1 (by decide) twoKeys ⟨by decide, by decide⟩ (by decide)
  refine ⟨heap, ran, (ends 7).mpr ?_⟩
  intro first found
  have same : first = ⟨.initEngine, 7, 100, 1, ⟨.DT_table, 0, none, false⟩, 11⟩ := by
    simpa [twoKeys, eq_comm] using found
  rw [same]

/-- One `Write` of a new key into memory whose `next` bytes are not zero. -/
def dirtyWrite : List Request := [⟨.write, 7, 100, 1, ⟨.DT_table, 0, some 99, false⟩, 11⟩]

/-- The chain of the key goes on past its only item. -/
theorem dirtyWrite_unended : ¬ ∀ (fuel bucketCntPerPart : Nat) (requests : List Request), 0 < bucketCntPerPart →
    Allocated (requests.map Request.insert) → requests.length ≤ fuel →
    ∀ heap, inserts fuel bucketCntPerPart (requests.map Request.insert) = some heap →
      ∀ key, ListsItems fuel heap (requests.map Request.insert) key := by
  intro always
  obtain ⟨heap, ran, after⟩ : ∃ heap, inserts 1 1 (dirtyWrite.map Request.insert) = some heap ∧
      After heap (dirtyWrite.map Request.insert) 1 :=
    inserts_after (by decide) ⟨by decide, by decide⟩ (by decide)
  have ends := always 1 1 dirtyWrite (by decide) ⟨by decide, by decide⟩ (by decide) heap ran 7
  have ended := (listsItems_iff after (by decide) 7).mp ends
  exact absurd ended (by decide)

/-- Items that `workload::index_insert` prepares always end their chains. -/
theorem chains_of_init_end {bucketCntPerPart : Nat} (positive : 0 < bucketCntPerPart) (calls : List Insert)
    (fresh : Allocated calls) (long : calls.length ≤ fuel)
    (prepared : ∀ call ∈ calls, ∃ raw row, call.cell = indexInsertItem raw row) :
    ∃ heap, inserts fuel bucketCntPerPart calls = some heap ∧ ∀ key, ListsItems fuel heap calls key := by
  obtain ⟨heap, ran, after⟩ := inserts_after positive fresh long
  refine ⟨heap, ran, fun key => (listsItems_iff after long key).mpr ?_⟩
  unfold tail
  cases first : calls.find? (fun call => call.key = key) with
  | none => rfl
  | some call =>
    obtain ⟨raw, row, same⟩ := prepared call (List.mem_of_find?_eq_some first)
    simp [same, indexInsertItem, newItem, ItemId.init]

end DataAgentDB.Storage.ItemChains
