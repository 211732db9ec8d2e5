import DataAgentDB.Storage.LatchedChains

/-! Inserts under the latch and reads without it are linearizable: each takes effect in one step of
its own. -/

namespace DataAgentDB.Storage.IndexLatch
open Linked LabelledRun ItemChains

section Laid
variable {s : State} {stop stop' : Nat → Option Nat} {chains chains' : Nat → List (Nat × BucketNode Nat)}
  {heap heap' : Heap} {t : Nat}

/-- The list model of the chains. -/
structure Models (bucketCntPerPart : Nat) (chains : Nat → List (Nat × BucketNode Nat)) (index : IndexHash Nat) :
    Prop where
  count : index.bucketCntPerPart = bucketCntPerPart
  buckets : ∀ b, index.buckets 0 b = (chains b).map Prod.snd

theorem Models.insert {n key item : Nat} {index : IndexHash Nat} (models : Models n chains index)
    (other : ∀ b, b ≠ key % n → chains' b = chains b)
    (here : (chains' (key % n)).map Prod.snd = BucketHeader.insertItem key item ((chains (key % n)).map Prod.snd)) :
    Models n chains' (index.indexInsert key item 0) := by
  refine ⟨models.count, fun b => ?_⟩
  rw [buckets_indexInsert, models.count]
  split
  next same => rw [same, here, models.buckets]
  next differs => rw [other b differs, models.buckets]

/-- The heap without the cells that only one thread knows. -/
def without (heap : Heap) (item node : Nat) : Heap :=
  { heap with items := Function.update heap.items item none, nodes := Function.update heap.nodes node none }

theorem linkNode_without {b key item node : Nat} {cell : ItemId} (there : heap.items item = some cell)
    (filled : heap.nodes node = some { key := key, next := none, items := some item }) :
    linkNode (without heap item node) b none key item node cell = setFirst heap b node ∧
      ∀ prev last, heap.nodes prev = some last → prev ≠ node →
        linkNode (without heap item node) b (some prev) key item node cell =
          setNode heap prev { last with next := some node } := by
  have items : Function.update (Function.update heap.items item none) item (some cell) = heap.items := by
    rw [Function.update_idem, ← there, Function.update_eq_self]
  have nodes : Function.update (Function.update heap.nodes node none) node
      (some { key := key, next := none, items := some item }) = heap.nodes := by
    rw [Function.update_idem, ← filled, Function.update_eq_self]
  refine ⟨?_, fun prev last before differs => ?_⟩
  · simp only [linkNode, without, items, nodes, setFirst]
  · have same : Function.update heap.nodes node none prev = some last :=
      (Function.update_of_ne differs _ _).trans before
    simp only [linkNode, without, items, nodes, same, setNode, Option.map_some]

/-- The write by which an item gets into the chain of its bucket: the chain may get one node, and
only nodes of that chain change. -/
structure Relinks (s : State) (stop stop' : Nat → Option Nat) (chain chain' : List (Nat × BucketNode Nat))
    (key item : Nat) (heap' : Heap) : Prop where
  count : heap'.bucketCntPerPart = s.heap.bucketCntPerPart
  items : heap'.items = s.heap.items
  first : ∀ b, b ≠ key % s.heap.bucketCntPerPart → heap'.firstNode b = s.heap.firstNode b
  linking : Linking heap' stop' (heap'.firstNode (key % s.heap.bucketCntPerPart)) chain'
  stops : ∀ other, other ≠ key → stop' other = stop other
  nodes : ∀ a, s.heap.nodes a ≠ some { key := key, next := none, items := some item } →
    (∀ entry ∈ chain, entry.1 ≠ a) → heap'.nodes a = s.heap.nodes a
  grows : spine chain <+: spine chain'
  entries : ∀ entry ∈ chain', entry.2.key % s.heap.bucketCntPerPart = key % s.heap.bucketCntPerPart ∧
    entry.2.items ≠ [] ∧ (∀ i ∈ entry.2.items, i = item ∨ ∃ old ∈ chain, i ∈ old.2.items) ∧
    ((∃ old ∈ chain, old.1 = entry.1) ∨ s.heap.nodes entry.1 = some { key := key, next := none, items := some item })

theorem Laid.relink (laid : Laid s stop chains) (exclusive : Exclusive s) {key item : Nat} {stage : InsertAt}
    {chain' : List (Nat × BucketNode Nat)} (call : s.threads t = some (.insert key item stage))
    (latched : stage.latched = true) (pending : (Thread.insert key item stage).pending = some item)
    (relinks : Relinks s stop stop' (chains (key % s.heap.bucketCntPerPart)) chain' key item heap') :
    Laid ((s.setHeap heap').setThread t (.insert key item .unlatching)) stop'
      (Function.update chains (key % s.heap.bucketCntPerPart) chain') := by
  obtain ⟨count, items, first, linking, stops, nodes, grows, entries⟩ := relinks
  generalize here : key % s.heap.bucketCntPerPart = b at *
  have holds : (Thread.insert key item stage).holds s.heap.bucketCntPerPart = some b := by
    simp only [Thread.holds, latched, if_true, here]
  have same : ∀ c, c ≠ b → Function.update chains b chain' c = chains c := fun c differs => Function.update_of_ne differs _ _
  have elsewhere : ∀ c, c ≠ b → ∀ entry ∈ chains c, heap'.nodes entry.1 = s.heap.nodes entry.1 := by
    intro c differs entry member
    refine nodes _ (fun new => ?_) (fun other listed equal => differs (laid.bucket_unique member listed equal.symm))
    obtain ⟨cell, found, named, -⟩ := (laid.linking c).2 entry member
    cases found.symm.trans new
    exact differs (((laid.placed c entry member).symm.trans (congrArg (· % _) named.symm)).trans here)
  have members : ∀ c, ∀ entry ∈ Function.update chains b chain' c, (c = b ∧ entry ∈ chain') ∨ (c ≠ b ∧ entry ∈ chains c) := by
    intro c entry member
    by_cases equal : c = b
    · subst equal
      rw [Function.update_self] at member
      exact .inl ⟨rfl, member⟩
    · rw [same c equal] at member
      exact .inr ⟨equal, member⟩
  refine laid.move (fun c => ?_) (fun c entry member => ?_) (fun c entry member => ?_) ?_ trivial
    (fun _ none => by cases none)
  · by_cases equal : c = b
    · subst equal
      rw [Function.update_self]
      exact linking
    · rw [same c equal]
      have chain := laid.linking c
      rw [← first c equal] at chain
      refine linking_frame chain (elsewhere c equal) (fun _ _ i _ => congrFun items i) (fun entry member => stops _ ?_)
      rintro rfl
      exact equal ((laid.placed c entry member).symm.trans here)
  · change entry.2.key % heap'.bucketCntPerPart = c
    rw [count]
    rcases members c entry member with ⟨rfl, new⟩ | ⟨-, old⟩
    · exact (entries entry new).1
    · exact laid.placed c entry old
  · rcases members c entry member with ⟨rfl, new⟩ | ⟨-, old⟩
    · exact (entries entry new).2.1
    · exact laid.filled c entry old
  · intro u thread differ found
    refine (laid.stands u thread found).beside count (fun c => ?_) (fun c held => ?_) (fun i waits theirs => ?_) ?_
    · by_cases equal : c = b
      · subst equal
        rw [Function.update_self]
        exact grows
      · exact same c equal ▸ List.prefix_rfl
    · have apart : c ≠ b := fun equal => differ (exclusive.alone t u _ thread b call found holds (equal ▸ held)).symm
      rw [same c apart]
      refine ⟨rfl, fun place member => ?_⟩
      obtain ⟨entry, listed, equal, -⟩ := entry_of_place member
      exact equal ▸ elsewhere c apart entry listed
    · have other : i ≠ item := by
        rintro rfl
        exact laid.apart t u _ thread i differ.symm call found pending waits
      refine ⟨⟨(congrFun items i).symm ▸ theirs.1, fun c entry member => ?_⟩, congrFun items i⟩
      rcases members c entry member with ⟨rfl, new⟩ | ⟨-, old⟩
      · intro listed
        rcases (entries entry new).2.2.1 i listed with equal | ⟨old, before, listed'⟩
        · exact other equal
        · exact theirs.2 _ old before listed'
      · exact theirs.2 c entry old
    · rintro key' item' node waits ⟨filled, unlisted⟩
      have foreign : s.heap.nodes node ≠ some { key := key, next := none, items := some item } := by
        intro mine
        rw [mine] at filled
        simp only [Option.some.injEq, NodeCell.mk.injEq] at filled
        exact laid.apart t u _ thread item differ.symm call found pending (filled.2.2 ▸ waits)
      refine ⟨(nodes node foreign (unlisted b)).trans filled, fun c entry member => ?_⟩
      rcases members c entry member with ⟨rfl, new⟩ | ⟨-, old⟩
      · rcases (entries entry new).2.2.2 with ⟨old, before, equal⟩ | mine
        · exact equal ▸ unlisted _ old before
        · rintro rfl
          exact foreign mine
      · exact unlisted c entry old

/-- A node for a new key is linked behind the last one. -/
theorem relinks_node (laid : Laid s stop chains) {key item node : Nat} {prev : Option Nat} {cell : ItemId}
    (call : s.threads t = some (.insert key item (.linking prev node))) (there : s.heap.items item = some cell) :
    Relinks s stop (Function.update stop key cell.next) (chains (key % s.heap.bucketCntPerPart))
      (chains (key % s.heap.bucketCntPerPart) ++ [(node, { key := key, items := [item] })]) key item
      (linkNode (without s.heap item node) (key % s.heap.bucketCntPerPart) prev key item node cell) := by
  obtain ⟨own, ends, filled, unlisted⟩ := laid.stands t _ call
  obtain ⟨absent, rfl⟩ := ends.split
  -- the chain is the same without the two new cells
  have apart : Linking (without s.heap item node) stop (s.heap.firstNode (key % s.heap.bucketCntPerPart))
      (chains (key % s.heap.bucketCntPerPart)) := by
    refine linking_frame (laid.linking _) (fun other member => ?_) (fun other member i listed => ?_) (fun _ _ => rfl)
    · exact Function.update_of_ne (unlisted _ other member) _ _
    · refine Function.update_of_ne ?_ _ _
      rintro rfl
      exact own.2 _ other member listed
  refine ⟨linkNode_bucketCntPerPart, ?_, fun b differs => linkNode_firstNode differs,
    linking_linkNode apart absent (Function.update_self _ _ _) (Function.update_self _ _ _),
    fun other differs => Function.update_of_ne differs _ _, fun a foreign listed => ?_, ?_, fun entry member => ?_⟩
  · rw [linkNode_items, without, Function.update_idem, ← there, Function.update_eq_self]
  · have differs : a ≠ node := by
      rintro rfl
      exact foreign filled
    refine (linkNode_other differs (fun last => ?_)).trans (Function.update_of_ne differs _ _)
    obtain ⟨final, member, same⟩ := List.mem_map.mp (List.mem_of_getLast? last)
    exact listed final member same
  · rw [spine, spine, List.map_append]
    exact List.prefix_append _ _
  · rcases List.mem_append.mp member with old | new
    · exact ⟨laid.placed _ entry old, laid.filled _ entry old, fun i listed => .inr ⟨entry, old, listed⟩,
        .inl ⟨entry, old, rfl⟩⟩
    · rw [List.mem_singleton.mp new]
      exact ⟨rfl, List.cons_ne_nil _ _, fun i listed => .inl (List.mem_singleton.mp listed), .inr filled⟩

/-- The new item becomes the first of its node. -/
theorem relinks_item (laid : Laid s stop chains) {key item cur : Nat} {curNode : NodeCell} {known : BucketNode Nat}
    {front back : List (Nat × BucketNode Nat)} (call : s.threads t = some (.insert key item (.swinging cur)))
    (split : chains (key % s.heap.bucketCntPerPart) = front ++ (cur, known) :: back)
    (found : s.heap.nodes cur = some curNode) :
    Relinks s stop stop (chains (key % s.heap.bucketCntPerPart))
      (front ++ (cur, { known with items := item :: known.items }) :: back) key item
      (setNode s.heap cur { curNode with items := some item }) := by
  obtain ⟨own, -, cell, curNode', there, found', linked⟩ := laid.stands t _ call
  cases found.symm.trans found'
  have listed : ∀ entry ∈ front ++ (cur, known) :: back, entry ∈ chains (key % s.heap.bucketCntPerPart) :=
    fun entry member => split ▸ member
  -- the chain is the same without the new item
  have apart : Linking { s.heap with items := Function.update s.heap.items item none } stop
      (s.heap.firstNode (key % s.heap.bucketCntPerPart)) (front ++ (cur, known) :: back) := by
    rw [← split]
    refine linking_frame (laid.linking _) (fun _ _ => rfl) (fun other member i listed => ?_) (fun _ _ => rfl)
    refine Function.update_of_ne ?_ _ _
    rintro rfl
    exact own.2 _ other member listed
  have heap : linkItem { s.heap with items := Function.update s.heap.items item none } cur item curNode cell =
      setNode s.heap cur { curNode with items := some item } := by
    have same : { cell with next := curNode.items } = cell := by rw [← linked]
    rw [linkItem, same, Function.update_idem, ← there, Function.update_eq_self]
    rfl
  have places : spine (front ++ (cur, { known with items := item :: known.items }) :: back) =
      spine (front ++ (cur, known) :: back) := by
    simp only [spine, List.map_append, List.map_cons]
  rw [split]
  refine ⟨rfl, rfl, fun _ _ => rfl, ?_, fun _ _ => rfl, fun a _ apart => ?_, ?_, fun entry member => ?_⟩
  · rw [← heap]
    exact linking_linkItem apart found (Function.update_self _ _ _)
  · exact Function.update_of_ne (fun same => apart (cur, known) (by simp) same.symm) _ _
  · exact places ▸ List.prefix_rfl
  · rcases List.mem_append.mp member with early | rest
    · have old := List.mem_append_left ((cur, known) :: back) early
      exact ⟨laid.placed _ entry (listed entry old), laid.filled _ entry (listed entry old),
        fun i inside => .inr ⟨entry, old, inside⟩, .inl ⟨entry, old, rfl⟩⟩
    · rcases List.mem_cons.mp rest with rfl | late
      · have old : (cur, known) ∈ front ++ (cur, known) :: back := by simp
        refine ⟨laid.placed _ (cur, known) (listed _ old), List.cons_ne_nil _ _, fun i inside => ?_,
          .inl ⟨(cur, known), old, rfl⟩⟩
        exact (List.mem_cons.mp inside).imp_right (fun inside => ⟨(cur, known), old, inside⟩)
      · have old := List.mem_append_right front (List.mem_cons_of_mem (cur, known) late)
        exact ⟨laid.placed _ entry (listed entry old), laid.filled _ entry (listed entry old),
          fun i inside => .inr ⟨entry, old, inside⟩, .inl ⟨entry, old, rfl⟩⟩

theorem setNode_self {a : Nat} {cell : NodeCell} (found : heap.nodes a = some cell) : setNode heap a cell = heap := by
  unfold setNode
  rw [← found, Function.update_eq_self]

/-- A new node's `next` is null, as that of the last node is. -/
theorem laid_wires (laid : Laid s stop chains) {key item node : Nat} {prev next : Option Nat} {new : NodeCell}
    (call : s.threads t = some (.insert key item (.wiring prev node))) (found : s.heap.nodes node = some new)
    (last : match prev with
      | none => next = s.heap.firstNode (key % s.heap.bucketCntPerPart)
      | some prev => ∃ cell, s.heap.nodes prev = some cell ∧ next = cell.next) :
    Laid ((s.setHeap (setNode s.heap node { new with next := next })).setThread t
      (.insert key item (.linking prev node))) stop chains := by
  obtain ⟨own, ends, filled, unlisted⟩ := laid.stands t _ call
  cases found.symm.trans filled
  obtain ⟨-, tail⟩ := ends.split
  have null : next = none := by
    cases prev with
    | none =>
      have empty : chains (key % s.heap.bucketCntPerPart) = [] := by simpa using tail.symm
      have linking := laid.linking (key % s.heap.bucketCntPerPart)
      rw [empty] at linking
      exact last.trans linking.1
    | some prev =>
      obtain ⟨cell, before, rfl⟩ := last
      obtain ⟨cell', before', null⟩ := (laid.linking _).last tail.symm
      cases before.symm.trans before'
      exact null
  rw [null, setNode_self filled]
  exact laid.quiet call ⟨own, ends, filled, unlisted⟩ (.inl rfl)

theorem readItem_absent {bucket : BucketHeader Nat} {key : Nat} (absent : ∀ node ∈ bucket, node.key ≠ key) :
    bucket.readItem key = none := by
  induction bucket with
  | nil => rfl
  | cons node rest ih =>
    rw [BucketHeader.readItem, if_neg (absent node List.mem_cons_self),
      ih (fun other member => absent other (List.mem_cons_of_mem _ member))]

variable {index : IndexHash Nat}

theorem Models.inserts_node {key item node : Nat} {prev : Option Nat} (models : Models s.heap.bucketCntPerPart chains index)
    (ends : Ends (spine (chains (key % s.heap.bucketCntPerPart))) key prev) :
    Models s.heap.bucketCntPerPart (Function.update chains (key % s.heap.bucketCntPerPart)
      (chains (key % s.heap.bucketCntPerPart) ++ [(node, { key := key, items := [item] })]))
      (index.indexInsert key item 0) := by
  refine models.insert (fun b differs => Function.update_of_ne differs _ _) ?_
  have missing : ∀ known ∈ (chains (key % s.heap.bucketCntPerPart)).map Prod.snd, known.key ≠ key := by
    intro known member
    obtain ⟨entry, listed, rfl⟩ := List.mem_map.mp member
    exact ends.split.1 entry listed
  rw [Function.update_self, insertItem_absent missing, List.map_append, List.map_singleton]

theorem Models.inserts_item {key item cur : Nat} {known : BucketNode Nat} {front back : List (Nat × BucketNode Nat)}
    (models : Models s.heap.bucketCntPerPart chains index)
    (split : chains (key % s.heap.bucketCntPerPart) = front ++ (cur, known) :: back) (named : known.key = key)
    (absent : ∀ entry ∈ front, entry.2.key ≠ key) :
    Models s.heap.bucketCntPerPart (Function.update chains (key % s.heap.bucketCntPerPart)
      (front ++ (cur, { known with items := item :: known.items }) :: back)) (index.indexInsert key item 0) := by
  refine models.insert (fun b differs => Function.update_of_ne differs _ _) ?_
  have missing : ∀ other ∈ front.map Prod.snd, other.key ≠ key := by
    intro other member
    obtain ⟨entry, listed, rfl⟩ := List.mem_map.mp member
    exact absent entry listed
  rw [Function.update_self, split]
  simp only [List.map_append, List.map_cons]
  rw [insertItem_present missing named]

theorem Models.read (models : Models s.heap.bucketCntPerPart chains index) (key : Nat) :
    index.indexRead key 0 =
      BucketHeader.readItem key ((chains (key % s.heap.bucketCntPerPart)).map Prod.snd) := by
  rw [← models.buckets, ← models.count]
  rfl

/-- A read that runs to the end of a chain: the key is not in the index. -/
theorem Models.lacks (models : Models s.heap.bucketCntPerPart chains index) {key : Nat} {prev : Option Nat}
    (ends : Ends (spine (chains (key % s.heap.bucketCntPerPart))) key prev) : index.indexRead key 0 = none := by
  obtain ⟨absent, -⟩ := ends.split
  rw [models.read, readItem_absent]
  intro node member
  obtain ⟨entry, listed, rfl⟩ := List.mem_map.mp member
  exact absent entry listed

/-- A read that has met its node gets the newest item of the key. -/
theorem Models.fetches (models : Models s.heap.bucketCntPerPart chains index) (laid : Laid s stop chains) {key cur : Nat}
    {cell : NodeCell} (here : At (spine (chains (key % s.heap.bucketCntPerPart))) key cur)
    (found : s.heap.nodes cur = some cell) : index.indexRead key 0 = cell.items := by
  obtain ⟨front, known, back, split, named, absent⟩ := here.split
  have member : (cur, known) ∈ chains (key % s.heap.bucketCntPerPart) := by
    rw [split]
    exact List.mem_append_right _ List.mem_cons_self
  obtain ⟨cell', found', -, path⟩ := (laid.linking _).2 _ member
  cases found.symm.trans found'
  rw [models.read, BucketHeader.readItem_eq, split, items_of_split absent named]
  cases items : known.items with
  | nil => exact absurd items (laid.filled _ _ member)
  | cons first rest =>
    rw [items] at path
    exact path.1.symm

end Laid

/-- The threads and the chains agree with the list model. -/
def Agrees (s : State) (index : IndexHash Nat) : Prop :=
  Exclusive s ∧ ∃ stop chains, Laid s stop chains ∧ Models s.heap.bucketCntPerPart chains index

theorem agrees_step {s next : State} {index : IndexHash Nat} {action : Action} {told : List Told}
    (agrees : Agrees s index) (took : Took s action next told) :
    ∃ index', Run Whole Always index told index' ∧ Agrees next index' := by
  obtain ⟨exclusive, stop, chains, laid, models⟩ := agrees
  have exclusive' := exclusive_step exclusive took
  cases took with
  | inserts fresh => exact ⟨index, .nil, exclusive', stop, chains, laid_inserts laid fresh, models⟩
  | reads => exact ⟨index, .nil, exclusive', stop, chains, laid_reads laid _, models⟩
  | allocates call fresh => exact ⟨index, .nil, exclusive', stop, chains, laid_allocates laid call fresh, models⟩
  | spins => exact ⟨index, .nil, exclusive', stop, chains, laid, models⟩
  | latches call free =>
    have own := laid.stands _ _ call
    exact ⟨index, .nil, exclusive', stop, chains, laid.quiet call ⟨own, trivial⟩ (.inl rfl), models⟩
  | scans call went | finds call went | misses call went =>
    obtain ⟨own, stands⟩ := laid.stands _ _ call
    have stood := scan_stood (laid.linking _) stands went
    exact ⟨index, .nil, exclusive', stop, chains, laid.quiet call ⟨own, stood⟩ (.inl rfl), models⟩
  | wiresFirst call found =>
    exact ⟨index, .nil, exclusive', stop, chains, laid_wires laid call found rfl, models⟩
  | wires call found before =>
    exact ⟨index, .nil, exclusive', stop, chains, laid_wires laid call found ⟨_, before, rfl⟩, models⟩
  | @linksFirst t key item node call =>
    obtain ⟨own, ends, filled, -⟩ := laid.stands _ _ call
    obtain ⟨cell, there⟩ := Option.ne_none_iff_exists'.mp own.1
    have relinks := relinks_node laid call there
    rw [(linkNode_without there filled).1] at relinks
    exact ⟨_, .one (.insert t key item), exclusive', _, _, laid.relink exclusive call rfl rfl relinks,
      models.inserts_node ends⟩
  | @links t key item prev node last call before =>
    obtain ⟨own, ends, filled, unlisted⟩ := laid.stands _ _ call
    obtain ⟨cell, there⟩ := Option.ne_none_iff_exists'.mp own.1
    have differs : prev ≠ node := by
      obtain ⟨final, listed, rfl⟩ := List.mem_map.mp (List.mem_of_getLast? ends.split.2.symm)
      exact unlisted _ final listed
    have relinks := relinks_node laid call there
    rw [(linkNode_without there filled).2 prev last before differs] at relinks
    exact ⟨_, .one (.insert t key item), exclusive', _, _, laid.relink exclusive call rfl rfl relinks,
      models.inserts_node ends⟩
  | pushes call mine found =>
    exact ⟨index, .nil, exclusive', stop, chains, laid_pushes laid call found, models⟩
  | @swings t key item cur curNode call found =>
    obtain ⟨-, here, -⟩ := laid.stands _ _ call
    obtain ⟨front, known, back, split, named, absent⟩ := here.split
    exact ⟨_, .one (.insert t key item), exclusive', _, _,
      laid.relink exclusive call rfl rfl (relinks_item laid call split found), models.inserts_item split named absent⟩
  | unlatches call locked =>
    exact ⟨index, .nil, exclusive', stop, chains, laid.quiet call trivial (.inl rfl), models⟩
  | looks call went | meets call went =>
    have stood := scan_stood (laid.linking _) (laid.stands _ _ call) went
    exact ⟨index, .nil, exclusive', stop, chains, laid.quiet call stood (.inl rfl), models⟩
  | @lacks t key scan prev call went =>
    have stood := scan_stood (laid.linking _) (laid.stands _ _ call) went
    have read : Whole index (.read t key (index.indexRead key 0)) index := .read t key
    rw [models.lacks stood] at read
    exact ⟨index, .one read, exclusive', stop, chains, laid.quiet call trivial (.inl rfl), models⟩
  | @fetches t key cur cell call found =>
    have read : Whole index (.read t key (index.indexRead key 0)) index := .read t key
    rw [models.fetches laid (laid.stands _ _ call) found] at read
    exact ⟨index, .one read, exclusive', stop, chains, laid.quiet call trivial (.inl rfl), models⟩

/-- What a thread's call was told as, once it took effect. -/
def Thread.told (t : Nat) : Thread → Option Told
  | .insert key item .unlatching | .insert key item .done => some (.insert t key item)
  | .read key (.done item) => some (.read t key item)
  | _ => none

structure Recorded (s : State) (told : List Told) : Prop where
  nodup : told.Nodup
  mem_iff : ∀ x, x ∈ told ↔ ∃ t, (s.threads t).bind (Thread.told t) = some x

def Told.caller : Told → Nat
  | .insert t _ _ | .read t _ _ => t

theorem told_caller {t : Nat} {thread : Thread} {x : Told} (told : thread.told t = some x) : x.caller = t := by
  unfold Thread.told at told
  split at told
  next => cases told; rfl
  next => cases told; rfl
  next => cases told; rfl
  next => cases told

section Recorded
variable {s : State} {told : List Told} {t begun : Nat} {new : Thread} {heap : Heap} {locked : Nat → Bool}

theorem Recorded.kept (recorded : Recorded s told) (same : new.told t = (s.threads t).bind (Thread.told t)) :
    Recorded ⟨heap, locked, Function.update s.threads t (some new), begun⟩ told := by
  refine ⟨recorded.nodup, fun x => (recorded.mem_iff x).trans (exists_congr fun u => ?_)⟩
  dsimp only
  by_cases here : u = t
  · subst here
    rw [Function.update_self, Option.bind_some, same]
  · rw [Function.update_of_ne here]

theorem Recorded.added (recorded : Recorded s told) {x : Told} (silent : (s.threads t).bind (Thread.told t) = none)
    (tells : new.told t = some x) :
    Recorded ⟨heap, locked, Function.update s.threads t (some new), begun⟩ (told ++ [x]) := by
  have apart : ∀ u, u ≠ t → Function.update s.threads t (some new) u = s.threads u :=
    fun u differs => Function.update_of_ne differs _ _
  refine ⟨?_, fun y => ?_⟩
  · refine List.nodup_append.mpr ⟨recorded.nodup, List.nodup_singleton x, fun y old z last => ?_⟩
    rw [List.mem_singleton.mp last]
    rintro rfl
    obtain ⟨u, found⟩ := (recorded.mem_iff y).mp old
    obtain ⟨other, there, shown⟩ := Option.bind_eq_some_iff.mp found
    cases (told_caller tells).symm.trans (told_caller shown)
    rw [there, Option.bind_some] at silent
    cases silent.symm.trans shown
  · rw [List.mem_append, List.mem_singleton, recorded.mem_iff]
    constructor
    · rintro (⟨u, found⟩ | rfl)
      · refine ⟨u, ?_⟩
        have differs : u ≠ t := by
          rintro rfl
          cases silent.symm.trans found
        exact (congrArg (·.bind (Thread.told u)) (apart u differs)).trans found
      · refine ⟨t, ?_⟩
        dsimp only
        rw [Function.update_self, Option.bind_some, tells]
    · rintro ⟨u, found⟩
      dsimp only at found
      by_cases here : u = t
      · subst here
        rw [Function.update_self, Option.bind_some, tells] at found
        exact .inr (Option.some.inj found).symm
      · rw [apart u here] at found
        exact .inl ⟨u, found⟩

theorem recorded_step {next : State} {action : Action} {new : List Told} (recorded : Recorded s told)
    (exclusive : Exclusive s) (took : Took s action next new) : Recorded next (told ++ new) := by
  have unused : s.threads s.begun = none := by
    cases found : s.threads s.begun with
    | none => rfl
    | some thread => exact absurd (exclusive.numbered _ thread found) (Nat.lt_irrefl _)
  cases took with
  | spins =>
    rw [List.append_nil]
    exact recorded
  | inserts | reads =>
    rw [List.append_nil]
    exact recorded.kept (by rw [unused]; rfl)
  | linksFirst call | links call | swings call | lacks call | fetches call =>
    exact recorded.added (by rw [call]; rfl) rfl
  | allocates call | latches call | scans call | finds call | misses call | wiresFirst call | wires call
  | pushes call | unlatches call | looks call | meets call =>
    rw [List.append_nil]
    exact recorded.kept (by rw [call]; rfl)

end Recorded

def Told.linked (key : Nat) : Told → Option Nat
  | .insert _ other item => if other = key then some item else none
  | .read _ _ _ => none

/-- Nothing inserted is lost: the items of a key are those of its inserts, the newest first. -/
theorem items_linked {n : Nat} {told : List Told} {index : IndexHash Nat}
    (run : Run Whole Always (IndexHash.init n 1) told index) (key : Nat) :
    index.items key 0 = (told.filterMap (Told.linked key)).reverse := by
  refine run.invariant (fun told index => index.items key 0 = (told.filterMap (Told.linked key)).reverse) rfl ?_
  intro told index x next held _ whole
  rw [List.filterMap_append, List.reverse_append, ← held]
  cases whole with
  | insert t other item =>
    rw [IndexHash.items_indexInsert]
    by_cases same : key = other
    · simp [Told.linked, same]
    · have differs : other ≠ key := fun equal => same equal.symm
      simp [Told.linked, same, differs]
  | read => rfl

theorem count_kept {n : Nat} {told : List Told} {index : IndexHash Nat}
    (run : Run Whole Always (IndexHash.init n 1) told index) : index.bucketCntPerPart = n := by
  refine run.invariant (fun _ index => index.bucketCntPerPart = n) (Nat.div_one n) ?_
  intro told index x next held _ whole
  cases whole with
  | insert => exact held
  | read => exact held

/-- What can be said of a state with the calls that took effect so far. -/
structure Consistent (n : Nat) (told : List Told) (s : State) : Prop where
  agrees : ∃ index, Run Whole Always (IndexHash.init n 1) told index ∧ Agrees s index
  recorded : Recorded s told

theorem consistent_init (n : Nat) : Consistent n [] (State.init n) := by
  have nobody : ∀ t thread, (State.init n).threads t ≠ some thread := fun t thread found => by cases found
  refine ⟨⟨IndexHash.init n 1, .nil, ⟨?_, ?_, ?_, ?_⟩, fun _ => none, fun _ => [], ⟨?_, ?_, ?_, ?_, ?_⟩, ?_, ?_⟩, .nil, ?_⟩
  · exact fun b taken => by cases taken
  · exact fun t thread b found => absurd found (nobody t thread)
  · exact fun t u thread other b found => absurd found (nobody t thread)
  · exact fun t thread found => absurd found (nobody t thread)
  · exact fun b => ⟨rfl, fun entry member => by cases member⟩
  · exact fun b entry member => by cases member
  · exact fun b entry member => by cases member
  · exact fun t thread found => absurd found (nobody t thread)
  · exact fun t u thread other item _ found => absurd found (nobody t thread)
  · exact Nat.div_one n
  · exact fun b => rfl
  · refine fun x => ⟨fun member => (by cases member), ?_⟩
    rintro ⟨t, found⟩
    cases found

theorem consistent_run {n : Nat} {actions : List Action} {s : State} (run : Run Step Always (State.init n) actions s) :
    Consistent n (emitted State.step tells (State.init n) actions) s := by
  refine run.emitted_invariant State.step tells (Consistent n) (consistent_init n) ?_
  rintro _ told s action next - ⟨⟨index, whole, agrees⟩, recorded⟩ taken
  have took := step_cases taken
  obtain ⟨index', later, agrees'⟩ := agrees_step agrees took
  exact ⟨⟨index', whole.append later, agrees'⟩, recorded_step recorded agrees.1 took⟩

/-- A thread that needs no new node and has not returned. -/
def Thread.runs : Thread → Bool
  | .insert _ _ (.allocating _) | .insert _ _ .done | .read _ (.done _) => false
  | _ => true

/-- No thread follows a pointer to nothing, and the latch that it gives back is taken. -/
theorem Agrees.runs {s : State} {index : IndexHash Nat} (agrees : Agrees s index) {t : Nat} {thread : Thread}
    (call : s.threads t = some thread) (runs : thread.runs = true) : (s.step (.advance t)).isSome = true := by
  obtain ⟨exclusive, stop, chains, laid, -⟩ := agrees
  have stands := laid.stands t thread call
  have listed : ∀ {key cur}, At (spine (chains (key % s.heap.bucketCntPerPart))) key cur →
      ∃ cell, s.heap.nodes cur = some cell := by
    intro key cur here
    obtain ⟨front, known, back, split, -⟩ := here.split
    obtain ⟨cell, found, -⟩ := (laid.linking _).2 (cur, known) (split ▸ List.mem_append_right _ List.mem_cons_self)
    exact ⟨cell, found⟩
  have last : ∀ {key prev}, Ends (spine (chains (key % s.heap.bucketCntPerPart))) key (some prev) →
      ∃ cell, s.heap.nodes prev = some cell := by
    intro key prev ends
    obtain ⟨cell, found, -⟩ := (laid.linking _).last ends.split.2.symm
    exact ⟨cell, found⟩
  cases thread with
  | read key stage =>
    simp only [State.step, call]
    cases stage with
    | scanning scan =>
      obtain ⟨result, went, -⟩ := scan_goes (laid.linking _) stands
      simp only [State.advanceRead, went]
      rcases result with scan' | ⟨cur⟩ | ⟨prev⟩ <;> rfl
    | fetching cur =>
      obtain ⟨cell, found⟩ := listed stands
      simp only [State.advanceRead, found, Option.isSome_some]
    | done item => cases runs
  | insert key item stage =>
    simp only [State.step, call]
    cases stage with
    | latching =>
      simp only [State.advanceInsert]
      split <;> rfl
    | scanning scan =>
      obtain ⟨result, went, -⟩ := scan_goes (laid.linking _) stands.2
      simp only [State.advanceInsert, went]
      rcases result with scan' | ⟨cur⟩ | ⟨prev⟩ <;> rfl
    | allocating prev => cases runs
    | wiring prev node =>
      obtain ⟨-, ends, filled, -⟩ := stands
      cases prev with
      | none => simp only [State.advanceInsert, filled, Option.isSome_some]
      | some prev =>
        obtain ⟨cell, found⟩ := last ends
        simp only [State.advanceInsert, filled, found, Option.isSome_some]
    | linking prev node =>
      obtain ⟨-, ends, -⟩ := stands
      cases prev with
      | none => rfl
      | some prev =>
        obtain ⟨cell, found⟩ := last ends
        simp only [State.advanceInsert, found, Option.isSome_some]
    | pushing cur =>
      obtain ⟨own, here⟩ := stands
      obtain ⟨cell, there⟩ := Option.ne_none_iff_exists'.mp own.1
      obtain ⟨curNode, found⟩ := listed here
      simp only [State.advanceInsert, there, found, Option.isSome_some]
    | swinging cur =>
      obtain ⟨curNode, found⟩ := listed stands.2.1
      simp only [State.advanceInsert, found, Option.isSome_some]
    | unlatching =>
      have taken := exclusive.locked t _ _ call rfl
      simp only [State.advanceInsert, taken, if_true, Option.isSome_some]
    | done => cases runs

/-- However inserts and reads interleave, pointer by pointer: whole calls in the order they take
effect explain all that the reads return, each call that has returned is one of them and none is
there twice, and the memory holds the items of every insert; one thread at most is between the two
compare-and-swaps of a latch; and no thread follows a null pointer or fails the assertion of
`release_latch`. -/
theorem index_linearizable {n : Nat} {actions : List Action} {s : State}
    (run : Run Step Always (State.init n) actions s) :
    ∃ (told : List Told) (index : IndexHash Nat), told = emitted State.step tells (State.init n) actions ∧
      Run Whole Always (IndexHash.init n 1) told index ∧ (∃ stop, Represents s.heap stop index) ∧
      (∀ key, index.items key 0 = (told.filterMap (Told.linked key)).reverse) ∧ told.Nodup ∧
      (∀ x, x ∈ told ↔ ∃ t, (s.threads t).bind (Thread.told t) = some x) ∧
      (∀ t u thread other b, s.threads t = some thread → s.threads u = some other →
        thread.holds n = some b → other.holds n = some b → t = u) ∧
      ∀ t thread, s.threads t = some thread → thread.runs = true → (s.step (.advance t)).isSome = true := by
  obtain ⟨⟨index, whole, agrees⟩, recorded⟩ := consistent_run run
  obtain ⟨exclusive, stop, chains, laid, models⟩ := agrees
  have count : s.heap.bucketCntPerPart = n := models.count.symm.trans (count_kept whole)
  refine ⟨_, index, rfl, whole, ⟨stop, models.count, fun b => ⟨chains b, laid.linking b, (models.buckets b).symm⟩, ?_⟩,
    items_linked whole, recorded.nodup, recorded.mem_iff, ?_, fun t thread call runs => ?_⟩
  · intro b node member
    rw [models.buckets] at member
    obtain ⟨entry, listed, rfl⟩ := List.mem_map.mp member
    exact laid.placed b entry listed
  · rw [← count]
    exact exclusive.alone
  · exact Agrees.runs ⟨exclusive, stop, chains, laid, models⟩ call runs

/-- Two inserts of one key, and reads before, between and next to them. -/
theorem index_linearizable_crossed :
    ∃ (actions : List Action) (s : State) (index : IndexHash Nat),
      emitted State.step tells (State.init 1) actions =
        [.read 2 5 none, .insert 0 5 10, .read 3 5 (some 10), .insert 1 5 11] ∧
      Run Step Always (State.init 1) actions s ∧
      Run Whole Always (IndexHash.init 1 1) (emitted State.step tells (State.init 1) actions) index ∧
      index.items 5 0 = [11, 10] := by
  let cell : ItemId := { type := .DT_row, location := 0, next := none, valid := true }
  let actions : List Action :=
    [.insert 5 10 cell, .insert 5 11 cell, .read 5, .advance 0, .advance 1, .advance 0, .advance 2, .alloc 0 20,
      .advance 0, .advance 0, .read 5, .advance 3, .advance 0, .advance 1, .advance 1, .advance 1, .advance 1,
      .advance 3, .advance 3, .advance 1, .advance 1]
  have told : emitted State.step tells (State.init 1) actions =
      [.read 2 5 none, .insert 0 5 10, .read 3 5 (some 10), .insert 1 5 11] := by decide +kernel
  have played : (play State.step (State.init 1) actions).isSome = true := by decide +kernel
  obtain ⟨s, ran⟩ := Option.isSome_iff_exists.mp played
  have run : Run Step Always (State.init 1) actions s := run_of_play ran
  obtain ⟨_, index, rfl, whole, -, items, -⟩ := index_linearizable run
  refine ⟨actions, s, index, told, run, whole, ?_⟩
  rw [items, told]
  decide

end DataAgentDB.Storage.IndexLatch
