import DataAgentDB.Storage.IndexLatch

/-! Where the threads of Storage/IndexLatch stand: in chains that others may grow next to them, with
cells of their own that nobody else can reach yet. -/

namespace DataAgentDB.Storage.IndexLatch
open Linked ItemChains

/-- The nodes of a chain with their keys. -/
def spine (chain : List (Nat × BucketNode Nat)) : List (Nat × Nat) :=
  chain.map (fun entry => (entry.1, entry.2.key))

/-- The loop stops at this node. -/
def At (places : List (Nat × Nat)) (key cur : Nat) : Prop :=
  ∃ front back, places = front ++ (cur, key) :: back ∧ ∀ place ∈ front, place.2 ≠ key

/-- The loop runs to the end. -/
def Ends (places : List (Nat × Nat)) (key : Nat) (prev : Option Nat) : Prop :=
  (∀ place ∈ places, place.2 ≠ key) ∧ prev = (places.map Prod.fst).getLast?

def Scan.Stands (places : List (Nat × Nat)) (key : Nat) : Scan → Prop
  | .starting => True
  | .comparing cur => ∃ front known back, places = front ++ (cur, known) :: back ∧ ∀ place ∈ front, place.2 ≠ key
  | .moving cur => ∃ front known back, places = front ++ (cur, known) :: back ∧
      ∀ place ∈ front ++ [(cur, known)], place.2 ≠ key

/-- What holds of a round's result. -/
def Stood (places : List (Nat × Nat)) (key : Nat) : Scan ⊕ Found → Prop
  | .inl scan => scan.Stands places key
  | .inr (.node cur) => At places key cur
  | .inr (.absent prev) => Ends places key prev

section Scan
variable {heap : Heap} {stop : Nat → Option Nat} {first : Option Nat} {chain : List (Nat × BucketNode Nat)}
  {places places' : List (Nat × Nat)} {key cur : Nat}

theorem first_place (linking : Linking heap stop first chain) : first = ((spine chain).head?).map Prod.fst := by
  cases chain with
  | nil => exact linking.1
  | cons entry rest =>
    obtain ⟨_, here, -⟩ := linking.cons
    exact here

/-- The cell of a node in the chain, and the chain after it. -/
theorem cell_at (linking : Linking heap stop first chain) {front back : List (Nat × Nat)} {known : Nat}
    (split : spine chain = front ++ (cur, known) :: back) :
    ∃ cell rest, heap.nodes cur = some cell ∧ cell.key = known ∧ Linking heap stop cell.next rest ∧ spine rest = back := by
  induction front generalizing first chain with
  | nil =>
    cases chain with
    | nil => cases split
    | cons entry rest =>
      obtain ⟨cell, -, found, named, linking⟩ := linking.cons
      simp only [spine, List.map_cons, List.nil_append, List.cons.injEq, Prod.mk.injEq] at split
      obtain ⟨⟨rfl, rfl⟩, rfl⟩ := split
      exact ⟨cell, rest, found, named, linking, rfl⟩
  | cons place front ih =>
    cases chain with
    | nil => cases split
    | cons entry rest =>
      obtain ⟨_, -, -, -, linking⟩ := linking.cons
      exact ih linking (List.cons.inj split).2

/-- One round of the loop. -/
theorem scan_goes {scan : Scan}
    (linking : Linking heap stop (heap.firstNode (key % heap.bucketCntPerPart)) chain)
    (stands : scan.Stands (spine chain) key) :
    ∃ result, scan.step heap key = some result ∧ Stood (spine chain) key result := by
  cases scan with
  | starting =>
    have here := first_place linking
    cases places : spine chain with
    | nil =>
      rw [places] at here
      refine ⟨.inr (.absent none), ?_, fun _ member => (by cases member), rfl⟩
      simp only [Scan.step, here, List.head?_nil, Option.map_none]
    | cons place rest =>
      rw [places] at here
      refine ⟨.inl (.comparing place.1), ?_, [], place.2, rest, rfl, fun _ member => (by cases member)⟩
      simp only [Scan.step, here, List.head?_cons, Option.map_some]
  | comparing cur =>
    obtain ⟨front, known, back, split, absent⟩ := stands
    obtain ⟨cell, -, found, rfl, -⟩ := cell_at linking split
    by_cases same : cell.key = key
    · refine ⟨.inr (.node cur), ?_, front, back, same ▸ split, absent⟩
      simp only [Scan.step, found, if_pos same]
    · refine ⟨.inl (.moving cur), ?_, front, cell.key, back, split, ?_⟩
      · simp only [Scan.step, found, if_neg same]
      · intro place member
        rcases List.mem_append.mp member with early | last
        · exact absent place early
        · rw [List.mem_singleton.mp last]
          exact same
  | moving cur =>
    obtain ⟨front, known, back, split, absent⟩ := stands
    obtain ⟨cell, rest, found, -, linking', rfl⟩ := cell_at linking split
    have after := first_place linking'
    cases places : spine rest with
    | nil =>
      rw [places] at after split
      refine ⟨.inr (.absent (some cur)), ?_, split ▸ absent, ?_⟩
      · simp only [Scan.step, found, after, List.head?_nil, Option.map_none]
      · rw [split, List.map_append, List.map_singleton, List.getLast?_concat]
    | cons place more =>
      rw [places] at after split
      refine ⟨.inl (.comparing place.1), ?_, front ++ [(cur, known)], place.2, more, ?_, absent⟩
      · simp only [Scan.step, found, after, List.head?_cons, Option.map_some]
      · rw [split, List.append_assoc]
        rfl

theorem scan_stood {scan : Scan} {result : Scan ⊕ Found}
    (linking : Linking heap stop (heap.firstNode (key % heap.bucketCntPerPart)) chain)
    (stands : scan.Stands (spine chain) key) (went : scan.step heap key = some result) :
    Stood (spine chain) key result := by
  obtain ⟨result', went', stood⟩ := scan_goes linking stands
  cases went.symm.trans went'
  exact stood

theorem At.grow (here : At places key cur) (grows : places <+: places') : At places' key cur := by
  obtain ⟨front, back, rfl, absent⟩ := here
  obtain ⟨more, rfl⟩ := grows
  exact ⟨front, back ++ more, by simp only [List.append_assoc, List.cons_append], absent⟩

theorem Scan.Stands.grow {scan : Scan} (stands : scan.Stands places key) (grows : places <+: places') :
    scan.Stands places' key := by
  obtain ⟨more, rfl⟩ := grows
  cases scan with
  | starting => trivial
  | comparing cur =>
    obtain ⟨front, known, back, rfl, absent⟩ := stands
    exact ⟨front, known, back ++ more, by simp only [List.append_assoc, List.cons_append], absent⟩
  | moving cur =>
    obtain ⟨front, known, back, rfl, absent⟩ := stands
    exact ⟨front, known, back ++ more, by simp only [List.append_assoc, List.cons_append], absent⟩

end Scan

/-- The item of an insert is in no chain yet. -/
def Own (heap : Heap) (chains : Nat → List (Nat × BucketNode Nat)) (item : Nat) : Prop :=
  heap.items item ≠ none ∧ ∀ b, ∀ entry ∈ chains b, item ∉ entry.2.items

/-- The new node of an insert is in no chain yet. -/
def New (heap : Heap) (chains : Nat → List (Nat × BucketNode Nat)) (key item node : Nat) : Prop :=
  heap.nodes node = some { key := key, next := none, items := some item } ∧ ∀ b, ∀ entry ∈ chains b, entry.1 ≠ node

def InsertAt.Stands (heap : Heap) (chains : Nat → List (Nat × BucketNode Nat)) (key item : Nat) : InsertAt → Prop
  | .latching => Own heap chains item
  | .scanning scan => Own heap chains item ∧ scan.Stands (spine (chains (key % heap.bucketCntPerPart))) key
  | .allocating prev => Own heap chains item ∧ Ends (spine (chains (key % heap.bucketCntPerPart))) key prev
  | .wiring prev node | .linking prev node => Own heap chains item ∧
      Ends (spine (chains (key % heap.bucketCntPerPart))) key prev ∧ New heap chains key item node
  | .pushing cur => Own heap chains item ∧ At (spine (chains (key % heap.bucketCntPerPart))) key cur
  | .swinging cur => Own heap chains item ∧ At (spine (chains (key % heap.bucketCntPerPart))) key cur ∧
      ∃ cell curNode, heap.items item = some cell ∧ heap.nodes cur = some curNode ∧ cell.next = curNode.items
  | .unlatching | .done => True

def Thread.Stands (heap : Heap) (chains : Nat → List (Nat × BucketNode Nat)) : Thread → Prop
  | .insert key item stage => stage.Stands heap chains key item
  | .read key (.scanning scan) => scan.Stands (spine (chains (key % heap.bucketCntPerPart))) key
  | .read key (.fetching cur) => At (spine (chains (key % heap.bucketCntPerPart))) key cur
  | .read _ (.done _) => True

/-- The item that an insert has still to link. -/
def Thread.pending : Thread → Option Nat
  | .insert _ item stage =>
    match stage with
    | .unlatching | .done => none
    | _ => some item
  | .read _ _ => none

/-- The chains of the buckets, and the threads on them. -/
structure Laid (s : State) (stop : Nat → Option Nat) (chains : Nat → List (Nat × BucketNode Nat)) : Prop where
  linking : ∀ b, Linking s.heap stop (s.heap.firstNode b) (chains b)
  placed : ∀ b, ∀ entry ∈ chains b, entry.2.key % s.heap.bucketCntPerPart = b
  filled : ∀ b, ∀ entry ∈ chains b, entry.2.items ≠ []
  stands : ∀ t thread, s.threads t = some thread → thread.Stands s.heap chains
  apart : ∀ t u thread other item, t ≠ u → s.threads t = some thread → s.threads u = some other →
    thread.pending = some item → other.pending ≠ some item

section Laid
variable {s : State} {stop stop' : Nat → Option Nat} {chains chains' : Nat → List (Nat × BucketNode Nat)}
  {heap heap' : Heap} {t : Nat} {old new : Thread}

/-- A thread is left in place by what others do: its chain only grows, and stays the same with its
nodes while the thread holds the latch; its own cells stay. -/
theorem Thread.Stands.beside {thread : Thread} (stands : thread.Stands heap chains)
    (count : heap'.bucketCntPerPart = heap.bucketCntPerPart)
    (grows : ∀ b, spine (chains b) <+: spine (chains' b))
    (held : ∀ b, thread.holds heap.bucketCntPerPart = some b → spine (chains' b) = spine (chains b) ∧
      ∀ place ∈ spine (chains b), heap'.nodes place.1 = heap.nodes place.1)
    (own : ∀ item, thread.pending = some item → Own heap chains item →
      Own heap' chains' item ∧ heap'.items item = heap.items item)
    (fresh : ∀ key item node, thread.pending = some item → New heap chains key item node →
      New heap' chains' key item node) : thread.Stands heap' chains' := by
  cases thread with
  | read key stage =>
    cases stage with
    | scanning scan =>
      simp only [Thread.Stands, count] at stands ⊢
      exact stands.grow (grows _)
    | fetching cur =>
      simp only [Thread.Stands, count] at stands ⊢
      exact stands.grow (grows _)
    | done item => trivial
  | insert key item stage =>
    simp only [Thread.Stands] at stands ⊢
    cases stage with
    | latching => exact (own item rfl stands).1
    | scanning scan =>
      obtain ⟨mine, here⟩ := stands
      refine ⟨(own item rfl mine).1, ?_⟩
      rw [count, (held _ rfl).1]
      exact here
    | allocating prev =>
      obtain ⟨mine, here⟩ := stands
      refine ⟨(own item rfl mine).1, ?_⟩
      rw [count, (held _ rfl).1]
      exact here
    | wiring prev node | linking prev node =>
      obtain ⟨mine, here, node⟩ := stands
      refine ⟨(own item rfl mine).1, ?_, fresh _ _ _ rfl node⟩
      rw [count, (held _ rfl).1]
      exact here
    | pushing cur =>
      obtain ⟨mine, here⟩ := stands
      refine ⟨(own item rfl mine).1, ?_⟩
      rw [count, (held _ rfl).1]
      exact here
    | swinging cur =>
      obtain ⟨mine, here, cell, curNode, there, found, linked⟩ := stands
      obtain ⟨same, nodes⟩ := held _ rfl
      have listed : (cur, key) ∈ spine (chains (key % heap.bucketCntPerPart)) := by
        obtain ⟨front, back, split, -⟩ := here
        rw [split]
        exact List.mem_append_right _ List.mem_cons_self
      refine ⟨(own item rfl mine).1, ?_, cell, curNode, (own item rfl mine).2.trans there,
        (nodes _ listed).trans found, linked⟩
      rw [count, same]
      exact here
    | unlatching => trivial
    | done => trivial

/-- One thread moves. -/
theorem Laid.move (laid : Laid s stop chains) {locked : Nat → Bool} {begun : Nat}
    (linking : ∀ b, Linking heap' stop' (heap'.firstNode b) (chains' b))
    (placed : ∀ b, ∀ entry ∈ chains' b, entry.2.key % heap'.bucketCntPerPart = b)
    (filled : ∀ b, ∀ entry ∈ chains' b, entry.2.items ≠ [])
    (others : ∀ u thread, u ≠ t → s.threads u = some thread → thread.Stands heap' chains')
    (mine : new.Stands heap' chains')
    (apart : ∀ item, new.pending = some item → ∀ u thread, u ≠ t → s.threads u = some thread →
      thread.pending ≠ some item) :
    Laid ⟨heap', locked, Function.update s.threads t (some new), begun⟩ stop' chains' where
  linking := linking
  placed := placed
  filled := filled
  stands u thread found := by
    rcases found_thread found with ⟨rfl, rfl⟩ | ⟨other, there⟩
    · exact mine
    · exact others u thread other there
  apart u v thread other item differ found found' pending pending' := by
    rcases found_thread found with ⟨rfl, rfl⟩ | ⟨-, there⟩ <;>
      rcases found_thread found' with ⟨rfl, rfl⟩ | ⟨elsewhere', there'⟩
    · exact differ rfl
    · exact apart item pending v other elsewhere' there' pending'
    · exact apart item pending' u thread differ there pending
    · exact laid.apart u v thread other item differ there there' pending pending'

/-- A step that only reads. -/
theorem Laid.quiet (laid : Laid s stop chains) {locked : Nat → Bool} (call : s.threads t = some old)
    (mine : new.Stands s.heap chains) (same : new.pending = old.pending ∨ new.pending = none) :
    Laid ⟨s.heap, locked, Function.update s.threads t (some new), s.begun⟩ stop chains := by
  refine laid.move laid.linking laid.placed laid.filled (fun u thread _ found => laid.stands u thread found) mine ?_
  intro item pending u thread differ found
  rcases same with kept | gone
  · exact laid.apart t u old thread item differ.symm call found (kept ▸ pending)
  · cases gone.symm.trans pending

/-- A chain only depends on its own nodes and items. -/
theorem linking_frame {first : Option Nat} {chain : List (Nat × BucketNode Nat)} (linking : Linking heap stop first chain)
    (nodes : ∀ entry ∈ chain, heap'.nodes entry.1 = heap.nodes entry.1)
    (items : ∀ entry ∈ chain, ∀ i ∈ entry.2.items, heap'.items i = heap.items i)
    (stops : ∀ entry ∈ chain, stop' entry.2.key = stop entry.2.key) : Linking heap' stop' first chain := by
  refine ⟨linking.1.frame ?_, ?_⟩
  · intro a member
    obtain ⟨entry, listed, rfl⟩ := List.mem_map.mp member
    simp only [Heap.nextNode, nodes entry listed]
  · intro entry member
    obtain ⟨cell, found, named, path⟩ := linking.2 entry member
    refine ⟨cell, (nodes entry member).trans found, named, ?_⟩
    rw [stops entry member]
    exact path.frame (fun i listed => by simp only [Heap.nextItem, items entry member i listed])

theorem item_used {first : Option Nat} {chain : List (Nat × BucketNode Nat)} (linking : Linking heap stop first chain)
    {entry : Nat × BucketNode Nat} (member : entry ∈ chain) {i : Nat} (listed : i ∈ entry.2.items) :
    heap.items i ≠ none := by
  obtain ⟨cell, -, -, path⟩ := linking.2 entry member
  intro unused
  exact path.is_cell listed (by simp only [Heap.nextItem, unused, Option.map_none])

theorem Thread.Stands.own {thread : Thread} (stands : thread.Stands heap chains) {item : Nat}
    (pending : thread.pending = some item) : Own heap chains item := by
  cases thread with
  | read key stage => cases pending
  | insert key mine stage =>
    simp only [Thread.Stands] at stands
    cases stage with
    | unlatching | done => cases pending
    | latching =>
      cases pending
      exact stands
    | scanning | allocating | wiring | linking | pushing | swinging =>
      cases pending
      exact stands.1

/-- A node is in one bucket only. -/
theorem Laid.bucket_unique (laid : Laid s stop chains) {b c : Nat} {entry other : Nat × BucketNode Nat}
    (member : entry ∈ chains b) (member' : other ∈ chains c) (same : entry.1 = other.1) : b = c := by
  obtain ⟨cell, found, named, -⟩ := (laid.linking b).2 entry member
  obtain ⟨cell', found', named', -⟩ := (laid.linking c).2 other member'
  rw [same] at found
  cases found.symm.trans found'
  rw [← laid.placed b entry member, ← laid.placed c other member', ← named, ← named']

theorem entry_of_place {chain : List (Nat × BucketNode Nat)} {place : Nat × Nat} (member : place ∈ spine chain) :
    ∃ entry ∈ chain, entry.1 = place.1 ∧ entry.2.key = place.2 := by
  obtain ⟨entry, listed, rfl⟩ := List.mem_map.mp member
  exact ⟨entry, listed, rfl, rfl⟩

theorem At.split {chain : List (Nat × BucketNode Nat)} {key cur : Nat} (here : At (spine chain) key cur) :
    ∃ front known back, chain = front ++ (cur, known) :: back ∧ known.key = key ∧
      ∀ entry ∈ front, entry.2.key ≠ key := by
  obtain ⟨front, back, split, absent⟩ := here
  obtain ⟨before, after, rfl, rfl, rest⟩ := List.map_eq_append_iff.mp split
  obtain ⟨⟨a, known⟩, back', rfl, here, rfl⟩ := List.map_eq_cons_iff.mp rest
  simp only [Prod.mk.injEq] at here
  obtain ⟨rfl, named⟩ := here
  exact ⟨before, known, back', rfl, named, fun entry member => absent _ (List.mem_map_of_mem member)⟩

theorem Ends.split {chain : List (Nat × BucketNode Nat)} {key : Nat} {prev : Option Nat}
    (ends : Ends (spine chain) key prev) :
    (∀ entry ∈ chain, entry.2.key ≠ key) ∧ prev = (chain.map Prod.fst).getLast? := by
  obtain ⟨absent, last⟩ := ends
  refine ⟨fun entry member => absent _ (List.mem_map_of_mem member), ?_⟩
  rw [last, spine, List.map_map]
  rfl

theorem setItem_used (heap : Heap) (item : Nat) (cell : ItemId) : (setItem heap item cell).items item ≠ none := by
  simp [setItem]

/-- A call starts with an item that nobody else knows. -/
theorem laid_inserts (laid : Laid s stop chains) {key item : Nat} {cell : ItemId}
    (unused : s.heap.items item = none) :
    Laid { (s.setHeap (setItem s.heap item cell)).setThread s.begun (.insert key item .latching) with
      begun := s.begun + 1 } stop chains := by
  have others : ∀ i, s.heap.items i ≠ none → (setItem s.heap item cell).items i = s.heap.items i := by
    intro i used
    have differs : i ≠ item := by
      rintro rfl
      exact used unused
    exact Function.update_of_ne differs _ _
  refine laid.move (fun b => ?_) laid.placed laid.filled ?_ ?_ ?_
  · exact linking_frame (laid.linking b) (fun _ _ => rfl)
      (fun entry member i listed => others i (item_used (laid.linking b) member listed)) (fun _ _ => rfl)
  · intro u thread _ found
    refine (laid.stands u thread found).beside rfl (fun b => List.prefix_rfl) (fun b _ => ⟨rfl, fun _ _ => rfl⟩) ?_ ?_
    · intro i _ own
      exact ⟨⟨(others i own.1).symm ▸ own.1, own.2⟩, others i own.1⟩
    · exact fun _ _ _ _ new => new
  · exact ⟨setItem_used _ _ _, fun b entry member listed => item_used (laid.linking b) member listed unused⟩
  · rintro _ ⟨⟩ u thread _ found pending
    exact ((laid.stands u thread found).own pending).1 unused

theorem laid_reads (laid : Laid s stop chains) (key : Nat) :
    Laid { s.setThread s.begun (.read key (.scanning .starting)) with begun := s.begun + 1 } stop chains :=
  laid.move laid.linking laid.placed laid.filled (fun u thread _ found => laid.stands u thread found) trivial
    (fun _ pending => by cases pending)

/-- A new node is filled before anybody can reach it. -/
theorem laid_allocates (laid : Laid s stop chains) {key item node : Nat} {prev : Option Nat}
    (call : s.threads t = some (.insert key item (.allocating prev))) (unused : s.heap.nodes node = none) :
    Laid ((s.setHeap (setNode s.heap node { key := key, next := none, items := some item })).setThread t
      (.insert key item (.wiring prev node))) stop chains := by
  have others : ∀ a, s.heap.nodes a ≠ none →
      (setNode s.heap node { key := key, next := none, items := some item }).nodes a = s.heap.nodes a := by
    intro a used
    have differs : a ≠ node := by
      rintro rfl
      exact used unused
    exact Function.update_of_ne differs _ _
  have unlisted : ∀ b, ∀ entry ∈ chains b, entry.1 ≠ node := by
    rintro b entry member rfl
    exact (laid.linking b).is_node member unused
  refine laid.move (fun b => ?_) laid.placed laid.filled ?_ ?_ ?_
  · exact linking_frame (laid.linking b) (fun entry member => others _ ((laid.linking b).is_node member))
      (fun _ _ _ _ => rfl) (fun _ _ => rfl)
  · intro u thread _ found
    refine (laid.stands u thread found).beside rfl (fun b => List.prefix_rfl) (fun b _ => ⟨rfl, ?_⟩)
      (fun _ _ own => ⟨own, rfl⟩) ?_
    · intro place member
      obtain ⟨entry, listed, same, -⟩ := entry_of_place member
      exact same ▸ others _ ((laid.linking b).is_node listed)
    · rintro key' item' node' - ⟨filled, apart⟩
      exact ⟨(others node' (by simp [filled])).trans filled, apart⟩
  · obtain ⟨own, ends⟩ := laid.stands t _ call
    exact ⟨own, ends, Function.update_self _ _ _, unlisted⟩
  · rintro _ ⟨⟩ u thread differ found
    exact laid.apart t u _ thread item differ.symm call found rfl

/-- The older items are linked behind the new one, which nobody can reach yet. -/
theorem laid_pushes (laid : Laid s stop chains) {key item cur : Nat} {cell : ItemId} {curNode : NodeCell}
    (call : s.threads t = some (.insert key item (.pushing cur))) (found : s.heap.nodes cur = some curNode) :
    Laid ((s.setHeap (setItem s.heap item { cell with next := curNode.items })).setThread t
      (.insert key item (.swinging cur))) stop chains := by
  obtain ⟨own, here⟩ := laid.stands t _ call
  have others : ∀ i, i ≠ item → (setItem s.heap item { cell with next := curNode.items }).items i = s.heap.items i :=
    fun i differs => Function.update_of_ne differs _ _
  refine laid.move (fun b => ?_) laid.placed laid.filled ?_ ?_ ?_
  · refine linking_frame (laid.linking b) (fun _ _ => rfl) (fun entry member i listed => others i ?_) (fun _ _ => rfl)
    rintro rfl
    exact own.2 b entry member listed
  · intro u thread differ there
    refine (laid.stands u thread there).beside rfl (fun b => List.prefix_rfl) (fun b _ => ⟨rfl, fun _ _ => rfl⟩) ?_
      (fun _ _ _ _ new => new)
    intro i pending theirs
    have same := others i (fun same => laid.apart t u _ thread item differ.symm call there rfl (same ▸ pending))
    exact ⟨⟨same.symm ▸ theirs.1, theirs.2⟩, same⟩
  · exact ⟨⟨setItem_used _ _ _, own.2⟩, here, { cell with next := curNode.items }, curNode,
      Function.update_self _ _ _, found, rfl⟩
  · rintro _ ⟨⟩ u thread differ there
    exact laid.apart t u _ thread item differ.symm call there rfl

end Laid

end DataAgentDB.Storage.IndexLatch
