import DataAgentDB.Lib.Refines
import DataAgentDB.Storage.ItemChains

/-! `index_insert` under the latch of its bucket next to `index_read`, which takes no latch
(index_hash.cpp). Each read or write of a pointer that threads share and each compare-and-swap of a
latch is a step of its own, seen by all threads in one order; what `alloc` returns is in no use. -/

namespace DataAgentDB.Storage.IndexLatch
open Linked LabelledRun ItemChains

/-- Where the loop of `insert_item` and `read_item` stands: before it reads `first_node`, before it
compares the key of `cur_node`, before it moves on from there. -/
inductive Scan where
  | starting
  | comparing (cur : Nat)
  | moving (cur : Nat)
  deriving DecidableEq, Repr

/-- How the loop ends: at a node of the key, or past the last node, `prev_node`. -/
inductive Found where
  | node (cur : Nat)
  | absent (prev : Option Nat)
  deriving DecidableEq, Repr

def Scan.step (heap : Heap) (key : Nat) : Scan → Option (Scan ⊕ Found)
  | .starting =>
    match heap.firstNode (key % heap.bucketCntPerPart) with
    | none => some (.inr (.absent none))
    | some first => some (.inl (.comparing first))
  | .comparing cur =>
    match heap.nodes cur with
    | none => none
    | some cell => if cell.key = key then some (.inr (.node cur)) else some (.inl (.moving cur))
  | .moving cur =>
    match heap.nodes cur with
    | none => none
    | some cell =>
      match cell.next with
      | none => some (.inr (.absent (some cur)))
      | some next => some (.inl (.comparing next))

/-- A write to a node, to an item, to the `first_node` of a bucket. -/
def setNode (heap : Heap) (a : Nat) (cell : NodeCell) : Heap :=
  { heap with nodes := Function.update heap.nodes a (some cell) }

def setItem (heap : Heap) (a : Nat) (cell : ItemId) : Heap :=
  { heap with items := Function.update heap.items a (some cell) }

def setFirst (heap : Heap) (bktIdx node : Nat) : Heap :=
  { heap with firstNode := Function.update heap.firstNode bktIdx (some node) }

/-- Where an `index_insert` stands. -/
inductive InsertAt where
  | latching
  | scanning (scan : Scan)
  | allocating (prev : Option Nat)
  | wiring (prev : Option Nat) (node : Nat)
  | linking (prev : Option Nat) (node : Nat)
  | pushing (cur : Nat)
  | swinging (cur : Nat)
  | unlatching
  | done
  deriving DecidableEq, Repr

/-- Where an `index_read` stands. -/
inductive ReadAt where
  | scanning (scan : Scan)
  | fetching (cur : Nat)
  | done (item : Option Nat)
  deriving DecidableEq, Repr

/-- A thread in its call. -/
inductive Thread where
  | insert (key item : Nat) (stage : InsertAt)
  | read (key : Nat) (stage : ReadAt)
  deriving DecidableEq, Repr

/-- Calls are numbered as they start. -/
structure State where
  heap : Heap
  locked : Nat → Bool
  threads : Nat → Option Thread
  begun : Nat

inductive Action where
  | insert (key item : Nat) (cell : ItemId)
  | read (key : Nat)
  | alloc (t node : Nat)
  | advance (t : Nat)
  deriving DecidableEq, Repr

namespace State

/-- `IndexHash::init` before the first call. -/
def init (bucketCntPerPart : Nat) : State :=
  { heap := Heap.init bucketCntPerPart, locked := fun _ => false, threads := fun _ => none, begun := 0 }

def setThread (s : State) (t : Nat) (thread : Thread) : State :=
  { s with threads := Function.update s.threads t (some thread) }

def setHeap (s : State) (heap : Heap) : State := { s with heap := heap }

/-- A step of `index_insert` for a key and an item, but for the `alloc` of a node. -/
def advanceInsert (s : State) (t key item : Nat) : InsertAt → Option State
  | .latching =>
    -- `get_latch` spins until the compare-and-swap succeeds
    if s.locked (key % s.heap.bucketCntPerPart) then some s
    else some ({ s with locked := Function.update s.locked (key % s.heap.bucketCntPerPart) true }.setThread t
      (.insert key item (.scanning .starting)))
  | .scanning scan =>
    match scan.step s.heap key with
    | none => none
    | some (.inl scan) => some (s.setThread t (.insert key item (.scanning scan)))
    | some (.inr (.node cur)) => some (s.setThread t (.insert key item (.pushing cur)))
    | some (.inr (.absent prev)) => some (s.setThread t (.insert key item (.allocating prev)))
  | .allocating _ => none
  | .wiring none node =>
    match s.heap.nodes node with
    | none => none
    | some new =>
      let first := s.heap.firstNode (key % s.heap.bucketCntPerPart)
      some ((s.setHeap (setNode s.heap node { new with next := first })).setThread t
        (.insert key item (.linking none node)))
  | .wiring (some prev) node =>
    match s.heap.nodes node, s.heap.nodes prev with
    | some new, some last =>
      some ((s.setHeap (setNode s.heap node { new with next := last.next })).setThread t
        (.insert key item (.linking (some prev) node)))
    | _, _ => none
  | .linking none node =>
    some ((s.setHeap (setFirst s.heap (key % s.heap.bucketCntPerPart) node)).setThread t
      (.insert key item .unlatching))
  | .linking (some prev) node =>
    match s.heap.nodes prev with
    | none => none
    | some last =>
      some ((s.setHeap (setNode s.heap prev { last with next := some node })).setThread t
        (.insert key item .unlatching))
  | .pushing cur =>
    match s.heap.items item, s.heap.nodes cur with
    | some cell, some curNode =>
      some ((s.setHeap (setItem s.heap item { cell with next := curNode.items })).setThread t
        (.insert key item (.swinging cur)))
    | _, _ => none
  | .swinging cur =>
    match s.heap.nodes cur with
    | none => none
    | some curNode =>
      some ((s.setHeap (setNode s.heap cur { curNode with items := some item })).setThread t
        (.insert key item .unlatching))
  | .unlatching =>
    -- `release_latch` asserts that its compare-and-swap succeeds
    if s.locked (key % s.heap.bucketCntPerPart) then
      some ({ s with locked := Function.update s.locked (key % s.heap.bucketCntPerPart) false }.setThread t
        (.insert key item .done))
    else none
  | .done => none

/-- A step of `index_read`. -/
def advanceRead (s : State) (t key : Nat) : ReadAt → Option State
  | .scanning scan =>
    match scan.step s.heap key with
    | none => none
    | some (.inl scan) => some (s.setThread t (.read key (.scanning scan)))
    | some (.inr (.node cur)) => some (s.setThread t (.read key (.fetching cur)))
    | some (.inr (.absent _)) => some (s.setThread t (.read key (.done none)))
  | .fetching cur =>
    match s.heap.nodes cur with
    | none => none
    | some cell => some (s.setThread t (.read key (.done cell.items)))
  | .done _ => none

def step (s : State) : Action → Option State
  | .insert key item cell =>
    if (s.heap.items item).isNone ∧ key % s.heap.bucketCntPerPart < s.heap.bucketCntPerPart then
      some { (s.setHeap (setItem s.heap item cell)).setThread s.begun (.insert key item .latching) with
        begun := s.begun + 1 }
    else none
  | .read key =>
    if key % s.heap.bucketCntPerPart < s.heap.bucketCntPerPart then
      some { s.setThread s.begun (.read key (.scanning .starting)) with begun := s.begun + 1 }
    else none
  | .alloc t node =>
    match s.threads t with
    | some (.insert key item (.allocating prev)) =>
      if (s.heap.nodes node).isNone then
        let new : NodeCell := { key := key, next := none, items := some item }
        some ((s.setHeap (setNode s.heap node new)).setThread t (.insert key item (.wiring prev node)))
      else none
    | _ => none
  | .advance t =>
    match s.threads t with
    | some (.insert key item stage) => s.advanceInsert t key item stage
    | some (.read key stage) => s.advanceRead t key stage
    | none => none

end State

/-- One step of the interleaving. -/
def Step (s : State) (action : Action) (next : State) : Prop := s.step action = some next

/-- A call that takes effect, with what it returns. -/
inductive Told where
  | insert (t key item : Nat)
  | read (t key : Nat) (item : Option Nat)
  deriving DecidableEq, Repr

/-- What a step of the loop of a read answers. -/
def Found.told (t key : Nat) : Scan ⊕ Found → List Told
  | .inr (.absent _) => [.read t key none]
  | _ => []

/-- The call that takes effect in a step: an insert when its item can be reached, a read when it
has read the last pointer. -/
def tells (s : State) : Action → List Told
  | .advance t =>
    match s.threads t with
    | some (.insert key item (.linking _ _)) | some (.insert key item (.swinging _)) => [.insert t key item]
    | some (.read key (.scanning scan)) => ((scan.step s.heap key).map (Found.told t key)).getD []
    | some (.read key (.fetching cur)) => ((s.heap.nodes cur).map (fun cell => Told.read t key cell.items)).toList
    | _ => []
  | _ => []

/-- The calls as wholes, on the list model. -/
inductive Whole (index : IndexHash Nat) : Told → IndexHash Nat → Prop
  | insert (t key item : Nat) : Whole index (.insert t key item) (index.indexInsert key item 0)
  | read (t key : Nat) : Whole index (.read t key (index.indexRead key 0)) index

/-- Every kind of step with its guards, its result and what it tells. -/
inductive Took (s : State) : Action → State → List Told → Prop
  | inserts {key item cell} (fresh : s.heap.items item = none)
      (bound : key % s.heap.bucketCntPerPart < s.heap.bucketCntPerPart) :
      Took s (.insert key item cell)
        { (s.setHeap (setItem s.heap item cell)).setThread s.begun (.insert key item .latching) with
          begun := s.begun + 1 } []
  | reads {key} (bound : key % s.heap.bucketCntPerPart < s.heap.bucketCntPerPart) :
      Took s (.read key) { s.setThread s.begun (.read key (.scanning .starting)) with begun := s.begun + 1 } []
  | allocates {t key item prev node} (call : s.threads t = some (.insert key item (.allocating prev)))
      (fresh : s.heap.nodes node = none) :
      Took s (.alloc t node) ((s.setHeap (setNode s.heap node { key := key, next := none, items := some item })).setThread t
        (.insert key item (.wiring prev node))) []
  | spins {t key item} (call : s.threads t = some (.insert key item .latching)) : Took s (.advance t) s []
  | latches {t key item} (call : s.threads t = some (.insert key item .latching))
      (free : s.locked (key % s.heap.bucketCntPerPart) = false) :
      Took s (.advance t) ({ s with
        locked := Function.update s.locked (key % s.heap.bucketCntPerPart) true }.setThread t
          (.insert key item (.scanning .starting))) []
  | scans {t key item scan scan'} (call : s.threads t = some (.insert key item (.scanning scan)))
      (went : scan.step s.heap key = some (.inl scan')) :
      Took s (.advance t) (s.setThread t (.insert key item (.scanning scan'))) []
  | finds {t key item scan cur} (call : s.threads t = some (.insert key item (.scanning scan)))
      (went : scan.step s.heap key = some (.inr (.node cur))) :
      Took s (.advance t) (s.setThread t (.insert key item (.pushing cur))) []
  | misses {t key item scan prev} (call : s.threads t = some (.insert key item (.scanning scan)))
      (went : scan.step s.heap key = some (.inr (.absent prev))) :
      Took s (.advance t) (s.setThread t (.insert key item (.allocating prev))) []
  | wiresFirst {t key item node new} (call : s.threads t = some (.insert key item (.wiring none node)))
      (found : s.heap.nodes node = some new) :
      Took s (.advance t) ((s.setHeap (setNode s.heap node { new with
        next := s.heap.firstNode (key % s.heap.bucketCntPerPart) })).setThread t (.insert key item (.linking none node))) []
  | wires {t key item prev node new last} (call : s.threads t = some (.insert key item (.wiring (some prev) node)))
      (found : s.heap.nodes node = some new) (before : s.heap.nodes prev = some last) :
      Took s (.advance t) ((s.setHeap (setNode s.heap node { new with next := last.next })).setThread t
        (.insert key item (.linking (some prev) node))) []
  | linksFirst {t key item node} (call : s.threads t = some (.insert key item (.linking none node))) :
      Took s (.advance t) ((s.setHeap (setFirst s.heap (key % s.heap.bucketCntPerPart) node)).setThread t
        (.insert key item .unlatching)) [.insert t key item]
  | links {t key item prev node last} (call : s.threads t = some (.insert key item (.linking (some prev) node)))
      (before : s.heap.nodes prev = some last) :
      Took s (.advance t) ((s.setHeap (setNode s.heap prev { last with next := some node })).setThread t
        (.insert key item .unlatching)) [.insert t key item]
  | pushes {t key item cur cell curNode} (call : s.threads t = some (.insert key item (.pushing cur)))
      (mine : s.heap.items item = some cell) (found : s.heap.nodes cur = some curNode) :
      Took s (.advance t) ((s.setHeap (setItem s.heap item { cell with next := curNode.items })).setThread t
        (.insert key item (.swinging cur))) []
  | swings {t key item cur curNode} (call : s.threads t = some (.insert key item (.swinging cur)))
      (found : s.heap.nodes cur = some curNode) :
      Took s (.advance t) ((s.setHeap (setNode s.heap cur { curNode with items := some item })).setThread t
        (.insert key item .unlatching)) [.insert t key item]
  | unlatches {t key item} (call : s.threads t = some (.insert key item .unlatching))
      (locked : s.locked (key % s.heap.bucketCntPerPart) = true) :
      Took s (.advance t) ({ s with
        locked := Function.update s.locked (key % s.heap.bucketCntPerPart) false }.setThread t
          (.insert key item .done)) []
  | looks {t key scan scan'} (call : s.threads t = some (.read key (.scanning scan)))
      (went : scan.step s.heap key = some (.inl scan')) :
      Took s (.advance t) (s.setThread t (.read key (.scanning scan'))) []
  | meets {t key scan cur} (call : s.threads t = some (.read key (.scanning scan)))
      (went : scan.step s.heap key = some (.inr (.node cur))) :
      Took s (.advance t) (s.setThread t (.read key (.fetching cur))) []
  | lacks {t key scan prev} (call : s.threads t = some (.read key (.scanning scan)))
      (went : scan.step s.heap key = some (.inr (.absent prev))) :
      Took s (.advance t) (s.setThread t (.read key (.done none))) [.read t key none]
  | fetches {t key cur cell} (call : s.threads t = some (.read key (.fetching cur)))
      (found : s.heap.nodes cur = some cell) :
      Took s (.advance t) (s.setThread t (.read key (.done cell.items))) [.read t key cell.items]

private theorem advanceInsert_cases {s next : State} {t key item : Nat} {stage : InsertAt}
    (call : s.threads t = some (.insert key item stage)) (taken : s.advanceInsert t key item stage = some next) :
    Took s (.advance t) next (tells s (.advance t)) := by
  cases stage with
  | latching =>
    simp only [tells, call]
    simp only [State.advanceInsert] at taken
    split at taken
    next => cases taken; exact .spins call
    next free => cases taken; exact .latches call (Bool.eq_false_iff.mpr free)
  | scanning scan =>
    simp only [tells, call]
    simp only [State.advanceInsert] at taken
    split at taken
    next => cases taken
    next went => cases taken; exact .scans call went
    next went => cases taken; exact .finds call went
    next went => cases taken; exact .misses call went
  | allocating prev => cases taken
  | wiring prev node =>
    simp only [tells, call]
    cases prev with
    | none =>
      simp only [State.advanceInsert] at taken
      split at taken
      next => cases taken
      next found => cases taken; exact .wiresFirst call found
    | some prev =>
      simp only [State.advanceInsert] at taken
      split at taken
      next found before => cases taken; exact .wires call found before
      next => cases taken
  | linking prev node =>
    simp only [tells, call]
    cases prev with
    | none => cases taken; exact .linksFirst call
    | some prev =>
      simp only [State.advanceInsert] at taken
      split at taken
      next => cases taken
      next before => cases taken; exact .links call before
  | pushing cur =>
    simp only [tells, call]
    simp only [State.advanceInsert] at taken
    split at taken
    next mine found => cases taken; exact .pushes call mine found
    next => cases taken
  | swinging cur =>
    simp only [tells, call]
    simp only [State.advanceInsert] at taken
    split at taken
    next => cases taken
    next found => cases taken; exact .swings call found
  | unlatching =>
    simp only [tells, call]
    simp only [State.advanceInsert] at taken
    split at taken
    next locked => cases taken; exact .unlatches call locked
    next => cases taken
  | done => cases taken

private theorem advanceRead_cases {s next : State} {t key : Nat} {stage : ReadAt}
    (call : s.threads t = some (.read key stage)) (taken : s.advanceRead t key stage = some next) :
    Took s (.advance t) next (tells s (.advance t)) := by
  cases stage with
  | scanning scan =>
    simp only [State.advanceRead] at taken
    split at taken
    next => cases taken
    next went =>
      cases taken
      simp only [tells, call, went, Option.map_some, Option.getD_some, Found.told]
      exact .looks call went
    next went =>
      cases taken
      simp only [tells, call, went, Option.map_some, Option.getD_some, Found.told]
      exact .meets call went
    next went =>
      cases taken
      simp only [tells, call, went, Option.map_some, Option.getD_some, Found.told]
      exact .lacks call went
  | fetching cur =>
    simp only [State.advanceRead] at taken
    split at taken
    next => cases taken
    next cell found =>
      cases taken
      simp only [tells, call, found, Option.map_some, Option.toList_some]
      exact .fetches call found
  | done item => cases taken

theorem step_cases {s next : State} {action : Action} (taken : Step s action next) :
    Took s action next (tells s action) := by
  unfold Step at taken
  cases action with
  | insert key item cell =>
    simp only [State.step] at taken
    split at taken
    next guards => cases taken; exact .inserts (Option.isNone_iff_eq_none.mp guards.1) guards.2
    next => cases taken
  | read key =>
    simp only [State.step] at taken
    split at taken
    next bound => cases taken; exact .reads bound
    next => cases taken
  | alloc t node =>
    simp only [State.step] at taken
    split at taken
    next call =>
      split at taken
      next fresh => cases taken; exact .allocates call (Option.isNone_iff_eq_none.mp fresh)
      next => cases taken
    next => cases taken
  | advance t =>
    simp only [State.step] at taken
    split at taken
    next call => exact advanceInsert_cases call taken
    next call => exact advanceRead_cases call taken
    next => cases taken

def InsertAt.latched : InsertAt → Bool
  | .latching | .done => false
  | _ => true

/-- The bucket whose latch a thread holds. -/
def Thread.holds (bucketCntPerPart : Nat) : Thread → Option Nat
  | .insert key _ stage => if stage.latched then some (key % bucketCntPerPart) else none
  | .read _ _ => none

/-- A latch is taken exactly while one thread is between its two compare-and-swaps. -/
structure Exclusive (s : State) : Prop where
  held : ∀ b, s.locked b = true →
    ∃ t thread, s.threads t = some thread ∧ thread.holds s.heap.bucketCntPerPart = some b
  locked : ∀ t thread b, s.threads t = some thread → thread.holds s.heap.bucketCntPerPart = some b → s.locked b = true
  alone : ∀ t u thread other b, s.threads t = some thread → s.threads u = some other →
    thread.holds s.heap.bucketCntPerPart = some b → other.holds s.heap.bucketCntPerPart = some b → t = u
  numbered : ∀ t thread, s.threads t = some thread → t < s.begun

theorem found_thread {threads : Nat → Option Thread} {t u : Nat} {new thread : Thread}
    (found : Function.update threads t (some new) u = some thread) :
    (u = t ∧ thread = new) ∨ (u ≠ t ∧ threads u = some thread) := by
  by_cases same : u = t
  · subst same
    rw [Function.update_self] at found
    exact .inl ⟨rfl, (Option.some.inj found).symm⟩
  · rw [Function.update_of_ne same] at found
    exact .inr ⟨same, found⟩

section Exclusive
variable {s : State} {t begun : Nat} {old new : Thread} {heap : Heap}

/-- A thread goes on with what it holds. -/
theorem Exclusive.same (exclusive : Exclusive s) (call : s.threads t = some old)
    (count : heap.bucketCntPerPart = s.heap.bucketCntPerPart)
    (kept : new.holds s.heap.bucketCntPerPart = old.holds s.heap.bucketCntPerPart) :
    Exclusive ⟨heap, s.locked, Function.update s.threads t (some new), s.begun⟩ := by
  have before : ∀ u thread, Function.update s.threads t (some new) u = some thread → ∃ thread',
      s.threads u = some thread' ∧ thread'.holds s.heap.bucketCntPerPart = thread.holds heap.bucketCntPerPart := by
    intro u thread found
    rw [count]
    rcases found_thread found with ⟨rfl, rfl⟩ | ⟨-, there⟩
    · exact ⟨old, call, kept.symm⟩
    · exact ⟨thread, there, rfl⟩
  refine ⟨?_, ?_, ?_, ?_⟩
  · intro b taken
    obtain ⟨u, thread, there, holds⟩ := exclusive.held b taken
    dsimp only
    rw [count]
    by_cases same : u = t
    · subst same
      rw [call] at there
      cases there
      exact ⟨u, new, Function.update_self _ _ _, kept.trans holds⟩
    · exact ⟨u, thread, (Function.update_of_ne same _ _).trans there, holds⟩
  · intro u thread b found holds
    obtain ⟨thread', there, same⟩ := before u thread found
    exact exclusive.locked u thread' b there (same.trans holds)
  · intro u v thread other b found found' holds holds'
    obtain ⟨_, there, same⟩ := before u thread found
    obtain ⟨_, there', same'⟩ := before v other found'
    exact exclusive.alone u v _ _ b there there' (same.trans holds) (same'.trans holds')
  · intro u thread found
    obtain ⟨_, there, -⟩ := before u thread found
    exact exclusive.numbered u _ there

/-- A call starts without a latch. -/
theorem Exclusive.start (exclusive : Exclusive s) (count : heap.bucketCntPerPart = s.heap.bucketCntPerPart)
    (free : new.holds s.heap.bucketCntPerPart = none) :
    Exclusive ⟨heap, s.locked, Function.update s.threads s.begun (some new), s.begun + 1⟩ := by
  have before : ∀ u thread b, Function.update s.threads s.begun (some new) u = some thread →
      thread.holds heap.bucketCntPerPart = some b →
      s.threads u = some thread ∧ thread.holds s.heap.bucketCntPerPart = some b := by
    intro u thread b found holds
    rw [count] at holds
    rcases found_thread found with ⟨rfl, rfl⟩ | ⟨-, there⟩
    · cases free.symm.trans holds
    · exact ⟨there, holds⟩
  refine ⟨?_, ?_, ?_, ?_⟩
  · intro b taken
    obtain ⟨u, thread, there, holds⟩ := exclusive.held b taken
    have apart : u ≠ s.begun := Nat.ne_of_lt (exclusive.numbered u thread there)
    exact ⟨u, thread, (Function.update_of_ne apart _ _).trans there, count ▸ holds⟩
  · intro u thread b found holds
    obtain ⟨there, holds'⟩ := before u thread b found holds
    exact exclusive.locked u thread b there holds'
  · intro u v thread other b found found' holds holds'
    obtain ⟨there, mine⟩ := before u thread b found holds
    obtain ⟨there', theirs⟩ := before v other b found' holds'
    exact exclusive.alone u v thread other b there there' mine theirs
  · intro u thread found
    rcases found_thread found with ⟨rfl, -⟩ | ⟨-, there⟩
    · exact Nat.lt_succ_self _
    · exact Nat.lt_succ_of_lt (exclusive.numbered u thread there)

/-- A free latch is taken. -/
theorem Exclusive.acquire (exclusive : Exclusive s) {b : Nat} (call : s.threads t = some old)
    (free : s.locked b = false) (none : old.holds s.heap.bucketCntPerPart = none)
    (holds : new.holds s.heap.bucketCntPerPart = some b) :
    Exclusive ⟨s.heap, Function.update s.locked b true, Function.update s.threads t (some new), s.begun⟩ := by
  have nobody : ∀ u thread, s.threads u = some thread → thread.holds s.heap.bucketCntPerPart ≠ some b := by
    intro u thread there held
    rw [exclusive.locked u thread b there held] at free
    cases free
  refine ⟨?_, ?_, ?_, ?_⟩
  · intro c taken
    by_cases same : c = b
    · subst same
      exact ⟨t, new, Function.update_self _ _ _, holds⟩
    · dsimp only at taken
      rw [Function.update_of_ne same] at taken
      obtain ⟨u, thread, there, held⟩ := exclusive.held c taken
      have apart : u ≠ t := by
        rintro rfl
        rw [call] at there
        cases there
        cases none.symm.trans held
      exact ⟨u, thread, (Function.update_of_ne apart _ _).trans there, held⟩
  · intro u thread c found held
    dsimp only
    by_cases same : c = b
    · rw [same, Function.update_self]
    · rw [Function.update_of_ne same]
      rcases found_thread found with ⟨rfl, rfl⟩ | ⟨-, there⟩
      · exact absurd (Option.some.inj (held.symm.trans holds)) same
      · exact exclusive.locked u thread c there held
  · intro u v thread other c found found' held held'
    rcases found_thread found with ⟨rfl, rfl⟩ | ⟨-, there⟩ <;>
      rcases found_thread found' with ⟨rfl, rfl⟩ | ⟨-, there'⟩
    · rfl
    · cases holds.symm.trans held
      exact absurd held' (nobody v other there')
    · cases holds.symm.trans held'
      exact absurd held (nobody u thread there)
    · exact exclusive.alone u v thread other c there there' held held'
  · intro u thread found
    rcases found_thread found with ⟨rfl, -⟩ | ⟨-, there⟩
    · exact exclusive.numbered u old call
    · exact exclusive.numbered u thread there

/-- A latch is given back by who holds it. -/
theorem Exclusive.release (exclusive : Exclusive s) {b : Nat} (call : s.threads t = some old)
    (holds : old.holds s.heap.bucketCntPerPart = some b) (none : new.holds s.heap.bucketCntPerPart = none) :
    Exclusive ⟨s.heap, Function.update s.locked b false, Function.update s.threads t (some new), s.begun⟩ := by
  have before : ∀ u thread c, Function.update s.threads t (some new) u = some thread →
      thread.holds s.heap.bucketCntPerPart = some c → s.threads u = some thread ∧ c ≠ b := by
    intro u thread c found held
    rcases found_thread found with ⟨rfl, rfl⟩ | ⟨apart, there⟩
    · cases none.symm.trans held
    · refine ⟨there, ?_⟩
      rintro rfl
      exact apart (exclusive.alone u t thread old c there call held holds)
  refine ⟨?_, ?_, ?_, ?_⟩
  · intro c taken
    dsimp only at taken
    have apart : c ≠ b := by
      rintro rfl
      rw [Function.update_self] at taken
      cases taken
    rw [Function.update_of_ne apart] at taken
    obtain ⟨u, thread, there, held⟩ := exclusive.held c taken
    have other : u ≠ t := by
      rintro rfl
      rw [call] at there
      cases there
      exact apart (Option.some.inj (held.symm.trans holds))
    exact ⟨u, thread, (Function.update_of_ne other _ _).trans there, held⟩
  · intro u thread c found held
    obtain ⟨there, apart⟩ := before u thread c found held
    exact (Function.update_of_ne apart _ _).trans (exclusive.locked u thread c there held)
  · intro u v thread other c found found' held held'
    exact exclusive.alone u v thread other c (before u thread c found held).1 (before v other c found' held').1 held held'
  · intro u thread found
    rcases found_thread found with ⟨rfl, -⟩ | ⟨-, there⟩
    · exact exclusive.numbered u old call
    · exact exclusive.numbered u thread there

theorem exclusive_step {next : State} {action : Action} {told : List Told} (exclusive : Exclusive s)
    (took : Took s action next told) : Exclusive next := by
  cases took with
  | inserts | reads => exact exclusive.start rfl rfl
  | spins => exact exclusive
  | latches call free => exact exclusive.acquire call free rfl rfl
  | unlatches call => exact exclusive.release call rfl rfl
  | allocates call | scans call | finds call | misses call | wiresFirst call | wires call | linksFirst call
  | links call | pushes call | swings call | looks call | meets call | lacks call | fetches call =>
    exact exclusive.same call rfl rfl

end Exclusive

end DataAgentDB.Storage.IndexLatch
