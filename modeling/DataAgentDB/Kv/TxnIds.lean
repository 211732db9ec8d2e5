import DataAgentDB.Kv.Interleaved

/-! The two draws of `begin_txn`. Between the timestamp and the id of a transaction other threads may
move, so that the ids come in another order than the timestamps, by which transactions are numbered. -/

namespace DataAgentDB.Kv
open Storage Server TxnMan LabelledRun CommitReplay

/-- The store with the handles of the server's threads. -/
structure Threads where
  engine : Engine
  /-- The `id` of a transaction's handle, once it is drawn. -/
  ids : Nat → Option Nat
  /-- `g_txn_id`. -/
  txnId : Nat

/-- A move, of which `begin_txn` only draws the timestamp, or the draw of its id. -/
inductive ThreadMove where
  | plain (move : Move)
  | fetch_add (t : Nat)
  deriving DecidableEq, Repr

namespace ThreadMove

def plain? : ThreadMove → Option Move
  | .plain move => some move
  | .fetch_add _ => none

def Fits : ThreadMove → Prop
  | .plain move => move.Fits
  | .fetch_add _ => True

instance : (move : ThreadMove) → Decidable move.Fits
  | .plain move => inferInstanceAs (Decidable move.Fits)
  | .fetch_add _ => .isTrue trivial

end ThreadMove

/-- The transaction of a move. -/
def Move.target : Move → Option Nat
  | .begin_txn => none
  | .get t _ | .put t _ _ | .commit t | .abort_txn t | .advance t => some t

namespace Threads

def start (db : Db) : Threads := { engine := Engine.start db, ids := fun _ => none, txnId := db.nextId }

/-- The transaction's `begin_txn` has drawn its timestamp and has not returned. -/
def beginning (s : Threads) (t : Nat) : Bool := (s.engine.clients t).isSome && (s.ids t).isNone

def next (hash : Bytes → Nat) (s : Threads) : ThreadMove → Option Threads
  | .plain move =>
      if move.target.any s.beginning then none
      else (s.engine.next hash move).map (fun engine => { s with engine := engine })
  | .fetch_add t =>
      if s.beginning t then some { s with ids := Function.update s.ids t (some s.txnId), txnId := s.txnId + 1 }
      else none

def Step (hash : Bytes → Nat) (s : Threads) (move : ThreadMove) (after : Threads) : Prop := s.next hash move = some after

end Threads

/-- The ids that were drawn since the first one. -/
structure Named (first : Nat) (s : Threads) : Prop where
  counted : first ≤ s.txnId
  drawn : ∀ t id, s.ids t = some id → first ≤ id ∧ id < s.txnId
  distinct : ∀ t u id, s.ids t = some id → s.ids u = some id → t = u

section
variable {hash : Bytes → Nat} {db : Db} {s : Threads} {moves : List ThreadMove} {first t : Nat}

theorem named_start (db : Db) : Named db.nextId (Threads.start db) where
  counted := Nat.le_refl _
  drawn _ _ found := by
    have none : (none : Option Nat) = some _ := found
    cases none
  distinct _ _ _ found := by
    have none : (none : Option Nat) = some _ := found
    cases none

theorem Named.fetch_add (named : Named first s) (t : Nat) : Named first
    { s with ids := Function.update s.ids t (some s.txnId), txnId := s.txnId + 1 } where
  counted := Nat.le_succ_of_le named.counted
  drawn u id found := by
    dsimp only at found ⊢
    by_cases same : u = t
    · subst same
      rw [Function.update_self] at found
      cases found
      exact ⟨named.counted, Nat.lt_succ_self _⟩
    · rw [Function.update_of_ne same] at found
      obtain ⟨low, high⟩ := named.drawn u id found
      exact ⟨low, Nat.lt_succ_of_lt high⟩
  distinct u v id found found' := by
    dsimp only at found found'
    -- the new id is above all others
    have above : ∀ w, w ≠ t → Function.update s.ids t (some s.txnId) w ≠ some s.txnId := by
      intro w other drawn
      rw [Function.update_of_ne other] at drawn
      exact Nat.lt_irrefl _ (named.drawn w _ drawn).2
    by_cases same : u = t
    · subst same
      rw [Function.update_self] at found
      cases found
      by_contra apart
      exact above v (fun here => apart here.symm) found'
    · by_cases same' : v = t
      · subst same'
        rw [Function.update_self] at found'
        cases found'
        exact absurd found (above u same)
      · rw [Function.update_of_ne same] at found
        rw [Function.update_of_ne same'] at found'
        exact named.distinct u v id found found'

/-- Without the draws of the ids, the moves are a run of the engine. -/
theorem threads_run (run : Run (Threads.Step hash) (fun _ _ move => move.Fits) (Threads.start db) moves s) :
    Run (Engine.Step hash) (fun _ _ move => move.Fits) (Engine.start db) (moves.filterMap ThreadMove.plain?) s.engine ∧
      Named db.nextId s := by
  refine run.invariant (fun moves s => Run (Engine.Step hash) (fun _ _ move => move.Fits) (Engine.start db)
    (moves.filterMap ThreadMove.plain?) s.engine ∧ Named db.nextId s) ⟨.nil, named_start db⟩ ?_
  rintro moves s (move | t) after ⟨earlier, named⟩ fits taken
  · obtain ⟨-, moved⟩ := Option.ite_none_left_eq_some.mp taken
    obtain ⟨engine, stepped, rfl⟩ := Option.map_eq_some_iff.mp moved
    rw [List.filterMap_append]
    exact ⟨.snoc earlier fits stepped, named.counted, named.drawn, named.distinct⟩
  · obtain ⟨-, same⟩ := Option.ite_none_right_eq_some.mp taken
    cases same
    rw [List.filterMap_append]
    refine ⟨?_, named.fetch_add t⟩
    have silent : [ThreadMove.fetch_add t].filterMap ThreadMove.plain? = [] := rfl
    rw [silent, List.append_nil]
    exact earlier

end

/-- From any state without open transactions, while puts only overwrite: however threads interleave
inside of their calls, whole calls with the same answers explain the run, and of these the committed
transactions in the order of their commits explain every value the gets returned and all that is in
the rows that nobody holds. The calls name a transaction by the order of the timestamps; the ids that
`begin_txn` gave are new, and no two are the same. -/
theorem interleavings_serializable {hash : Bytes → Nat} {file : List (Bytes × Bytes)} {before : List Event}
    {init : Db} {moves : List ThreadMove} {s : Threads} (started : Run (Step hash) Always (initial hash file) before init)
    (closed : ∀ t, init.txns t = none)
    (run : Run (Threads.Step hash) (fun _ _ move => move.Fits) (Threads.start init) moves s) :
    (∀ t id, s.ids t = some id → init.nextId ≤ id) ∧
      (∀ t u id, s.ids t = some id → s.ids u = some id → t = u) ∧
      ∃ calls, calls = Engine.calls hash (Engine.start init) (moves.filterMap ThreadMove.plain?) ∧
        (∃ db, Run (Step hash) (Overwrites hash) init calls db) ∧
        (∀ t man rc copied installs, s.engine.clients t = some ⟨man, .ended rc, copied, installs⟩ →
          Answers calls t rc) ∧
        Serial (installs calls) (Explained calls) (init.readable hash) (committed calls) ∧
        ∀ key, 0 ∉ key →
          (∀ row, s.engine.store.indexRead (hash key) = some row → (s.engine.store.rows row).manager.latch = none) →
          s.engine.readable hash key = replay (installs calls) (init.readable hash) (committed calls) key := by
  obtain ⟨moved, named⟩ := threads_run run
  exact ⟨fun t id found => (named.drawn t id found).1, named.distinct, _, rfl, moves_explained started closed moved⟩

/-- The ids are drawn in the other order. Of two commits at once, the second to start takes effect first, and
the first one's row is still held. -/
theorem interleavings_serializable_crossed :
    ∃ (init : Db) (moves : List ThreadMove) (s : Threads) (calls : List Event),
      calls =
        [⟨.begin_txn, .begun 1⟩, ⟨.begin_txn, .begun 2⟩, ⟨.get 1 (bytes "a"), .value (bytes "x")⟩,
          ⟨.put 1 (bytes "a") (bytes "v"), .code .OK⟩, ⟨.put 2 (bytes "b") (bytes "w"), .code .OK⟩,
          ⟨.commit 2, .code .OK⟩, ⟨.commit 1, .code .OK⟩] ∧
      s.ids 1 = some 2 ∧ s.ids 2 = some 1 ∧
      Run (Threads.Step numeral) Always (Threads.start init) moves s ∧
      Serial (installs calls) (Explained calls) (init.readable numeral) [2, 1] ∧
      s.engine.readable numeral (bytes "b") = some (bytes "w") ∧
      s.engine.readable numeral (bytes "a") = some (bytes "x") := by
  let init := initial numeral [(bytes "a", bytes "x"), (bytes "b", bytes "y")]
  let moves : List ThreadMove := [.plain .begin_txn, .plain .begin_txn, .fetch_add 2, .fetch_add 1] ++
    [.get 1 (bytes "a"), .put 1 (bytes "a") (bytes "v"), .put 2 (bytes "b") (bytes "w"), .commit 1, .commit 2,
      .advance 1, .advance 2, .advance 2, .advance 1, .advance 2, .advance 2, .advance 2].map ThreadMove.plain
  have played : (playUnder (Threads.next numeral) (fun _ _ move => move.Fits) [] (Threads.start init) moves).map
      (fun s => ((s.ids 1, s.ids 2), s.engine.readable numeral (bytes "b"), s.engine.readable numeral (bytes "a"))) =
        some ((some 2, some 1), some (bytes "w"), some (bytes "x")) := by decide +kernel
  obtain ⟨s, ran, shown⟩ := Option.map_eq_some_iff.mp played
  simp only [Prod.mk.injEq] at shown
  obtain ⟨⟨one, two⟩, readable⟩ := shown
  have run := run_of_playUnder ran
  obtain ⟨-, -, calls, same, -, -, serial, -⟩ := interleavings_serializable .nil (fun _ => rfl) run
  have made : calls =
      [⟨.begin_txn, .begun 1⟩, ⟨.begin_txn, .begun 2⟩, ⟨.get 1 (bytes "a"), .value (bytes "x")⟩,
        ⟨.put 1 (bytes "a") (bytes "v"), .code .OK⟩, ⟨.put 2 (bytes "b") (bytes "w"), .code .OK⟩,
        ⟨.commit 2, .code .OK⟩, ⟨.commit 1, .code .OK⟩] := same.trans (by decide +kernel)
  refine ⟨init, moves, s, calls, made, one, two, run.unrestricted, ?_, readable⟩
  have order : committed calls = [2, 1] := by
    rw [made]
    decide
  rwa [order] at serial

end DataAgentDB.Kv
