import DataAgentDB.Lib.LabelledRun
import Mathlib.Algebra.Group.Nat.Defs

/-! The timestamps of the threads (thread.cpp, manager.cpp). With batches a thread counts on by
itself until its own count reaches a multiple of the batch size, while the shared counter moves
by one for each draw. -/

namespace DataAgentDB.Storage

open LabelledRun

abbrev ThdId := Nat

/-- `g_ts_batch_alloc` and `g_ts_batch_num`. -/
structure TsBatch where
  alloc : Bool
  num : UInt32
  two_le : 2 ≤ num

/-- The manager's `timestamp` and the `_curr_ts` of each thread. -/
structure Clock where
  timestamp : UInt64
  currTs : ThdId → UInt64

/-- `Manager::get_ts`: the timestamp before an atomic increment. -/
def Clock.getTs (clock : Clock) : UInt64 × Clock :=
  (clock.timestamp, { clock with timestamp := clock.timestamp + 1 })

def Clock.setCurrTs (clock : Clock) (thd : ThdId) (ts : UInt64) : Clock :=
  { clock with currTs := Function.update clock.currTs thd ts }

/-- `thread_t::get_next_ts` of thread `thd`. -/
def Clock.getNextTs (batch : TsBatch) (clock : Clock) (thd : ThdId) : UInt64 × Clock :=
  if batch.alloc then
    if clock.currTs thd % batch.num.toUInt64 = 0 then
      let (ts, drawn) := clock.getTs
      (ts + 1 - 1, drawn.setCurrTs thd (ts + 1))
    else (clock.currTs thd + 1 - 1, clock.setCurrTs thd (clock.currTs thd + 1))
  else
    let (ts, drawn) := clock.getTs
    (ts, drawn.setCurrTs thd ts)

/-- A call that has returned. -/
structure TsCall where
  thd : ThdId
  ts : UInt64
  deriving DecidableEq, Repr

def TsStep (batch : TsBatch) (clock : Clock) (call : TsCall) (next : Clock) : Prop :=
  clock.getNextTs batch call.thd = (call.ts, next)

/-- The call draws its timestamp from the manager. -/
def Draws (batch : TsBatch) (_ : List TsCall) (clock : Clock) (call : TsCall) : Prop :=
  batch.alloc = false ∨ clock.currTs call.thd % batch.num.toUInt64 = 0

/-- No timestamp is given out twice, and those of one thread increase. -/
structure Unique (calls : List TsCall) : Prop where
  distinct : (calls.map TsCall.ts).Nodup
  increasing : ∀ thd, ((calls.filter (fun call => call.thd = thd)).map TsCall.ts).Pairwise (· < ·)

section Runs
variable {batch : TsBatch} {clock next : Clock} {call : TsCall} {calls : List TsCall}

theorem unique_of_increasing (increasing : (calls.map TsCall.ts).Pairwise (· < ·)) : Unique calls where
  distinct := increasing.imp (fun before => UInt64.ne_of_lt before)
  increasing _ := increasing.sublist (List.filter_sublist.map TsCall.ts)

theorem getNextTs_of_draws {earlier : List TsCall} (draws : Draws batch earlier clock call) :
    (clock.getNextTs batch call.thd).1 = clock.timestamp ∧
      (clock.getNextTs batch call.thd).2.timestamp = clock.timestamp + 1 := by
  rcases draws with single | multiple
  · rw [Clock.getNextTs, single]
    exact ⟨rfl, rfl⟩
  · cases alloc : batch.alloc with
    | false =>
      rw [Clock.getNextTs, alloc]
      exact ⟨rfl, rfl⟩
    | true =>
      rw [Clock.getNextTs, if_pos alloc, if_pos multiple]
      exact ⟨UInt64.add_sub_cancel _ _, rfl⟩

theorem step_of_draws {earlier : List TsCall} (draws : Draws batch earlier clock call)
    (step : TsStep batch clock call next) :
    call.ts = clock.timestamp ∧ next.timestamp = clock.timestamp + 1 := by
  have drawn := getNextTs_of_draws draws
  rw [show clock.getNextTs batch call.thd = (call.ts, next) from step] at drawn
  exact drawn

/-- While every call draws, the calls return the successive values of the shared counter. -/
theorem counts_of_run (start : clock.timestamp = 1)
    (run : Run (TsStep batch) (Draws batch) clock calls next) :
    next.timestamp = UInt64.ofNat (calls.length + 1) ∧
      calls.map TsCall.ts = (List.range calls.length).map (fun i => UInt64.ofNat (i + 1)) := by
  refine run.invariant (fun calls next => next.timestamp = UInt64.ofNat (calls.length + 1) ∧
    calls.map TsCall.ts = (List.range calls.length).map (fun i => UInt64.ofNat (i + 1))) ⟨start, rfl⟩ ?_
  intro calls state call next held draws step
  obtain ⟨count, drawn⟩ := held
  obtain ⟨given, moved⟩ := step_of_draws draws step
  constructor
  · rw [moved, count, List.length_append, List.length_singleton, UInt64.ofNat_add (calls.length + 1) 1]
    rfl
  · rw [List.length_append, List.length_singleton, List.range_succ, List.map_append, List.map_append, drawn,
      List.map_singleton, List.map_singleton, given, count]

end Runs

/-- While every call draws, and there are fewer than 2^64 of them, no timestamp is given out twice. -/
theorem unique_of_draws {batch : TsBatch} {clock next : Clock} {calls : List TsCall}
    (start : clock.timestamp = 1) (few : calls.length < 2 ^ 64)
    (run : Run (TsStep batch) (Draws batch) clock calls next) : Unique calls := by
  apply unique_of_increasing
  rw [(counts_of_run start run).2, List.pairwise_map]
  refine List.pairwise_lt_range.imp_of_mem ?_
  intro i j _ member less
  have inside : j < calls.length := List.mem_range.mp member
  have size : UInt64.size = 2 ^ 64 := rfl
  rw [UInt64.lt_iff_toNat_lt, UInt64.toNat_ofNat_of_lt' (by omega), UInt64.toNat_ofNat_of_lt' (by omega)]
  omega

/-- The setting of `global.cpp`, with batches on. -/
def batchOfTen : TsBatch where
  alloc := true
  num := 10
  two_le := by decide

/-- The clock after `Manager::init`, with threads that have drawn nothing. -/
def freshClock : Clock := ⟨1, fun _ => 0⟩

/-- The first draws of three threads, with batches on. -/
theorem unique_of_draws_fresh : ∃ next, Run (TsStep batchOfTen) Always freshClock [⟨1, 1⟩, ⟨0, 2⟩, ⟨2, 3⟩] next ∧
    Unique [⟨1, 1⟩, ⟨0, 2⟩, ⟨2, 3⟩] := by
  have run : Run (TsStep batchOfTen) (Draws batchOfTen) freshClock [⟨1, 1⟩, ⟨0, 2⟩, ⟨2, 3⟩] _ :=
    .cons (.inr rfl) rfl (.cons (.inr rfl) rfl (.cons (.inr rfl) rfl .nil))
  exact ⟨_, run.unrestricted, unique_of_draws rfl (by decide) run⟩

/-- Thread 0 counts on to the timestamp that thread 1 draws. -/
theorem batch_repeats : ∃ last, Run (TsStep batchOfTen) Always freshClock [⟨0, 1⟩, ⟨0, 2⟩, ⟨1, 2⟩] last ∧
    (∀ thd, freshClock.currTs thd % batchOfTen.num.toUInt64 = 0) ∧ ¬ Unique [⟨0, 1⟩, ⟨0, 2⟩, ⟨1, 2⟩] := by
  refine ⟨_, .cons trivial rfl (.cons trivial rfl (.cons trivial rfl .nil)), fun _ => rfl, fun unique => ?_⟩
  exact absurd unique.distinct (by decide)

end DataAgentDB.Storage
