import DataAgentDB.Engine.Ownership

/-! A run of the server taken apart: the calls of all sessions are one run of the store, and every
session runs as it would alone with the answers it got. -/

namespace DataAgentDB.Engine
open Storage Server LabelledRun
open Kv (Db Call Answer)

/-- All calls of kv_api, in their order. -/
def callsIn (trace : List Event) : List Kv.Event := trace.flatMap (fun event => event.call.toList)

/-- What an iteration of a session gets from its call. -/
def resultsAfter : Option Kv.Event → Results
  | none => resultsOf (.code .ERROR)
  | some made => resultsOf made.answer

def Event.resultsFor (fd : Nat) : Event → List Results
  | .accept _ _ => []
  | .serve other call => if other = fd then [resultsAfter call] else []

def resultsIn (fd : Nat) (trace : List Event) : List Results := trace.flatMap (Event.resultsFor fd)

/-- A session's log is that of the calls made for it, and its commits are acknowledged. -/
structure Logged (trace : List Event) (fd : Nat) (s : Session) : Prop where
  alone : ∃ input, .accept fd input ∈ trace ∧ Run Serve Always (connected input) (resultsIn fd trace) s
  calls : calls s.log = (callsOf fd trace).map (fun made => commandOf made.call)
  acked : (replies s.log).count okCommit = (Kv.committed (callsOf fd trace)).length

/-- A client that has not connected has had no calls. -/
structure Projected (trace : List Event) (h : Host) : Prop where
  logged : ∀ fd s, h.sessions fd = some s → Logged trace fd s
  unseen : ∀ fd, h.sessions fd = none → resultsIn fd trace = [] ∧ callsOf fd trace = []

section Steps
variable {hash : Bytes → Nat} {h next : Host} {event : Event} {trace : List Event}

theorem resultsIn_snoc (fd : Nat) (trace : List Event) (event : Event) :
    resultsIn fd (trace ++ [event]) = resultsIn fd trace ++ event.resultsFor fd := by
  simp [resultsIn]

/-- An event of another client. -/
theorem Logged.other {fd : Nat} {s : Session} (logged : Logged trace fd s) (results : event.resultsFor fd = [])
    (call : event.callOf fd = none) : Logged (trace ++ [event]) fd s := by
  obtain ⟨⟨input, accepted, run⟩, calls, acked⟩ := logged
  have same : callsOf fd (trace ++ [event]) = callsOf fd trace := by
    rw [callsOf_snoc, call]
    exact List.append_nil _
  refine ⟨⟨input, List.mem_append_left _ accepted, ?_⟩, ?_, ?_⟩
  · rw [resultsIn_snoc, results, List.append_nil]
    exact run
  · rw [same]; exact calls
  · rw [same]; exact acked

/-- What one iteration adds, with the call it made. -/
theorem Logged.iterate {fd : Nat} {s : Session} {made : Option Kv.Event} (logged : Logged trace fd s)
    (agrees : Agrees s) (running : s.running = true)
    (calling : s.calling = made.map (fun made => commandOf made.call)) :
    Logged (trace ++ [.serve fd made]) fd (s.iterate (resultsAfter made)) := by
  obtain ⟨⟨input, accepted, run⟩, calls, acked⟩ := logged
  have done := iterated agrees (resultsAfter made)
  rw [calling] at done
  have mine : callsOf fd (trace ++ [.serve fd made]) = callsOf fd trace ++ made.toList := by
    rw [callsOf_snoc]
    simp [Event.callOf]
  refine ⟨⟨input, List.mem_append_left _ accepted, ?_⟩, ?_, ?_⟩
  · rw [resultsIn_snoc]
    have one : (Event.serve fd made).resultsFor fd = [resultsAfter made] := if_pos rfl
    rw [one]
    refine .snoc run trivial ?_
    unfold Serve serve
    rw [if_pos running]
  · rw [done.calls, calls, mine, List.map_append]
    cases made <;> rfl
  · rw [done.acked, acked, mine]
    cases made with
    | none => simp [acknowledges, Kv.committed]
    | some made =>
      obtain ⟨call, answer⟩ := made
      rw [Option.toList_some, Kv.committed_snoc, List.length_append, Nat.add_left_cancel_iff]
      cases call with
      | commit t =>
        cases answer with
        | code rc => cases rc <;> rfl
        | begun | value => rfl
      | begin_txn | get | put | abort_txn => rfl

theorem missing_session {sessions : Nat → Option Session} {fd other : Nat} {s : Session}
    (free : Function.update sessions fd (some s) other = none) : other ≠ fd ∧ sessions other = none := by
  by_cases same : other = fd
  · subst same
    rw [Function.update_self] at free
    cases free
  · exact ⟨same, by simpa [Function.update_of_ne same] using free⟩

/-- One client's session moves on; the others are as they were. -/
theorem Projected.moved (projected : Projected trace h) (db : Db) {fd : Nat} {s : Session}
    (others : ∀ other, other ≠ fd → event.resultsFor other = [] ∧ event.callOf other = none)
    (logged : Logged (trace ++ [event]) fd s) :
    Projected (trace ++ [event]) ({ h with db := db }.setSession fd s) := by
  refine ⟨fun other s' found => ?_, fun other free => ?_⟩
  · rcases found_session found with ⟨rfl, here⟩ | ⟨apart, before⟩
    · cases here
      exact logged
    · obtain ⟨results, call⟩ := others other apart
      exact (projected.logged other s' before).other results call
  · obtain ⟨apart, before⟩ := missing_session free
    obtain ⟨results, call⟩ := others other apart
    obtain ⟨none_got, none_made⟩ := projected.unseen other before
    rw [resultsIn_snoc, callsOf_snoc, results, call, none_got, none_made]
    exact ⟨rfl, rfl⟩

theorem projected_took (owned : Owned h) (projected : Projected trace h) (took : Took hash h event next) :
    Projected (trace ++ [event]) next := by
  cases took with
  | @accepted fd input free =>
    obtain ⟨none_got, none_made⟩ := projected.unseen fd free
    refine projected.moved h.db (fun _ _ => ⟨rfl, rfl⟩) ⟨⟨input, by simp, ?_⟩, ?_, ?_⟩
    · rw [resultsIn_snoc, none_got]
      exact .nil
    · rw [callsOf_snoc, none_made]
      rfl
    · rw [callsOf_snoc, none_made]
      rfl
  | @quiet fd s found running silent =>
    have agrees := owned.agrees fd s found
    exact projected.moved h.db (fun _ apart => ⟨if_neg apart.symm, if_neg apart.symm⟩)
      ((projected.logged fd s found).iterate agrees running (calling_of_quiet agrees silent))
  | @called fd s call answer db found running calls performed =>
    exact projected.moved db (fun _ apart => ⟨if_neg apart.symm, if_neg apart.symm⟩)
      ((projected.logged fd s found).iterate (owned.agrees fd s found) running (calling_of_call calls).1)

theorem projected_run {file : List (Bytes × Bytes)} (run : Run (Step hash) Always (started hash file) trace h) :
    Owned h ∧ Projected trace h := by
  refine run.invariant (fun trace h => Owned h ∧ Projected trace h)
    ⟨owned_started hash file, fun _ _ found => (nomatch found), fun _ _ => ⟨rfl, rfl⟩⟩ ?_
  rintro trace state event next ⟨owned, projected⟩ _ taken
  exact ⟨owned_took owned (step_cases taken), projected_took owned projected (step_cases taken)⟩

/-- The server refines the store: a step is one of its calls or none. -/
theorem refines_store (hash : Bytes → Nat) :
    Refines (Step hash) (Kv.Step hash) (fun event => event.call.toList) (fun h db => h.db = db) := by
  refine .of_steps (fun h event next db same taken => ?_)
  subst same
  cases step_cases taken with
  | accepted => exact .inl ⟨rfl, rfl⟩
  | quiet => exact .inl ⟨rfl, rfl⟩
  | called _ _ _ performed => exact .inr ⟨_, _, rfl, performed, rfl⟩

/-- The calls of a run of the server make a run of the store. -/
theorem stored_run {file : List (Bytes × Bytes)} (run : Run (Step hash) Always (started hash file) trace h) :
    Run (Kv.Step hash) Always (Kv.initial hash file) (callsIn trace) h.db := by
  have related : (started hash file).db = Kv.initial hash file := rfl
  obtain ⟨db, calls, same⟩ := (refines_store hash).run related run
  exact same ▸ calls

end Steps

/-- However the sessions are interleaved, the calls of all of them make one run of the store; each
session does with its lines what it would do alone with the answers it got; its calls are those made
for it; and it has sent one `OK COMMIT` for each commit the store made for it. -/
theorem sessions_apart {hash : Bytes → Nat} {file : List (Bytes × Bytes)} {trace : List Event} {h : Host}
    (run : Run (Step hash) Always (started hash file) trace h) :
    Run (Kv.Step hash) Always (Kv.initial hash file) (callsIn trace) h.db ∧
    ∀ fd s, h.sessions fd = some s →
      (∃ input, .accept fd input ∈ trace ∧ Run Serve Always (connected input) (resultsIn fd trace) s) ∧
      calls s.log = (callsOf fd trace).map (fun made => commandOf made.call) ∧
      (replies s.log).count okCommit = (Kv.committed (callsOf fd trace)).length := by
  obtain ⟨_, projected⟩ := projected_run run
  refine ⟨stored_run run, fun fd s found => ?_⟩
  obtain ⟨alone, calls, acked⟩ := projected.logged fd s found
  exact ⟨alone, calls, acked⟩

/-- Two clients update the same key; the second to commit is told `ERR ABORT`. -/
theorem sessions_apart_conflict :
    ∃ (trace : List Event) (h : Host) (s s' : Session),
      Run (Kv.Step Kv.numeral) Always (Kv.initial Kv.numeral [(bytes "a", bytes "x")]) (callsIn trace) h.db ∧
      h.sessions 7 = some s ∧ (replies s.log).count okCommit = 1 ∧
      h.sessions 8 = some s' ∧ (replies s'.log).count okCommit = 0 := by
  have played : ((play (Host.next Kv.numeral) (started Kv.numeral [(bytes "a", bytes "x")])
      [.accept 7 (bytes "START\nPUT a y\nCOMMIT\n"), .accept 8 (bytes "START\nPUT a z\nCOMMIT\n"),
        .serve 7 (some ⟨.begin_txn, .begun 1⟩), .serve 8 (some ⟨.begin_txn, .begun 2⟩),
        .serve 8 (some ⟨.put 2 (bytes "a") (bytes "z"), .code .OK⟩),
        .serve 7 (some ⟨.put 1 (bytes "a") (bytes "y"), .code .OK⟩),
        .serve 7 (some ⟨.commit 1, .code .OK⟩), .serve 8 (some ⟨.commit 2, .code .ABORT⟩)]).map
      (fun h => (h.sessions 7).isSome && (h.sessions 8).isSome)) = some true := by decide +kernel
  obtain ⟨h, ran, found⟩ := Option.map_eq_some_iff.mp played
  obtain ⟨seven, eight⟩ := (Bool.and_eq_true _ _).mp found
  obtain ⟨s, seven⟩ := Option.isSome_iff_exists.mp seven
  obtain ⟨s', eight⟩ := Option.isSome_iff_exists.mp eight
  have run : Run (Step Kv.numeral) Always (started Kv.numeral [(bytes "a", bytes "x")]) _ h := run_of_play ran
  obtain ⟨store, session⟩ := sessions_apart run
  refine ⟨_, h, s, s', store, seven, ?_, eight, ?_⟩
  · exact (session 7 s seven).2.2.trans (by decide)
  · exact (session 8 s' eight).2.2.trans (by decide)

end DataAgentDB.Engine
