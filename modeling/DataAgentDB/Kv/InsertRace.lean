import DataAgentDB.Kv.Durability
import DataAgentDB.Kv.Observed

/-! `Write` on one absent key by concurrent transactions. The lookup and the rest of `Write`, with
`index_insert` in it, are steps of their own, and nothing looks again before the insert. -/

namespace DataAgentDB.Kv
open Storage Server TxnMan LabelledRun

/-- The store with, for each transaction inside `Write`, what its lookup returned and the value. -/
structure Race where
  db : Db
  pending : Nat → Option (Option Nat × Bytes)

/-- A step with its outcome. -/
inductive RaceStep where
  | begin_txn (t : Nat)
  | lookup (t : Nat) (value : Bytes)
  | insert (t : Nat) (value : Bytes) (rc : RC)
  | commit (t : Nat) (rc : RC) (endTs : Nat)
  deriving DecidableEq, Repr

namespace Race

def start (db : Db) : Race := { db := db, pending := fun _ => none }

def setPending (race : Race) (t : Nat) (lookup : Option (Option Nat × Bytes)) :
    Nat → Option (Option Nat × Bytes) :=
  Function.update race.pending t lookup

/-- The state after a step with its outcome. -/
def next (hash : Bytes → Nat) (key : Bytes) (race : Race) : RaceStep → Option Race
  | .begin_txn t =>
      if t = race.db.nextId then some { race with db := race.db.begin_txn.2 } else none
  | .lookup t value =>
      match race.db.txns t, race.pending t with
      | some _, none =>
          some { race with pending := race.setPending t (some (race.db.store.indexRead (hash key), value)) }
      | _, _ => none
  | .insert t value rc =>
      match race.db.txns t, race.pending t with
      | some txn, some (item, value') =>
          match race.db.store.writeAt txn item (hash key) key value with
          | some (rc', store, txn) =>
              if value' = value ∧ rc' = rc then
                some { db := { race.db with store := store }.setTxn t (some txn)
                       pending := race.setPending t none }
              else none
          | none => none
      | _, _ => none
  | .commit t rc endTs =>
      match race.db.txns t, race.pending t with
      | some txn, none =>
          match txn.finish race.db.store.rows race.db.store.timestamp t .RCOK with
          | some (rc', rows, timestamp, txn) =>
              if rc' = rc ∧ txn.endTs = endTs then
                some { race with db := { race.db with
                  store := { race.db.store with rows := rows, timestamp := timestamp } }.setTxn t none }
              else none
          | none => none
      | _, _ => none

end Race

def Race.Step (hash : Bytes → Nat) (key : Bytes) (race : Race) (step : RaceStep) (next : Race) : Prop :=
  race.next hash key step = some next

namespace RaceStep

/-- The whole call that ends with a step. -/
def event (key : Bytes) : RaceStep → Option Event
  | .begin_txn t => some ⟨.begin_txn, .begun t⟩
  | .lookup _ _ => none
  | .insert t value rc => some ⟨.put t key value, .code (Rc.ofWrite rc)⟩
  | .commit t rc _ => some ⟨.commit t, .code (Rc.ofFinish rc)⟩

def ended : RaceStep → Option (Nat × Nat)
  | .commit t rc endTs => if Rc.ofFinish rc = .OK then some (t, endTs) else none
  | _ => none

end RaceStep

def calls (key : Bytes) (steps : List RaceStep) : List Event := steps.filterMap (RaceStep.event key)

/-- The transactions whose commit returned `OK`, with their end timestamps. -/
def ends (steps : List RaceStep) : List (Nat × Nat) := steps.filterMap RaceStep.ended

/-- Once all transactions have ended, the index holds at most one row for the key, and a new
transaction reads what the one with the largest end timestamp wrote last, of those that
committed a write. -/
def NoLostUpdate (hash : Bytes → Nat) (key : Bytes) (steps : List RaceStep) (race : Race) : Prop :=
  (∀ t < race.db.nextId, race.db.txns t = none) →
    (race.db.store.entries (hash key)).length ≤ 1 ∧
    ∀ t endTs value, (t, endTs) ∈ ends steps → lastPut (calls key steps) t key = some value →
      (∀ u endTs', (u, endTs') ∈ ends steps → lastPut (calls key steps) u key ≠ none → endTs' ≤ endTs) →
      (play (Db.next hash) race.db [⟨.begin_txn, .begun race.db.nextId⟩,
        ⟨.get race.db.nextId key, .value value⟩]).isSome = true

/-- Strings fit, an insert finds the index as its lookup did, and nobody commits after another
committed a row it inserted. -/
def Rechecked (hash : Bytes → Nat) (key : Bytes) (_ : List RaceStep) (race : Race) : RaceStep → Prop
  | .insert t value _ => Fits 127 key ∧ Fits 1023 value ∧
      ((race.pending t).any (fun lookup => lookup.1.isNone) = true → race.db.store.indexRead (hash key) = none)
  | .commit t _ _ => ∀ txn ∈ race.db.txns t, ∀ row ∈ txn.insertRows, (race.db.store.rows row).manager.wts = 0
  | _ => True

instance (hash : Bytes → Nat) (key : Bytes) (steps : List RaceStep) (race : Race) (step : RaceStep) :
    Decidable (Rechecked hash key steps race step) := by
  cases step with
  | commit t => exact inferInstanceAs (Decidable (∀ txn ∈ race.db.txns t, ∀ row ∈ txn.insertRows, _))
  | insert => exact inferInstanceAs (Decidable (_ ∧ _))
  | _ => exact .isTrue trivial

section Steps
variable {hash : Bytes → Nat} {key : Bytes} {race next : Race} {steps : List RaceStep} {step : RaceStep}

theorem calls_snoc : calls key (steps ++ [step]) = calls key steps ++ (step.event key).toList := by
  unfold calls
  rw [List.filterMap_append]
  cases value : step.event key <;> simp [value]

theorem ends_snoc : ends (steps ++ [step]) = ends steps ++ step.ended.toList := by
  unfold ends
  rw [List.filterMap_append]
  cases value : step.ended <;> simp [value]

/-- Lookups that found the key's row stay right. -/
def Aimed (hash : Bytes → Nat) (key : Bytes) (race : Race) : Prop :=
  ∀ t row value, race.pending t = some (some row, value) → race.db.store.indexRead (hash key) = some row

theorem pending_set {t u : Nat} {lookup lookup' : Option (Option Nat × Bytes)}
    (found : race.setPending t lookup u = lookup') :
    (u = t ∧ lookup = lookup') ∨ race.pending u = lookup' := by
  unfold Race.setPending at found
  by_cases own : u = t
  · subst own
    exact .inl ⟨rfl, by rwa [Function.update_self] at found⟩
  · exact .inr (by rwa [Function.update_of_ne own] at found)

/-- The rest of `Write` is a whole put, if the index still is as the lookup found it. -/
theorem put_of_insert {db : Db} {t : Nat} {txn txn' : Txn} {item : Option Nat} {value : Bytes} {rc : RC}
    {store : Store} (opened : db.txns t = some txn) (still : db.store.indexRead (hash key) = item)
    (wrote : db.store.writeAt txn item (hash key) key value = some (rc, store, txn')) :
    Kv.Step hash db ⟨.put t key value, .code (Rc.ofWrite rc)⟩
      ({ db with store := store }.setTxn t (some txn')) := by
  subst still
  exact step_of_perform (by simp [Db.perform, Db.put, opened, Store.write, wrote])

/-- A step is a whole call, or a lookup, which only adds to the pending ones. -/
theorem race_step (aimed : Aimed hash key race) (rechecked : Rechecked hash key steps race step)
    (taken : Race.Step hash key race step next) :
    (∃ event, step.event key = some event ∧ Kv.Step hash race.db event next.db ∧
      SparesCommitted [] race.db event ∧
      ∀ t lookup, next.pending t = some lookup → race.pending t = some lookup) ∨
    (step.event key = none ∧ next.db = race.db ∧ Aimed hash key next) := by
  unfold Race.Step Race.next at taken
  cases step with
  | begin_txn t =>
    dsimp only at taken
    split at taken
    next same =>
      cases taken
      refine .inl ⟨_, rfl, step_of_perform ?_, ⟨trivial, fun _ ends => (nomatch ends)⟩, fun _ _ found => found⟩
      rw [same]
      rfl
    next => cases taken
  | lookup t value =>
    dsimp only at taken
    split at taken
    next =>
      cases taken
      refine .inr ⟨rfl, rfl, fun u row value' found => ?_⟩
      rcases pending_set found with ⟨_, looked⟩ | before
      · exact congrArg (fun lookup => lookup.elim none Prod.fst) looked
      · exact aimed u row value' before
    next => cases taken
  | insert t value rc =>
    obtain ⟨short, short', absent⟩ := rechecked
    dsimp only at taken
    split at taken
    next txn item value' opened looked =>
      split at taken
      next rc' store txn' wrote =>
        split at taken
        next same =>
          obtain ⟨rfl, rfl⟩ := same
          cases taken
          have still : race.db.store.indexRead (hash key) = item := by
            cases item with
            | none => exact absent (by simp [looked])
            | some row => exact aimed t row value' looked
          refine .inl ⟨_, rfl, put_of_insert opened still wrote,
            ⟨⟨short, short'⟩, fun _ ends => (nomatch ends)⟩, fun u lookup found => ?_⟩
          rcases pending_set found with ⟨_, gone⟩ | before
          · cases gone
          · exact before
        next => cases taken
      next => cases taken
    next => cases taken
  | commit t rc endTs =>
    dsimp only at taken
    split at taken
    next txn opened idle =>
      split at taken
      next rc' rows timestamp txn' finished =>
        split at taken
        next same =>
          obtain ⟨rfl, _⟩ := same
          cases taken
          refine .inl ⟨_, rfl, step_of_perform ?_, ⟨trivial, fun other ends => ?_⟩, fun _ _ found => found⟩
          · simp [Db.perform, Db.commit, Db.finish, opened, finished]
          · exact rechecked other (Option.filter_eq_some_iff.mp ends).1
        next => cases taken
      next => cases taken
    next => cases taken

theorem race_kept (sound : Sound race.db) (aimed : Aimed hash key race)
    (rechecked : Rechecked hash key steps race step) (taken : Race.Step hash key race step next) :
    Sound next.db ∧ Aimed hash key next ∧ race.db.store.timestamp ≤ next.db.store.timestamp := by
  rcases race_step aimed rechecked taken with ⟨event, _, performed, _, kept⟩ | ⟨_, same, aimed'⟩
  · have did := did_of_step sound performed
    have extends_ := (Extends.of_did sound did).1
    exact ⟨sound_did sound did, fun t row value found => extends_.kept _ _ (aimed t row value (kept t _ found)),
      extends_.later⟩
  · exact ⟨same ▸ sound, aimed', by rw [same]⟩

/-- A run of steps is a run of whole calls. -/
theorem race_run {init : Db} (sound : Sound init)
    (run : Run (Race.Step hash key) (Rechecked hash key) (Race.start init) steps race) :
    Run (Kv.Step hash) SparesCommitted init (calls key steps) race.db ∧ Sound race.db ∧
      Aimed hash key race := by
  refine run.invariant (fun steps race => Run (Kv.Step hash) SparesCommitted init (calls key steps) race.db ∧
    Sound race.db ∧ Aimed hash key race) ⟨.nil, sound, fun _ _ _ found => by cases found⟩ ?_
  rintro steps race step next ⟨whole, sound, aimed⟩ rechecked taken
  obtain ⟨sound', aimed', _⟩ := race_kept sound aimed rechecked taken
  refine ⟨?_, sound', aimed'⟩
  rw [calls_snoc]
  rcases race_step aimed rechecked taken with ⟨event, called, performed, spares, _⟩ | ⟨called, same, _⟩
  · rw [called]
    exact .snoc whole spares performed
  · rw [called, same]
    simpa using whole

theorem race_ended {done : Nat × Nat} (ended : step.ended = some done)
    (taken : Race.Step hash key race step next) :
    done.2 = race.db.store.timestamp ∧ next.db.store.timestamp = race.db.store.timestamp + 1 := by
  cases step with
  | commit t rc endTs =>
    simp only [RaceStep.ended] at ended
    split at ended
    next passed =>
      cases ended
      unfold Race.Step Race.next at taken
      dsimp only at taken
      split at taken
      next txn opened idle =>
        split at taken
        next rc' rows timestamp txn' finished =>
          split at taken
          next same =>
            obtain ⟨rfl, rfl⟩ := same
            cases taken
            exact finish_endTs finished (fun aborted => by rw [aborted] at passed; cases passed)
          next => cases taken
        next => cases taken
      next => cases taken
    next => cases ended
  | _ => cases ended

/-- End timestamps are drawn in the order of the commits. -/
theorem ends_run {init : Db} (sound : Sound init)
    (run : Run (Race.Step hash key) (Rechecked hash key) (Race.start init) steps race) :
    (ends steps).Pairwise (fun first second => first.2 < second.2) ∧
      ∀ done ∈ ends steps, done.2 < race.db.store.timestamp := by
  have whole := run.invariant (fun steps race => (Sound race.db ∧ Aimed hash key race) ∧
    (ends steps).Pairwise (fun first second => first.2 < second.2) ∧
      ∀ done ∈ ends steps, done.2 < race.db.store.timestamp) ?_ ?_
  · exact whole.2
  · exact ⟨⟨sound, fun _ _ _ found => by cases found⟩, .nil, fun _ member => (nomatch member)⟩
  rintro steps race step next ⟨⟨sound, aimed⟩, sorted, past⟩ rechecked taken
  obtain ⟨sound', aimed', grows⟩ := race_kept sound aimed rechecked taken
  refine ⟨⟨sound', aimed'⟩, ?_⟩
  rw [ends_snoc]
  cases ended : step.ended with
  | none =>
    rw [Option.toList_none, List.append_nil]
    exact ⟨sorted, fun done member => (past done member).trans_le grows⟩
  | some done =>
    obtain ⟨drawn, later⟩ := race_ended ended taken
    rw [Option.toList_some]
    refine ⟨List.pairwise_append.mpr ⟨sorted, List.pairwise_singleton _ _, ?_⟩, ?_⟩
    · intro first member second last
      rw [List.mem_singleton.mp last, drawn]
      exact past first member
    · intro other member
      rcases List.mem_append.mp member with before | last
      · exact (past other before).trans_le grows
      · rw [List.mem_singleton.mp last, drawn, later]
        exact Nat.lt_succ_self _

/-- Only a put of a key without a row adds one. -/
theorem entries_did {db next : Db} {event : Event} {p : Nat} (did : Did hash db event next)
    (single : (db.store.entries p).length ≤ 1) : (next.store.entries p).length ≤ 1 := by
  cases did with
  | @inserted _ key _ _ _ absent =>
    change ((db.store.load (hash key) _).entries p).length ≤ 1
    rw [load_entries]
    split
    next =>
      rw [Store.indexRead_eq, List.head?_eq_none_iff] at absent
      simp [absent]
    next => exact single
  | _ => exact single

/-- After its commit a transaction puts nothing. -/
theorem lastPut_ended {front later : List Event} {middle db : Db} {t : Nat} (sound : Sound middle)
    (ended : middle.txns t = none ∧ t < middle.nextId)
    (run : Run (Kv.Step hash) (fun rest => SparesCommitted (front ++ rest)) middle later db) (key : Bytes) :
    lastPut (front ++ later) t key = lastPut front t key := by
  have whole := run.invariant (fun later db => Sound db ∧ (db.txns t = none ∧ t < db.nextId) ∧
    lastPut (front ++ later) t key = lastPut front t key) ⟨sound, ended, by rw [List.append_nil]⟩ ?_
  · exact whole.2.2
  rintro later db event next ⟨sound, ended, same⟩ _ taken
  have did := did_of_step sound taken
  refine ⟨sound_did sound did, ended_did ended did, ?_⟩
  rw [← List.append_assoc, lastPut_silent _ ((silent_of_closed ended.1 did front).1 key), same]

theorem put_of_mem {trace : List Event} {t : Nat} {value : Bytes}
    (member : ⟨.put t key value, .code .OK⟩ ∈ trace) : lastPut trace t key ≠ none := by
  have puts : value ∈ trace.filterMap (Event.puts t key) :=
    List.mem_filterMap.mpr ⟨_, member, by simp [Event.puts]⟩
  intro missing
  rw [List.getLast?_eq_none_iff.mp missing] at puts
  cases puts

theorem commit_of_call {t : Nat} (member : ⟨.commit t, .code .OK⟩ ∈ calls key steps) :
    ∃ endTs, (t, endTs) ∈ ends steps := by
  obtain ⟨step, found, called⟩ := List.mem_filterMap.mp member
  cases step with
  | commit u rc endTs =>
    simp only [RaceStep.event, Option.some.injEq, Event.mk.injEq, Call.commit.injEq, Answer.code.injEq] at called
    obtain ⟨rfl, passed⟩ := called
    exact ⟨endTs, List.mem_filterMap.mpr ⟨_, found, if_pos passed⟩⟩
  | _ => simp [RaceStep.event] at called

theorem step_of_ended {t endTs : Nat} (member : (t, endTs) ∈ ends steps) :
    ∃ rc, Rc.ofFinish rc = .OK ∧ .commit t rc endTs ∈ steps := by
  obtain ⟨step, found, ended⟩ := List.mem_filterMap.mp member
  cases step with
  | commit u rc endTs =>
    simp only [RaceStep.ended] at ended
    split at ended
    next passed => cases ended; exact ⟨rc, passed, found⟩
    next => cases ended
  | _ => cases ended

end Steps

/-- No update is lost in any run in which every insert finds the index as its lookup did and
nobody commits after another committed a row it inserted. -/
theorem no_lost_update {hash : Bytes → Nat} {file : List (Bytes × Bytes)} {key : Bytes}
    {steps : List RaceStep} {race : Race}
    (absent : (initial hash file).store.indexRead (hash key) = none)
    (run : Run (Race.Step hash key) (Rechecked hash key) (Race.start (initial hash file)) steps race) :
    NoLostUpdate hash key steps race := by
  intro _
  obtain ⟨whole, _, _⟩ := race_run (initial_sound hash file) run
  obtain ⟨sorted, _⟩ := ends_run (initial_sound hash file) run
  refine ⟨?_, fun t endTs value ended last largest => ?_⟩
  · refine (whole.invariant (fun _ db => Sound db ∧ (db.store.entries (hash key)).length ≤ 1) ?_ ?_).2
    · rw [Store.indexRead_eq, List.head?_eq_none_iff] at absent
      exact ⟨initial_sound hash file, by simp [absent]⟩
    · rintro trace db event next ⟨sound, single⟩ _ taken
      have did := did_of_step sound taken
      exact ⟨sound_did sound did, entries_did did single⟩
  · obtain ⟨rc, passed, member⟩ := step_of_ended ended
    obtain ⟨before, after, rfl⟩ := List.append_of_mem member
    have parts : calls key (before ++ .commit t rc endTs :: after) =
        (calls key before ++ [⟨.commit t, .code .OK⟩]) ++ calls key after := by
      simp [calls, RaceStep.event, passed]
    have order : ends (before ++ .commit t rc endTs :: after) =
        ends before ++ (t, endTs) :: ends after := by simp [ends, RaceStep.ended, passed]
    obtain ⟨middle, first, rest⟩ := whole.split _ _ parts
    obtain ⟨sound, _⟩ := recorded_run (fun _ _ _ spares => spares.1) first
    obtain ⟨_, front, _, taken⟩ := first.last
    obtain ⟨sound', _⟩ := recorded_run (fun _ _ _ spares => spares.1) front
    have closed : middle.txns t = none ∧ t < middle.nextId := by
      cases did_of_step sound' taken with
      | committed opened => exact ⟨Function.update_self _ _ _, (sound'.opened _ _ opened).1⟩
    have before_ : lastPut (calls key before) t key = some value := by
      rw [← last, parts, lastPut_ended sound closed rest, lastPut_silent _ rfl]
    refine commits_durable whole (calls key before) t (calls key after) key value (by simp [parts]) before_ ?_
    intro u other _ put commit
    obtain ⟨endTs', later⟩ := commit_of_call commit
    rw [order] at sorted largest
    have below := largest u endTs' (by simp [later]) (put_of_mem put)
    have above := (List.pairwise_cons.mp (List.pairwise_append.mp sorted).2.1).1 (u, endTs') later
    exact absurd above (Nat.not_lt.mpr below)

/-- The second transaction finds the row too new, the third updates it. -/
theorem no_lost_update_found :
    ∃ steps race, NoLostUpdate numeral (bytes "k") steps race ∧
      race.db.readable numeral (bytes "k") = some (bytes "z") := by
  have absent : (initial numeral []).store.indexRead (numeral (bytes "k")) = none := by decide +kernel
  have played : (playUnder (Race.next numeral (bytes "k")) (Rechecked numeral (bytes "k")) []
      (Race.start (initial numeral []))
      [.begin_txn 1, .begin_txn 2, .lookup 1 (bytes "x"), .insert 1 (bytes "x") .RCOK,
        .lookup 2 (bytes "y"), .commit 1 .RCOK 3, .begin_txn 3, .insert 2 (bytes "y") .Abort,
        .lookup 3 (bytes "z"), .commit 2 .RCOK 5, .insert 3 (bytes "z") .RCOK, .commit 3 .RCOK 6]).map
      (fun race => race.db.readable numeral (bytes "k")) = some (some (bytes "z")) := by decide +kernel
  obtain ⟨race, ran, read⟩ := Option.map_eq_some_iff.mp played
  exact ⟨_, race, no_lost_update absent (run_of_playUnder ran), read⟩

/-- Both transactions look the key up before either inserts it. -/
def raced : List RaceStep :=
  [.begin_txn 1, .begin_txn 2, .lookup 1 (bytes "x"), .lookup 2 (bytes "y"), .insert 1 (bytes "x") .RCOK,
    .insert 2 (bytes "y") .RCOK, .commit 2 .RCOK 3, .commit 1 .RCOK 4]

/-- The key has two rows, and the last commit is lost. -/
theorem update_lost_to_insert :
    ∃ race, Run (Race.Step numeral (bytes "k")) Always (Race.start (initial numeral [])) raced race ∧
      (race.db.store.entries (numeral (bytes "k"))).length = 2 ∧
      race.db.readable numeral (bytes "k") = some (bytes "y") ∧
      ¬ NoLostUpdate numeral (bytes "k") raced race := by
  have played : (play (Race.next numeral (bytes "k")) (Race.start (initial numeral [])) raced).map
      (fun race => ((race.db.store.entries (numeral (bytes "k"))).length,
        race.db.readable numeral (bytes "k"),
        decide (∀ t < race.db.nextId, (race.db.txns t).isNone))) =
      some (2, some (bytes "y"), true) := by decide +kernel
  obtain ⟨race, ran, checked⟩ := Option.map_eq_some_iff.mp played
  simp only [Prod.mk.injEq, decide_eq_true_eq, Option.isNone_iff_eq_none] at checked
  obtain ⟨rows, read, closed⟩ := checked
  refine ⟨race, run_of_play ran, rows, read, fun kept => ?_⟩
  have single := (kept closed).1
  omega

end DataAgentDB.Kv
