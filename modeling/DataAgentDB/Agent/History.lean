import DataAgentDB.Agent.Isolation

/-! The agent's store as the history of its commits, over every run, whether or not its
transactions are isolated. -/

namespace DataAgentDB.Agent
open LabelledRun CommitReplay

variable {κ ν : Type}

/-- The transaction a call names. -/
def Call.names : Call κ ν → Option Nat
  | .start => none
  | .get t _ | .put t _ _ | .commit t | .rollback t => some t

/-- Started, and neither committed nor rolled back since. -/
def Live (trace : List (Event κ ν)) (t : Nat) : Prop :=
  ∃ before after, trace = before ++ ⟨.start, .started t⟩ :: after ∧
    ∀ event ∈ after, event.call ≠ .commit t ∧ event.call ≠ .rollback t

variable [DecidableEq κ]

/-- What holds of the database after the calls of a trace. -/
structure Kept (trace : List (Event κ ν)) (db : MiniDBClient κ ν) : Prop where
  store : ∀ key, db.store.lookup key = replay (installs trace) (fun _ => none) (committed trace) key
  buffered : ∀ call, (∀ t, call ≠ .commit t) → (db.perform call).2.store = db.store
  ownRead : ∀ t key value, Live trace t → (view trace t).own key = some value →
    db.get t key = .value (some value)
  accepted : ∀ t call, call.names = some t → ((db.perform call).1 ≠ .raised ↔ Live trace t)
  unchanged : ∀ call, (db.perform call).1 = .raised → (db.perform call).2 = db

/-- The run so far, against the transactions that are open and the store. -/
structure Recorded (trace : List (Event κ ν)) (db : MiniDBClient κ ν) : Prop where
  opened : ∀ t tx, db.txMap t = some tx → tx.active = true ∧ Live trace t ∧
    ∀ key, (view trace t).own key = tx.writes.lookup key
  closed : ∀ t, db.txMap t = none → ¬ Live trace t
  unborn : ∀ t, db.nextId ≤ t → db.txMap t = none ∧ (view trace t).own = fun _ => none
  ended : ∀ t ∈ committed trace, db.txMap t = none ∧ t < db.nextId
  store : ∀ key, db.store.lookup key = replay (installs trace) (fun _ => none) (committed trace) key

section Traces
variable {trace : List (Event κ ν)} {event : Event κ ν} {t : Nat}

omit [DecidableEq κ] in
theorem live_snoc : Live (trace ++ [event]) t ↔ event = ⟨.start, .started t⟩ ∨
    (Live trace t ∧ event.call ≠ .commit t ∧ event.call ≠ .rollback t) := by
  constructor
  · rintro ⟨before, after, split, untouched⟩
    rcases List.eq_nil_or_concat after with rfl | ⟨front, last, rfl⟩
    · obtain ⟨-, same⟩ := List.append_inj' split rfl
      exact .inl (List.singleton_inj.mp same)
    · rw [List.concat_eq_append] at split untouched
      obtain ⟨shorter, same⟩ := List.append_inj' (split.trans (List.append_assoc before (_ :: front) [last]).symm) rfl
      cases List.singleton_inj.mp same
      refine .inr ⟨⟨before, front, shorter, ?_⟩, untouched event (List.mem_append_right _ List.mem_cons_self)⟩
      exact fun other member => untouched other (List.mem_append_left _ member)
  · rintro (rfl | ⟨⟨before, after, rfl, untouched⟩, still⟩)
    · exact ⟨trace, [], rfl, fun _ member => (nomatch member)⟩
    · refine ⟨before, after ++ [event], List.append_assoc before (_ :: after) [event], ?_⟩
      intro other member
      rcases List.mem_append.mp member with earlier | last
      · exact untouched other earlier
      · rw [List.mem_singleton.mp last]
        exact still

/-- Only an answered put changes what a transaction has put. -/
theorem own_see (seen : View κ ν) (quiet : ∀ key value, event ≠ ⟨.put t key value, .done⟩) :
    (seen.see t event).own = seen.own := by
  obtain ⟨call, answer⟩ := event
  cases call with
  | put u key value =>
    cases answer with
    | done =>
      by_cases same : u = t
      · subst same
        exact absurd rfl (quiet key value)
      · simp only [View.see, if_neg same]
    | _ => rfl
  | get u key =>
    cases answer with
    | value answer =>
      simp only [View.see]
      split <;> rfl
    | _ => rfl
  | _ => cases answer <;> rfl

theorem own_snoc (quiet : ∀ key value, event ≠ ⟨.put t key value, .done⟩) :
    (view (trace ++ [event]) t).own = (view trace t).own := by
  rw [view_snoc]
  exact own_see _ quiet

end Traces

section Steps
variable {trace : List (Event κ ν)} {db : MiniDBClient κ ν} {event : Event κ ν} {t : Nat}

theorem Recorded.below (recorded : Recorded trace db) {tx : TxContext κ ν}
    (opened : db.txMap t = some tx) : t < db.nextId := by
  by_contra high
  rw [(recorded.unborn t (Nat.le_of_not_lt high)).1] at opened
  cases opened

theorem Recorded.requireTx (recorded : Recorded trace db) (t : Nat) : db.requireTx t = db.txMap t := by
  unfold MiniDBClient.requireTx
  cases found : db.txMap t with
  | none => rfl
  | some tx => simp only [(recorded.opened t tx found).1, if_true]

theorem Recorded.live_iff (recorded : Recorded trace db) (t : Nat) :
    (db.requireTx t).isSome = true ↔ Live trace t := by
  rw [recorded.requireTx]
  cases found : db.txMap t with
  | none => exact ⟨fun absent => (nomatch absent), fun live => absurd live (recorded.closed t found)⟩
  | some tx => exact ⟨fun _ => (recorded.opened t tx found).2.1, fun _ => rfl⟩

/-- A call raises exactly when the transaction it names is not accepted. -/
theorem perform_raised_iff (db : MiniDBClient κ ν) (call : Call κ ν) (names : call.names = some t) :
    (db.perform call).1 ≠ .raised ↔ (db.requireTx t).isSome = true := by
  cases call with
  | start => cases names
  | get u key =>
    cases names
    simp only [MiniDBClient.perform, MiniDBClient.get]
    cases db.requireTx t with
    | none => simp
    | some tx =>
      dsimp only
      split <;> simp
  | put u key value =>
    cases names
    simp only [MiniDBClient.perform, MiniDBClient.put]
    cases db.requireTx t <;> simp
  | commit u =>
    cases names
    simp only [MiniDBClient.perform, MiniDBClient.commit]
    cases db.requireTx t <;> simp
  | rollback u =>
    cases names
    simp only [MiniDBClient.perform, MiniDBClient.rollback]
    cases db.requireTx t <;> simp

theorem perform_raised (db : MiniDBClient κ ν) (call : Call κ ν) (raised : (db.perform call).1 = .raised) :
    (db.perform call).2 = db := by
  cases call with
  | start => cases raised
  | get u key => rfl
  | put u key value =>
    simp only [MiniDBClient.perform, MiniDBClient.put] at raised ⊢
    cases found : db.requireTx u with
    | none => rfl
    | some tx => simp [found] at raised
  | commit u =>
    simp only [MiniDBClient.perform, MiniDBClient.commit] at raised ⊢
    cases found : db.requireTx u with
    | none => rfl
    | some tx => simp [found] at raised
  | rollback u =>
    simp only [MiniDBClient.perform, MiniDBClient.rollback] at raised ⊢
    cases found : db.requireTx u with
    | none => rfl
    | some tx => simp [found] at raised

theorem perform_store (db : MiniDBClient κ ν) (call : Call κ ν) (uncommitted : ∀ t, call ≠ .commit t) :
    (db.perform call).2.store = db.store := by
  cases call with
  | commit u => exact absurd rfl (uncommitted u)
  | start => rfl
  | get u key => rfl
  | put u key value =>
    simp only [MiniDBClient.perform, MiniDBClient.put]
    cases db.requireTx u <;> rfl
  | rollback u =>
    simp only [MiniDBClient.perform, MiniDBClient.rollback]
    cases db.requireTx u <;> rfl

theorem Recorded.kept (recorded : Recorded trace db) : Kept trace db where
  store := recorded.store
  buffered := perform_store db
  ownRead := by
    intro t key value live own
    have accepted := (recorded.live_iff t).mpr live
    obtain ⟨tx, required⟩ := Option.isSome_iff_exists.mp accepted
    have found : tx.writes.lookup key = some value := by
      rw [recorded.requireTx] at required
      rw [← (recorded.opened t tx required).2.2 key, own]
    simp only [MiniDBClient.get, required, found]
  accepted := by
    intro t call names
    rw [perform_raised_iff db call names]
    exact recorded.live_iff t
  unchanged := perform_raised db

/-- A call that is neither an answered put nor an answered commit leaves the write sets as they were. -/
theorem Recorded.unwritten (recorded : Recorded trace db) {next : MiniDBClient κ ν}
    (quiet : ∀ t key value, event ≠ ⟨.put t key value, .done⟩) (uncommitted : event.commits = none)
    (store : next.store = db.store) (later : db.nextId ≤ next.nextId)
    (unborn : ∀ t, next.nextId ≤ t → next.txMap t = none)
    (opened : ∀ t tx, next.txMap t = some tx → tx.active = true ∧ Live (trace ++ [event]) t ∧
      ∀ key, (view trace t).own key = tx.writes.lookup key)
    (closed : ∀ t, next.txMap t = none → ¬ Live (trace ++ [event]) t)
    (ended : ∀ t ∈ committed trace, next.txMap t = none) : Recorded (trace ++ [event]) next := by
  have own : ∀ t, (view (trace ++ [event]) t).own = (view trace t).own := fun t => own_snoc (quiet t)
  have commits : committed (trace ++ [event]) = committed trace := by
    rw [committed_snoc, uncommitted]
    exact List.append_nil _
  have writes : installs (trace ++ [event]) = installs trace := by
    funext t key
    rw [installs, installs, own]
  constructor
  case opened =>
    intro t tx found
    rw [own]
    exact opened t tx found
  case closed =>
    exact closed
  case unborn =>
    intro t high
    rw [own]
    exact ⟨unborn t high, (recorded.unborn t (Nat.le_trans later high)).2⟩
  case ended =>
    rw [commits]
    exact fun t member => ⟨ended t member, Nat.lt_of_lt_of_le (recorded.ended t member).2 later⟩
  case store =>
    rw [commits, writes, store]
    exact recorded.store

theorem Recorded.started (recorded : Recorded trace db) :
    Recorded (trace ++ [⟨.start, .started db.nextId⟩]) db.start.2 := by
  have here : db.start.2.txMap db.nextId = some ⟨db.nextId, db.store, ∅, true⟩ := setTx_here db _ _
  have others : ∀ t, t ≠ db.nextId → db.start.2.txMap t = db.txMap t := fun t apart => setTx_other apart _
  refine recorded.unwritten (fun _ _ _ same => by cases same) rfl rfl (Nat.le_succ _) ?_ ?_ ?_ ?_
  · intro t high
    rw [others t (Nat.ne_of_gt high)]
    exact (recorded.unborn t (Nat.le_of_succ_le high)).1
  · intro t tx found
    by_cases new : t = db.nextId
    · subst new
      rw [here] at found
      cases found
      refine ⟨rfl, live_snoc.mpr (.inl rfl), fun key => ?_⟩
      rw [(recorded.unborn _ (Nat.le_refl _)).2]
      rfl
    · rw [others t new] at found
      obtain ⟨active, live, own⟩ := recorded.opened t tx found
      exact ⟨active, live_snoc.mpr (.inr ⟨live, nofun, nofun⟩), own⟩
  · intro t missing live
    by_cases new : t = db.nextId
    · subst new
      rw [here] at missing
      cases missing
    · rw [others t new] at missing
      rcases live_snoc.mp live with first | ⟨earlier, -⟩
      · cases first
        exact new rfl
      · exact recorded.closed t missing earlier
  · intro t member
    obtain ⟨gone, low⟩ := recorded.ended t member
    rw [others t (Nat.ne_of_lt low)]
    exact gone

/-- A call that changes nothing: a get, or one that raises. -/
theorem Recorded.stayed (recorded : Recorded trace db) {call : Call κ ν} {answer : Answer ν}
    (quiet : ∀ t key value, (⟨call, answer⟩ : Event κ ν) ≠ ⟨.put t key value, .done⟩)
    (uncommitted : Event.commits (⟨call, answer⟩ : Event κ ν) = none)
    (fresh : ∀ t, (⟨call, answer⟩ : Event κ ν) ≠ ⟨.start, .started t⟩)
    (spared : ∀ t tx, db.txMap t = some tx → call ≠ .commit t ∧ call ≠ .rollback t) :
    Recorded (trace ++ [⟨call, answer⟩]) db := by
  refine recorded.unwritten quiet uncommitted rfl (Nat.le_refl _) (fun t high => (recorded.unborn t high).1)
    ?_ ?_ (fun t member => (recorded.ended t member).1)
  · intro t tx found
    obtain ⟨active, live, own⟩ := recorded.opened t tx found
    exact ⟨active, live_snoc.mpr (.inr ⟨live, spared t tx found⟩), own⟩
  · intro t missing live
    rcases live_snoc.mp live with first | ⟨earlier, -⟩
    · exact fresh t first
    · exact recorded.closed t missing earlier

theorem Recorded.raised (recorded : Recorded trace db) {call : Call κ ν} (names : call.names = some t)
    (missing : db.txMap t = none) : Recorded (trace ++ [⟨call, .raised⟩]) db := by
  refine recorded.stayed (fun _ _ _ same => by cases same) (by cases call <;> rfl)
    (fun _ same => by cases same) ?_
  intro u tx found
  have apart : t ≠ u := by
    rintro rfl
    rw [missing] at found
    cases found
  constructor <;> (rintro rfl; exact apart (Option.some_inj.mp names).symm)

/-- A call that closes its transaction. -/
theorem Recorded.closes (recorded : Recorded trace db) {tx : TxContext κ ν} (opened : db.txMap t = some tx)
    {store : Dict κ ν} (call : event.call = .commit t ∨ event.call = .rollback t)
    (commits : ∀ u ∈ committed (trace ++ [event]), u = t ∨ u ∈ committed trace)
    (stored : ∀ key, store.lookup key =
      replay (installs trace) (fun _ => none) (committed (trace ++ [event])) key) :
    Recorded (trace ++ [event]) ({ db with store := store }.setTx t none) := by
  have own : ∀ u, (view (trace ++ [event]) u).own = (view trace u).own := by
    intro u
    refine own_snoc (fun key value same => ?_)
    rw [same] at call
    rcases call with commit | rollback
    · cases commit
    · cases rollback
  have writes : installs (trace ++ [event]) = installs trace := by
    funext u key
    rw [installs, installs, own]
  have unstarted : ∀ u, event ≠ ⟨.start, .started u⟩ := by
    rintro u rfl
    rcases call with commit | rollback
    · cases commit
    · cases rollback
  constructor
  case opened =>
    intro u tx' found
    obtain ⟨apart, found'⟩ := opened_before found
    obtain ⟨active, live, same⟩ := recorded.opened u tx' found'
    rw [own]
    refine ⟨active, live_snoc.mpr (.inr ⟨live, ?_⟩), same⟩
    constructor
    · intro same
      rw [same] at call
      rcases call with commit | rollback
      · exact apart (Call.commit.inj commit)
      · cases rollback
    · intro same
      rw [same] at call
      rcases call with commit | rollback
      · cases commit
      · exact apart (Call.rollback.inj rollback)
  case closed =>
    intro u missing live
    rcases live_snoc.mp live with first | ⟨earlier, uncommitted, standing⟩
    · exact unstarted u first
    · have apart : u ≠ t := by
        rintro rfl
        exact call.elim uncommitted standing
      rw [setTx_other apart] at missing
      exact recorded.closed u missing earlier
  case unborn =>
    intro u high
    rw [own]
    obtain ⟨missing, unput⟩ := recorded.unborn u high
    exact ⟨setTx_none missing t, unput⟩
  case ended =>
    intro u member
    rcases commits u member with rfl | earlier
    · exact ⟨setTx_here _ _ none, recorded.below opened⟩
    · obtain ⟨ended, low⟩ := recorded.ended u earlier
      exact ⟨setTx_none ended t, low⟩
  case store =>
    rw [writes]
    exact stored

theorem Recorded.committed (recorded : Recorded trace db) {tx : TxContext κ ν}
    (opened : db.txMap t = some tx) {store : Dict κ ν}
    (installed : ∀ key, store.lookup key = (tx.writes.lookup key).or (db.store.lookup key)) :
    Recorded (trace ++ [⟨.commit t, .done⟩]) ({ db with store := store }.setTx t none) := by
  have commits : Agent.committed (trace ++ [⟨.commit t, .done⟩]) = Agent.committed trace ++ [t] := committed_snoc
  refine recorded.closes opened (.inl rfl) ?_ ?_
  · intro u member
    rw [commits] at member
    exact (List.mem_append.mp member).symm.imp_left List.mem_singleton.mp
  · intro key
    rw [commits, replay_snoc]
    have own := (recorded.opened t tx opened).2.2 key
    refine (installed key).trans ?_
    rw [install, installs, own, recorded.store key]
    cases tx.writes.lookup key <;> rfl

theorem Recorded.rolledBack (recorded : Recorded trace db) {tx : TxContext κ ν}
    (opened : db.txMap t = some tx) : Recorded (trace ++ [⟨.rollback t, .done⟩]) (db.setTx t none) := by
  have commits : Agent.committed (trace ++ [⟨.rollback t, .done⟩]) = Agent.committed trace :=
    committed_snoc.trans (List.append_nil _)
  refine recorded.closes opened (.inr rfl) ?_ ?_
  · intro u member
    rw [commits] at member
    exact .inr member
  · intro key
    rw [commits]
    exact recorded.store key

theorem Recorded.wrote (recorded : Recorded trace db) {key : κ} {value : ν} {tx : TxContext κ ν}
    (opened : db.txMap t = some tx) : Recorded (trace ++ [⟨.put t key value, .done⟩])
      (db.setTx t (some { tx with writes := tx.writes.insert key value })) := by
  obtain ⟨active, live, own⟩ := recorded.opened t tx opened
  have still : ∀ u, Live (trace ++ [⟨.put t key value, .done⟩]) u ↔ Live trace u := by
    intro u
    refine live_snoc.trans ⟨?_, fun earlier => .inr ⟨earlier, nofun, nofun⟩⟩
    rintro (first | ⟨earlier, -⟩)
    · cases first
    · exact earlier
  have mine : (view (trace ++ [⟨.put t key value, .done⟩]) t).own =
      Function.update (view trace t).own key (some value) := by
    rw [view_snoc]
    simp only [View.see, if_true]
  have others : ∀ u, u ≠ t → (view (trace ++ [⟨.put t key value, .done⟩]) u).own = (view trace u).own := by
    intro u apart
    refine own_snoc (fun key' value' same => ?_)
    cases same
    exact apart rfl
  have commits : Agent.committed (trace ++ [⟨.put t key value, .done⟩]) = Agent.committed trace :=
    committed_snoc.trans (List.append_nil _)
  have apart : ∀ u ∈ Agent.committed trace, u ≠ t := by
    rintro u member rfl
    rw [(recorded.ended u member).1] at opened
    cases opened
  constructor
  case opened =>
    intro u tx' found
    by_cases same : u = t
    · subst same
      rw [setTx_here] at found
      cases found
      refine ⟨active, (still u).mpr live, fun other => ?_⟩
      rw [mine]
      by_cases hit : other = key
      · subst hit
        rw [AList.lookup_insert]
        exact Function.update_self _ _ _
      · rw [AList.lookup_insert_ne hit]
        exact (Function.update_of_ne hit _ _).trans (own other)
    · rw [setTx_other same] at found
      rw [others u same, still]
      exact recorded.opened u tx' found
  case closed =>
    intro u missing
    rw [still]
    by_cases same : u = t
    · subst same
      rw [setTx_here] at missing
      cases missing
    · rw [setTx_other same] at missing
      exact recorded.closed u missing
  case unborn =>
    intro u high
    have other : u ≠ t := by
      rintro rfl
      exact absurd (recorded.below opened) (Nat.not_lt.mpr high)
    rw [setTx_other other, others u other]
    exact recorded.unborn u high
  case ended =>
    intro u member
    rw [commits] at member
    rw [setTx_other (apart u member)]
    exact recorded.ended u member
  case store =>
    intro key'
    rw [commits, replay_congr (installs trace) _ _ (fun u member => by
      funext location
      rw [installs, installs, others u (apart u member)])]
    exact recorded.store key'

theorem Recorded.step [DecidableEq ν] (recorded : Recorded trace db) {next : MiniDBClient κ ν}
    (taken : Step db event next) : Recorded (trace ++ [event]) next := by
  obtain ⟨call, answer⟩ := event
  have missed : ∀ u, call.names = some u → answer = .raised → db.txMap u = none := by
    rintro u names rfl
    have given : (db.perform call).1 = .raised := by
      by_contra other
      unfold Step MiniDBClient.next at taken
      rw [if_neg other] at taken
      cases taken
    by_contra present
    refine (perform_raised_iff db call names).mpr ?_ given
    rw [recorded.requireTx]
    exact Option.isSome_iff_ne_none.mpr present
  cases did_of_step taken with
  | start => exact recorded.started
  | raised =>
    cases named : call.names with
    | none =>
      cases call with
      | start => cases taken
      | _ => cases named
    | some u => exact recorded.raised named (missed u named rfl)
  | get opened =>
    exact recorded.stayed (fun _ _ _ same => by cases same) rfl (fun _ same => by cases same)
      (fun _ _ _ => ⟨nofun, nofun⟩)
  | put opened => exact recorded.wrote opened
  | commit opened installed => exact recorded.committed opened installed
  | rollback opened => exact recorded.rolledBack opened

theorem recorded_init : Recorded [] (MiniDBClient.init : MiniDBClient κ ν) where
  opened := fun _ _ found => (nomatch found)
  closed := by
    rintro t - ⟨before, after, split, -⟩
    exact absurd split (by simp)
  unborn := fun _ _ => ⟨rfl, rfl⟩
  ended := fun _ member => (nomatch member)
  store := fun _ => rfl

end Steps

/-- Whatever the calls and their order, the store is the history of the commits. -/
theorem store_is_history [DecidableEq ν] {trace : List (Event κ ν)} {db : MiniDBClient κ ν}
    (run : Run Step Always MiniDBClient.init trace db) : Kept trace db := by
  have recorded := run.invariant Recorded recorded_init (fun _ _ _ _ held _ taken => held.step taken)
  exact recorded.kept

/-- Two transactions, of which the second commits first and is used again. -/
def twoTransactions : List (Event Nat Nat) :=
  [⟨.start, .started 0⟩, ⟨.start, .started 1⟩, ⟨.put 0 7 1, .done⟩, ⟨.put 1 7 2, .done⟩, ⟨.get 0 7, .value (some 1)⟩,
    ⟨.commit 1, .done⟩, ⟨.put 1 7 3, .raised⟩, ⟨.commit 0, .done⟩, ⟨.rollback 0, .raised⟩]

theorem store_is_history_two : ∃ db, Kept twoTransactions db := by
  obtain ⟨db, played⟩ := Option.isSome_iff_exists.mp
    (show (play MiniDBClient.next MiniDBClient.init twoTransactions).isSome = true by decide)
  exact ⟨db, store_is_history (run_of_play played)⟩

end DataAgentDB.Agent
