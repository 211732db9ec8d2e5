import DataAgentDB.Agent.DbClient
import DataAgentDB.Lib.CommitReplay
import Mathlib.Data.List.Permutation

/-! Isolation of the agent's transactions. `get` reads the live store and `commit` checks nothing:
transactions are isolated as long as no commit changes what another one has read. -/

namespace DataAgentDB.Agent
open LabelledRun CommitReplay

variable {κ ν : Type} [DecidableEq κ]

/-- A get, with what its transaction had put for the key by then. -/
structure Got (κ ν : Type) where
  key : κ
  own : Option ν
  answer : Option ν
  deriving DecidableEq, Repr

/-- What a transaction has put and got so far. -/
structure View (κ ν : Type) where
  own : κ → Option ν
  gots : List (Got κ ν)

def View.see (t : Nat) (view : View κ ν) (event : Event κ ν) : View κ ν :=
  match event.call, event.answer with
  | .get u key, .value answer =>
      if u = t then { view with gots := view.gots ++ [⟨key, view.own key, answer⟩] } else view
  | .put u key value, .done =>
      if u = t then { view with own := Function.update view.own key (some value) } else view
  | _, _ => view

def view (trace : List (Event κ ν)) (t : Nat) : View κ ν :=
  trace.foldl (View.see t) { own := fun _ => none, gots := [] }

def Event.commits (event : Event κ ν) : Option Nat :=
  match event.call, event.answer with
  | .commit t, .done => some t
  | _, _ => none

/-- The committed transactions, in the order of their commits. -/
def committed (trace : List (Event κ ν)) : List Nat := trace.filterMap Event.commits

def installs (trace : List (Event κ ν)) (t : Nat) (key : κ) : Option (Option ν) :=
  ((view trace t).own key).map some

/-- Every get of the transaction answered with its own last put, or else with what the map has. -/
def Answered (trace : List (Event κ ν)) (t : Nat) (map : κ → Option ν) : Prop :=
  ∀ got ∈ (view trace t).gots, got.answer = got.own.or (map got.key)

instance [DecidableEq ν] (trace : List (Event κ ν)) (t : Nat) (map : κ → Option ν) :
    Decidable (Answered trace t map) :=
  inferInstanceAs (Decidable (∀ got ∈ (view trace t).gots, _))

/-- Some serial order of the committed transactions gives all their answers and the store. -/
def Serializable (trace : List (Event κ ν)) (db : MiniDBClient κ ν) : Prop :=
  ∃ order, order.Perm (committed trace) ∧
    Serial (installs trace) (Answered trace) (fun _ => none) order ∧
    ∀ key, db.store.lookup key = replay (installs trace) (fun _ => none) order key

/-- A key that a transaction has not put reads the same each time. -/
def Repeatable (trace : List (Event κ ν)) : Prop :=
  ∀ t, ∀ got ∈ (view trace t).gots, ∀ again ∈ (view trace t).gots,
    got.key = again.key → got.own = none → again.own = none → got.answer = again.answer

def Isolated (trace : List (Event κ ν)) (db : MiniDBClient κ ν) : Prop :=
  Serializable trace db ∧ Repeatable trace

/-- A write set changes nothing that these gets read from the store. -/
def Spares (tx : TxContext κ ν) (view : View κ ν) : Prop :=
  ∀ got ∈ view.gots, got.own = none → tx.writes.lookup got.key = none ∨ tx.writes.lookup got.key = got.answer

instance [DecidableEq ν] (tx : TxContext κ ν) (view : View κ ν) : Decidable (Spares tx view) :=
  inferInstanceAs (Decidable (∀ got ∈ view.gots, got.own = none → _ ∨ _))

/-- A commit changes no key that another open transaction has read from the store. -/
def Undisturbed (trace : List (Event κ ν)) (db : MiniDBClient κ ν) (event : Event κ ν) : Prop :=
  match event.call with
  | .commit t => ∀ tx ∈ db.txMap t, ∀ u < db.nextId, u ≠ t → (db.txMap u).isSome = true →
      Spares tx (view trace u)
  | _ => True

instance [DecidableEq ν] (trace : List (Event κ ν)) (db : MiniDBClient κ ν) :
    (event : Event κ ν) → Decidable (Undisturbed trace db event)
  | ⟨.commit t, _⟩ => inferInstanceAs (Decidable (∀ tx ∈ db.txMap t, ∀ u < db.nextId, u ≠ t →
      (db.txMap u).isSome = true → Spares tx (view trace u)))
  | ⟨.start, _⟩ | ⟨.get .., _⟩ | ⟨.put .., _⟩ | ⟨.rollback _, _⟩ => .isTrue trivial

/-- The run so far, against the state reached. -/
structure Tracked (trace : List (Event κ ν)) (db : MiniDBClient κ ν) : Prop where
  fresh : ∀ t, db.nextId ≤ t → db.txMap t = none ∧ view trace t = ⟨fun _ => none, []⟩
  active : ∀ t tx, db.txMap t = some tx → tx.active = true
  own : ∀ t tx, db.txMap t = some tx → ∀ key, (view trace t).own key = tx.writes.lookup key
  reads : ∀ t tx, db.txMap t = some tx → ∀ got ∈ (view trace t).gots,
    got.answer = got.own.or (db.store.lookup got.key)
  ended : ∀ t ∈ committed trace, db.txMap t = none ∧ t < db.nextId
  serial : Serial (installs trace) (Answered trace) (fun _ => none) (committed trace)
  store : ∀ key, db.store.lookup key = replay (installs trace) (fun _ => none) (committed trace) key
  repeatable : Repeatable trace

section
variable {trace : List (Event κ ν)} {db next : MiniDBClient κ ν} {event : Event κ ν}

theorem view_snoc (t : Nat) : view (trace ++ [event]) t = (view trace t).see t event := by
  simp only [view, List.foldl_append, List.foldl_cons, List.foldl_nil]

omit [DecidableEq κ] in
theorem committed_snoc : committed (trace ++ [event]) = committed trace ++ event.commits.toList := by
  rw [committed, List.filterMap_append]
  rfl

/-- A call of one transaction is not seen by another. -/
theorem view_other {t u : Nat} (apart : u ≠ t)
    (of : (∃ key, event.call = .get t key) ∨ ∃ key value, event.call = .put t key value) :
    view (trace ++ [event]) u = view trace u := by
  have other : ¬ t = u := fun same => apart same.symm
  rw [view_snoc]
  obtain ⟨call, answer⟩ := event
  rcases of with ⟨key, rfl⟩ | ⟨key, value, rfl⟩
  · cases answer <;> simp only [View.see, if_neg other]
  · cases answer <;> simp only [View.see, if_neg other]

/-- What has been committed stays as it was while closed transactions see nothing new. -/
theorem Tracked.committed_kept (tracked : Tracked trace db) (quiet : event.commits = none)
    (same : ∀ t ∈ committed trace, view (trace ++ [event]) t = view trace t) :
    committed (trace ++ [event]) = committed trace ∧
    Serial (installs (trace ++ [event])) (Answered (trace ++ [event])) (fun _ => none) (committed trace) ∧
    ∀ key, db.store.lookup key =
      replay (installs (trace ++ [event])) (fun _ => none) (committed trace) key := by
  have writes : ∀ t ∈ committed trace, installs (trace ++ [event]) t = installs trace t := by
    intro t member
    funext key
    rw [installs, installs, same t member]
  have reads : ∀ t ∈ committed trace, Answered (trace ++ [event]) t = Answered trace t := by
    intro t member
    funext map
    rw [Answered, Answered, same t member]
  refine ⟨by rw [committed_snoc, quiet]; exact List.append_nil _, ?_, ?_⟩
  · exact (serial_congr _ _ _ writes reads).mpr tracked.serial
  · intro key
    rw [replay_congr _ _ _ writes]
    exact tracked.store key

/-- A step that no transaction sees: it opens one, closes one, or raises. -/
theorem Tracked.unseen (tracked : Tracked trace db) (quiet : event.commits = none)
    (blind : ∀ t view', View.see t view' event = (view' : View κ ν)) (store : next.store = db.store)
    (later : db.nextId ≤ next.nextId) (born : ∀ t, next.nextId ≤ t → next.txMap t = none)
    (opened : ∀ t tx, next.txMap t = some tx →
      db.txMap t = some tx ∨ (t = db.nextId ∧ tx.writes = ∅ ∧ tx.active = true))
    (closed : ∀ t ∈ committed trace, next.txMap t = none) : Tracked (trace ++ [event]) next := by
  have same : ∀ t, view (trace ++ [event]) t = view trace t := by
    intro t
    rw [view_snoc, blind]
  obtain ⟨commits, serial, stored⟩ := tracked.committed_kept quiet (fun t _ => same t)
  constructor
  case fresh =>
    intro t high
    rw [same]
    exact ⟨born t high, (tracked.fresh t (Nat.le_trans later high)).2⟩
  case active =>
    intro t tx found
    exact (opened t tx found).elim (tracked.active t tx) (fun new => new.2.2)
  case own =>
    intro t tx found key
    rw [same]
    rcases opened t tx found with old | ⟨rfl, empty, _⟩
    · exact tracked.own t tx old key
    · rw [(tracked.fresh _ (Nat.le_refl _)).2, empty]
      rfl
  case reads =>
    intro t tx found got member
    rw [same] at member
    rw [store]
    rcases opened t tx found with old | ⟨rfl, _⟩
    · exact tracked.reads t tx old got member
    · rw [(tracked.fresh _ (Nat.le_refl _)).2] at member
      cases member
  case ended =>
    intro t member
    rw [commits] at member
    exact ⟨closed t member, Nat.lt_of_lt_of_le (tracked.ended t member).2 later⟩
  case serial =>
    rw [commits]
    exact serial
  case store =>
    rw [commits, store]
    exact stored
  case repeatable =>
    intro t
    rw [same]
    exact tracked.repeatable t

theorem Tracked.below (tracked : Tracked trace db) {t : Nat} {tx : TxContext κ ν}
    (opened : db.txMap t = some tx) : t < db.nextId := by
  by_contra high
  rw [(tracked.fresh t (Nat.le_of_not_lt high)).1] at opened
  cases opened

/-- A get or put of an open transaction, by what it adds to the transaction's view. -/
theorem Tracked.call (tracked : Tracked trace db) {t : Nat} {tx tx' : TxContext κ ν}
    (opened : db.txMap t = some tx) (active : tx'.active = true)
    (of : (∃ key, event.call = .get t key) ∨ ∃ key value, event.call = .put t key value)
    (own : ∀ key, (view (trace ++ [event]) t).own key = tx'.writes.lookup key)
    (reads : ∀ got ∈ (view (trace ++ [event]) t).gots, got.answer = got.own.or (db.store.lookup got.key))
    (quiet : event.commits = none) (store : next.store = db.store) (ids : next.nextId = db.nextId)
    (here : next.txMap t = some tx') (others : ∀ u, u ≠ t → next.txMap u = db.txMap u) :
    Tracked (trace ++ [event]) next := by
  have apart : ∀ u ∈ committed trace, u ≠ t := by
    rintro u member rfl
    rw [(tracked.ended u member).1] at opened
    cases opened
  obtain ⟨commits, serial, stored⟩ :=
    tracked.committed_kept quiet (fun u member => view_other (apart u member) of)
  constructor
  case fresh =>
    intro u high
    have other : u ≠ t := by
      rintro rfl
      have low := tracked.below opened
      omega
    rw [others u other, view_other other of]
    exact tracked.fresh u (ids ▸ high)
  case active =>
    intro u tx'' found
    by_cases same : u = t
    · subst same
      rw [here] at found
      cases found
      exact active
    · exact tracked.active u tx'' (others u same ▸ found)
  case own =>
    intro u tx'' found
    by_cases same : u = t
    · subst same
      rw [here] at found
      cases found
      exact own
    · rw [others u same] at found
      rw [view_other same of]
      exact tracked.own u tx'' found
  case reads =>
    intro u tx'' found got member
    rw [store]
    by_cases same : u = t
    · subst same
      exact reads got member
    · rw [others u same] at found
      rw [view_other same of] at member
      exact tracked.reads u tx'' found got member
  case ended =>
    intro u member
    rw [commits] at member
    rw [others u (apart u member), ids]
    exact tracked.ended u member
  case serial =>
    rw [commits]
    exact serial
  case store =>
    rw [commits, store]
    exact stored
  case repeatable =>
    intro u got member again member' sameKey unput unput'
    by_cases same : u = t
    · subst same
      rw [reads got member, reads again member', unput, unput', sameKey]
    · rw [view_other same of] at member member'
      exact tracked.repeatable u got member again member' sameKey unput unput'

theorem Tracked.get (tracked : Tracked trace db) {t : Nat} {key : κ} {tx : TxContext κ ν}
    (opened : db.txMap t = some tx) :
    Tracked (trace ++ [⟨.get t key, .value ((tx.writes.lookup key).or (db.store.lookup key))⟩]) db := by
  have seen : view (trace ++ [⟨.get t key, .value ((tx.writes.lookup key).or (db.store.lookup key))⟩]) t =
      { view trace t with gots := (view trace t).gots ++
        [⟨key, tx.writes.lookup key, (tx.writes.lookup key).or (db.store.lookup key)⟩] } := by
    rw [view_snoc]
    simp only [View.see, if_true, tracked.own t tx opened]
  refine tracked.call opened (tracked.active t tx opened) (.inl ⟨key, rfl⟩) ?_ ?_ rfl rfl rfl opened
    (fun _ _ => rfl)
  · rw [seen]
    exact tracked.own t tx opened
  · intro got member
    rw [seen] at member
    rcases List.mem_append.mp member with earlier | last
    · exact tracked.reads t tx opened got earlier
    · rw [List.mem_singleton.mp last]

theorem Tracked.put (tracked : Tracked trace db) {t : Nat} {key : κ} {value : ν} {tx : TxContext κ ν}
    (opened : db.txMap t = some tx) :
    Tracked (trace ++ [⟨.put t key value, .done⟩])
      (db.setTx t (some { tx with writes := tx.writes.insert key value })) := by
  have seen : view (trace ++ [⟨.put t key value, .done⟩]) t =
      { view trace t with own := Function.update (view trace t).own key (some value) } := by
    rw [view_snoc]
    simp only [View.see, if_true]
  have active : { tx with writes := tx.writes.insert key value }.active = true := tracked.active t tx opened
  refine tracked.call opened active (.inr ⟨key, value, rfl⟩) ?_ ?_ rfl rfl rfl (Function.update_self _ _ _)
    (fun _ other => Function.update_of_ne other _ _)
  · intro other
    rw [seen]
    by_cases same : other = key
    · subst same
      rw [AList.lookup_insert]
      exact Function.update_self _ _ _
    · rw [AList.lookup_insert_ne same]
      exact (Function.update_of_ne same _ _).trans (tracked.own t tx opened other)
  · intro got member
    rw [seen] at member
    exact tracked.reads t tx opened got member

theorem Tracked.commit (tracked : Tracked trace db) {t : Nat} {tx : TxContext κ ν} {store : Dict κ ν}
    (opened : db.txMap t = some tx)
    (installed : ∀ key, store.lookup key = (tx.writes.lookup key).or (db.store.lookup key))
    (calm : Undisturbed trace db ⟨.commit t, .done⟩) :
    Tracked (trace ++ [⟨.commit t, .done⟩]) ({ db with store := store }.setTx t none) := by
  have same : ∀ u, view (trace ++ [⟨.commit t, .done⟩]) u = view trace u := fun u => view_snoc u
  have writes : installs (trace ++ [⟨.commit t, .done⟩]) = installs trace := by
    funext u key
    rw [installs, installs, same]
  have reads : Answered (trace ++ [⟨.commit t, .done⟩]) = Answered trace := by
    funext u map
    rw [Answered, Answered, same]
  have commits : committed (trace ++ [⟨.commit t, .done⟩]) = committed trace ++ [t] := committed_snoc
  constructor
  case fresh =>
    intro u high
    rw [same]
    obtain ⟨missing, unseen⟩ := tracked.fresh u high
    exact ⟨setTx_none missing t, unseen⟩
  case active =>
    intro u tx' found
    exact tracked.active u tx' (opened_before found).2
  case own =>
    intro u tx' found
    rw [same]
    exact tracked.own u tx' (opened_before found).2
  case reads =>
    intro u tx' found got member
    obtain ⟨apart, found'⟩ := opened_before found
    rw [same] at member
    have before := tracked.reads u tx' found' got member
    change got.answer = got.own.or (store.lookup got.key)
    rw [installed]
    cases put : got.own with
    | some value => rw [before, put]; rfl
    | none =>
      cases changed : tx.writes.lookup got.key with
      | none => rw [before, put]; rfl
      | some value =>
        have reading : (db.txMap u).isSome = true := Option.isSome_of_eq_some found'
        have stands := calm tx opened u (tracked.below found') apart reading got member put
        rw [changed] at stands
        exact (stands.resolve_left (Option.some_ne_none value)).symm
  case ended =>
    intro u member
    rw [commits, List.mem_append] at member
    rcases member with earlier | last
    · obtain ⟨missing, low⟩ := tracked.ended u earlier
      exact ⟨setTx_none missing t, low⟩
    · rw [List.mem_singleton.mp last]
      exact ⟨setTx_here _ t none, tracked.below opened⟩
  case serial =>
    rw [writes, reads, commits, serial_snoc]
    refine ⟨tracked.serial, ?_⟩
    intro got member
    rw [tracked.reads t tx opened got member, tracked.store]
  case store =>
    intro key
    rw [writes, commits, replay_snoc]
    change store.lookup key = _
    rw [installed, install, installs, tracked.own t tx opened, tracked.store]
    cases tx.writes.lookup key <;> rfl
  case repeatable =>
    intro u
    rw [same]
    exact tracked.repeatable u

theorem tracked_did (tracked : Tracked trace db) (calm : Undisturbed trace db event)
    (did : Did db event next) : Tracked (trace ++ [event]) next := by
  cases did with
  | start =>
    refine tracked.unseen rfl (fun _ _ => rfl) rfl (Nat.le_succ _) ?_ ?_ ?_
    · intro t high
      exact (setTx_other (Nat.ne_of_gt high) _).trans (tracked.fresh t (Nat.le_of_succ_le high)).1
    · intro t tx found
      by_cases new : t = db.nextId
      · subst new
        have self := (setTx_here db _ _).symm.trans found
        cases self
        exact .inr ⟨rfl, rfl, rfl⟩
      · exact .inl ((setTx_other new _).symm.trans found)
    · intro t member
      obtain ⟨missing, low⟩ := tracked.ended t member
      exact (setTx_other (Nat.ne_of_lt low) _).trans missing
  | @raised call =>
    have quiet : Event.commits ⟨call, (.raised : Answer ν)⟩ = none := by cases call <;> rfl
    have blind : ∀ t (view' : View κ ν), View.see t view' ⟨call, .raised⟩ = view' := by
      intro t view'
      cases call <;> rfl
    exact tracked.unseen quiet blind rfl (Nat.le_refl _) (fun t high => (tracked.fresh t high).1)
      (fun t tx found => .inl found) (fun t member => (tracked.ended t member).1)
  | get opened => exact tracked.get opened
  | put opened => exact tracked.put opened
  | commit opened installed => exact tracked.commit opened installed calm
  | @rollback t _ opened =>
    refine tracked.unseen rfl (fun _ _ => rfl) rfl (Nat.le_refl _) ?_ ?_ ?_
    · intro u high
      exact setTx_none (tracked.fresh u high).1 t
    · intro u tx found
      exact .inl (opened_before found).2
    · intro u member
      exact setTx_none (tracked.ended u member).1 t

end

theorem tracked_run [DecidableEq ν] {trace : List (Event κ ν)} {db : MiniDBClient κ ν}
    (run : Run Step Undisturbed .init trace db) : Tracked trace db := by
  refine run.invariant Tracked ?_ (fun _ _ _ _ tracked calm taken => tracked_did tracked calm (did_of_step taken))
  exact ⟨fun _ _ => ⟨rfl, rfl⟩, fun _ _ found => (nomatch found), fun _ _ found => (nomatch found),
    fun _ _ found => (nomatch found), fun _ member => (nomatch member), trivial, fun _ => rfl,
    fun _ _ member => (nomatch member)⟩

/-- A commit that changes what an open transaction has read shows at its next get of the key. -/
theorem disturbed_read [DecidableEq ν] {trace : List (Event κ ν)} {db : MiniDBClient κ ν}
    (tracked : Tracked trace db) {t u : Nat} {tx reader : TxContext κ ν} (opened : db.txMap t = some tx)
    (reading : db.txMap u = some reader) (apart : u ≠ t) {got : Got κ ν} (member : got ∈ (view trace u).gots)
    (unput : (view trace u).own got.key = none) (fromStore : got.own = none) {value : ν}
    (changed : tx.writes.lookup got.key = some value) (different : got.answer ≠ some value) :
    ∃ next, play MiniDBClient.next db [⟨.commit t, .done⟩, ⟨.get u got.key, .value (some value)⟩] = some next ∧
      ¬ Repeatable (trace ++ [⟨.commit t, .done⟩] ++ [⟨.get u got.key, .value (some value)⟩]) := by
  have requireTx : ∀ (db' : MiniDBClient κ ν) v tx', db'.txMap v = some tx' → tx'.active = true →
      db'.requireTx v = some tx' := by
    intro db' v tx' found active
    simp only [MiniDBClient.requireTx, found, active, if_true]
  have first := requireTx db t tx opened (tracked.active t tx opened)
  have there : (db.commit t).2.txMap u = some reader := by
    simp only [MiniDBClient.commit, first, MiniDBClient.setTx]
    exact (Function.update_of_ne apart _ _).trans reading
  have second := requireTx _ u reader there (tracked.active u reader reading)
  have finds : (db.commit t).2.store.lookup got.key = some value := by
    simp only [MiniDBClient.commit, first, MiniDBClient.setTx]
    rw [lookup_foldl_insert, changed]
    rfl
  have unwritten : reader.writes.lookup got.key = none := (tracked.own u reader reading got.key).symm.trans unput
  have commits : db.next ⟨.commit t, .done⟩ = some (db.commit t).2 := by
    have answer : (db.commit t).1 = .done := by simp only [MiniDBClient.commit, first]
    simp only [MiniDBClient.next, MiniDBClient.perform, answer, if_true]
  have gets : (db.commit t).2.next ⟨.get u got.key, .value (some value)⟩ = some (db.commit t).2 := by
    simp only [MiniDBClient.next, MiniDBClient.perform, MiniDBClient.get, second, unwritten, finds, if_true]
  refine ⟨(db.commit t).2, by simp only [play, commits, gets, Option.bind_some], ?_⟩
  have seen : (view (trace ++ [⟨.commit t, .done⟩] ++ [⟨.get u got.key, .value (some value)⟩]) u).gots =
      (view trace u).gots ++ [⟨got.key, none, some value⟩] := by
    rw [view_snoc, view_snoc]
    simp only [View.see, if_true, unput]
  intro repeatable
  refine different (repeatable u got ?_ ⟨got.key, none, some value⟩ ?_ rfl fromStore rfl)
  · rw [seen]
    exact List.mem_append_left _ member
  · rw [seen]
    simp

/-- Transactions are isolated, in the order of their commits, in every run in which no commit
changes a key that another open transaction has read. -/
theorem isolated_run [DecidableEq ν] {trace : List (Event κ ν)} {db : MiniDBClient κ ν}
    (run : Run Step Undisturbed .init trace db) : Isolated trace db := by
  have tracked := tracked_run run
  exact ⟨⟨committed trace, .refl _, tracked.serial, tracked.store⟩, tracked.repeatable⟩

/-- Two transactions on different keys, and a third that reads what they committed. -/
theorem isolated_run_disjoint :
    ∃ (trace : List (Event String String)) (db : MiniDBClient String String),
      Isolated trace db ∧ committed trace = [1, 0, 2] := by
  have played : (playUnder MiniDBClient.next Undisturbed [] MiniDBClient.init
      [⟨.start, .started 0⟩, ⟨.start, .started 1⟩, ⟨.get 0 "a", .value none⟩, ⟨.put 0 "a" "x", .done⟩,
        ⟨.get 0 "a", .value (some "x")⟩, ⟨.put 1 "b" "y", .done⟩, ⟨.commit 1, .done⟩,
        ⟨.get 0 "b", .value (some "y")⟩, ⟨.commit 0, .done⟩, ⟨.start, .started 2⟩,
        ⟨.get 2 "a", .value (some "x")⟩, ⟨.commit 2, .done⟩]).isSome = true := by decide +kernel
  obtain ⟨db, ran⟩ := Option.isSome_iff_exists.mp played
  exact ⟨_, db, isolated_run (run_of_playUnder ran), by decide⟩

/-- Both transactions read the key absent and then put it. -/
def lostUpdate : List (Event String String) :=
  [⟨.start, .started 0⟩, ⟨.start, .started 1⟩, ⟨.get 0 "n", .value none⟩, ⟨.get 1 "n", .value none⟩,
    ⟨.put 0 "n" "1", .done⟩, ⟨.put 1 "n" "1", .done⟩, ⟨.commit 0, .done⟩, ⟨.commit 1, .done⟩]

/-- Both commit, and neither can have been the second. -/
theorem update_lost :
    ¬ ∀ (trace : List (Event String String)) (db : MiniDBClient String String),
      Run Step Always .init trace db → Isolated trace db := by
  intro isolated
  have played : (play MiniDBClient.next MiniDBClient.init lostUpdate).isSome = true := by decide +kernel
  obtain ⟨db, ran⟩ := Option.isSome_iff_exists.mp played
  obtain ⟨⟨order, perm, serial, _⟩, _⟩ := isolated lostUpdate db (run_of_play ran)
  have listed : order ∈ [0, 1].permutations' := List.mem_permutations'.mpr perm
  have orders : [0, 1].permutations' = [[0, 1], [1, 0]] := by decide
  simp only [orders, List.mem_cons, List.not_mem_nil, or_false] at listed
  rcases listed with rfl | rfl
  · have answered : ¬ Answered lostUpdate 1 (install (installs lostUpdate) (fun _ => none) 0) := by
      decide +kernel
    exact answered serial.2.1
  · have answered : ¬ Answered lostUpdate 0 (install (installs lostUpdate) (fun _ => none) 1) := by
      decide +kernel
    exact answered serial.2.1

end DataAgentDB.Agent
