import DataAgentDB.Agent.DbClient

/-! The transaction tools of the agent (kv_tools.py), over arbitrary JSON arguments. A tool that is `none` is
left by an exception. -/

namespace DataAgentDB.Agent

/-- A Python string, by its code points; a string of JSON may hold lone surrogates. -/
abbrev Text := List Nat

/-- The string of a literal. -/
def text (literal : String) : Text := literal.toList.map Char.toNat

/-- What `json.loads` returns. A number is an `int`, or a `float` that is zero or not. -/
inductive Json where
  | null
  | bool (value : Bool)
  | int (value : Int)
  | float (zero : Bool) (repr : Text)
  | str (value : Text)
  | list (items : List Json)
  | dict (fields : List (Text × Json))

/-- No numbers, and lists and dictionaries at most `n` deep. -/
def Json.plain : Nat → Json → Bool
  | n + 1, .list items => items.all (Json.plain n)
  | n + 1, .dict fields => fields.all (fun field => Json.plain n field.2)
  | _, .null | _, .bool _ | _, .str _ => true
  | _, _ => false

abbrev Db := MiniDBClient Text Text

/-- A tool that the repository imports and does not have: the arguments it returns for, and what
it returns on a database, which it only reads. -/
structure Imported where
  takes : Json → Bool
  answer : Db → Json → Json

/-- What the tools take from Python and from the file system. -/
structure Env where
  uuid : Nat → Text
  idOf : Text → Option Nat
  idOf_eq : ∀ name t, idOf name = some t ↔ uuid t = name
  str : Json → Text
  /-- `json.dumps`; `none` where it raises: on a value that is nested too deep, or a number that is too long. -/
  dumps : Json → Option Text
  dumps_plain : ∀ value, value.plain 2 = true → (dumps value).isSome = true
  loads : Text → Option Json
  fileExists : Text → Bool
  kvGet : Imported
  kvDump : Imported
  dumps_kvGet : ∀ db args, (dumps (kvGet.answer db args)).isSome = true
  dumps_kvDump : ∀ db args, (dumps (kvDump.answer db args)).isSome = true

/-- `str.isspace` of a code point. -/
def isWhite (c : Nat) : Bool :=
  (9 ≤ c && c ≤ 13) || (28 ≤ c && c ≤ 32) || c = 0x85 || c = 0xA0 || c = 0x1680 ||
    (0x2000 ≤ c && c ≤ 0x200A) || c = 0x2028 || c = 0x2029 || c = 0x202F || c = 0x205F || c = 0x3000

/-- `str.strip`. -/
def strip (s : Text) : Text := ((s.dropWhile isWhite).reverse.dropWhile isWhite).reverse

namespace Json

def truthy : Json → Bool
  | .null => false
  | .bool value => value
  | .int value => value ≠ 0
  | .float zero _ => !zero
  | .str value => !value.isEmpty
  | .list items => !items.isEmpty
  | .dict fields => !fields.isEmpty

/-- `args.get(name, default)`; only a dictionary has a `get`. -/
def get (args : Json) (name : Text) (default : Json) : Option Json :=
  match args with
  | .dict fields => some ((fields.lookup name).getD default)
  | _ => none

/-- `value.strip()`; only a string has a `strip`. -/
def strip : Json → Option Text
  | .str value => some (Agent.strip value)
  | _ => none

/-- A returned dictionary, by its field `ok`. -/
def ok : Json → Option Bool
  | .dict fields =>
      match fields.lookup (text "ok") with
      | some (.bool value) => some value
      | _ => none
  | _ => none

end Json

/-- `{"ok": True, ...}`. -/
def success (fields : List (Text × Json)) : Json := .dict ((text "ok", .bool true) :: fields)

/-- `{"ok": False, "error": error}`. -/
def failure (error : Text) : Json := .dict [(text "ok", .bool false), (text "error", .str error)]

section
variable (env : Env)

/-- A call of the database with a `tx_id` of the arguments: what it returns, or the text of what it
raises. -/
def callDb (db : Db) (txId : Json) (call : Nat → Call Text Text) : Except Text (Answer Text × Db) :=
  let invalid := text "invalid or inactive tx_id: " ++ env.str txId
  match txId with
  | .list _ => .error (text "unhashable type: 'list'")
  | .dict _ => .error (text "unhashable type: 'dict'")
  | .str name =>
      match env.idOf name with
      | none => .error invalid
      | some t =>
          match db.perform (call t) with
          | (.raised, _) => .error invalid
          | answered => .ok answered
  | _ => .error invalid

/-- A `try` around a call of the database: what the tool returns, with the database after it. -/
def guarded (db : Db) (txId : Json) (call : Nat → Call Text Text) (failed : String)
    (reply : Answer Text → Json) : Json × Db :=
  match callDb env db txId call with
  | .ok (answer, db) => (reply answer, db)
  | .error error => (failure (text failed ++ error), db)

/-- The string that `tx_put` stores for a value. -/
def stored : Json → Option Text
  | .str value => some value
  | other => env.dumps other

/-- What `mini_db.get` returned, as JSON. -/
def valueOf : Answer Text → Json
  | .value (some value) => .str value
  | _ => .null

def txStart (db : Db) (_ : Json) : Option (Json × Db) :=
  let txId := env.uuid db.nextId
  some (success [(text "tx_id", .str txId)], db.start.2)

def txGet (db : Db) (args : Json) : Option (Json × Db) := do
  let txId ← args.get (text "tx_id") .null
  let key ← (← args.get (text "key") (.str [])).strip
  if !txId.truthy || key.isEmpty then
    return (failure (text "tx_id and key are required"), db)
  return guarded env db txId (fun t => .get t key) "get failed: "
    (fun answer => success [(text "key", .str key), (text "value", valueOf answer)])

def txPut (db : Db) (args : Json) : Option (Json × Db) := do
  let txId ← args.get (text "tx_id") .null
  let key ← (← args.get (text "key") (.str [])).strip
  let value ← args.get (text "value") .null
  if !txId.truthy || key.isEmpty then
    return (failure (text "tx_id and key are required"), db)
  -- before the `try`
  let value ← stored env value
  return guarded env db txId (fun t => .put t key value) "put failed: " (fun _ => success [(text "key", .str key)])

def txCommit (db : Db) (args : Json) : Option (Json × Db) := do
  let txId ← args.get (text "tx_id") .null
  if !txId.truthy then
    return (failure (text "tx_id is required"), db)
  return guarded env db txId .commit "commit failed: " (fun _ => success [(text "tx_id", txId)])

def txRollback (db : Db) (args : Json) : Option (Json × Db) := do
  let txId ← args.get (text "tx_id") .null
  if !txId.truthy then
    return (failure (text "tx_id is required"), db)
  return guarded env db txId .rollback "rollback failed: " (fun _ => success [(text "tx_id", txId)])

end

/-- The transaction tools. -/
inductive TxTool where
  | start | get | put | commit | rollback
  deriving DecidableEq, Repr

def TxTool.run (env : Env) : TxTool → Db → Json → Option (Json × Db)
  | .start => txStart env
  | .get => txGet env
  | .put => txPut env
  | .commit => txCommit env
  | .rollback => txRollback env

/-- The call returns a dictionary with a boolean `ok`, and an `ok` that is false leaves the database as
it was. -/
def Answers (db : Db) (result : Option (Json × Db)) : Prop :=
  ∃ reply after ok, result = some (reply, after) ∧ reply.ok = some ok ∧ (ok = false → after = db)

/-- Arguments whose field `name` can be stripped. -/
def Json.hasText (args : Json) (name : Text) : Bool :=
  match args.get name (.str []) with
  | some (.str _) => true
  | _ => false

def Json.isDict : Json → Bool
  | .dict _ => true
  | _ => false

/-- A value that `tx_put` can make a string of, if it does not refuse the `tx_id` or the key. -/
def Json.hasValue (env : Env) (args : Json) : Bool :=
  match args.get (text "tx_id") .null, args.get (text "key") (.str []), args.get (text "value") .null with
  | some txId, some (.str key), some value =>
      !txId.truthy || (Agent.strip key).isEmpty || (stored env value).isSome
  | _, _, _ => true

/-- The arguments that the code before the `try` of a tool gets through. -/
def TxTool.accepts (env : Env) (args : Json) : TxTool → Bool
  | .start => true
  | .get => args.hasText (text "key")
  | .put => args.hasText (text "key") && args.hasValue env
  | .commit | .rollback => args.isDict

section Lemmas
variable {env : Env} {db : Db} {args : Json}

theorem ok_success (fields : List (Text × Json)) : (success fields).ok = some true := rfl

theorem ok_failure (error : Text) : (failure error).ok = some false := rfl

theorem answers_failure (db : Db) (error : Text) : Answers db (some (failure error, db)) :=
  ⟨failure error, db, false, rfl, ok_failure error, fun _ => rfl⟩

/-- Whatever the database raises is answered. -/
theorem answers_guarded (txId : Json) (call : Nat → Call Text Text) (failed : String)
    (fields : Answer Text → List (Text × Json)) :
    Answers db (some (guarded env db txId call failed (fun answer => success (fields answer)))) := by
  unfold guarded
  cases callDb env db txId call with
  | ok answered => exact ⟨_, answered.2, true, rfl, ok_success _, nofun⟩
  | error error => exact answers_failure db _

/-- A tool that is to answer does, and one that is not raises. -/
def Settles (db : Db) (accepted : Bool) (result : Option (Json × Db)) : Prop :=
  if accepted then Answers db result else result = none

theorem not_answers_none : ¬ Answers db none := by
  rintro ⟨_, _, _, absent, _⟩
  cases absent

theorem Settles.answers_iff {accepted : Bool} {result : Option (Json × Db)} (settles : Settles db accepted result) :
    Answers db result ↔ accepted = true := by
  cases accepted with
  | true => exact ⟨fun _ => rfl, fun _ => settles⟩
  | false =>
    rw [show result = none from settles]
    exact ⟨fun answers => absurd answers not_answers_none, nofun⟩

theorem Settles.isSome_eq {accepted : Bool} {result : Option (Json × Db)} (settles : Settles db accepted result) :
    result.isSome = accepted := by
  cases accepted with
  | true =>
    obtain ⟨reply, after, ok, returned, -⟩ : Answers db result := settles
    rw [returned]
    rfl
  | false =>
    rw [show result = none from settles]
    rfl

/-- A tool that begins by asking the arguments for a field. -/
theorem settles_get {accepted : Bool} {name : Text} {default : Json} {rest : Json → Option (Json × Db)}
    (needed : args.isDict = false → accepted = false)
    (later : args.isDict = true → ∀ value, Settles db accepted (rest value)) :
    Settles db accepted (args.get name default >>= rest) := by
  cases args with
  | dict fields => exact later rfl _
  | _ =>
    rw [needed rfl]
    rfl

theorem hasText_of_not_isDict {name : Text} (other : args.isDict = false) : args.hasText name = false := by
  cases args with
  | dict fields => cases other
  | _ => rfl

/-- A tool that goes on by stripping a field. -/
theorem settles_strip {name : Text} {rest : Text → Option (Json × Db)}
    (later : args.isDict = true → ∀ key, Answers db (rest key)) :
    Settles db (args.hasText name) (args.get name (.str []) >>= fun value => value.strip >>= rest) := by
  cases args with
  | dict fields =>
    simp only [Json.hasText, Json.get, Option.bind_eq_bind, Option.bind_some]
    cases (fields.lookup name).getD (.str []) with
    | str key => exact later rfl _
    | _ => rfl
  | _ => rfl

theorem settles_of_isDict {result : Option (Json × Db)} (isDict : args.isDict = true) (answers : Answers db result) :
    Settles db args.isDict result := by
  rw [isDict]
  exact answers

theorem settles_txGet : Settles db (args.hasText (text "key")) (txGet env db args) := by
  refine settles_get hasText_of_not_isDict (fun _ txId => settles_strip (fun _ key => ?_))
  split
  · exact answers_failure db _
  · exact answers_guarded txId _ _ _

theorem settles_txPut : Settles db (args.hasText (text "key") && args.hasValue env) (txPut env db args) := by
  cases args with
  | dict fields =>
    simp only [Json.hasText, Json.hasValue, txPut, Json.get, Option.bind_eq_bind, Option.bind_some]
    cases (fields.lookup (text "key")).getD (.str []) with
    | str key =>
      simp only [Json.strip, Option.bind_some, Bool.true_and]
      split
      next refused =>
        rw [refused, Bool.true_or]
        exact answers_failure db _
      next asked =>
        rw [Bool.eq_false_iff.mpr asked, Bool.false_or]
        cases stored env ((fields.lookup (text "value")).getD .null) with
        | none => rfl
        | some value => exact answers_guarded _ _ _ _
    | _ => rfl
  | _ => rfl

/-- A tool that ends a transaction. -/
theorem settles_ending (call : Nat → Call Text Text) (failed : String) :
    Settles db args.isDict (args.get (text "tx_id") .null >>= fun txId =>
      if !txId.truthy then some (failure (text "tx_id is required"), db)
      else some (guarded env db txId call failed (fun _ => success [(text "tx_id", txId)]))) := by
  refine settles_get (fun other => other) (fun isDict txId => settles_of_isDict isDict ?_)
  split
  · exact answers_failure db _
  · exact answers_guarded txId _ _ _

/-- A transaction tool answers the arguments that get through to its `try`, and raises on all others. -/
theorem TxTool.settles (env : Env) (tool : TxTool) (db : Db) (args : Json) :
    Settles db (tool.accepts env args) (tool.run env db args) := by
  cases tool with
  | start => exact ⟨_, _, true, rfl, rfl, nofun⟩
  | get => exact settles_txGet
  | put => exact settles_txPut
  | commit => exact settles_ending Call.commit "commit failed: "
  | rollback => exact settles_ending Call.rollback "rollback failed: "

/-- What a tool returns can be dumped. -/
def Dumps (env : Env) (result : Option (Json × Db)) : Prop :=
  ∀ reply after, result = some (reply, after) → (env.dumps reply).isSome = true

theorem dumps_of_plain {reply : Json} (plain : reply.plain 2 = true) (after : Db) : Dumps env (some (reply, after)) := by
  rintro _ _ ⟨⟩
  exact env.dumps_plain reply plain

theorem dumps_bind {α : Type} {asked : Option α} {rest : α → Option (Json × Db)}
    (later : ∀ value, Dumps env (rest value)) : Dumps env (asked >>= rest) := by
  intro reply after returned
  obtain ⟨value, -, same⟩ := Option.bind_eq_some_iff.mp returned
  exact later value reply after same

theorem dumps_failure (error : Text) : Dumps env (some (failure error, db)) := dumps_of_plain rfl db

/-- A call of the database that returns was asked for with a string. -/
theorem callDb_ok {txId : Json} {call : Nat → Call Text Text} {answered : Answer Text × Db}
    (returned : callDb env db txId call = .ok answered) : ∃ name, txId = .str name := by
  cases txId with
  | str name => exact ⟨name, rfl⟩
  | _ => cases returned

theorem dumps_guarded {txId : Json} {call : Nat → Call Text Text} {failed : String} {reply : Answer Text → Json}
    (plain : ∀ name answer, txId = .str name → (reply answer).plain 2 = true) :
    Dumps env (some (guarded env db txId call failed reply)) := by
  unfold guarded
  cases called : callDb env db txId call with
  | ok answered =>
    obtain ⟨name, isName⟩ := callDb_ok called
    exact dumps_of_plain (plain name answered.1 isName) answered.2
  | error error => exact dumps_failure _

theorem plain_valueOf (answer : Answer Text) : (valueOf answer).plain 1 = true := by
  unfold valueOf
  split <;> rfl

theorem dumps_txGet : Dumps env (txGet env db args) := by
  refine dumps_bind (fun txId => dumps_bind (fun value => dumps_bind (fun key => ?_)))
  split
  · exact dumps_failure _
  · refine dumps_guarded (fun name answer _ => ?_)
    simp [success, Json.plain, plain_valueOf]

theorem dumps_txPut : Dumps env (txPut env db args) := by
  refine dumps_bind (fun txId => dumps_bind (fun value => dumps_bind (fun key => dumps_bind (fun value => ?_))))
  split
  · exact dumps_failure _
  · exact dumps_bind (fun value => dumps_guarded (fun _ _ _ => rfl))

theorem dumps_ending (call : Nat → Call Text Text) (failed : String) :
    Dumps env (args.get (text "tx_id") .null >>= fun txId =>
      if !txId.truthy then some (failure (text "tx_id is required"), db)
      else some (guarded env db txId call failed (fun _ => success [(text "tx_id", txId)]))) := by
  refine dumps_bind (fun txId => ?_)
  split
  · exact dumps_failure _
  · refine dumps_guarded (fun name _ isName => ?_)
    rw [isName]
    rfl

/-- Whatever a transaction tool returns can be dumped. -/
theorem TxTool.dumps (env : Env) (tool : TxTool) (db : Db) (args : Json) : Dumps env (tool.run env db args) := by
  cases tool with
  | start => exact dumps_of_plain rfl _
  | get => exact dumps_txGet
  | put => exact dumps_txPut
  | commit => exact dumps_ending Call.commit "commit failed: "
  | rollback => exact dumps_ending Call.rollback "rollback failed: "

end Lemmas

end DataAgentDB.Agent
