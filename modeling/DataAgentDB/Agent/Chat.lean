import DataAgentDB.Agent.Tools

/-! The agent's conversation (llm.py) over its tools (tool_registry.py). The router is called outside
of the `try`, so what a tool raises ends the conversation between two messages. -/

namespace DataAgentDB.Agent

/-- An entry of `msg.tool_calls`. -/
structure ToolCall where
  id : Text
  type : Text
  name : Text
  arguments : Option Text

/-- The message of a completion; `tool_calls` that are `None` are no calls. -/
structure Reply where
  content : Option Text
  toolCalls : List ToolCall

inductive Message where
  | chat (role content : Text)
  | assistant (content : Text) (toolCalls : List ToolCall)
  | tool (toolCallId name content : Text)

/-- The database and the messages. -/
structure Conversation where
  db : Db
  messages : List Message

/-- How `chat_with_tools` ends. -/
inductive Outcome where
  | text (answer : Text)
  | raised

section
variable (env : Env)

/-- `image_analyze`; `none` is an exception that leaves the tool. -/
def imageAnalyze (args : Json) : Option Json := do
  let imagePath ← (← args.get (text "image_path") (.str [])).strip
  let task ← (← args.get (text "task") (.str (text "describe"))).strip
  if imagePath.isEmpty then
    return failure (text "image_path is required")
  if !env.fileExists imagePath then
    return failure (text "file not found: " ++ imagePath)
  return success [(text "task", .str task), (text "caption", .str (text "这是一张示例图片（占位结果）")),
    (text "objects", .list [.str (text "object_a"), .str (text "object_b")])]

def Imported.run (tool : Imported) (db : Db) (args : Json) : Option (Json × Db) :=
  if tool.takes args then some (tool.answer db args, db) else none

def toolRouter (name : Text) (db : Db) (args : Json) : Option (Json × Db) :=
  if name = text "kv_get" then env.kvGet.run db args
  else if name = text "tx_start" then TxTool.start.run env db args
  else if name = text "tx_get" then TxTool.get.run env db args
  else if name = text "tx_put" then TxTool.put.run env db args
  else if name = text "tx_commit" then TxTool.commit.run env db args
  else if name = text "tx_rollback" then TxTool.rollback.run env db args
  else if name = text "kv_dump" then env.kvDump.run db args
  else if name = text "image_analyze" then (imageAnalyze env args).map (fun reply => (reply, db))
  else some (failure (text "unknown tool: " ++ name), db)

/-- `json.loads(tc.function.arguments or "{}")`, or `{}` where that raises. -/
def ToolCall.args (call : ToolCall) : Json :=
  let rawArgs := match call.arguments with
    | none | some [] => text "\x7b\x7d"
    | some rawArgs => rawArgs
  (env.loads rawArgs).getD (.dict [])

/-- The loop over the calls of a message; the flag is whether the router or `json.dumps` raised. -/
def answerCalls : Conversation → List ToolCall → Bool × Conversation
  | conversation, [] => (false, conversation)
  | conversation, call :: rest =>
      match toolRouter env call.name conversation.db (call.args env) with
      | none => (true, conversation)
      | some (result, db) =>
          match env.dumps result with
          | none => (true, { conversation with db := db })
          | some content =>
              answerCalls { db := db, messages := conversation.messages ++ [.tool call.id call.name content] } rest

/-- `chat_with_tools` with the rounds that are left, and the replies of the model from there on. -/
def chatWithTools : Nat → Conversation → (Nat → Reply) → Outcome × Conversation
  | 0, conversation, _ => (.text (text "达到最大工具调用轮次，流程未完成。"), conversation)
  | rounds + 1, conversation, replies =>
      let msg := replies 0
      if msg.toolCalls.isEmpty then (.text (msg.content.getD []), conversation)
      else
        let asked := { conversation with
          messages := conversation.messages ++ [.assistant (msg.content.getD []) msg.toolCalls] }
        match answerCalls env asked msg.toolCalls with
        | (true, conversation) => (.raised, conversation)
        | (false, conversation) => chatWithTools rounds conversation (fun i => replies (i + 1))

/-- The calls that the router answers. -/
def ToolCall.accepted (call : ToolCall) : Bool :=
  let args := call.args env
  if call.name = text "kv_get" then env.kvGet.takes args
  else if call.name = text "tx_start" then TxTool.start.accepts env args
  else if call.name = text "tx_get" then TxTool.get.accepts env args
  else if call.name = text "tx_put" then TxTool.put.accepts env args
  else if call.name = text "tx_commit" then TxTool.commit.accepts env args
  else if call.name = text "tx_rollback" then TxTool.rollback.accepts env args
  else if call.name = text "kv_dump" then env.kvDump.takes args
  else if call.name = text "image_analyze" then args.hasText (text "image_path") && args.hasText (text "task")
  else true

/-- The model is sent no call that the router raises on, as long as the conversation lasts. -/
def Reached (rounds : Nat) (replies : Nat → Reply) : Prop :=
  ∀ i < rounds, (∀ j < i, (replies j).toolCalls ≠ []) → ∀ call ∈ (replies i).toolCalls, call.accepted env = true

end

/-- The calls still to be answered after a message; `none` when the message comes out of turn. -/
def pay : List Text → Message → Option (List Text)
  | [], .chat _ _ => some []
  | [], .assistant _ calls => some (calls.map ToolCall.id)
  | id :: owing, .tool callId _ _ => if callId = id then some owing else none
  | _, _ => none

def owed (owing : List Text) (messages : List Message) : Option (List Text) := messages.foldlM pay owing

/-- Every call of a message is answered, once and in order, before any other message. -/
def AllAnswered (messages : List Message) : Prop := owed [] messages = some []

theorem owed_append {owing left : List Text} {front : List Message} (paid : owed owing front = some left)
    (back : List Message) : owed owing (front ++ back) = owed left back := by
  rw [owed, List.foldlM_append]
  exact (congrArg (· >>= fun left => back.foldlM pay left) paid)

section
variable {env : Env}

theorem isSome_strip {args : Json} {name default : Text} {rest : Text → Option Json} {later : Bool}
    (same : ∀ value, (rest value).isSome = later) :
    (args.get name (.str default) >>= fun value => value.strip >>= rest).isSome =
      (args.hasText name && later) := by
  cases args with
  | dict fields =>
    simp only [Json.hasText, Json.get, Option.bind_eq_bind, Option.bind_some]
    cases fields.lookup name with
    | none => exact same _
    | some value =>
      cases value with
      | str value => exact same _
      | _ => rfl
  | _ => rfl

theorem isSome_imageAnalyze (args : Json) : (imageAnalyze env args).isSome =
    (args.hasText (text "image_path") && args.hasText (text "task")) := by
  refine isSome_strip (fun path => ?_)
  rw [← Bool.and_true (args.hasText (text "task"))]
  refine isSome_strip (fun task => ?_)
  split
  · rfl
  split <;> rfl

theorem isSome_run (tool : Imported) (db : Db) (args : Json) : (tool.run db args).isSome = tool.takes args := by
  unfold Imported.run
  cases tool.takes args <;> rfl

/-- The router raises exactly on the calls that are not accepted. -/
theorem isSome_toolRouter (env : Env) (call : ToolCall) (db : Db) :
    (toolRouter env call.name db (call.args env)).isSome = call.accepted env := by
  unfold toolRouter ToolCall.accepted
  dsimp only
  split
  · exact isSome_run _ _ _
  split
  · exact (TxTool.settles env _ db _).isSome_eq
  split
  · exact (TxTool.settles env _ db _).isSome_eq
  split
  · exact (TxTool.settles env _ db _).isSome_eq
  split
  · exact (TxTool.settles env _ db _).isSome_eq
  split
  · exact (TxTool.settles env _ db _).isSome_eq
  split
  · exact isSome_run _ _ _
  split
  · rw [Option.isSome_map, isSome_imageAnalyze]
  · rfl

theorem plain_imageAnalyze {args reply : Json} (returned : imageAnalyze env args = some reply) :
    reply.plain 2 = true := by
  obtain ⟨_, _, returned⟩ := Option.bind_eq_some_iff.mp returned
  obtain ⟨path, _, returned⟩ := Option.bind_eq_some_iff.mp returned
  obtain ⟨_, _, returned⟩ := Option.bind_eq_some_iff.mp returned
  obtain ⟨task, _, returned⟩ := Option.bind_eq_some_iff.mp returned
  split at returned
  · cases returned
    rfl
  split at returned
  · cases returned
    rfl
  · cases returned
    rfl

theorem dumps_run {tool : Imported} (dumps : ∀ db args, (env.dumps (tool.answer db args)).isSome = true) (db : Db)
    (args : Json) : Dumps env (tool.run db args) := by
  intro reply after returned
  unfold Imported.run at returned
  split at returned
  · cases returned
    exact dumps db args
  · cases returned

/-- Whatever the router returns can be dumped. -/
theorem dumps_toolRouter (env : Env) (name : Text) (db : Db) (args : Json) : Dumps env (toolRouter env name db args) := by
  unfold toolRouter
  split
  · exact dumps_run env.dumps_kvGet db args
  split
  · exact TxTool.dumps env _ db _
  split
  · exact TxTool.dumps env _ db _
  split
  · exact TxTool.dumps env _ db _
  split
  · exact TxTool.dumps env _ db _
  split
  · exact TxTool.dumps env _ db _
  split
  · exact dumps_run env.dumps_kvDump db args
  split
  · intro reply after returned
    obtain ⟨_, analyzed, same⟩ := Option.map_eq_some_iff.mp returned
    cases same
    exact env.dumps_plain reply (plain_imageAnalyze analyzed)
  · exact dumps_failure _

/-- The calls of a message are paid one by one, up to the first that the router raises on. -/
theorem answerCalls_spec (env : Env) (calls : List ToolCall) (conversation : Conversation) :
    ∃ answers left db, answerCalls env conversation calls =
        (!left.isEmpty, { db := db, messages := conversation.messages ++ answers }) ∧
      owed (calls.map ToolCall.id) answers = some left ∧
      (left = [] ↔ ∀ call ∈ calls, call.accepted env = true) := by
  induction calls generalizing conversation with
  | nil =>
    refine ⟨[], [], conversation.db, ?_, rfl, fun _ _ member => (nomatch member), fun _ => rfl⟩
    rw [List.append_nil]
    rfl
  | cons call rest ih =>
    have accepted := isSome_toolRouter env call conversation.db
    rw [answerCalls]
    cases routed : toolRouter env call.name conversation.db (call.args env) with
    | none =>
      rw [routed] at accepted
      refine ⟨[], call.id :: rest.map ToolCall.id, conversation.db, ?_, rfl, nofun, fun all => ?_⟩
      · rw [List.append_nil]
        rfl
      · rw [all call List.mem_cons_self] at accepted
        cases accepted
    | some result =>
      rw [routed] at accepted
      obtain ⟨reply, db⟩ := result
      have dumps := dumps_toolRouter env call.name conversation.db (call.args env) reply db routed
      obtain ⟨content, dumped⟩ := Option.isSome_iff_exists.mp dumps
      let answer : Message := .tool call.id call.name content
      obtain ⟨answers, left, last, looped, paid, whole⟩ :=
        ih { db := db, messages := conversation.messages ++ [answer] }
      refine ⟨answer :: answers, left, last, ?_, ?_, ?_⟩
      · dsimp only
        rw [dumped]
        dsimp only
        rw [looped, List.append_assoc]
        rfl
      · have first : owed ((call :: rest).map ToolCall.id) [answer] = some (rest.map ToolCall.id) := by
          simp only [owed, List.map_cons, List.foldlM_cons, List.foldlM_nil, pay, answer, if_true]
          rfl
        exact (owed_append first answers).trans paid
      · rw [whole, List.forall_mem_cons]
        exact (and_iff_right accepted.symm).symm

theorem reached_succ (rounds : Nat) (replies : Nat → Reply) (asks : (replies 0).toolCalls ≠ []) :
    Reached env (rounds + 1) replies ↔ (∀ call ∈ (replies 0).toolCalls, call.accepted env = true) ∧
      Reached env rounds (fun i => replies (i + 1)) := by
  constructor
  · intro reached
    refine ⟨reached 0 (Nat.succ_pos _) (fun _ low => (nomatch low)), ?_⟩
    intro i low before
    refine reached (i + 1) (Nat.succ_lt_succ low) ?_
    intro j below
    cases j with
    | zero => exact asks
    | succ j => exact before j (Nat.lt_of_succ_lt_succ below)
  · rintro ⟨first, later⟩ i low before
    cases i with
    | zero => exact first
    | succ i =>
      exact later i (Nat.lt_of_succ_lt_succ low) (fun j below => before (j + 1) (Nat.succ_lt_succ below))

/-- The messages a conversation adds, and what they leave unanswered. -/
theorem chatWithTools_spec (env : Env) (rounds : Nat) (conversation : Conversation) (replies : Nat → Reply) :
    ∃ appended left, (chatWithTools env rounds conversation replies).2.messages = conversation.messages ++ appended ∧
      owed [] appended = some left ∧ (left = [] ↔ Reached env rounds replies) ∧
      ((chatWithTools env rounds conversation replies).1 = .raised ↔ left ≠ []) := by
  induction rounds generalizing conversation replies with
  | zero =>
    refine ⟨[], [], (List.append_nil _).symm, rfl, ⟨fun _ _ low => (nomatch low), fun _ => rfl⟩, nofun, ?_⟩
    exact fun absurd => False.elim (absurd rfl)
  | succ rounds ih =>
    rw [chatWithTools]
    dsimp only
    cases asked : (replies 0).toolCalls with
    | nil =>
      refine ⟨[], [], (List.append_nil _).symm, rfl, ⟨fun _ i _ before => ?_, fun _ => rfl⟩, nofun,
        fun absurd => False.elim (absurd rfl)⟩
      cases i with
      | zero =>
        rw [asked]
        exact fun _ member => (nomatch member)
      | succ i => exact absurd asked (before 0 (Nat.succ_pos _))
    | cons call rest =>
      rw [if_neg (by simp)]
      have asks : (replies 0).toolCalls ≠ [] := by simp [asked]
      let message : Message := .assistant ((replies 0).content.getD []) (call :: rest)
      obtain ⟨answers, left, db, looped, paid, whole⟩ := answerCalls_spec env (call :: rest)
        { conversation with messages := conversation.messages ++ [message] }
      have opened : owed [] (message :: answers) = some left := paid
      rw [looped]
      cases left with
      | cons id owing =>
        refine ⟨message :: answers, id :: owing, ?_, opened, ?_, ?_⟩
        · exact List.append_assoc _ [message] answers
        · rw [reached_succ rounds replies asks, asked, ← whole]
          exact ⟨nofun, fun reached => (nomatch reached.1)⟩
        · exact ⟨fun _ => nofun, fun _ => rfl⟩
      | nil =>
        obtain ⟨appended, left, messages, paid', reached, raised⟩ :=
          ih { db := db, messages := conversation.messages ++ [message] ++ answers } (fun i => replies (i + 1))
        refine ⟨message :: answers ++ appended, left, ?_, (owed_append opened appended).trans paid', ?_, raised⟩
        · refine messages.trans ?_
          simp only [List.append_assoc, List.cons_append, List.nil_append]
        · rw [reached, reached_succ rounds replies asks, asked, ← whole]
          exact (and_iff_right rfl).symm

end

/-- The tools answer exactly the arguments that get through to their `try`, and a conversation answers its
calls exactly as long as it is sent no others. -/
theorem tools_answer_iff (env : Env) :
    (∀ (tool : TxTool) (db : Db) (args : Json),
      Answers db (tool.run env db args) ↔ tool.accepts env args = true) ∧
    ∀ (rounds : Nat) (conversation : Conversation) (replies : Nat → Reply),
      (∃ appended, (chatWithTools env rounds conversation replies).2.messages =
          conversation.messages ++ appended ∧ AllAnswered appended ∧
        (chatWithTools env rounds conversation replies).1 ≠ .raised) ↔ Reached env rounds replies := by
  refine ⟨fun tool db args => (TxTool.settles env tool db args).answers_iff, ?_⟩
  intro rounds conversation replies
  obtain ⟨appended, left, messages, paid, reached, raised⟩ :=
    chatWithTools_spec env rounds conversation replies
  rw [← reached]
  constructor
  · rintro ⟨_, _, _, returned⟩
    by_contra owing
    exact returned (raised.mpr owing)
  · rintro rfl
    exact ⟨appended, messages, paid, fun ended => raised.mp ended rfl⟩

/-- The arguments of a `tx_get` whose key is a number. -/
def numberKey : Json := .dict [(text "tx_id", .str (text "x")), (text "key", .int 5)]

def numberKeyArgs : Text := text "\x7b\"tx_id\": \"x\", \"key\": 5\x7d"

/-- An environment with single code points for ids, and no files. -/
def plainEnv : Env where
  uuid t := [t]
  idOf
    | [t] => some t
    | _ => none
  idOf_eq := by
    intro name t
    cases name with
    | nil => simp
    | cons c rest => cases rest <;> simp [eq_comm]
  str _ := text "x"
  dumps _ := some (text "\x7b\x7d")
  dumps_plain _ _ := rfl
  loads raw := if raw = numberKeyArgs then some numberKey else some (.dict [])
  fileExists _ := false
  kvGet := ⟨fun _ => true, fun _ _ => success []⟩
  kvDump := ⟨fun _ => true, fun _ _ => success []⟩
  dumps_kvGet _ _ := rfl
  dumps_kvDump _ _ := rfl

def numberKeyCall : ToolCall := ⟨text "call_0", text "function", text "tx_get", some numberKeyArgs⟩

/-- The model sends the call, and then a text. -/
def numberKeyReplies : Nat → Reply
  | 0 => ⟨none, [numberKeyCall]⟩
  | _ => ⟨some (text "done"), []⟩

/-- The exception leaves the tool and the conversation, and the call is left without an answer. -/
theorem number_key_unanswered :
    ¬ Answers MiniDBClient.init (TxTool.get.run plainEnv MiniDBClient.init numberKey) ∧
    (chatWithTools plainEnv 10 ⟨MiniDBClient.init, []⟩ numberKeyReplies).1 = .raised ∧
    (chatWithTools plainEnv 10 ⟨MiniDBClient.init, []⟩ numberKeyReplies).2.messages = [.assistant [] [numberKeyCall]] ∧
    ¬ AllAnswered [.assistant [] [numberKeyCall]] := by
  have round : chatWithTools plainEnv 10 ⟨MiniDBClient.init, []⟩ numberKeyReplies =
      (.raised, ⟨MiniDBClient.init, [.assistant [] [numberKeyCall]]⟩) := by rfl
  refine ⟨not_answers_none, by rw [round], by rw [round], ?_⟩
  have left : owed [] [.assistant [] [numberKeyCall]] = some [text "call_0"] := rfl
  rw [AllAnswered, left]
  simp

end DataAgentDB.Agent
