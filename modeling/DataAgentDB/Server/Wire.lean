import DataAgentDB.Server.PutLine
import DataAgentDB.Storage.Numeral

/-! The text protocol from end to end: what a client writes is what `handle_client` carries out,
and every line a session reads gets one line back. -/

namespace DataAgentDB.Server
open Storage LabelledRun Words

namespace Command

def word : Command → Bytes
  | .start => bytes "START"
  | .get _ => bytes "GET"
  | .put _ _ => bytes "PUT"
  | .commit => bytes "COMMIT"
  | .abort => bytes "ABORT"

def operands : Command → List Bytes
  | .get key => [key]
  | .put key value => [key, value]
  | .start | .commit | .abort => []

/-- A key is a word; a value has a character that is no separator, and no line end. -/
def Sendable : Command → Prop
  | .get key => IsWord isSpace key
  | .put key value => IsWord isSpace key ∧ (∃ c ∈ value, isSpace c = false) ∧ 10 ∉ value ∧ 13 ∉ value
  | .start | .commit | .abort => True

end Command

/-- A command as a client writes it. -/
structure Request where
  command : Command
  spelling : Bytes
  eol : Bytes
  spelled : upper spelling = command.word
  ended : eol = [10] ∨ eol = [13, 10]
  sendable : command.Sendable
  short : ([32].intercalate (spelling :: command.operands)).length ≤ 64 * 1024

namespace Request

/-- The words joined by single spaces. -/
def body (request : Request) : Bytes :=
  [32].intercalate (request.spelling :: request.command.operands)

def line (request : Request) : Bytes := request.body ++ request.eol

end Request

theorem readLine_append (out : Bytes) {text : Bytes} (rest : Bytes) (noLf : 10 ∉ text) (noCr : 13 ∉ text)
    (short : out.length + text.length ≤ 64 * 1024) :
    readLine out (text ++ rest) = readLine (out ++ text) rest := by
  induction text generalizing out with
  | nil => rw [List.nil_append, List.append_nil]
  | cons c text ih =>
    rw [List.length_cons] at short
    have notLf : c ≠ 10 := fun same => noLf (same ▸ List.mem_cons_self)
    have notCr : c ≠ 13 := fun same => noCr (same ▸ List.mem_cons_self)
    have within : ¬ (out ++ [c]).length > 64 * 1024 := by
      rw [List.length_append, List.length_singleton]
      omega
    rw [List.cons_append, readLine, if_neg notLf]
    simp only [if_pos notCr, if_neg within]
    rw [ih (out ++ [c]) (fun member => noLf (List.mem_cons_of_mem c member))
      (fun member => noCr (List.mem_cons_of_mem c member))
      (by rw [List.length_append, List.length_singleton]; omega), List.append_assoc]
    rfl

/-- `read_line` undoes the framing, for both line ends. -/
theorem readLine_framed {text eol : Bytes} (rest : Bytes) (noLf : 10 ∉ text) (noCr : 13 ∉ text)
    (short : text.length ≤ 64 * 1024) (ended : eol = [10] ∨ eol = [13, 10]) :
    readLine [] (text ++ eol ++ rest) = (some text, rest) := by
  have within : ¬ text.length > 64 * 1024 := by omega
  rw [List.append_assoc, readLine_append [] _ noLf noCr (by simpa using short), List.nil_append]
  rcases ended with rfl | rfl
  · rfl
  · rw [List.cons_append, readLine, if_neg (by decide)]
    simp only [show ¬ ((13 : UInt8) ≠ 13) from fun apart => apart rfl, if_false, if_neg within]
    rfl

/-- `read_line` takes its line off the front of the input, and no more than one line. -/
theorem readLine_consumes (out input : Bytes) :
    ∃ eaten, input = eaten ++ (readLine out input).2 ∧
      eaten.count 10 = if (readLine out input).1.isSome then 1 else 0 := by
  induction input generalizing out with
  | nil => exact ⟨[], rfl, rfl⟩
  | cons c rest ih =>
    rw [readLine]
    by_cases isLf : c = 10
    · rw [if_pos isLf]
      exact ⟨[c], rfl, by simp [isLf]⟩
    · rw [if_neg isLf]
      dsimp only
      have skip : ∀ tail : Bytes, (c :: tail).count 10 = tail.count 10 :=
        fun tail => List.count_cons_of_ne isLf
      generalize (if c ≠ 13 then out ++ [c] else out) = out'
      split
      · exact ⟨[c], rfl, by rw [skip]; rfl⟩
      · obtain ⟨eaten, whole, count⟩ := ih out'
        exact ⟨c :: eaten, by rw [List.cons_append, ← whole], by rw [skip, count]⟩

theorem parse_get {line word key : Bytes} (tokens : splitWs line = [word, key])
    (command : upper word = bytes "GET") : parse line = some (.get key) := by
  have start : bytes "GET" ≠ bytes "START" := by decide
  simp only [parse, tokens, command, if_neg start, if_true]

theorem parse_put {line word key third : Bytes} {more : List Bytes}
    (tokens : splitWs line = word :: key :: third :: more) (command : upper word = bytes "PUT") :
    parse line = some (.put key (Session.putValue line)) := by
  have start : bytes "PUT" ≠ bytes "START" := by decide
  have get : bytes "PUT" ≠ bytes "GET" := by decide
  simp only [parse, tokens, command, if_neg start, if_neg get, if_true]

theorem isSpace_iff (c : UInt8) : isSpace c = true ↔ c.toNat = 32 ∨ 9 ≤ c.toNat ∧ c.toNat ≤ 13 := by
  have blank : c = 32 ↔ c.toNat = 32 := UInt8.toNat_inj.symm
  have low : 9 ≤ c ↔ 9 ≤ c.toNat := UInt8.le_iff_toNat_le
  have high : c ≤ 13 ↔ c.toNat ≤ 13 := UInt8.le_iff_toNat_le
  simp [isSpace, blank, low, high]

theorem isSpace_upper (c : UInt8) : isSpace (if 97 ≤ c ∧ c ≤ 122 then c - 32 else c) = isSpace c := by
  split
  next letter =>
    have low : 97 ≤ c.toNat := UInt8.le_iff_toNat_le.mp letter.1
    have moved : (c - 32).toNat = c.toNat - 32 :=
      UInt8.toNat_sub_of_le c 32 (UInt8.le_iff_toNat_le.mpr (by change 32 ≤ c.toNat; omega))
    have before : ¬ isSpace c = true := by rw [isSpace_iff]; omega
    have after : ¬ isSpace (c - 32) = true := by rw [isSpace_iff, moved]; omega
    rw [Bool.eq_false_iff.mpr before, Bool.eq_false_iff.mpr after]
  next => rfl

theorem isWord_of_upper {word : Bytes} (isWord : IsWord isSpace (upper word)) : IsWord isSpace word := by
  constructor
  · intro empty
    exact isWord.nonempty (by rw [empty]; rfl)
  · intro c member
    rw [← isSpace_upper c]
    exact isWord.inside _ (List.mem_map_of_mem member)

theorem Command.isWord_word (command : Command) : IsWord isSpace command.word := by
  cases command <;> exact isWord_of_all rfl rfl

theorem absent_of_isWord {word : Bytes} (isWord : IsWord isSpace word) {c : UInt8} (space : isSpace c = true) :
    c ∉ word := by
  intro member
  rw [isWord.inside c member] at space
  cases space

namespace Request

variable (request : Request)

theorem isWord_spelling : IsWord isSpace request.spelling :=
  isWord_of_upper (request.spelled ▸ request.command.isWord_word)

/-- The body of a request, by its command. -/
theorem body_eq :
    request.body =
      match request.command with
      | .get key => request.spelling ++ 32 :: key
      | .put key value => request.spelling ++ 32 :: (key ++ 32 :: value)
      | .start | .commit | .abort => request.spelling := by
  unfold body
  cases request.command <;> simp [Command.operands, List.intercalate]

theorem noLineEnd {c : UInt8} (isEnd : c = 10 ∨ c = 13) : c ∉ request.body := by
  have space : isSpace c = true := by rcases isEnd with rfl | rfl <;> rfl
  have notBlank : c ≠ 32 := by rcases isEnd with rfl | rfl <;> decide
  have spelling := absent_of_isWord request.isWord_spelling space
  have sendable := request.sendable
  rw [body_eq]
  cases given : request.command with
  | start | commit | abort => exact spelling
  | get key =>
    rw [given] at sendable
    have inKey := absent_of_isWord sendable space
    simp [spelling, inKey, notBlank]
  | put key value =>
    rw [given] at sendable
    obtain ⟨isKey, _, noLf, noCr⟩ := sendable
    have inKey := absent_of_isWord isKey space
    have inValue : c ∉ value := by rcases isEnd with rfl | rfl <;> assumption
    simp [spelling, inKey, inValue, notBlank]

theorem readLine_line (rest : Bytes) :
    readLine [] (request.line ++ rest) = (some request.body, rest) :=
  readLine_framed rest (request.noLineEnd (.inl rfl)) (request.noLineEnd (.inr rfl)) request.short request.ended

/-- The body of a request is dispatched as its command. -/
theorem parse_body : parse request.body = some request.command := by
  have spelling := request.isWord_spelling
  have blank : isSpace 32 = true := rfl
  have sendable := request.sendable
  have spelled := request.spelled
  rw [body_eq]
  cases given : request.command with
  | start | commit | abort =>
    rw [given] at spelled
    simp only [parse, splitWs_eq, words_word spelling, spelled, Command.word]
    decide
  | get key =>
    rw [given] at sendable spelled
    have tokens : splitWs (request.spelling ++ 32 :: key) = [request.spelling, key] := by
      rw [splitWs_eq, words_append_sep _ key blank, words_word spelling, words_word sendable]
      rfl
    exact parse_get tokens spelled
  | put key value =>
    rw [given] at sendable spelled
    obtain ⟨isKey, ⟨c, member, outside⟩, _⟩ := sendable
    obtain ⟨third, more, found⟩ := List.exists_cons_of_ne_nil (words_ne_nil member outside)
    have tokens : splitWs (request.spelling ++ 32 :: (key ++ 32 :: value)) =
        request.spelling :: key :: third :: more := by
      rw [splitWs_eq, words_append_sep _ _ blank, words_append_sep _ value blank, words_word spelling,
        words_word isKey, found]
      rfl
    have same := Session.putValue_two request.spelling key value (absent_of_isWord spelling blank)
      (absent_of_isWord isKey blank)
    exact (parse_put tokens spelled).trans (by rw [same])

end Request

/-- The commands that are carried out, in order, from a session with this `in_txn`. -/
def admitted : Bool → List Command → List Command
  | _, [] => []
  | inTxn, command :: rest =>
      (if command.admits inTxn then [command] else []) ++ admitted (command.after inTxn) rest

def answers : Bool → List (Command × Results) → List Bytes
  | _, [] => []
  | inTxn, (command, results) :: rest =>
      command.answer inTxn results :: answers (command.after inTxn) rest

theorem serve_request {s : Session} (agrees : Agrees s) (live : s.running = true) {request : Request}
    {rest : Bytes} (input : s.input = request.line ++ rest) (results : Results) :
    ∃ next, serve s results = some next ∧ Agrees next ∧ next.running = true ∧ next.input = rest ∧
      next.inTxn = request.command.after s.inTxn ∧
      calls next.log = calls s.log ++ (if request.command.admits s.inTxn then [request.command] else []) ∧
      replies next.log = replies s.log ++ [request.command.answer s.inTxn results] := by
  have taken : serve s results = some (s.iterate results) := by rw [serve, if_pos live]
  have step : s.iterate results = { s with input := rest }.dispatch request.body results := by
    rw [Session.iterate, input, request.readLine_line rest]
  have handled : Handled { s with input := rest } request.command results (s.iterate results) := by
    rw [step]
    exact Handled.dispatch (agrees.withInput rest).flag request.parse_body results
  exact ⟨_, taken, agrees.iterate live results, handled.running.trans live, handled.exchanged.input,
    handled.inTxn, handled.exchanged.calls, handled.exchanged.replies⟩

theorem serve_requests (requests : List Request) {s : Session} (agrees : Agrees s) (live : s.running = true)
    {rest : Bytes} (input : s.input = requests.flatMap Request.line ++ rest) {results : List Results}
    (paired : results.length = requests.length) :
    ∃ next, play serve s results = some next ∧ next.running = true ∧ next.input = rest ∧
      calls next.log = calls s.log ++ admitted s.inTxn (requests.map Request.command) ∧
      replies next.log =
        replies s.log ++ answers s.inTxn ((requests.map Request.command).zip results) := by
  induction requests generalizing s results with
  | nil =>
    cases List.length_eq_zero_iff.mp paired
    exact ⟨s, rfl, live, input, (List.append_nil _).symm, (List.append_nil _).symm⟩
  | cons request requests ih =>
    obtain ⟨first, later, rfl⟩ : ∃ first later, results = first :: later :=
      List.exists_cons_of_length_eq_add_one paired
    rw [List.flatMap_cons, List.append_assoc] at input
    obtain ⟨middle, taken, agrees', live', input', inTxn, called, said⟩ :=
      serve_request agrees live input first
    obtain ⟨next, played, live'', input'', called', said'⟩ :=
      ih agrees' live' input' (Nat.succ.inj paired)
    refine ⟨next, by rw [play, taken]; exact played, live'', input'', ?_, ?_⟩
    · rw [called', called, inTxn, List.append_assoc]
      rfl
    · rw [said', said, inTxn, List.append_assoc]
      rfl

/-- A single line: its one newline ends it. -/
def IsLine (text : Bytes) : Prop := text.getLast? = some 10 ∧ text.count 10 = 1

instance (text : Bytes) : Decidable (IsLine text) := inferInstanceAs (Decidable (_ ∧ _))

theorem isLine_framed (before : Bytes) {middle : Bytes} (noLf : before.count 10 = 0) (clean : 10 ∉ middle) :
    IsLine (before ++ middle ++ bytes "\n") := by
  refine ⟨by rw [List.getLast?_append]; rfl, ?_⟩
  rw [List.count_append, List.count_append, noLf, List.count_eq_zero.mpr clean]
  rfl

theorem newline_not_digits (n : Nat) : 10 ∉ bytes (toString n) := by
  intro member
  have isDigit := digit_of_mem member
  exact absurd isDigit.1 (by decide)

/-- Whether a line asks to leave. -/
def leaves (line : Bytes) : Bool :=
  match splitWs line with
  | [] => false
  | word :: _ => upper word = bytes "END" ∨ upper word = bytes "QUIT" ∨ upper word = bytes "EXIT"

/-- From `s` to `next` the session gave one reply, a single line, and read nothing. -/
structure Replied (s next : Session) : Prop where
  line : ∃ text, replies next.log = replies s.log ++ [text] ∧ IsLine text
  input : next.input = s.input

namespace Replied

variable {s : Session}

theorem of_exchanged {called : List Command} {text : Bytes} {next : Session}
    (exchanged : Exchanged s called [text] next) (isLine : IsLine text) : Replied s next :=
  ⟨⟨text, exchanged.replies, isLine⟩, exchanged.input⟩

theorem sendAll (s : Session) {text : Bytes} (isLine : IsLine text) : Replied s (s.sendAll text) :=
  of_exchanged (Exchanged.sendAll s text) isLine

theorem start (s : Session) (results : Results) : Replied s (s.start results) := by
  unfold Session.start
  split
  · exact sendAll s (by decide)
  · exact of_exchanged (((Exchanged.beginTxn s results).withState _ _ _).andSend _)
      (isLine_framed _ (by decide) (newline_not_digits _))

theorem doGet (s : Session) (parts : List Bytes) {results : Results} (clean : 10 ∉ results.value) :
    Replied s (s.doGet parts results) := by
  unfold Session.doGet
  split
  · split
    next key =>
      have asked := Exchanged.get s key results
      dsimp only
      split
      · exact of_exchanged (asked.andSend _) (isLine_framed _ (by decide) clean)
      · exact of_exchanged (asked.andSend _) (by decide)
      · exact of_exchanged ((asked.withState _ _ _).andSend _) (by decide)
      · exact of_exchanged (asked.andSend _) (by decide)
    next => exact sendAll s (by decide)
  · exact sendAll s (by decide)

theorem doPut (s : Session) (line : Bytes) (parts : List Bytes) (results : Results) :
    Replied s (s.doPut line parts results) := by
  unfold Session.doPut
  split
  · split
    next key _ _ =>
      have asked := Exchanged.put s key (Session.putValue line) results
      dsimp only
      split
      · exact of_exchanged (asked.andSend _) (by decide)
      · exact of_exchanged ((asked.withState _ _ _).andSend _) (by decide)
      · exact of_exchanged (asked.andSend _) (by decide)
    next => exact sendAll s (by decide)
  · exact sendAll s (by decide)

theorem doCommit (s : Session) (results : Results) : Replied s (s.doCommit results) := by
  have asked := (Exchanged.commit s results).withState
  unfold Session.doCommit
  split
  · dsimp only
    split <;> exact of_exchanged ((asked _ _ _).andSend _) (by decide)
  · exact sendAll s (by decide)

theorem doAbort (s : Session) : Replied s s.doAbort := by
  unfold Session.doAbort
  split
  · exact of_exchanged (((Exchanged.abortTxn s).withState _ _ _).andSend _) (by decide)
  · exact sendAll s (by decide)

theorem quit (s : Session) : Replied s s.quit :=
  of_exchanged (((Exchanged.abandon s).andSend _).withState _ _ _) (by decide)

theorem dispatch (s : Session) (line : Bytes) {results : Results} (clean : 10 ∉ results.value) :
    Replied s (s.dispatch line results) := by
  unfold Session.dispatch
  split
  next => exact sendAll s (by decide)
  next word rest _ =>
    dsimp only
    split
    · exact start s results
    split
    · exact doGet s _ clean
    split
    · exact doPut s line _ results
    split
    · exact doCommit s results
    split
    · exact doAbort s
    split
    · exact quit s
    · exact sendAll s (by decide)

end Replied

namespace Session

variable (s : Session)

theorem running_start (results : Results) : (s.start results).running = s.running := by
  unfold start
  split <;> rfl

theorem running_get (key : Bytes) (results : Results) : (s.get key results).2.running = s.running := by
  unfold get
  split <;> rfl

theorem running_put (key value : Bytes) (results : Results) :
    (s.put key value results).2.running = s.running := by
  unfold put
  split <;> rfl

theorem running_commit (results : Results) : (s.commit results).2.running = s.running := by
  unfold commit
  dsimp only
  split <;> rfl

theorem running_abortTxn : s.abortTxn.2.running = s.running := by
  unfold abortTxn
  dsimp only
  split <;> rfl

theorem running_doGet (parts : List Bytes) (results : Results) :
    (s.doGet parts results).running = s.running := by
  unfold doGet
  split
  · split
    · dsimp only
      split <;> exact running_get s _ results
    · rfl
  · rfl

theorem running_doPut (line : Bytes) (parts : List Bytes) (results : Results) :
    (s.doPut line parts results).running = s.running := by
  unfold doPut
  split
  · split
    · dsimp only
      split <;> exact running_put s _ _ results
    · rfl
  · rfl

theorem running_doCommit (results : Results) : (s.doCommit results).running = s.running := by
  unfold doCommit
  split
  · dsimp only
    split <;> exact running_commit s results
  · rfl

theorem running_doAbort : s.doAbort.running = s.running := by
  unfold doAbort
  split
  · exact running_abortTxn s
  · rfl

theorem running_dispatch (live : s.running = true) (line : Bytes) (results : Results) :
    (s.dispatch line results).running = !leaves line := by
  unfold dispatch leaves
  cases splitWs line with
  | nil => exact live
  | cons word rest =>
    dsimp only
    have others : ∀ cmd ∈ [bytes "START", bytes "GET", bytes "PUT", bytes "COMMIT", bytes "ABORT"],
        ¬ (cmd = bytes "END" ∨ cmd = bytes "QUIT" ∨ cmd = bytes "EXIT") := by decide
    split
    next same => rw [same, decide_eq_false (others _ (by decide)), running_start, live]; rfl
    split
    next same => rw [same, decide_eq_false (others _ (by decide)), running_doGet, live]; rfl
    split
    next same => rw [same, decide_eq_false (others _ (by decide)), running_doPut, live]; rfl
    split
    next same => rw [same, decide_eq_false (others _ (by decide)), running_doCommit, live]; rfl
    split
    next same => rw [same, decide_eq_false (others _ (by decide)), running_doAbort, live]; rfl
    split
    next leaving => rw [decide_eq_true leaving]; rfl
    next staying => rw [decide_eq_false staying]; exact live

end Session

/-- An iteration of the loop reads one line and replies to it, or ends the session without a word. -/
theorem iterate_replies {s : Session} (live : s.running = true) {results : Results}
    (clean : 10 ∉ results.value) :
    ∃ eaten texts, s.input = eaten ++ (s.iterate results).input ∧
      replies (s.iterate results).log = replies s.log ++ texts ∧ texts.length = eaten.count 10 ∧
      (∀ text ∈ texts, IsLine text) ∧
      ((s.iterate results).running = true ↔
        ∃ line rest, readLine [] s.input = (some line, rest) ∧ leaves line = false) := by
  obtain ⟨eaten, whole, count⟩ := readLine_consumes [] s.input
  unfold Session.iterate
  split
  next rest read =>
    rw [read] at whole count
    refine ⟨eaten, [], whole, ?_, by rw [count]; rfl, List.forall_mem_nil _, ?_⟩
    · exact (Exchanged.abandon s).replies
    · rw [read]
      constructor
      · intro stopped
        cases stopped
      · rintro ⟨line, _, same, _⟩
        cases same
  next line rest read =>
    rw [read] at whole count
    obtain ⟨⟨text, said, isLine⟩, input⟩ := Replied.dispatch { s with input := rest } line clean
    refine ⟨eaten, [text], by rw [input]; exact whole, said, by rw [count]; rfl, ?_, ?_⟩
    · intro other member
      rw [List.mem_singleton.mp member]
      exact isLine
    · rw [Session.running_dispatch { s with input := rest } live line results, read]
      constructor
      · intro staying
        exact ⟨line, rest, rfl, by simpa using staying⟩
      · rintro ⟨_, _, same, staying⟩
        cases same
        rw [staying]
        rfl

theorem replies_run {input : Bytes} {trace : List Results} {s : Session}
    (run : Run Serve (fun _ _ results => 10 ∉ results.value) (connected input) trace s) :
    ∃ consumed texts, input = consumed ++ s.input ∧
      replies s.log = bytes "WELCOME DataAgentDB\n" :: texts ∧ texts.length = consumed.count 10 ∧
      ∀ text ∈ texts, IsLine text := by
  refine run.invariant (fun _ s => ∃ consumed texts, input = consumed ++ s.input ∧
    replies s.log = bytes "WELCOME DataAgentDB\n" :: texts ∧ texts.length = consumed.count 10 ∧
    ∀ text ∈ texts, IsLine text) ⟨[], [], rfl, rfl, rfl, fun _ member => nomatch member⟩ ?_
  intro _ s results next held clean taken
  obtain ⟨consumed, texts, whole, said, count, lines⟩ := held
  unfold Serve serve at taken
  split at taken
  next live =>
    cases taken
    obtain ⟨eaten, more, whole', said', count', lines', _⟩ := iterate_replies live clean
    refine ⟨consumed ++ eaten, texts ++ more, ?_, ?_, ?_, ?_⟩
    · rw [List.append_assoc, ← whole', ← whole]
    · rw [said', said, List.cons_append]
    · rw [List.length_append, List.count_append, count, count']
    · intro text member
      rcases List.mem_append.mp member with earlier | later
      · exact lines text earlier
      · exact lines' text later
  next => cases taken

/-- The wire format. Commands written with single spaces, in any case and with either line end,
are read back and dispatched as themselves, and those the transaction state admits reach kv_api;
and whatever a client sends, each complete line gets one line back until the client leaves. -/
theorem wire_format :
    (∀ (requests : List Request) (rest : Bytes) (results : List Results),
      results.length = requests.length →
      (∀ request ∈ requests, ∀ later, readLine [] (request.line ++ later) = (some request.body, later) ∧
        parse request.body = some request.command) ∧
      ∃ s, play serve (connected (requests.flatMap Request.line ++ rest)) results = some s ∧
        s.running = true ∧ s.input = rest ∧
        calls s.log = admitted false (requests.map Request.command) ∧
        replies s.log = bytes "WELCOME DataAgentDB\n" ::
          answers false ((requests.map Request.command).zip results)) ∧
    ∀ (input : Bytes) (trace : List Results) (s : Session),
      Run Serve (fun _ _ results => 10 ∉ results.value) (connected input) trace s →
      (∃ consumed texts, input = consumed ++ s.input ∧
        replies s.log = bytes "WELCOME DataAgentDB\n" :: texts ∧ texts.length = consumed.count 10 ∧
        ∀ text ∈ texts, IsLine text) ∧
      ∀ results next, 10 ∉ results.value → serve s results = some next →
        (next.running = true ↔ ∃ line rest, readLine [] s.input = (some line, rest) ∧ leaves line = false) := by
  refine ⟨?_, ?_⟩
  · intro requests rest results paired
    refine ⟨fun request _ later => ⟨request.readLine_line later, request.parse_body⟩, ?_⟩
    exact serve_requests requests (connected_agrees _) rfl rfl paired
  · intro input trace s run
    refine ⟨replies_run run, ?_⟩
    intro results next clean taken
    unfold serve at taken
    split at taken
    next live =>
      cases taken
      obtain ⟨_, _, _, _, _, _, stays⟩ := iterate_replies live clean
      exact stays
    next => cases taken

/-- Commands in several spellings, with a value that begins and ends with blanks. -/
theorem wire_format_spellings :
    ∃ s, play serve (connected (bytes "start\r\nPUT k  a b \nGet k\nABORT\nEND"))
        (List.replicate 4 ⟨7, 1, .RCOK, bytes " a b ", .RCOK, .RCOK⟩) = some s ∧
      calls s.log = [.start, .put (bytes "k") (bytes " a b "), .get (bytes "k"), .abort] ∧
      replies s.log = [bytes "WELCOME DataAgentDB\n", bytes "OK TXN 1\n", bytes "OK\n",
        bytes "OK VALUE  a b \n", bytes "OK ABORT\n"] := by
  have isKey : IsWord isSpace (bytes "k") := isWord_of_all (by decide) (by decide)
  let requests : List Request :=
    [⟨.start, bytes "start", [13, 10], by decide, .inr rfl, trivial, by decide⟩,
     ⟨.put (bytes "k") (bytes " a b "), bytes "PUT", [10], by decide, .inl rfl,
       ⟨isKey, ⟨97, by decide, by decide⟩, by decide, by decide⟩, by decide⟩,
     ⟨.get (bytes "k"), bytes "Get", [10], by decide, .inl rfl, isKey, by decide⟩,
     ⟨.abort, bytes "ABORT", [10], by decide, .inl rfl, trivial, by decide⟩]
  obtain ⟨_, s, played, _, _, called, said⟩ := wire_format.1 requests (bytes "END")
    (List.replicate 4 ⟨7, 1, .RCOK, bytes " a b ", .RCOK, .RCOK⟩) rfl
  exact ⟨s, played, called, said⟩

end DataAgentDB.Server
