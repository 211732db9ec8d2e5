import DataAgentDB.Client.Worker
import Mathlib.Algebra.Group.Nat.Defs
import Mathlib.Data.List.Induction

/-! Whether client and server agree on the open transaction. The worker abandons a transaction
with a command that the server does not know. -/

namespace DataAgentDB.Client
open Storage Server Words

section
variable (py : Python)

theorem foldl_decimal_lt (token : List Char) (n k : Nat) (low : n < 10 ^ k) :
    token.foldl (fun n c => 10 * n + (py.decimal c).getD 0) n < 10 ^ (k + token.length) := by
  induction token generalizing n k with
  | nil => exact low
  | cons c token ih =>
    have small : (py.decimal c).getD 0 < 10 := by
      cases value : py.decimal c with
      | none => decide
      | some d => exact py.decimal_lt c d value
    have next : 10 * n + (py.decimal c).getD 0 < 10 ^ (k + 1) := by
      rw [Nat.pow_succ]
      omega
    have rest := ih _ (k + 1) next
    rw [List.length_cons, show k + (token.length + 1) = k + 1 + token.length by omega]
    exact rest

theorem digits_lt {token : List Char} {n : Nat} (parsed : digits py token = some n) :
    n < 10 ^ token.length := by
  unfold digits at parsed
  dsimp only at parsed
  split at parsed
  next =>
    cases parsed
    have bound := foldl_decimal_lt py (token.filter (fun c => c ≠ '_')) 0 0 (by decide)
    rw [Nat.zero_add] at bound
    exact Nat.lt_of_lt_of_le bound (Nat.pow_le_pow_right (by decide) (List.length_filter_le _ _))
  next => cases parsed

theorem int_lt {token : List Char} {n : Int} (parsed : int py token = some n) :
    n.natAbs < 10 ^ token.length := by
  have longer : ∀ rest : List Char, 10 ^ rest.length ≤ 10 ^ (rest.length + 1) :=
    fun rest => Nat.pow_le_pow_right (by decide) (Nat.le_succ _)
  unfold int at parsed
  split at parsed
  next rest =>
    obtain ⟨m, found, rfl⟩ := Option.map_eq_some_iff.mp parsed
    exact Nat.lt_of_lt_of_le (digits_lt py found) (longer rest)
  next rest =>
    obtain ⟨m, found, rfl⟩ := Option.map_eq_some_iff.mp parsed
    rw [Int.natAbs_neg]
    exact Nat.lt_of_lt_of_le (digits_lt py found) (longer rest)
  next =>
    obtain ⟨m, found, rfl⟩ := Option.map_eq_some_iff.mp parsed
    exact digits_lt py found

theorem length_normalize_le (s : List Char) : (normalize s).length ≤ s.length := by
  unfold normalize
  rw [List.length_reverse]
  calc ((s.dropWhile isWhite).reverse.dropWhile isWhite).length
      ≤ (s.dropWhile isWhite).reverse.length := List.length_dropWhile_le _ _
    _ = (s.dropWhile isWhite).length := List.length_reverse
    _ ≤ s.length := List.length_dropWhile_le _ _

theorem parseIntFromResp_lt {resp : List Char} {n : Int} (parsed : parseIntFromResp py resp = some n) :
    n.natAbs < 10 ^ resp.length := by
  obtain ⟨token, member, found⟩ := List.exists_of_findSome?_eq_some parsed
  have short := length_le_of_mem (List.mem_reverse.mp member)
  have short' := length_normalize_le resp
  exact Nat.lt_of_lt_of_le (int_lt py found) (Nat.pow_le_pow_right (by decide) (by omega))

end

/-- The numeral of an integer is a sign at most, and the digits of its absolute value. -/
theorem bytes_toString_int (n : Int) :
    ∃ sign, (sign = [] ∨ sign = [45]) ∧ bytes (toString n) = sign ++ bytes (toString n.natAbs) := by
  cases n with
  | ofNat m => exact ⟨[], .inl rfl, rfl⟩
  | negSucc m => exact ⟨[45], .inr rfl, by simp [bytes, toString, Int.repr]⟩

theorem isWord_numeral (n : Int) : IsWord isSpace (bytes (toString n)) := by
  obtain ⟨sign, isSign, split⟩ := bytes_toString_int n
  rw [split]
  constructor
  · intro empty
    have none_left : bytes (toString n.natAbs) = [] := (List.append_eq_nil_iff.mp empty).2
    have written : (toString n.natAbs).toList = Nat.toDigits 10 n.natAbs := Nat.toList_repr
    rw [bytes, List.map_eq_nil_iff, written] at none_left
    exact Nat.toDigits_ne_nil none_left
  · intro c member
    have visible : ¬ isSpace c = true := by
      rw [isSpace_iff]
      rcases List.mem_append.mp member with inSign | inDigits
      · rcases isSign with rfl | rfl
        · cases inSign
        · rw [List.mem_singleton.mp inSign]
          decide
      · have isDigit := digit_of_mem inDigits
        omega
    exact Bool.eq_false_iff.mpr visible

theorem length_numeral_le (n : Int) {k : Nat} (low : n.natAbs < 10 ^ k) (positive : 0 < k) :
    (bytes (toString n)).length ≤ k + 1 := by
  obtain ⟨sign, isSign, split⟩ := bytes_toString_int n
  have written : (toString n.natAbs).toList = Nat.toDigits 10 n.natAbs := Nat.toList_repr
  have short := (Nat.length_toDigits_le_iff (by decide) positive).mpr low
  have signed : sign.length ≤ 1 := by rcases isSign with rfl | rfl <;> decide
  rw [split, List.length_append, bytes, List.length_map, written]
  omega

section
variable (py : Python)

theorem decode_bytes (text : Bytes) (ascii : text.all (fun c => decide (c < 128)) = true) :
    py.decode text = text.map (fun c => Char.ofNat c.toNat) :=
  py.decode_ascii text (fun c member => of_decide_eq_true (List.all_eq_true.mp ascii c member))

theorem isOk_of_ok (rest : List Char) : isOk ('O' :: 'K' :: rest) = true := by
  have kept : ∃ tail, normalize ('O' :: 'K' :: rest) = 'O' :: 'K' :: tail := by
    unfold normalize
    have front : ('O' :: 'K' :: rest).dropWhile isWhite = ['O', 'K'] ++ rest :=
      List.dropWhile_cons_of_neg (by decide)
    rw [front, List.reverse_append]
    have visible : (['O', 'K'] : List Char).reverse.dropWhile isWhite = ['K', 'O'] := by decide
    by_cases blank : ∀ c ∈ rest.reverse, isWhite c = true
    · rw [List.dropWhile_append_of_pos blank, visible]
      exact ⟨[], rfl⟩
    · rw [List.dropWhile_append, if_neg]
      · exact ⟨(rest.reverse.dropWhile isWhite).reverse, by simp⟩
      · intro empty
        exact blank (by simpa [List.dropWhile_eq_nil_iff] using empty)
  obtain ⟨tail, kept⟩ := kept
  rw [isOk, kept]
  rfl

theorem isOk_start (id : Nat) : isOk (py.decode (bytes "OK TXN " ++ bytes (toString id))) = true := by
  have digits : (bytes (toString id)).all (fun c => decide (c < 128)) = true := by
    rw [List.all_eq_true]
    intro c member
    have bound := digit_of_mem member
    rw [decide_eq_true_eq, UInt8.lt_iff_toNat_lt]
    change c.toNat < 128
    omega
  have fixed : (bytes "OK TXN ").all (fun c => decide (c < 128)) = true := by decide
  have ascii : (bytes "OK TXN " ++ bytes (toString id)).all (fun c => decide (c < 128)) = true := by
    rw [List.all_append, fixed, digits]
    rfl
  rw [decode_bytes py _ ascii]
  exact isOk_of_ok _

theorem digits_eq_none {token group : List Char} {c : Char} (listed : group ∈ token.splitOn '_')
    (member : c ∈ group) (odd : py.decimal c = none) : digits py token = none := by
  unfold digits
  dsimp only
  rw [if_neg]
  intro all
  have whole := List.all_eq_true.mp all group listed
  rw [Bool.and_eq_true, List.all_eq_true] at whole
  have known := whole.2 c member
  rw [odd] at known
  cases known

/-- A token of ASCII text without a sign, with a letter in it, is no integer. -/
theorem int_eq_none {token : List Char} (unsigned : token.head? ≠ some '+' ∧ token.head? ≠ some '-')
    (group : List Char) (c : Char) (listed : group ∈ token.splitOn '_')
    (odd : c ∈ group ∧ c.toNat < 128 ∧ c.isDigit = false) : int py token = none := by
  obtain ⟨member, ascii, notDigit⟩ := odd
  have letter : py.decimal c = none := by
    rw [py.decimal_ascii c ascii, notDigit]
    rfl
  have plain : int py token = (digits py token).map Int.ofNat := by
    unfold int
    split
    next => exact absurd rfl unsigned.1
    next => exact absurd rfl unsigned.2
    next => rfl
  rw [plain, digits_eq_none py listed member letter]
  rfl

theorem parseIntFromResp_notFound : parseIntFromResp py (py.decode (bytes "ERR NOT_FOUND")) = none := by
  have tokens : words isWhite (normalize ((bytes "ERR NOT_FOUND").map (fun c => Char.ofNat c.toNat))) =
      ["ERR".toList, "NOT_FOUND".toList] := by decide
  have first : int py "ERR".toList = none := int_eq_none py (by decide) "ERR".toList 'R' (by decide) (by decide)
  have second : int py "NOT_FOUND".toList = none := int_eq_none py (by decide) "NOT".toList 'N' (by decide) (by decide)
  rw [decode_bytes py _ (by decide), parseIntFromResp, tokens]
  simp only [List.reverse_cons, List.reverse_nil, List.nil_append, List.cons_append,
    List.findSome?_cons, List.findSome?_nil, first, second]

end

/-- A client between two requests: connected, with nothing in flight. -/
structure Synced (link : Link) : Prop where
  agrees : Agrees link.session
  live : link.session.running = true
  input : link.session.input = []
  buf : link.buf = []

section
variable (py : Python)

theorem readline_framed (session : Session) {text : Bytes} (clean : 10 ∉ text) :
    ({ session := session, buf := text ++ [10] } : Link).readline py =
      (some (py.decode text), { session := session, buf := [] }) := by
  have other : ∀ c ∈ text, decide (c ≠ 10) = true := by
    intro c member
    have apart : c ≠ 10 := fun same => clean (same ▸ member)
    simpa using apart
  have front : (text ++ [10]).takeWhile (fun c => c ≠ 10) = text := by
    rw [List.takeWhile_append_of_pos other]
    simp
  have back : (text ++ [10]).dropWhile (fun c => c ≠ 10) = [10] := by
    rw [List.dropWhile_append_of_pos other]
    rfl
  have present : 10 ∈ text ++ [10] := by simp
  simp only [Link.readline, if_pos present, front, back]
  rfl

/-- A request whose line the server answers with one line. -/
theorem request_turn {link : Link} (synced : Synced link) {cmd body text : Bytes} {results : Results}
    {next : Session} (read : readLine [] cmd = (some body, []))
    (step : { link.session with input := [] }.dispatch body results = next)
    (said : replies next.log = replies link.session.log ++ [text ++ [10]]) (clean : 10 ∉ text)
    (live : next.running = true) (input : next.input = []) :
    link.request py cmd results = (some (py.decode text), { session := next, buf := [] }) ∧
      Synced { session := next, buf := [] } := by
  have iterated : { link.session with input := link.session.input ++ cmd }.iterate results = next := by
    rw [Session.iterate, synced.input, List.nil_append, read]
    exact step
  have served : serve { link.session with input := link.session.input ++ cmd } results = some next := by
    rw [serve, if_pos synced.live, iterated]
  have delivered : Link.sent { link.session with input := link.session.input ++ cmd } next = text ++ [10] := by
    rw [Link.sent, said, List.drop_left]
    exact List.append_nil _
  constructor
  · simp only [Link.request, served, delivered, synced.buf, List.nil_append]
    exact readline_framed py next clean
  · refine ⟨?_, live, input, rfl⟩
    rw [← step]
    exact (synced.agrees.withInput []).dispatch synced.live body results

/-- A command's request: its answer comes back, and the session moves as the command does. -/
theorem request_command {link : Link} (synced : Synced link) (request : Request)
    (results : Results) {text : Bytes}
    (answered : request.command.answer link.session.inTxn results = text ++ [10]) (clean : 10 ∉ text) :
    ∃ next, link.request py request.line results = (some (py.decode text), next) ∧ Synced next ∧
      next.session.inTxn = request.command.after link.session.inTxn ∧
      replies next.session.log = replies link.session.log ++ [text ++ [10]] := by
  have read := request.readLine_line []
  rw [List.append_nil] at read
  have handled := Handled.dispatch (s := { link.session with input := [] })
    (synced.agrees.withInput []).flag request.parse_body results
  have said := handled.exchanged.replies
  rw [answered] at said
  obtain ⟨asked, synced'⟩ := request_turn py synced read rfl said clean
    (handled.running.trans synced.live) handled.exchanged.input
  exact ⟨_, asked, synced', handled.inTxn, said⟩

/-- `ROLLBACK` is no command of the server: the transaction stays as it is. -/
theorem request_rollback {link : Link} (synced : Synced link) (results : Results) :
    ∃ next, link.request py cmdRollback results = (some (py.decode (bytes "ERR BAD_CMD")), next) ∧
      Synced next ∧ next.session.inTxn = link.session.inTxn ∧
      replies next.session.log = replies link.session.log ++ [bytes "ERR BAD_CMD\n"] := by
  have read : readLine [] cmdRollback = (some (bytes "ROLLBACK"), []) := by decide
  have unknown : { link.session with input := [] }.dispatch (bytes "ROLLBACK") results =
      { link.session with input := [] }.sendAll (bytes "ERR BAD_CMD\n") := by
    have tokens : splitWs (bytes "ROLLBACK") = [bytes "ROLLBACK"] := by decide
    simp only [Session.dispatch, tokens]
    rw [if_neg (by decide), if_neg (by decide), if_neg (by decide), if_neg (by decide), if_neg (by decide),
      if_neg (by decide)]
  have said : replies ({ link.session with input := [] }.sendAll (bytes "ERR BAD_CMD\n")).log =
      replies link.session.log ++ [bytes "ERR BAD_CMD" ++ [10]] := (Exchanged.sendAll _ _).replies
  obtain ⟨asked, synced'⟩ := request_turn py synced read unknown said (by decide) synced.live rfl
  exact ⟨_, asked, synced', rfl, said⟩

def startRequest : Request :=
  ⟨.start, bytes "START", [10], by decide, .inl rfl, trivial, by decide⟩

def commitRequest : Request :=
  ⟨.commit, bytes "COMMIT", [10], by decide, .inl rfl, trivial, by decide⟩

theorem hotKey_isWord (i : Fin hotKeys) : IsWord isSpace (hotKey i) := by
  have all : ∀ i : Fin hotKeys, (hotKey i).isEmpty = false ∧
      (hotKey i).all (fun c => !isSpace c) = true := by decide
  exact isWord_of_all (all i).1 (all i).2

theorem hotKey_length (i : Fin hotKeys) : (hotKey i).length = 6 := by
  revert i
  decide

def getRequest (i : Fin hotKeys) : Request where
  command := .get (hotKey i)
  spelling := bytes "GET"
  eol := [10]
  spelled := show upper (bytes "GET") = bytes "GET" by decide
  ended := .inl rfl
  sendable := hotKey_isWord i
  short := by
    have length := hotKey_length i
    simp [Command.operands, List.intercalate, length, bytes]

def putRequest (i : Fin hotKeys) (n : Int) (short : (bytes (toString n)).length ≤ 2000) : Request where
  command := .put (hotKey i) (bytes (toString n))
  spelling := bytes "PUT"
  eol := [10]
  spelled := show upper (bytes "PUT") = bytes "PUT" by decide
  ended := .inl rfl
  sendable := by
    have isWord := isWord_numeral n
    obtain ⟨c, member⟩ := List.exists_mem_of_ne_nil _ isWord.nonempty
    exact ⟨hotKey_isWord i, ⟨c, member, isWord.inside c member⟩, absent_of_isWord isWord rfl,
      absent_of_isWord isWord rfl⟩
  short := by
    have length := hotKey_length i
    simp only [Command.operands, List.intercalate, List.intersperse, List.flatten_cons, List.flatten_nil,
      List.length_append, List.length_cons, List.length_nil, length]
    have put : (bytes "PUT").length = 3 := by decide
    omega

theorem getRequest_line (i : Fin hotKeys) : (getRequest i).line = cmdGet (hotKey i) := by
  simp [Request.line, Request.body, getRequest, Command.operands, List.intercalate, cmdGet, bytes]

theorem putRequest_line (i : Fin hotKeys) (n : Int) (short : (bytes (toString n)).length ≤ 2000) :
    (putRequest i n short).line = cmdPut (hotKey i) (bytes (toString n)) := by
  simp [Request.line, Request.body, putRequest, Command.operands, List.intercalate, cmdPut, bytes]

/-- An iteration in which the worker never abandons its transaction: `GET` finds a value with a
number in it, and `PUT` is accepted. -/
def Smooth (round : Round) : Prop :=
  round.get.read = .RCOK ∧
    (parseIntFromResp py (py.decode (bytes "OK VALUE " ++ round.get.value))).isSome = true ∧
    round.put.write = .RCOK

instance (round : Round) : Decidable (Smooth py round) := inferInstanceAs (Decidable (_ ∧ _ ∧ _))

/-- The reply of a session that is in a transaction already. -/
def alreadyStarted : Bytes := bytes "ERR TXN_ALREADY_STARTED\n"

/-- From `link` to `next` the client got replies, none of them that a transaction is open. -/
def Told (link next : Link) : Prop :=
  ∃ said, replies next.session.log = replies link.session.log ++ said ∧ alreadyStarted ∉ said

theorem Told.trans {link middle next : Link} (first : Told link middle) (second : Told middle next) :
    Told link next := by
  obtain ⟨before, said, clean⟩ := first
  obtain ⟨after, said', clean'⟩ := second
  refine ⟨before ++ after, by rw [said', said, List.append_assoc], ?_⟩
  intro member
  exact (List.mem_append.mp member).elim clean clean'

theorem Told.single {link next : Link} {text : Bytes} (other : text ≠ alreadyStarted)
    (said : replies next.session.log = replies link.session.log ++ [text]) : Told link next :=
  ⟨[text], said, fun member => other (List.mem_singleton.mp member).symm⟩

theorem ne_alreadyStarted (rest : Bytes) : bytes "OK " ++ rest ≠ alreadyStarted := by
  intro same
  have head : (bytes "OK " ++ rest).head? = some 79 := rfl
  rw [same] at head
  exact absurd head (by decide)

theorem start_told {link : Link} (synced : Synced link) (closed : link.session.inTxn = false)
    (results : Results) :
    ∃ r next, link.request py cmdStart results = (some r, next) ∧ isOk r = true ∧ Synced next ∧
      next.session.inTxn = true ∧ Told link next := by
  have answered : Command.start.answer link.session.inTxn results =
      bytes "OK TXN " ++ bytes (toString results.id) ++ [10] := by rw [closed]; rfl
  have clean : 10 ∉ bytes "OK TXN " ++ bytes (toString results.id) := by
    intro member
    rcases List.mem_append.mp member with fixed | isDigit
    · exact absurd fixed (by decide)
    · exact newline_not_digits _ isDigit
  obtain ⟨next, asked, synced', inTxn, said⟩ := request_command py synced startRequest results answered clean
  refine ⟨_, next, asked, isOk_start py results.id, synced', inTxn, Told.single ?_ said⟩
  exact ne_alreadyStarted (bytes "TXN " ++ bytes (toString results.id) ++ [10])

theorem get_told {link : Link} (synced : Synced link) (open_ : link.session.inTxn = true) (i : Fin hotKeys)
    (results : Results) (clean : 10 ∉ results.value) :
    ∃ r next, link.request py (cmdGet (hotKey i)) results = (some r, next) ∧ Synced next ∧
      next.session.inTxn = true ∧ Told link next ∧
      parseIntFromResp py r =
        if results.read = .RCOK then parseIntFromResp py (py.decode (bytes "OK VALUE " ++ results.value))
        else none := by
  rw [← getRequest_line]
  by_cases fine : results.read = .RCOK
  · have answered : (getRequest i).command.answer link.session.inTxn results =
        bytes "OK VALUE " ++ results.value ++ [10] := by
      simp only [getRequest, Command.answer, open_, if_pos fine, if_true]
      rfl
    have clean' : 10 ∉ bytes "OK VALUE " ++ results.value := by
      intro member
      exact (List.mem_append.mp member).elim (by decide) clean
    obtain ⟨next, asked, synced', inTxn, said⟩ := request_command py synced (getRequest i) results answered clean'
    refine ⟨_, next, asked, synced', inTxn.trans open_, Told.single ?_ said, by rw [if_pos fine]⟩
    exact ne_alreadyStarted (bytes "VALUE " ++ results.value ++ [10])
  · have answered : (getRequest i).command.answer link.session.inTxn results =
        bytes "ERR NOT_FOUND" ++ [10] := by
      simp only [getRequest, Command.answer, open_, if_neg fine, if_true]
      rfl
    obtain ⟨next, asked, synced', inTxn, said⟩ :=
      request_command py synced (getRequest i) results answered (by decide)
    refine ⟨_, next, asked, synced', inTxn.trans open_, Told.single (by decide) said, ?_⟩
    rw [if_neg fine, parseIntFromResp_notFound]

theorem put_told {link : Link} (synced : Synced link) (open_ : link.session.inTxn = true) (i : Fin hotKeys)
    (n : Int) (short : (bytes (toString n)).length ≤ 2000) (results : Results) :
    ∃ r next, link.request py (cmdPut (hotKey i) (bytes (toString n))) results = (some r, next) ∧
      Synced next ∧ next.session.inTxn = true ∧ Told link next ∧
      isOk r = decide (results.write = .RCOK) := by
  rw [← putRequest_line i n short]
  by_cases fine : results.write = .RCOK
  · have answered : (putRequest i n short).command.answer link.session.inTxn results = bytes "OK" ++ [10] := by
      simp only [putRequest, Command.answer, open_, if_pos fine, if_true]
      rfl
    obtain ⟨next, asked, synced', inTxn, said⟩ :=
      request_command py synced (putRequest i n short) results answered (by decide)
    refine ⟨_, next, asked, synced', inTxn.trans open_, Told.single (by decide) said, ?_⟩
    rw [decide_eq_true fine, decode_bytes py _ (by decide)]
    rfl
  · have answered : (putRequest i n short).command.answer link.session.inTxn results =
        bytes "ERR PUT_FAIL" ++ [10] := by
      simp only [putRequest, Command.answer, open_, if_neg fine, if_true]
      rfl
    obtain ⟨next, asked, synced', inTxn, said⟩ :=
      request_command py synced (putRequest i n short) results answered (by decide)
    refine ⟨_, next, asked, synced', inTxn.trans open_, Told.single (by decide) said, ?_⟩
    rw [decide_eq_false fine, decode_bytes py _ (by decide)]
    decide

theorem commit_told {link : Link} (synced : Synced link) (open_ : link.session.inTxn = true)
    (results : Results) :
    ∃ r next, link.request py cmdCommit results = (some r, next) ∧ Synced next ∧
      next.session.inTxn = false ∧ Told link next := by
  by_cases fine : results.finish = .RCOK ∨ results.finish = .Commit
  · have answered : Command.commit.answer link.session.inTxn results = bytes "OK COMMIT" ++ [10] := by
      simp only [Command.answer, open_, if_pos fine, if_true]
      rfl
    obtain ⟨next, asked, synced', inTxn, said⟩ :=
      request_command py synced commitRequest results answered (by decide)
    exact ⟨_, next, asked, synced', inTxn, Told.single (by decide) said⟩
  · have answered : Command.commit.answer link.session.inTxn results = bytes "ERR ABORT" ++ [10] := by
      simp only [Command.answer, open_, if_neg fine, if_true]
      rfl
    obtain ⟨next, asked, synced', inTxn, said⟩ :=
      request_command py synced commitRequest results answered (by decide)
    exact ⟨_, next, asked, synced', inTxn, Told.single (by decide) said⟩

theorem rollback_told {link : Link} (synced : Synced link) (results : Results) :
    ∃ r next, link.request py cmdRollback results = (some r, next) ∧ Synced next ∧
      next.session.inTxn = link.session.inTxn ∧ Told link next := by
  obtain ⟨next, asked, synced', inTxn, said⟩ := request_rollback py synced results
  exact ⟨_, next, asked, synced', inTxn, Told.single (by decide) said⟩

/-- The successor of a number read from a value fits the next request. -/
theorem numeral_short (round : Round) {cur : Int}
    (parsed : parseIntFromResp py (py.decode (bytes "OK VALUE " ++ round.get.value)) = some cur) :
    (bytes (toString (cur + 1))).length ≤ 2000 := by
  have bound := parseIntFromResp_lt py parsed
  have decoded := py.decode_length (bytes "OK VALUE " ++ round.get.value)
  have fits := round.fits
  have fixed : (bytes "OK VALUE ").length = 9 := by decide
  rw [List.length_append, fixed] at decoded
  generalize (py.decode (bytes "OK VALUE " ++ round.get.value)).length = width at bound decoded
  have next : (cur + 1).natAbs < 10 ^ (width + 1) := by
    have step : (cur + 1).natAbs ≤ cur.natAbs + 1 := Int.natAbs_add_le cur 1
    have power : 10 ^ (width + 1) = 10 ^ width * 10 := Nat.pow_succ 10 width
    omega
  have length := length_numeral_le (cur + 1) next (Nat.succ_pos width)
  omega

/-- An iteration that starts outside a transaction ends inside one unless it is smooth. -/
theorem iteration_closed {link : Link} (synced : Synced link) (closed : link.session.inTxn = false)
    (round : Round) :
    Synced (iteration py link round) ∧ Told link (iteration py link round) ∧
      (iteration py link round).session.inTxn = !decide (Smooth py round) := by
  obtain ⟨r, began, start, isOk_r, synced₁, open₁, told₁⟩ := start_told py synced closed round.start
  obtain ⟨got, read, get, synced₂, open₂, told₂, parse⟩ :=
    get_told py synced₁ open₁ round.key round.get round.oneLine
  cases parsed : parseIntFromResp py got with
  | none =>
    obtain ⟨rr, after, rollback, synced₃, open₃, told₃⟩ := rollback_told py synced₂ round.rollback
    have ends : iteration py link round = after := by
      simp only [iteration, attempt, start, isOk_r, if_true, get, parsed, rollback, Option.isNone_some]
    have rough : ¬ Smooth py round := by
      rintro ⟨fine, number, _⟩
      rw [parsed, if_pos fine] at parse
      rw [← parse] at number
      cases number
    rw [ends, decide_eq_false rough]
    exact ⟨synced₃, (told₁.trans told₂).trans told₃, open₃.trans open₂⟩
  | some cur =>
    have fine : round.get.read = .RCOK := by
      by_contra failed
      rw [parsed, if_neg failed] at parse
      cases parse
    rw [parsed, if_pos fine] at parse
    have short := numeral_short py round parse.symm
    obtain ⟨put, wrote, asked, synced₃, open₃, told₃, accepted⟩ :=
      put_told py synced₂ open₂ round.key (cur + 1) short round.put
    by_cases write : round.put.write = .RCOK
    · obtain ⟨c, after, commit, synced₄, closed₄, told₄⟩ := commit_told py synced₃ open₃ round.commit
      have ends : iteration py link round = after := by
        simp only [iteration, attempt, start, isOk_r, if_true, get, parsed, asked, accepted, decide_eq_true write,
          commit, Option.isNone_some]
      have smooth : Smooth py round := ⟨fine, by rw [← parse]; rfl, write⟩
      rw [ends, decide_eq_true smooth]
      exact ⟨synced₄, ((told₁.trans told₂).trans told₃).trans told₄, closed₄⟩
    · obtain ⟨rr, after, rollback, synced₄, open₄, told₄⟩ := rollback_told py synced₃ round.rollback
      have ends : iteration py link round = after := by
        simp only [iteration, attempt, start, isOk_r, if_true, get, parsed, asked, accepted, decide_eq_false write,
          rollback, Option.isNone_some]
        rfl
      have rough : ¬ Smooth py round := fun smooth => write smooth.2.2
      rw [ends, decide_eq_false rough]
      exact ⟨synced₄, ((told₁.trans told₂).trans told₃).trans told₄, open₄.trans open₃⟩

theorem connect_synced : Synced (connect py) := by
  have clean : 10 ∉ bytes "WELCOME DataAgentDB" := by decide
  have read := readline_framed py (connected []) clean
  have greeted : connect py = { session := connected [], buf := [] } := congrArg Prod.snd read
  rw [greeted]
  exact ⟨connected_agrees [], rfl, rfl, rfl⟩

theorem worker_snoc (rounds : List Round) (round : Round) :
    worker py (rounds ++ [round]) = iteration py (worker py rounds) round := by
  simp only [worker, List.foldl_append, List.foldl_cons, List.foldl_nil]

/-- Client and server in step: as an iteration starts, the server is outside a transaction, has
refused no `START`, and has finished every transaction it began. -/
structure InStep (link : Link) : Prop where
  closed : link.session.inTxn = false
  accepted : alreadyStarted ∉ replies link.session.log
  ended : link.session.log.countP Entry.begins = link.session.log.countP Entry.finishes

theorem ended_of_closed {link : Link} (synced : Synced link) (closed : link.session.inTxn = false) :
    link.session.log.countP Entry.begins = link.session.log.countP Entry.finishes := by
  have counted := lifecycle_count synced.agrees.history
  rw [synced.agrees.no_handle closed] at counted
  exact counted

theorem worker_smooth {rounds : List Round} (smooth : ∀ round ∈ rounds, Smooth py round) :
    Synced (worker py rounds) ∧ InStep (worker py rounds) := by
  induction rounds using List.reverseRecOn with
  | nil =>
    have synced := connect_synced py
    exact ⟨synced, rfl, show alreadyStarted ∉ [bytes "WELCOME DataAgentDB\n"] by decide,
      ended_of_closed synced rfl⟩
  | append_singleton rounds round ih =>
    obtain ⟨synced, inStep⟩ := ih (fun other member => smooth other (List.mem_append_left _ member))
    obtain ⟨synced', ⟨said, log, clean⟩, inTxn⟩ := iteration_closed py synced inStep.closed round
    rw [decide_eq_true (smooth round (by simp))] at inTxn
    rw [worker_snoc]
    refine ⟨synced', inTxn, ?_, ended_of_closed synced' inTxn⟩
    rw [log]
    intro member
    exact (List.mem_append.mp member).elim inStep.accepted clean

theorem inStep_iff_smooth (rounds : List Round) :
    (∀ done rest, rounds = done ++ rest → InStep (worker py done)) ↔ ∀ round ∈ rounds, Smooth py round := by
  constructor
  · intro inStep
    induction rounds using List.reverseRecOn with
    | nil => exact fun _ member => nomatch member
    | append_singleton rounds round ih =>
      have earlier := ih (fun done rest split => inStep done (rest ++ [round]) (by rw [split, List.append_assoc]))
      obtain ⟨synced, before⟩ := worker_smooth py earlier
      obtain ⟨_, _, inTxn⟩ := iteration_closed py synced before.closed round
      have after := (inStep (rounds ++ [round]) [] (List.append_nil _).symm).closed
      rw [worker_snoc, inTxn] at after
      intro other member
      rcases List.mem_append.mp member with old | new
      · exact earlier other old
      · rw [List.mem_singleton.mp new]
        simpa using after
  · intro smooth done rest split
    have before : ∀ round ∈ done, Smooth py round := fun round member =>
      smooth round (by rw [split]; exact List.mem_append_left _ member)
    exact (worker_smooth py before).2

/-- An iteration starts after the iterations of a list without its last. -/
theorem starts_iff {Holds : List Round → Prop} (begins : Holds []) (rounds : List Round) :
    (∀ done rest, rounds = done ++ rest → rest ≠ [] → Holds done) ↔
      ∀ done rest, rounds.dropLast = done ++ rest → Holds done := by
  constructor
  · intro starts done rest split
    rcases List.eq_nil_or_concat' rounds with rfl | ⟨front, last, rfl⟩
    · rw [(List.append_eq_nil_iff.mp split.symm).1]
      exact begins
    · rw [List.dropLast_concat] at split
      exact starts done (rest ++ [last]) (by rw [split, List.append_assoc]) (by simp)
  · rintro all done rest rfl later
    exact all done rest.dropLast (List.dropLast_append_of_ne_nil later)

/-- For every run of the worker and all results of the storage: client and server are in step at
the start of every iteration and after the last one exactly when no iteration abandons its transaction, and
at the start of every iteration exactly when no iteration but the last does. -/
theorem worker_inStep_iff (rounds : List Round) :
    ((∀ done rest, rounds = done ++ rest → InStep (worker py done)) ↔ ∀ round ∈ rounds, Smooth py round) ∧
    ((∀ done rest, rounds = done ++ rest → rest ≠ [] → InStep (worker py done)) ↔
      ∀ round ∈ rounds.dropLast, Smooth py round) := by
  refine ⟨inStep_iff_smooth py rounds, ?_⟩
  have none : ∀ round ∈ ([] : List Round), Smooth py round := fun _ member => absurd member List.not_mem_nil
  have begins : InStep (worker py []) := (worker_smooth py none).2
  exact (starts_iff begins rounds).trans (inStep_iff_smooth py rounds.dropLast)

theorem iteration_open {link : Link} (synced : Synced link) (open_ : link.session.inTxn = true)
    (round : Round) :
    Synced (iteration py link round) ∧ (iteration py link round).session.inTxn = true ∧
      replies (iteration py link round).session.log = replies link.session.log ++ [alreadyStarted] := by
  have answered : Command.start.answer link.session.inTxn round.start =
      bytes "ERR TXN_ALREADY_STARTED" ++ [10] := by rw [open_]; rfl
  obtain ⟨next, asked, synced', inTxn, said⟩ :=
    request_command py synced startRequest round.start answered (by decide)
  have refused : isOk (py.decode (bytes "ERR TXN_ALREADY_STARTED")) = false := by
    rw [decode_bytes py _ (by decide)]
    decide
  have start : link.request py cmdStart round.start =
      (some (py.decode (bytes "ERR TXN_ALREADY_STARTED")), next) := asked
  have ends : iteration py link round = next := by
    simp only [iteration, attempt, start, refused, Bool.false_eq_true, if_false]
  rw [ends]
  exact ⟨synced', inTxn, said⟩

/-- After the first abandoned transaction every further iteration has its `START` refused. -/
theorem worker_stuck {done : List Round} {round : Round} (smooth : ∀ earlier ∈ done, Smooth py earlier)
    (rough : ¬ Smooth py round) (rest : List Round) :
    replies (worker py (done ++ [round] ++ rest)).session.log =
      replies (worker py (done ++ [round])).session.log ++ List.replicate rest.length alreadyStarted := by
  have held : Synced (worker py (done ++ [round] ++ rest)) ∧
      (worker py (done ++ [round] ++ rest)).session.inTxn = true ∧
      replies (worker py (done ++ [round] ++ rest)).session.log =
        replies (worker py (done ++ [round])).session.log ++ List.replicate rest.length alreadyStarted := by
    induction rest using List.reverseRecOn with
    | nil =>
      obtain ⟨synced, inStep⟩ := worker_smooth py smooth
      obtain ⟨synced', _, inTxn⟩ := iteration_closed py synced inStep.closed round
      rw [List.append_nil, worker_snoc]
      exact ⟨synced', by rw [inTxn, decide_eq_false rough]; rfl, (List.append_nil _).symm⟩
    | append_singleton rest last ih =>
      obtain ⟨synced, open_, said⟩ := ih
      obtain ⟨synced', open', said'⟩ := iteration_open py synced open_ last
      rw [← List.append_assoc, worker_snoc]
      refine ⟨synced', open', ?_⟩
      rw [said', said, List.append_assoc, List.length_append, List.replicate_add]
      rfl
  exact held.2.2

end

/-- Python on ASCII text. -/
def ascii : Python where
  decode := fun text => text.map (fun c => Char.ofNat c.toNat)
  decimal := fun c => if c.isDigit then some (c.toNat - 48) else none
  decode_ascii := fun _ _ => rfl
  decode_length := fun text => Nat.le_of_eq (List.length_map _)
  decimal_ascii := fun _ _ => rfl
  decimal_lt := by
    intro c d value
    split at value
    next isDigit =>
      simp only [Char.isDigit, Bool.and_eq_true, decide_eq_true_eq] at isDigit
      have high : c.toNat ≤ 57 := UInt32.le_iff_toNat_le.mp isDigit.2
      cases value
      omega
    next => cases value

def fineResults : Results := ⟨7, 1, .RCOK, bytes "41", .RCOK, .RCOK⟩

/-- An iteration with these results of `Read` and of `finish` in `commit`. -/
def roundWith (read finish : RC) : Round where
  key := ⟨3, by decide⟩
  start := fineResults
  get := { fineResults with read := read }
  put := fineResults
  commit := { fineResults with finish := finish }
  rollback := fineResults
  oneLine := show 10 ∉ bytes "41" by decide
  fits := show (bytes "41").length ≤ 1023 by decide

/-- One missing key and the server is still in the first transaction as the second begins. -/
theorem worker_missing_key :
    ¬ ∀ (py : Python) (rounds done rest : List Round), rounds = done ++ rest → InStep (worker py done) := by
  intro inStep
  have after := (inStep ascii [roundWith .Abort .RCOK, roundWith .RCOK .RCOK] [roundWith .Abort .RCOK]
    [roundWith .RCOK .RCOK] rfl).closed
  exact absurd after (by decide +kernel)

/-- Commits that fail validation leave client and server in step. -/
theorem worker_inStep_commit_fails :
    InStep (worker ascii [roundWith .RCOK .RCOK, roundWith .RCOK .Abort, roundWith .RCOK .RCOK]) :=
  (worker_inStep_iff ascii [roundWith .RCOK .RCOK, roundWith .RCOK .Abort, roundWith .RCOK .RCOK]).1.mpr
    (by decide +kernel) _ [] rfl

end DataAgentDB.Client
