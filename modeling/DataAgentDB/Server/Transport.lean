import DataAgentDB.Server.Wire

/-! A connection, system call by system call: `send` and `recv` move as many bytes as they like, in any order
with the other end (server.cpp `read_line` and `send_all`, db_test.py `SessionClient`). -/

namespace DataAgentDB.Server
open Storage LabelledRun

/-- A session with the bytes on their way in both directions. The input of the session is what has been sent
to it and not been received by `read_line`. -/
structure Connection where
  session : Session
  /-- `out` in `read_line`. -/
  out : Bytes
  /-- What `send_all` still has to send. -/
  pending : Bytes
  /-- What the server sent and the client has not received. -/
  down : Bytes
  /-- What the client's `sendall` still has to send. -/
  outbox : Bytes
  /-- `self.buf`. -/
  buf : Bytes
  /-- What `_readline` returned so far. -/
  lines : List Bytes
  closed : Bool

/-- What happens next at one end of the connection. -/
inductive WireEvent where
  | ask (cmd : Bytes)
  | push (n : Nat)
  | pull (n : Nat)
  | readline
  | close
  | interrupted
  | recv (results : Results)
  | hangUp
  | send (n : Nat)
  | sendFails

namespace Connection

/-- What the session sent between two states. -/
def said (before after : Session) : Bytes := ((replies after.log).drop (replies before.log).length).flatten

/-- The session has gone on, and what it says is to be sent. -/
def proceed (c : Connection) (session : Session) : Connection :=
  { c with session := session, out := [], pending := said c.session session }

/-- `recv` of one byte in `read_line`, and what `handle_client` does if that ends the line or the loop. -/
def receive (c : Connection) (byte : UInt8) (rest : Bytes) (results : Results) : Connection :=
  if byte = 10 then c.proceed ({ c.session with input := rest }.dispatch c.out results)
  else
    let out := if byte ≠ 13 then c.out ++ [byte] else c.out
    if out.length > 64 * 1024 then c.proceed { c.session.abandon with input := rest, running := false }
    else { c with session := { c.session with input := rest }, out := out }

/-- The connection after a system call, or after a call of the client's. -/
def next (c : Connection) : WireEvent → Option Connection
  -- the client
  | .ask cmd => if c.outbox = [] ∧ c.closed = false then some { c with outbox := cmd } else none
  | .push n =>
      if 0 < n ∧ n ≤ c.outbox.length then
        some { c with session := { c.session with input := c.session.input ++ c.outbox.take n },
                      outbox := c.outbox.drop n }
      else none
  | .pull n =>
      if 10 ∉ c.buf ∧ c.closed = false ∧ 0 < n ∧ n ≤ 4096 ∧ n ≤ c.down.length then
        some { c with buf := c.buf ++ c.down.take n, down := c.down.drop n }
      else none
  | .readline =>
      if 10 ∈ c.buf ∧ c.closed = false then
        some { c with buf := (c.buf.dropWhile (fun b => b ≠ 10)).drop 1,
                      lines := c.lines ++ [c.buf.takeWhile (fun b => b ≠ 10)] }
      else none
  | .close => some { c with outbox := [], closed := true }
  -- EINTR, at either end
  | .interrupted => some c
  -- the server
  | .recv results =>
      if c.session.running ∧ c.pending = [] then
        match c.session.input with
        | [] => none
        | byte :: rest => some (c.receive byte rest results)
      else none
  | .hangUp =>
      -- the end of the stream, or an error that loses what has not been received
      if c.session.running ∧ c.pending = [] ∧ c.closed then
        some (c.proceed { c.session.abandon with running := false })
      else none
  | .send n =>
      if 0 < n ∧ n ≤ c.pending.length then
        some { c with pending := c.pending.drop n, down := c.down ++ c.pending.take n }
      else none
  | .sendFails => if c.closed then some { c with pending := [] } else none

/-- The server has accepted the connection, and sends its greeting. -/
def accepted : Connection :=
  { session := connected [], out := [], pending := bytes "WELCOME DataAgentDB\n", down := [], outbox := [], buf := [],
    lines := [], closed := false }

def Step (c : Connection) (event : WireEvent) (after : Connection) : Prop := c.next event = some after

/-- No value has a newline in it. -/
def Clean (_ : List WireEvent) (_ : Connection) : WireEvent → Prop
  | .recv results => 10 ∉ results.value
  | _ => True

end Connection

/-- All that the client has handed to `sendall`. -/
def asked (trace : List WireEvent) : Bytes :=
  trace.flatMap (fun event => match event with | .ask cmd => cmd | _ => [])

namespace Session

variable (s : Session) (input : Bytes)

def onInput : Session := { s with input := input }

theorem start_onInput (results : Results) : (s.onInput input).start results = (s.start results).onInput input := by
  obtain ⟨tx, inTxn, old, log, running⟩ := s
  cases inTxn <;> rfl

theorem doGet_onInput (parts : List Bytes) (results : Results) :
    (s.onInput input).doGet parts results = (s.doGet parts results).onInput input := by
  obtain ⟨⟨impl, id⟩, inTxn, old, log, running⟩ := s
  cases inTxn with
  | false => rfl
  | true =>
    match parts with
    | [] | [_] | _ :: _ :: _ :: _ => rfl
    | [_, key] =>
      cases impl with
      | none => rfl
      | some ctx =>
        unfold doGet get
        cases Rc.ofRead results.read <;> rfl

theorem doPut_onInput (line : Bytes) (parts : List Bytes) (results : Results) :
    (s.onInput input).doPut line parts results = (s.doPut line parts results).onInput input := by
  obtain ⟨⟨impl, id⟩, inTxn, old, log, running⟩ := s
  cases inTxn with
  | false => rfl
  | true =>
    match parts with
    | [] | [_] | [_, _] => rfl
    | _ :: key :: _ :: _ =>
      cases impl with
      | none => rfl
      | some ctx =>
        unfold doPut put
        cases Rc.ofWrite results.write <;> rfl

theorem doCommit_onInput (results : Results) :
    (s.onInput input).doCommit results = (s.doCommit results).onInput input := by
  obtain ⟨⟨impl, id⟩, inTxn, old, log, running⟩ := s
  cases inTxn with
  | false => rfl
  | true =>
    cases impl with
    | none => rfl
    | some ctx =>
      unfold doCommit commit
      cases Rc.ofFinish results.finish <;> rfl

theorem doAbort_onInput : (s.onInput input).doAbort = s.doAbort.onInput input := by
  obtain ⟨⟨impl, id⟩, inTxn, old, log, running⟩ := s
  cases inTxn <;> cases impl <;> rfl

theorem abandon_onInput : (s.onInput input).abandon = s.abandon.onInput input := by
  obtain ⟨⟨impl, id⟩, inTxn, old, log, running⟩ := s
  cases inTxn <;> cases impl <;> rfl

theorem quit_onInput : (s.onInput input).quit = s.quit.onInput input := by
  rw [quit, abandon_onInput]
  rfl

theorem dispatch_onInput (line : Bytes) (results : Results) :
    (s.onInput input).dispatch line results = (s.dispatch line results).onInput input := by
  unfold dispatch
  cases splitWs line with
  | nil => rfl
  | cons word rest =>
    dsimp only
    rw [start_onInput, doGet_onInput, doPut_onInput, doCommit_onInput, doAbort_onInput, quit_onInput]
    split
    · rfl
    split
    · rfl
    split
    · rfl
    split
    · rfl
    split
    · rfl
    split
    · rfl
    · rfl

end Session

/-- The results of a line that returns no value with a newline. -/
def NoNewline (_ : List Results) (_ : Session) (results : Results) : Prop := 10 ∉ results.value

/-- Between the two ends nothing is lost, doubled or out of order: `read` has been received, with the part
`tail` of a line at its end, and the session has served it as if it had been there from the start. -/
structure Carried (trace : List WireEvent) (c : Connection) (read tail : Bytes) (served : List Results) : Prop where
  sent : ∃ lost, asked trace = read ++ c.session.input ++ c.outbox ++ lost ∧ (c.closed = false → lost = [])
  begun : c.session.running = true → ∀ later, readLine [] (tail ++ later) = readLine c.out later
  unended : c.session.running = true → 10 ∉ tail
  serving : c.session.running = true → ∀ later,
    Run Serve NoNewline (connected (read ++ later)) served (c.session.onInput (tail ++ later))
  ended : c.session.running = false → Run Serve NoNewline (connected read) served (c.session.onInput [])
  clean : ∀ line ∈ c.lines, 10 ∉ line
  received : c.closed = false →
    (c.lines.map (· ++ [10])).flatten ++ c.buf ++ c.down ++ c.pending = (replies c.session.log).flatten
  whole : c.lines.map (· ++ [10]) <+: replies c.session.log

section
variable {trace : List WireEvent} {c after : Connection} {read tail : Bytes} {served : List Results} {event : WireEvent}

theorem asked_snoc (trace : List WireEvent) (event : WireEvent) :
    asked (trace ++ [event]) = asked trace ++ asked [event] :=
  List.flatMap_append

theorem isLine_replies (carried : Carried trace c read tail served) :
    ∀ text ∈ replies c.session.log, IsLine text := by
  have said : ∃ texts, replies c.session.log = bytes "WELCOME DataAgentDB\n" :: texts ∧
      ∀ text ∈ texts, IsLine text := by
    cases running : c.session.running with
    | true =>
      obtain ⟨_, texts, -, said, -, lines⟩ := replies_run (carried.serving running [])
      exact ⟨texts, said, lines⟩
    | false =>
      obtain ⟨_, texts, -, said, -, lines⟩ := replies_run (carried.ended running)
      exact ⟨texts, said, lines⟩
  obtain ⟨texts, same, lines⟩ := said
  rw [same]
  exact List.forall_mem_cons.mpr ⟨by decide, lines⟩

/-- A line is its text and a newline. -/
theorem IsLine.split {text : Bytes} (isLine : IsLine text) : ∃ front, text = front ++ [10] ∧ 10 ∉ front := by
  obtain ⟨last, once⟩ := isLine
  obtain ⟨front, rfl⟩ := List.getLast?_eq_some_iff.mp last
  refine ⟨front, rfl, fun member => ?_⟩
  have more := List.count_pos_iff.mpr member
  rw [List.count_append, List.count_singleton_self] at once
  omega

/-- Lines that begin a stream of lines are its first ones. -/
theorem prefix_of_flatten {lines : List Bytes} {texts : List Bytes} {rest : Bytes}
    (clean : ∀ line ∈ lines, 10 ∉ line) (isLine : ∀ text ∈ texts, IsLine text)
    (same : (lines.map (· ++ [10])).flatten ++ rest = texts.flatten) :
    ∃ others, texts = lines.map (· ++ [10]) ++ others ∧ rest = others.flatten := by
  induction lines generalizing texts with
  | nil => exact ⟨texts, rfl, same⟩
  | cons line lines ih =>
    obtain ⟨noLf, cleans⟩ := List.forall_mem_cons.mp clean
    cases texts with
    | nil => simp at same
    | cons text texts =>
      obtain ⟨isText, others⟩ := List.forall_mem_cons.mp isLine
      obtain ⟨front, rfl, noLf'⟩ := isText.split
      have split : line ++ 10 :: ((lines.map (· ++ [10])).flatten ++ rest) = front ++ 10 :: texts.flatten := by
        simpa using same
      obtain ⟨rfl, later⟩ : line = front ∧ (lines.map (· ++ [10])).flatten ++ rest = texts.flatten := by
        have first := congrArg (List.takeWhile (fun b => decide (b ≠ 10))) split
        have second := congrArg (List.dropWhile (fun b => decide (b ≠ 10))) split
        have all : ∀ {text : Bytes}, 10 ∉ text → ∀ b ∈ text, decide (b ≠ 10) = true :=
          fun absent _ member => decide_eq_true (ne_of_mem_of_not_mem member absent)
        rw [List.takeWhile_append_of_pos (all noLf), List.takeWhile_append_of_pos (all noLf')] at first
        rw [List.dropWhile_append_of_pos (all noLf), List.dropWhile_append_of_pos (all noLf')] at second
        exact ⟨by simpa using first, by simpa using second⟩
      obtain ⟨back, rfl, remains⟩ := ih cleans others later
      exact ⟨back, rfl, remains⟩

theorem carried_accepted : Carried [] Connection.accepted [] [] [] where
  sent := ⟨[], rfl, fun _ => rfl⟩
  begun := fun _ _ => rfl
  unended := fun _ => List.not_mem_nil
  serving := fun _ _ => .nil
  ended := fun stopped => (nomatch stopped)
  clean := fun _ member => absurd member List.not_mem_nil
  received := fun _ => by decide
  whole := List.nil_prefix

/-- What the server reads and serves does not depend on how its bytes are stored on the way. -/
theorem Carried.move (carried : Carried trace c read tail served) (input outbox buf down pending : Bytes)
    (sent : ∃ lost, asked trace = read ++ input ++ outbox ++ lost ∧ (c.closed = false → lost = []))
    (received : c.closed = false →
      (c.lines.map (· ++ [10])).flatten ++ buf ++ down ++ pending = (replies c.session.log).flatten) :
    Carried trace { c with session := c.session.onInput input, outbox := outbox, buf := buf, down := down,
                           pending := pending } read tail served :=
  ⟨sent, carried.begun, carried.unended, carried.serving, carried.ended, carried.clean, received, carried.whole⟩

/-- An event by which nothing is asked. -/
theorem Carried.silent (carried : Carried trace c read tail served) (silent : asked [event] = []) :
    Carried (trace ++ [event]) c read tail served where
  sent := by rw [asked_snoc, silent, List.append_nil]; exact carried.sent
  begun := carried.begun
  unended := carried.unended
  serving := carried.serving
  ended := carried.ended
  clean := carried.clean
  received := carried.received
  whole := carried.whole

theorem carried_ask (carried : Carried trace c read tail served) {cmd : Bytes} (free : c.outbox = [])
    (opened : c.closed = false) : Carried (trace ++ [.ask cmd]) { c with outbox := cmd } read tail served where
  sent := by
    obtain ⟨lost, sent, none⟩ := carried.sent
    refine ⟨[], ?_, fun _ => rfl⟩
    rw [asked_snoc, sent, free, none opened]
    simp [asked]
  begun := carried.begun
  unended := carried.unended
  serving := carried.serving
  ended := carried.ended
  clean := carried.clean
  received := carried.received
  whole := carried.whole

theorem carried_push (carried : Carried trace c read tail served) (n : Nat) :
    Carried (trace ++ [.push n]) { c with session := c.session.onInput (c.session.input ++ c.outbox.take n),
                                          outbox := c.outbox.drop n } read tail served := by
  refine Carried.silent (carried.move _ (c.outbox.drop n) _ _ _ ?_ carried.received) rfl
  obtain ⟨lost, sent, open'⟩ := carried.sent
  refine ⟨lost, ?_, open'⟩
  rw [sent]
  simp only [List.append_assoc]
  rw [← List.append_assoc (c.outbox.take n), List.take_append_drop]

theorem carried_pull (carried : Carried trace c read tail served) (n : Nat) :
    Carried (trace ++ [.pull n]) { c with buf := c.buf ++ c.down.take n, down := c.down.drop n } read tail served := by
  refine Carried.silent (carried.move c.session.input _ _ _ _ carried.sent (fun opened => ?_)) rfl
  rw [← carried.received opened]
  simp only [List.append_assoc]
  rw [← List.append_assoc (c.down.take n), List.take_append_drop]

theorem carried_send (carried : Carried trace c read tail served) (n : Nat) :
    Carried (trace ++ [.send n]) { c with pending := c.pending.drop n, down := c.down ++ c.pending.take n } read tail
      served := by
  refine Carried.silent (carried.move c.session.input _ _ _ _ carried.sent (fun opened => ?_)) rfl
  rw [← carried.received opened]
  simp only [List.append_assoc, List.take_append_drop]

theorem carried_readline (carried : Carried trace c read tail served) (present : 10 ∈ c.buf)
    (opened : c.closed = false) :
    Carried (trace ++ [.readline])
      { c with buf := (c.buf.dropWhile (fun b => b ≠ 10)).drop 1,
               lines := c.lines ++ [c.buf.takeWhile (fun b => b ≠ 10)] } read tail served := by
  obtain ⟨line, rest, split, noLf⟩ := List.eq_append_cons_of_mem present
  have all : ∀ b ∈ line, decide (b ≠ 10) = true :=
    fun _ member => decide_eq_true (ne_of_mem_of_not_mem member noLf)
  have front : c.buf.takeWhile (fun b => decide (b ≠ 10)) = line := by
    rw [split, List.takeWhile_append_of_pos all]
    simp
  have back : (c.buf.dropWhile (fun b => decide (b ≠ 10))).drop 1 = rest := by
    rw [split, List.dropWhile_append_of_pos all]
    rfl
  rw [front, back]
  have stream := carried.received opened
  rw [split] at stream
  have clean : ∀ other ∈ c.lines ++ [line], 10 ∉ other := by
    intro other member
    rcases List.mem_append.mp member with earlier | last
    · exact carried.clean other earlier
    · exact List.mem_singleton.mp last ▸ noLf
  have same : ((c.lines ++ [line]).map (· ++ [10])).flatten ++ (rest ++ c.down ++ c.pending) =
      (replies c.session.log).flatten := by
    rw [← stream]
    simp
  obtain ⟨others, whole, -⟩ := prefix_of_flatten clean (isLine_replies carried) same
  refine Carried.silent ⟨carried.sent, carried.begun, carried.unended, carried.serving, carried.ended, clean,
    fun _ => ?_, ?_⟩ rfl
  · simpa only [List.append_assoc] using same
  · exact ⟨others, whole.symm⟩

theorem carried_close (carried : Carried trace c read tail served) :
    Carried (trace ++ [.close]) { c with outbox := [], closed := true } read tail served := by
  obtain ⟨lost, sent, -⟩ := carried.sent
  refine Carried.silent ⟨⟨c.outbox ++ lost, ?_, fun opened => (nomatch opened)⟩, carried.begun, carried.unended,
    carried.serving, carried.ended, carried.clean, fun opened => (nomatch opened), carried.whole⟩ rfl
  rw [sent, List.append_nil, List.append_assoc]

theorem carried_sendFails (carried : Carried trace c read tail served) (closed : c.closed = true) :
    Carried (trace ++ [.sendFails]) { c with pending := [] } read tail served :=
  Carried.silent (carried.move c.session.input _ _ _ _ carried.sent
    (fun opened => by rw [closed] at opened; cases opened)) rfl

theorem said_eq {before after : Session} {texts : List Bytes} (told : replies after.log = replies before.log ++ texts) :
    Connection.said before after = texts.flatten := by
  rw [Connection.said, told, List.drop_left]

/-- The session goes on with one more iteration of its loop. -/
theorem carried_proceed (carried : Carried trace c read tail served) {session : Session} {results : Results}
    (byte : Bytes) {texts : List Bytes} (quiet : asked [event] = [])
    (sent : ∃ lost, asked trace = (read ++ byte) ++ session.input ++ c.outbox ++ lost ∧
      (c.closed = false → lost = []))
    (live : c.session.running = true) (drained : c.pending = []) (noLf : 10 ∉ results.value)
    (told : replies session.log = replies c.session.log ++ texts)
    (iterates : ∀ later, (session.running = false → later = []) →
      (c.session.onInput (tail ++ (byte ++ later))).iterate results = session.onInput later) :
    Carried (trace ++ [event]) (c.proceed session) (read ++ byte) [] (served ++ [results]) := by
  have run : ∀ later, (session.running = false → later = []) →
      Run Serve NoNewline (connected (read ++ byte ++ later)) (served ++ [results]) (session.onInput later) := by
    intro later short
    have earlier := carried.serving live (byte ++ later)
    rw [← List.append_assoc] at earlier
    refine .snoc earlier noLf ?_
    have on : (c.session.onInput (tail ++ (byte ++ later))).running = true := live
    rw [Serve, serve, if_pos on, iterates later short]
  refine Carried.silent ⟨sent, fun _ _ => rfl, fun _ => List.not_mem_nil, fun running later => ?_,
    fun stopped => ?_, carried.clean, fun opened => ?_, ?_⟩ quiet
  · exact run later (fun stopped => absurd (running.symm.trans stopped) (by decide))
  · have whole := run [] (fun _ => rfl)
    rwa [List.append_nil] at whole
  · have stream := carried.received opened
    rw [drained, List.append_nil] at stream
    change (c.lines.map (· ++ [10])).flatten ++ c.buf ++ c.down ++ Connection.said c.session session =
      (replies session.log).flatten
    rw [said_eq told, told, List.flatten_append, stream]
  · exact carried.whole.trans ⟨texts, told.symm⟩

theorem iterate_of_line {s next : Session} {line input : Bytes} {results : Results}
    (found : readLine [] s.input = (some line, input))
    (dispatched : ({ s with input := input }).dispatch line results = next) : s.iterate results = next := by
  rw [Session.iterate, found]
  exact dispatched

theorem iterate_of_none {s next : Session} {input : Bytes} {results : Results}
    (found : readLine [] s.input = (none, input))
    (abandoned : { s.abandon with input := input, running := false } = next) : s.iterate results = next := by
  rw [Session.iterate, found]
  exact abandoned

theorem carried_receive (carried : Carried trace c read tail served) {byte : UInt8} {rest : Bytes} {results : Results}
    (live : c.session.running = true) (drained : c.pending = []) (arrived : c.session.input = byte :: rest)
    (noLf : 10 ∉ results.value) :
    ∃ read' tail' served', Carried (trace ++ [.recv results]) (c.receive byte rest results) read' tail' served' := by
  have sent : ∃ lost, asked trace = (read ++ [byte]) ++ rest ++ c.outbox ++ lost ∧
      (c.closed = false → lost = []) := by
    obtain ⟨lost, sent, none⟩ := carried.sent
    refine ⟨lost, ?_, none⟩
    rw [sent, arrived]
    simp
  have found : ∀ later, readLine [] (tail ++ ([byte] ++ later)) = readLine c.out (byte :: later) :=
    fun later => carried.begun live ([byte] ++ later)
  unfold Connection.receive
  split
  next newline =>
    subst newline
    obtain ⟨⟨text, told, -⟩, input⟩ := Replied.dispatch { c.session with input := rest } c.out noLf
    refine ⟨_, _, _, carried_proceed carried [10] rfl ?_ live drained noLf told (fun later _ => ?_)⟩
    · rw [input]
      exact sent
    · have line : readLine [] (tail ++ ([10] ++ later)) = (some c.out, later) := found later
      have same := (c.session.onInput rest).dispatch_onInput later c.out results
      exact iterate_of_line line same
  next other =>
    have reads : ∀ later, readLine c.out (byte :: later) =
        if (if byte ≠ 13 then c.out ++ [byte] else c.out).length > 64 * 1024 then (none, later)
        else readLine (if byte ≠ 13 then c.out ++ [byte] else c.out) later := by
      intro later
      rw [readLine, if_neg other]
    dsimp only
    generalize (if byte ≠ 13 then c.out ++ [byte] else c.out) = out at reads ⊢
    by_cases overlong : out.length > 64 * 1024
    · rw [if_pos overlong]
      have told : replies ({ c.session.abandon with input := rest, running := false } : Session).log =
          replies c.session.log ++ [] := (Exchanged.abandon c.session).replies
      refine ⟨_, _, _, carried_proceed carried [byte] rfl sent live drained noLf told (fun later _ => ?_)⟩
      have line : readLine [] (tail ++ ([byte] ++ later)) = (none, later) := by rw [found, reads, if_pos overlong]
      have same := c.session.abandon_onInput (tail ++ ([byte] ++ later))
      refine iterate_of_none line ?_
      rw [same]
      rfl
    · rw [if_neg overlong]
      refine ⟨read ++ [byte], tail ++ [byte], served, Carried.silent ⟨sent, fun _ later => ?_, fun _ => ?_,
        fun _ later => ?_, fun stopped => ?_, carried.clean, carried.received, carried.whole⟩ rfl⟩
      · rw [List.append_assoc, found, reads, if_neg overlong]
      · rw [List.mem_append, not_or, List.mem_singleton]
        exact ⟨carried.unended live, fun same => other same.symm⟩
      · have earlier := carried.serving live ([byte] ++ later)
        rwa [← List.append_assoc, ← List.append_assoc] at earlier
      · exact absurd (live.symm.trans stopped) (by decide)

/-- An arbitrary result, for a read that finds no line. -/
def unused : Results := { ctx := 0, id := 0, read := .RCOK, value := [], write := .RCOK, finish := .RCOK }

theorem carried_hangUp (carried : Carried trace c read tail served) (live : c.session.running = true)
    (drained : c.pending = []) :
    ∃ served', Carried (trace ++ [.hangUp]) (c.proceed { c.session.abandon with running := false }) read []
      served' := by
  have told : replies ({ c.session.abandon with running := false } : Session).log = replies c.session.log ++ [] :=
    (Exchanged.abandon c.session).replies
  have input : ({ c.session.abandon with running := false } : Session).input = c.session.input :=
    (Exchanged.abandon c.session).input
  have noLf : 10 ∉ unused.value := by decide
  have step := carried_proceed carried [] (rfl : asked [.hangUp] = [])
    (by rw [List.append_nil, input]; exact carried.sent) live drained noLf told (fun later short => by
      rw [short rfl]
      have line : readLine [] (tail ++ ([] ++ [])) = (none, []) := carried.begun live []
      refine iterate_of_none line ?_
      have same := c.session.abandon_onInput (tail ++ ([] ++ []))
      rw [same]
      rfl)
  rw [List.append_nil] at step
  exact ⟨_, step⟩

/-- Every event keeps what the connection carries. -/
theorem carried_step (carried : Carried trace c read tail served) (clean : Connection.Clean trace c event)
    (taken : Connection.Step c event after) :
    ∃ read' tail' served', Carried (trace ++ [event]) after read' tail' served' := by
  cases event with
  | ask cmd =>
    obtain ⟨⟨free, opened⟩, same⟩ := Option.ite_none_right_eq_some.mp taken
    cases same
    exact ⟨_, _, _, carried_ask carried free opened⟩
  | push n =>
    obtain ⟨-, same⟩ := Option.ite_none_right_eq_some.mp taken
    cases same
    exact ⟨_, _, _, carried_push carried n⟩
  | pull n =>
    obtain ⟨-, same⟩ := Option.ite_none_right_eq_some.mp taken
    cases same
    exact ⟨_, _, _, carried_pull carried n⟩
  | readline =>
    obtain ⟨⟨present, opened⟩, same⟩ := Option.ite_none_right_eq_some.mp taken
    cases same
    exact ⟨_, _, _, carried_readline carried present opened⟩
  | close =>
    cases taken
    exact ⟨_, _, _, carried_close carried⟩
  | interrupted =>
    cases taken
    exact ⟨_, _, _, carried.silent rfl⟩
  | recv results =>
    obtain ⟨⟨live, drained⟩, moved⟩ := Option.ite_none_right_eq_some.mp taken
    cases arrived : c.session.input with
    | nil => rw [arrived] at moved; cases moved
    | cons byte rest =>
      rw [arrived] at moved
      cases moved
      exact carried_receive carried live drained arrived clean
  | hangUp =>
    obtain ⟨⟨live, drained, -⟩, same⟩ := Option.ite_none_right_eq_some.mp taken
    cases same
    obtain ⟨served', step⟩ := carried_hangUp carried live drained
    exact ⟨_, _, served', step⟩
  | send n =>
    obtain ⟨-, same⟩ := Option.ite_none_right_eq_some.mp taken
    cases same
    exact ⟨_, _, _, carried_send carried n⟩
  | sendFails =>
    obtain ⟨closed, same⟩ := Option.ite_none_right_eq_some.mp taken
    cases same
    exact ⟨_, _, _, carried_sendFails carried closed⟩

theorem carried_run (run : Run Connection.Step Connection.Clean Connection.accepted trace c) :
    ∃ read tail served, Carried trace c read tail served :=
  run.invariant (fun trace c => ∃ read tail served, Carried trace c read tail served)
    ⟨[], [], [], carried_accepted⟩
    (fun _ _ _ _ held clean taken => by
      obtain ⟨_, _, _, carried⟩ := held
      exact carried_step carried clean taken)

/-- However the bytes are split and delayed on their way, the session serves them as if they had been there
from the start, and the client reads the replies one by one, in order. When nothing is on its way any
more, it has read the greeting and one reply for each line it sent. -/
theorem transport_transparent (run : Run Connection.Step Connection.Clean Connection.accepted trace c) :
    (∃ read tail served, Carried trace c read tail served) ∧
    (c.closed = false → c.pending = [] → c.down = [] → 10 ∉ c.buf →
      c.buf = [] ∧ c.lines.map (· ++ [10]) = replies c.session.log ∧
        (c.session.running = true → c.session.input = [] → c.outbox = [] →
          c.lines.length = 1 + (asked trace).count 10)) := by
  obtain ⟨read, tail, served, carried⟩ := carried_run run
  refine ⟨⟨read, tail, served, carried⟩, fun opened drained arrived noLf => ?_⟩
  have stream := carried.received opened
  rw [drained, arrived, List.append_nil, List.append_nil] at stream
  have isLine := isLine_replies carried
  obtain ⟨others, whole, rest⟩ := prefix_of_flatten carried.clean isLine stream
  have none : others = [] := by
    cases others with
    | nil => rfl
    | cons text others =>
      have isText := isLine text (whole ▸ List.mem_append_right _ List.mem_cons_self)
      obtain ⟨front, rfl, -⟩ := isText.split
      exact absurd (by rw [rest]; simp) noLf
  subst none
  rw [List.append_nil] at whole
  refine ⟨rest, whole.symm, fun running empty sent => ?_⟩
  obtain ⟨lost, all, kept⟩ := carried.sent
  obtain ⟨consumed, texts, input, said, count, -⟩ := replies_run (carried.serving running [])
  have told : replies c.session.log = bytes "WELCOME DataAgentDB\n" :: texts := said
  have counts := congrArg List.length whole
  rw [told, List.length_cons, List.length_map] at counts
  have sized := congrArg (List.count 10) input
  rw [List.append_nil, List.count_append] at sized
  have tailCount : (c.session.onInput (tail ++ [])).input.count 10 = 0 := by
    change (tail ++ []).count 10 = 0
    rw [List.append_nil]
    exact List.count_eq_zero.mpr (carried.unended running)
  have total := congrArg (List.count 10) all
  rw [empty, sent, kept opened] at total
  simp only [List.append_nil] at total
  omega

end

instance (trace : List WireEvent) (c : Connection) (event : WireEvent) : Decidable (Connection.Clean trace c event) :=
  match event with
  | .recv results => inferInstanceAs (Decidable (10 ∉ results.value))
  | .ask _ | .push _ | .pull _ | .readline | .close | .interrupted | .hangUp | .send _ | .sendFails => isTrue trivial

/-- The greeting comes in two pieces, the second while a line is on its way, in two pieces as well. -/
def splitStart : List WireEvent :=
  [.send 7, .pull 3, .ask (bytes "START\n"), .push 2, .interrupted, .send 13, .pull 17, .readline, .push 4] ++
    List.replicate 6 (.recv ⟨7, 1, .RCOK, [], .RCOK, .RCOK⟩) ++ [.send 4, .pull 4, .send 5, .pull 5, .readline]

theorem transport_transparent_split : ∃ c, Run Connection.Step Connection.Clean Connection.accepted splitStart c ∧
    c.lines.map (· ++ [10]) = replies c.session.log ∧ c.lines.length = 2 := by
  have played : (playUnder Connection.next Connection.Clean [] Connection.accepted splitStart).map (fun c =>
      ((c.closed, c.pending, c.down, c.buf), (c.session.running, c.session.input, c.outbox))) =
        some ((false, [], [], []), (true, [], [])) := by decide +kernel
  obtain ⟨c, result, same⟩ := Option.map_eq_some_iff.mp played
  obtain ⟨client, server⟩ := Prod.mk.inj same
  obtain ⟨opened, client⟩ := Prod.mk.inj client
  obtain ⟨drained, client⟩ := Prod.mk.inj client
  obtain ⟨arrived, buf⟩ := Prod.mk.inj client
  obtain ⟨running, server⟩ := Prod.mk.inj server
  obtain ⟨empty, sent⟩ := Prod.mk.inj server
  have run : Run Connection.Step Connection.Clean Connection.accepted splitStart c := run_of_playUnder result
  obtain ⟨-, complete⟩ := transport_transparent run
  obtain ⟨-, lines, count⟩ := complete opened drained arrived (by rw [buf]; decide)
  exact ⟨c, run, lines, (count running empty sent).trans (by decide)⟩

end DataAgentDB.Server
