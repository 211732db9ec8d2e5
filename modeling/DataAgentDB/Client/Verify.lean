import DataAgentDB.Client.InStep

/-! The final check of db_test.py against `handle_client`. It asks for every key outside of a
transaction, where the server refuses every GET. -/

namespace DataAgentDB.Client
open Storage Server Words

/-- A key as a GET line can hold one. -/
structure Key where
  text : Bytes
  oneLine : 10 ∉ text

/-- What the check returns: `(k, expect, v)` and `(k, r.strip())`. -/
structure Verdict where
  mismatches : List (Key × Int × Int)
  unreadable : List (Key × List Char)

section
variable (py : Python) (store : Bytes → Option Bytes) (expectedMap : Bytes → Option Int) (initVal : Int)

/-- What a transaction on the committed store returns for a key. -/
def committedResults (key : Bytes) : Results :=
  match store key with
  | some value => ⟨0, 1, .RCOK, value, .RCOK, .RCOK⟩
  | none => ⟨0, 1, .ERROR, [], .RCOK, .RCOK⟩

def expect (key : Key) : Int := initVal + (expectedMap key.text).getD 0

/-- The body of the loop; `none` when it raises. -/
def checkKey (state : Link × Verdict) (k : Key) : Option (Link × Verdict) :=
  let (link, verdict) := state
  match link.request py (cmdGet k.text) (committedResults store k.text) with
  | (none, _) => none
  | (some r, link) =>
      match parseIntFromResp py r with
      | none => some (link, { verdict with unreadable := verdict.unreadable ++ [(k, normalize r)] })
      | some v =>
          if v ≠ expect expectedMap initVal k then
            some (link, { verdict with
              mismatches := verdict.mismatches ++ [(k, expect expectedMap initVal k, v)] })
          else some (link, verdict)

def verifyFinalValues (keys : List Key) : Option Verdict :=
  (keys.foldlM (checkKey py store expectedMap initVal) (connect py, ⟨[], []⟩)).map Prod.snd

/-- The integer the committed store has for a key. -/
def committedValue (key : Key) : Option Int :=
  (store key.text).bind (fun value => int py (normalize (py.decode value)))

/-- If the check returns no mismatch, the store has the values it expects. -/
def Sound (keys : List Key) : Prop :=
  ∀ verdict, verifyFinalValues py store expectedMap initVal keys = some verdict → verdict.mismatches = [] →
    ∀ key ∈ keys, committedValue py store key = some (expect expectedMap initVal key)

end

/-- The line of a GET as the server keeps it. -/
def Key.line (key : Key) : Bytes := bytes "GET " ++ key.text.filter (fun c => c ≠ 13)

/-- `read_line` gives up on this GET, and the server closes the connection. -/
def Key.TooLong (key : Key) : Prop := 64 * 1024 < key.line.length

instance (key : Key) : Decidable key.TooLong := inferInstanceAs (Decidable (_ < _))

theorem readLine_filter (out : Bytes) {text : Bytes} (noLf : 10 ∉ text)
    (short : (out ++ text.filter (fun c => c ≠ 13)).length ≤ 64 * 1024) :
    readLine out (text ++ [10]) = (some (out ++ text.filter (fun c => c ≠ 13)), []) := by
  induction text generalizing out with
  | nil => rw [List.nil_append, List.filter_nil, List.append_nil]; rfl
  | cons c text ih =>
    have notLf : c ≠ 10 := fun same => noLf (same ▸ List.mem_cons_self)
    have later : 10 ∉ text := fun member => noLf (List.mem_cons_of_mem c member)
    rw [List.cons_append, readLine, if_neg notLf]
    by_cases isCr : c = 13
    · rw [List.filter_cons_of_neg (by simp [isCr])] at short ⊢
      have within : ¬ out.length > 64 * 1024 := by
        rw [List.length_append] at short
        omega
      simp only [isCr, ne_eq, not_true_eq_false, if_false, if_neg within]
      exact ih out later short
    · rw [List.filter_cons_of_pos (by simp [isCr]), List.append_cons] at short
      rw [List.filter_cons_of_pos (by simp [isCr]), List.append_cons out c (text.filter _)]
      have within : ¬ (out ++ [c]).length > 64 * 1024 := by
        rw [List.length_append] at short
        omega
      simp only [ne_eq, isCr, not_false_eq_true, if_true, if_neg within]
      exact ih (out ++ [c]) later short

theorem readLine_overlong (out : Bytes) {text : Bytes} (noLf : 10 ∉ text) (within : out.length ≤ 64 * 1024)
    (long : 64 * 1024 < (out ++ text.filter (fun c => c ≠ 13)).length) :
    (readLine out (text ++ [10])).1 = none := by
  induction text generalizing out with
  | nil =>
    rw [List.filter_nil, List.append_nil] at long
    omega
  | cons c text ih =>
    have notLf : c ≠ 10 := fun same => noLf (same ▸ List.mem_cons_self)
    have later : 10 ∉ text := fun member => noLf (List.mem_cons_of_mem c member)
    rw [List.cons_append, readLine, if_neg notLf]
    by_cases isCr : c = 13
    · rw [List.filter_cons_of_neg (by simp [isCr])] at long
      simp only [isCr, ne_eq, not_true_eq_false, if_false, if_neg (Nat.not_lt.mpr within)]
      exact ih out later within long
    · rw [List.filter_cons_of_pos (by simp [isCr]), List.append_cons] at long
      simp only [ne_eq, isCr, not_false_eq_true, if_true]
      split
      · rfl
      next fits => exact ih (out ++ [c]) later (Nat.not_lt.mp fits) long

theorem splitWs_get (rest : Bytes) : splitWs (bytes "GET " ++ rest) = bytes "GET" :: splitWs rest := by
  have isWord : IsWord isSpace (bytes "GET") := isWord_of_all (by decide) (by decide)
  have parted : Parted isSpace (32 :: rest) := by
    intro c head
    cases head
    decide
  have apart : bytes "GET " ++ rest = bytes "GET" ++ 32 :: rest := by
    rw [show bytes "GET " = bytes "GET" ++ [32] from by decide, List.append_assoc]
    rfl
  rw [apart, splitWs_eq, splitWs_eq, words_word_append isWord parted, words_cons_sep rest (by decide)]

theorem cmdGet_clean (key : Key) : 10 ∉ bytes "GET " ++ key.text := by
  intro member
  rcases List.mem_append.mp member with fixed | inKey
  · exact absurd fixed (by decide)
  · exact key.oneLine inKey

theorem filter_line (key : Key) : (bytes "GET " ++ key.text).filter (fun c => c ≠ 13) = key.line := by
  rw [List.filter_append, Key.line]
  rfl

section
variable (py : Python)

theorem parseIntFromResp_noTxn : parseIntFromResp py (py.decode (bytes "ERR NO_ACTIVE_TXN")) = none := by
  have tokens : words isWhite (normalize ((bytes "ERR NO_ACTIVE_TXN").map (fun c => Char.ofNat c.toNat))) =
      ["ERR".toList, "NO_ACTIVE_TXN".toList] := by decide
  have first : int py "ERR".toList = none := int_eq_none py (by decide) "ERR".toList 'R' (by decide) (by decide)
  have second : int py "NO_ACTIVE_TXN".toList = none := int_eq_none py (by decide) "NO".toList 'N' (by decide) (by decide)
  rw [decode_bytes py _ (by decide), parseIntFromResp, tokens]
  simp only [List.reverse_cons, List.reverse_nil, List.nil_append, List.cons_append,
    List.findSome?_cons, List.findSome?_nil, first, second]

/-- Outside of a transaction the server refuses the GET, whatever the store has. -/
theorem request_get_refused {link : Link} (synced : Synced link) (closed : link.session.inTxn = false)
    {key : Key} (short : ¬ key.TooLong) (results : Results) :
    ∃ next, link.request py (cmdGet key.text) results = (some (py.decode (bytes "ERR NO_ACTIVE_TXN")), next) ∧
      Synced next ∧ next.session.inTxn = false := by
  have read : readLine [] (cmdGet key.text) = (some key.line, []) := by
    have filtered := readLine_filter [] (cmdGet_clean key)
      (by rw [List.nil_append, filter_line]; exact Nat.not_lt.mp short)
    rwa [List.nil_append, filter_line] at filtered
  have step : { link.session with input := [] }.dispatch key.line results =
      { link.session with input := [] }.sendAll (bytes "ERR NO_ACTIVE_TXN\n") := by
    have start : upper (bytes "GET") ≠ bytes "START" := by decide
    have get : upper (bytes "GET") = bytes "GET" := by decide
    rw [Session.dispatch, Key.line, splitWs_get]
    simp only [if_neg start, if_pos get, Session.doGet, closed, Bool.false_eq_true, if_false]
  have clean : 10 ∉ bytes "ERR NO_ACTIVE_TXN" := by decide
  have said := (Exchanged.sendAll { link.session with input := [] } (bytes "ERR NO_ACTIVE_TXN\n")).replies
  obtain ⟨asked, synced'⟩ := request_turn py synced read step said clean synced.live rfl
  exact ⟨_, asked, synced', closed⟩

omit py in
theorem iterate_ended {s : Session} {rest : Bytes} (closed : s.inTxn = false)
    (read : readLine [] s.input = (none, rest)) (results : Results) :
    s.iterate results = { s with input := rest, running := false } := by
  have kept : s.abandon = s := by
    rw [Session.abandon, closed]
    rfl
  simp only [Session.iterate, read, kept]

/-- After a line that is too long the server has closed the connection, and the client raises. -/
theorem request_get_overlong {link : Link} (synced : Synced link) (closed : link.session.inTxn = false)
    {key : Key} (long : key.TooLong) (results : Results) :
    (link.request py (cmdGet key.text) results).1 = none := by
  have read : (readLine [] (cmdGet key.text)).1 = none :=
    readLine_overlong [] (cmdGet_clean key) (Nat.zero_le _) (by rw [List.nil_append, filter_line]; exact long)
  cases line : readLine [] (cmdGet key.text) with
  | mk got rest =>
    rw [line] at read
    cases read
    have input : readLine [] (link.session.input ++ cmdGet key.text) = (none, rest) := by
      rw [synced.input]
      exact line
    have served : serve { link.session with input := link.session.input ++ cmdGet key.text } results =
        some { link.session with input := rest, running := false } := by
      rw [serve, if_pos synced.live]
      let asked : Session := { link.session with input := link.session.input ++ cmdGet key.text }
      have ended := iterate_ended (s := asked) closed input results
      exact congrArg some ended
    have silent : Link.sent { link.session with input := link.session.input ++ cmdGet key.text }
        { link.session with input := rest, running := false } = [] := by
      rw [Link.sent, List.drop_length]
      rfl
    simp only [Link.request, served, silent, synced.buf, List.append_nil, Link.readline, List.not_mem_nil,
      if_false]

end

section
variable (py : Python) (store : Bytes → Option Bytes) (expectedMap : Bytes → Option Int) (initVal : Int)

omit store expectedMap initVal in
theorem connect_closed : (connect py).session.inTxn = false := by
  have kept : ∀ link : Link, (link.readline py).2.session = link.session := by
    intro link
    unfold Link.readline
    split <;> rfl
  rw [connect, kept]
  rfl

/-- The check reads nothing: it counts no mismatch, and raises on a line that is too long. -/
theorem checkKeys_blind (keys : List Key) {link : Link} (synced : Synced link)
    (closed : link.session.inTxn = false) (verdict : Verdict) (clean : verdict.mismatches = []) :
    ((∃ key ∈ keys, key.TooLong) ∧ keys.foldlM (checkKey py store expectedMap initVal) (link, verdict) = none) ∨
    ((∀ key ∈ keys, ¬ key.TooLong) ∧ ∃ last, last.2.mismatches = [] ∧
      keys.foldlM (checkKey py store expectedMap initVal) (link, verdict) = some last) := by
  induction keys generalizing link verdict with
  | nil => exact .inr ⟨fun _ member => (nomatch member), (link, verdict), clean, rfl⟩
  | cons key keys ih =>
    rw [List.foldlM_cons]
    by_cases long : key.TooLong
    · have raised : checkKey py store expectedMap initVal (link, verdict) key = none := by
        have refused := request_get_overlong py synced closed long (committedResults store key.text)
        cases asked : link.request py (cmdGet key.text) (committedResults store key.text) with
        | mk resp next =>
          rw [asked] at refused
          cases refused
          simp only [checkKey, asked]
      rw [raised]
      exact .inl ⟨⟨key, List.mem_cons_self, long⟩, rfl⟩
    · obtain ⟨next, asked, synced', closed'⟩ :=
        request_get_refused py synced closed long (committedResults store key.text)
      let unread : Verdict := { verdict with unreadable := verdict.unreadable ++
        [(key, normalize (py.decode (bytes "ERR NO_ACTIVE_TXN")))] }
      have stepped : checkKey py store expectedMap initVal (link, verdict) key = some (next, unread) := by
        simp only [checkKey, asked, parseIntFromResp_noTxn]
        rfl
      rw [stepped]
      rcases ih synced' closed' unread clean with ⟨⟨other, member, far⟩, raised⟩ | ⟨short, last, none, returned⟩
      · exact .inl ⟨⟨other, List.mem_cons_of_mem _ member, far⟩, raised⟩
      · refine .inr ⟨?_, last, none, returned⟩
        intro other member
        rcases List.mem_cons.mp member with rfl | later
        · exact long
        · exact short other later

/-- On one store the check is sound where it raises, and where there is nothing for it to find. -/
theorem sound_iff (keys : List Key) : Sound py store expectedMap initVal keys ↔
    (∃ key ∈ keys, key.TooLong) ∨
      ∀ key ∈ keys, committedValue py store key = some (expect expectedMap initVal key) := by
  have blind := checkKeys_blind py store expectedMap initVal keys (connect_synced py) (connect_closed py)
    ⟨[], []⟩ rfl
  unfold Sound verifyFinalValues
  rcases blind with ⟨long, raised⟩ | ⟨short, last, none, returned⟩
  · rw [raised]
    exact ⟨fun _ => .inl long, fun _ _ absent => (nomatch absent)⟩
  · rw [returned]
    constructor
    · intro sound
      exact .inr (sound last.2 rfl none)
    · rintro (⟨key, member, far⟩ | right)
      · exact absurd far (short key member)
      · exact fun _ _ _ => right

end

/-- The check is sound for the keys it does not ask for or cannot, and on stores that are right anyway. -/
theorem verify_sound_iff (py : Python) (keys : List Key) :
    ((∀ store expectedMap initVal, Sound py store expectedMap initVal keys) ↔
      keys = [] ∨ ∃ key ∈ keys, key.TooLong) ∧
    ∀ store expectedMap initVal, Sound py store expectedMap initVal keys ↔
      (∃ key ∈ keys, key.TooLong) ∨
        ∀ key ∈ keys, committedValue py store key = some (expect expectedMap initVal key) := by
  refine ⟨⟨fun sound => ?_, ?_⟩, fun store expectedMap initVal => sound_iff py store expectedMap initVal keys⟩
  · rcases (sound_iff py (fun _ => none) (fun _ => none) 0 keys).mp (sound _ _ _) with long | right
    · exact .inr long
    · cases keys with
      | nil => exact .inl rfl
      | cons key rest => exact nomatch right key List.mem_cons_self
  · rintro (rfl | long) store expectedMap initVal
    · exact fun _ _ _ key member => (nomatch member)
    · exact (sound_iff py store expectedMap initVal keys).mpr (.inl long)

/-- All increments of a key are lost, and the check passes. -/
theorem verify_misses_lost_updates :
    ¬ ∀ (py : Python) (store : Bytes → Option Bytes) (expectedMap : Bytes → Option Int) (initVal : Int)
      (keys : List Key), Sound py store expectedMap initVal keys := by
  intro sound
  let key : Key := ⟨bytes "hotk_0", by decide⟩
  rcases (sound_iff ascii (fun _ => some (bytes "0")) (fun _ => some 5) 0 [key]).mp (sound _ _ _ _ _) with
    ⟨other, member, long⟩ | right
  · rw [List.mem_singleton.mp member] at long
    exact absurd long (by decide)
  · have value := right key (List.mem_singleton.mpr rfl)
    exact absurd value (by decide +kernel)

end DataAgentDB.Client
