import DataAgentDB.Occ.Latching
import DataAgentDB.Storage.Finish

/-! The row objects `OptCC::validate` latches, frees and releases, whatever its row checks say. -/

namespace DataAgentDB.Occ
open Storage TxnMan

/-- What `validate` does to the object of a row. -/
inductive Touch (ρ : Type) where
  | latch (row : ρ)
  | free (row : ρ)
  | release (row : ρ)
  deriving DecidableEq, Repr

variable {ρ α : Type}

/-- The latch loop with the outcomes of its checks given: the rows latched, `lock_cnt`, and `ok`. -/
def latchLoop (check : ρ → Bool) : List (Access ρ α) → Nat → List ρ × Nat × Bool
  | [], lockCnt => ([], lockCnt, true)
  | acc :: rest, lockCnt =>
      if check acc.origRow then
        let (latched, count, ok) := latchLoop check rest (lockCnt + 1)
        (acc.origRow :: latched, count, ok)
      else ([acc.origRow], lockCnt + 1, false)

/-- `OptCC::validate` with the outcomes of its checks given: the latch loop, what `cleanup` frees,
and the release loop over `accesses` below `lock_cnt`. -/
def touches (check : ρ → Bool) (txn : TxnMan ρ α) (rows : ρ → Row α) : List (Touch ρ) :=
  let txn := txn.sortAccesses rows
  let (latched, lockCnt, ok) := latchLoop check txn.accesses 0
  latched.map .latch ++ (if ok then [] else txn.insertRows.map .free) ++
    (txn.accesses.take lockCnt).map (fun acc => .release acc.origRow)

def latchedRows (trail : List (Touch ρ)) : List ρ :=
  trail.filterMap (fun touch => match touch with | .latch row => some row | _ => none)

def releasedRows (trail : List (Touch ρ)) : List ρ :=
  trail.filterMap (fun touch => match touch with | .release row => some row | _ => none)

/-- The live flags after some touches. -/
def liveAfter [DecidableEq ρ] (rows : ρ → Row α) (trail : List (Touch ρ)) : ρ → Bool :=
  trail.foldl (fun live touch => match touch with | .free row => Function.update live row false | _ => live)
    (fun row => (rows row).live)

/-- A prefix of the sorted table is latched and released, each row once and while it is alive. -/
structure ReleasesOnce [DecidableEq ρ] (check : ρ → Bool) (txn : TxnMan ρ α) (rows : ρ → Row α) : Prop where
  latched : latchedRows (touches check txn rows) <+: (txn.sortAccesses rows).accesses.map Access.origRow
  released : (releasedRows (touches check txn rows)).Perm (latchedRows (touches check txn rows))
  once : (releasedRows (touches check txn rows)).Nodup
  alive : ∀ before row after, touches check txn rows = before ++ .release row :: after →
    liveAfter rows before row = true

/-- A row that sorts after no row failing its check is live, and when a check fails the
transaction did not insert it. -/
def Spared (check : ρ → Bool) (txn : TxnMan ρ α) (rows : ρ → Row α) : Prop :=
  ∀ acc ∈ txn.accesses,
    (∀ failing ∈ txn.accesses, check failing.origRow = false →
      sortsAfter (rows acc.origRow) (rows failing.origRow) = false) →
    (rows acc.origRow).live = true ∧
      ((∃ failing ∈ txn.accesses, check failing.origRow = false) → acc.origRow ∉ txn.insertRows)

theorem latchLoop_eq (check : ρ → Bool) (list : List (Access ρ α)) (lockCnt : Nat) :
    ∃ k, latchLoop check list lockCnt =
      ((list.take k).map Access.origRow, lockCnt + k, list.all (fun acc => check acc.origRow)) := by
  induction list generalizing lockCnt with
  | nil => exact ⟨0, rfl⟩
  | cons first rest ih =>
    by_cases passes : check first.origRow = true
    · obtain ⟨k, same⟩ := ih (lockCnt + 1)
      refine ⟨k + 1, ?_⟩
      simp only [latchLoop, passes, ↓reduceIte, same, List.take_succ_cons, List.map_cons,
        List.all_cons, Bool.true_and]
      rw [Nat.add_assoc, Nat.add_comm 1 k]
    · refine ⟨1, ?_⟩
      simp [latchLoop, passes]

/-- What is latched of a sorted table: the rows that sort after no row failing its check. -/
theorem mem_latchLoop (check : ρ → Bool) {rows : ρ → Row α} {list : List (Access ρ α)} (lockCnt : Nat)
    (sorted : (list.map Access.origRow).Pairwise (fun a b => (rows a).sortKey < (rows b).sortKey))
    {acc : Access ρ α} (member : acc ∈ list) :
    acc.origRow ∈ (latchLoop check list lockCnt).1 ↔ ∀ failing ∈ list, check failing.origRow = false →
      sortsAfter (rows acc.origRow) (rows failing.origRow) = false := by
  induction list generalizing lockCnt with
  | nil => cases member
  | cons first rest ih =>
    obtain ⟨below, sorted'⟩ := List.pairwise_cons.mp sorted
    have after : ∀ other ∈ rest, (rows first.origRow).sortKey < (rows other.origRow).sortKey :=
      fun other later => below _ (List.mem_map_of_mem later)
    have least : ∀ other ∈ first :: rest, sortsAfter (rows first.origRow) (rows other.origRow) = false := by
      intro other within
      rw [Bool.eq_false_iff, ne_eq, sortsAfter_iff, not_lt]
      rcases List.mem_cons.mp within with rfl | later
      · exact le_rfl
      · exact (after other later).le
    by_cases passes : check first.origRow = true
    · simp only [latchLoop, passes, ↓reduceIte, List.mem_cons]
      rcases List.mem_cons.mp member with rfl | later
      · exact iff_of_true (.inl rfl) (fun failing within _ => least failing (List.mem_cons.mpr within))
      · have apart : acc.origRow ≠ first.origRow := fun same => (after acc later).ne (same ▸ rfl)
        simp only [apart, false_or, ih (lockCnt + 1) sorted' later, forall_eq_or_imp, passes,
          Bool.true_eq_false, false_imp_iff, true_and]
    · have fails : check first.origRow = false := Bool.eq_false_iff.mpr passes
      simp only [latchLoop, fails, Bool.false_eq_true, ↓reduceIte, List.mem_singleton]
      rcases List.mem_cons.mp member with rfl | later
      · exact iff_of_true rfl (fun failing within _ => least failing within)
      · have above := after acc later
        refine iff_of_false (fun same => above.ne (same ▸ rfl)) (fun none_before => ?_)
        have ahead := (sortsAfter_iff _ _).mpr above
        rw [none_before first List.mem_cons_self fails] at ahead
        cases ahead

/-- The prefix of the sorted table that is latched. -/
def heldRows (check : ρ → Bool) (txn : TxnMan ρ α) (rows : ρ → Row α) : List ρ :=
  (latchLoop check (txn.sortAccesses rows).accesses 0).1

section Call
variable {check : ρ → Bool} {txn : TxnMan ρ α} {rows : ρ → Row α}

theorem heldRows_front (check : ρ → Bool) (txn : TxnMan ρ α) (rows : ρ → Row α) :
    heldRows check txn rows <+: (txn.sortAccesses rows).accesses.map Access.origRow := by
  obtain ⟨k, same⟩ := latchLoop_eq check (txn.sortAccesses rows).accesses 0
  rw [heldRows, same, List.map_take]
  exact List.take_prefix _ _

theorem mem_heldRows (distinct : Distinct rows txn.accesses) {acc : Access ρ α} (member : acc ∈ txn.accesses) :
    acc.origRow ∈ heldRows check txn rows ↔ ∀ failing ∈ txn.accesses, check failing.origRow = false →
      sortsAfter (rows acc.origRow) (rows failing.origRow) = false := by
  have perm := txn.sortAccesses_perm rows
  rw [heldRows, mem_latchLoop check 0 (strictly_sorted (fun _ => rfl) distinct) (perm.mem_iff.mpr member)]
  simp only [perm.mem_iff]

theorem touches_eq (check : ρ → Bool) (txn : TxnMan ρ α) (rows : ρ → Row α) :
    touches check txn rows = (heldRows check txn rows).map .latch ++
      (if txn.accesses.all (fun acc => check acc.origRow) then [] else txn.insertRows.map .free) ++
      (heldRows check txn rows).map .release := by
  obtain ⟨k, same⟩ := latchLoop_eq check (txn.sortAccesses rows).accesses 0
  have all := (txn.sortAccesses_perm rows).all_eq (f := fun acc => check acc.origRow)
  simp only [touches, heldRows, same, all, Nat.zero_add, List.map_map]
  rfl

theorem latchedRows_touches (check : ρ → Bool) (txn : TxnMan ρ α) (rows : ρ → Row α) :
    latchedRows (touches check txn rows) = heldRows check txn rows := by
  rw [touches_eq]
  split <;> simp [latchedRows]

theorem releasedRows_touches (check : ρ → Bool) (txn : TxnMan ρ α) (rows : ρ → Row α) :
    releasedRows (touches check txn rows) = heldRows check txn rows := by
  rw [touches_eq]
  split <;> simp [releasedRows]

theorem free_mem_touches (row : ρ) : .free row ∈ touches check txn rows ↔
    (∃ failing ∈ txn.accesses, check failing.origRow = false) ∧ row ∈ txn.insertRows := by
  rw [touches_eq]
  by_cases passes : txn.accesses.all (fun acc => check acc.origRow) = true
  · have none_fails : ¬ ∃ failing ∈ txn.accesses, check failing.origRow = false := by
      intro ⟨failing, member, fails⟩
      rw [List.all_eq_true.mp passes failing member] at fails
      cases fails
    simp [passes, none_fails]
  · have some_fails : ∃ failing ∈ txn.accesses, check failing.origRow = false := by
      simpa using passes
    simp [passes, some_fails]

theorem liveAfter_iff [DecidableEq ρ] (rows : ρ → Row α) (trail : List (Touch ρ)) (row : ρ) :
    liveAfter rows trail row = true ↔ (rows row).live = true ∧ .free row ∉ trail := by
  have flags : ∀ live : ρ → Bool, trail.foldl (fun live touch =>
      match touch with | .free row => Function.update live row false | _ => live) live row = true ↔
      live row = true ∧ .free row ∉ trail := by
    induction trail with
    | nil => simp
    | cons touch rest ih =>
      intro live
      rw [List.foldl_cons, ih]
      cases touch with
      | free gone =>
        by_cases here : row = gone
        · subst here
          simp
        · simp [here]
      | latch _ | release _ => simp
  exact flags _

/-- Every release finds its row alive when no row of the prefix is freed, before or by `cleanup`. -/
theorem releases_alive_iff [DecidableEq ρ] :
    (∀ before row after, touches check txn rows = before ++ .release row :: after →
      liveAfter rows before row = true) ↔
    ∀ row ∈ heldRows check txn rows, (rows row).live = true ∧ .free row ∉ touches check txn rows := by
  constructor
  · intro alive row member
    obtain ⟨front, back, parts⟩ := List.append_of_mem member
    have live := alive ((heldRows check txn rows).map .latch ++
      (if txn.accesses.all (fun acc => check acc.origRow) then [] else txn.insertRows.map .free) ++
      front.map .release) row (back.map .release) (by rw [touches_eq]; nth_rewrite 2 [parts]; simp)
    rw [liveAfter_iff] at live
    refine ⟨live.1, fun gone => live.2 ?_⟩
    rw [touches_eq, List.mem_append] at gone
    exact List.mem_append_left _ (gone.resolve_right (by simp))
  · intro alive before row after same
    have member : row ∈ heldRows check txn rows := by
      rw [← releasedRows_touches, same]
      simp [releasedRows]
    obtain ⟨live, kept⟩ := alive row member
    rw [liveAfter_iff]
    exact ⟨live, fun gone => kept (same ▸ List.mem_append_left _ gone)⟩

theorem releasesOnce_of_alive [DecidableEq ρ] (distinct : Distinct rows txn.accesses)
    (alive : ∀ row ∈ heldRows check txn rows,
      (rows row).live = true ∧ .free row ∉ touches check txn rows) : ReleasesOnce check txn rows where
  latched := by
    rw [latchedRows_touches]
    exact heldRows_front _ _ _
  released := by rw [latchedRows_touches, releasedRows_touches]
  once := by
    rw [releasedRows_touches]
    exact (nodup_of_increasing (strictly_sorted (fun _ => rfl) distinct)).sublist
      (heldRows_front _ _ _).sublist
  alive := releases_alive_iff.mpr alive

theorem releasesOnce_iff [DecidableEq ρ] (check : ρ → Bool) {txn : TxnMan ρ α} {rows : ρ → Row α}
    (distinct : Distinct rows txn.accesses) : ReleasesOnce check txn rows ↔ Spared check txn rows := by
  constructor
  · intro once acc member first
    obtain ⟨live, kept⟩ := releases_alive_iff.mp once.alive _ ((mem_heldRows distinct member).mpr first)
    exact ⟨live, fun fails inserted => kept ((free_mem_touches _).mpr ⟨fails, inserted⟩)⟩
  · intro spared
    apply releasesOnce_of_alive distinct
    intro row member
    have listed := (heldRows_front check txn rows).subset member
    obtain ⟨acc, sorted, rfl⟩ := List.mem_map.mp listed
    have inTable := (txn.sortAccesses_perm rows).mem_iff.mp sorted
    obtain ⟨live, kept⟩ := spared acc inTable ((mem_heldRows distinct inTable).mp member)
    refine ⟨live, fun gone => ?_⟩
    obtain ⟨fails, inserted⟩ := (free_mem_touches _).mp gone
    exact kept fails inserted

end Call

section Validate
variable [DecidableEq ρ] {rows after : ρ → Row α} {startTs holder lockCnt count : Nat} {ok : Bool}

/-- The latch loop over the rows counts and decides as the loop over the checks' outcomes. -/
theorem latchLoop_of_latchRows {list : List (Access ρ α)}
    (taken : latchRows startTs holder rows list lockCnt = some (after, count, ok)) :
    (latchLoop (fun row => (rows row).validate startTs) list lockCnt).2 = (count, ok) := by
  induction list generalizing rows lockCnt with
  | nil => cases taken; rfl
  | cons first rest ih =>
    simp only [latchRows] at taken
    split at taken
    next => cases taken
    next row outcome =>
      obtain ⟨-, rfl⟩ := Row.latch_eq_some.mp outcome
      split at taken
      next valid =>
        have same := ih taken
        have checks : (fun row => (Function.update rows first.origRow { rows first.origRow with
            manager := { (rows first.origRow).manager with latch := some holder } } row).validate startTs) =
            fun row => (rows row).validate startTs := by
          funext row
          by_cases here : row = first.origRow
          · subst here
            simp [Row.validate]
          · simp [here]
        have passes : (rows first.origRow).validate startTs = true := valid
        rw [checks] at same
        simp only [latchLoop, passes, ↓reduceIte]
        exact same
      next invalid =>
        cases taken
        have fails : ¬ (rows first.origRow).validate startTs = true := invalid
        simp [latchLoop, fails]

/-- A `validate` that completes releases live rows only. -/
theorem releasesOnce_of_validate {txn txn' : TxnMan ρ α} {timestamp next : Nat} {rc : RC}
    (distinct : Distinct rows txn.accesses)
    (taken : txn.validate rows timestamp holder = some (rc, after, next, txn')) :
    ReleasesOnce (fun row => (rows row).validate txn.startTs) txn rows := by
  apply releasesOnce_of_alive distinct
  unfold validate at taken
  split at taken
  next live =>
    simp only [Option.bind_eq_bind, Option.bind_eq_some_iff] at taken
    obtain ⟨⟨rows₁, lockCnt, ok⟩, latching, taken⟩ := taken
    have counted := latchLoop_of_latchRows latching
    obtain ⟨k, loop⟩ := latchLoop_eq (fun row => (rows row).validate txn.startTs)
      (txn.sortAccesses rows).accesses 0
    rw [sortAccesses_startTs, loop, Nat.zero_add] at counted
    cases counted
    have held : heldRows (fun row => (rows row).validate txn.startTs) txn rows =
        ((txn.sortAccesses rows).accesses.take lockCnt).map Access.origRow := by rw [heldRows, loop]
    intro row member
    have listed := (heldRows_front _ _ _).subset member
    obtain ⟨acc, inTable, rfl⟩ := List.mem_map.mp listed
    have inTable := (txn.sortAccesses_perm rows).mem_iff.mp inTable
    refine ⟨List.all_eq_true.mp live acc inTable, fun gone => ?_⟩
    obtain ⟨⟨failing, failingIn, fails⟩, inserted⟩ := (free_mem_touches _).mp gone
    have some_fails : ((txn.sortAccesses rows).accesses.all
        (fun acc => (rows acc.origRow).validate txn.startTs)) = false := by
      rw [List.all_eq_false]
      exact ⟨failing, (txn.sortAccesses_perm rows).mem_iff.mpr failingIn, by simp [fails]⟩
    simp only [some_fails, Bool.false_eq_true, ↓reduceIte, Option.bind_eq_some_iff] at taken
    obtain ⟨⟨written, _⟩, cleaned, last, released, -⟩ := taken
    obtain ⟨rfl, -⟩ := cleanup_abort cleaned
    have alive := (releaseRows_eq released).1 acc.origRow (held ▸ member)
    simp [freed, inserted, Row.freeRow] at alive
  next => cases taken

end Validate

end DataAgentDB.Occ
