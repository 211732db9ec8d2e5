import Mathlib.Data.List.Induction
import Mathlib.Data.List.Sort
import Mathlib.Tactic.Common

/-! Replaying committed transactions over a store of locations, one after another. A
commit writes some locations and has read some contents; a list of commits is serial
when each reads what the ones before it left. -/

namespace CommitReplay

variable {κ ρ α : Type*} (write : κ → ρ → Option α)

def install (store : ρ → α) (commit : κ) : ρ → α :=
  fun location => (write commit location).getD (store location)

def replay (init : ρ → α) (commits : List κ) : ρ → α := commits.foldl (install write) init

/-- Every commit's reads hold of the store the commits before it leave. -/
def Serial (reads : κ → (ρ → α) → Prop) (init : ρ → α) : List κ → Prop
  | [] => True
  | commit :: rest => reads commit init ∧ Serial reads (install write init commit) rest

@[simp] theorem replay_nil (init : ρ → α) : replay write init [] = init := rfl

theorem replay_append (init : ρ → α) (front back : List κ) :
    replay write init (front ++ back) = replay write (replay write init front) back :=
  List.foldl_append

theorem replay_snoc (init : ρ → α) (front : List κ) (commit : κ) :
    replay write init (front ++ [commit]) = install write (replay write init front) commit :=
  replay_append write init front [commit]

@[simp] theorem install_written {commit : κ} {location : ρ} {value : α}
    (written : write commit location = some value) (store : ρ → α) :
    install write store commit location = value := by
  simp [install, written]

@[simp] theorem install_untouched {commit : κ} {location : ρ}
    (untouched : write commit location = none) (store : ρ → α) :
    install write store commit location = store location := by
  simp [install, untouched]

theorem replay_congr {write' : κ → ρ → Option α} (init : ρ → α) (commits : List κ)
    (same : ∀ commit ∈ commits, write' commit = write commit) :
    replay write' init commits = replay write init commits := by
  refine List.foldl_ext _ _ _ (fun store commit member => ?_)
  unfold install
  rw [same commit member]

/-- The replay at a location depends only on the commits that write it. -/
theorem replay_filter (init : ρ → α) (commits : List κ) (keep : κ → Bool) (location : ρ)
    (dropped : ∀ commit ∈ commits, keep commit = false → write commit location = none) :
    replay write init (commits.filter keep) location = replay write init commits location := by
  induction commits using List.reverseRecOn with
  | nil => rfl
  | append_singleton front commit ih =>
    have shorter := ih (fun other member => dropped other (List.mem_append_left _ member))
    rw [List.filter_append, replay_append, replay_snoc]
    cases kept : keep commit with
    | true =>
      simp only [List.filter_cons_of_pos kept, List.filter_nil]
      change install write _ commit location = _
      simp only [install, shorter]
    | false =>
      have untouched := dropped commit (by simp) kept
      simp [kept, untouched, shorter]

theorem replay_untouched (init : ρ → α) (commits : List κ) (location : ρ)
    (untouched : ∀ commit ∈ commits, write commit location = none) :
    replay write init commits location = init location := by
  have dropped := replay_filter write init commits (fun _ => false) location
    (fun commit member _ => untouched commit member)
  simpa using dropped.symm

/-- The last commit that writes a location decides its contents. -/
theorem replay_last (init : ρ → α) (front back : List κ) (commit : κ) (location : ρ) (value : α)
    (written : write commit location = some value)
    (untouched : ∀ other ∈ back, write other location = none) :
    replay write init (front ++ commit :: back) location = value := by
  rw [List.append_cons, replay_append, replay_untouched write _ back location untouched,
    replay_snoc, install_written write written]

theorem serial_of_prefixes (reads : κ → (ρ → α) → Prop) (init : ρ → α) (commits : List κ)
    (held : ∀ front commit back, commits = front ++ commit :: back →
      reads commit (replay write init front)) : Serial write reads init commits := by
  induction commits generalizing init with
  | nil => trivial
  | cons commit rest ih =>
    refine ⟨held [] commit rest rfl, ih _ ?_⟩
    intro front other back same
    exact held (commit :: front) other back (by rw [same, List.cons_append])

theorem serial_snoc (reads : κ → (ρ → α) → Prop) (init : ρ → α) (front : List κ) (commit : κ) :
    Serial write reads init (front ++ [commit]) ↔
      Serial write reads init front ∧ reads commit (replay write init front) := by
  induction front generalizing init with
  | nil => simp [Serial]
  | cons first rest ih => simp only [List.cons_append, Serial, ih, and_assoc, replay, List.foldl_cons]

theorem serial_congr {write' : κ → ρ → Option α} {reads reads' : κ → (ρ → α) → Prop} (init : ρ → α)
    (commits : List κ) (same : ∀ commit ∈ commits, write' commit = write commit)
    (observed : ∀ commit ∈ commits, reads' commit = reads commit) :
    Serial write' reads' init commits ↔ Serial write reads init commits := by
  induction commits generalizing init with
  | nil => rfl
  | cons first rest ih =>
    have step : install write' init first = install write init first := by
      unfold install
      rw [same first (by simp)]
    simp only [Serial, step, observed first (by simp)]
    exact and_congr_right (fun _ => ih _ (fun commit member => same commit (List.mem_cons_of_mem _ member))
      (fun commit member => observed commit (List.mem_cons_of_mem _ member)))

/-- When every commit that writes a location writes the successor of what it has read there, the
location has moved on once for each of them. -/
theorem replay_iterate {reads : κ → (ρ → α) → Prop} {init : ρ → α} {commits : List κ} (next : α → α)
    (location : ρ) (serial : Serial write reads init commits)
    (steps : ∀ commit ∈ commits, ∀ store value, reads commit store → write commit location = some value →
      value = next (store location)) :
    replay write init commits location =
      next^[commits.countP (fun commit => (write commit location).isSome)] (init location) := by
  induction commits using List.reverseRecOn with
  | nil => rfl
  | append_singleton front commit ih =>
    obtain ⟨earlier, read⟩ := (serial_snoc write reads init front commit).mp serial
    have shorter := ih earlier (fun other member => steps other (List.mem_append_left _ member))
    rw [replay_snoc, List.countP_append, List.countP_singleton]
    cases written : write commit location with
    | none => simpa [written] using shorter
    | some value =>
      rw [install_written write written, steps commit (by simp) _ value read written, shorter]
      exact (Function.iterate_succ_apply' next _ _).symm

variable (ts : κ → Nat)

theorem before_eq_filter {commits front back : List κ} {commit : κ}
    (sorted : commits.Pairwise (fun a b => ts a < ts b)) (split : commits = front ++ commit :: back) :
    front = commits.filter (fun other => ts other < ts commit) := by
  subst split
  obtain ⟨_, later, between⟩ := List.pairwise_append.mp sorted
  have frontKept : front.filter (fun other => ts other < ts commit) = front := by
    apply List.filter_eq_self.mpr
    intro other member
    exact decide_eq_true (between other member commit (by simp))
  have backDropped : back.filter (fun other => ts other < ts commit) = [] := by
    apply List.filter_eq_nil_iff.mpr
    intro other member less
    have above := (List.pairwise_cons.mp later).1 other member
    exact absurd (of_decide_eq_true less) (Nat.not_lt.mpr above.le)
  rw [List.filter_append, frontKept, List.filter_cons, if_neg (by simp), backDropped, List.append_nil]

/-- Commits read off a larger timestamp do not change the replay up to a smaller one. -/
theorem filter_snoc_late {commits : List κ} {commit : κ} {bound : Nat} (late : bound ≤ ts commit) :
    (commits ++ [commit]).filter (fun other => ts other < bound) =
      commits.filter (fun other => ts other < bound) := by
  rw [List.filter_append, List.filter_cons, if_neg (by simpa using late)]
  simp

theorem serial_of_snapshots (reads : κ → (ρ → α) → Prop) (init : ρ → α) (commits : List κ)
    (sorted : commits.Pairwise (fun a b => ts a < ts b))
    (held : ∀ commit ∈ commits,
      reads commit (replay write init (commits.filter (fun other => ts other < ts commit)))) :
    Serial write reads init commits := by
  apply serial_of_prefixes
  intro front commit back split
  rw [before_eq_filter ts sorted split]
  exact held commit (by rw [split]; simp)

/-- Two listings of the same commits by increasing timestamp are the same list. -/
theorem sorted_unique {first second : List κ} (sorted : first.Pairwise (fun a b => ts a < ts b))
    (sorted' : second.Pairwise (fun a b => ts a < ts b)) (same : ∀ c, c ∈ first ↔ c ∈ second) :
    first = second := by
  have nodup : ∀ {l : List κ}, l.Pairwise (fun a b => ts a < ts b) → l.Nodup := fun order =>
    order.imp (fun less equal => absurd (equal ▸ less) (lt_irrefl _))
  have perm : first.Perm second := (List.perm_ext_iff_of_nodup (nodup sorted) (nodup sorted')).mpr same
  exact perm.eq_of_pairwise (fun a b _ _ up down => absurd (up.trans down) (lt_irrefl _)) sorted sorted'

end CommitReplay
