import DataAgentDB.Storage.Arena

/-! `mem_alloc` over its arenas: to which allocator `alloc` turns, to which one `free` gives the
pointer back, and when the two agree. -/

namespace DataAgentDB.Storage.MemAlloc
open ByteMemory LabelledRun

/-- `THREAD_ALLOC`, and the globals that size the tables. -/
structure Config where
  threadAlloc : Bool
  gThreadCnt : Nat
  gInitParallelism : Nat
  deriving DecidableEq, Repr

namespace Config

/-- `_bucket_cnt`, as `init` sets it. -/
def bucketCnt (config : Config) : Nat :=
  if config.gThreadCnt < config.gInitParallelism then config.gInitParallelism * 4 + 1
  else config.gThreadCnt * 4 + 1

/-- `buf_cnt` of `init_thread_arena`. -/
def bufCnt (config : Config) : Nat :=
  if config.gThreadCnt < config.gInitParallelism then config.gInitParallelism else config.gThreadCnt

theorem bucketCnt_pos (config : Config) : 0 < config.bucketCnt := by
  unfold bucketCnt
  split <;> omega

end Config

instance : NeZero SizeNum := ⟨by decide⟩

/-- `BlockSizes[i]`. -/
def blockSize (i : Fin SizeNum) : Nat := BlockSizes.get i

/-- `get_size_id`; none is the failed assertion. -/
def getSizeId (size : Nat) : Option (Fin SizeNum) :=
  (List.finRange SizeNum).find? (fun i => decide (size ≤ blockSize i))

theorem blockSize_known (i : Fin SizeNum) : blockSize i ∈ BlockSizes := by
  unfold blockSize
  exact List.get_mem _ _

/-- `get_size_id` finds the arena of a block by the size in its header. -/
theorem getSizeId_blockSize (i : Fin SizeNum) : getSizeId (blockSize i) = some i := by
  revert i
  decide

theorem getSizeId_le {size : Nat} {i : Fin SizeNum} (found : getSizeId size = some i) : size ≤ blockSize i :=
  of_decide_eq_true (List.find?_some (p := fun i => decide (size ≤ blockSize i)) found)

section Probe

variable {n : Nat}

/-- The entries of a table of threads from `entry` on, up to the first that stops the loop; none if
the loop goes round for ever. -/
def probe (stop : Fin n → Bool) : Nat → Fin n → Option (Fin n)
  | 0, _ => none
  | left + 1, entry =>
      if stop entry then some entry else probe stop left ⟨(entry + 1) % n, Nat.mod_lt _ entry.pos⟩

/-- A loop that does not end stops nowhere on its way. -/
theorem not_stop_of_probe {stop : Fin n → Bool} {left i : Nat} {entry at' : Fin n}
    (endless : probe stop left entry = none) (before : i < left) (there : (entry + i) % n = (at' : Nat)) :
    stop at' = false := by
  induction left generalizing entry i with
  | zero => omega
  | succ left ih =>
    rw [probe] at endless
    split at endless
    next => cases endless
    next goes =>
      cases i with
      | zero =>
        have same : entry = at' := Fin.ext ((Nat.mod_eq_of_lt entry.isLt).symm.trans there)
        exact same ▸ Bool.eq_false_iff.mpr goes
      | succ i =>
        refine ih endless (Nat.lt_of_succ_lt_succ before) ?_
        rw [← there]
        simp only [Nat.mod_add_mod]
        congr 1
        omega

/-- Once round the table, every entry was tried. -/
theorem probe_ends (stop : Fin n → Bool) (stopper : Fin n) (stops : stop stopper = true) (entry : Fin n) :
    ∃ last, probe stop n entry = some last := by
  cases found : probe stop n entry with
  | some last => exact ⟨last, rfl⟩
  | none =>
    have positive := entry.pos
    have there : (entry + (stopper + (n - entry)) % n) % n = (stopper : Nat) := by
      rw [Nat.add_mod_mod]
      have sum : (entry : Nat) + (stopper + (n - entry)) = stopper + n := by omega
      rw [sum, Nat.add_mod_right]
      exact Nat.mod_eq_of_lt stopper.isLt
    have never := not_stop_of_probe found (Nat.mod_lt _ positive) there
    rw [stops] at never
    cases never

end Probe

/-- Where `alloc` takes a block from and where `free` gives it. -/
inductive Allocator where
  | malloc
  | arena (arenaId : Nat) (sizeId : Fin SizeNum)
  deriving DecidableEq, Repr

/-- The block size of an arena; `malloc` has none. -/
def Allocator.kind : Allocator → Option Nat
  | malloc => none
  | arena _ sizeId => some (blockSize sizeId)

/-- A pointer that `alloc` returned, with the call that it answered. -/
structure Issued where
  ptr : Nat
  size : Nat
  pooled : Bool
  source : Allocator
  deriving DecidableEq, Repr

/-- `_arenas` and `pid_arena` with the flags of global.cpp; `issued` and `held` keep what was
handed out and what of it is `malloc`'s. An empty entry of `pid_arena` is `(0, 0)`. -/
structure State (config : Config) where
  pool : Pool (Nat × Fin SizeNum)
  pidArena : Fin config.bucketCnt → Nat × Nat
  warmupFinish : Bool
  enableThreadMemPool : Bool
  issued : List Issued
  held : List Region

namespace State

variable {config : Config}

def pooling (state : State config) : Bool := state.warmupFinish || state.enableThreadMemPool

/-- `pid % _bucket_cnt`. -/
def firstEntry (config : Config) (pid : Nat) : Fin config.bucketCnt :=
  ⟨pid % config.bucketCnt, Nat.mod_lt _ config.bucketCnt_pos⟩

/-- `register_thread`; none if the table is full and the loop never ends. -/
def registerThread (state : State config) (pid thdId : Nat) : Option (State config) :=
  if config.threadAlloc then
    (probe (fun entry => decide ((state.pidArena entry).1 = 0)) config.bucketCnt (firstEntry config pid)).map
      (fun entry => { state with pidArena := Function.update state.pidArena entry (pid, thdId) })
  else some state

def unregister (state : State config) : State config :=
  if config.threadAlloc then { state with pidArena := fun _ => (0, 0) } else state

/-- `get_arena_id`; a thread that is not registered gets what the empty entry says. -/
def getArenaId (state : State config) (pid : Nat) : Option Nat :=
  (probe (fun entry => decide ((state.pidArena entry).1 = pid ∨ (state.pidArena entry).1 = 0))
    config.bucketCnt (firstEntry config pid)).map (fun entry => (state.pidArena entry).2)

/-- `_arenas[arena_id][size_id]`, if there is one. -/
def arenaOf (state : State config) (pid size : Nat) : Option Allocator := do
  let arenaId ← state.getArenaId pid
  let sizeId ← getSizeId size
  if arenaId < config.bufCnt then some (.arena arenaId sizeId) else none

/-- The allocator that `alloc` chooses. -/
def allocSource (state : State config) (pid size : Nat) : Option Allocator :=
  if blockSize (Fin.last 3) < size then some .malloc
  else if config.threadAlloc && state.pooling then state.arenaOf pid (size % 2 ^ 32)
  else some .malloc

/-- `mem_alloc::alloc` by a thread; `fresh` is what `malloc` returns if it is called. -/
def alloc (state : State config) (pid size fresh : Nat) : Option (Nat × State config) :=
  (state.allocSource pid size).map fun source =>
    match source with
    | .malloc => (fresh, { state with
        issued := ⟨fresh, size, state.pooling, source⟩ :: state.issued
        held := ⟨fresh, max size 1⟩ :: state.held })
    | .arena arenaId sizeId =>
        let (ptr, pool) := state.pool.alloc (arenaId, sizeId) fresh
        (ptr, { state with pool := pool, issued := ⟨ptr, size, state.pooling, source⟩ :: state.issued })

/-- The allocator that `free` chooses, by the header in front of the pointer. -/
def freeTarget (state : State config) (pid ptr : Nat) : Option Allocator :=
  if config.threadAlloc then state.arenaOf pid (FreeBlock.size state.pool.mem (FreeBlock.ofPtr ptr))
  else some .malloc

/-- `mem_alloc::free` by a thread, `NO_FREE` being off. -/
def free (state : State config) (pid ptr : Nat) : Option (State config) :=
  (state.freeTarget pid ptr).map fun target =>
    match target with
    | .malloc => { state with
        issued := state.issued.filter (fun entry => entry.ptr ≠ ptr)
        held := state.held.filter (fun region => region.start ≠ ptr) }
    | .arena arenaId sizeId => { state with
        pool := state.pool.free (arenaId, sizeId) ptr
        issued := state.issued.filter (fun entry => entry.ptr ≠ ptr) }

/-- What `alloc` asks of `malloc`, if it calls it; `malloc(0)` returns an address of its own. -/
def asked (state : State config) (pid size : Nat) : Option Nat :=
  match state.allocSource pid size with
  | some .malloc => some (max size 1)
  | some (.arena arenaId sizeId) =>
      let arena := state.pool.arenas (arenaId, sizeId)
      if arena.mallocs then some (Arena.bufferSize arena.blockSize) else none
  | none => none

end State

/-- The calls of the threads, the changes of the flags, and the writes of the program. -/
inductive Event where
  | registerThread (pid thdId : Nat)
  | unregister
  | setFlags (warmupFinish enableThreadMemPool : Bool)
  | alloc (pid size fresh ptr : Nat)
  | free (pid ptr : Nat)
  | store (a : Nat) (bytes : List UInt8)
  deriving DecidableEq, Repr

variable {config : Config}

def step (state : State config) : Event → Option (State config)
  | .registerThread pid thdId => state.registerThread pid thdId
  | .unregister => some state.unregister
  | .setFlags warmup enable => some { state with warmupFinish := warmup, enableThreadMemPool := enable }
  | .alloc pid size fresh ptr => do
      let (result, next) ← state.alloc pid size fresh
      if result = ptr then some next else none
  | .free pid ptr => state.free pid ptr
  | .store a bytes => some { state with pool := state.pool.store a bytes }

def Step (state : State config) (event : Event) (next : State config) : Prop := step state event = some next

/-- After `mem_alloc::init`, before the warmup is over. -/
def start (config : Config) (mem : Memory) : State config where
  pool := {
    mem := mem
    arenas := fun i => Arena.init i.1 (blockSize i.2) (blockSize_known i.2)
    live := []
    buffers := [] }
  pidArena := fun _ => (0, 0)
  warmupFinish := false
  enableThreadMemPool := false
  issued := []
  held := []

/-- Threads register with a number that has arenas, `malloc` keeps its promise, only pointers in use
are freed, and no one writes to memory of the arenas that he was not given. -/
def Promised (state : State config) : Event → Prop
  | .registerThread pid thdId => pid ≠ 0 ∧ thdId < config.bufCnt
  | .alloc pid size fresh _ => ∀ len ∈ state.asked pid size, Mallocs (state.pool.buffers ++ state.held) fresh len
  | .free _ ptr => ∃ entry ∈ state.issued, entry.ptr = ptr
  | .store a bytes => (∃ entry ∈ state.issued, Region.Within ⟨a, bytes.length⟩ ⟨entry.ptr, entry.size⟩) ∨
      ∀ buffer ∈ state.pool.buffers, Region.Apart ⟨a, bytes.length⟩ buffer
  | _ => True

/-- A free ends with the pointer at the kind of allocator that it came from; if that is an arena, the
header in front of it is the one that `alloc` wrote. -/
def HandsBack (state : State config) : Event → Prop
  | .free pid ptr => ∀ entry ∈ state.issued, entry.ptr = ptr →
      (∃ target ∈ state.freeTarget pid ptr, target.kind = entry.source.kind) ∧
      ∀ size ∈ entry.source.kind, FreeBlock.size state.pool.mem (FreeBlock.ofPtr ptr) = size
  | _ => True

/-- Only blocks that an arena gave are freed to the arenas. -/
def Pooled (state : State config) : Event → Prop
  | .free _ ptr => config.threadAlloc = true →
      ∀ entry ∈ state.issued, entry.ptr = ptr → entry.size ≤ blockSize (Fin.last 3) ∧ entry.pooled = true
  | _ => True

/-- The blocks of the arenas have the bytes that were asked for, apart from each other. -/
def Roomy (state : State config) : Prop :=
  state.pool.live.Pairwise (fun b c => b.extent.Apart c.extent) ∧
  ∀ entry ∈ state.issued, ∀ size ∈ entry.source.kind, entry.size ≤ size ∧
    ∃ block ∈ state.pool.live, block.ptr = entry.ptr ∧ block.size = size ∧
      ∃ buffer ∈ state.pool.buffers, block.usable.Within buffer

/-- The thread has registered, where that means anything. -/
def Registered (state : State config) (pid : Nat) : Prop :=
  config.threadAlloc = true → pid ≠ 0 ∧ ∃ entry, (state.pidArena entry).1 = pid

/-- Each issued pointer is a live block of its arena or `malloc`'s own memory, by the choice that
`alloc` made for it. -/
structure Kept (state : State config) : Prop where
  sound : ∃ free cut, state.pool.Sound free cut
  sizes : ∀ i, (state.pool.arenas i).blockSize = blockSize i.2
  fromArena : ∀ entry ∈ state.issued, ∀ size ∈ entry.source.kind, entry.size ≤ size ∧
    ∃ block ∈ state.pool.live, block.ptr = entry.ptr ∧ block.size = size
  fromMalloc : ∀ entry ∈ state.issued, entry.source = .malloc → ⟨entry.ptr, max entry.size 1⟩ ∈ state.held
  outside : ∀ region ∈ state.held, ∀ buffer ∈ state.pool.buffers, region.Apart buffer
  chosen : ∀ entry ∈ state.issued, (∃ size, entry.source.kind = some size) ↔
    config.threadAlloc = true ∧ entry.size ≤ blockSize (Fin.last 3) ∧ entry.pooled = true
  threads : ∀ entry, (state.pidArena entry).1 ≠ 0 → (state.pidArena entry).2 < config.bufCnt
  empty : ∀ entry, (state.pidArena entry).1 = 0 → (state.pidArena entry).2 = 0

variable {state next : State config} {event : Event} {pid size fresh ptr : Nat}

theorem arenaOf_cases {source : Allocator} (found : state.arenaOf pid size = some source) :
    ∃ arenaId sizeId, source = .arena arenaId sizeId ∧ getSizeId size = some sizeId := by
  obtain ⟨arenaId, -, found⟩ := Option.bind_eq_some_iff.mp found
  obtain ⟨sizeId, sized, found⟩ := Option.bind_eq_some_iff.mp found
  split at found
  next =>
    cases found
    exact ⟨arenaId, sizeId, rfl, sized⟩
  next => cases found

/-- The choice of `alloc`: an arena whose blocks are large enough, or `malloc`. -/
theorem allocSource_cases {source : Allocator} (found : state.allocSource pid size = some source) :
    (source = .malloc ∧ ¬ (config.threadAlloc = true ∧ size ≤ blockSize (Fin.last 3) ∧ state.pooling = true)) ∨
    ∃ arenaId sizeId, source = .arena arenaId sizeId ∧ size ≤ blockSize sizeId ∧
      config.threadAlloc = true ∧ size ≤ blockSize (Fin.last 3) ∧ state.pooling = true := by
  unfold State.allocSource at found
  split at found
  next large =>
    cases found
    exact .inl ⟨rfl, fun small => Nat.not_le_of_lt large small.2.1⟩
  next small =>
    have small := Nat.le_of_not_lt small
    split at found
    next pooled =>
      obtain ⟨arenaId, sizeId, rfl, sized⟩ := arenaOf_cases found
      have fits : size % 2 ^ 32 = size := by
        have bound : blockSize (Fin.last 3) < 2 ^ 32 := by decide
        exact Nat.mod_eq_of_lt (by omega)
      rw [fits] at sized
      exact .inr ⟨arenaId, sizeId, rfl, getSizeId_le sized, (Bool.and_eq_true_iff.mp pooled).1, small,
        (Bool.and_eq_true_iff.mp pooled).2⟩
    next plain =>
      cases found
      exact .inl ⟨rfl, fun pooled => plain (Bool.and_eq_true_iff.mpr ⟨pooled.1, pooled.2.2⟩)⟩

theorem blockSize_of_kind {source : Allocator} {sizeId : Fin SizeNum} (kind : source.kind = some size)
    (sized : getSizeId size = some sizeId) : blockSize sizeId = size := by
  cases source with
  | malloc => cases kind
  | arena arenaId own =>
    cases kind
    rw [getSizeId_blockSize] at sized
    exact congrArg blockSize (Option.some.inj sized).symm

/-- `alloc` by its two ends. -/
theorem alloc_cases (taken : state.alloc pid size fresh = some (ptr, next)) :
    (state.allocSource pid size = some .malloc ∧ ptr = fresh ∧ next = { state with
      issued := ⟨ptr, size, state.pooling, .malloc⟩ :: state.issued
      held := ⟨ptr, max size 1⟩ :: state.held }) ∨
    ∃ arenaId sizeId, state.allocSource pid size = some (.arena arenaId sizeId) ∧
      ptr = (state.pool.alloc (arenaId, sizeId) fresh).1 ∧ next = { state with
        pool := (state.pool.alloc (arenaId, sizeId) fresh).2
        issued := ⟨ptr, size, state.pooling, .arena arenaId sizeId⟩ :: state.issued } := by
  obtain ⟨source, chosen, result⟩ := Option.map_eq_some_iff.mp taken
  cases source with
  | malloc =>
    cases result
    exact .inl ⟨chosen, rfl, rfl⟩
  | arena arenaId sizeId =>
    cases result
    exact .inr ⟨arenaId, sizeId, chosen, rfl, rfl⟩

theorem free_cases (taken : state.free pid ptr = some next) :
    (state.freeTarget pid ptr = some .malloc ∧ next = { state with
      issued := state.issued.filter (fun entry => entry.ptr ≠ ptr)
      held := state.held.filter (fun region => region.start ≠ ptr) }) ∨
    ∃ arenaId sizeId, state.freeTarget pid ptr = some (.arena arenaId sizeId) ∧ next = { state with
      pool := state.pool.free (arenaId, sizeId) ptr
      issued := state.issued.filter (fun entry => entry.ptr ≠ ptr) } := by
  obtain ⟨target, chosen, result⟩ := Option.map_eq_some_iff.mp taken
  cases target with
  | malloc =>
    cases result
    exact .inl ⟨chosen, rfl⟩
  | arena arenaId sizeId =>
    cases result
    exact .inr ⟨arenaId, sizeId, chosen, rfl⟩

/-- `free` goes to an arena in one setting, and to `malloc` in the other. -/
theorem freeTarget_cases {target : Allocator} (found : state.freeTarget pid ptr = some target) :
    (config.threadAlloc = false ∧ target = .malloc) ∨
    ∃ arenaId sizeId, config.threadAlloc = true ∧ target = .arena arenaId sizeId ∧
      getSizeId (FreeBlock.size state.pool.mem (FreeBlock.ofPtr ptr)) = some sizeId := by
  unfold State.freeTarget at found
  split at found
  next on =>
    obtain ⟨arenaId, sizeId, same, sized⟩ := arenaOf_cases found
    exact .inr ⟨arenaId, sizeId, on, same, sized⟩
  next off =>
    cases found
    exact .inl ⟨Bool.eq_false_iff.mpr off, rfl⟩

namespace Kept

/-- `malloc` gave the block. -/
theorem allocMalloc (kept : Kept state) (malloc : Mallocs (state.pool.buffers ++ state.held) ptr (max size 1))
    (plain : ¬ (config.threadAlloc = true ∧ size ≤ blockSize (Fin.last 3) ∧ state.pooling = true)) :
    Kept { state with
      issued := ⟨ptr, size, state.pooling, .malloc⟩ :: state.issued
      held := ⟨ptr, max size 1⟩ :: state.held } := by
  refine { kept with fromArena := ?fromArena, fromMalloc := ?fromMalloc, outside := ?outside, chosen := ?chosen }
  case fromArena =>
    intro entry member got kind
    rcases List.mem_cons.mp member with rfl | before
    · cases kind
    · exact kept.fromArena entry before got kind
  case fromMalloc =>
    intro entry member same
    rcases List.mem_cons.mp member with rfl | before
    · exact List.mem_cons_self
    · exact List.mem_cons_of_mem _ (kept.fromMalloc entry before same)
  case outside =>
    intro region member buffer listed
    rcases List.mem_cons.mp member with rfl | before
    · exact malloc.apart buffer (List.mem_append_left _ listed)
    · exact kept.outside region before buffer listed
  case chosen =>
    intro entry member
    rcases List.mem_cons.mp member with rfl | before
    · refine ⟨fun known => ?_, fun pooled => absurd pooled plain⟩
      obtain ⟨size, kind⟩ := known
      cases kind
    · exact kept.chosen entry before

/-- An arena with blocks of the size gave it, from a new buffer or not. -/
theorem allocArena (kept : Kept state) {arenaId : Nat} {sizeId : Fin SizeNum} (fits : size ≤ blockSize sizeId)
    (malloc : (state.pool.arenas (arenaId, sizeId)).mallocs = true →
      Mallocs (state.pool.buffers ++ state.held) fresh
        (Arena.bufferSize (state.pool.arenas (arenaId, sizeId)).blockSize))
    (pooled : config.threadAlloc = true ∧ size ≤ blockSize (Fin.last 3) ∧ state.pooling = true) :
    Kept { state with
      pool := (state.pool.alloc (arenaId, sizeId) fresh).2
      issued := ⟨(state.pool.alloc (arenaId, sizeId) fresh).1, size, state.pooling, .arena arenaId sizeId⟩ ::
        state.issued } := by
  obtain ⟨free, cut, sound⟩ := kept.sound
  obtain ⟨free', cut', block, sound', same, sized, lives⟩ := sound.alloc (i := (arenaId, sizeId))
    (fun grows => { malloc grows with apart := fun r listed => (malloc grows).apart r (List.mem_append_left _ listed) })
  refine { kept with
    sound := ⟨free', cut', sound'⟩, sizes := ?sizes, fromArena := ?fromArena, fromMalloc := ?fromMalloc
    outside := ?outside, chosen := ?chosen }
  case sizes => exact fun j => (state.pool.alloc_blockSize _ j fresh).trans (kept.sizes j)
  case fromArena =>
    intro entry member got kind
    simp only [lives]
    rcases List.mem_cons.mp member with rfl | before
    · cases kind
      exact ⟨fits, block, List.mem_cons_self, same.symm, sized.trans (kept.sizes _)⟩
    · obtain ⟨enough, b, live, found⟩ := kept.fromArena entry before got kind
      exact ⟨enough, b, List.mem_cons_of_mem _ live, found⟩
  case fromMalloc =>
    intro entry member plain
    rcases List.mem_cons.mp member with rfl | before
    · cases plain
    · exact kept.fromMalloc entry before plain
  case outside =>
    intro region member buffer listed
    simp only [Pool.alloc] at listed
    split at listed
    next grows =>
      rcases List.mem_cons.mp listed with rfl | before
      · exact ((malloc grows).apart region (List.mem_append_right _ member)).symm
      · exact kept.outside region member buffer before
    next => exact kept.outside region member buffer listed
  case chosen =>
    intro entry member
    rcases List.mem_cons.mp member with rfl | before
    · exact ⟨fun _ => pooled, fun _ => ⟨_, rfl⟩⟩
    · exact kept.chosen entry before

theorem alloc (kept : Kept state) (promised : Promised state (.alloc pid size fresh ptr))
    (taken : state.alloc pid size fresh = some (ptr, next)) : Kept next := by
  rcases alloc_cases taken with ⟨source, rfl, rfl⟩ | ⟨arenaId, sizeId, source, rfl, rfl⟩
  · rcases allocSource_cases source with ⟨-, plain⟩ | ⟨_, _, other, -⟩
    · exact kept.allocMalloc (promised _ (by simp [State.asked, source])) plain
    · cases other
  · rcases allocSource_cases source with ⟨other, -⟩ | ⟨_, _, same, fits, pooled⟩
    · cases other
    · cases same
      exact kept.allocArena fits (fun grows => promised _ (by simp [State.asked, source, grows])) pooled

/-- The header that `free` reads in front of a block of an arena. -/
theorem header_of (kept : Kept state) {entry : Issued} (member : entry ∈ state.issued)
    (kind : entry.source.kind = some size) :
    FreeBlock.size state.pool.mem (FreeBlock.ofPtr entry.ptr) = size := by
  obtain ⟨-, block, live, same, rfl⟩ := kept.fromArena entry member size kind
  obtain ⟨free, cut, sound⟩ := kept.sound
  rw [← same, sound.ofPtr_ptr (sound.live block live)]
  exact sound.headers block (sound.live block live)

/-- An arena gets a block of its size back, by the header. -/
theorem free (kept : Kept state) (promised : Promised state (.free pid ptr)) (pooled : Pooled state (.free pid ptr))
    (taken : state.free pid ptr = some next) : Kept next := by
  obtain ⟨entry, member, rfl⟩ := promised
  rcases free_cases taken with ⟨target, rfl⟩ | ⟨arenaId, sizeId, target, rfl⟩
  · refine { kept with fromArena := ?fromArena, fromMalloc := ?fromMalloc, outside := ?outside, chosen := ?chosen }
    case fromArena =>
      intro other listed
      exact kept.fromArena other (List.mem_of_mem_filter listed)
    case fromMalloc =>
      intro other listed plain
      obtain ⟨before, differ⟩ := List.mem_filter.mp listed
      exact List.mem_filter.mpr ⟨kept.fromMalloc other before plain, differ⟩
    case outside =>
      intro region listed
      exact kept.outside region (List.mem_of_mem_filter listed)
    case chosen =>
      intro other listed
      exact kept.chosen other (List.mem_of_mem_filter listed)
  · rcases freeTarget_cases target with ⟨-, plain⟩ | ⟨_, _, on, same, sized⟩
    · cases plain
    cases same
    obtain ⟨small, flagged⟩ := pooled on entry member rfl
    obtain ⟨size, kind⟩ := (kept.chosen entry member).mpr ⟨on, small, flagged⟩
    rw [kept.header_of member kind] at sized
    obtain ⟨-, block, live, same, rfl⟩ := kept.fromArena entry member size kind
    have ofSize : block.size = (state.pool.arenas (arenaId, sizeId)).blockSize :=
      (blockSize_of_kind kind sized).symm.trans (kept.sizes (arenaId, sizeId)).symm
    obtain ⟨free, cut, sound⟩ := kept.sound
    have sound' := sound.freeBlock live ofSize
    rw [same] at sound'
    refine { kept with
      sound := ⟨_, cut, sound'⟩, sizes := ?sizes, fromArena := ?fromArena, fromMalloc := ?fromMalloc
      chosen := ?chosen }
    case sizes => exact fun j => (state.pool.free_blockSize _ j _).trans (kept.sizes j)
    case fromArena =>
      intro other listed got kind'
      obtain ⟨before, differ⟩ := List.mem_filter.mp listed
      obtain ⟨enough, b, live', same', sized'⟩ := kept.fromArena other before got kind'
      exact ⟨enough, b, List.mem_filter.mpr ⟨live', same' ▸ differ⟩, same', sized'⟩
    case fromMalloc =>
      intro other listed plain
      exact kept.fromMalloc other (List.mem_of_mem_filter listed) plain
    case chosen =>
      intro other listed
      exact kept.chosen other (List.mem_of_mem_filter listed)

theorem store (kept : Kept state) {a : Nat} {bytes : List UInt8} (promised : Promised state (.store a bytes)) :
    Kept { state with pool := state.pool.store a bytes } := by
  obtain ⟨free, cut, sound⟩ := kept.sound
  refine { kept with sound := ⟨free, cut, sound.store ?_⟩ }
  rcases promised with ⟨entry, member, own⟩ | outside
  · cases source : entry.source with
    | malloc =>
      refine .inr fun buffer listed => ?_
      have room : Region.Within ⟨entry.ptr, entry.size⟩ ⟨entry.ptr, max entry.size 1⟩ := by
        simp [Region.Within]
      exact (kept.outside _ (kept.fromMalloc entry member source) buffer listed).within (own.trans room)
        (Region.Within.refl _)
    | arena arenaId sizeId =>
      obtain ⟨enough, block, live, same, sized⟩ :=
        kept.fromArena entry member (blockSize sizeId) (by rw [source]; rfl)
      refine .inl ⟨block, live, own.trans ?_⟩
      unfold Region.Within Block.usable
      simp only
      omega
  · exact .inr outside

theorem registerThread (kept : Kept state) {thdId : Nat} (promised : Promised state (.registerThread pid thdId))
    (taken : state.registerThread pid thdId = some next) : Kept next := by
  obtain ⟨positive, known⟩ := promised
  unfold State.registerThread at taken
  split at taken
  next =>
    obtain ⟨slot, -, rfl⟩ := Option.map_eq_some_iff.mp taken
    refine { kept with threads := ?threads, empty := ?empty }
    case threads =>
      intro entry
      by_cases here : entry = slot
      · subst here
        simp [known]
      · simpa [here] using kept.threads entry
    case empty =>
      intro entry
      by_cases here : entry = slot
      · subst here
        simp [positive]
      · simpa [here] using kept.empty entry
  next =>
    cases taken
    exact kept

theorem unregister (kept : Kept state) : Kept state.unregister := by
  unfold State.unregister
  split
  next => exact { kept with threads := fun _ some => absurd rfl some, empty := fun _ _ => rfl }
  next => exact kept

theorem step (kept : Kept state) (promised : Promised state event) (pooled : Pooled state event)
    (taken : Step state event next) : Kept next := by
  cases event with
  | registerThread pid thdId => exact kept.registerThread promised taken
  | unregister =>
    cases taken
    exact kept.unregister
  | setFlags warmup enable =>
    cases taken
    exact { kept with }
  | alloc pid size fresh ptr =>
    obtain ⟨⟨result, after⟩, called, same⟩ := Option.bind_eq_some_iff.mp taken
    simp only [Option.ite_none_right_eq_some, Option.some.injEq] at same
    obtain ⟨rfl, rfl⟩ := same
    exact kept.alloc promised called
  | free pid ptr => exact kept.free promised pooled taken
  | store a bytes =>
    cases taken
    exact kept.store promised

theorem start (mem : Memory) : Kept (start config mem) := by
  refine ⟨⟨_, _, Pool.sound_init mem _ fun _ => ⟨rfl, rfl⟩⟩, fun _ => rfl, ?_, ?_, ?_, ?_, ?_, fun _ _ => rfl⟩
  case refine_5 => exact fun _ some => absurd rfl some
  all_goals
    intro entry member
    cases member

theorem handsBack_pooled (kept : Kept state) (back : HandsBack state event) : Pooled state event := by
  cases event with
  | free pid ptr =>
    intro on entry member same
    obtain ⟨⟨target, chosen, kind⟩, -⟩ := back entry member same
    rcases freeTarget_cases chosen with ⟨off, -⟩ | ⟨arenaId, sizeId, -, rfl, -⟩
    · rw [on] at off
      cases off
    · exact ((kept.chosen entry member).mp ⟨blockSize sizeId, kind.symm⟩).2
  | _ => trivial

theorem pooled_handsBack (kept : Kept state) (pooled : Pooled state event) (taken : Step state event next) :
    HandsBack state event := by
  cases event with
  | free pid ptr =>
    rintro entry member rfl
    refine ⟨?_, fun size kind => kept.header_of member kind⟩
    obtain ⟨target, chosen, -⟩ := Option.map_eq_some_iff.mp taken
    refine ⟨target, chosen, ?_⟩
    rcases freeTarget_cases chosen with ⟨off, rfl⟩ | ⟨arenaId, sizeId, on, rfl, sized⟩
    · cases kind : entry.source.kind with
      | none => rfl
      | some size =>
        have on := ((kept.chosen entry member).mp ⟨size, kind⟩).1
        rw [off] at on
        cases on
    · obtain ⟨size, kind⟩ := (kept.chosen entry member).mpr ⟨on, pooled on entry member rfl⟩
      rw [kept.header_of member kind] at sized
      rw [kind, Allocator.kind, blockSize_of_kind kind sized]
  | _ => trivial

/-- A registered thread has an arena of each size. -/
theorem arenaOf_ends (kept : Kept state) {entry : Fin config.bucketCnt}
    (registered : (state.pidArena entry).1 = pid) (positive : pid ≠ 0) (sizeId : Fin SizeNum) :
    ∃ arenaId, state.arenaOf pid (blockSize sizeId) = some (.arena arenaId sizeId) := by
  obtain ⟨last, found⟩ := probe_ends
    (fun entry => decide ((state.pidArena entry).1 = pid ∨ (state.pidArena entry).1 = 0)) entry
    (decide_eq_true (.inl registered)) (State.firstEntry config pid)
  have known : (state.pidArena last).2 < config.bufCnt := by
    by_cases null : (state.pidArena last).1 = 0
    · rw [kept.empty last null]
      exact Nat.zero_lt_of_lt (kept.threads entry (registered ▸ positive))
    · exact kept.threads last null
  have own : state.getArenaId pid = some (state.pidArena last).2 := by
    rw [State.getArenaId, found, Option.map_some]
  refine ⟨(state.pidArena last).2, ?_⟩
  simp [State.arenaOf, own, getSizeId_blockSize, known]

/-- A free of a pooled block by a registered thread ends. -/
theorem free_ends (kept : Kept state) (promised : Promised state (.free pid ptr))
    (pooled : Pooled state (.free pid ptr)) (registered : Registered state pid) :
    ∃ next, Step state (.free pid ptr) next := by
  obtain ⟨entry, member, rfl⟩ := promised
  have ends : ∃ target, state.freeTarget pid entry.ptr = some target := by
    unfold State.freeTarget
    split
    next on =>
      obtain ⟨positive, slot, own⟩ := registered on
      obtain ⟨size, kind⟩ := (kept.chosen entry member).mpr ⟨on, pooled on entry member rfl⟩
      rw [kept.header_of member kind]
      cases source : entry.source with
      | malloc => simp [source, Allocator.kind] at kind
      | arena arenaId sizeId =>
        rw [source] at kind
        cases kind
        obtain ⟨back, found⟩ := kept.arenaOf_ends own positive sizeId
        exact ⟨_, found⟩
    next => exact ⟨_, rfl⟩
  obtain ⟨target, chosen⟩ := ends
  exact ⟨_, by rw [Step, MemAlloc.step, State.free, chosen, Option.map_some]⟩

theorem roomy (kept : Kept state) : Roomy state := by
  obtain ⟨free, cut, sound⟩ := kept.sound
  constructor
  · refine sound.nodup.imp_of_mem ?_
    intro b c first second differ
    exact sound.apart b (sound.live b first) c (sound.live c second) differ
  · intro entry member size kind
    obtain ⟨enough, block, live, found⟩ := kept.fromArena entry member size kind
    obtain ⟨buffer, listed, within⟩ := sound.inside block (sound.live block live)
    exact ⟨enough, block, live, found.1, found.2, buffer, listed, block.usable_within.trans within⟩

end Kept

/-- The runs in which every free hands its pointer back. -/
def Agreeing (config : Config) (mem : Memory) : List Event → State config → Prop :=
  Run Step (fun _ state event => Promised state event ∧ HandsBack state event) (start config mem)

/-- The runs in which only pooled blocks are freed. -/
def Pooling (config : Config) (mem : Memory) : List Event → State config → Prop :=
  Run Step (fun _ state event => Promised state event ∧ Pooled state event) (start config mem)

variable {mem : Memory} {trace : List Event}

theorem kept_run (run : Pooling config mem trace state) : Kept state := by
  refine run.invariant (fun _ state => Kept state) (Kept.start mem) ?_
  intro trace state event next kept allowed taken
  exact kept.step allowed.1 allowed.2 taken

theorem agreeing_iff : Agreeing config mem trace state ↔ Pooling config mem trace state := by
  constructor
  · intro run
    induction run with
    | nil => exact .nil
    | snoc _ allowed taken ih => exact .snoc ih ⟨allowed.1, (kept_run ih).handsBack_pooled allowed.2⟩ taken
  · intro run
    induction run with
    | nil => exact .nil
    | snoc earlier allowed taken ih =>
      exact .snoc ih ⟨allowed.1, (kept_run earlier).pooled_handsBack allowed.2 taken⟩ taken

/-- The runs in which every free hands its pointer back are those in which, with `THREAD_ALLOC`, only
blocks are freed that were allocated with at most 1024 bytes while one of the flags was set. In
them every block of an arena has the bytes asked for, and the next free by a registered thread
hands its pointer back exactly when it is one of those. -/
theorem frees_hand_back_iff : (Agreeing config mem trace state ↔ Pooling config mem trace state) ∧
    (Pooling config mem trace state → Roomy state ∧
      ∀ pid ptr, Promised state (.free pid ptr) → Registered state pid →
        (HandsBack state (.free pid ptr) ↔ Pooled state (.free pid ptr))) := by
  refine ⟨agreeing_iff, fun run => ?_⟩
  have kept := kept_run run
  refine ⟨kept.roomy, fun pid ptr promised registered => ⟨kept.handsBack_pooled, fun pooled => ?_⟩⟩
  obtain ⟨next, taken⟩ := kept.free_ends promised pooled registered
  exact kept.pooled_handsBack pooled taken

instance (state : State config) (event : Event) : Decidable (Promised state event) := by
  cases event <;> unfold Promised <;> infer_instance

instance (state : State config) (event : Event) : Decidable (HandsBack state event) := by
  cases event <;> unfold HandsBack <;> infer_instance

instance (state : State config) (event : Event) : Decidable (Pooled state event) := by
  cases event <;> unfold Pooled <;> infer_instance

instance (state : State config) (pid : Nat) : Decidable (Registered state pid) := by
  unfold Registered
  infer_instance

/-- A block allocated and freed with the pool on, and the next one of its size. -/
def pooledCalls : List Event :=
  [.registerThread 7 0, .setFlags false true, .alloc 7 100 4096 4112, .free 7 4112, .alloc 7 200 0 4112]

theorem frees_hand_back_pooled : ∃ state : State ⟨true, 1, 1⟩,
    state.issued = [⟨4112, 200, true, .arena 0 2⟩] ∧ Roomy state ∧ HandsBack state (.free 7 4112) := by
  have played : (playUnder step (fun _ state event => Promised state event ∧ Pooled state event) []
      (start ⟨true, 1, 1⟩ (fun _ => 7)) pooledCalls).map (fun state =>
        (state.issued, decide (Promised state (.free 7 4112)), decide (Registered state 7),
          decide (Pooled state (.free 7 4112)))) =
      some ([⟨4112, 200, true, .arena 0 2⟩], true, true, true) := by decide +kernel
  obtain ⟨state, result, checked⟩ := Option.map_eq_some_iff.mp played
  simp only [Prod.mk.injEq, decide_eq_true_eq] at checked
  obtain ⟨issued, promised, registered, pooled⟩ := checked
  obtain ⟨roomy, back⟩ := frees_hand_back_iff.2 (run_of_playUnder result)
  exact ⟨state, issued, roomy, (back 7 4112 promised registered).mpr pooled⟩

/-- Before the warmup is over, `malloc` answers; the bytes in front of its memory are its own. -/
def warmupCalls : List Event := [.registerThread 7 0, .alloc 7 100 4096 4096]

/-- The pointer goes to an arena, which takes it for a block of 1024 bytes. -/
def laterCalls : List Event := [.free 7 4096, .setFlags true false, .alloc 7 1000 0 4096]

/-- Memory in which the four bytes at 4080 read as 1024. -/
def ownBytes : Memory := fun x => if x = 4081 then 4 else 0

theorem malloc_freed_to_arena : ∃ first last : State ⟨true, 1, 1⟩,
    (Run Step (fun _ => Promised) (start ⟨true, 1, 1⟩ ownBytes) warmupCalls first ∧
      Promised first (.free 7 4096) ∧ Registered first 7 ∧ ¬ HandsBack first (.free 7 4096)) ∧
    Run Step (fun _ => Promised) (start ⟨true, 1, 1⟩ ownBytes) (warmupCalls ++ laterCalls) last ∧
      last.issued = [⟨4096, 1000, true, .arena 0 3⟩] ∧ last.held = [⟨4096, 100⟩] := by
  have early : (playUnder step (fun _ => Promised) [] (start ⟨true, 1, 1⟩ ownBytes) warmupCalls).map (fun state =>
      (decide (Promised state (.free 7 4096)), decide (Registered state 7),
        decide (HandsBack state (.free 7 4096)))) = some (true, true, false) := by decide +kernel
  have late : (playUnder step (fun _ => Promised) [] (start ⟨true, 1, 1⟩ ownBytes)
      (warmupCalls ++ laterCalls)).map (fun state => (state.issued, state.held)) =
      some ([⟨4096, 1000, true, .arena 0 3⟩], [⟨4096, 100⟩]) := by decide +kernel
  obtain ⟨first, result, checked⟩ := Option.map_eq_some_iff.mp early
  simp only [Prod.mk.injEq, decide_eq_true_eq, decide_eq_false_iff_not] at checked
  obtain ⟨last, result', checked'⟩ := Option.map_eq_some_iff.mp late
  obtain ⟨issued, held⟩ := Prod.mk.inj checked'
  exact ⟨first, last, ⟨run_of_playUnder result, checked⟩, run_of_playUnder result', issued, held⟩

end DataAgentDB.Storage.MemAlloc
