import DataAgentDB.Lib.ByteMemory
import DataAgentDB.Lib.LabelledRun
import DataAgentDB.Lib.Linked
import DataAgentDB.Storage.Fields

/-! The arenas of mem_alloc.cpp over byte memory. A block is a `FreeBlock` header and the bytes
after it; blocks are cut from buffers of `malloc`, and the freed ones of an arena are linked
through their headers. Several arenas may share the memory, as those of `mem_alloc` do. -/

namespace DataAgentDB.Storage
open ByteMemory Linked

def SizeNum : Nat := 4

def BlockSizes : List Nat := [32, 64, 256, 1024]

/-- `MEM_ALLIGN`. -/
def memAllign : Nat := 8

namespace FreeBlock

/-- `sizeof(FreeBlock)`: an `int`, its padding and a pointer. -/
def sizeOf : Nat := 16

/-- `block->size`, by its bits. -/
def size (mem : Memory) (block : Nat) : Nat := decode (read mem block 4)

def setSize (mem : Memory) (block value : Nat) : Memory := write mem block (encode 4 value)

/-- `block->next`; 0 is `NULL`. -/
def next (mem : Memory) (block : Nat) : Nat := decode (read mem (block + 8) 8)

def setNext (mem : Memory) (block value : Nat) : Memory := write mem (block + 8) (encode 8 value)

/-- The header in front of a pointer: `(UInt64)ptr - sizeof(FreeBlock)`. -/
def ofPtr (ptr : Nat) : Nat := (BitVec.ofNat 64 ptr - BitVec.ofNat 64 sizeOf).toNat

/-- The bytes of a header. -/
def header (block : Nat) : Region := ⟨block, sizeOf⟩

variable {mem mem' : Memory} {block other value : Nat}

theorem ofPtr_add (fits : block + sizeOf < 2 ^ 64) : ofPtr (block + sizeOf) = block := by
  unfold ofPtr sizeOf at *
  rw [BitVec.toNat_sub, BitVec.toNat_ofNat, BitVec.toNat_ofNat]
  omega

theorem size_setSize (fits : value < 2 ^ 32) : size (setSize mem block value) block = value := by
  have back := read_write mem block (encode 4 value)
  rw [length_encode] at back
  rw [size, setSize, back, decode_encode]
  exact Nat.mod_eq_of_lt fits

theorem next_setNext (fits : value < 2 ^ 64) : next (setNext mem block value) block = value := by
  have back := read_write mem (block + 8) (encode 8 value)
  rw [length_encode] at back
  rw [next, setNext, back, decode_encode]
  exact Nat.mod_eq_of_lt fits

theorem size_agree (agree : Agree mem mem' (header block)) : size mem' block = size mem block := by
  have part : Region.Within ⟨block, 4⟩ (header block) := ⟨Nat.le_refl _, by simp [header, sizeOf]⟩
  rw [size, size, read_congr (agree.within part)]

theorem next_agree (agree : Agree mem mem' (header block)) : next mem' block = next mem block := by
  have part : Region.Within ⟨block + 8, 8⟩ (header block) := ⟨by simp [header], by simp [header, sizeOf]⟩
  rw [next, next, read_congr (agree.within part)]

theorem size_setNext (mem : Memory) (block value : Nat) : size (setNext mem block value) block = size mem block := by
  rw [size, size, setNext, read_congr (write_agree (by simp [Region.Apart]))]

theorem setNext_agree (apart : (header other).Apart (header block)) :
    Agree mem (setNext mem block value) (header other) := by
  refine write_agree (apart.within (Region.Within.refl _) ?_)
  rw [length_encode]
  simp [Region.Within, header, sizeOf]

theorem setSize_agree (apart : (header other).Apart (header block)) :
    Agree mem (setSize mem block value) (header other) := by
  refine write_agree (apart.within (Region.Within.refl _) ?_)
  rw [length_encode]
  simp [Region.Within, header, sizeOf]

end FreeBlock

/-- `Arena`; the pointers `_buffer` and `_head` are addresses, 0 being `NULL`. -/
structure Arena where
  buffer : Nat
  sizeInBuffer : Nat
  arenaId : Nat
  blockSize : Nat
  head : Nat
  known : blockSize ∈ BlockSizes

namespace Arena

def init (arenaId size : Nat) (known : size ∈ BlockSizes) : Arena :=
  { buffer := 0, sizeInBuffer := 0, arenaId := arenaId, blockSize := size, head := 0, known := known }

/-- What `alloc` cuts from the buffer for a block: `(_block_size + sizeof(FreeBlock) +
(MEM_ALLIGN - 1)) & ~(MEM_ALLIGN - 1)`. -/
def carve (blockSize : Nat) : Nat :=
  (BitVec.ofNat 64 (blockSize + FreeBlock.sizeOf + (memAllign - 1)) &&& ~~~BitVec.ofNat 64 (memAllign - 1)).toNat

/-- The bytes of a buffer. -/
def bufferSize (blockSize : Nat) : Nat := blockSize * 40960

/-- Whether the next `alloc` calls `malloc`. -/
def mallocs (arena : Arena) : Bool := arena.head = 0 ∧ arena.sizeInBuffer < carve arena.blockSize

/-- The new buffer when the old one is too small for a block; its tail is given up. -/
def refill (arena : Arena) (fresh : Nat) : Arena :=
  if arena.sizeInBuffer < carve arena.blockSize then
    { arena with buffer := fresh, sizeInBuffer := bufferSize arena.blockSize }
  else arena

/-- A block cut from the buffer. -/
def cut (arena : Arena) (mem : Memory) : Nat × Arena × Memory :=
  let size := carve arena.blockSize
  let block := arena.buffer
  (block, { arena with sizeInBuffer := arena.sizeInBuffer - size, buffer := arena.buffer + size },
    FreeBlock.setSize mem block arena.blockSize)

/-- `Arena::alloc`; `fresh` is what `malloc` returns if it is called. -/
def alloc (arena : Arena) (mem : Memory) (fresh : Nat) : Nat × Arena × Memory :=
  if arena.head = 0 then
    let (block, arena', mem') := (arena.refill fresh).cut mem
    (block + FreeBlock.sizeOf, arena', mem')
  else (arena.head + FreeBlock.sizeOf, { arena with head := FreeBlock.next mem arena.head }, mem)

/-- `Arena::free`. -/
def free (arena : Arena) (mem : Memory) (ptr : Nat) : Arena × Memory :=
  let block := FreeBlock.ofPtr ptr
  ({ arena with head := block }, FreeBlock.setNext mem block arena.head)

/-- The part of the buffer no block was cut from. -/
def spare (arena : Arena) : Region := ⟨arena.buffer, arena.sizeInBuffer⟩

theorem spare_head (arena : Arena) (head : Nat) : { arena with head := head }.spare = arena.spare := rfl

theorem carve_eq {size : Nat} (known : size ∈ BlockSizes) : carve size = size + FreeBlock.sizeOf := by
  have all : ∀ size ∈ BlockSizes, carve size = size + FreeBlock.sizeOf := by decide
  exact all size known

theorem carve_le {size : Nat} (known : size ∈ BlockSizes) : carve size ≤ bufferSize size := by
  have all : ∀ size ∈ BlockSizes, carve size ≤ bufferSize size := by decide
  exact all size known

theorem size_lt {size : Nat} (known : size ∈ BlockSizes) : size < 2 ^ 32 := by
  have all : ∀ size ∈ BlockSizes, size < 2 ^ 32 := by decide
  exact all size known

end Arena

/-- A block by the address of its header. -/
@[ext] structure Block where
  header : Nat
  size : Nat
  known : size ∈ BlockSizes
  deriving DecidableEq

namespace Block

/-- What its user was given. -/
def ptr (block : Block) : Nat := block.header + FreeBlock.sizeOf

def extent (block : Block) : Region := ⟨block.header, Arena.carve block.size⟩

/-- The bytes after the header. -/
def usable (block : Block) : Region := ⟨block.ptr, block.size⟩

variable (block : Block)

theorem carve_size : Arena.carve block.size = block.size + FreeBlock.sizeOf := Arena.carve_eq block.known

theorem extent_pos : 0 < block.extent.len := by
  simp [extent, carve_size, FreeBlock.sizeOf]

theorem header_within : (FreeBlock.header block.header).Within block.extent := by
  simp [Region.Within, FreeBlock.header, extent, carve_size]

theorem usable_within : block.usable.Within block.extent := by
  simp [Region.Within, usable, ptr, extent, carve_size]
  omega

theorem header_apart_usable : (FreeBlock.header block.header).Apart block.usable := by
  simp [Region.Apart, FreeBlock.header, usable, ptr]

end Block

section Cut
variable {arena : Arena} {block : Block}

/-- A block is cut from the front of the spare part of the buffer, which keeps the rest. -/
theorem extent_within (room : Arena.carve arena.blockSize ≤ arena.sizeInBuffer)
    (header : block.header = arena.buffer) (size : block.size = arena.blockSize) :
    block.extent.Within arena.spare := by
  simp only [Region.Within, Block.extent, Arena.spare, header, size]
  omega

theorem spare_cut_within (mem : Memory) (room : Arena.carve arena.blockSize ≤ arena.sizeInBuffer) :
    (arena.cut mem).2.1.spare.Within arena.spare := by
  simp only [Region.Within, Arena.spare, Arena.cut]
  omega

theorem extent_apart_cut (mem : Memory) (header : block.header = arena.buffer)
    (size : block.size = arena.blockSize) : block.extent.Apart (arena.cut mem).2.1.spare := by
  simp only [Region.Apart, Block.extent, Arena.spare, Arena.cut, header, size]
  omega

end Cut

/-- Arenas over one memory, with the blocks handed out and not freed, and the buffers that the
arenas got from `malloc`. -/
structure Pool (ι : Type) where
  mem : Memory
  arenas : ι → Arena
  live : List Block
  buffers : List Region

namespace Pool

variable {ι : Type} [DecidableEq ι]

/-- `alloc` of one of the arenas. -/
def alloc (pool : Pool ι) (i : ι) (fresh : Nat) : Nat × Pool ι :=
  let arena := pool.arenas i
  let (ptr, arena', mem') := arena.alloc pool.mem fresh
  (ptr, {
    mem := mem'
    arenas := Function.update pool.arenas i arena'
    live := { header := ptr - FreeBlock.sizeOf, size := arena.blockSize, known := arena.known } :: pool.live
    buffers := if arena.mallocs then ⟨fresh, Arena.bufferSize arena.blockSize⟩ :: pool.buffers
      else pool.buffers })

/-- `free` of one of the arenas. -/
def free (pool : Pool ι) (i : ι) (ptr : Nat) : Pool ι :=
  let (arena', mem') := (pool.arenas i).free pool.mem ptr
  { pool with
    mem := mem'
    arenas := Function.update pool.arenas i arena'
    live := pool.live.filter (fun block => block.ptr ≠ ptr) }

/-- A user's write to memory. -/
def store (pool : Pool ι) (a : Nat) (bytes : List UInt8) : Pool ι := { pool with mem := write pool.mem a bytes }

end Pool

/-- What `malloc` promises of a result: memory apart from the regions in use. -/
structure Mallocs (used : List Region) (fresh len : Nat) : Prop where
  positive : 0 < fresh
  fits : fresh + len ≤ 2 ^ 64
  apart : ∀ region ∈ used, Region.Apart ⟨fresh, len⟩ region

instance (used : List Region) (fresh len : Nat) : Decidable (Mallocs used fresh len) :=
  decidable_of_iff (0 < fresh ∧ fresh + len ≤ 2 ^ 64 ∧ ∀ region ∈ used, Region.Apart ⟨fresh, len⟩ region)
    ⟨fun ⟨positive, fits, apart⟩ => ⟨positive, fits, apart⟩,
      fun ⟨positive, fits, apart⟩ => ⟨positive, fits, apart⟩⟩

def toPtr (a : Nat) : Option Nat := if a = 0 then none else some a

/-- The `next` pointers of the free blocks. -/
def links (mem : Memory) (block : Nat) : Option (Option Nat) := some (toPtr (FreeBlock.next mem block))

/-- The blocks cut so far lie apart in the buffers; each is live or on the free list of at most
one arena, and its header still says its size. -/
structure Pool.Sound {ι : Type} (pool : Pool ι) (free : ι → List Nat) (cut : List Block) : Prop where
  apart : ∀ b ∈ cut, ∀ c ∈ cut, b ≠ c → b.extent.Apart c.extent
  inside : ∀ b ∈ cut, ∃ buffer ∈ pool.buffers, b.extent.Within buffer
  bounded : ∀ buffer ∈ pool.buffers, 0 < buffer.start ∧ buffer.start + buffer.len ≤ 2 ^ 64
  spare : ∀ i, 0 < (pool.arenas i).sizeInBuffer → ∃ buffer ∈ pool.buffers, (pool.arenas i).spare.Within buffer
  spareBlocks : ∀ i, ∀ b ∈ cut, b.extent.Apart (pool.arenas i).spare
  spares : ∀ i j, i ≠ j → (pool.arenas i).spare.Apart (pool.arenas j).spare
  headers : ∀ b ∈ cut, FreeBlock.size pool.mem b.header = b.size
  chains : ∀ i, Chain (links pool.mem) (toPtr (pool.arenas i).head) (free i)
  freed : ∀ i, ∀ a ∈ free i, ∃ b ∈ cut, b.header = a ∧ b.size = (pool.arenas i).blockSize
  elsewhere : ∀ i j, i ≠ j → ∀ a ∈ free i, a ∉ free j
  live : ∀ b ∈ pool.live, b ∈ cut
  nodup : pool.live.Nodup
  handed : ∀ i, ∀ b ∈ pool.live, b.header ∉ free i

/-- What a new value of one arena shares with the old one stays for every arena. -/
theorem update_kept {ι β : Type} [DecidableEq ι] {arenas : ι → Arena} {i : ι} {arena : Arena} (part : Arena → β)
    (same : part arena = part (arenas i)) (j : ι) : part (Function.update arenas i arena j) = part (arenas j) := by
  by_cases here : j = i
  · subst here
    rw [Function.update_self, same]
  · rw [Function.update_of_ne here]

namespace Pool

variable {ι : Type} [DecidableEq ι] {pool : Pool ι} {free : ι → List Nat} {cut : List Block} {i : ι}

namespace Sound

omit [DecidableEq ι] in
/-- No two blocks were cut at one address. -/
theorem block_unique (sound : pool.Sound free cut) {b c : Block} (first : b ∈ cut) (second : c ∈ cut)
    (same : b.header = c.header) : b = c := by
  by_contra differ
  exact (sound.apart b first c second differ).start_ne b.extent_pos c.extent_pos same

omit [DecidableEq ι] in
theorem header_pos (sound : pool.Sound free cut) {b : Block} (member : b ∈ cut) :
    0 < b.header ∧ b.header < 2 ^ 64 := by
  obtain ⟨buffer, listed, within⟩ := sound.inside b member
  have bounds := sound.bounded buffer listed
  have room := b.extent_pos
  unfold Region.Within at within
  simp only [Block.extent] at within room
  omega

omit [DecidableEq ι] in
theorem ofPtr_ptr (sound : pool.Sound free cut) {b : Block} (member : b ∈ cut) : FreeBlock.ofPtr b.ptr = b.header := by
  obtain ⟨buffer, listed, within⟩ := sound.inside b member
  have bounds := sound.bounded buffer listed
  have some : 0 < b.size := by
    have all : ∀ size ∈ BlockSizes, 0 < size := by decide
    exact all b.size b.known
  unfold Region.Within at within
  simp only [Block.extent, Block.carve_size] at within
  exact FreeBlock.ofPtr_add (by omega)

omit [DecidableEq ι] in
theorem head_lt (sound : pool.Sound free cut) (i : ι) : (pool.arenas i).head < 2 ^ 64 := by
  have chain := sound.chains i
  rcases Nat.eq_zero_or_pos (pool.arenas i).head with null | positive
  · rw [null]
    decide
  · rw [toPtr, if_neg positive.ne'] at chain
    cases listed : free i with
    | nil =>
      rw [listed] at chain
      cases chain
    | cons a rest =>
      rw [listed] at chain
      cases chain.1
      obtain ⟨b, member, same, -⟩ := sound.freed i _ (listed ▸ List.mem_cons_self)
      exact same ▸ (sound.header_pos member).2

omit [DecidableEq ι] in
/-- A memory that agrees on every header changes nothing. -/
theorem agree (sound : pool.Sound free cut) {mem' : Memory}
    (same : ∀ b ∈ cut, Agree pool.mem mem' (FreeBlock.header b.header)) :
    Pool.Sound { pool with mem := mem' } free cut := by
  refine { sound with headers := ?_, chains := ?_ }
  · intro b member
    exact (FreeBlock.size_agree (same b member)).trans (sound.headers b member)
  · intro j
    refine (sound.chains j).frame ?_
    intro a member
    obtain ⟨b, listed, rfl, -⟩ := sound.freed j a member
    simp only [links, FreeBlock.next_agree (same b listed)]

/-- The arena takes a new buffer. -/
theorem refill (sound : pool.Sound free cut) {fresh : Nat}
    (malloc : Mallocs pool.buffers fresh (Arena.bufferSize (pool.arenas i).blockSize))
    (small : (pool.arenas i).sizeInBuffer < Arena.carve (pool.arenas i).blockSize) :
    Pool.Sound { pool with
      arenas := Function.update pool.arenas i ((pool.arenas i).refill fresh)
      buffers := ⟨fresh, Arena.bufferSize (pool.arenas i).blockSize⟩ :: pool.buffers } free cut := by
  have filled : (pool.arenas i).refill fresh = { pool.arenas i with
      buffer := fresh, sizeInBuffer := Arena.bufferSize (pool.arenas i).blockSize } := if_pos small
  have outside : ∀ r : Region, (∃ buffer ∈ pool.buffers, r.Within buffer) →
      r.Apart ⟨fresh, Arena.bufferSize (pool.arenas i).blockSize⟩ := by
    rintro r ⟨buffer, listed, within⟩
    exact (malloc.apart buffer listed).symm.within within (Region.Within.refl _)
  have spareOutside : ∀ j, (pool.arenas j).spare.Apart ⟨fresh, Arena.bufferSize (pool.arenas i).blockSize⟩ := by
    intro j
    rcases Nat.eq_zero_or_pos (pool.arenas j).sizeInBuffer with empty | some
    · exact .inl empty
    · exact outside _ (sound.spare j some)
  refine { sound with
    inside := ?inside, bounded := ?bounded, spare := ?spare, spareBlocks := ?spareBlocks, spares := ?spares
    chains := ?chains, freed := ?freed }
  case inside =>
    intro b member
    obtain ⟨buffer, listed, within⟩ := sound.inside b member
    exact ⟨buffer, List.mem_cons_of_mem _ listed, within⟩
  case bounded =>
    intro buffer member
    rcases List.mem_cons.mp member with rfl | old
    · exact ⟨malloc.positive, malloc.fits⟩
    · exact sound.bounded buffer old
  case spare =>
    intro j some
    by_cases here : j = i
    · subst here
      simp only [Function.update_self, filled]
      exact ⟨_, List.mem_cons_self, Region.Within.refl _⟩
    · simp only [Function.update_of_ne here] at some ⊢
      obtain ⟨buffer, listed, within⟩ := sound.spare j some
      exact ⟨buffer, List.mem_cons_of_mem _ listed, within⟩
  case spareBlocks =>
    intro j b member
    by_cases here : j = i
    · subst here
      simp only [Function.update_self, filled]
      exact outside _ (sound.inside b member)
    · simp only [Function.update_of_ne here]
      exact sound.spareBlocks j b member
  case spares =>
    intro j k differ
    by_cases here : j = i
    · subst here
      simp only [Function.update_self, filled, Function.update_of_ne differ.symm]
      exact (spareOutside k).symm
    · by_cases there : k = i
      · subst there
        simp only [Function.update_self, filled, Function.update_of_ne here]
        exact spareOutside j
      · simp only [Function.update_of_ne here, Function.update_of_ne there]
        exact sound.spares j k differ
  case chains =>
    intro j
    rw [update_kept Arena.head (by rw [filled]) j]
    exact sound.chains j
  case freed =>
    intro j a member
    rw [update_kept Arena.blockSize (by rw [filled]) j]
    exact sound.freed j a member

/-- The arena cuts a block from its buffer and hands it out. -/
theorem cutBlock (sound : pool.Sound free cut)
    (room : Arena.carve (pool.arenas i).blockSize ≤ (pool.arenas i).sizeInBuffer) (block : Block)
    (header : block.header = (pool.arenas i).buffer) (size : block.size = (pool.arenas i).blockSize) :
    Pool.Sound { pool with
      mem := ((pool.arenas i).cut pool.mem).2.2
      arenas := Function.update pool.arenas i ((pool.arenas i).cut pool.mem).2.1
      live := block :: pool.live } free (block :: cut) := by
  have positive := block.extent_pos
  have within := extent_within room header size
  have rest := spare_cut_within pool.mem room
  have split := extent_apart_cut pool.mem header size
  have others : ∀ b ∈ cut, b.extent.Apart block.extent := fun b member =>
    (sound.spareBlocks i b member).within (Region.Within.refl _) within
  have apart : ∀ b ∈ cut, b.header ≠ block.header := fun b member =>
    (others b member).start_ne b.extent_pos positive
  have some : 0 < (pool.arenas i).sizeInBuffer := by
    have carved : block.extent.len = Arena.carve (pool.arenas i).blockSize := by rw [Block.extent, size]
    omega
  have agrees : ∀ b ∈ cut, Agree pool.mem ((pool.arenas i).cut pool.mem).2.2 (FreeBlock.header b.header) := by
    intro b member
    refine FreeBlock.setSize_agree ((others b member).within b.header_within ?_)
    exact header ▸ block.header_within
  have old := sound.agree agrees
  have heads : ∀ j, (Function.update pool.arenas i ((pool.arenas i).cut pool.mem).2.1 j).head =
      (pool.arenas j).head := update_kept Arena.head rfl
  have sizes : ∀ j, (Function.update pool.arenas i ((pool.arenas i).cut pool.mem).2.1 j).blockSize =
      (pool.arenas j).blockSize := update_kept Arena.blockSize rfl
  have spares : ∀ j, (Function.update pool.arenas i ((pool.arenas i).cut pool.mem).2.1 j).spare.Within
      (pool.arenas j).spare := by
    intro j
    by_cases here : j = i
    · subst here
      rw [Function.update_self]
      exact rest
    · rw [Function.update_of_ne here]
      exact Region.Within.refl _
  refine { old with
    apart := ?apart, inside := ?inside, spare := ?spare, spareBlocks := ?spareBlocks, spares := ?spares
    headers := ?headers, chains := ?chains, freed := ?freed, live := ?live, nodup := ?nodup, handed := ?handed }
  case apart =>
    intro b first c second differ
    rcases List.mem_cons.mp first with here | before <;> rcases List.mem_cons.mp second with there | before'
    · exact absurd (here.trans there.symm) differ
    · exact here ▸ (others c before').symm
    · exact there ▸ others b before
    · exact sound.apart b before c before' differ
  case inside =>
    intro b member
    rcases List.mem_cons.mp member with rfl | before
    · obtain ⟨buffer, listed, spareWithin⟩ := sound.spare i some
      exact ⟨buffer, listed, within.trans spareWithin⟩
    · exact sound.inside b before
  case spare =>
    intro j left
    have before : 0 < (pool.arenas j).sizeInBuffer := by
      have part := spares j
      have left : 0 < (Function.update pool.arenas i ((pool.arenas i).cut pool.mem).2.1 j).sizeInBuffer := left
      unfold Region.Within at part
      simp only [Arena.spare] at part
      omega
    obtain ⟨buffer, listed, spareWithin⟩ := sound.spare j before
    exact ⟨buffer, listed, (spares j).trans spareWithin⟩
  case spareBlocks =>
    intro j b member
    rcases List.mem_cons.mp member with rfl | before
    · by_cases here : j = i
      · subst here
        simp only [Function.update_self]
        exact split
      · simp only [Function.update_of_ne here]
        exact (sound.spares i j (Ne.symm here)).within within (Region.Within.refl _)
    · exact (sound.spareBlocks j b before).within (Region.Within.refl _) (spares j)
  case spares =>
    intro j k differ
    exact (sound.spares j k differ).within (spares j) (spares k)
  case headers =>
    intro b member
    rcases List.mem_cons.mp member with rfl | before
    · rw [header, size]
      exact FreeBlock.size_setSize (Arena.size_lt (pool.arenas i).known)
    · exact old.headers b before
  case chains =>
    intro j
    simp only [heads]
    exact old.chains j
  case freed =>
    intro j a member
    obtain ⟨b, listed, here, sized⟩ := sound.freed j a member
    exact ⟨b, List.mem_cons_of_mem _ listed, here, sized.trans (sizes j).symm⟩
  case live =>
    intro b member
    rcases List.mem_cons.mp member with rfl | before
    · exact List.mem_cons_self
    · exact List.mem_cons_of_mem _ (sound.live b before)
  case nodup =>
    refine List.nodup_cons.mpr ⟨fun again => ?_, sound.nodup⟩
    exact apart block (sound.live block again) rfl
  case handed =>
    intro j b member listed
    rcases List.mem_cons.mp member with rfl | before
    · obtain ⟨c, known, here, -⟩ := sound.freed j _ listed
      exact apart c known here
    · exact sound.handed j b before listed

/-- The free list of an arena and the live blocks change, and no other list does. -/
theorem relist (sound : pool.Sound free cut) {mem' : Memory} {arena' : Arena} {list : List Nat} {live' : List Block}
    (spare : arena'.spare = (pool.arenas i).spare) (size : arena'.blockSize = (pool.arenas i).blockSize)
    (headers : ∀ b ∈ cut, FreeBlock.size mem' b.header = FreeBlock.size pool.mem b.header)
    (others : ∀ j, j ≠ i → ∀ a ∈ free j, links mem' a = links pool.mem a)
    (chain : Chain (links mem') (toPtr arena'.head) list)
    (freed : ∀ a ∈ list, (∃ b ∈ cut, b.header = a ∧ b.size = (pool.arenas i).blockSize) ∧ ∀ j, j ≠ i → a ∉ free j)
    (live : ∀ b ∈ live', b ∈ cut) (nodup : live'.Nodup)
    (handed : ∀ b ∈ live', b.header ∉ list ∧ ∀ j, j ≠ i → b.header ∉ free j) :
    Pool.Sound { pool with mem := mem', arenas := Function.update pool.arenas i arena', live := live' }
      (Function.update free i list) cut := by
  have spares := update_kept Arena.spare spare
  have sizes := update_kept Arena.blockSize size
  refine { sound with
    spare := ?spare, spareBlocks := ?spareBlocks, spares := ?spares, headers := ?headers, chains := ?chains
    freed := ?freed, elsewhere := ?elsewhere, live := live, nodup := nodup, handed := ?handed }
  case spare =>
    intro j left
    have left : 0 < (Function.update pool.arenas i arena' j).spare.len := left
    simp only [spares] at left ⊢
    exact sound.spare j left
  case spareBlocks =>
    intro j b member
    simp only [spares]
    exact sound.spareBlocks j b member
  case spares =>
    intro j k differ
    simp only [spares]
    exact sound.spares j k differ
  case headers =>
    intro b member
    exact (headers b member).trans (sound.headers b member)
  case chains =>
    intro j
    by_cases here : j = i
    · subst here
      simp only [Function.update_self]
      exact chain
    · simp only [Function.update_of_ne here]
      exact (sound.chains j).frame (others j here)
  case freed =>
    intro j a member
    simp only [sizes]
    by_cases here : j = i
    · subst here
      rw [Function.update_self] at member
      exact (freed a member).1
    · rw [Function.update_of_ne here] at member
      exact sound.freed j a member
  case elsewhere =>
    intro j k differ a member again
    by_cases here : j = i
    · subst here
      rw [Function.update_self] at member
      rw [Function.update_of_ne (Ne.symm differ)] at again
      exact (freed a member).2 k (Ne.symm differ) again
    · rw [Function.update_of_ne here] at member
      by_cases there : k = i
      · subst there
        rw [Function.update_self] at again
        exact (freed a again).2 j differ member
      · rw [Function.update_of_ne there] at again
        exact sound.elsewhere j k differ a member again
  case handed =>
    intro j b member
    by_cases here : j = i
    · subst here
      rw [Function.update_self]
      exact (handed b member).1
    · rw [Function.update_of_ne here]
      exact (handed b member).2 j here

/-- The arena hands out the first block of its free list. -/
theorem takeBlock (sound : pool.Sound free cut) (nonempty : (pool.arenas i).head ≠ 0) (block : Block)
    (header : block.header = (pool.arenas i).head) (size : block.size = (pool.arenas i).blockSize) :
    ∃ rest, free i = block.header :: rest ∧ Pool.Sound { pool with
      arenas := Function.update pool.arenas i
        { pool.arenas i with head := FreeBlock.next pool.mem (pool.arenas i).head }
      live := block :: pool.live } (Function.update free i rest) cut := by
  have chain := sound.chains i
  have nodup := chain.nodup
  rw [toPtr, if_neg nonempty] at chain
  cases listed : free i with
  | nil =>
    rw [listed] at chain
    exact absurd chain (by simp [Chain, Linked.Path])
  | cons a rest =>
    rw [listed] at chain nodup
    obtain ⟨here, after, follows, path⟩ := chain
    obtain rfl := Option.some.inj here
    obtain rfl := Option.some.inj follows
    have first : (pool.arenas i).head ∈ free i := listed ▸ List.mem_cons_self
    obtain ⟨known, inCut, same, sized⟩ := sound.freed i _ first
    obtain rfl : known = block := Block.ext (same.trans header.symm) (sized.trans size.symm)
    refine ⟨rest, by rw [header], ?_⟩
    have spare := (pool.arenas i).spare_head (FreeBlock.next pool.mem (pool.arenas i).head)
    refine sound.relist spare rfl (fun _ _ => rfl) (fun _ _ _ _ => rfl) path ?_ ?_ ?_ ?_
    · intro a member
      have before : a ∈ free i := listed ▸ List.mem_cons_of_mem _ member
      exact ⟨sound.freed i a before, fun j differ => sound.elsewhere i j (Ne.symm differ) a before⟩
    · intro b member
      rcases List.mem_cons.mp member with rfl | before
      · exact inCut
      · exact sound.live b before
    · refine List.nodup_cons.mpr ⟨fun again => ?_, sound.nodup⟩
      exact sound.handed i _ again (header ▸ first)
    · intro b member
      rcases List.mem_cons.mp member with rfl | before
      · refine ⟨header ▸ (List.nodup_cons.mp nodup).1, fun j differ => ?_⟩
        exact sound.elsewhere i j (Ne.symm differ) _ (header ▸ first)
      · exact ⟨fun again => sound.handed i b before (listed ▸ List.mem_cons_of_mem _ again),
          fun j _ => sound.handed j b before⟩

/-- A block comes back to an arena of its size. -/
theorem freeBlock (sound : pool.Sound free cut) {block : Block} (live : block ∈ pool.live)
    (size : block.size = (pool.arenas i).blockSize) :
    Pool.Sound (pool.free i block.ptr) (Function.update free i (block.header :: free i)) cut := by
  have known := sound.live block live
  obtain ⟨positive, fits⟩ := sound.header_pos known
  have header : FreeBlock.ofPtr block.ptr = block.header := sound.ofPtr_ptr known
  have apart : ∀ b ∈ cut, b.header ≠ block.header →
      Agree pool.mem (FreeBlock.setNext pool.mem block.header (pool.arenas i).head) (FreeBlock.header b.header) := by
    intro b member differ
    have differ : b ≠ block := fun same => differ (congrArg Block.header same)
    exact FreeBlock.setNext_agree ((sound.apart b member block known differ).within b.header_within
      block.header_within)
  have linked : ∀ j, ∀ a ∈ free j, links (FreeBlock.setNext pool.mem block.header (pool.arenas i).head) a =
      links pool.mem a := by
    intro j a member
    obtain ⟨b, inCut, rfl, -⟩ := sound.freed j a member
    have differ : b.header ≠ block.header := fun same => sound.handed j block live (same ▸ member)
    simp only [links, FreeBlock.next_agree (apart b inCut differ)]
  have headFits := sound.head_lt i
  unfold Pool.free Arena.free
  simp only [header]
  refine sound.relist rfl rfl ?_ (fun j _ => linked j) ?_ ?_ ?_ ?_ ?_
  · intro b member
    by_cases same : b.header = block.header
    · rw [same, FreeBlock.size_setNext]
    · exact FreeBlock.size_agree (apart b member same)
  · refine ⟨if_neg positive.ne', _, rfl, ?_⟩
    rw [FreeBlock.next_setNext headFits]
    exact (sound.chains i).frame (linked i)
  · intro a member
    rcases List.mem_cons.mp member with rfl | before
    · exact ⟨⟨block, known, rfl, size⟩, fun j _ => sound.handed j block live⟩
    · exact ⟨sound.freed i a before, fun j differ => sound.elsewhere i j (Ne.symm differ) a before⟩
  · intro b member
    exact sound.live b (List.mem_of_mem_filter member)
  · exact sound.nodup.filter _
  · intro b member
    obtain ⟨before, other⟩ := List.mem_filter.mp member
    refine ⟨?_, fun j _ => sound.handed j b before⟩
    intro again
    rcases List.mem_cons.mp again with same | listed
    · exact of_decide_eq_true other (by rw [Block.ptr, same, Block.ptr])
    · exact sound.handed i b before listed

end Sound

theorem alloc_of_list {fresh : Nat} (nonempty : (pool.arenas i).head ≠ 0) :
    pool.alloc i fresh = ((pool.arenas i).head + FreeBlock.sizeOf, { pool with
      arenas := Function.update pool.arenas i
        { pool.arenas i with head := FreeBlock.next pool.mem (pool.arenas i).head }
      live := ⟨(pool.arenas i).head, (pool.arenas i).blockSize, (pool.arenas i).known⟩ :: pool.live }) := by
  simp [alloc, Arena.alloc, Arena.mallocs, nonempty]

theorem alloc_of_buffer {fresh : Nat} (null : (pool.arenas i).head = 0) :
    pool.alloc i fresh = (((pool.arenas i).refill fresh).buffer + FreeBlock.sizeOf, {
      mem := (((pool.arenas i).refill fresh).cut pool.mem).2.2
      arenas := Function.update pool.arenas i (((pool.arenas i).refill fresh).cut pool.mem).2.1
      live := ⟨((pool.arenas i).refill fresh).buffer, (pool.arenas i).blockSize, (pool.arenas i).known⟩ :: pool.live
      buffers := if (pool.arenas i).sizeInBuffer < Arena.carve (pool.arenas i).blockSize then
        ⟨fresh, Arena.bufferSize (pool.arenas i).blockSize⟩ :: pool.buffers else pool.buffers }) := by
  simp [alloc, Arena.alloc, Arena.mallocs, null, Arena.cut]

/-- `alloc` keeps the blocks apart, and hands out one that was not live. -/
theorem Sound.alloc (sound : pool.Sound free cut) {fresh : Nat} (malloc : (pool.arenas i).mallocs = true →
      Mallocs pool.buffers fresh (Arena.bufferSize (pool.arenas i).blockSize)) :
    ∃ free' cut' block, (pool.alloc i fresh).2.Sound free' cut' ∧ (pool.alloc i fresh).1 = block.ptr ∧
      block.size = (pool.arenas i).blockSize ∧ (pool.alloc i fresh).2.live = block :: pool.live := by
  by_cases null : (pool.arenas i).head = 0
  · rw [alloc_of_buffer null]
    by_cases small : (pool.arenas i).sizeInBuffer < Arena.carve (pool.arenas i).blockSize
    · have grows : (pool.arenas i).mallocs = true := by simp [Arena.mallocs, null, small]
      have filled := sound.refill (malloc grows) small
      have room : Arena.carve ((pool.arenas i).refill fresh).blockSize ≤
          ((pool.arenas i).refill fresh).sizeInBuffer := by
        simpa only [Arena.refill, if_pos small] using Arena.carve_le (pool.arenas i).known
      let block : Block :=
        ⟨((pool.arenas i).refill fresh).buffer, (pool.arenas i).blockSize, (pool.arenas i).known⟩
      have size : block.size = ((pool.arenas i).refill fresh).blockSize := by
        simp only [block, Arena.refill, if_pos small]
      have cutting := filled.cutBlock (i := i) (by simpa only [Function.update_self] using room) block
        (by simp only [Function.update_self, block]) (by simpa only [Function.update_self] using size)
      simp only [Function.update_self, Function.update_idem] at cutting
      rw [if_pos small]
      exact ⟨free, _, block, cutting, rfl, rfl, rfl⟩
    · have kept : (pool.arenas i).refill fresh = pool.arenas i := if_neg small
      rw [if_neg small]
      simp only [kept]
      exact ⟨free, _, _, sound.cutBlock (Nat.le_of_not_lt small)
        ⟨(pool.arenas i).buffer, (pool.arenas i).blockSize, (pool.arenas i).known⟩ rfl rfl, rfl, rfl, rfl⟩
  · rw [alloc_of_list null]
    obtain ⟨rest, -, taken⟩ := sound.takeBlock null
      ⟨(pool.arenas i).head, (pool.arenas i).blockSize, (pool.arenas i).known⟩ rfl rfl
    exact ⟨_, _, _, taken, rfl, rfl, rfl⟩

/-- What `alloc` returns is not the address of a live block. -/
theorem Sound.alloc_fresh (sound : pool.Sound free cut) {fresh : Nat} (malloc : (pool.arenas i).mallocs = true →
      Mallocs pool.buffers fresh (Arena.bufferSize (pool.arenas i).blockSize)) {b : Block} (live : b ∈ pool.live) :
    b.ptr ≠ (pool.alloc i fresh).1 := by
  obtain ⟨free', cut', block, sound', ptr, -, lives⟩ := sound.alloc malloc
  have nodup := sound'.nodup
  rw [lives] at nodup
  intro same
  have header : b.header = block.header := Nat.add_right_cancel (same.trans ptr)
  have before : b ∈ cut' := sound'.live b (lives ▸ List.mem_cons_of_mem _ live)
  have now : block ∈ cut' := sound'.live block (lives ▸ List.mem_cons_self)
  exact (List.nodup_cons.mp nodup).1 (sound'.block_unique before now header ▸ live)

omit [DecidableEq ι] in
/-- Users write to their own blocks, or to memory that is not the arenas'. -/
theorem Sound.store (sound : pool.Sound free cut) {a : Nat} {bytes : List UInt8}
    (own : (∃ b ∈ pool.live, Region.Within ⟨a, bytes.length⟩ b.usable) ∨
      ∀ buffer ∈ pool.buffers, Region.Apart ⟨a, bytes.length⟩ buffer) : (pool.store a bytes).Sound free cut := by
  refine sound.agree ?_
  intro c member
  apply write_agree
  rcases own with ⟨b, live, within⟩ | outside
  · by_cases same : c = b
    · subst same
      exact c.header_apart_usable.within (Region.Within.refl _) within
    · exact (sound.apart c member b (sound.live b live) same).within c.header_within (within.trans b.usable_within)
  · obtain ⟨buffer, listed, inside⟩ := sound.inside c member
    exact (outside buffer listed).symm.within (c.header_within.trans inside) (Region.Within.refl _)

omit [DecidableEq ι] in
theorem sound_init (mem : Memory) (arenas : ι → Arena)
    (empty : ∀ i, (arenas i).head = 0 ∧ (arenas i).sizeInBuffer = 0) :
    Pool.Sound ⟨mem, arenas, [], []⟩ (fun _ => []) [] := by
  have none : ∀ i, toPtr (arenas i).head = none := fun i => if_pos (empty i).1
  refine ⟨?_, ?_, ?_, ?_, ?_, ?_, ?_, ?_, ?_, ?_, ?_, .nil, ?_⟩
  case refine_4 => exact fun i left => absurd left (by simp [(empty i).2])
  case refine_6 => exact fun i j _ => .inl (empty i).2
  case refine_8 => exact none
  all_goals simp

theorem alloc_blockSize (pool : Pool ι) (i j : ι) (fresh : Nat) :
    ((pool.alloc i fresh).2.arenas j).blockSize = (pool.arenas j).blockSize := by
  by_cases null : (pool.arenas i).head = 0
  · rw [alloc_of_buffer null]
    refine update_kept Arena.blockSize ?_ j
    simp only [Arena.cut, Arena.refill]
    split <;> rfl
  · rw [alloc_of_list null]
    refine update_kept Arena.blockSize ?_ j
    rfl

theorem free_blockSize (pool : Pool ι) (i j : ι) (ptr : Nat) :
    ((pool.free i ptr).arenas j).blockSize = (pool.arenas j).blockSize := by
  refine update_kept Arena.blockSize ?_ j
  rfl

end Pool

namespace Arena
open LabelledRun

/-- A call with its result, or a write of the program that uses the blocks. -/
inductive Event where
  | alloc (fresh ptr : Nat)
  | free (ptr : Nat)
  | store (a : Nat) (bytes : List UInt8)
  deriving DecidableEq, Repr

def step (pool : Pool Unit) : Event → Option (Pool Unit)
  | .alloc fresh ptr => if (pool.alloc () fresh).1 = ptr then some (pool.alloc () fresh).2 else none
  | .free ptr => some (pool.free () ptr)
  | .store a bytes => some (pool.store a bytes)

def Step (pool : Pool Unit) (event : Event) (next : Pool Unit) : Prop := step pool event = some next

/-- `malloc` keeps its promise, only live blocks are freed, and no one writes to a header or to
memory that was not handed out. -/
def Promised (_ : List Event) (pool : Pool Unit) : Event → Prop
  | .alloc fresh _ => (pool.arenas ()).mallocs = true →
      Mallocs pool.buffers fresh (bufferSize (pool.arenas ()).blockSize)
  | .free ptr => ∃ block ∈ pool.live, block.ptr = ptr
  | .store a bytes => (∃ block ∈ pool.live, Region.Within ⟨a, bytes.length⟩ block.usable) ∨
      ∀ buffer ∈ pool.buffers, Region.Apart ⟨a, bytes.length⟩ buffer

instance (trace : List Event) (pool : Pool Unit) (event : Event) : Decidable (Promised trace pool event) := by
  cases event <;> unfold Promised <;> infer_instance

/-- An arena just initialised. -/
def start (mem : Memory) (arenaId size : Nat) (known : size ∈ BlockSizes) : Pool Unit :=
  { mem := mem, arenas := fun _ => init arenaId size known, live := [], buffers := [] }

structure Kept (size : Nat) (pool : Pool Unit) : Prop where
  blockSize : (pool.arenas ()).blockSize = size
  live : ∀ block ∈ pool.live, block.size = size
  sound : ∃ free cut, pool.Sound free cut

variable {size : Nat} {pool next : Pool Unit} {trace : List Event} {event : Event}

theorem kept_step (kept : Kept size pool) (promised : Promised trace pool event) (taken : Step pool event next) :
    Kept size next := by
  obtain ⟨blockSize, live, free, cut, sound⟩ := kept
  cases event with
  | alloc fresh ptr =>
    simp only [Step, step] at taken
    split at taken
    next result =>
      cases taken
      obtain ⟨free', cut', block, sound', -, sized, lives⟩ := sound.alloc promised
      refine ⟨(pool.alloc_blockSize () () fresh).trans blockSize, ?_, free', cut', sound'⟩
      intro b member
      rw [lives] at member
      rcases List.mem_cons.mp member with rfl | before
      · exact sized.trans blockSize
      · exact live b before
    next => cases taken
  | free ptr =>
    cases taken
    obtain ⟨block, member, rfl⟩ := promised
    refine ⟨(pool.free_blockSize () () _).trans blockSize, ?_, _, _,
      sound.freeBlock member ((live block member).trans blockSize.symm)⟩
    intro b member'
    exact live b (List.mem_of_mem_filter member')
  | store a bytes =>
    cases taken
    exact ⟨blockSize, live, free, cut, sound.store promised⟩

theorem kept_run {mem : Memory} {arenaId : Nat} {known : size ∈ BlockSizes}
    (run : Run Step Promised (start mem arenaId size known) trace pool) : Kept size pool := by
  refine run.invariant (fun _ pool => Kept size pool) ?_ ?_
  · exact ⟨rfl, by simp [start], _, _, Pool.sound_init mem _ (fun _ => ⟨rfl, rfl⟩)⟩
  · intro trace pool event next kept promised taken
    exact kept_step kept promised taken

/-- What is live stays live until it is freed. -/
theorem live_run {first last : Pool Unit} {ptr : Nat} (allowed : List Event → Pool Unit → Event → Prop)
    (run : Run Step allowed first trace last) (live : ∃ block ∈ first.live, block.ptr = ptr)
    (unfreed : Event.free ptr ∉ trace) : ∃ block ∈ last.live, block.ptr = ptr := by
  induction run with
  | nil => exact live
  | @snoc trace pool next event _ _ taken ih =>
    rw [List.mem_append, not_or] at unfreed
    obtain ⟨block, member, same⟩ := ih unfreed.1
    cases event with
    | alloc fresh got =>
      simp only [Step, step] at taken
      split at taken
      next => cases taken; exact ⟨block, List.mem_cons_of_mem _ member, same⟩
      next => cases taken
    | free other =>
      cases taken
      refine ⟨block, List.mem_filter.mpr ⟨member, decide_eq_true ?_⟩, same⟩
      rintro rfl
      exact unfreed.2 (by simp [same])
    | store a bytes => cases taken; exact ⟨block, member, same⟩

/-- Between two calls that return the same block it was freed. -/
theorem freed_between {mem : Memory} {arenaId ptr fresh fresh' : Nat} {known : size ∈ BlockSizes}
    (run : Run Step Promised (start mem arenaId size known) trace pool) {before middle after : List Event}
    (split : trace = before ++ .alloc fresh ptr :: (middle ++ .alloc fresh' ptr :: after)) :
    Event.free ptr ∈ middle := by
  by_contra unfreed
  obtain ⟨last, upto, -⟩ := run.split (before ++ .alloc fresh ptr :: middle ++ [.alloc fresh' ptr]) after
    (by simp [split])
  obtain ⟨second, upto, promised, taken⟩ := upto.last
  obtain ⟨first, handed, later⟩ := upto.split (before ++ [.alloc fresh ptr]) middle (by simp)
  obtain ⟨zero, upto', promised', taken'⟩ := handed.last
  simp only [Step, step] at taken taken'
  split at taken'
  next result =>
    cases taken'
    obtain ⟨-, -, free, cut, sound⟩ := kept_run upto'
    obtain ⟨_, _, block, -, same, -, lives⟩ := sound.alloc promised'
    have live : ∃ block ∈ second.live, block.ptr = ptr :=
      live_run _ later ⟨block, lives ▸ List.mem_cons_self, same.symm.trans result⟩ unfreed
    split at taken
    next result' =>
      obtain ⟨-, -, free, cut, sound⟩ := kept_run upto
      obtain ⟨block, member, same⟩ := live
      exact sound.alloc_fresh promised member (same.trans result'.symm)
    next => cases taken
  next => cases taken'

/-- Over every run of calls to an arena of one of the block sizes: the live blocks are pairwise
apart, each lies in one buffer with its header intact and `size` bytes after it, none is on the
free list, and a block returned twice was freed in between. -/
theorem arena_blocks_apart {mem : Memory} {arenaId : Nat} {known : size ∈ BlockSizes}
    (run : Run Step Promised (start mem arenaId size known) trace pool) :
    pool.live.Pairwise (fun b c => b.extent.Apart c.extent) ∧
    (∀ block ∈ pool.live, block.size = size ∧ FreeBlock.size pool.mem block.header = size ∧
      ∃ buffer ∈ pool.buffers, (FreeBlock.header block.header).Within buffer ∧ block.usable.Within buffer) ∧
    (∃ free, Chain (links pool.mem) (toPtr (pool.arenas ()).head) free ∧
      ∀ block ∈ pool.live, block.header ∉ free) ∧
    ∀ before middle after fresh fresh' ptr,
      trace = before ++ .alloc fresh ptr :: (middle ++ .alloc fresh' ptr :: after) → .free ptr ∈ middle := by
  obtain ⟨-, sizes, free, cut, sound⟩ := kept_run run
  refine ⟨?_, ?_, ⟨free (), sound.chains (), fun block live => sound.handed () block live⟩, ?_⟩
  · refine sound.nodup.imp_of_mem ?_
    intro b c first second differ
    exact sound.apart b (sound.live b first) c (sound.live c second) differ
  · intro block live
    have listed := sound.live block live
    obtain ⟨buffer, known, within⟩ := sound.inside block listed
    exact ⟨sizes block live, (sound.headers block listed).trans (sizes block live), buffer, known,
      block.header_within.trans within, block.usable_within.trans within⟩
  · intro before middle after fresh fresh' ptr split
    exact freed_between run split

/-- Two blocks of 32 bytes; the first is written to, freed and handed out again. -/
def reuse : List Event :=
  [.alloc 4096 4112, .alloc 0 4160, .store 4112 [1, 2], .free 4112, .alloc 0 4112]

theorem arena_blocks_apart_reuse : ∃ pool : Pool Unit, (pool.live.map Block.ptr = [4112, 4160] ∧
      pool.live.Pairwise (fun b c => b.extent.Apart c.extent)) ∧
    ∀ block ∈ pool.live, FreeBlock.size pool.mem block.header = 32 := by
  have played : (playUnder step Promised [] (start (fun _ => 7) 0 32 (by decide)) reuse).map
      (fun pool => pool.live.map Block.ptr) = some [4112, 4160] := by decide +kernel
  obtain ⟨pool, result, ptrs⟩ := Option.map_eq_some_iff.mp played
  obtain ⟨apart, whole, -, -⟩ := arena_blocks_apart (run_of_playUnder result)
  exact ⟨pool, ⟨ptrs, apart⟩, fun block live => (whole block live).2.1⟩

end Arena

end DataAgentDB.Storage
