import Mathlib.Tactic
import Minyar.Library.ByteMemory
import Minyar.Library.BuddyTiling
import Minyar.Library.DoublyLinked

/-!
# The finite heap: a buddy allocator in a static pool

The bounded heap profile reserves `2 ^ heapExponent` bytes and hands out contiguous blocks of
`32 * 2 ^ order` bytes.  The allocator keeps one map byte for every 32 pool bytes, one doubly
linked free list for every order, whose links are written into the free blocks themselves, a
mask of the nonempty lists, and the number of bytes in use.

The definitions follow the C functions of the same names.  Pointers are addresses, `0` is the
null pointer, sizes are 64-bit, and `Except.error` is a call that stops the program with the
given text.  The loops that double a size or walk up the orders are structural in the number of
orders left.
-/

namespace Minyar

/-- The compile-time constants of the pool. -/
structure PoolConfig where
  /-- The address of `minyar_pool`. -/
  base : ℕ
  /-- The pool has `2 ^ heapExponent` bytes. -/
  heapExponent : ℕ
  /-- The pool does not start at the null pointer. -/
  base_pos : 0 < base
  /-- The bounded heap contains at least 4096 bytes. -/
  min_bytes : 4096 ≤ 2 ^ heapExponent
  /-- The bounded heap is not larger than half the address space. -/
  max_bytes : 2 ^ heapExponent ≤ (2 ^ 64 - 1) / 2
  /-- The pool lies in the address space. -/
  fits : base + 2 ^ heapExponent ≤ 2 ^ 64

/-- The bytes of the pool. -/
def PoolConfig.bytes (cfg : PoolConfig) : ℕ := 2 ^ cfg.heapExponent

/-- The bytes of the smallest block, described by one map byte. -/
def poolMinimum : ℕ := 32

/-- The number of orders that the tables have room for. -/
def poolOrders : ℕ := 64

/-- The links written into a free block. -/
abbrev PoolLink := Link ℕ

/-- The variables of the allocator. -/
structure Pool where
  /-- The memory; the pool is the part from `base` on. -/
  bytes : ByteMemory
  /-- The map byte of every 32 pool bytes. -/
  map : ℕ → ℕ
  /-- The first block of the free list of every order. -/
  free : ℕ → ℕ
  /-- Bit `order` says that the free list of that order is nonempty. -/
  mask : BitVec 64
  /-- The bytes in allocated blocks. -/
  used : ℕ
  /-- The most bytes that were ever in use. -/
  highWater : ℕ
  /-- The order of the block that fills the pool. -/
  maxOrder : ℕ

/-- `a + b` in a 64-bit size. -/
def sizeAdd (a b : ℕ) : ℕ := (a + b) % 2 ^ 64

/-- `a - b` in a 64-bit size. -/
def sizeSub (a b : ℕ) : ℕ := (a + 2 ^ 64 - b) % 2 ^ 64

/-- The map byte at the start of a free block. -/
def freeByte (order : ℕ) : ℕ := (order + 1) % 2 ^ 8

/-- The map byte at the start of an allocated block. -/
def allocatedByte (order : ℕ) : ℕ := (0x80 ||| (order + 1)) % 2 ^ 8

/-- The number of zero bits below the lowest set bit. -/
def countTrailingZeros (word : BitVec 64) : ℕ :=
  ((List.range 64).find? fun bit => word.getLsbD bit).getD 64

/-- The distance of a pointer from the start of the pool. -/
def poolOffset (cfg : PoolConfig) (pointer : ℕ) : ℕ := pointer - cfg.base

/-- The bytes of a block of the given order. -/
def poolBlockSize (order : ℕ) : ℕ := poolMinimum <<< order

/-- The map index of a pointer. -/
def poolMapIndex (cfg : PoolConfig) (pointer : ℕ) : ℕ := poolOffset cfg pointer / poolMinimum

/-- Reads the links of a free block. -/
def poolReadLink (s : Pool) (link : ℕ) : PoolLink :=
  ⟨readBytes s.bytes link 8, readBytes s.bytes (link + 8) 8⟩

/-- Writes the links of a free block. -/
def poolWriteLink (s : Pool) (link : ℕ) (value : PoolLink) : Pool :=
  { s with bytes := writeBytes (writeBytes s.bytes link value.previous 8) (link + 8) value.next 8 }

/-- Puts a block in front of the free list of its order and marks it free in the map. -/
def poolInsert (cfg : PoolConfig) (s : Pool) (link order : ℕ) : Pool :=
  let head := s.free order
  let s := poolWriteLink s link ⟨0, head⟩
  let s := if head ≠ 0 then poolWriteLink s head { poolReadLink s head with previous := link } else s
  { s with
    free := Function.update s.free order link
    mask := s.mask ||| 1#64 <<< order
    map := Function.update s.map (poolMapIndex cfg link) (freeByte order) }

/-- Takes a block out of the free list of its order and clears its map byte. -/
def poolRemove (cfg : PoolConfig) (s : Pool) (link order : ℕ) : Pool :=
  let value := poolReadLink s link
  let s := if value.previous ≠ 0 then
      poolWriteLink s value.previous { poolReadLink s value.previous with next := value.next }
    else { s with free := Function.update s.free order value.next }
  let s := if value.next ≠ 0 then
      poolWriteLink s value.next { poolReadLink s value.next with previous := value.previous }
    else s
  let s := if s.free order = 0 then { s with mask := s.mask &&& ~~~(1#64 <<< order) } else s
  { s with map := Function.update s.map (poolMapIndex cfg link) 0 }

/-- The loop that doubles a block size until it is at least `size` and counts the doublings; at
most `fuel` of them. -/
def poolFit (size : ℕ) : ℕ → ℕ → ℕ → ℕ × ℕ
  | 0, order, blockSize => (order, blockSize)
  | fuel + 1, order, blockSize =>
    if blockSize < size then poolFit size fuel (order + 1) (blockSize <<< 1) else (order, blockSize)

/-- The variables before `minyar_pool_initialize`: static storage is zero. -/
def Pool.zero : Pool where
  bytes := fun _ => 0
  map := fun _ => 0
  free := fun _ => 0
  mask := 0
  used := 0
  highWater := 0
  maxOrder := 0

/-- The pool before `main`: one free block. -/
def minyarPoolInitialize (cfg : PoolConfig) : Pool :=
  let s := { Pool.zero with maxOrder := (poolFit cfg.bytes poolOrders 0 poolMinimum).1 }
  poolInsert cfg s cfg.base s.maxOrder

/-- The loop that cuts a block of order `order + n` down to `order` and frees the upper halves. -/
def poolSplit (cfg : PoolConfig) (result order : ℕ) : ℕ → Pool → Pool
  | 0, s => s
  | n + 1, s =>
    poolSplit cfg result order n
      (poolInsert cfg s (result + poolBlockSize (order + n)) (order + n))

/-- Raises the high-water mark to the bytes in use. -/
def poolRaiseHighWater (s : Pool) : Pool :=
  if s.used > s.highWater then { s with highWater := s.used } else s

/-- Allocates a block for `size` bytes, or returns the null pointer. -/
def minyarPoolTryAllocate (cfg : PoolConfig) (s : Pool) (size : ℕ) : ℕ × Pool :=
  if size > cfg.bytes then (0, s)
  else
    let fit := poolFit size poolOrders 0 poolMinimum
    let order := fit.1
    let available := s.mask &&& (BitVec.allOnes 64 <<< order)
    if available = 0 then (0, s)
    else
      let found := countTrailingZeros available
      let result := s.free found
      let s := poolRemove cfg s result found
      let s := poolSplit cfg result order (found - order) s
      let s := { s with
        map := Function.update s.map (poolMapIndex cfg result) (allocatedByte order)
        used := sizeAdd s.used fit.2 }
      (result, poolRaiseHighWater s)

/-- Allocates a block for `size` bytes, or stops. -/
def minyarPoolAllocate (cfg : PoolConfig) (s : Pool) (size : ℕ) : Except String (ℕ × Pool) :=
  let result := minyarPoolTryAllocate cfg s size
  if result.1 = 0 then
    .error "the bounded heap is exhausted (including pending cleanup and fragmentation)."
  else .ok result

/-- The order of the allocated block at a pointer, or a stop. -/
def poolAllocatedOrder (cfg : PoolConfig) (s : Pool) (pointer : ℕ) : Except String ℕ :=
  if pointer < cfg.base ∨ pointer ≥ cfg.base + cfg.bytes ∨
      (pointer - cfg.base) % poolMinimum ≠ 0 then
    .error "an invalid bounded-heap allocation was released."
  else
    let state := s.map (poolMapIndex cfg pointer)
    if state &&& 0x80 = 0 then .error "a bounded-heap allocation was released twice."
    else .ok ((state &&& 0x7f) - 1)

/-- The loop that merges a released block with free buddies: the offset and the order it ends
with, and the pool. -/
def poolCoalesce (cfg : PoolConfig) : ℕ → Pool → ℕ → ℕ → Pool × ℕ × ℕ
  | 0, s, offset, order => (s, offset, order)
  | n + 1, s, offset, order =>
    let buddy := offset ^^^ poolBlockSize order
    if s.map (buddy / poolMinimum) ≠ order + 1 then (s, offset, order)
    else
      let s := poolRemove cfg s (cfg.base + buddy) order
      poolCoalesce cfg n s (if buddy < offset then buddy else offset) (order + 1)

/-- Releases the block at a pointer. -/
def minyarPoolDeallocate (cfg : PoolConfig) (s : Pool) (pointer : ℕ) : Except String Pool :=
  if pointer = 0 then .ok s
  else do
    let order ← poolAllocatedOrder cfg s pointer
    let offset := poolOffset cfg pointer
    let s := { s with
      used := sizeSub s.used (poolBlockSize order)
      map := Function.update s.map (offset / poolMinimum) 0 }
    let merged := poolCoalesce cfg (s.maxOrder - order) s offset order
    return poolInsert cfg merged.1 (cfg.base + merged.2.1) merged.2.2

/-- What a resize has to do: the present order and bytes of the block, the wanted ones, and the
offset of the block. -/
structure PoolResizePlan where
  /-- The present order. -/
  order : ℕ
  /-- The order that fits the new size. -/
  wanted : ℕ
  /-- The present bytes. -/
  capacity : ℕ
  /-- The bytes of a block of the wanted order. -/
  target : ℕ
  /-- The offset of the block. -/
  offset : ℕ

/-- Plans a resize, or stops when the new size does not fit the pool. -/
def poolPlanResize (cfg : PoolConfig) (s : Pool) (pointer size : ℕ) :
    Except String PoolResizePlan := do
  let order ← poolAllocatedOrder cfg s pointer
  if size > cfg.bytes then
    throw "the bounded heap is exhausted (including pending cleanup and fragmentation)."
  let fit := poolFit size poolOrders 0 poolMinimum
  return ⟨order, fit.1, poolBlockSize order, fit.2, poolOffset cfg pointer⟩

/-- The scan for free upper buddies of the `n` orders from `next` on. -/
def poolUpperFree (s : Pool) (offset : ℕ) : ℕ → ℕ → Bool
  | 0, _ => true
  | n + 1, next =>
    decide (s.map ((offset + poolBlockSize next) / poolMinimum) = next + 1) &&
      poolUpperFree s offset n (next + 1)

/-- The loop that takes the upper buddies of the `n` orders from `next` on. -/
def poolRemoveUpper (cfg : PoolConfig) (offset : ℕ) : ℕ → ℕ → Pool → Pool
  | 0, _, s => s
  | n + 1, next, s =>
    poolRemoveUpper cfg offset n (next + 1)
      (poolRemove cfg s (cfg.base + offset + poolBlockSize next) next)

/-- Resizes a block without moving it, or returns the null pointer. -/
def poolTryResizeSameBase (cfg : PoolConfig) (s : Pool) (pointer : ℕ) (plan : PoolResizePlan) :
    ℕ × Pool :=
  if plan.wanted ≤ plan.order then
    let s := { s with used := sizeSub s.used (plan.capacity - plan.target) }
    let s := poolSplit cfg pointer plan.wanted (plan.order - plan.wanted) s
    (pointer, { s with
      map := Function.update s.map (plan.offset / poolMinimum) (allocatedByte plan.wanted) })
  else if plan.offset &&& (plan.target - 1) = 0 ∧
      poolUpperFree s plan.offset (plan.wanted - plan.order) plan.order = true then
    let s := poolRemoveUpper cfg plan.offset (plan.wanted - plan.order) plan.order s
    let s := { s with
      map := Function.update s.map (plan.offset / poolMinimum) (allocatedByte plan.wanted)
      used := sizeAdd s.used (plan.target - plan.capacity) }
    (pointer, poolRaiseHighWater s)
  else (0, s)

/-- Moves a block to a fitting one: allocation, copy of the preserved bytes, and release. -/
def poolMove (cfg : PoolConfig) (s : Pool) (pointer preserved size : ℕ) :
    Except String (ℕ × Pool) := do
  let allocation ← minyarPoolAllocate cfg s size
  let s := { allocation.2 with
    bytes := copyBytes allocation.2.bytes allocation.1 pointer preserved }
  let s ← minyarPoolDeallocate cfg s pointer
  return (allocation.1, s)

/-- Resizes a block and preserves its first `oldSize` bytes. -/
def minyarPoolResize (cfg : PoolConfig) (s : Pool) (pointer oldSize size : ℕ) :
    Except String (ℕ × Pool) :=
  if pointer = 0 then minyarPoolAllocate cfg s size
  else do
    let plan ← poolPlanResize cfg s pointer size
    let same := poolTryResizeSameBase cfg s pointer plan
    if same.1 ≠ 0 then return same
    else poolMove cfg s pointer (if oldSize < size then oldSize else size) size

/-- The scan for free buddies on either side of the `n` orders from `next` on. -/
def poolPathFree (s : Pool) : ℕ → ℕ → ℕ → Bool
  | 0, _, _ => true
  | n + 1, merged, next =>
    let buddy := merged ^^^ poolBlockSize next
    decide (s.map (buddy / poolMinimum) = next + 1) &&
      poolPathFree s n (if buddy < merged then buddy else merged) (next + 1)

/-- The loop that takes the buddies on either side of the `n` orders from `next` on; it also
returns the offset of the merged block. -/
def poolRemovePath (cfg : PoolConfig) : ℕ → ℕ → ℕ → Pool → Pool × ℕ
  | 0, base, _, s => (s, base)
  | n + 1, base, next, s =>
    let buddy := base ^^^ poolBlockSize next
    poolRemovePath cfg n (if buddy < base then buddy else base) (next + 1)
      (poolRemove cfg s (cfg.base + buddy) next)

/-- Grows a block through its buddies on either side, or returns the null pointer. -/
def minyarPoolTryGrowLower (cfg : PoolConfig) (s : Pool)
    (offset order wanted capacity target : ℕ) : ℕ × Pool :=
  if poolPathFree s (wanted - order) offset order = true then
    let removed := poolRemovePath cfg (wanted - order) offset order s
    let s := removed.1
    let base := removed.2
    let s := { s with map := Function.update s.map (offset / poolMinimum) 0 }
    let s := { s with
      map := Function.update s.map (base / poolMinimum) (allocatedByte wanted)
      used := sizeAdd s.used (target - capacity) }
    (cfg.base + base, poolRaiseHighWater s)
  else (0, s)

/-- Resizes a block whose contents need not survive. -/
def minyarPoolResizeDiscard (cfg : PoolConfig) (s : Pool) (pointer size : ℕ) :
    Except String (ℕ × Pool) :=
  if pointer = 0 then minyarPoolAllocate cfg s size
  else do
    let plan ← poolPlanResize cfg s pointer size
    let same := poolTryResizeSameBase cfg s pointer plan
    if same.1 ≠ 0 then return same
    else
      let merged := if plan.offset &&& (plan.target - 1) ≠ 0 then
          minyarPoolTryGrowLower cfg s plan.offset plan.order plan.wanted plan.capacity plan.target
        else (0, s)
      if merged.1 ≠ 0 then return merged
      else poolMove cfg s pointer 0 size

end Minyar
