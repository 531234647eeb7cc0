import LucenePlusPlus.Runs
import Mathlib.Data.List.Basic
import Mathlib.Logic.Function.Basic
import Mathlib.Tactic

/-!
`ByteBlockPool`, its allocator, and the stream writer of `TermsHashPerField`. Many byte streams share
the blocks of one pool; each stream is a chain of slices of growing size, and the last four bytes of
a full slice hold the address of the next one. A block is a function from offsets to bytes, of which
the offsets below `byteBlockSize` are meant.

Addresses are `int32_t` in the source. Taking a block whose addresses do not fit overflows a signed
integer, which has no defined result there: it is `none` here.
-/

namespace LucenePlusPlus

/-- `DocumentsWriter::BYTE_BLOCK_SIZE`. -/
def byteBlockSize : Nat := 32768

/-- The addresses that fit an `int32_t`. -/
def addressLimit : Nat := 2 ^ 31

abbrev Block := Nat → UInt8

def zeroBlock : Block := fun _ => 0

/-- `MiscUtils::arrayFill(block, 0, n, 0)`. -/
def Block.fill (b : Block) (n : Nat) : Block := fun i => if i < n then 0 else b i

/-- `ByteBlockAllocator` of DocumentsWriter: the blocks that pools have given back. -/
structure ByteBlockAllocator where
  freeByteBlocks : List Block

namespace ByteBlockAllocator

/-- A new block is zero filled; a recycled one is handed out as it was given back. -/
def getByteBlock (a : ByteBlockAllocator) : Block × ByteBlockAllocator :=
  match a.freeByteBlocks.getLast? with
  | none => (zeroBlock, a)
  | some b => (b, ⟨a.freeByteBlocks.dropLast⟩)

def recycleByteBlocks (a : ByteBlockAllocator) (blocks : List Block) : ByteBlockAllocator :=
  ⟨a.freeByteBlocks ++ blocks⟩

end ByteBlockAllocator

namespace ByteBlockPool

/-- The slice level that follows each level. -/
def nextLevelArray : List Nat := [1, 2, 3, 4, 5, 6, 7, 8, 9, 9]

/-- The size of a slice of each level. -/
def levelSizeArray : List Nat := [5, 14, 20, 30, 40, 40, 80, 80, 120, 200]

def nextLevel (level : Nat) : Nat := nextLevelArray.getD level 9

def levelSize (level : Nat) : Nat := levelSizeArray.getD level 200

def firstLevelSize : Nat := levelSize 0

end ByteBlockPool

/-- `buffers` are the blocks with index `0` to `bufferUpto`; `byteUpto` is where the free part of the
last one starts. -/
structure ByteBlockPool where
  buffers : List Block
  byteUpto : Nat

namespace ByteBlockPool

def empty : ByteBlockPool := ⟨[], byteBlockSize⟩

def bufferUpto (p : ByteBlockPool) : Nat := p.buffers.length - 1

/-- The address of the first byte of the current block. -/
def byteOffset (p : ByteBlockPool) : Nat := p.bufferUpto * byteBlockSize

def get (p : ByteBlockPool) (buffer offset : Nat) : UInt8 :=
  p.buffers.getD buffer zeroBlock offset

def put (p : ByteBlockPool) (buffer offset : Nat) (b : UInt8) : ByteBlockPool :=
  { p with buffers := p.buffers.modify buffer fun block => Function.update block offset b }

/-- `byteUpto += size`. -/
def take (p : ByteBlockPool) (size : Nat) : ByteBlockPool :=
  { p with byteUpto := p.byteUpto + size }

/-- Zero fills what was used, gives back every block but the first, and starts over. -/
def reset (p : ByteBlockPool) (a : ByteBlockAllocator) : ByteBlockPool × ByteBlockAllocator :=
  match p.buffers.map fun b => b.fill byteBlockSize, p.buffers.getLast? with
  | _, none => (p, a)
  | full, some last =>
      let zeroed := full.dropLast ++ [last.fill p.byteUpto]
      (⟨zeroed.take 1, 0⟩, a.recycleByteBlocks (zeroed.drop 1))

/-- `none` when the end of the new block exceeds `int32_t`: pools of 2 GiB are left out. -/
def nextBuffer (p : ByteBlockPool) (a : ByteBlockAllocator) :
    Option (ByteBlockPool × ByteBlockAllocator) :=
  if (p.buffers.length + 1) * byteBlockSize < addressLimit then
    let (block, a) := a.getByteBlock
    some (⟨p.buffers ++ [block], 0⟩, a)
  else none

/-- Moves on to a new block when the current one has no room for `size` bytes. -/
def makeRoom (p : ByteBlockPool) (a : ByteBlockAllocator) (size : Nat) :
    Option (ByteBlockPool × ByteBlockAllocator) :=
  if p.byteUpto + size > byteBlockSize then p.nextBuffer a else some (p, a)

/-- The offset of the new slice in the current block, with the pool after the call. -/
def newSlice (p : ByteBlockPool) (a : ByteBlockAllocator) (size : Nat) :
    Option (Nat × ByteBlockPool × ByteBlockAllocator) := do
  let (p, a) ← p.makeRoom a size
  let upto := p.byteUpto
  let p := p.take size
  return (upto, p.put p.bufferUpto (p.byteUpto - 1) 16, a)

/-- The writes of `allocSlice`: the new slice takes its room in the current block, the full slice that
ends at `upto` gets its address. Both may lie in the same block, so the writes go one after the other. -/
def linkSlice (p : ByteBlockPool) (slice upto newLevel : Nat) : ByteBlockPool :=
  let newUpto := p.byteUpto
  let offset := newUpto + p.byteOffset
  let buffer := p.bufferUpto
  let p := p.take (levelSize newLevel)
  -- copy forward the three bytes that the forwarding address overwrites
  let p := p.put buffer newUpto (p.get slice (upto - 3))
  let p := p.put buffer (newUpto + 1) (p.get slice (upto - 2))
  let p := p.put buffer (newUpto + 2) (p.get slice (upto - 1))
  -- the forwarding address, highest byte first
  let p := p.put slice (upto - 3) (UInt8.ofNat (offset / 2 ^ 24))
  let p := p.put slice (upto - 2) (UInt8.ofNat (offset / 2 ^ 16))
  let p := p.put slice (upto - 1) (UInt8.ofNat (offset / 2 ^ 8))
  let p := p.put slice upto (UInt8.ofNat offset)
  p.put buffer (p.byteUpto - 1) (UInt8.ofNat (16 + newLevel))

/-- `allocSlice(slice, upto)` with the slice given as the index of its block. -/
def allocSlice (p : ByteBlockPool) (a : ByteBlockAllocator) (slice upto : Nat) :
    Option (Nat × ByteBlockPool × ByteBlockAllocator) := do
  let level := (p.get slice upto).toNat % 16
  let newLevel := nextLevel level
  let (p, a) ← p.makeRoom a (levelSize newLevel)
  return (p.byteUpto + 3, p.linkSlice slice upto newLevel, a)

end ByteBlockPool

/-- One stream: the address of its first slice, the recorded end (an entry of `intUptos`), and a
ghost record of the bytes written to it. -/
structure ByteStream where
  start : Nat
  upto : Nat
  written : List UInt8

/-- A pool and the streams written to it since its last reset. -/
structure StreamPool where
  pool : ByteBlockPool
  streams : List ByteStream

namespace StreamPool

def empty : StreamPool := ⟨.empty, []⟩

/-- A stream is opened by `newSlice(FIRST_LEVEL_SIZE)`. -/
def newStream (s : StreamPool) (a : ByteBlockAllocator) :
    Option (StreamPool × ByteBlockAllocator) := do
  let (upto, p, a) ← s.pool.newSlice a ByteBlockPool.firstLevelSize
  let start := upto + p.byteOffset
  return (⟨p, s.streams ++ [⟨start, start, []⟩]⟩, a)

/-- `TermsHashPerField::writeByte`. -/
def writeByte (s : StreamPool) (a : ByteBlockAllocator) (stream : Nat) (b : UInt8) :
    Option (StreamPool × ByteBlockAllocator) := do
  let st ← s.streams[stream]?
  let buffer := st.upto / byteBlockSize
  let offset := st.upto % byteBlockSize
  if s.pool.get buffer offset ≠ 0 then
    -- end of the slice: allocate a new one
    let (offset, p, a) ← s.pool.allocSlice a buffer offset
    let upto := offset + p.byteOffset
    return (⟨p.put p.bufferUpto offset b,
      s.streams.set stream ⟨st.start, upto + 1, st.written ++ [b]⟩⟩, a)
  else
    return (⟨s.pool.put buffer offset b,
      s.streams.set stream ⟨st.start, st.upto + 1, st.written ++ [b]⟩⟩, a)

def writeBytes (s : StreamPool) (a : ByteBlockAllocator) (stream : Nat) :
    List UInt8 → Option (StreamPool × ByteBlockAllocator)
  | [] => some (s, a)
  | b :: bytes => do
      let (s, a) ← s.writeByte a stream b
      s.writeBytes a stream bytes

/-- The argument is the bit pattern of the `int32_t`. -/
def writeVInt (s : StreamPool) (a : ByteBlockAllocator) (stream i : Nat) :
    Option (StreamPool × ByteBlockAllocator) :=
  if i < 128 then s.writeByte a stream (UInt8.ofNat i)
  else do
    let (s, a) ← s.writeByte a stream (UInt8.ofNat (i % 128 + 128))
    s.writeVInt a stream (i / 128)
termination_by i
decreasing_by omega

/-- Resetting the pool forgets its streams. -/
def reset (s : StreamPool) (a : ByteBlockAllocator) : StreamPool × ByteBlockAllocator :=
  let (p, a) := s.pool.reset a
  (⟨p, []⟩, a)

end StreamPool

structure PoolState where
  allocator : ByteBlockAllocator
  pools : Nat → StreamPool

inductive PoolOp where
  | newSlice
  | nextBuffer
  | writeByte (stream : Nat) (b : UInt8)
  | writeBytes (stream : Nat) (bytes : List UInt8)
  | writeVInt (stream i : Nat)
  | reset
  /-- `balanceRAM` frees the last block of the free list. -/
  | freeBlock

namespace PoolState

def init : PoolState := ⟨⟨[]⟩, fun _ => .empty⟩

/-- What an operation does to its pool and the allocator. -/
def apply (s : StreamPool) (a : ByteBlockAllocator) :
    PoolOp → Option (StreamPool × ByteBlockAllocator)
  | .newSlice => s.newStream a
  | .nextBuffer => (s.pool.nextBuffer a).map fun (p, a) => (⟨p, s.streams⟩, a)
  | .writeByte stream b => s.writeByte a stream b
  | .writeBytes stream bytes => s.writeBytes a stream bytes
  | .writeVInt stream i => s.writeVInt a stream i
  | .reset => some (s.reset a)
  | .freeBlock => some (s, ⟨a.freeByteBlocks.dropLast⟩)

/-- One operation on the pool with number `k`. -/
def step (s : PoolState) (k : Nat) (op : PoolOp) : Option PoolState :=
  (apply (s.pools k) s.allocator op).map fun (sp, a) => ⟨a, Function.update s.pools k sp⟩

/-- An interleaving of operations on any number of pools. -/
def run (s : PoolState) (ops : List (Nat × PoolOp)) : Option PoolState :=
  Runs.run (fun s (k, op) => s.step k op) s ops

end PoolState
end LucenePlusPlus
