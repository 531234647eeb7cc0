import Mathlib.Data.Finset.SymmDiff
import Mathlib.Tactic
import LucenePlusPlus.BitUtil
import LucenePlusPlus.RAMOutputStream
import LucenePlusPlus.RingBuffer
import LucenePlusPlus.WaitQueue
import LucenePlusPlus.WordBits

/-!
`OpenBitSet`: an array of words, of which `wlen` are in use. The operations that may go past the end make room, the
fast ones rely on the caller.
-/

namespace LucenePlusPlus

open WordBits

structure OpenBitSet where
  bits : List (BitVec 64)
  wlen : Nat
  deriving DecidableEq

namespace OpenBitSet

variable (s other : OpenBitSet) {index startIndex endIndex i k : Nat}

def bits2words (numBits : Nat) : Nat := ((unsignedShift (BitVec.ofNat 64 numBits - 1) 6 + 1).setWidth 32).toNat

/-- `(int32_t)(index >> 6)`. -/
def wordNum (index : Nat) : Nat := (index >>> 6) % 2 ^ 32

def bitmask (index : Nat) : BitVec 64 := (1 : BitVec 64) <<< (index &&& 0x3f)

def ofSize (numBits : Nat) : OpenBitSet := ⟨List.replicate (bits2words numBits) 0, bits2words numBits⟩

def capacity : Nat := s.bits.length <<< 6

def word (k : Nat) : BitVec 64 := s.bits.getD k 0

def get (index : Nat) : Bool :=
  let i := wordNum index
  if s.bits.length ≤ i then false else s.word i &&& bitmask index ≠ 0

def fastGet (index : Nat) : Bool := s.word (wordNum index) &&& bitmask index ≠ 0

/-- `bits[k]` is replaced by its image. -/
def modify (k : Nat) (f : BitVec 64 → BitVec 64) : OpenBitSet := { s with bits := s.bits.modify k f }

def ensureCapacityWords (numWords : Nat) : OpenBitSet :=
  if s.bits.length < numWords then
    { s with bits := s.bits ++ List.replicate (getNextSize numWords - s.bits.length) 0 }
  else s

def ensureCapacity (numBits : Nat) : OpenBitSet := s.ensureCapacityWords (bits2words numBits)

def expandingWordNum (index : Nat) : OpenBitSet × Nat :=
  let wordNum := wordNum index
  if s.wlen ≤ wordNum then ({ s.ensureCapacity (index + 1) with wlen := wordNum + 1 }, wordNum) else (s, wordNum)

/-- The words in use up to the last one that is not zero. -/
def trimmed (bits : List (BitVec 64)) : Nat → Nat
  | 0 => 0
  | idx + 1 => if bits.getD idx 0 = 0 then trimmed bits idx else idx + 1

def trimTrailingZeros : OpenBitSet := { s with wlen := trimmed s.bits s.wlen }

def set (index : Nat) : OpenBitSet :=
  let (s, wordNum) := s.expandingWordNum index
  s.modify wordNum (· ||| bitmask index)

def fastSet (index : Nat) : OpenBitSet := s.modify (wordNum index) (· ||| bitmask index)

def getAndSet (index : Nat) : Bool × OpenBitSet :=
  (s.word (wordNum index) &&& bitmask index ≠ 0, s.modify (wordNum index) (· ||| bitmask index))

def clear (index : Nat) : OpenBitSet :=
  if s.wlen ≤ wordNum index then s else s.modify (wordNum index) (· &&& ~~~bitmask index)

def fastClear (index : Nat) : OpenBitSet := s.modify (wordNum index) (· &&& ~~~bitmask index)

def flip (index : Nat) : OpenBitSet :=
  let (s, wordNum) := s.expandingWordNum index
  s.modify wordNum (· ^^^ bitmask index)

def fastFlip (index : Nat) : OpenBitSet := s.modify (wordNum index) (· ^^^ bitmask index)

def flipAndGet (index : Nat) : Bool × OpenBitSet :=
  let s := s.modify (wordNum index) (· ^^^ bitmask index)
  (s.word (wordNum index) &&& bitmask index ≠ 0, s)

def startmask (startIndex : Nat) : BitVec 64 := BitVec.allOnes 64 <<< (startIndex &&& 0x3f)

def endmask (endIndex : Nat) : BitVec 64 := unsignedShift (BitVec.allOnes 64) (-endIndex)

/-- The words from `low` to before `high` are replaced by their images. -/
def mapWords (f : BitVec 64 → BitVec 64) (low high : Nat) : OpenBitSet :=
  { s with bits := s.bits.mapIdx fun i x => if low ≤ i ∧ i < high then f x else x }

/-- The range operations that may go past the end, over what is done to a word under a mask and to a whole word. -/
def overRange (masked : BitVec 64 → BitVec 64 → BitVec 64) (whole : BitVec 64 → BitVec 64)
    (startIndex endIndex : Nat) : OpenBitSet :=
  if endIndex ≤ startIndex then s
  else
    let startWord := wordNum startIndex
    let (s, endWord) := s.expandingWordNum (endIndex - 1)
    if startWord = endWord then s.modify startWord (masked · (startmask startIndex &&& endmask endIndex))
    else
      let s := s.modify startWord (masked · (startmask startIndex))
      let s := s.mapWords whole (startWord + 1) endWord
      s.modify endWord (masked · (endmask endIndex))

def setRange (startIndex endIndex : Nat) : OpenBitSet :=
  s.overRange (· ||| ·) (fun _ => BitVec.allOnes 64) startIndex endIndex

def flipRange (startIndex endIndex : Nat) : OpenBitSet := s.overRange (· ^^^ ·) (~~~ ·) startIndex endIndex

def clearRange (startIndex endIndex : Nat) : OpenBitSet :=
  if endIndex ≤ startIndex then s
  else
    let startWord := wordNum startIndex
    if s.wlen ≤ startWord then s
    else
      let endWord := wordNum (endIndex - 1)
      -- the masks are inverted since bits are cleared
      let startmask := ~~~startmask startIndex
      let endmask := ~~~endmask endIndex
      if startWord = endWord then s.modify startWord (· &&& (startmask ||| endmask))
      else
        let s := s.modify startWord (· &&& startmask)
        let s := s.mapWords (fun _ => 0) (startWord + 1) (min s.wlen endWord)
        if endWord < s.wlen then s.modify endWord (· &&& endmask) else s

/-- The loop down from `pos` over the words of both sets. -/
def combine (other : OpenBitSet) (f : BitVec 64 → BitVec 64 → BitVec 64) : Nat → OpenBitSet → OpenBitSet
  | 0, s => s
  | pos + 1, s => combine other f pos (s.modify pos (f · (other.word pos)))

def intersect : OpenBitSet :=
  let newLen := min s.wlen other.wlen
  let t := combine other (· &&& ·) newLen s
  let t := if newLen < s.wlen then t.mapWords (fun _ => 0) newLen s.wlen else t
  { t with wlen := newLen }

/-- `_union` and `_xor`: the words both have are combined, those the other has more are copied. -/
def extend (f : BitVec 64 → BitVec 64 → BitVec 64) : OpenBitSet :=
  let newLen := max s.wlen other.wlen
  let t := s.ensureCapacityWords newLen
  let t := combine other f (min s.wlen other.wlen) t
  let bits := if s.wlen < newLen then RingBuffer.arrayCopy other.bits s.wlen t.bits s.wlen (newLen - s.wlen) else t.bits
  { bits, wlen := newLen }

def union : OpenBitSet := s.extend other (· ||| ·)

def xor : OpenBitSet := s.extend other (· ^^^ ·)

def remove : OpenBitSet := combine other (fun x y => x &&& ~~~y) (min s.wlen other.wlen) s

/-- The loop of `intersects`. -/
def meets : Nat → Bool
  | 0 => false
  | pos + 1 => if s.word pos &&& other.word pos ≠ 0 then true else meets pos

def intersects : Bool := s.meets other (min s.wlen other.wlen)

def clone : OpenBitSet := { s with bits := RingBuffer.arrayCopy s.bits 0 (List.replicate s.bits.length 0) 0 s.bits.length }

def cardinality : Nat := BitUtil.pop_array s.bits 0 s.wlen

def isEmpty : Bool := s.cardinality = 0

def intersectionCount (a b : OpenBitSet) : Nat := BitUtil.pop_intersect a.bits b.bits 0 (min a.wlen b.wlen)

def unionCount (a b : OpenBitSet) : Nat :=
  let tot := BitUtil.pop_union a.bits b.bits 0 (min a.wlen b.wlen)
  if a.wlen < b.wlen then tot + BitUtil.pop_array b.bits a.wlen (b.wlen - a.wlen)
  else if b.wlen < a.wlen then tot + BitUtil.pop_array a.bits b.wlen (a.wlen - b.wlen)
  else tot

def andNotCount (a b : OpenBitSet) : Nat :=
  let tot := BitUtil.pop_andnot a.bits b.bits 0 (min a.wlen b.wlen)
  if b.wlen < a.wlen then tot + BitUtil.pop_array a.bits b.wlen (a.wlen - b.wlen) else tot

def xorCount (a b : OpenBitSet) : Nat :=
  let tot := BitUtil.pop_xor a.bits b.bits 0 (min a.wlen b.wlen)
  if a.wlen < b.wlen then tot + BitUtil.pop_array b.bits a.wlen (b.wlen - a.wlen)
  else if b.wlen < a.wlen then tot + BitUtil.pop_array a.bits b.wlen (a.wlen - b.wlen)
  else tot

/-- The loop over the words from `i` on, of which `left` are in use. -/
def nextWord (i : Nat) : Nat → Int
  | 0 => -1
  | left + 1 => if s.word i ≠ 0 then ((i <<< 6 + BitUtil.ntz (s.word i) : Nat) : Int) else nextWord (i + 1) left

/-- For an `int64_t`, whose word is shifted with its sign. -/
def nextSetBit (index : Nat) : Int :=
  let i := wordNum index
  if s.wlen ≤ i then -1
  else
    let subIndex := index &&& 0x3f
    let word := (s.word i).sshiftRight subIndex
    if word ≠ 0 then ((i <<< 6 + (subIndex + BitUtil.ntz word) : Nat) : Int)
    else s.nextWord (i + 1) (s.wlen - (i + 1))

/-- For an `int32_t`, which the result is too. It is shifted as an unsigned number, which is what `index` is here. -/
def nextSetBit32 (index : Nat) : Int :=
  let i := index >>> 6
  if s.wlen ≤ i then -1
  else
    let subIndex := index &&& 0x3f
    let word := unsignedShift (s.word i) subIndex
    if word ≠ 0 then toInt32 ((i <<< 6 + subIndex + BitUtil.ntz word : Nat) : Int)
    else toInt32 (s.nextWord (i + 1) (s.wlen - (i + 1)))

/-- The larger set has no bit in the words from `low` on. -/
def zeroFrom (low : Nat) : Nat → Bool
  | 0 => true
  | n + 1 => if s.word (low + n) ≠ 0 then false else zeroFrom low n

/-- The words below agree. -/
def sameBelow : Nat → Bool
  | 0 => true
  | n + 1 => if s.word n ≠ other.word n then false else sameBelow n

def equals : Bool :=
  let (a, b) := if s.wlen < other.wlen then (other, s) else (s, other)
  if a.zeroFrom b.wlen (a.wlen - b.wlen) then a.sameBelow b b.wlen else false

end OpenBitSet

end LucenePlusPlus
