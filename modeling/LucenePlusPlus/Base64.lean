import LucenePlusPlus.FastCharStream
import LucenePlusPlus.QueryEscaping
import LucenePlusPlus.RAMOutputStream

/-!
`Base64`: bytes as characters, four for every three bytes, and back. The array that is decoded into has half as many bytes as
there are characters, and grows by a half when it is full.
-/

namespace LucenePlusPlus
namespace Base64
open WChar (ofChar)
open FastCharStream (NUL)

inductive Fault
  /-- A write outside the array, or a read outside the string. -/
  | outOfBounds
  /-- A size that is no `int32_t`. -/
  | badSize
deriving DecidableEq

def BASE64_CHARS : WString := "ABCDEFGHIJKLMNOPQRSTUVWXYZabcdefghijklmnopqrstuvwxyz0123456789+/".toList.map ofChar

/-- `byteArray4` from `byteArray3`. -/
def quad (b0 b1 b2 : UInt8) : List UInt8 :=
  [(b0 &&& 0xfc) >>> 2, ((b0 &&& 0x03) <<< 4) + ((b1 &&& 0xf0) >>> 4), ((b1 &&& 0x0f) <<< 2) + ((b2 &&& 0xc0) >>> 6), b2 &&& 0x3f]

/-- `BASE64_CHARS[index]` -/
def base64Char (index : UInt8) : WChar := BASE64_CHARS.getD index.toNat NUL

/-- The result, and the bytes of `byteArray3`. -/
def encodeByte (s : WString × List UInt8) (byte : UInt8) : WString × List UInt8 :=
  match s.2 ++ [byte] with
  | [b0, b1, b2] => (s.1 ++ (quad b0 b1 b2).map base64Char, [])
  | byteArray3 => (s.1, byteArray3)

def encode (bytes : List UInt8) : WString :=
  let (result, byteArray3) := bytes.foldl encodeByte ([], [])
  let i := byteArray3.length
  if i ≠ 0 then
    result ++ ((quad (byteArray3.getD 0 0) (byteArray3.getD 1 0) (byteArray3.getD 2 0)).take (i + 1)).map base64Char ++
      List.replicate (3 - i) (ofChar '=')
  else result

/-- `byteArray3` from `byteArray4`. -/
def triple (c0 c1 c2 c3 : UInt8) : List UInt8 :=
  [(c0 <<< 2) + ((c1 &&& 0x30) >>> 4), ((c1 &&& 0xf) <<< 4) + ((c2 &&& 0x3c) >>> 2), ((c2 &&& 0x3) <<< 6) + c3]

/-- `static_cast<uint8_t>(BASE64_CHARS.find(byte))` -/
def find (byte : UInt8) : UInt8 :=
  match BASE64_CHARS.findIdx? fun c => c.1 == (byte.toNat : Int) with
  | some index => UInt8.ofNat index
  | none => 255

/-- The array that is decoded into: its size, and what has been written, up to `resultIndex`. -/
structure Result where
  size : Int
  written : List UInt8

/-- `(int32_t)((double)size * 1.5)` -/
def grow (size : Int) : Except Fault Int :=
  if (size * 3).tdiv 2 < 2 ^ 31 then .ok ((size * 3).tdiv 2) else .error .badSize

/-- `result[resultIndex++] = byte`, in an array that is large enough if growing it makes it so. -/
def push (result : Result) (byte : UInt8) : Except Fault Result := do
  let size ← if result.written.length ≥ result.size then grow result.size else pure result.size
  if result.written.length < size then return { size, written := result.written ++ [byte] }
  else .error .outOfBounds

section Decode
variable (isAlnum : WChar → Bool)

def isBase64 (ch : WChar) : Bool := isAlnum ch || ch == ofChar '+' || ch == ofChar '/'

/-- A character of `byteArray4`, and what is written when there are four of them. -/
def decodeChar (s : Result × List UInt8) (c : WChar) : Except Fault (Result × List UInt8) :=
  match s.2 ++ [UInt8.ofNat (c.1 % 256).toNat] with
  | [c0, c1, c2, c3] => do return (← (triple (find c0) (find c1) (find c2) (find c3)).foldlM push s.1, [])
  | byteArray4 => return (s.1, byteArray4)

/-- The characters from `charIndex` on. A negative `length` does not end the loop; behind the last character there is a NUL. -/
def decodeLoop : WString → Int → Result × List UInt8 → Except Fault (Result × List UInt8)
  | [], length, s => if length ≠ 0 ∧ isBase64 isAlnum NUL then .error .outOfBounds else return s
  | c :: rest, length, s =>
      if length ≠ 0 ∧ c ≠ ofChar '=' ∧ isBase64 isAlnum c then do decodeLoop rest (length - 1) (← decodeChar s c)
      else return s

/-- An array that is resized to no bytes is the null array. -/
def decode (str : WString) : Except Fault (Option (List UInt8)) := do
  let length := toInt32 str.length
  let (result, byteArray4) ← decodeLoop isAlnum str length ({ size := length.tdiv 2, written := [] }, [])
  let i := byteArray4.length
  let result ←
    if i ≠ 0 then
      ((triple (find (byteArray4.getD 0 0)) (find (byteArray4.getD 1 0)) (find (byteArray4.getD 2 0))
        (find (byteArray4.getD 3 0))).take (i - 1)).foldlM push result
    else pure result
  return if result.written = [] then none else some result.written

end Decode

example : encode [77, 97] = [ofChar 'T', ofChar 'W', ofChar 'E', ofChar '='] := by decide

example : decode (fun c => c ≥ ofChar '0') [ofChar 'T', ofChar 'W', ofChar 'E'] = .error .outOfBounds := by decide

end Base64
end LucenePlusPlus
