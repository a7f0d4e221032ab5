import Icecast.Lib.BlockHash
import Mathlib.Algebra.Group.Nat.Defs
import Mathlib.Data.List.GetD
import Mathlib.Tactic.Ring

/-!
# MD5

`md5.c` takes its input in pieces, collects blocks of 64 bytes in a buffer and reads each block as 16 words
of the machine; on a machine with the other order of bytes they are reversed first. The digest is that of
the definition: the input with a one bit, zeros and its length behind it, in blocks, whatever the pieces
were and whatever the machine.
-/

namespace Icecast.Util.Md5

open Lib.BlockHash

abbrev Bytes := List UInt8

/-! ## The code -/

/-- The order in which the machine keeps the bytes of a word. -/
inductive ByteOrder where
  | little
  | big
  deriving DecidableEq

def ByteOrder.store (machine : ByteOrder) (word : UInt32) : Bytes :=
  match machine with
  | .little => [word.toUInt8, (word >>> 8).toUInt8, (word >>> 16).toUInt8, (word >>> 24).toUInt8]
  | .big => [(word >>> 24).toUInt8, (word >>> 16).toUInt8, (word >>> 8).toUInt8, word.toUInt8]

/-- The word `byteReverse` makes of four bytes. -/
def packed (b₀ b₁ b₂ b₃ : UInt8) : UInt32 :=
  ((b₃.toUInt32 <<< 8 ||| b₂.toUInt32) <<< 16) ||| (b₁.toUInt32 <<< 8 ||| b₀.toUInt32)

/-- A word of the machine at the address of four bytes. -/
def ByteOrder.load (machine : ByteOrder) (b₀ b₁ b₂ b₃ : UInt8) : UInt32 :=
  match machine with
  | .little => packed b₀ b₁ b₂ b₃
  | .big => packed b₃ b₂ b₁ b₀

def ByteOrder.words (machine : ByteOrder) : Bytes → List UInt32
  | b₀ :: b₁ :: b₂ :: b₃ :: bytes => machine.load b₀ b₁ b₂ b₃ :: machine.words bytes
  | _ => []

def byteReverse (machine : ByteOrder) : ℕ → Bytes → Bytes
  | longs + 1, b₀ :: b₁ :: b₂ :: b₃ :: buf =>
    machine.store (packed b₀ b₁ b₂ b₃) ++ byteReverse machine longs buf
  | _, buf => buf

/-- The four words of a hash, or the registers `MD5Transform` works in. -/
structure Quad where
  a : UInt32
  b : UInt32
  c : UInt32
  d : UInt32
  deriving DecidableEq

/-- `MD5Context` -/
structure MD5Context where
  buf : Quad
  bits₀ : UInt32
  bits₁ : UInt32
  input : Bytes
  deriving DecidableEq

/-- `F1`, optimized -/
def f1 (x y z : UInt32) : UInt32 := z ^^^ (x &&& (y ^^^ z))

/-- `F2` -/
def f2 (x y z : UInt32) : UInt32 := f1 z x y

/-- `F3` -/
def f3 (x y z : UInt32) : UInt32 := x ^^^ y ^^^ z

/-- `F4` -/
def f4 (x y z : UInt32) : UInt32 := y ^^^ (x ||| ~~~z)

inductive Core where
  | f1
  | f2
  | f3
  | f4
  deriving DecidableEq

def Core.apply : Core → UInt32 → UInt32 → UInt32 → UInt32
  | .f1 => Md5.f1
  | .f2 => Md5.f2
  | .f3 => Md5.f3
  | .f4 => Md5.f4

inductive Register where
  | a
  | b
  | c
  | d
  deriving DecidableEq

def Quad.get (registers : Quad) : Register → UInt32
  | .a => registers.a
  | .b => registers.b
  | .c => registers.c
  | .d => registers.d

def Quad.set (registers : Quad) (register : Register) (value : UInt32) : Quad :=
  match register with
  | .a => { registers with a := value }
  | .b => { registers with b := value }
  | .c => { registers with c := value }
  | .d => { registers with d := value }

/-- The arguments of an `MD5STEP`; the data is `in[index] + constant`. -/
structure Md5Step where
  f : Core
  w : Register
  x : Register
  y : Register
  z : Register
  index : ℕ
  constant : UInt32
  shift : UInt32
  deriving DecidableEq

/-- `MD5STEP` -/
def md5Step (input : List UInt32) (registers : Quad) (step : Md5Step) : Quad :=
  let x := registers.get step.x
  let data := input.getD step.index 0 + step.constant
  let w := registers.get step.w + (step.f.apply x (registers.get step.y) (registers.get step.z) + data)
  let w := w <<< step.shift ||| w >>> (32 - step.shift)
  registers.set step.w (w + x)

/-- The lines of `MD5Transform`. -/
def md5Steps : List Md5Step :=
  [⟨.f1, .a, .b, .c, .d, 0, 0xd76aa478, 7⟩, ⟨.f1, .d, .a, .b, .c, 1, 0xe8c7b756, 12⟩,
    ⟨.f1, .c, .d, .a, .b, 2, 0x242070db, 17⟩, ⟨.f1, .b, .c, .d, .a, 3, 0xc1bdceee, 22⟩,
    ⟨.f1, .a, .b, .c, .d, 4, 0xf57c0faf, 7⟩, ⟨.f1, .d, .a, .b, .c, 5, 0x4787c62a, 12⟩,
    ⟨.f1, .c, .d, .a, .b, 6, 0xa8304613, 17⟩, ⟨.f1, .b, .c, .d, .a, 7, 0xfd469501, 22⟩,
    ⟨.f1, .a, .b, .c, .d, 8, 0x698098d8, 7⟩, ⟨.f1, .d, .a, .b, .c, 9, 0x8b44f7af, 12⟩,
    ⟨.f1, .c, .d, .a, .b, 10, 0xffff5bb1, 17⟩, ⟨.f1, .b, .c, .d, .a, 11, 0x895cd7be, 22⟩,
    ⟨.f1, .a, .b, .c, .d, 12, 0x6b901122, 7⟩, ⟨.f1, .d, .a, .b, .c, 13, 0xfd987193, 12⟩,
    ⟨.f1, .c, .d, .a, .b, 14, 0xa679438e, 17⟩, ⟨.f1, .b, .c, .d, .a, 15, 0x49b40821, 22⟩,
    ⟨.f2, .a, .b, .c, .d, 1, 0xf61e2562, 5⟩, ⟨.f2, .d, .a, .b, .c, 6, 0xc040b340, 9⟩,
    ⟨.f2, .c, .d, .a, .b, 11, 0x265e5a51, 14⟩, ⟨.f2, .b, .c, .d, .a, 0, 0xe9b6c7aa, 20⟩,
    ⟨.f2, .a, .b, .c, .d, 5, 0xd62f105d, 5⟩, ⟨.f2, .d, .a, .b, .c, 10, 0x02441453, 9⟩,
    ⟨.f2, .c, .d, .a, .b, 15, 0xd8a1e681, 14⟩, ⟨.f2, .b, .c, .d, .a, 4, 0xe7d3fbc8, 20⟩,
    ⟨.f2, .a, .b, .c, .d, 9, 0x21e1cde6, 5⟩, ⟨.f2, .d, .a, .b, .c, 14, 0xc33707d6, 9⟩,
    ⟨.f2, .c, .d, .a, .b, 3, 0xf4d50d87, 14⟩, ⟨.f2, .b, .c, .d, .a, 8, 0x455a14ed, 20⟩,
    ⟨.f2, .a, .b, .c, .d, 13, 0xa9e3e905, 5⟩, ⟨.f2, .d, .a, .b, .c, 2, 0xfcefa3f8, 9⟩,
    ⟨.f2, .c, .d, .a, .b, 7, 0x676f02d9, 14⟩, ⟨.f2, .b, .c, .d, .a, 12, 0x8d2a4c8a, 20⟩,
    ⟨.f3, .a, .b, .c, .d, 5, 0xfffa3942, 4⟩, ⟨.f3, .d, .a, .b, .c, 8, 0x8771f681, 11⟩,
    ⟨.f3, .c, .d, .a, .b, 11, 0x6d9d6122, 16⟩, ⟨.f3, .b, .c, .d, .a, 14, 0xfde5380c, 23⟩,
    ⟨.f3, .a, .b, .c, .d, 1, 0xa4beea44, 4⟩, ⟨.f3, .d, .a, .b, .c, 4, 0x4bdecfa9, 11⟩,
    ⟨.f3, .c, .d, .a, .b, 7, 0xf6bb4b60, 16⟩, ⟨.f3, .b, .c, .d, .a, 10, 0xbebfbc70, 23⟩,
    ⟨.f3, .a, .b, .c, .d, 13, 0x289b7ec6, 4⟩, ⟨.f3, .d, .a, .b, .c, 0, 0xeaa127fa, 11⟩,
    ⟨.f3, .c, .d, .a, .b, 3, 0xd4ef3085, 16⟩, ⟨.f3, .b, .c, .d, .a, 6, 0x04881d05, 23⟩,
    ⟨.f3, .a, .b, .c, .d, 9, 0xd9d4d039, 4⟩, ⟨.f3, .d, .a, .b, .c, 12, 0xe6db99e5, 11⟩,
    ⟨.f3, .c, .d, .a, .b, 15, 0x1fa27cf8, 16⟩, ⟨.f3, .b, .c, .d, .a, 2, 0xc4ac5665, 23⟩,
    ⟨.f4, .a, .b, .c, .d, 0, 0xf4292244, 6⟩, ⟨.f4, .d, .a, .b, .c, 7, 0x432aff97, 10⟩,
    ⟨.f4, .c, .d, .a, .b, 14, 0xab9423a7, 15⟩, ⟨.f4, .b, .c, .d, .a, 5, 0xfc93a039, 21⟩,
    ⟨.f4, .a, .b, .c, .d, 12, 0x655b59c3, 6⟩, ⟨.f4, .d, .a, .b, .c, 3, 0x8f0ccc92, 10⟩,
    ⟨.f4, .c, .d, .a, .b, 10, 0xffeff47d, 15⟩, ⟨.f4, .b, .c, .d, .a, 1, 0x85845dd1, 21⟩,
    ⟨.f4, .a, .b, .c, .d, 8, 0x6fa87e4f, 6⟩, ⟨.f4, .d, .a, .b, .c, 15, 0xfe2ce6e0, 10⟩,
    ⟨.f4, .c, .d, .a, .b, 6, 0xa3014314, 15⟩, ⟨.f4, .b, .c, .d, .a, 13, 0x4e0811a1, 21⟩,
    ⟨.f4, .a, .b, .c, .d, 4, 0xf7537e82, 6⟩, ⟨.f4, .d, .a, .b, .c, 11, 0xbd3af235, 10⟩,
    ⟨.f4, .c, .d, .a, .b, 2, 0x2ad7d2bb, 15⟩, ⟨.f4, .b, .c, .d, .a, 9, 0xeb86d391, 21⟩]

def Quad.add (first second : Quad) : Quad :=
  ⟨first.a + second.a, first.b + second.b, first.c + second.c, first.d + second.d⟩

/-- `MD5Transform` -/
def md5Transform (buf : Quad) (input : List UInt32) : Quad :=
  buf.add (md5Steps.foldl (md5Step input) buf)

def md5Start : Quad := ⟨0x67452301, 0xefcdab89, 0x98badcfe, 0x10325476⟩

/-- `MD5Init`, on memory in which anything may stand. -/
def md5Init (memory : Bytes) : MD5Context := ⟨md5Start, 0, 0, memory⟩

def memcpy (memory : Bytes) (offset : ℕ) (bytes : Bytes) : Bytes :=
  memory.take offset ++ bytes ++ memory.drop (offset + bytes.length)

def memset (memory : Bytes) (offset : ℕ) (byte : UInt8) (length : ℕ) : Bytes :=
  memcpy memory offset (List.replicate length byte)

section Machine

variable (machine : ByteOrder)

/-- `byteReverse` on the whole buffer and `MD5Transform`. -/
def MD5Context.transform (ctx : MD5Context) : MD5Context :=
  let input := byteReverse machine 16 ctx.input
  { ctx with input := input, buf := md5Transform ctx.buf (machine.words input) }

/-- The blocks of 64 bytes, and the bytes that remain; a round of the loop takes one of `rounds`. -/
def updateBlocks : ℕ → MD5Context → Bytes → MD5Context
  | rounds + 1, ctx, buf =>
    if 64 ≤ buf.length then
      let ctx := { ctx with input := memcpy ctx.input 0 (buf.take 64) }
      updateBlocks rounds (ctx.transform machine) (buf.drop 64)
    else { ctx with input := memcpy ctx.input 0 buf }
  | 0, ctx, buf => { ctx with input := memcpy ctx.input 0 buf }

/-- The count of bits in two words, when `len` bytes follow. -/
def MD5Context.count (ctx : MD5Context) (len : UInt32) : MD5Context :=
  let t := ctx.bits₀
  let bits₀ := t + len <<< 3
  let bits₁ := if bits₀ < t then ctx.bits₁ + 1 else ctx.bits₁
  { ctx with bits₀ := bits₀, bits₁ := bits₁ + len >>> 29 }

/-- `MD5Update`, for `len` bytes of a buffer. -/
def md5Update (ctx : MD5Context) (buf : Bytes) (len : UInt32) : MD5Context :=
  let buf := buf.take len.toNat
  let used := (ctx.bits₀ >>> 3 &&& 0x3f).toNat
  let ctx := ctx.count len
  if used = 0 then updateBlocks machine buf.length ctx buf
  else
    let t := 64 - used
    if buf.length < t then { ctx with input := memcpy ctx.input used buf }
    else
      let ctx := { ctx with input := memcpy ctx.input used (buf.take t) }
      updateBlocks machine buf.length (ctx.transform machine) (buf.drop t)

/-- The end of the input in the buffer: a one bit and zeros, up to the place of the length. -/
def MD5Context.pad (ctx : MD5Context) : MD5Context :=
  let count := (ctx.bits₀ >>> 3 &&& 0x3f).toNat
  let ctx := { ctx with input := memcpy ctx.input count [0x80] }
  let p := count + 1
  let count := 64 - 1 - count
  if count < 8 then
    let ctx := { ctx with input := memset ctx.input p 0 count }
    let ctx := ctx.transform machine
    { ctx with input := memset ctx.input 0 0 56 }
  else { ctx with input := memset ctx.input p 0 (count - 8) }

def Quad.stored (words : Quad) : Bytes :=
  machine.store words.a ++ machine.store words.b ++ machine.store words.c ++ machine.store words.d

/-- `MD5Final`: the digest, and the context it leaves. -/
def md5Final (ctx : MD5Context) : Bytes × MD5Context :=
  let ctx := ctx.pad machine
  let input := byteReverse machine 14 ctx.input
  let input := memcpy (memcpy input 56 (machine.store ctx.bits₀)) 60 (machine.store ctx.bits₁)
  let buf := md5Transform ctx.buf (machine.words input)
  (byteReverse machine 4 (buf.stored machine), ⟨⟨0, 0, 0, 0⟩, 0, 0, List.replicate 64 0⟩)

end Machine

/-! ## The definition -/

/-- The number of bytes with the lowest first. -/
def littleEndian (bytes : Bytes) : ℕ := bytes.foldr (fun byte value ↦ byte.toNat + 256 * value) 0

def littleBytes : ℕ → ℕ → Bytes
  | 0, _ => []
  | count + 1, value => UInt8.ofNat value :: littleBytes count (value / 256)

def blockWord (block : Bytes) (k : ℕ) : UInt32 :=
  UInt32.ofNat (littleEndian ((block.drop (4 * k)).take 4))

def constants : List UInt32 :=
  [0xd76aa478, 0xe8c7b756, 0x242070db, 0xc1bdceee, 0xf57c0faf, 0x4787c62a, 0xa8304613, 0xfd469501,
    0x698098d8, 0x8b44f7af, 0xffff5bb1, 0x895cd7be, 0x6b901122, 0xfd987193, 0xa679438e, 0x49b40821,
    0xf61e2562, 0xc040b340, 0x265e5a51, 0xe9b6c7aa, 0xd62f105d, 0x02441453, 0xd8a1e681, 0xe7d3fbc8,
    0x21e1cde6, 0xc33707d6, 0xf4d50d87, 0x455a14ed, 0xa9e3e905, 0xfcefa3f8, 0x676f02d9, 0x8d2a4c8a,
    0xfffa3942, 0x8771f681, 0x6d9d6122, 0xfde5380c, 0xa4beea44, 0x4bdecfa9, 0xf6bb4b60, 0xbebfbc70,
    0x289b7ec6, 0xeaa127fa, 0xd4ef3085, 0x04881d05, 0xd9d4d039, 0xe6db99e5, 0x1fa27cf8, 0xc4ac5665,
    0xf4292244, 0x432aff97, 0xab9423a7, 0xfc93a039, 0x655b59c3, 0x8f0ccc92, 0xffeff47d, 0x85845dd1,
    0x6fa87e4f, 0xfe2ce6e0, 0xa3014314, 0x4e0811a1, 0xf7537e82, 0xbd3af235, 0x2ad7d2bb, 0xeb86d391]

/-- The function, the word and the rotation of a round. -/
def roundFunction (i : ℕ) (x y z : UInt32) : UInt32 :=
  match i / 16 with
  | 0 => x &&& y ||| ~~~x &&& z
  | 1 => x &&& z ||| y &&& ~~~z
  | 2 => x ^^^ y ^^^ z
  | _ => y ^^^ (x ||| ~~~z)

def roundIndex (i : ℕ) : ℕ :=
  match i / 16 with
  | 0 => i % 16
  | 1 => (5 * i + 1) % 16
  | 2 => (3 * i + 5) % 16
  | _ => 7 * i % 16

def roundShift (i : ℕ) : UInt32 :=
  match i / 16 with
  | 0 => [7, 12, 17, 22].getD (i % 4) 0
  | 1 => [5, 9, 14, 20].getD (i % 4) 0
  | 2 => [4, 11, 16, 23].getD (i % 4) 0
  | _ => [6, 10, 15, 21].getD (i % 4) 0

def rotateLeft (word shift : UInt32) : UInt32 := word <<< shift ||| word >>> (32 - shift)

def round (block : Bytes) (q : Quad) (i : ℕ) : Quad :=
  let sum := q.a + roundFunction i q.b q.c q.d + constants.getD i 0 + blockWord block (roundIndex i)
  ⟨q.d, q.b + rotateLeft sum (roundShift i), q.b, q.c⟩

def compress (hash : Quad) (block : Bytes) : Quad :=
  hash.add ((List.range 64).foldl (round block) hash)

/-- A one bit, zeros and the length in bits, so that the blocks are full. -/
def padding (length : ℕ) : Bytes :=
  0x80 :: List.replicate ((119 - length % 64) % 64) 0 ++ littleBytes 8 (8 * length)

def Quad.bytes (words : Quad) : Bytes :=
  littleBytes 4 words.a.toNat ++ littleBytes 4 words.b.toNat ++ littleBytes 4 words.c.toNat ++
    littleBytes 4 words.d.toNat

def digest (message : Bytes) : Bytes :=
  (absorb 64 compress (md5Start, []) (message ++ padding message.length)).1.bytes


/-! ## Words and their bytes -/

theorem or_eq_add {high low : ℕ} (width : ℕ) (hlow : low < 2 ^ width) :
    high <<< width ||| low = high * 2 ^ width + low := by
  rw [← Nat.shiftLeft_add_eq_or_of_lt hlow, Nat.shiftLeft_eq]

theorem packed_toNat (b₀ b₁ b₂ b₃ : UInt8) : (packed b₀ b₁ b₂ b₃).toNat =
    b₀.toNat + 256 * b₁.toNat + 65536 * b₂.toNat + 16777216 * b₃.toNat := by
  have h₀ := b₀.toNat_lt
  have h₁ := b₁.toNat_lt
  have h₂ := b₂.toNat_lt
  have h₃ := b₃.toNat_lt
  have hshift (byte : UInt8) : byte.toNat <<< 8 = byte.toNat * 256 := by rw [Nat.shiftLeft_eq]
  have hbyte (byte : UInt8) : (byte.toUInt32 <<< 8).toNat = byte.toNat <<< 8 := by
    have hlt := byte.toNat_lt
    rw [UInt32.toNat_shiftLeft, UInt8.toNat_toUInt32]
    apply Nat.mod_eq_of_lt
    rw [show ((8 : UInt32).toNat % 32) = 8 from rfl, hshift]
    omega
  have hhigh : ((b₃.toUInt32 <<< 8 ||| b₂.toUInt32) <<< 16).toNat =
      (b₃.toNat * 256 + b₂.toNat) <<< 16 := by
    rw [UInt32.toNat_shiftLeft, UInt32.toNat_or, hbyte, UInt8.toNat_toUInt32, or_eq_add 8 h₂]
    apply Nat.mod_eq_of_lt
    rw [show ((16 : UInt32).toNat % 32) = 16 from rfl, Nat.shiftLeft_eq]
    omega
  have hlow : (b₁.toUInt32 <<< 8 ||| b₀.toUInt32).toNat = b₁.toNat * 2 ^ 8 + b₀.toNat := by
    rw [UInt32.toNat_or, hbyte, UInt8.toNat_toUInt32, or_eq_add 8 h₀]
  rw [packed, UInt32.toNat_or, hhigh, hlow, or_eq_add 16 (by omega)]
  omega

theorem shiftRight_toUInt8 (word : UInt32) {shift : UInt32} (hshift : shift.toNat < 32) :
    (word >>> shift).toUInt8 = UInt8.ofNat (word.toNat / 2 ^ shift.toNat) := by
  apply UInt8.toNat_inj.mp
  rw [UInt32.toNat_toUInt8, UInt32.toNat_shiftRight, Nat.mod_eq_of_lt hshift, Nat.shiftRight_eq_div_pow,
    UInt8.toNat_ofNat']

theorem toUInt8_eq (word : UInt32) : word.toUInt8 = UInt8.ofNat word.toNat := by
  apply UInt8.toNat_inj.mp
  rw [UInt32.toNat_toUInt8, UInt8.toNat_ofNat']

theorem store_little (word : UInt32) : ByteOrder.little.store word = littleBytes 4 word.toNat := by
  simp only [ByteOrder.store, littleBytes, toUInt8_eq word,
    shiftRight_toUInt8 word (show (8 : UInt32).toNat < 32 by decide),
    shiftRight_toUInt8 word (show (16 : UInt32).toNat < 32 by decide),
    shiftRight_toUInt8 word (show (24 : UInt32).toNat < 32 by decide), Nat.div_div_eq_div_mul]
  rfl

theorem store_big (word : UInt32) : ByteOrder.big.store word = (littleBytes 4 word.toNat).reverse := by
  rw [← store_little]
  rfl

theorem littleBytes_packed (b₀ b₁ b₂ b₃ : UInt8) :
    littleBytes 4 (packed b₀ b₁ b₂ b₃).toNat = [b₀, b₁, b₂, b₃] := by
  have h₀ := b₀.toNat_lt
  have h₁ := b₁.toNat_lt
  have h₂ := b₂.toNat_lt
  have h₃ := b₃.toNat_lt
  have hbyte {value : ℕ} (byte : UInt8) (h : value % 256 = byte.toNat) : UInt8.ofNat value = byte := by
    apply UInt8.toNat_inj.mp
    rw [UInt8.toNat_ofNat', h]
  rw [packed_toNat]
  simp only [littleBytes, Nat.div_div_eq_div_mul]
  rw [hbyte b₀ (by omega), hbyte b₁ (by omega), hbyte b₂ (by omega), hbyte b₃ (by omega)]

/-- The word whose bytes are those of another one. -/
theorem packed_ofNat (word : UInt32) :
    packed (UInt8.ofNat word.toNat) (UInt8.ofNat (word.toNat / 256))
      (UInt8.ofNat (word.toNat / 256 / 256)) (UInt8.ofNat (word.toNat / 256 / 256 / 256)) = word := by
  have hword := word.toNat_lt
  apply UInt32.toNat_inj.mp
  rw [packed_toNat]
  simp only [UInt8.toNat_ofNat', Nat.div_div_eq_div_mul]
  omega

theorem words_cons (machine : ByteOrder) (b₀ b₁ b₂ b₃ : UInt8) (bytes : Bytes) :
    machine.words (b₀ :: b₁ :: b₂ :: b₃ :: bytes) = machine.load b₀ b₁ b₂ b₃ :: machine.words bytes := rfl

/-- What a machine stores as a word it reads as that word. -/
theorem words_store (machine : ByteOrder) (word : UInt32) (memory : Bytes) :
    machine.words (machine.store word ++ memory) = word :: machine.words memory := by
  cases machine with
  | little =>
    rw [store_little]
    simp only [littleBytes, List.cons_append, List.nil_append, words_cons, ByteOrder.load, packed_ofNat]
  | big =>
    rw [store_big]
    simp only [littleBytes, List.reverse_cons, List.reverse_nil, List.cons_append, List.nil_append,
      words_cons, ByteOrder.load, packed_ofNat]

/-- The words of a text with the lowest byte first, as the definition reads them. -/
def littleWords : Bytes → List UInt32
  | b₀ :: b₁ :: b₂ :: b₃ :: bytes => packed b₀ b₁ b₂ b₃ :: littleWords bytes
  | _ => []

theorem littleWords_cons (b₀ b₁ b₂ b₃ : UInt8) (bytes : Bytes) :
    littleWords (b₀ :: b₁ :: b₂ :: b₃ :: bytes) = packed b₀ b₁ b₂ b₃ :: littleWords bytes := rfl

theorem exists_four {memory : Bytes} (hlength : 4 ≤ memory.length) :
    ∃ b₀ b₁ b₂ b₃ rest, memory = b₀ :: b₁ :: b₂ :: b₃ :: rest := by
  rcases memory with _ | ⟨b₀, _ | ⟨b₁, _ | ⟨b₂, _ | ⟨b₃, rest⟩⟩⟩⟩ <;>
    simp only [List.length_cons, List.length_nil] at hlength
  iterate 4 omega
  exact ⟨b₀, b₁, b₂, b₃, rest, rfl⟩

theorem byteReverse_cons (machine : ByteOrder) (longs : ℕ) (b₀ b₁ b₂ b₃ : UInt8) (buf : Bytes) :
    byteReverse machine (longs + 1) (b₀ :: b₁ :: b₂ :: b₃ :: buf) =
      machine.store (packed b₀ b₁ b₂ b₃) ++ byteReverse machine longs buf := rfl

/-- On either machine the words are read after the reversal as the definition reads them. -/
theorem words_byteReverse (machine : ByteOrder) (longs : ℕ) {memory : Bytes}
    (hlength : memory.length = 4 * longs) (rest : Bytes) :
    machine.words (byteReverse machine longs (memory ++ rest)) =
      littleWords memory ++ machine.words rest := by
  induction longs generalizing memory with
  | zero =>
    rw [List.length_eq_zero_iff.mp hlength]
    rfl
  | succ longs ih =>
    obtain ⟨b₀, b₁, b₂, b₃, memory, rfl⟩ := exists_four (by omega : 4 ≤ memory.length)
    simp only [List.length_cons] at hlength
    simp only [List.cons_append, byteReverse_cons, words_store, littleWords_cons,
      ih (by omega : memory.length = 4 * longs)]

theorem byteReverse_length (machine : ByteOrder) (longs : ℕ) (memory : Bytes) :
    (byteReverse machine longs memory).length = memory.length := by
  induction longs generalizing memory with
  | zero => rfl
  | succ longs ih =>
    by_cases hlength : 4 ≤ memory.length
    · obtain ⟨b₀, b₁, b₂, b₃, rest, rfl⟩ := exists_four hlength
      cases machine <;> simp only [byteReverse_cons, ByteOrder.store, List.length_append, List.length_cons,
        List.length_nil, ih] <;> omega
    · rcases memory with _ | ⟨b₀, _ | ⟨b₁, _ | ⟨b₂, _ | ⟨b₃, rest⟩⟩⟩⟩
      iterate 4 rfl
      simp only [List.length_cons] at hlength
      omega

/-- The bytes of a word in the digest. -/
theorem byteReverse_store (machine : ByteOrder) (longs : ℕ) (word : UInt32) (memory : Bytes) :
    byteReverse machine (longs + 1) (machine.store word ++ memory) =
      littleBytes 4 word.toNat ++ byteReverse machine longs memory := by
  cases machine with
  | little =>
    rw [store_little]
    simp only [littleBytes, List.cons_append, List.nil_append, byteReverse_cons, packed_ofNat, store_little]
  | big =>
    rw [store_big]
    simp only [littleBytes, List.reverse_cons, List.reverse_nil, List.cons_append, List.nil_append,
      byteReverse_cons]
    rw [store_big, littleBytes_packed]
    rfl

theorem byteReverse_stored (machine : ByteOrder) (words : Quad) :
    byteReverse machine 4 (words.stored machine) = words.bytes := by
  rw [Quad.stored, List.append_assoc, List.append_assoc, byteReverse_store, byteReverse_store,
    byteReverse_store, ← List.append_nil (machine.store words.d), byteReverse_store, Quad.bytes]
  simp only [byteReverse, List.append_nil, List.append_assoc]

/-! ## Rounds -/

theorem littleWords_getD {block : Bytes} (k : ℕ) (hlength : 4 * (k + 1) ≤ block.length) :
    (littleWords block).getD k 0 = blockWord block k := by
  induction k generalizing block with
  | zero =>
    obtain ⟨b₀, b₁, b₂, b₃, rest, rfl⟩ := exists_four (by omega : 4 ≤ block.length)
    apply UInt32.toNat_inj.mp
    have hlt := (packed b₀ b₁ b₂ b₃).toNat_lt
    rw [littleWords_cons, List.getD_cons_zero, blockWord, UInt32.toNat_ofNat']
    simp only [Nat.mul_zero, List.drop_zero, List.take_succ_cons, List.take_zero, littleEndian,
      List.foldr_cons, List.foldr_nil]
    rw [packed_toNat] at hlt ⊢
    omega
  | succ k ih =>
    obtain ⟨b₀, b₁, b₂, b₃, rest, rfl⟩ := exists_four (by omega : 4 ≤ block.length)
    simp only [List.length_cons] at hlength
    rw [littleWords_cons, List.getD_cons_succ, ih (by omega), blockWord, blockWord, Nat.mul_succ]
    rfl

theorem f1_eq (x y z : UInt32) : f1 x y z = x &&& y ||| ~~~x &&& z := by
  apply UInt32.toBitVec_inj.mp
  apply BitVec.eq_of_getLsbD_eq
  intro i hi
  simp only [f1, UInt32.toBitVec_xor, UInt32.toBitVec_and, UInt32.toBitVec_or, UInt32.toBitVec_not,
    BitVec.getLsbD_xor, BitVec.getLsbD_and, BitVec.getLsbD_or, BitVec.getLsbD_not, hi, decide_true,
    Bool.true_and]
  cases x.toBitVec.getLsbD i <;> cases y.toBitVec.getLsbD i <;> cases z.toBitVec.getLsbD i <;> rfl

theorem f2_eq (x y z : UInt32) : f2 x y z = x &&& z ||| y &&& ~~~z := by
  rw [f2, f1_eq, UInt32.and_comm z x, UInt32.and_comm (~~~z) y]

/-- The registers in the places they have in a line: each line writes the one it names first, and the next
line names it second. -/
def view (i : ℕ) (registers : Quad) : Quad :=
  match i % 4 with
  | 0 => registers
  | 1 => ⟨registers.d, registers.a, registers.b, registers.c⟩
  | 2 => ⟨registers.c, registers.d, registers.a, registers.b⟩
  | _ => ⟨registers.b, registers.c, registers.d, registers.a⟩

def roundCore (i : ℕ) : Core :=
  match i / 16 with
  | 0 => .f1
  | 1 => .f2
  | 2 => .f3
  | _ => .f4

/-- A line of the code, from the tables of the definition. -/
def roundStep (i : ℕ) : Md5Step :=
  match i % 4 with
  | 0 => ⟨roundCore i, .a, .b, .c, .d, roundIndex i, constants.getD i 0, roundShift i⟩
  | 1 => ⟨roundCore i, .d, .a, .b, .c, roundIndex i, constants.getD i 0, roundShift i⟩
  | 2 => ⟨roundCore i, .c, .d, .a, .b, roundIndex i, constants.getD i 0, roundShift i⟩
  | _ => ⟨roundCore i, .b, .c, .d, .a, roundIndex i, constants.getD i 0, roundShift i⟩

theorem md5Steps_eq : md5Steps = (List.range 64).map roundStep := by decide +kernel

theorem apply_roundCore (i : ℕ) (x y z : UInt32) :
    (roundCore i).apply x y z = roundFunction i x y z := by
  unfold roundCore roundFunction
  split
  · exact f1_eq x y z
  · exact f2_eq x y z
  · rfl
  · rfl

theorem roundIndex_lt (i : ℕ) : roundIndex i < 16 := by
  unfold roundIndex
  split <;> exact Nat.mod_lt _ (by decide)

/-- A line is a round. -/
theorem view_md5Step {block : Bytes} (hlength : block.length = 64) (i : ℕ) (registers : Quad) :
    view (i + 1) (md5Step (littleWords block) registers (roundStep i)) =
      round block (view i registers) i := by
  have hword : (littleWords block).getD (roundIndex i) 0 = blockWord block (roundIndex i) := by
    apply littleWords_getD
    have hlt := roundIndex_lt i
    omega
  have hsum (w value : UInt32) : w + (value + (blockWord block (roundIndex i) + constants.getD i 0)) =
      w + value + constants.getD i 0 + blockWord block (roundIndex i) := by
    rw [UInt32.add_comm (blockWord _ _), ← UInt32.add_assoc, ← UInt32.add_assoc]
  have hcases : i % 4 = 0 ∧ (i + 1) % 4 = 1 ∨ i % 4 = 1 ∧ (i + 1) % 4 = 2 ∨
      i % 4 = 2 ∧ (i + 1) % 4 = 3 ∨ i % 4 = 3 ∧ (i + 1) % 4 = 0 := by
    omega
  rcases hcases with ⟨hi, hnext⟩ | ⟨hi, hnext⟩ | ⟨hi, hnext⟩ | ⟨hi, hnext⟩ <;>
    simp only [view, hi, hnext, roundStep, md5Step, Quad.get, Quad.set, apply_roundCore, hword, hsum, round,
      rotateLeft, UInt32.add_comm _ (_ ||| _)]

theorem md5Transform_eq {block : Bytes} (hlength : block.length = 64) (hash : Quad) :
    md5Transform hash (littleWords block) = compress hash block := by
  have hrounds (n : ℕ) : view n (((List.range n).map roundStep).foldl (md5Step (littleWords block)) hash) =
      (List.range n).foldl (round block) hash := by
    induction n with
    | zero => rfl
    | succ n ih =>
      rw [List.range_succ, List.map_append, List.foldl_append, List.foldl_append, ← ih]
      exact view_md5Step hlength n _
  rw [md5Transform, compress, ← hrounds 64, ← md5Steps_eq]
  rfl

/-! ## The buffer -/

theorem memcpy_length {memory bytes : Bytes} {offset : ℕ}
    (hbound : offset + bytes.length ≤ memory.length) :
    (memcpy memory offset bytes).length = memory.length := by
  simp only [memcpy, List.length_append, List.length_take, List.length_drop]
  omega

theorem take_memcpy {memory bytes : Bytes} {offset n : ℕ}
    (hbound : offset + bytes.length ≤ memory.length) (hn : n = offset + bytes.length) :
    (memcpy memory offset bytes).take n = memory.take offset ++ bytes := by
  rw [memcpy]
  apply List.take_left'
  rw [List.length_append, List.length_take, hn]
  omega

/-- A copy that fills the memory. -/
theorem memcpy_eq {memory bytes : Bytes} {offset : ℕ} (hbound : offset + bytes.length = memory.length) :
    memcpy memory offset bytes = memory.take offset ++ bytes := by
  rw [memcpy, hbound, List.drop_length, List.append_nil]

section Update

variable (machine : ByteOrder) {ctx : MD5Context} {seen : Bytes}

theorem transform_buf (hlength : ctx.input.length = 64) :
    (ctx.transform machine).buf = compress ctx.buf ctx.input := by
  have hwords := words_byteReverse machine 16 hlength []
  rw [List.append_nil] at hwords
  simp only [MD5Context.transform, hwords, ByteOrder.words, List.append_nil]
  exact md5Transform_eq hlength ctx.buf

theorem transform_length : (ctx.transform machine).input.length = ctx.input.length :=
  byteReverse_length machine 16 ctx.input

theorem transform_eq : ctx.transform machine =
    ⟨md5Transform ctx.buf (machine.words (byteReverse machine 16 ctx.input)), ctx.bits₀, ctx.bits₁,
      byteReverse machine 16 ctx.input⟩ := rfl

-- Without the equation the words of the hash would be compared, too.
theorem transform_bits₀ : (ctx.transform machine).bits₀ = ctx.bits₀ := by rw [transform_eq]

theorem transform_bits₁ : (ctx.transform machine).bits₁ = ctx.bits₁ := by rw [transform_eq]

/-- What the loop makes of bytes, when the buffer is empty before them. -/
theorem updateBlocks_spec (rounds : ℕ) (ctx : MD5Context) (buf : Bytes) (hrounds : buf.length ≤ rounds)
    (hlength : ctx.input.length = 64) :
    let after := updateBlocks machine rounds ctx buf
    absorb 64 compress (ctx.buf, []) buf = (after.buf, after.input.take (buf.length % 64)) ∧
      after.input.length = 64 ∧ after.bits₀ = ctx.bits₀ ∧ after.bits₁ = ctx.bits₁ := by
  have hrest {ctx : MD5Context} {buf : Bytes} (hlength : ctx.input.length = 64) (hbuf : buf.length < 64) :
      absorb 64 compress (ctx.buf, []) buf =
        (ctx.buf, (memcpy ctx.input 0 buf).take (buf.length % 64)) ∧
      (memcpy ctx.input 0 buf).length = 64 := by
    rw [absorb_of_lt (by simpa using hbuf), Nat.mod_eq_of_lt hbuf, take_memcpy (by omega) (by omega),
      memcpy_length (by omega)]
    exact ⟨rfl, hlength⟩
  induction rounds generalizing ctx buf with
  | zero => exact ⟨(hrest hlength (by omega)).1, (hrest hlength (by omega)).2, rfl, rfl⟩
  | succ rounds ih =>
    rw [updateBlocks]
    by_cases hbuf : 64 ≤ buf.length
    · rw [if_pos hbuf]
      have htake : (buf.take 64).length = 64 := List.length_take_of_le hbuf
      have hcopy : memcpy ctx.input 0 (buf.take 64) = buf.take 64 := by
        rw [memcpy_eq (by omega), List.take_zero, List.nil_append]
      have hne : buf.take 64 ≠ [] := List.ne_nil_of_length_pos (by omega)
      rw [hcopy]
      set filled : MD5Context := { ctx with input := buf.take 64 } with hfilled
      have hinput : filled.input = buf.take 64 := rfl
      have hfull : filled.input.length = 64 := by rw [hinput, htake]
      have hafter := ih (filled.transform machine) (buf.drop 64)
        (by rw [List.length_drop]; omega) (by rw [transform_length, hfull])
      have hmod : (buf.length - 64) % 64 = buf.length % 64 := by omega
      rw [transform_buf machine hfull, transform_bits₀, transform_bits₁, List.length_drop, hmod,
        hinput] at hafter
      refine ⟨?_, hafter.2⟩
      calc
        _ = absorb 64 compress (ctx.buf, []) (buf.take 64 ++ buf.drop 64) := by
          rw [List.take_append_drop]
        _ = absorb 64 compress (compress ctx.buf (buf.take 64), []) (buf.drop 64) := by
          rw [absorb_append, absorb_of_eq hne (by simpa using hbuf), List.nil_append]
        _ = _ := hafter.1
    · rw [if_neg hbuf]
      exact ⟨(hrest hlength (by omega)).1, (hrest hlength (by omega)).2, rfl, rfl⟩

/-- The context after the bytes `seen`. -/
structure Reads (ctx : MD5Context) (seen : Bytes) : Prop where
  state : absorb 64 compress (md5Start, []) seen = (ctx.buf, ctx.input.take (seen.length % 64))
  length : ctx.input.length = 64
  bits : ctx.bits₀.toNat + 2 ^ 32 * ctx.bits₁.toNat = 8 * seen.length % 2 ^ 64

theorem Reads.used (h : Reads ctx seen) : (ctx.bits₀ >>> 3 &&& 0x3f).toNat = seen.length % 64 := by
  have hbits := h.bits
  have hlt := ctx.bits₀.toNat_lt
  rw [UInt32.toNat_and, UInt32.toNat_shiftRight]
  have hmask : ((0x3f : UInt32).toNat) = 2 ^ 6 - 1 := rfl
  have hshift : (3 : UInt32).toNat % 32 = 3 := rfl
  rw [hmask, hshift, Nat.and_two_pow_sub_one_eq_mod, Nat.shiftRight_eq_div_pow]
  omega

theorem reads_md5Init {memory : Bytes} (hlength : memory.length = 64) : Reads (md5Init memory) [] where
  state := rfl
  length := hlength
  bits := rfl

theorem count_bits (h : Reads ctx seen) (len : UInt32) :
    (ctx.count len).bits₀.toNat + 2 ^ 32 * (ctx.count len).bits₁.toNat =
      8 * (seen.length + len.toNat) % 2 ^ 64 := by
  have hbits := h.bits
  have h₀ := ctx.bits₀.toNat_lt
  have h₁ := ctx.bits₁.toNat_lt
  have hlen := len.toNat_lt
  have hlow : (len <<< 3).toNat = 8 * len.toNat % 2 ^ 32 := by
    rw [UInt32.toNat_shiftLeft, show (3 : UInt32).toNat % 32 = 3 from rfl, Nat.shiftLeft_eq, Nat.mul_comm]
  have hhigh : (len >>> 29).toNat = len.toNat / 2 ^ 29 := by
    rw [UInt32.toNat_shiftRight, show (29 : UInt32).toNat % 32 = 29 from rfl, Nat.shiftRight_eq_div_pow]
  simp only [MD5Context.count, UInt32.lt_iff_toNat_lt, UInt32.toNat_add, hlow]
  split <;> simp only [UInt32.toNat_add, hhigh, UInt32.toNat_one] <;> omega

/-- One call reads what it is given. -/
theorem Reads.md5Update (h : Reads ctx seen) (buf : Bytes) (len : UInt32) (hbuf : len.toNat ≤ buf.length) :
    Reads (md5Update machine ctx buf len) (seen ++ buf.take len.toNat) := by
  have htake : (buf.take len.toNat).length = len.toNat := List.length_take_of_le hbuf
  have hbits := count_bits h len
  have hmod : seen.length % 64 < 64 := Nat.mod_lt _ (by decide)
  have hpending : (ctx.input.take (seen.length % 64)).length = seen.length % 64 :=
    List.length_take_of_le (by rw [h.length]; omega)
  rw [Md5.md5Update, h.used]
  dsimp only
  generalize hpiece : buf.take len.toNat = piece at htake ⊢
  have htotal : (seen ++ piece).length = seen.length + len.toNat := by rw [List.length_append, htake]
  have hinput : (ctx.count len).input = ctx.input := rfl
  have hhash : (ctx.count len).buf = ctx.buf := rfl
  by_cases hused : seen.length % 64 = 0
  · rw [if_pos hused]
    have hafter := updateBlocks_spec machine piece.length (ctx.count len) piece le_rfl h.length
    refine ⟨?_, hafter.2.1, ?_⟩
    · rw [absorb_append, h.state, hused, List.take_zero, ← hhash, hafter.1]
      congr 2
      omega
    · rw [hafter.2.2.1, hafter.2.2.2, hbits, htotal]
  · rw [if_neg hused]
    by_cases hshort : piece.length < 64 - seen.length % 64
    · rw [if_pos hshort]
      refine ⟨?_, ?_, ?_⟩
      · rw [absorb_append, h.state, absorb_of_lt (by rw [hpending]; omega)]
        dsimp only
        rw [hinput, take_memcpy (by rw [h.length]; omega) (by omega)]
        rfl
      · exact (memcpy_length (by rw [hinput, h.length]; omega)).trans h.length
      · exact hbits.trans (by rw [htotal])
    · rw [if_neg hshort]
      have hfirst : (piece.take (64 - seen.length % 64)).length = 64 - seen.length % 64 :=
        List.length_take_of_le (by omega)
      have hcopy : memcpy ctx.input (seen.length % 64) (piece.take (64 - seen.length % 64)) =
          ctx.input.take (seen.length % 64) ++ piece.take (64 - seen.length % 64) :=
        memcpy_eq (by rw [h.length]; omega)
      have hblock :
          (ctx.input.take (seen.length % 64) ++ piece.take (64 - seen.length % 64)).length = 64 := by
        rw [List.length_append, hpending, hfirst]
        omega
      rw [hinput, hcopy]
      have hafter := updateBlocks_spec machine piece.length
        (MD5Context.transform machine { ctx.count len with
          input := ctx.input.take (seen.length % 64) ++ piece.take (64 - seen.length % 64) })
        (piece.drop (64 - seen.length % 64)) (by rw [List.length_drop]; omega)
        (by rw [transform_length]; exact hblock)
      rw [transform_buf machine hblock] at hafter
      have hfill : absorb 64 compress (ctx.buf, ctx.input.take (seen.length % 64))
          (piece.take (64 - seen.length % 64)) = (compress ctx.buf
            (ctx.input.take (seen.length % 64) ++ piece.take (64 - seen.length % 64)), []) := by
        apply absorb_of_eq (List.ne_nil_of_length_pos (by omega))
        rw [hpending, hfirst]
        omega
      refine ⟨?_, hafter.2.1, ?_⟩
      · have hlength : (piece.drop (64 - seen.length % 64)).length % 64 = (seen ++ piece).length % 64 := by
          rw [List.length_drop, htotal]
          omega
        rw [← hlength, ← hafter.1]
        calc
          _ = absorb 64 compress (ctx.buf, ctx.input.take (seen.length % 64))
              (piece.take (64 - seen.length % 64) ++ piece.drop (64 - seen.length % 64)) := by
            rw [absorb_append, h.state, List.take_append_drop]
          _ = _ := by
            rw [absorb_append, hfill]
            rfl
      · rw [hafter.2.2.1, hafter.2.2.2, htotal]
        exact hbits

end Update

/-! ## The end of the input -/

theorem littleBytes_length (count value : ℕ) : (littleBytes count value).length = count := by
  induction count generalizing value with
  | zero => rfl
  | succ count ih => rw [littleBytes, List.length_cons, ih]

/-- The count of bits is written in two words. -/
theorem littleBytes_eight {low high value : ℕ} (hlow : low < 2 ^ 32)
    (hvalue : low + 2 ^ 32 * high = value % 2 ^ 64) :
    littleBytes 8 value = littleBytes 4 low ++ littleBytes 4 high := by
  have hbyte {m n : ℕ} (h : m % 256 = n % 256) : UInt8.ofNat m = UInt8.ofNat n := by
    apply UInt8.toNat_inj.mp
    rw [UInt8.toNat_ofNat', UInt8.toNat_ofNat', h]
  simp only [littleBytes, List.cons_append, List.nil_append, Nat.div_div_eq_div_mul]
  simp only [List.cons.injEq, and_true]
  refine ⟨?_, ?_, ?_, ?_, ?_, ?_, ?_, ?_⟩ <;> exact hbyte (by omega)

theorem littleWords_append (count : ℕ) {memory rest : Bytes} (hlength : memory.length = 4 * count) :
    littleWords (memory ++ rest) = littleWords memory ++ littleWords rest := by
  induction count generalizing memory with
  | zero =>
    rw [List.length_eq_zero_iff.mp hlength]
    rfl
  | succ count ih =>
    obtain ⟨b₀, b₁, b₂, b₃, memory, rfl⟩ := exists_four (by omega : 4 ≤ memory.length)
    simp only [List.length_cons] at hlength
    simp only [List.cons_append, littleWords_cons, ih (by omega : memory.length = 4 * count)]

theorem littleWords_littleBytes (word : UInt32) : littleWords (littleBytes 4 word.toNat) = [word] := by
  simp only [littleBytes, littleWords, packed_ofNat]

section Final

variable (machine : ByteOrder) {ctx : MD5Context} {message : Bytes}

/-- The buffer when only the length is missing. -/
theorem Reads.pad (h : Reads ctx message) :
    absorb 64 compress (md5Start, [])
        (message ++ 0x80 :: List.replicate ((119 - message.length % 64) % 64) 0) =
      ((ctx.pad machine).buf, (ctx.pad machine).input.take 56) ∧
    (ctx.pad machine).input.length = 64 ∧ (ctx.pad machine).bits₀ = ctx.bits₀ ∧
    (ctx.pad machine).bits₁ = ctx.bits₁ := by
  have hmod : message.length % 64 < 64 := Nat.mod_lt _ (by decide)
  have hstate := h.state
  rw [MD5Context.pad, h.used]
  dsimp only
  generalize message.length % 64 = used at hmod hstate ⊢
  have hpending : (ctx.input.take used).length = used := List.length_take_of_le (by rw [h.length]; omega)
  have hlength : (memcpy ctx.input used [0x80]).length = 64 :=
    (memcpy_length (by rw [h.length, List.length_singleton]; omega)).trans h.length
  have hone : (memcpy ctx.input used [0x80]).take (used + 1) = ctx.input.take used ++ [0x80] :=
    take_memcpy (by rw [h.length, List.length_singleton]; omega) rfl
  have hsplit (zeros : Bytes) : absorb 64 compress (md5Start, []) (message ++ 0x80 :: zeros) =
      absorb 64 compress (ctx.buf, ctx.input.take used) ([0x80] ++ zeros) := by
    rw [absorb_append, hstate]
    rfl
  by_cases hlong : 64 - 1 - used < 8
  · -- The block is filled, and the zeros go on in the next one.
    rw [if_pos hlong]
    have hzeros : (119 - used) % 64 = (64 - 1 - used) + 56 := by omega
    have hset : memset (memcpy ctx.input used [0x80]) (used + 1) 0 (64 - 1 - used) =
        ctx.input.take used ++ [0x80] ++ List.replicate (64 - 1 - used) 0 := by
      rw [memset, memcpy_eq (by rw [List.length_replicate, hlength]; omega), hone]
    rw [hset]
    set filled : MD5Context :=
      { ctx with input := ctx.input.take used ++ [0x80] ++ List.replicate (64 - 1 - used) 0 } with hfilled
    have hfull : filled.input.length = 64 := by
      simp only [hfilled, List.length_append, hpending, List.length_singleton, List.length_replicate]
      omega
    have hmemory : (filled.transform machine).input.length = 64 := by rw [transform_length, hfull]
    have hlow : (filled.transform machine).bits₀ = ctx.bits₀ := transform_bits₀ machine
    have hhigh : (filled.transform machine).bits₁ = ctx.bits₁ := transform_bits₁ machine
    have hhash := transform_buf machine hfull
    generalize filled.transform machine = transformed at hmemory hlow hhigh hhash ⊢
    refine ⟨?_, ?_, hlow, hhigh⟩
    · dsimp only
      have hzero : (memset transformed.input 0 0 56).take 56 = List.replicate 56 0 := by
        rw [memset, take_memcpy (by rw [List.length_replicate, hmemory]; decide)
          (by rw [List.length_replicate]), List.take_zero, List.nil_append]
      have hfill : absorb 64 compress (ctx.buf, ctx.input.take used)
          ([0x80] ++ List.replicate (64 - 1 - used) 0) = (compress ctx.buf filled.input, []) := by
        rw [absorb_of_eq (List.ne_nil_of_length_pos (by simp))]
        · rw [hfilled, List.append_assoc]
        · simp only [hpending, List.length_append, List.length_singleton, List.length_replicate]
          omega
      rw [hsplit, hzeros, List.replicate_add, hzero, ← List.append_assoc, absorb_append, hfill,
        absorb_of_lt, List.nil_append, hhash]
      simp only [List.length_nil, List.length_replicate]
      decide
    · exact (memcpy_length (by rw [List.length_replicate, hmemory]; decide)).trans hmemory
  · rw [if_neg hlong]
    have hzeros : (119 - used) % 64 = 64 - 1 - used - 8 := by omega
    refine ⟨?_, ?_, rfl, rfl⟩
    · rw [hsplit, hzeros, absorb_of_lt]
      · dsimp only
        rw [memset, take_memcpy, hone, List.append_assoc]
        · rw [hlength, List.length_replicate]
          omega
        · rw [List.length_replicate]
          omega
      · simp only [hpending, List.length_append, List.length_singleton, List.length_replicate]
        omega
    · refine (memcpy_length ?_).trans hlength
      rw [hlength, List.length_replicate]
      omega

theorem store_length (word : UInt32) : (machine.store word).length = 4 := by
  cases machine <;> rfl

theorem byteReverse_append (machine : ByteOrder) (longs : ℕ) {memory rest : Bytes}
    (hlength : memory.length = 4 * longs) :
    byteReverse machine longs (memory ++ rest) = byteReverse machine longs memory ++ rest := by
  induction longs generalizing memory with
  | zero =>
    rw [List.length_eq_zero_iff.mp hlength]
    rfl
  | succ longs ih =>
    obtain ⟨b₀, b₁, b₂, b₃, memory, rfl⟩ := exists_four (by omega : 4 ≤ memory.length)
    simp only [List.length_cons] at hlength
    simp only [List.cons_append, byteReverse_cons, ih (by omega : memory.length = 4 * longs),
      List.append_assoc]

/-- The words of the last block: those of the text, and the two of the length. -/
theorem words_last {memory : Bytes} (hlength : memory.length = 64) (low high : UInt32) :
    machine.words (memcpy (memcpy (byteReverse machine 14 memory) 56 (machine.store low)) 60
      (machine.store high)) = littleWords (memory.take 56) ++ [low, high] := by
  have htake : (memory.take 56).length = 4 * 14 := List.length_take_of_le (by omega)
  have hreversed : (byteReverse machine 14 memory).length = 64 := by rw [byteReverse_length, hlength]
  have hcopied : (memcpy (byteReverse machine 14 memory) 56 (machine.store low)).length = 64 := by
    rw [memcpy_length (by rw [hreversed, store_length]; decide), hreversed]
  have hfirst : (memcpy (byteReverse machine 14 memory) 56 (machine.store low)).take 60 =
      (byteReverse machine 14 memory).take 56 ++ machine.store low :=
    take_memcpy (by rw [hreversed, store_length]; decide) (by rw [store_length])
  have hbytes : (byteReverse machine 14 memory).take 56 = byteReverse machine 14 (memory.take 56) := by
    conv_lhs => rw [← List.take_append_drop 56 memory, byteReverse_append machine 14 htake]
    exact List.take_left' (by rw [byteReverse_length, htake])
  have hstored : machine.words (machine.store low ++ machine.store high) = [low, high] := by
    rw [words_store, ← List.append_nil (machine.store high), words_store]
    rfl
  calc
    _ = machine.words (byteReverse machine 14 (memory.take 56) ++
        (machine.store low ++ machine.store high)) := by
      rw [memcpy_eq (by rw [hcopied, store_length]), hfirst, hbytes, List.append_assoc]
    _ = machine.words (byteReverse machine 14 (memory.take 56 ++
        (machine.store low ++ machine.store high))) := by
      rw [byteReverse_append machine 14 htake]
    _ = littleWords (memory.take 56) ++ machine.words (machine.store low ++ machine.store high) :=
      words_byteReverse machine 14 htake _
    _ = _ := by rw [hstored]

/-- The digest of what has been read. -/
theorem Reads.md5Final (h : Reads ctx message) : (md5Final machine ctx).1 = digest message := by
  obtain ⟨hstate, hlength, hlow, hhigh⟩ := h.pad machine
  have hfinal : (Md5.md5Final machine ctx).1 = (md5Transform (ctx.pad machine).buf
      (littleWords ((ctx.pad machine).input.take 56) ++ [ctx.bits₀, ctx.bits₁])).bytes := by
    rw [Md5.md5Final]
    simp only [words_last machine hlength, byteReverse_stored, hlow, hhigh]
  have htake : ((ctx.pad machine).input.take 56).length = 56 := List.length_take_of_le (by omega)
  have hlast : littleBytes 8 (8 * message.length) =
      littleBytes 4 ctx.bits₀.toNat ++ littleBytes 4 ctx.bits₁.toNat :=
    littleBytes_eight ctx.bits₀.toNat_lt h.bits
  have hblock : ((ctx.pad machine).input.take 56 ++ littleBytes 8 (8 * message.length)).length = 64 := by
    rw [List.length_append, htake, littleBytes_length]
  have hwords : littleWords ((ctx.pad machine).input.take 56 ++ littleBytes 8 (8 * message.length)) =
      littleWords ((ctx.pad machine).input.take 56) ++ [ctx.bits₀, ctx.bits₁] := by
    rw [littleWords_append 14 htake, hlast, littleWords_append 1 (littleBytes_length 4 _),
      littleWords_littleBytes, littleWords_littleBytes]
    rfl
  have hfill : absorb 64 compress ((ctx.pad machine).buf, (ctx.pad machine).input.take 56)
      (littleBytes 8 (8 * message.length)) = (compress (ctx.pad machine).buf
        ((ctx.pad machine).input.take 56 ++ littleBytes 8 (8 * message.length)), []) := by
    apply absorb_of_eq (List.ne_nil_of_length_pos (by rw [littleBytes_length]; decide))
    rw [htake, littleBytes_length]
  rw [hfinal, digest, padding, ← List.append_assoc, absorb_append, hstate, hfill,
    ← md5Transform_eq hblock, hwords]

end Final

/-! ## Pieces -/

/-- A call of `MD5Update`: a buffer, and how many of its bytes are read. -/
structure Piece where
  buf : Bytes
  len : UInt32
  bound : len.toNat ≤ buf.length

def Piece.bytes (piece : Piece) : Bytes := piece.buf.take piece.len.toNat

/-- `MD5Init`, one `MD5Update` for each piece, and `MD5Final`. -/
def md5 (machine : ByteOrder) (memory : Bytes) (pieces : List Piece) : Bytes :=
  let ctx := pieces.foldl (fun ctx piece ↦ md5Update machine ctx piece.buf piece.len) (md5Init memory)
  (md5Final machine ctx).1

theorem reads_pieces (machine : ByteOrder) {ctx : MD5Context} {seen : Bytes} (h : Reads ctx seen)
    (pieces : List Piece) :
    Reads (pieces.foldl (fun ctx piece ↦ md5Update machine ctx piece.buf piece.len) ctx)
      (seen ++ pieces.flatMap Piece.bytes) := by
  induction pieces generalizing ctx seen with
  | nil =>
    rw [List.flatMap_nil, List.append_nil]
    exact h
  | cons piece pieces ih =>
    rw [List.foldl_cons, List.flatMap_cons, ← List.append_assoc]
    exact ih (h.md5Update machine piece.buf piece.len piece.bound)

theorem md5_eq_digest (machine : ByteOrder) {memory : Bytes} (hlength : memory.length = 64)
    (pieces : List Piece) : md5 machine memory pieces = digest (pieces.flatMap Piece.bytes) :=
  (reads_pieces machine (reads_md5Init hlength) pieces).md5Final machine

/-- `abc`, on a machine with the high byte first. -/
theorem md5_abc :
    md5 .big (List.replicate 64 7) [⟨[97, 120], 1, by decide⟩, ⟨[98, 99], 2, by decide⟩] =
      digest [97, 98, 99] :=
  md5_eq_digest .big (List.length_replicate) _

example : digest [97, 98, 99] =
    [0x90, 0x01, 0x50, 0x98, 0x3c, 0xd2, 0x4f, 0xb0, 0xd6, 0x96, 0x3f, 0x7d, 0x28, 0xe1, 0x7f, 0x72] := by
  decide +kernel

end Icecast.Util.Md5
