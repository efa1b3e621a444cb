import PineEngine.Text.Quoted

/-! # Digests

The 160-bit digest of a text, by which files of the same content get the same name. The bytes of the text
are padded to blocks of sixteen words; each block is stretched to eighty words, and five words of state are
stirred with them in eighty rounds (SHA-1).
-/

namespace PineEngine.Text

structure Digest where
  a : UInt32
  b : UInt32
  c : UInt32
  d : UInt32
  e : UInt32
  deriving DecidableEq, Repr

namespace Digest

def start : Digest :=
  ⟨0x67452301, 0xefcdab89, 0x98badcfe, 0x10325476, 0xc3d2e1f0⟩

def rotate (x n : UInt32) : UInt32 :=
  (x <<< n) ||| (x >>> (32 - n))

def mix (round : Nat) (b c d : UInt32) : UInt32 :=
  if round < 20 then ((b &&& c) ||| ((b ^^^ 0xffffffff) &&& d)) + 0x5a827999
  else if round < 40 then (b ^^^ c ^^^ d) + 0x6ed9eba1
  else if round < 60 then ((b &&& c) ||| (b &&& d) ||| (c &&& d)) + 0x8f1bbcdc
  else (b ^^^ c ^^^ d) + 0xca62c1d6

def step (s : Digest) (round : Nat) (word : UInt32) : Digest :=
  ⟨rotate s.a 5 + mix round s.b s.c s.d + s.e + word, s.a, rotate s.b 30, s.c, s.d⟩

/-- Adds `n` words to a block; the latest words stand first. -/
def stretch : Nat → List UInt32 → List UInt32
  | 0, ws => ws
  | n + 1, ws =>
    let past (k : Nat) : UInt32 := ws[k]?.getD 0
    stretch n (rotate (past 2 ^^^ past 7 ^^^ past 13 ^^^ past 15) 1 :: ws)

def absorb (s : Digest) (block : List UInt32) : Digest :=
  let words := (stretch 64 block.reverse).reverse
  let t := words.zipIdx.foldl (fun t (w, round) => t.step round w) s
  ⟨s.a + t.a, s.b + t.b, s.c + t.c, s.d + t.d, s.e + t.e⟩

def bytesOf (n count : Nat) : List UInt8 :=
  ((List.range count).map fun k => (n >>> (8 * k)).toUInt8).reverse

/-- Bytes filled up to whole blocks: a bit that is set, bits that are not, and the number of bits. -/
def padded (bytes : List UInt8) : List UInt8 :=
  let n := bytes.length
  bytes ++ 0x80 :: List.replicate ((119 - n % 64) % 64) 0 ++ bytesOf (8 * n) 8

def words : List UInt8 → List UInt32
  | a :: b :: c :: d :: rest =>
    ((a.toUInt32 <<< 24) ||| (b.toUInt32 <<< 16) ||| (c.toUInt32 <<< 8) ||| d.toUInt32) :: words rest
  | _ => []

def blocks (ws : List UInt32) : List (List UInt32) :=
  (List.range (ws.length / 16)).map fun k => (ws.drop (16 * k)).take 16

def ofBytes (bytes : List UInt8) : Digest :=
  (blocks (words (padded bytes))).foldl absorb start

def text (s : Digest) : String :=
  String.join ([s.a, s.b, s.c, s.d, s.e].map fun w => hexText w.toNat 8)

end Digest

def digest (s : String) : String :=
  (Digest.ofBytes s.toUTF8.toList).text

end PineEngine.Text
