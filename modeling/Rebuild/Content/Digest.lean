import Rebuild.Content.Word

/-!
# The XXH3 digest of 128 bits

The digest with seed zero and the standard secret. Inputs of up to 240 bytes
are mixed in a few rounds that depend on their length. Longer ones run through
eight lanes, stripe after stripe, with the lanes scrambled after each block.
-/

set_option autoImplicit false

namespace Rebuild.Content

namespace Digest

def secretWords : List Nat :=
  [0xbe4ba423396cfeb8, 0x1cad21f72c81017c, 0xdb979083e96dd4de, 0x1f67b3b7a4a44072,
   0x78e5c0cc4ee679cb, 0x2172ffcc7dd05a82, 0x8e2443f7744608b8, 0x4c263a81e69035e0,
   0xcb00c391bb52283c, 0xa32e531b8b65d088, 0x4ef90da297486471, 0xd8acdea946ef1938,
   0x3f349ce33f76faa8, 0x1d4f0bc7c7bbdcf9, 0x3159b4cd4be0518a, 0x647378d9c97e9fc8,
   0xc3ebd33483acc5ea, 0xeb6313faffa081c5, 0x49daf0b751dd0d17, 0x9e68d429265516d3,
   0xfca1477d58be162b, 0xce31d07ad1b8f88f, 0x280416958f3acb45, 0x7e404bbbcafbd7af]

def secret : Bytes := secretWords.flatMap (bytesOf 8)

def secretAt (offset : Nat) : UInt64 := word64 (secret.drop offset)

def short1 : UInt64 := 0x9E3779B1
def short2 : UInt64 := 0x85EBCA77
def short3 : UInt64 := 0xC2B2AE3D
def prime1 : UInt64 := 0x9E3779B185EBCA87
def prime2 : UInt64 := 0xC2B2AE3D27D4EB4F
def prime3 : UInt64 := 0x165667B19E3779F9
def prime4 : UInt64 := 0x85EBCA77C2B2AE63
def prime5 : UInt64 := 0x27D4EB2F165667C5
def mixer1 : UInt64 := 0x165667919E3779F9
def mixer2 : UInt64 := 0x9FB21C651E98DF25

def lowHalf (w : UInt64) : UInt64 := w &&& 0xFFFFFFFF

def highHalf (w : UInt64) : UInt64 := w >>> 32

def shiftXor (w n : UInt64) : UInt64 := w ^^^ (w >>> n)

def spread (w : UInt64) : UInt64 := shiftXor (shiftXor w 37 * mixer1) 32

def spreadLong (w : UInt64) : UInt64 :=
  shiftXor (shiftXor (shiftXor w 33 * prime2) 29 * prime3) 32

def ofEmpty : Wide :=
  ⟨spreadLong (secretAt 64 ^^^ secretAt 72), spreadLong (secretAt 80 ^^^ secretAt 88)⟩

def ofFew (bs : Bytes) : Wide :=
  let n := bs.length
  let byte (i : Nat) : UInt32 := (bs.getD i 0).toUInt32
  let low : UInt32 :=
    (byte 0 <<< 16) ||| (byte (n / 2) <<< 24) ||| byte (n - 1) ||| (UInt32.ofNat n <<< 8)
  let high := rotate32 (reverse32 low) 13
  let key (i : Nat) : UInt64 :=
    (word32 (secret.drop i) ^^^ word32 (secret.drop (i + 4))).toUInt64
  ⟨spreadLong (low.toUInt64 ^^^ key 0), spreadLong (high.toUInt64 ^^^ key 8)⟩

def ofFour (bs : Bytes) : Wide :=
  let n := bs.length
  let input := (word32 bs).toUInt64 + ((word32 (bs.drop (n - 4))).toUInt64 <<< 32)
  let p := Wide.product (input ^^^ (secretAt 16 ^^^ secretAt 24)) (prime1 + UInt64.ofNat (4 * n))
  let high := p.high + (p.low <<< 1)
  let low := shiftXor (p.low ^^^ (high >>> 3)) 35 * mixer2
  ⟨shiftXor low 28, spread high⟩

def ofNine (bs : Bytes) : Wide :=
  let n := bs.length
  let first := word64 bs
  let last := word64 (bs.drop (n - 8))
  let p := Wide.product (first ^^^ last ^^^ (secretAt 32 ^^^ secretAt 40)) prime1
  let keyed := last ^^^ (secretAt 48 ^^^ secretAt 56)
  let high := p.high + keyed + lowHalf keyed * (short2 - 1)
  let q := Wide.product (p.low + (UInt64.ofNat (n - 1) <<< 54) ^^^ reverse64 high) prime2
  ⟨spread q.low, spread (q.high + high * prime2)⟩

def mix (bs : Bytes) (offset : Nat) : UInt64 :=
  (Wide.product (word64 bs ^^^ secretAt offset)
    (word64 (bs.drop 8) ^^^ secretAt (offset + 8))).fold

def mixPair (acc : Wide) (a b : Bytes) (offset : Nat) : Wide :=
  ⟨(acc.low + mix a offset) ^^^ (word64 b + word64 (b.drop 8)),
   (acc.high + mix b (offset + 16)) ^^^ (word64 a + word64 (a.drop 8))⟩

def start (n : Nat) : Wide := ⟨UInt64.ofNat n * prime1, 0⟩

def close (n : Nat) (acc : Wide) : Wide :=
  ⟨spread (acc.low + acc.high),
   0 - spread (acc.low * prime1 + acc.high * prime4 + UInt64.ofNat n * prime2)⟩

/-- Up to 128 bytes: pieces from both ends, the middle first. -/
def ofMedium (bs : Bytes) : Wide :=
  let n := bs.length
  let round (i : Nat) (acc : Wide) : Wide :=
    if i = 0 ∨ 32 * i < n then
      mixPair acc (bs.drop (16 * i)) (bs.drop (n - 16 * (i + 1))) (32 * i)
    else acc
  close n (round 0 (round 1 (round 2 (round 3 (start n)))))

/-- Up to 240 bytes: pairs of pieces in order, spread after the first four. -/
def ofLarge (bs : Bytes) : Wide :=
  let n := bs.length
  let round (secretOffset : Nat → Nat) (acc : Wide) (i : Nat) : Wide :=
    mixPair acc (bs.drop (32 * i)) (bs.drop (32 * i + 16)) (secretOffset i)
  let head := (List.range 4).foldl (round (32 * ·)) (start n)
  let middle := (List.range' 4 (n / 32 - 4)).foldl (round (fun i => 3 + 32 * (i - 4)))
    ⟨spread head.low, spread head.high⟩
  close n (mixPair middle (bs.drop (n - 16)) (bs.drop (n - 32)) 103)

abbrev Lanes := List UInt64

def lanes : Lanes := [short3, prime1, prime2, prime3, prime4, short2, prime5, short1]

def swapPairs : Lanes → Lanes
  | a :: b :: rest => b :: a :: swapPairs rest
  | rest => rest

/-- Adds a stripe of 64 bytes: each lane takes the word of its neighbour and the
product of the halves of its own keyed word. -/
def accumulate (acc : Lanes) (stripe : Bytes) (offset : Nat) : Lanes :=
  let data := words 8 stripe
  let keyed : Lanes := List.zipWith (· ^^^ ·) data (words 8 (secret.drop offset))
  let products : Lanes := keyed.map (fun k => lowHalf k * highHalf k)
  List.zipWith (· + ·) (List.zipWith (· + ·) acc (swapPairs data)) products

def scramble (acc : Lanes) : Lanes :=
  List.zipWith (fun a k => (shiftXor a 47 ^^^ k) * short1) acc (words 8 (secret.drop 128))

def absorb : Nat → Nat → Bytes → Lanes → Lanes
  | 0, _, _, acc => acc
  | count + 1, i, bs, acc =>
    let acc := accumulate acc (bs.take 64) (8 * i)
    if i = 15 then absorb count 0 (bs.drop 64) (scramble acc)
    else absorb count (i + 1) (bs.drop 64) acc

def merge (acc : Lanes) (offset : Nat) (initial : UInt64) : UInt64 :=
  let keyed : Lanes := List.zipWith (· ^^^ ·) acc (words 8 (secret.drop offset))
  spread ((List.range 4).foldl (fun sum i =>
    sum + (Wide.product (keyed.getD (2 * i) 0) (keyed.getD (2 * i + 1) 0)).fold) initial)

def ofLong (bs : Bytes) : Wide :=
  let n := bs.length
  let acc := accumulate (absorb ((n - 1) / 64) 0 bs lanes) (bs.drop (n - 64)) 121
  ⟨merge acc 11 (UInt64.ofNat n * prime1), merge acc 117 (~~~(UInt64.ofNat n * prime2))⟩

def ofBytes (bs : Bytes) : Wide :=
  let n := bs.length
  if n = 0 then ofEmpty
  else if n ≤ 3 then ofFew bs
  else if n ≤ 8 then ofFour bs
  else if n ≤ 16 then ofNine bs
  else if n ≤ 128 then ofMedium bs
  else if n ≤ 240 then ofLarge bs
  else ofLong bs

end Digest

end Rebuild.Content
