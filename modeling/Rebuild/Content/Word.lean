/-!
# Words of bytes

Bytes are read into words with the first byte lowest. Reading past the end
reads zeros.
-/

set_option autoImplicit false

namespace Rebuild.Content

abbrev Bytes := List UInt8

def littleEndian : Bytes → Nat
  | [] => 0
  | b :: bs => b.toNat + 256 * littleEndian bs

def word32 (bs : Bytes) : UInt32 := UInt32.ofNat (littleEndian (bs.take 4))

def word64 (bs : Bytes) : UInt64 := UInt64.ofNat (littleEndian (bs.take 8))

def bytesOf : Nat → Nat → Bytes
  | 0, _ => []
  | count + 1, n => UInt8.ofNat n :: bytesOf count (n / 256)

def words (count : Nat) (bs : Bytes) : List UInt64 :=
  (List.range count).map (fun i => word64 (bs.drop (8 * i)))

def rotate32 (w : UInt32) (n : UInt32) : UInt32 := (w <<< n) ||| (w >>> (32 - n))

def reverse32 (w : UInt32) : UInt32 :=
  UInt32.ofNat (littleEndian (bytesOf 4 w.toNat).reverse)

def reverse64 (w : UInt64) : UInt64 :=
  UInt64.ofNat (littleEndian (bytesOf 8 w.toNat).reverse)

structure Wide where
  low : UInt64
  high : UInt64
  deriving DecidableEq, Repr

def Wide.product (a b : UInt64) : Wide :=
  ⟨UInt64.ofNat (a.toNat * b.toNat), UInt64.ofNat (a.toNat * b.toNat / UInt64.size)⟩

def Wide.fold (w : Wide) : UInt64 := w.low ^^^ w.high

end Rebuild.Content
