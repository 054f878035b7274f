import Rebuild.Content.Digest
import Rebuild.Json.Value
import Rebuild.Json.Writer

/-!
# Content hashes

The identity of a text for change detection: the 16 bytes of its digest, the
low word first. Different hashes prove that texts differ.
-/

set_option autoImplicit false

namespace Rebuild

structure ContentHash where
  digest : Content.Wide
  deriving DecidableEq, Repr

namespace ContentHash

def ofBytes (bs : Content.Bytes) : ContentHash := ⟨Content.Digest.ofBytes bs⟩

def ofText (text : String) : ContentHash := ofBytes text.toUTF8.data.toList

def bytes (h : ContentHash) : Content.Bytes :=
  Content.bytesOf 8 h.digest.low.toNat ++ Content.bytesOf 8 h.digest.high.toNat

def hexByte (b : UInt8) : List Char :=
  [Json.hexDigit (b.toNat / 16), Json.hexDigit (b.toNat % 16)]

def hex (h : ContentHash) : String := String.ofList (h.bytes.flatMap hexByte)

def label (h : ContentHash) : String :=
  "ContentHash(" ++ String.ofList ((h.bytes.take 2).flatMap hexByte) ++ "..)"

def toJson (h : ContentHash) : Json :=
  .array (h.bytes.map (fun b => .integer b.toNat))

def byte? : Json → Option UInt8
  | .integer i => if 0 ≤ i ∧ i < 256 then some (UInt8.ofNat i.toNat) else none
  | _ => none

def ofJson? : Json → Option ContentHash
  | .array items =>
    (items.mapM byte?).bind fun bs =>
      if bs.length = 16 then
        some ⟨⟨Content.word64 bs, Content.word64 (bs.drop 8)⟩⟩
      else none
  | _ => none

end ContentHash

end Rebuild
