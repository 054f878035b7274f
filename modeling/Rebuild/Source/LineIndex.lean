/-!
# Lines and columns

Positions in a text are counted in characters from zero. The index of a text
lists where its lines start, and a line ends behind each newline. A position
is looked up by bisection, so its line is the last one that starts at it or
before it. Lines and columns are counted from one. All counts are words. A
byte in the middle of a character belongs to the boundary in front of it.
-/

set_option autoImplicit false

namespace Rebuild

structure LineIndex where
  starts : Array UInt32
  size : UInt32
  deriving DecidableEq, Repr

namespace LineIndex

def scan : UInt32 → Array UInt32 → List Char → LineIndex
  | count, starts, [] => ⟨starts, count⟩
  | count, starts, c :: cs =>
    scan (count + 1) (if c = '\n' then starts.push (count + 1) else starts) cs

def ofText (text : String) : LineIndex := scan 0 #[0] text.toList

def lineCount (ix : LineIndex) : Nat := ix.starts.size

/-- Where a place is among the starts from `low` up to `high`, or else where it would stand. -/
def searchIn (ix : LineIndex) (place : UInt32) (low high : Nat) : Except Nat Nat :=
  if low < high then
    let middle := low + (high - low) / 2
    let start := ix.starts.getD middle 0
    if start = place then .ok middle
    else if start < place then ix.searchIn place (middle + 1) high
    else ix.searchIn place low middle
  else .error low
termination_by high - low

def search (ix : LineIndex) (place : UInt32) : Except Nat Nat :=
  ix.searchIn place 0 ix.starts.size

def lineAt (ix : LineIndex) (place : UInt32) : Nat :=
  match ix.search place with
  | .ok i => i
  | .error i => i - 1

def startOf (ix : LineIndex) (line : Nat) : UInt32 := ix.starts.getD line 0

def lineColumn (ix : LineIndex) (offset : UInt32) : UInt32 × UInt32 :=
  let place := min offset ix.size
  let line := ix.lineAt place
  (UInt32.ofNat line + 1, place - ix.startOf line + 1)

end LineIndex

/-- The nearest boundary between characters at a byte or in front of it. -/
def boundary (text : String) : Nat → text.Pos
  | 0 => text.startPos
  | byte + 1 =>
    if h : String.Pos.Raw.IsValid text ⟨byte + 1⟩ then text.pos ⟨byte + 1⟩ h
    else boundary text byte

end Rebuild
