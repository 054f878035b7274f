/-!
# Dates and times

A date, a time of day, or both with an offset. A fraction of a second is kept
to nine places and written without trailing zeros. An offset is `Z` or hours
and minutes with a sign.
-/

set_option autoImplicit false

namespace Rebuild.Toml

structure Date where
  year : Nat
  month : Nat
  day : Nat
  deriving DecidableEq, Repr

structure Time where
  hour : Nat
  minute : Nat
  second : Nat
  nanosecond : Nat
  deriving DecidableEq, Repr

inductive Offset where
  | utc
  | minutes (m : Int)
  deriving DecidableEq, Repr

structure Datetime where
  date : Option Date
  time : Option Time
  offset : Option Offset
  deriving DecidableEq, Repr

namespace Datetime

def padded (width n : Nat) : List Char :=
  let digits := Nat.toDigits 10 n
  List.replicate (width - digits.length) '0' ++ digits

def dateChars (d : Date) : List Char :=
  padded 4 d.year ++ '-' :: padded 2 d.month ++ '-' :: padded 2 d.day

def fractionChars (nanosecond : Nat) : List Char :=
  if nanosecond = 0 then []
  else '.' :: ((padded 9 nanosecond).reverse.dropWhile (· = '0')).reverse

def timeChars (t : Time) : List Char :=
  padded 2 t.hour ++ ':' :: padded 2 t.minute ++ ':' :: padded 2 t.second ++
    fractionChars t.nanosecond

def offsetChars : Offset → List Char
  | .utc => ['Z']
  | .minutes m =>
    (if m < 0 then '-' else '+') :: padded 2 (m.natAbs / 60) ++ ':' :: padded 2 (m.natAbs % 60)

def chars (d : Datetime) : List Char :=
  ((d.date.map dateChars).getD []) ++
    (match d.time with
      | some t => (if d.date.isSome then ['T'] else []) ++ timeChars t
      | none => []) ++
    ((d.offset.map offsetChars).getD [])

def text (d : Datetime) : String := String.ofList d.chars

def digit? (c : Char) : Option Nat := if c.isDigit then some (c.toNat - '0'.toNat) else none

def pair? : List Char → Option (Nat × List Char)
  | a :: b :: rest => do some (10 * (← digit? a) + (← digit? b), rest)
  | _ => none

def drop? (c : Char) : List Char → Option (List Char)
  | d :: rest => if d = c then some rest else none
  | [] => none

def isLeap (year : Nat) : Bool := year % 4 == 0 && (year % 100 != 0 || year % 400 == 0)

def daysIn (year month : Nat) : Nat :=
  if month = 2 then (if isLeap year then 29 else 28)
  else if month = 4 ∨ month = 6 ∨ month = 9 ∨ month = 11 then 30
  else 31

def isDate (d : Date) : Bool :=
  1 ≤ d.month && d.month ≤ 12 && 1 ≤ d.day && d.day ≤ daysIn d.year d.month

def startsDate (cs : List Char) : Bool :=
  (cs.take 4).length == 4 && (cs.take 4).all Char.isDigit && (cs.drop 4).head? == some '-'

def date? (cs : List Char) : Option (Date × List Char) := do
  let (century, cs) ← pair? cs
  let (year, cs) ← pair? cs
  let (month, cs) ← pair? (← drop? '-' cs)
  let (day, cs) ← pair? (← drop? '-' cs)
  let d : Date := ⟨100 * century + year, month, day⟩
  if isDate d then some (d, cs) else none

def nanoseconds (digits : List Char) : Nat :=
  ((digits ++ List.replicate 9 '0').take 9).foldl (fun n c => 10 * n + (c.toNat - '0'.toNat)) 0

def fraction? : List Char → Option (Nat × List Char)
  | '.' :: rest =>
    let digits := rest.takeWhile Char.isDigit
    if digits = [] then none else some (nanoseconds digits, rest.dropWhile Char.isDigit)
  | cs => some (0, cs)

def time? (cs : List Char) : Option (Time × List Char) := do
  let (hour, cs) ← pair? cs
  let (minute, cs) ← pair? (← drop? ':' cs)
  let (second, cs) ← pair? (← drop? ':' cs)
  let (nanosecond, cs) ← fraction? cs
  if hour ≤ 23 ∧ minute ≤ 59 ∧ second ≤ 60 then
    some (⟨hour, minute, second, nanosecond⟩, cs)
  else none

def startsTime (cs : List Char) : Bool :=
  match pair? cs with
  | some (hour, rest) => hour ≤ 23 && rest.head? == some ':'
  | none => false

def signedOffset? (sign : Int) (cs : List Char) : Option (Option Offset × List Char) := do
  let (hour, cs) ← pair? cs
  let (minute, cs) ← pair? (← drop? ':' cs)
  if hour ≤ 23 ∧ minute ≤ 59 then
    some (some (.minutes (sign * ((60 * hour + minute : Nat) : Int))), cs)
  else none

def offset? : List Char → Option (Option Offset × List Char)
  | 'Z' :: rest => some (some .utc, rest)
  | 'z' :: rest => some (some .utc, rest)
  | '+' :: rest => signedOffset? 1 rest
  | '-' :: rest => signedOffset? (-1) rest
  | cs => some (none, cs)

def isDelimiter (c : Char) : Bool := c == 'T' || c == 't' || c == ' '

/-- A date is followed by a time only if an hour comes after the delimiter. -/
def ofDate? (cs : List Char) : Option (Datetime × List Char) := do
  let (date, cs) ← date? cs
  match cs with
  | c :: rest =>
    if isDelimiter c && startsTime rest then
      let (time, rest) ← time? rest
      let (offset, rest) ← offset? rest
      some (⟨some date, some time, offset⟩, rest)
    else some (⟨some date, none, none⟩, cs)
  | [] => some (⟨some date, none, none⟩, cs)

def ofTime? (cs : List Char) : Option (Datetime × List Char) := do
  let (time, cs) ← time? cs
  some (⟨none, some time, none⟩, cs)

def read? (cs : List Char) : Option (Datetime × List Char) :=
  if startsDate cs then ofDate? cs else ofTime? cs

def ofText? (s : String) : Option Datetime := do
  let (d, rest) ← read? s.toList
  if rest = [] then some d else none

end Datetime

end Rebuild.Toml
