import SpimCompiler.Json.Basic

/-!
# Reading numbers

A numeral is read into its parts first and judged afterwards: a whole number keeps its value, any
other only its spelling. A number too large for a double is refused, whatever its form; for this
the significand is taken in 64 bits, as far as its digits fit, and scaled by a power of ten.
-/

namespace SpimCompiler.Json

structure Exponent where
  mark : Char
  sign : List Char
  digits : List Char
deriving DecidableEq, Repr

structure Numeral where
  negative : Bool
  whole : List Char
  fraction : Option (List Char)
  exponent : Option Exponent
deriving DecidableEq, Repr

def decimal (ds : List Char) : Nat := ds.foldl (fun n c => n * 10 + digitValue c) 0

def digits1 : List Char → Except ReadError (List Char × List Char)
  | [] => .error .truncated
  | c :: cs =>
    if isDigit c then .ok (c :: cs.takeWhile isDigit, cs.dropWhile isDigit)
    else .error .malformed

/-- The digits before the point: no digit follows a leading zero. -/
def wholeDigits (cs : List Char) : Except ReadError (List Char × List Char) := do
  let (ds, rest) ← digits1 cs
  match ds with
  | '0' :: _ :: _ => .error .malformed
  | _ => .ok (ds, rest)

def fractionPart : List Char → Except ReadError (Option (List Char) × List Char)
  | '.' :: cs => do
    let (ds, rest) ← digits1 cs
    .ok (some ds, rest)
  | cs => .ok (none, cs)

def exponentSign : List Char → List Char × List Char
  | '+' :: cs => (['+'], cs)
  | '-' :: cs => (['-'], cs)
  | cs => ([], cs)

def exponentPart : List Char → Except ReadError (Option Exponent × List Char)
  | [] => .ok (none, [])
  | c :: cs =>
    if c = 'e' || c = 'E' then do
      let (sign, cs) := exponentSign cs
      let (ds, rest) ← digits1 cs
      .ok (some ⟨c, sign, ds⟩, rest)
    else .ok (none, c :: cs)

def minusSign : List Char → Bool × List Char
  | '-' :: cs => (true, cs)
  | cs => (false, cs)

structure Scaled where
  significand : Nat
  exponent : Int
deriving DecidableEq, Repr

namespace Scaled

/-- Takes a digit before the point. Once a digit does not fit, it and all later ones only raise the
exponent. -/
def wholeDigit (s : Scaled) (c : Char) : Scaled :=
  let next := s.significand * 10 + digitValue c
  if s.exponent = 0 ∧ next < UInt64.size then { s with significand := next }
  else { s with exponent := s.exponent + 1 }

/-- Takes the digits behind the point, up to the first that does not fit. -/
def fractionDigits (s : Scaled) : List Char → Scaled
  | [] => s
  | c :: cs =>
    let next := s.significand * 10 + digitValue c
    if next < UInt64.size then fractionDigits ⟨next, s.exponent - 1⟩ cs else s

end Scaled

/-- The double next to a natural number in the range of doubles, halves to even. -/
def nearestDouble (n : Nat) : Nat :=
  if n < 1 <<< 53 then n
  else
    let unit := 1 <<< (n.log2 - 52)
    let floor := n / unit
    let rest := n % unit
    if 2 * rest > unit ∨ (2 * rest = unit ∧ floor % 2 = 1) then (floor + 1) * unit
    else floor * unit

def Scaled.overflows (s : Scaled) : Bool :=
  s.significand ≠ 0 && s.exponent ≥ 0 &&
    (s.exponent > 308 ||
      nearestDouble s.significand * nearestDouble (Nat.pow 10 s.exponent.toNat) ≥
        1 <<< 1024 - 1 <<< 970)

namespace Exponent

def value (e : Exponent) : Int :=
  if e.sign = ['-'] then -(decimal e.digits : Int) else decimal e.digits

def spelling (e : Exponent) : List Char := e.mark :: e.sign ++ e.digits

end Exponent

namespace Numeral

def read (cs : List Char) : Except ReadError (Numeral × List Char) := do
  let (negative, cs) := minusSign cs
  let (whole, cs) ← wholeDigits cs
  let (fraction, cs) ← fractionPart cs
  let (exponent, cs) ← exponentPart cs
  .ok (⟨negative, whole, fraction, exponent⟩, cs)

def spelling (x : Numeral) : List Char :=
  (if x.negative then ['-'] else []) ++ x.whole ++
    (x.fraction.elim [] ('.' :: ·)) ++ x.exponent.elim [] Exponent.spelling

def scaled (x : Numeral) : Scaled :=
  let s := x.whole.foldl Scaled.wholeDigit ⟨0, 0⟩
  let s := s.fractionDigits (x.fraction.getD [])
  { s with exponent := s.exponent + x.exponent.elim 0 Exponent.value }

/-- Whether a numeral stands for a whole number: it has neither point nor exponent, and is not
`-0`. -/
def isWhole (x : Numeral) : Bool :=
  x.fraction.isNone && x.exponent.isNone && !(x.negative && decimal x.whole == 0)

def value (x : Numeral) : Except ReadError Json :=
  if x.scaled.overflows then .error .malformed
  else if x.isWhole then
    .ok (.int (if x.negative then -(decimal x.whole : Int) else decimal x.whole))
  else .ok (.real (String.ofList x.spelling))

end Numeral

def number (cs : List Char) : Except ReadError (Json × List Char) := do
  let (x, rest) ← Numeral.read cs
  .ok (← x.value, rest)

end SpimCompiler.Json
