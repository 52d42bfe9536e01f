namespace AutomationLint

-- Finite numbers only. The magnitude is the exponent field above the fraction
-- field, so that the next larger number has the next larger magnitude, and a
-- carry out of the fraction lands in the exponent.
structure Binary64 where
  negative : Bool
  magnitude : Nat
  finite : magnitude < 0x7FF * Nat.pow 2 52
  deriving DecidableEq

namespace Binary64

def isZero (x : Binary64) : Bool := x.magnitude == 0

def significand (x : Binary64) : Nat :=
  if x.magnitude < Nat.pow 2 52 then x.magnitude else Nat.pow 2 52 + x.magnitude % Nat.pow 2 52

def scale (x : Binary64) : Int := max (x.magnitude / Nat.pow 2 52 : Nat) 1 - 1075

def atPowerOfTwo (x : Binary64) : Bool := x.magnitude % Nat.pow 2 52 == 0 && Nat.pow 2 53 ≤ x.magnitude

end Binary64

end AutomationLint

namespace AutomationLint.Binary64

def roundDiv (num den : Nat) : Nat :=
  let floor := num / den
  let twice := 2 * (num % den)
  if twice < den then floor else if den < twice then floor + 1 else floor + floor % 2

def log2Div (num den : Nat) : Int :=
  let estimate : Int := (num.log2 : Int) - den.log2
  if den * Nat.pow 2 estimate.toNat ≤ num * Nat.pow 2 (-estimate).toNat then estimate else estimate - 1

-- The step between neighbours is `2 ^ step`, and the significand counts steps.
-- Adding the significand to the exponent field makes a normal number and a
-- subnormal one alike.
def nearestQuotient (num den : Nat) : Nat :=
  let step := max (log2Div num den - 52) (-1074)
  (step + 1074).toNat * Nat.pow 2 52 + roundDiv (num * Nat.pow 2 (-step).toNat) (den * Nat.pow 2 step.toNat)

def decimalDigits (n : Nat) : Nat := (Nat.toDigits 10 n).length

def nearestMagnitude (digits : Nat) (exponent : Int) : Option Nat :=
  if digits = 0 then some 0
  else
    let order := (decimalDigits digits : Int) + exponent
    if order < -330 then some 0
    else if 320 < order then none
    else some (nearestQuotient (digits * Nat.pow 10 exponent.toNat) (Nat.pow 10 (-exponent).toNat))

def nearest? (negative : Bool) (digits : Nat) (exponent : Int) : Option Binary64 :=
  match nearestMagnitude digits exponent with
  | some m => if h : m < 0x7FF * Nat.pow 2 52 then some ⟨negative,m,h⟩ else none
  | none => none

def ofInt? (n : Int) : Option Binary64 := nearest? (decide (n < 0)) n.natAbs 0

end AutomationLint.Binary64

namespace AutomationLint

structure Decimal where
  negative : Bool
  digits : Nat
  exponent : Int
  deriving DecidableEq

namespace Decimal

def digitsValue (cs : List Char) : Nat := cs.foldl (fun n c => n * 10 + (c.toNat - 48)) 0

def splitSign : List Char → Bool × List Char
  | '-' :: rest => (true,rest)
  | '+' :: rest => (false,rest)
  | cs => (false,cs)

def readExponent? : List Char → Option Int
  | [] => some 0
  | c :: rest =>
    let (negative,digits) := splitSign rest
    if (c == 'e' || c == 'E') && !digits.isEmpty && digits.all Char.isDigit then
      some (if negative then -(digitsValue digits : Int) else digitsValue digits)
    else none

def readMagnitude? (cs : List Char) : Option (Nat × Int) :=
  let whole := cs.takeWhile Char.isDigit
  let (places,rest) := match cs.dropWhile Char.isDigit with
    | '.' :: rest => (rest.takeWhile Char.isDigit,rest.dropWhile Char.isDigit)
    | rest => ([],rest)
  if whole.isEmpty && places.isEmpty then none
  else (readExponent? rest).map fun e => (digitsValue (whole ++ places),e - places.length)

def read? (cs : List Char) : Option Decimal :=
  let (negative,rest) := splitSign cs
  (readMagnitude? rest).map fun (digits,exponent) => ⟨negative,digits,exponent⟩

def nearest? (d : Decimal) : Option Binary64 := Binary64.nearest? d.negative d.digits d.exponent

end Decimal

end AutomationLint

namespace AutomationLint.Binary64

-- A value and the ends of its rounding interval, as numerators over one
-- denominator. The shortest decimal is a multiple of the largest power of ten
-- that has one in there; of two such multiples the nearer is taken, and of two
-- equally near the even one.
structure Interval where
  low : Nat
  value : Nat
  high : Nat
  den : Nat
  closed : Bool

def interval (x : Binary64) : Interval :=
  let up := Nat.pow 2 x.scale.toNat
  let m := x.significand
  ⟨(4 * m - if x.atPowerOfTwo then 1 else 2) * up,4 * m * up,(4 * m + 2) * up,
    4 * Nat.pow 2 (-x.scale).toNat,m % 2 == 0⟩

namespace Interval

def holds (i : Interval) (n step : Nat) : Bool :=
  if i.closed then i.low ≤ n * step && n * step ≤ i.high else i.low < n * step && n * step < i.high

def multiple? (i : Interval) (k : Int) : Option Nat :=
  let shrink := Nat.pow 10 (-k).toNat
  let scaled : Interval := ⟨i.low * shrink,i.value * shrink,i.high * shrink,i.den,i.closed⟩
  let step := i.den * Nat.pow 10 k.toNat
  let below := scaled.value / step
  let gap := 2 * (scaled.value % step)
  let nearer := if gap < step then below else if step < gap then below + 1 else below + below % 2
  let other := if nearer = below then below + 1 else below
  if scaled.holds nearer step then some nearer else if scaled.holds other step then some other else none

def search (i : Interval) : Nat → Int → Nat × Int
  | 0, k => (0,k)
  | fuel + 1, k =>
    match i.multiple? k with
    | some n => (n,k)
    | none => i.search fuel (k - 1)

end Interval

-- Twenty steps reach below the seventeenth digit from any start at most three
-- above the first, so the search never runs out.
def shortest (x : Binary64) : Nat × Int :=
  let bits : Int := x.significand.log2 + x.scale + 1
  x.interval.search 24 (bits * 30103 / 100000 + 1)

structure Form where
  pointInMantissa : Bool

def digitsOf (n : Nat) : List Char := Nat.toDigits 10 n

def zeros (n : Nat) : List Char := List.replicate n '0'

def positional (digits : List Char) (exponent : Int) : List Char :=
  if 0 ≤ exponent then digits ++ zeros exponent.toNat ++ ['.','0']
  else
    let places := (-exponent).toNat
    if places < digits.length then
      digits.take (digits.length - places) ++ '.' :: digits.drop (digits.length - places)
    else ['0','.'] ++ zeros (places - digits.length) ++ digits

def scientific (form : Form) (digits : List Char) (order : Int) : List Char :=
  let mantissa := match digits with
    | [d] => if form.pointInMantissa then [d,'.','0'] else [d]
    | d :: rest => d :: '.' :: rest
    | [] => []
  mantissa ++ 'e' :: (if order < 0 then '-' else '+') :: digitsOf order.natAbs

-- Decimal exponents from -5 to 15 are written positionally, with at least one
-- digit after the point; all others with an exponent that always has its sign.
def magnitudeText (form : Form) (x : Binary64) : List Char :=
  if x.isZero then ['0','.','0']
  else
    let (n,exponent) := x.shortest
    let digits := digitsOf n
    let order := exponent + digits.length - 1
    if -5 ≤ order && order ≤ 15 then positional digits exponent else scientific form digits order

def text (form : Form) (x : Binary64) : String :=
  String.ofList (if x.negative then '-' :: x.magnitudeText form else x.magnitudeText form)

end AutomationLint.Binary64
