import AutomationLint.Number
import AutomationLint.Text.Utf8
import AutomationLint.Tree

namespace AutomationLint.Tree.Json
open Text

def fitsWord (n : Int) : Bool := -0x8000000000000000 ≤ n && n < 0x10000000000000000

def skipSpace (cs : List Char) : List Char :=
  cs.dropWhile fun c => c == ' ' || c == '\n' || c == '\r' || c == '\t'

def unit? : List Char → Option (Nat × List Char)
  | a :: b :: c :: d :: rest => do
    let n := (((← hexValue? a) * 16 + (← hexValue? b)) * 16 + (← hexValue? c)) * 16 + (← hexValue? d)
    some (n,rest)
  | _ => none

-- A high surrogate stands only before an escaped low one.
def unicodeEscape? (cs : List Char) : Option (Char × List Char) :=
  match unit? cs with
  | none => none
  | some (high,rest) =>
    if 0xD800 ≤ high && high < 0xDC00 then
      match rest with
      | '\\' :: 'u' :: rest =>
        match unit? rest with
        | some (low,rest) =>
          if 0xDC00 ≤ low && low < 0xE000 then
            (char? (0x10000 + (high - 0xD800) * 1024 + (low - 0xDC00))).map (·,rest)
          else none
        | none => none
      | _ => none
    else (char? high).map (·,rest)

def simpleEscape? : Char → Option Char
  | '"' => some '"'
  | '\\' => some '\\'
  | '/' => some '/'
  | 'b' => some '\x08'
  | 'f' => some '\x0c'
  | 'n' => some '\n'
  | 'r' => some '\r'
  | 't' => some '\t'
  | _ => none

def stringBody? : Nat → List Char → List Char → Option (String × List Char)
  | 0, _, _ => none
  | fuel + 1, read, cs =>
    match cs with
    | [] => none
    | '"' :: rest => some (String.ofList read.reverse,rest)
    | '\\' :: 'u' :: rest =>
      match unicodeEscape? rest with
      | some (c,rest) => stringBody? fuel (c :: read) rest
      | none => none
    | '\\' :: c :: rest =>
      match simpleEscape? c with
      | some c => stringBody? fuel (c :: read) rest
      | none => none
    | c :: rest => if c.toNat < 32 then none else stringBody? fuel (c :: read) rest

def isNumberChar (c : Char) : Bool := c.isDigit || c == '-' || c == '+' || c == '.' || c == 'e' || c == 'E'

def leadingZero : List Char → Bool
  | '0' :: c :: _ => c.isDigit
  | _ => false

def barePoint : List Char → Bool
  | [] => false
  | '.' :: rest => !(rest.head?.map Char.isDigit).getD false || barePoint rest
  | _ :: rest => barePoint rest

-- An integer that fits 64 bits, signed or unsigned, is an integer; `-0`, a
-- number with a point or an exponent, and any other integer are floats.
def number? (cs : List Char) : Option Tree :=
  let (negative,digits) := match cs with
    | '-' :: rest => (true,rest)
    | rest => (false,rest)
  let value : Int := if negative then -(Decimal.digitsValue digits : Int) else Decimal.digitsValue digits
  if digits.isEmpty || leadingZero digits || barePoint digits then none
  else if digits.all Char.isDigit && fitsWord value && !(negative && value == 0) then some (.int value)
  else if (digits.head?.map Char.isDigit).getD false then
    ((Decimal.read? cs).bind Decimal.nearest?).map .float
  else none

mutual
def value? : Nat → List Char → Option (Tree × List Char)
  | 0, _ => none
  | fuel + 1, cs =>
    match skipSpace cs with
    | 'n' :: 'u' :: 'l' :: 'l' :: rest => some (.null,rest)
    | 't' :: 'r' :: 'u' :: 'e' :: rest => some (.bool true,rest)
    | 'f' :: 'a' :: 'l' :: 's' :: 'e' :: rest => some (.bool false,rest)
    | '"' :: rest => (stringBody? (rest.length + 1) [] rest).map fun (s,rest) => (.str s,rest)
    | '[' :: rest =>
      match skipSpace rest with
      | ']' :: rest => some (.seq [],rest)
      | rest => items? fuel [] rest
    | '{' :: rest =>
      match skipSpace rest with
      | '}' :: rest => some (.map [],rest)
      | rest => entries? fuel [] rest
    | rest =>
      (number? (rest.takeWhile isNumberChar)).map fun t => (t,rest.dropWhile isNumberChar)

def items? : Nat → List Tree → List Char → Option (Tree × List Char)
  | 0, _, _ => none
  | fuel + 1, read, cs =>
    match value? fuel cs with
    | none => none
    | some (t,rest) =>
      match skipSpace rest with
      | ',' :: rest => items? fuel (t :: read) rest
      | ']' :: rest => some (.seq (t :: read).reverse,rest)
      | _ => none

def entries? : Nat → Entries → List Char → Option (Tree × List Char)
  | 0, _, _ => none
  | fuel + 1, read, cs =>
    match skipSpace cs with
    | '"' :: rest =>
      match stringBody? (rest.length + 1) [] rest with
      | none => none
      | some (name,rest) =>
        match skipSpace rest with
        | ':' :: rest =>
          match value? fuel rest with
          | none => none
          | some (t,rest) =>
            match skipSpace rest with
            | ',' :: rest => entries? fuel (put read name t) rest
            | '}' :: rest => some (.map (put read name t),rest)
            | _ => none
        | _ => none
    | _ => none
end

end Json

def ofJson? (text : String) : Option Tree :=
  let cs := text.toList
  match Json.value? (cs.length + 2) cs with
  | some (t,rest) => if (Json.skipSpace rest).isEmpty then some t else none
  | none => none

end AutomationLint.Tree
