namespace AutomationLint.Text

def hexValue? (c : Char) : Option Nat :=
  if c.isDigit then some (c.toNat - 48)
  else if 'a' ≤ c && c ≤ 'f' then some (c.toNat - 87)
  else if 'A' ≤ c && c ≤ 'F' then some (c.toNat - 55)
  else none

def lowerHex (n : Nat) : Char := if n < 10 then Char.ofNat (48 + n) else Char.ofNat (87 + n)

def upperHex (n : Nat) : Char := if n < 10 then Char.ofNat (48 + n) else Char.ofNat (55 + n)

@[simp] theorem hexValue?_upperHex : ∀ d < 16, hexValue? (upperHex d) = some d := by decide

def upperHexDigits : Nat → Nat → List Char
  | 0, _ => []
  | width + 1, n => upperHexDigits width (n / 16) ++ [upperHex (n % 16)]

@[simp] theorem upperHexDigits_length (width n : Nat) : (upperHexDigits width n).length = width := by
  induction width generalizing n with
  | zero => rfl
  | succ width ih => simp [upperHexDigits,ih]

def char? (n : Nat) : Option Char := if h : n.isValidChar then some (Char.ofNatAux n h) else none

@[simp] theorem char?_toNat (c : Char) : char? c.toNat = some c := by
  have valid : c.toNat.isValidChar := c.valid
  rw [char?,dif_pos valid]
  rfl

def leadByte? (b : Nat) : Option (Nat × Nat × Nat) :=
  if b < 0x80 then some (0,b,0)
  else if b < 0xC0 then none
  else if b < 0xE0 then some (1,b - 0xC0,0x80)
  else if b < 0xF0 then some (2,b - 0xE0,0x800)
  else if b < 0xF8 then some (3,b - 0xF0,0x10000)
  else none

def continued? : Nat → Nat → List Nat → Option Nat
  | 0, n, _ => some n
  | _ + 1, _, [] => none
  | k + 1, n, b :: rest => if 0x80 ≤ b && b < 0xC0 then continued? k (n * 64 + (b - 0x80)) rest else none

-- Only the shortest form of a code point is accepted, and no surrogate.
def decodeBytes? : Nat → List Nat → Option (List Char)
  | _, [] => some []
  | 0, _ :: _ => none
  | fuel + 1, b :: rest => do
    let (width,bits,least) ← leadByte? b
    let n ← continued? width bits rest
    let c ← if least ≤ n then char? n else none
    (decodeBytes? fuel (rest.drop width)).map (c :: ·)

def decodeUtf8? (bytes : List Nat) : Option (List Char) := decodeBytes? bytes.length bytes

def sextet? (c : Char) : Option Nat :=
  if 'A' ≤ c && c ≤ 'Z' then some (c.toNat - 65)
  else if 'a' ≤ c && c ≤ 'z' then some (c.toNat - 71)
  else if c.isDigit then some (c.toNat + 4)
  else if c == '+' then some 62
  else if c == '/' then some 63
  else none

-- The last group is padded to four characters, and the bits that padding
-- leaves over must be zero.
def decodeBase64? : List Char → Option (List Nat)
  | [] => some []
  | [a,b,'=','='] => do
    let x ← sextet? a
    let y ← sextet? b
    if y % 16 = 0 then some [x * 4 + y / 16] else none
  | [a,b,c,'='] => do
    let x ← sextet? a
    let y ← sextet? b
    let z ← sextet? c
    if z % 4 = 0 then some [x * 4 + y / 16,y % 16 * 16 + z / 4] else none
  | a :: b :: c :: d :: rest => do
    let x ← sextet? a
    let y ← sextet? b
    let z ← sextet? c
    let w ← sextet? d
    (decodeBase64? rest).map ([x * 4 + y / 16,y % 16 * 16 + z / 4,z % 4 * 64 + w] ++ ·)
  | _ => none

end AutomationLint.Text
