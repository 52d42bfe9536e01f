import AutomationLint.Number
import AutomationLint.Text.Lines
import AutomationLint.Text.Utf8
import AutomationLint.Yaml.Node

namespace AutomationLint.Yaml

def isControl (c : Char) : Bool := c.toNat < 0x20 || (0x7F ≤ c.toNat && c.toNat ≤ 0x9F)

def isAsciiSpace (c : Char) : Bool := c == ' ' || c == '\t' || c == '\n' || c == '\x0c' || c == '\r'

def isDecimalTail (c : Char) : Bool := c.isDigit || c == '_'

def isDigits : List Char → Bool
  | [] => false
  | c :: rest => c.isDigit && rest.all isDecimalTail

def isExponent : List Char → Bool
  | [] => true
  | c :: rest => (c == 'e' || c == 'E') && isDigits (Decimal.splitSign rest).2

def isDecimalLike (cs : List Char) : Bool :=
  let whole := cs.takeWhile isDecimalTail
  match cs.dropWhile isDecimalTail with
  | '.' :: rest =>
    let places := rest.takeWhile isDecimalTail
    isExponent (rest.dropWhile isDecimalTail) && (if whole.isEmpty then isDigits places else isDigits whole)
  | rest => isDigits whole && isExponent rest

def isNumberLike (text : List Char) : Bool :=
  let body := (Decimal.splitSign text).2
  let based (digit : Char → Bool) (rest : List Char) : Bool := !rest.isEmpty && rest.all fun c => digit c || c == '_'
  match body with
  | '0' :: 'x' :: rest => based (fun c => (Text.hexValue? c).isSome) rest
  | '0' :: 'o' :: rest => based (fun c => '0' ≤ c && c ≤ '7') rest
  | '0' :: 'b' :: rest => based (fun c => c == '0' || c == '1') rest
  | body => isDecimalLike body

-- A string is ambiguous when it would read as null, a truth value or a number.
-- More strings than these are unsafe where they stand.
def isAmbiguous (text : List Char) : Bool :=
  let word := Text.lowerWord text
  let unsigned := Text.lowerWord (Decimal.splitSign text).2
  isNullWord text || word == "true" || word == "false" || unsigned == ".nan" || unsigned == ".inf" || isNumberLike text

def isIndicator (c : Char) : Bool :=
  [',',':','[',']','{','}','#','&','*','!','|','>','\'','"','%','@','\x60'].contains c

def badStart : List Char → Bool
  | [] => false
  | c :: rest =>
    isAsciiSpace c || isIndicator c || ((c == '-' || c == '?') && (rest.head?.map isAsciiSpace).getD true)

def hasColonBlank : List Char → Bool
  | [] => false
  | ':' :: ' ' :: _ => true
  | _ :: rest => hasColonBlank rest

def endsInColon (text : List Char) : Bool := (Text.trimEnd text).getLast? == some ':'

def infinityLike (text : List Char) : Bool := ["nan","inf","+inf","-inf"].contains (Text.lowerWord text)

def readsOtherwise (text : List Char) : Bool :=
  isAmbiguous text || (bool? (Text.trim text)).isSome || infinityLike text

def isUnsafe (text : List Char) : Bool :=
  readsOtherwise text || badStart text || hasColonBlank text || endsInColon text ||
    text.any fun c => c == '#' || isControl c

def isPlainKey (key : List Char) : Bool :=
  !(readsOtherwise key || badStart key || key.any fun c => c == ':' || c == '#' || isFlow c || isControl c)

def escapeKey (c : Char) : List Char :=
  match c with
  | '\\' => ['\\','\\']
  | '"' => ['\\','"']
  | '\n' => ['\\','n']
  | '\r' => ['\\','r']
  | '\t' => ['\\','t']
  | c => if isControl c then '\\' :: 'u' :: Text.upperHexDigits 4 c.toNat else [c]

def escapeValue (c : Char) : List Char :=
  match c with
  | '\\' => ['\\','\\']
  | '"' => ['\\','"']
  | '\x00' => ['\\','0']
  | '\x07' => ['\\','a']
  | '\x08' => ['\\','b']
  | '\t' => ['\\','t']
  | '\n' => ['\\','n']
  | '\x0b' => ['\\','v']
  | '\x0c' => ['\\','f']
  | '\r' => ['\\','r']
  | '\x1b' => ['\\','e']
  | '\u0085' => ['\\','N']
  | '\u2028' => ['\\','L']
  | '\u2029' => ['\\','P']
  | '\uFEFF' => "\\uFEFF".toList
  | c => if isControl c then '\\' :: 'x' :: Text.upperHexDigits 2 c.toNat else [c]

def inQuotes (escape : Char → List Char) (text : List Char) : List Char := '"' :: text.flatMap escape ++ ['"']

def keyForm (key : List Char) : List Char := if isPlainKey key then key else inQuotes escapeKey key

end AutomationLint.Yaml

namespace AutomationLint.Yaml.Writer

def spaces (n : Nat) : List Char := List.replicate n ' '

def splitEnd (text : List Char) : List Char × Nat :=
  let reversed := text.reverse
  ((reversed.dropWhile (· == '\n')).reverse,(reversed.takeWhile (· == '\n')).length)

-- Literal lines need their indentation told where the first line with content
-- begins with a blank.
def needsDigit (lines : List (List Char)) : Bool :=
  ((lines.find? fun line => !line.isEmpty).bind List.head?) == some ' '

def literal? (text : List Char) (indent : Nat) : Option (List Char) :=
  let (content,ends) := splitEnd text
  let lines := Text.splitFeeds content
  let digit := if needsDigit lines then Nat.toDigits 10 indent else []
  if 1 < digit.length then none
  else
    let chomping := if ends = 0 then ['-'] else if ends = 1 then [] else ['+']
    let written := lines ++ List.replicate (ends - 1) []
    some ('|' :: digit ++ chomping ++ '\n' :: written.flatMap fun line => spaces indent ++ line ++ ['\n'])

def width : Nat := 80

-- A line being filled: what it holds, newest first, its count, and the last
-- blank run that a word followed: the line before the break (all but one of
-- the run's blanks kept), and how many characters came after the run.
structure Fill where
  newestFirst : List Char
  count : Nat
  fresh : Nat
  broken : Option (List Char)

def fold : List Char → Fill → List (List Char)
  | [], f => [f.newestFirst.reverse]
  | c :: rest, f =>
    let wordStarts := c != ' ' && f.newestFirst.head? == some ' '
    let f := if wordStarts then {f with broken := some (f.newestFirst.drop 1), fresh := 0} else f
    let f := {f with newestFirst := c :: f.newestFirst, count := f.count + 1, fresh := f.fresh + 1}
    if width < f.count then
      match f.broken with
      | some line => line.reverse :: fold rest ⟨f.newestFirst.take f.fresh,0,f.fresh,none⟩
      | none => [f.newestFirst.reverse ++ rest]
    else fold rest f

def folded (text : List Char) (indent : Nat) : List Char :=
  ">-\n".toList ++ (fold text ⟨[],0,0,none⟩).flatMap fun line => spaces indent ++ line ++ ['\n']

def oneLine (text : List Char) : List Char :=
  if text == ['.'] || text == ['#'] || text == ['-'] then '\'' :: text ++ ['\'']
  else if isUnsafe text then inQuotes escapeValue text
  else text

-- A text of several lines is judged by the line it would be without its
-- breaks.
def asOneLine (text : List Char) : List Char := (splitEnd text).1.map fun c => if c == '\n' then ' ' else c

def stringLines (text : List Char) (indent : Nat) : List Char :=
  let plainLine := oneLine text ++ ['\n']
  if text.contains '\n' then
    if width < text.length || !isUnsafe (asOneLine text) then (literal? text indent).getD plainLine else plainLine
  else if !isUnsafe text && width < text.length then folded text indent
  else plainLine

def number : Binary64.Form := ⟨true⟩

def leafLines (t : Tree) (indent : Nat) : List Char :=
  match t with
  | .str s => stringLines s.toList indent
  | .bool b => (if b then "true\n" else "false\n").toList
  | .int n => (toString n).toList ++ ['\n']
  | .float x => (x.text number).toList ++ ['\n']
  | .seq _ => "[]\n".toList
  | .map _ => "\x7b\x7d\n".toList
  | .null => "null\n".toList

def isBlock : Tree → Bool
  | .seq (_ :: _) | .map (_ :: _) => true
  | _ => false

-- An empty collection stays on its key's line, but not right below a sibling
-- in block style.
def emptyField (afterBlock : Bool) (column : Nat) (t : Tree) : List Char :=
  (if afterBlock then '\n' :: spaces (column + 2) else [' ']) ++ leafLines t (column + 2)

mutual
def inline (column : Nat) : Tree → List Char
  | .seq (t :: rest) => '-' :: ' ' :: inline (column + 2) t ++ items column rest
  | .map ((name,t) :: rest) =>
    keyForm name.toList ++ ':' :: field column false t ++ fields column (isBlock t) rest
  | t => leafLines t column

def items (column : Nat) : List Tree → List Char
  | [] => []
  | t :: rest => spaces column ++ '-' :: ' ' :: inline (column + 2) t ++ items column rest

def fields (column : Nat) (afterBlock : Bool) : List (String × Tree) → List Char
  | [] => []
  | (name,t) :: rest =>
    spaces column ++ keyForm name.toList ++ ':' :: field column afterBlock t ++ fields column (isBlock t) rest

def field (column : Nat) (afterBlock : Bool) : Tree → List Char
  | .seq (t :: rest) =>
    '\n' :: spaces (column + 2) ++ '-' :: ' ' :: inline (column + 4) t ++ items (column + 2) rest
  | .map ((name,t) :: rest) =>
    '\n' :: spaces (column + 2) ++ keyForm name.toList ++ ':' :: field (column + 2) false t ++
      fields (column + 2) (isBlock t) rest
  | .seq [] => emptyField afterBlock column (.seq [])
  | .map [] => emptyField afterBlock column (.map [])
  | t => ' ' :: leafLines t (column + 2)
end

def document (t : Tree) : List Char :=
  match t with
  | .seq (_ :: _) | .map (_ :: _) => inline 0 t
  | t => leafLines t 2

end Writer

def write (t : Tree) : String := String.ofList (Writer.document t)

end AutomationLint.Yaml
