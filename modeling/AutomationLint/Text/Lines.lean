namespace AutomationLint.Text

-- The Unicode property White_Space. It is wider than the blanks of the
-- document format: a no-break space is trimmed here and is ordinary text
-- there.
def isWhite (c : Char) : Bool :=
  let n := c.toNat
  (9 ≤ n && n ≤ 13) || n == 0x20 || n == 0x85 || n == 0xA0 || n == 0x1680 ||
    (0x2000 ≤ n && n ≤ 0x200A) || n == 0x2028 || n == 0x2029 || n == 0x202F || n == 0x205F || n == 0x3000

def trimStart (cs : List Char) : List Char := cs.dropWhile isWhite

def trimEnd (cs : List Char) : List Char := (cs.reverse.dropWhile isWhite).reverse

def trim (cs : List Char) : List Char := trimEnd (trimStart cs)

def isBlank (cs : List Char) : Bool := cs.all isWhite

def lowerWord (cs : List Char) : String := String.ofList (cs.map Char.toLower)

def isDirectionMark (c : Char) : Bool :=
  let n := c.toNat
  (0x202A ≤ n && n ≤ 0x202E) || (0x2066 ≤ n && n ≤ 0x2069)

-- Controls are shown by their pictures, which stand in the same order, and a
-- tab by four blanks. Marks that turn the direction of writing are replaced; a
-- line feed stays, since it ends the line.
def visibleChar (c : Char) : List Char :=
  if c == '\t' then [' ',' ',' ',' ']
  else if c == '\n' then [c]
  else if c.toNat < 0x20 then [Char.ofNat (0x2400 + c.toNat)]
  else if c == '\x7f' then ['\u2421']
  else if c == '\u200d' then []
  else if isDirectionMark c then ['\uFFFD']
  else [c]

def visible (cs : List Char) : List Char := cs.flatMap visibleChar

-- A line is ended by a line feed, alone or after one carriage return. A last
-- line without a line feed counts when it is not empty, and then keeps a
-- carriage return at its end.
def lines : List Char → List (List Char)
  | [] => []
  | '\n' :: rest => [] :: lines rest
  | '\r' :: '\n' :: rest => [] :: lines rest
  | c :: rest =>
    match lines rest with
    | [] => [[c]]
    | line :: later => (c :: line) :: later

def splitFeeds : List Char → List (List Char)
  | [] => [[]]
  | '\n' :: rest => [] :: splitFeeds rest
  | c :: rest =>
    match splitFeeds rest with
    | [] => [[c]]
    | piece :: later => (c :: piece) :: later

def joinLines : List (List Char) → List Char
  | [] => []
  | [line] => line
  | line :: later => line ++ '\n' :: joinLines later

def ended (lines : List (List Char)) : List Char := lines.flatMap fun line => line ++ ['\n']

end AutomationLint.Text
