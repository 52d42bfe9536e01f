import AutomationLint.Yaml.Scalar

namespace AutomationLint.Yaml

-- A key may turn out to be one only at the colon behind it, so the place of
-- the last possible key of every bracket level is kept, and tokens from the
-- first such place on are held back until it is settled. A required key stands
-- where a block mapping can only go on with one.
structure PendingKey where
  possible : Bool
  required : Bool
  -- How many tokens stand before it.
  number : Nat
  pos : Position

def PendingKey.none : PendingKey := ⟨false,false,0,⟨0,0,0⟩⟩

structure Indent where
  outer : Int
  block : Bool

structure Bracket where
  opener : Char
  pos : Position
  key : PendingKey

structure Scan where
  -- Steps enough for the whole text.
  steps : Nat
  cur : Cursor
  newestFirst : List Token
  count : Nat
  released : Nat
  key : PendingKey
  keyAllowed : Bool
  indent : Int
  indents : List Indent
  -- Innermost first.
  brackets : List Bracket
  -- For every open sequence bracket, whether a pair without braces has begun in it.
  pairs : List Bool
  -- A mapping was opened in brackets since the last such pair ended.
  inBraces : Bool
  -- Only blanks so far on this line.
  lineStart : Bool
  -- The offset where a colon may follow a key without a blank behind it.
  adjacentAt : Nat
  comment : Option Position

namespace Scan

def start (text : List Char) : Scan :=
  ⟨text.length + 1,.start text,[],0,0,.none,true,-1,[],[],[],false,true,0,none⟩

def level (s : Scan) : Nat := s.brackets.length

def inFlow (s : Scan) : Bool := !s.brackets.isEmpty

def pos (s : Scan) : Position := s.cur.pos

def column (s : Scan) : Int := s.cur.column

def fail (s : Scan) (cause : Cause) : Except Fault α := .error ⟨cause,s.pos⟩

def emit (s : Scan) (kind : TokenKind) (pos : Position) : Scan :=
  {s with newestFirst := ⟨kind,pos⟩ :: s.newestFirst, count := s.count + 1}

def insert (s : Scan) (number : Nat) (kind : TokenKind) (pos : Position) : Scan :=
  let later := s.count - number
  {s with
    newestFirst := s.newestFirst.take later ++ ⟨kind,pos⟩ :: s.newestFirst.drop later
    count := s.count + 1}

def skip (s : Scan) (n : Nat) : Scan := {s with cur := s.cur.skip n, lineStart := false}

def skipBlanks (s : Scan) (tabs : Bool) : Except Fault (Scan × Blanks) :=
  match s.cur.skipBlanks tabs with
  | .error f => .error f
  | .ok b => .ok ({s with cur := b.cur},b)

def allowKey (s : Scan) (allowed : Bool) : Scan := {s with keyAllowed := allowed}

def newLine (s : Scan) : Scan :=
  {s with cur := s.cur.skipBreak, lineStart := true, keyAllowed := s.keyAllowed || !s.inFlow}

def inBlock (s : Scan) : Bool := (s.indents.head?.map (·.block)).getD false

def noteKey (s : Scan) : Scan :=
  if s.keyAllowed then
    {s with key := ⟨true,!s.inFlow && s.indent == s.column && s.inBlock,s.count,s.pos⟩}
  else s

def dropKey (s : Scan) : Except Fault Scan :=
  if s.key.possible && s.key.required then s.fail .keyExpected
  else .ok {s with key := {s.key with possible := false}}

def expireKey (s : Scan) : Except Fault Scan :=
  if !s.inFlow && s.key.possible && (s.key.pos.line < s.pos.line || s.key.pos.offset + 1024 < s.pos.offset) then
    if s.key.required then s.fail .keyNotClosed else .ok {s with key := {s.key with possible := false}}
  else .ok s

def firstPossible (otherwise : Nat) (keys : List PendingKey) : Nat :=
  keys.foldl (fun least k => if k.possible then min least k.number else least) otherwise

def release (s : Scan) : Scan :=
  {s with released := max s.released (firstPossible s.count (s.key :: s.brackets.map (·.key)))}

def dedentThrough (column : Int) : List Indent → Scan → Scan
  | [], s => s
  | top :: rest, s =>
    if column < s.indent then
      let s := {s with indent := top.outer, indents := rest}
      dedentThrough column rest (if top.block then s.emit .blockEnd s.pos else s)
    else s

def dedent (s : Scan) (column : Int) : Scan := if s.inFlow then s else dedentThrough column s.indents s

def leaveThrough : List Indent → Scan → Scan
  | [], s => s
  | top :: rest, s => if top.block then s else leaveThrough rest {s with indent := top.outer, indents := rest}

def leaveNonBlock (s : Scan) : Scan := leaveThrough s.indents s

-- A deeper column opens a block; its start token goes before the tokens of its
-- first key.
def indentTo (s : Scan) (column : Int) (number : Nat) (kind : TokenKind) (pos : Position) : Scan :=
  if s.inFlow then s
  else
    let s := match s.indents with
      | top :: rest =>
        if s.indent ≤ column && !top.block then {s with indent := top.outer, indents := rest} else s
      | [] => s
    if s.indent < column then
      {s.insert number kind pos with indent := column, indents := ⟨s.indent,true⟩ :: s.indents}
    else s

def indentPast (s : Scan) : Scan :=
  if !s.inFlow && s.inBlock then {s with indent := s.indent + 1, indents := ⟨s.indent,false⟩ :: s.indents} else s

-- A comma or a closing bracket ends the pair of the innermost sequence,
-- whatever braces stand between them.
def endPair (s : Scan) : Scan :=
  match s.pairs with
  | true :: rest => {s.emit .flowMappingEnd s.pos with inBraces := false, pairs := false :: rest}
  | _ => s

end Scan

end AutomationLint.Yaml
