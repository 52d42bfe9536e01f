import AutomationLint.Diagnostic
import AutomationLint.Text.Lines
import AutomationLint.Tree

namespace AutomationLint

structure ReaderFault where
  report : List Char
  place : Option (Nat × Nat)

abbrev BodyReader := List Char → Except ReaderFault (Option Tree)

def stripStart? (start text : List Char) : Option (List Char) :=
  match start, text with
  | [], rest => some rest
  | a :: start, b :: text => if a == b then stripStart? start text else none
  | _ :: _, [] => none

theorem stripStart?_eq_some (start text rest : List Char) :
    stripStart? start text = some rest ↔ text = start ++ rest := by
  induction start generalizing text with
  | nil => simp [stripStart?]
  | cons a start ih =>
    cases text with
    | nil => simp [stripStart?]
    | cons b text =>
      by_cases same : a = b
      · simp [stripStart?,same,ih]
      · simp [stripStart?,same,Ne.symm same]

def splitColon? : List Char → Option (List Char × List Char)
  | [] => none
  | ':' :: ' ' :: rest => some ([],rest)
  | c :: rest => (splitColon? rest).map fun (before,after) => (c :: before,after)

-- A report may open with `error:` and with its place in the text, and may go
-- on with an excerpt on further lines; what remains is the message alone, on
-- one line.
def headline (report : List Char) : List Char :=
  let first := Text.trim ((Text.lines report).headD [])
  let first := match stripStart? "error:".toList first with
    | some rest => Text.trimStart rest
    | none => first
  match splitColon? first with
  | some (place,message) => if (stripStart? "line ".toList place).isSome then message else first
  | none => first

namespace Stream

abbrev Line := List Char

def isMarker (marker : List Char) (line : Line) : Bool :=
  match stripStart? marker line with
  | some [] => true
  | some (c :: _) => Text.isWhite c
  | none => false

def isStart (line : Line) : Bool := isMarker ['-','-','-'] line
def isStop (line : Line) : Bool := isMarker ['.','.','.'] line

-- A line that starts with `---` or `...`, and then ends or goes on with white
-- space, cuts the stream, wherever it stands: also inside a scalar. What lies
-- between two cuts is a section; its lines are those of the stream, apart from
-- the opening marker.
structure Section where
  firstLine : Nat
  -- Opened by a start marker; then it is a document even without content.
  explicit : Bool
  lines : List Line
  deriving DecidableEq

def blankMarker (line : Line) : Line := [' ',' ',' '] ++ line.drop 3

-- What one line does: the sections it closes, and the section at hand after
-- it. A start line belongs to the section it opens; a stop line belongs to
-- none.
def step (current : Section) (number : Nat) (line : Line) : List Section × Section :=
  if isStart line then ([current],⟨number,true,[blankMarker line]⟩)
  else if isStop line then ([current],⟨number + 1,false,[]⟩)
  else ([],{current with lines := current.lines ++ [line]})

def cut (current : Section) (number : Nat) : List Line → List Section
  | [] => [current]
  | line :: rest =>
    let (closed,next) := step current number line
    closed ++ cut next (number + 1) rest

def sections (text : List Char) : List Section := cut ⟨0,false,[]⟩ 0 (Text.lines text)

namespace Section

-- A section is a text of its own and is read by lines again: a further
-- carriage return before a line feed goes too.
def text (s : Section) : List Char := Text.ended s.lines

def rows (s : Section) : List Line := Text.lines s.text

def isDirective (line : Line) : Bool := line.head? == some '%'

def isContent (line : Line) : Bool :=
  !(Text.isBlank line || (Text.trim line).head? == some '#' || isDirective line)

def hasContent (s : Section) : Bool := s.rows.any isContent

def isDocument (s : Section) : Bool := s.explicit || s.hasContent

def bodyLines (s : Section) : List Line := s.rows.map fun line => if isDirective line then [] else line

def body (s : Section) : List Char := Text.joinLines s.bodyLines

def parseError (s : Section) (fault : ReaderFault) : ParseError :=
  let e := ParseError.new (String.ofList (headline fault.report))
  match fault.place with
  | some (line,column) => e.markedAt ⟨line - 1 + s.firstLine,column - 1⟩
  | none => e

def value (read : BodyReader) (s : Section) : Except ParseError Tree :=
  if s.hasContent then
    match read s.body with
    | .ok t => .ok (t.getD .null)
    | .error fault => .error (s.parseError fault)
  else .ok .null

end Section

def values (read : BodyReader) : List Section → Except ParseError (List Tree)
  | [] => .ok []
  | s :: rest =>
    match s.value read with
    | .error e => .error e
    | .ok t =>
      match values read rest with
      | .error e => .error e
      | .ok ts => .ok (t :: ts)

def documents (read : BodyReader) (text : List Char) : Except ParseError (List Tree) :=
  values read ((sections text).filter Section.isDocument)

def selectRoot : List Tree → Option Tree
  | [] => none
  | [t] => some t
  | ts => some (.seq ts)

end Stream

end AutomationLint
