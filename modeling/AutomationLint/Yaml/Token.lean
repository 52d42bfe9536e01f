import AutomationLint.Text.Utf8
import AutomationLint.Yaml.Cursor

namespace AutomationLint.Yaml

inductive ScalarStyle where
  | plain | quoted | literal | folded
  deriving DecidableEq

-- Block structure is shown by indentation alone in the text and by start and
-- end tokens here. A key token stands before every key, also where the text
-- marks a key only by the colon after it.
inductive TokenKind where
  | blockSequenceStart | blockMappingStart | blockEnd
  | flowSequenceStart | flowSequenceEnd
  | flowMappingStart | flowMappingEnd
  | blockEntry | flowEntry
  | key | value
  | alias (name : List Char)
  | anchor (name : List Char)
  | tag (handle suffix : List Char)
  | scalar (style : ScalarStyle) (text : List Char)
  | version
  -- A tag handle, and what tags with it begin with.
  | handle (name stem : List Char)
  | documentStart | documentEnd
  | streamEnd
  deriving DecidableEq

structure Token where
  kind : TokenKind
  pos : Position
  deriving DecidableEq

end AutomationLint.Yaml

namespace AutomationLint.Yaml.Uri

def byte? : List Char → Option (Nat × List Char)
  | '%' :: a :: b :: rest => do some (16 * (← Text.hexValue? a) + (← Text.hexValue? b),rest)
  | _ => none

def furtherBytes : Nat → Nat → List Char → Except Cause (Nat × List Char)
  | 0, n, cs => .ok (n,cs)
  | k + 1, n, cs =>
    match byte? cs with
    | none => .error .tagEscape
    | some (b,rest) => if b / 64 = 2 then furtherBytes k (n * 256 + b) rest else .error .tagNextByte

def escaped (cs : List Char) : Except Cause (Char × List Char) :=
  match byte? cs with
  | none => .error .tagEscape
  | some (b,rest) =>
    match Text.leadByte? b with
    | none => .error .tagLeadByte
    | some (further,_,_) =>
      match furtherBytes further b rest with
      | .error cause => .error cause
      | .ok (n,rest) =>
        match Text.char? n with
        | some c => .ok (c,rest)
        | none => .error .tagCodePoint

def character (c : Char) (rest : List Char) : Except Cause (Char × List Char) :=
  if c == '%' then escaped (c :: rest) else .ok (c,rest)

def read (cls : Char → Bool) : Nat → List Char → Except Cause (List Char × List Char)
  | 0, cs => .ok ([],cs)
  | _ + 1, [] => .ok ([],[])
  | fuel + 1, c :: rest =>
    if !cls c then .ok ([],c :: rest)
    else match character c rest with
      | .error cause => .error cause
      | .ok (c,rest) => (read cls fuel rest).map fun (cs,rest) => (c :: cs,rest)

end AutomationLint.Yaml.Uri

namespace AutomationLint.Yaml.Directive

def skipInline (c : Cursor) : Cursor := c.skipWhile isBlank

def versionNumber (start : Position) (c : Cursor) : Except Fault Cursor :=
  let digits := c.rest.takeWhile Char.isDigit
  if digits.isEmpty then .error ⟨.versionNumber,start⟩
  else if 9 < digits.length then .error ⟨.versionLength,start⟩
  else .ok (c.skip digits.length)

def version (start : Position) (c : Cursor) : Except Fault (TokenKind × Cursor) := do
  let c ← versionNumber start (skipInline c)
  if c.peek != some '.' then .error ⟨.versionPoint,start⟩
  else .ok (.version,← versionNumber start (c.skip 1))

def skipTo (c : Cursor) (rest : List Char) : Cursor := c.skip (c.rest.length - rest.length)

def handleName (start : Position) (c : Cursor) : Except Fault (List Char × Cursor) :=
  if c.peek != some '!' then .error ⟨.handleStart,start⟩
  else
    let word := (c.skip 1).rest.takeWhile isWordChar
    let after := c.skip (1 + word.length)
    if after.peek == some '!' then .ok ('!' :: word ++ ['!'],after.skip 1)
    else if word.isEmpty then .ok (['!'],after)
    else .error ⟨.handleEnd,start⟩

def handleStem (start : Position) (c : Cursor) : Except Fault (List Char × Cursor) :=
  let first : Except Cause (List Char × List Char) := match c.rest with
    | '!' :: rest => .ok (['!'],rest)
    | ch :: rest =>
      if isTagChar ch then (Uri.character ch rest).map fun (ch,rest) => ([ch],rest) else .error .handlePrefix
    | [] => .error .handlePrefix
  match first with
  | .error cause => .error ⟨cause,start⟩
  | .ok (first,rest) =>
    match Uri.read isUriChar rest.length rest with
    | .error cause => .error ⟨cause,start⟩
    | .ok (more,rest) =>
      if endsWord rest.head? then .ok (first ++ more,skipTo c rest) else .error ⟨.handlePrefixEnd,start⟩

def handle (start : Position) (c : Cursor) : Except Fault (TokenKind × Cursor) := do
  let (name,c) ← handleName start (skipInline c)
  let (stem,c) ← handleStem start (skipInline c)
  .ok (.handle name stem,c)

def body (start : Position) (name : List Char) (c : Cursor) : Except Fault (TokenKind × Cursor) :=
  if name == "YAML".toList then version start c
  else if name == "TAG".toList then handle start c
  else .ok (.handle [] [],c.skipComment)

-- A directive of another name declares an empty handle, which no tag uses.
def read (cur : Cursor) : Except Fault (TokenKind × Cursor) :=
  let start := cur.pos
  let own := cur.skip 1
  let name := own.rest.takeWhile isWordChar
  let after := own.skip name.length
  if name.isEmpty then .error ⟨.directiveName,own.pos⟩
  else if !endsWord after.peek then .error ⟨.directiveNameEnd,own.pos⟩
  else match body start name after with
    | .error f => .error f
    | .ok (kind,c) =>
      match c.skipBlanks true with
      | .error f => .error f
      | .ok b => if b.cur.atLineEnd then .ok (kind,b.cur.skipBreak) else .error ⟨.directiveEnd,start⟩

end AutomationLint.Yaml.Directive
