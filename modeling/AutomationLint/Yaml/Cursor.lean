namespace AutomationLint.Yaml

def isBreak (c : Char) : Bool := c == '\n' || c == '\r'

def isBlank (c : Char) : Bool := c == ' ' || c == '\t'

def isFlow (c : Char) : Bool := c == ',' || c == '[' || c == ']' || c == '{' || c == '}'

def endsLine : Option Char → Bool
  | none => true
  | some c => isBreak c

def endsWord : Option Char → Bool
  | none => true
  | some c => isBlank c || isBreak c

def flowNext : Option Char → Bool
  | none => false
  | some c => isFlow c

def isWordChar (c : Char) : Bool := c.isAlphanum || c == '_' || c == '-'

def isUriChar (c : Char) : Bool := isWordChar c || "#;/?:@&=+$,.!~*'()[]%".toList.contains c

def isTagChar (c : Char) : Bool := isUriChar c && !isFlow c && c != '!'

def isAnchorChar (c : Char) : Bool := !(isBlank c || isBreak c || isFlow c || c == '\uFEFF')

def isDocumentStart : List Char → Bool
  | '-' :: '-' :: '-' :: rest => endsWord rest.head?
  | _ => false

def isDocumentEnd : List Char → Bool
  | '.' :: '.' :: '.' :: rest => endsWord rest.head?
  | _ => false

def isDocumentMarker (cs : List Char) : Bool := isDocumentStart cs || isDocumentEnd cs

def plainGoesOn (inFlow : Bool) : List Char → Bool
  | [] => true
  | ':' :: rest => !(endsWord rest.head? || (inFlow && flowNext rest.head?))
  | c :: _ => !(inFlow && isFlow c)

-- Lines and columns are counted from zero here, and the offset counts
-- characters.
structure Position where
  line : Nat
  column : Nat
  offset : Nat
  deriving DecidableEq

structure Cursor where
  rest : List Char
  pos : Position
  deriving DecidableEq

namespace Cursor

def start (text : List Char) : Cursor := ⟨text,⟨0,0,0⟩⟩

def peek (c : Cursor) : Option Char := c.rest.head?

def next (c : Cursor) : Option Char := c.rest.tail.head?

def column (c : Cursor) : Nat := c.pos.column

def skip (c : Cursor) (n : Nat) : Cursor :=
  ⟨c.rest.drop n,{c.pos with column := c.pos.column + n, offset := c.pos.offset + n}⟩

def skipWhile (c : Cursor) (p : Char → Bool) : Cursor := c.skip (c.rest.takeWhile p).length

def skipBreak (c : Cursor) : Cursor :=
  match c.rest with
  | '\r' :: '\n' :: rest => ⟨rest,⟨c.pos.line + 1,0,c.pos.offset + 2⟩⟩
  | '\r' :: rest | '\n' :: rest => ⟨rest,⟨c.pos.line + 1,0,c.pos.offset + 1⟩⟩
  | _ => c

def atEnd (c : Cursor) : Bool := c.rest.isEmpty

def atBreak (c : Cursor) : Bool := (c.peek.map isBreak).getD false

def atBlank (c : Cursor) : Bool := (c.peek.map isBlank).getD false

def atLineEnd (c : Cursor) : Bool := endsLine c.peek

def atDocumentMarker (c : Cursor) : Bool := c.column == 0 && isDocumentMarker c.rest

def skipComment (c : Cursor) : Cursor := c.skipWhile fun ch => !isBreak ch

end Cursor

inductive Collection where
  | flowSequence | flowMapping | flowPair | blockSequence | blockMapping
  deriving DecidableEq

-- Why a body is refused. The wording of every cause stands below and nowhere
-- else.
inductive Cause where
  -- brackets
  | unclosedBracket (opener : Char)
  | misplacedBracket
  | tooDeep
  -- indentation and blanks
  | indentation
  | anchorIndentation
  | quotedIndentation
  | flowIndentation
  | tabIndentation
  | tabInQuoted
  | tabInPlain
  | tabAfterKey
  | tabAfterValue
  | tabAfterDash
  | tabInBlockScalar
  | whitespaceExpected
  | commentSeparation
  -- keys, values and entries
  | keyNotClosed
  | keyExpected
  | valueNotAllowed
  | keyNotAllowed
  | entryNotAllowed
  | entryInFlow
  | valueBeforeBracket
  | valuePlacement
  -- scalars
  | unclosedQuote
  | markerInQuoted
  | contentAfterQuoted
  | unknownEscape
  | hexDigitExpected
  | badCodePoint
  | dashBeforeFlow
  | emptyPlain
  | commentInPlain
  | unexpectedChar (c : Char)
  | blockHeader
  | zeroIndicator
  | blockLineIndentation
  | foldedNotIndented
  -- properties
  | anchorName
  | tagEnd
  | tagEscape
  | tagLeadByte
  | tagNextByte
  | tagCodePoint
  | unknownHandle
  | unknownAnchor
  | recursiveAlias
  -- directives and markers
  | directiveName
  | directiveNameEnd
  | directiveEnd
  | versionNumber
  | versionLength
  | versionPoint
  | handleStart
  | handleEnd
  | handlePrefix
  | handlePrefixEnd
  | versionTwice
  | handleTwice
  | startExpected
  | markerBeforeDirective
  | contentAfterMarker
  -- tokens
  | flowSequenceEnd
  | flowMappingEnd
  | blockKey
  | blockEntry
  | nodeExpected (within : Option Collection)
  -- values
  | taggedScalar
  | binaryBase64
  | binaryUtf8
  | nullKey
  | collectionKey
  -- The key is named only where its tag lets it be text.
  | duplicateKey (key : Option String)
  | mergeValue
  | severalDocuments
  deriving DecidableEq

structure Fault where
  cause : Cause
  pos : Position
  deriving DecidableEq

def Collection.words : Collection → String
  | .flowSequence => "a flow sequence"
  | .flowMapping => "a flow mapping"
  | .flowPair => "an implicit flow mapping"
  | .blockSequence => "a block sequence"
  | .blockMapping => "a block mapping"

def Cause.message : Cause → String
  | .unclosedBracket opener => "unclosed bracket '" ++ toString opener ++ "'"
  | .misplacedBracket => "misplaced bracket"
  | .tooDeep => "recursion limit exceeded"
  | .indentation => "invalid indentation"
  | .anchorIndentation => "invalid indentation for anchor"
  | .quotedIndentation => "invalid indentation in multiline quoted scalar"
  | .flowIndentation => "invalid indentation in flow construct"
  | .tabIndentation => "tabs disallowed within this context (block indentation)"
  | .tabInQuoted => "tab cannot be used as indentation"
  | .tabInPlain => "while scanning a plain scalar, found a tab"
  | .tabAfterKey => "tabs disallowed in this context"
  | .tabAfterValue => "':' must be followed by a valid YAML whitespace"
  | .tabAfterDash => "'-' must be followed by a valid YAML whitespace"
  | .tabInBlockScalar => "a block scalar content cannot start with a tab"
  | .whitespaceExpected => "expected whitespace"
  | .commentSeparation => "comments must be separated from other tokens by whitespace"
  | .keyNotClosed => "simple key expect ':'"
  | .keyExpected => "simple key expected"
  | .valueNotAllowed => "mapping values are not allowed in this context"
  | .keyNotAllowed => "mapping keys are not allowed in this context"
  | .entryNotAllowed => "block sequence entries are not allowed in this context"
  | .entryInFlow => "\"-\" is only valid inside a block"
  | .valueBeforeBracket => "':' may not precede any of `[\x7b` in flow mapping"
  | .valuePlacement => "illegal placement of ':' indicator"
  | .unclosedQuote => "unclosed quote"
  | .markerInQuoted => "while scanning a quoted scalar, found unexpected document indicator"
  | .contentAfterQuoted => "invalid trailing content after double-quoted scalar"
  | .unknownEscape => "while parsing a quoted scalar, found unknown escape character"
  | .hexDigitExpected => "while parsing a quoted scalar, did not find expected hexadecimal number"
  | .badCodePoint => "while parsing a quoted scalar, found invalid Unicode character escape code"
  | .dashBeforeFlow => "plain scalar cannot start with '-' followed by ,[]\x7b\x7d"
  | .emptyPlain => "unexpected end of plain scalar"
  | .commentInPlain => "comment intercepting the multiline text"
  | .unexpectedChar c => "unexpected character: `" ++ toString c ++ "'"
  | .blockHeader => "while scanning a block scalar, did not find expected comment or line break"
  | .zeroIndicator => "while scanning a block scalar, found an indentation indicator equal to 0"
  | .blockLineIndentation => "wrongly indented line in block scalar"
  | .foldedNotIndented => "folded block scalars must indent their content"
  | .anchorName => "while scanning an anchor or alias, did not find expected alphabetic or numeric character"
  | .tagEnd => "while scanning a tag, did not find expected whitespace or line break"
  | .tagEscape => "while parsing a tag, found an invalid escape sequence"
  | .tagLeadByte => "while parsing a tag, found an incorrect leading UTF-8 byte"
  | .tagNextByte => "while parsing a tag, found an incorrect trailing UTF-8 byte"
  | .tagCodePoint => "while parsing a tag, found an invalid UTF-8 codepoint"
  | .unknownHandle => "the handle wasn't declared"
  | .unknownAnchor => "alias references unknown anchor"
  | .recursiveAlias => "recursive references require weak recursion types"
  | .directiveName => "while scanning a directive, could not find expected directive name"
  | .directiveNameEnd => "while scanning a directive, found unexpected non-alphabetical character"
  | .directiveEnd => "while scanning a directive, did not find expected comment or line break"
  | .versionNumber => "while scanning a YAML directive, did not find expected version number"
  | .versionLength => "while scanning a YAML directive, found extremely long version number"
  | .versionPoint => "while scanning a YAML directive, did not find expected digit or '.' character"
  | .handleStart => "while scanning a tag, did not find expected '!'"
  | .handleEnd => "while parsing a tag directive, did not find expected '!'"
  | .handlePrefix => "invalid global tag character"
  | .handlePrefixEnd => "while scanning TAG, did not find expected whitespace or line break"
  | .versionTwice => "duplicate version directive"
  | .handleTwice => "the TAG directive must only be given at most once per handle in the same document"
  | .startExpected => "did not find expected <document start>"
  | .markerBeforeDirective => "missing explicit document end marker before directive"
  | .contentAfterMarker => "invalid content after document end marker"
  | .flowSequenceEnd => "while parsing a flow sequence, expected ',' or ']'"
  | .flowMappingEnd => "while parsing a flow mapping, did not find expected ',' or '\x7d'"
  | .blockKey => "while parsing a block mapping, did not find expected key"
  | .blockEntry => "while parsing a block collection, did not find expected '-' indicator"
  | .nodeExpected (some within) => "unexpected EOF while parsing " ++ within.words
  | .nodeExpected none => "while parsing a node, did not find expected node content"
  | .taggedScalar => "cannot deserialize tagged scalar into string"
  | .binaryBase64 => "invalid !!binary base64"
  | .binaryUtf8 => "!!binary scalar is not valid UTF-8 so cannot be stored into string. If you just use " ++
      "!!binary for documentation/annotation, set ignore_binary_tag_for_string in Options"
  | .nullKey => "cannot deserialize null into string; use Option<String>"
  | .collectionKey => "unexpected event: expected string scalar"
  | .duplicateKey key => "duplicate mapping key" ++ (key.map (": " ++ ·)).getD "" ++
      ", set DuplicateKeyPolicy in Options if acceptable"
  | .mergeValue => "YAML merge value must be mapping or sequence of mappings"
  | .severalDocuments => "multiple YAML documents detected; use from_multiple or from_multiple_with_options"

structure Blanks where
  cur : Cursor
  space : Bool
  tab : Bool

-- A comment is set off from what stands before it by a blank; without one it
-- is a fault, and never text.
def Cursor.skipBlanks (c : Cursor) (tabs : Bool) : Except Fault Blanks :=
  let run := c.rest.takeWhile fun ch => ch == ' ' || (tabs && ch == '\t')
  let after := c.skip run.length
  if after.peek == some '#' then
    if run.isEmpty then .error ⟨.commentSeparation,after.pos⟩
    else .ok ⟨after.skipComment,run.contains ' ',run.contains '\t'⟩
  else .ok ⟨after,run.contains ' ',run.contains '\t'⟩

end AutomationLint.Yaml
