import AutomationLint.Yaml.Scan
import AutomationLint.Yaml.Token

namespace AutomationLint.Yaml

namespace Scan

def skipToToken : Nat → Scan → Except Fault Scan
  | 0, s => .ok s
  | fuel + 1, s =>
    match s.cur.peek with
    | none => .ok s
    | some c =>
      if isBreak c then skipToToken fuel s.newLine
      else if c == '\t' && !s.indents.isEmpty && s.lineStart && s.column < s.indent then
        match s.skipBlanks true with
        | .error f => .error f
        | .ok (s,_) => if s.cur.atLineEnd then skipToToken fuel s else s.fail .tabIndentation
      else if isBlank c then skipToToken fuel {s with cur := s.cur.skip 1}
      else if c == '#' then skipToToken fuel {s with cur := s.cur.skipComment}
      else .ok s

-- A line right below a comment that cut off a plain scalar must not look like
-- more of it.
def checkComment (s : Scan) : Except Fault Scan :=
  match s.comment with
  | none => .ok s
  | some place =>
    if !s.inFlow && s.pos.line == place.line + 1 && s.indent < s.column && !s.cur.atEnd &&
        !isDocumentMarker s.cur.rest && plainGoesOn false s.cur.rest then
      .error ⟨.commentInPlain,place⟩
    else .ok {s with comment := none}

def toNextToken (s : Scan) : Except Fault Scan :=
  match skipToToken s.steps s with
  | .error f => .error f
  | .ok s => checkComment s

def openBracket (s : Scan) (opener : Char) : Except Fault Scan :=
  let start := s.pos
  let s := s.noteKey.indentPast
  if s.level = 255 then s.fail .tooDeep
  else
    let s := {s with brackets := ⟨opener,start,s.key⟩ :: s.brackets, key := .none, keyAllowed := true}
    let s := if opener == '{' then {s with inBraces := true} else {s with pairs := false :: s.pairs}
    match (s.skip 1).skipBlanks true with
    | .error f => .error f
    | .ok (s,_) => .ok (s.emit (if opener == '{' then .flowMappingStart else .flowSequenceStart) start)

def closeBracket (s : Scan) (closer : Char) : Except Fault Scan :=
  match s.brackets with
  | [] => s.fail .misplacedBracket
  | top :: outer =>
    match s.dropKey with
    | .error f => .error f
    | .ok s =>
      let s := if closer == ']' then let s := s.endPair; {s with pairs := s.pairs.tail} else s
      let start := s.pos
      let s := {s with brackets := outer, key := top.key, keyAllowed := false}
      match (s.skip 1).skipBlanks true with
      | .error f => .error f
      | .ok (s,_) =>
        let s := if s.inFlow then {s with adjacentAt := s.pos.offset} else s
        .ok (s.emit (if closer == '}' then .flowMappingEnd else .flowSequenceEnd) start)

def comma (s : Scan) : Except Fault Scan :=
  match s.dropKey with
  | .error f => .error f
  | .ok s =>
    let s := (s.allowKey true).endPair
    let start := s.pos
    match (s.skip 1).skipBlanks true with
    | .error f => .error f
    | .ok (s,_) => .ok (s.emit .flowEntry start)

def misplacedProperty (s : Scan) : Option Position :=
  match s.newestFirst with
  | ⟨.anchor _,pos⟩ :: _ | ⟨.tag _ _,pos⟩ :: _ =>
    if s.released < s.count && s.column == 0 && pos.column == 0 && -1 < s.indent then some pos else none
  | _ => none

def dash (s : Scan) : Except Fault Scan :=
  if s.inFlow then s.fail .entryInFlow
  else if !s.keyAllowed then s.fail .entryNotAllowed
  else match s.misplacedProperty with
    | some pos => .error ⟨.anchorIndentation,pos⟩
    | none =>
      let start := s.pos
      let s := (s.skip 1).indentTo start.column s.count .blockSequenceStart start
      match s.skipBlanks true with
      | .error f => .error f
      | .ok (s,blanks) =>
        if blanks.tab && s.cur.peek == some '-' && endsWord s.cur.next then s.fail .tabAfterDash
        else
          let s := if s.cur.atBreak || flowNext s.cur.peek then s.indentPast else s
          match s.dropKey with
          | .error f => .error f
          | .ok s => .ok ((s.allowKey true).emit .blockEntry s.pos)

def skipKeyBlanks : Nat → Bool → Scan → Except Fault Scan
  | 0, _, s => .ok s
  | fuel + 1, needed, s =>
    match s.cur.peek with
    | some ' ' => skipKeyBlanks fuel false {s with cur := s.cur.skip 1}
    | some '\n' | some '\r' => skipKeyBlanks fuel false s.newLine
    | some '#' => skipKeyBlanks fuel needed {s with cur := s.cur.skipComment}
    | next =>
      if needed then s.fail .whitespaceExpected
      else if next == some '\t' then s.fail .tabAfterKey
      else .ok s

def question (s : Scan) : Except Fault Scan :=
  let start := s.pos
  if !s.inFlow && !s.keyAllowed then s.fail .keyNotAllowed
  else
    let s := if s.inFlow then {s with inBraces := true} else s.indentTo start.column s.count .blockMappingStart start
    match s.dropKey with
    | .error f => .error f
    | .ok s =>
      let s := s.allowKey (!s.inFlow)
      match skipKeyBlanks s.steps true (s.skip 1) with
      | .error f => .error f
      | .ok s => .ok (s.emit .key start)

def checkTab (s : Scan) : Except Fault Scan :=
  if s.cur.peek != some '\t' then .ok s
  else match s.skipBlanks true with
    | .error f => .error f
    | .ok (s,blanks) =>
      let sticks := s.cur.peek == some '-' || (s.cur.peek.map isWordChar).getD false
      if !blanks.space && sticks then s.fail .tabAfterValue else .ok s

def colon (s : Scan) : Except Fault Scan :=
  let start := s.pos
  let key := s.key
  let opensPair := !s.pairs.isEmpty && !s.inBraces
  let s := if opensPair then {s with pairs := true :: s.pairs.tail} else s
  match checkTab (s.skip 1) with
  | .error f => .error f
  | .ok s =>
    if key.possible then
      let s := s.insert key.number .key key.pos
      if opensPair && key.pos.line < start.line then .error ⟨.valuePlacement,start⟩
      else
        let s := if opensPair then s.insert key.number .flowMappingStart key.pos else s
        let s := (s.indentTo key.pos.column key.number .blockMappingStart key.pos).indentPast
        .ok ({s with key := {s.key with possible := false}, keyAllowed := false}.emit .value start)
    else
      let s := if opensPair then s.emit .flowMappingStart start else s
      if !s.inFlow && !s.keyAllowed then .error ⟨.valueNotAllowed,start⟩
      else
        let s := (s.indentTo start.column s.count .blockMappingStart start).indentPast
        .ok ((s.allowKey (!s.inFlow)).emit .value start)

def flowColon (s : Scan) : Except Fault Scan :=
  let beforeOpener := s.cur.next == some '[' || s.cur.next == some '{'
  if s.pos.offset != s.adjacentAt && beforeOpener then s.fail .valueBeforeBracket else s.colon

def property (s : Scan) : Scan := s.noteKey.allowKey false

def named (s : Scan) (kind : List Char → TokenKind) : Except Fault Scan :=
  let start := s.pos
  let s := s.property.skip 1
  let name := s.cur.rest.takeWhile isAnchorChar
  if name.isEmpty then .error ⟨.anchorName,start⟩ else .ok ((s.skip name.length).emit (kind name) start)

-- `!name`, `!!name`, `!handle!name`, or `!` alone, which has an empty handle.
-- A name may be missing behind a handle.
def tag (s : Scan) : Except Fault Scan :=
  let start := s.pos
  let s := s.property
  let word := (s.cur.rest.drop 1).takeWhile isWordChar
  let after := s.cur.rest.drop (1 + word.length)
  let hasHandle := after.head? == some '!'
  let source := if hasHandle then after.tail else s.cur.rest.tail
  match Uri.read isTagChar source.length source with
  | .error cause => .error ⟨cause,start⟩
  | .ok (suffix,rest) =>
    if !(endsWord rest.head? || (s.inFlow && flowNext rest.head?)) then .error ⟨.tagEnd,start⟩
    else
      let s := s.skip (s.cur.rest.length - rest.length)
      let kind := if hasHandle then TokenKind.tag ('!' :: word ++ ['!']) suffix
        else if suffix.isEmpty then .tag [] ['!'] else .tag ['!'] suffix
      .ok (s.emit kind start)

def plain (s : Scan) : Except Fault Scan :=
  let start := s.pos
  let s := s.property.leaveNonBlock
  let indent := s.indent + 1
  if s.inFlow && (start.column : Int) < indent then .error ⟨.flowIndentation,start⟩
  else match Plain.scan ⟨s.steps,s.inFlow,indent,start⟩ s.steps s.cur [] (.blanks []) with
    | .error f => .error f
    | .ok r =>
      if r.newestFirst.isEmpty then .error ⟨.emptyPlain,start⟩
      else
        let s := {s with
          cur := r.cur, lineStart := r.lineStart, keyAllowed := s.keyAllowed || r.lineStart, comment := r.comment}
        .ok (s.emit (.scalar .plain r.newestFirst.reverse) start)

def quoted (s : Scan) (single : Bool) : Except Fault Scan :=
  let start := s.pos
  let s := s.property
  match Quoted.read ⟨s.steps,single,s.inFlow,s.indent,start⟩ s.cur with
  | .error f => .error f
  | .ok (cur,text) =>
    match toNextToken {s with cur := cur, lineStart := false} with
    | .error f => .error f
    | .ok s => .ok ({s with adjacentAt := s.pos.offset}.emit (.scalar .quoted text) start)

def block (s : Scan) (folded : Bool) : Except Fault Scan :=
  let s := (s.noteKey.allowKey true).leaveNonBlock
  match Block.read s.steps folded s.indent s.cur with
  | .error f => .error f
  | .ok r =>
    let s := {s with cur := r.cur, lineStart := true}
    .ok (s.emit (.scalar (if folded then .folded else .literal) r.text) r.pos)

def endBlocks (s : Scan) : Except Fault Scan :=
  match s.brackets.head? with
  | some b => .error ⟨.unclosedBracket b.opener,b.pos⟩
  | none =>
    if s.key.possible && s.key.required then s.fail .keyExpected
    else .ok ({s.dedent (-1) with key := .none, keyAllowed := false})

def marker (s : Scan) : Except Fault Scan :=
  match s.endBlocks with
  | .error f => .error f
  | .ok s =>
    let start := s.pos
    if s.cur.peek == some '-' then .ok ((s.skip 3).emit .documentStart start)
    else match (s.skip 3).skipBlanks true with
      | .error f => .error f
      | .ok (s,_) => if s.cur.atLineEnd then .ok (s.emit .documentEnd start) else s.fail .contentAfterMarker

def directive (s : Scan) : Except Fault Scan :=
  match s.dropKey with
  | .error f => .error f
  | .ok s =>
    let s := (s.dedent (-1)).allowKey false
    match Directive.read s.cur with
    | .error f => .error f
    | .ok (kind,cur) => .ok ({s with cur := cur, lineStart := true}.emit kind s.pos)

def finish (s : Scan) : Except Fault Scan :=
  let line := if s.pos.column = 0 then s.pos.line else s.pos.line + 1
  let s := {s with cur := {s.cur with pos := ⟨line,0,s.pos.offset⟩}}
  match s.endBlocks with
  | .error f => .error f
  | .ok s => .ok (s.emit .streamEnd s.pos)

def dispatch (s : Scan) (c : Char) (next : Option Char) : Except Fault Scan :=
  match c with
  | '[' | '{' => s.openBracket c
  | ']' | '}' => s.closeBracket c
  | ',' => s.comma
  | '*' => s.named .alias
  | '&' => s.named .anchor
  | '!' => s.tag
  | '\'' => s.quoted true
  | '"' => s.quoted false
  | '-' => if endsWord next then s.dash else s.plain
  | '?' => if endsWord next then s.question else s.plain
  | ':' =>
    if endsWord next then s.colon
    else if s.inFlow && (flowNext next || s.pos.offset == s.adjacentAt) then s.flowColon
    else s.plain
  | '|' => if s.inFlow then s.plain else s.block false
  | '>' => if s.inFlow then s.plain else s.block true
  | '%' | '@' | '\x60' => s.fail (.unexpectedChar c)
  | _ => s.plain

def misindented (s : Scan) (c : Char) : Bool :=
  s.column < s.indent && !(s.inFlow && (c == ']' || c == '}' || c == ','))

def step (s : Scan) : Except Fault Scan :=
  match s.toNextToken with
  | .error f => .error f
  | .ok s =>
    match s.expireKey with
    | .error f => .error f
    | .ok s =>
      let s := s.dedent s.column
      match s.cur.rest with
      | [] => s.finish
      | c :: rest =>
        if s.pos.column = 0 && c == '%' then s.directive
        else if s.cur.atDocumentMarker then s.marker
        else if s.misindented c then s.fail .indentation
        else s.dispatch c rest.head?

def done (s : Scan) : Bool := (s.newestFirst.head?.map fun t => t.kind == .streamEnd).getD false

end Scan

-- In order, up to the end of the body or to its first fault. A token still
-- held back when a fault is met is not delivered.
structure Tokens where
  list : List Token
  fault : Option Fault

namespace Tokens

def cutOff (s : Scan) (fault : Fault) : Tokens :=
  ⟨(s.newestFirst.drop (s.count - s.released)).reverse,some fault⟩

def scan : Nat → Scan → Tokens
  | 0, s => ⟨s.newestFirst.reverse,none⟩
  | fuel + 1, s =>
    if s.done then ⟨s.newestFirst.reverse,none⟩
    else match s.expireKey with
      | .error f => cutOff s f
      | .ok s =>
        let s := s.release
        match s.step with
        | .error f => cutOff s f
        | .ok next => scan fuel next

def ofText (text : List Char) : Tokens := scan (text.length + 2) (.start text)

end Tokens

end AutomationLint.Yaml
