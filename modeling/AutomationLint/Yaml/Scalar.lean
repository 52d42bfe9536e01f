import AutomationLint.Text.Utf8
import AutomationLint.Yaml.Cursor
import AutomationLint.Yaml.Token

namespace AutomationLint.Yaml.Plain

inductive Gap where
  | blanks (newestFirst : List Char)
  | broken (further : Nat)

def Gap.text : Gap → List Char
  | .blanks newestFirst => newestFirst.reverse
  | .broken 0 => [' ']
  | .broken n => List.replicate n '\n'

structure Context where
  -- Steps enough for the whole text.
  steps : Nat
  inFlow : Bool
  -- The least column of a further line.
  indent : Int
  start : Position

def word (inFlow : Bool) : List Char → List Char
  | [] => []
  | c :: rest => if isBlank c || isBreak c || !plainGoesOn inFlow (c :: rest) then [] else c :: word inFlow rest

-- A tab may indent only a line without content.
def skipGap (ctx : Context) : Nat → Cursor → Gap → Except Fault (Cursor × Gap)
  | 0, cur, gap => .ok (cur,gap)
  | fuel + 1, cur, gap =>
    match cur.peek with
    | none => .ok (cur,gap)
    | some c =>
      if isBreak c then
        match gap with
        | .blanks _ => skipGap ctx fuel cur.skipBreak (.broken 0)
        | .broken n => skipGap ctx fuel cur.skipBreak (.broken (n + 1))
      else if isBlank c then
        match gap with
        | .blanks cs => skipGap ctx fuel (cur.skip 1) (.blanks (c :: cs))
        | .broken _ =>
          if c == '\t' && (cur.column : Int) < ctx.indent then
            match cur.skipBlanks true with
            | .error f => .error f
            | .ok b => if b.cur.atLineEnd then skipGap ctx fuel b.cur gap else .error ⟨.tabInPlain,ctx.start⟩
          else skipGap ctx fuel (cur.skip 1) gap
      else .ok (cur,gap)

structure Scanned where
  cur : Cursor
  newestFirst : List Char
  -- The scalar ended after a line break.
  lineStart : Bool
  -- A comment cut the scalar off here.
  comment : Option Position

def Gap.isBroken : Gap → Bool
  | .blanks _ => false
  | .broken _ => true

def Gap.hasBlanks : Gap → Bool
  | .blanks cs => !cs.isEmpty
  | .broken _ => false

-- A plain scalar runs over lines that are indented deeper than its parent.
-- Between its words blanks are kept within a line, and a line break becomes a
-- blank unless empty lines follow it.
def scan (ctx : Context) : Nat → Cursor → List Char → Gap → Except Fault Scanned
  | 0, cur, text, gap => .ok ⟨cur,text,gap.isBroken,none⟩
  | fuel + 1, cur, text, gap =>
    let stopped (comment : Option Position) : Scanned := ⟨cur,text,gap.isBroken,comment⟩
    if gap.isBroken && cur.atDocumentMarker then .ok (stopped none)
    else if cur.peek == some '#' then
      .ok (stopped (if !text.isEmpty && gap.hasBlanks && !ctx.inFlow then some cur.pos else none))
    else if ctx.inFlow && cur.peek == some '-' && flowNext cur.next then .error ⟨.dashBeforeFlow,cur.pos⟩
    else
      let read := word ctx.inFlow cur.rest
      if read.isEmpty then .ok (stopped none)
      else
        let text := read.reverse ++ gap.text.reverse ++ text
        let cur := cur.skip read.length
        match skipGap ctx ctx.steps cur (.blanks []) with
        | .error f => .error f
        | .ok (after,gap) =>
          if after.pos == cur.pos then .ok ⟨after,text,false,none⟩
          else if !ctx.inFlow && (after.column : Int) < ctx.indent then .ok ⟨after,text,gap.isBroken,none⟩
          else scan ctx fuel after text gap

end AutomationLint.Yaml.Plain

namespace AutomationLint.Yaml.Quoted

structure Context where
  -- Steps enough for the whole text.
  steps : Nat
  single : Bool
  inFlow : Bool
  indent : Int
  start : Position

def escape? : Char → Option Char
  | '0' => some '\x00'
  | 'a' => some '\x07'
  | 'b' => some '\x08'
  | 't' | '\t' => some '\t'
  | 'n' => some '\n'
  | 'v' => some '\x0b'
  | 'f' => some '\x0c'
  | 'r' => some '\r'
  | 'e' => some '\x1b'
  | ' ' => some ' '
  | '"' => some '"'
  | '/' => some '/'
  | '\\' => some '\\'
  | 'N' => some '\u0085'
  | '_' => some '\u00a0'
  | 'L' => some '\u2028'
  | 'P' => some '\u2029'
  | _ => none

def hexLength? : Char → Option Nat
  | 'x' => some 2
  | 'u' => some 4
  | 'U' => some 8
  | _ => none

def hexValue? : Nat → Nat → List Char → Option Nat
  | 0, n, _ => some n
  | _ + 1, _, [] => none
  | k + 1, n, c :: rest =>
    match Text.hexValue? c with
    | some d => hexValue? k (n * 16 + d) rest
    | none => none

-- The character after a backslash and how many characters name it. Every fault
-- lies at the opening quote.
def readEscape (start : Position) : List Char → Except Fault (Char × Nat)
  | [] => .error ⟨.unknownEscape,start⟩
  | c :: rest =>
    match escape? c, hexLength? c with
    | some ch, _ => .ok (ch,1)
    | none, none => .error ⟨.unknownEscape,start⟩
    | none, some k =>
      match hexValue? k 0 rest with
      | none => .error ⟨.hexDigitExpected,start⟩
      | some n =>
        match Text.char? n with
        | some ch => .ok (ch,k + 1)
        | none => .error ⟨.badCodePoint,start⟩

structure Run where
  cur : Cursor
  newestFirst : List Char
  joined : Bool

def run (ctx : Context) : Nat → Cursor → List Char → Except Fault Run
  | 0, cur, text => .ok ⟨cur,text,false⟩
  | fuel + 1, cur, text =>
    match cur.rest with
    | [] => .ok ⟨cur,text,false⟩
    | c :: rest =>
      if isBlank c || isBreak c then .ok ⟨cur,text,false⟩
      else if c == '\'' && ctx.single then
        if rest.head? == some '\'' then run ctx fuel (cur.skip 2) ('\'' :: text) else .ok ⟨cur,text,false⟩
      else if c == '"' && !ctx.single then .ok ⟨cur,text,false⟩
      else if c == '\\' && !ctx.single then
        if (rest.head?.map isBreak).getD false then .ok ⟨(cur.skip 1).skipBreak,text,true⟩
        else match readEscape ctx.start rest with
          | .error f => .error f
          | .ok (ch,n) => run ctx fuel (cur.skip (n + 1)) (ch :: text)
      else run ctx fuel (cur.skip 1) (c :: text)

inductive Gap where
  | blanks (newestFirst : List Char)
  | broken (first : Bool) (further : Nat)

def Gap.text : Gap → List Char
  | .blanks newestFirst => newestFirst.reverse
  | .broken true 0 => [' ']
  | .broken _ n => List.replicate n '\n'

def skipGap (ctx : Context) : Nat → Cursor → Gap → Except Fault (Cursor × Gap)
  | 0, cur, gap => .ok (cur,gap)
  | fuel + 1, cur, gap =>
    match cur.peek with
    | none => .ok (cur,gap)
    | some c =>
      if isBreak c then
        match gap with
        | .blanks _ => skipGap ctx fuel cur.skipBreak (.broken true 0)
        | .broken first n => skipGap ctx fuel cur.skipBreak (.broken first (n + 1))
      else if isBlank c then
        match gap with
        | .blanks cs => skipGap ctx fuel (cur.skip 1) (.blanks (c :: cs))
        | .broken .. =>
          if c == '\t' && (cur.column : Int) < ctx.indent then .error ⟨.tabInQuoted,cur.pos⟩
          else skipGap ctx fuel (cur.skip 1) gap
      else .ok (cur,gap)

def atClosing (ctx : Context) (cur : Cursor) : Bool := cur.peek == some (if ctx.single then '\'' else '"')

-- Outside brackets a line below a break that folds is indented deeper than the
-- block around it, unless it holds nothing but the closing quote.
def misindented (ctx : Context) (cur : Cursor) : Gap → Bool
  | .broken true _ => !ctx.inFlow && !atClosing ctx cur && (cur.column : Int) ≤ ctx.indent
  | _ => false

def scan (ctx : Context) : Nat → Cursor → List Char → Except Fault (Cursor × List Char)
  | 0, cur, text => .ok (cur,text)
  | fuel + 1, cur, text =>
    if cur.atDocumentMarker then .error ⟨.markerInQuoted,ctx.start⟩
    else if cur.atEnd then .error ⟨.unclosedQuote,ctx.start⟩
    else match run ctx ctx.steps cur text with
      | .error f => .error f
      | .ok r =>
        if atClosing ctx r.cur then .ok (r.cur.skip 1,r.newestFirst)
        else
          let gap := if r.joined then Gap.broken false 0 else .blanks []
          match skipGap ctx ctx.steps r.cur gap with
          | .error f => .error f
          | .ok (after,gap) =>
            if misindented ctx after gap then .error ⟨.quotedIndentation,after.pos⟩
            else scan ctx fuel after (gap.text.reverse ++ r.newestFirst)

def endsWell (ctx : Context) (after : Cursor) : Bool :=
  match after.peek with
  | none => true
  | some c =>
    isBreak c || (c == ':' && (ctx.inFlow || ctx.start.line == after.pos.line)) ||
      (ctx.inFlow && (c == ',' || c == '}' || c == ']'))

def read (ctx : Context) (cur : Cursor) : Except Fault (Cursor × List Char) :=
  match scan ctx ctx.steps (cur.skip 1) [] with
  | .error f => .error f
  | .ok (after,text) =>
    match after.skipBlanks true with
    | .error f => .error f
    | .ok b => if endsWell ctx b.cur then .ok (b.cur,text.reverse) else .error ⟨.contentAfterQuoted,b.cur.pos⟩

end AutomationLint.Yaml.Quoted

namespace AutomationLint.Yaml.Block

inductive Chomping where
  | strip | clip | keep
  deriving DecidableEq

structure Header where
  chomping : Chomping
  increment : Option Nat

def chomping? : Option Char → Option Chomping
  | some '+' => some .keep
  | some '-' => some .strip
  | _ => none

def digit? : Option Char → Option Nat
  | some c => if c.isDigit then some (c.toNat - 48) else none
  | none => none

def readHeader (cur : Cursor) : Header × Cursor :=
  match chomping? cur.peek with
  | some chomping =>
    match digit? (cur.skip 1).peek with
    | some n => (⟨chomping,some n⟩,cur.skip 2)
    | none => (⟨chomping,none⟩,cur.skip 1)
  | none =>
    match digit? cur.peek with
    | none => (⟨.clip,none⟩,cur)
    | some n =>
      match chomping? (cur.skip 1).peek with
      | some chomping => (⟨chomping,some n⟩,cur.skip 2)
      | none => (⟨.clip,some n⟩,cur.skip 1)

def skipIndent (indent : Nat) : Nat → Cursor → Nat → Cursor × Nat
  | 0, cur, breaks => (cur,breaks)
  | fuel + 1, cur, breaks =>
    let spaces := ((cur.rest.take (indent - cur.column)).takeWhile (· == ' ')).length
    let cur := cur.skip spaces
    if cur.atBreak then skipIndent indent fuel cur.skipBreak (breaks + 1) else (cur,breaks)

def skipLeading : Nat → Cursor → Nat → Nat → Cursor × Nat × Nat
  | 0, cur, breaks, widest => (cur,breaks,widest)
  | fuel + 1, cur, breaks, widest =>
    let cur := cur.skipWhile (· == ' ')
    let widest := max widest cur.column
    if cur.atBreak then skipLeading fuel cur.skipBreak (breaks + 1) widest else (cur,breaks,widest)

structure Lines where
  cur : Cursor
  newestFirst : List Char
  -- A break not yet written, and how many breaks after it.
  pendingBreak : Bool
  further : Nat
  -- The line before began with a blank.
  blankBefore : Bool

def newlines (n : Nat) : List Char := List.replicate n '\n'

-- What joins a line to the text before it. Folding spares lines that begin
-- with a blank.
def joint (folded : Bool) (s : Lines) : List Char :=
  if folded && s.pendingBreak && !s.blankBefore && !s.cur.atBlank then
    if s.further = 0 then [' '] else newlines s.further
  else newlines (s.further + s.pendingBreak.toNat)

def scanLines (steps : Nat) (folded : Bool) (indent : Nat) : Nat → Lines → Lines
  | 0, s => s
  | fuel + 1, s =>
    if s.cur.column != indent || s.cur.atEnd || (indent == 0 && isDocumentEnd s.cur.rest) then s
    else
      let line := s.cur.rest.takeWhile fun c => !isBreak c
      let text := line.reverse ++ joint folded s ++ s.newestFirst
      let blank := s.cur.atBlank
      let cur := s.cur.skip line.length
      if cur.atEnd then ⟨cur,text,false,0,blank⟩
      else
        let (next,further) := skipIndent indent steps cur.skipBreak 0
        scanLines steps folded indent fuel ⟨next,text,true,further,blank⟩

def finish (chomping : Chomping) (indent : Nat) (s : Lines) : List Char :=
  let unended := s.cur.atEnd && max indent 1 ≤ s.cur.column
  let ends := match chomping with
    | .strip => 0
    | .clip => s.pendingBreak.toNat + unended.toNat
    | .keep => s.pendingBreak.toNat + unended.toNat + s.further
  s.newestFirst.reverse ++ newlines ends

def contentless (chomping : Chomping) (broken : Bool) (further : Nat) : List Char :=
  match chomping, broken with
  | .strip, _ | _, false => []
  | .clip, true => ['\n']
  | .keep, true => newlines (max 1 further)

structure Scanned where
  cur : Cursor
  pos : Position
  text : List Char

def readContent (steps : Nat) (folded : Bool) (header : Header) (parent : Int) (start : Position) (broken : Bool)
    (cur : Cursor) : Except Fault Scanned :=
  let (cur,further,indent) := match header.increment with
    | some n =>
      let indent := (max parent 0).toNat + n
      let (cur,further) := skipIndent indent steps cur 0
      (cur,further,indent)
    | none =>
      let (cur,further,widest) := skipLeading steps cur 0 0
      (cur,further,max widest (max (parent + 1).toNat (if 0 < parent then 1 else 0)))
  if cur.atEnd then .ok ⟨cur,start,contentless header.chomping broken further⟩
  else if cur.column < indent && parent < cur.column then .error ⟨.blockLineIndentation,cur.pos⟩
  else
    let s := scanLines steps folded indent steps ⟨cur,[],false,further,false⟩
    .ok ⟨s.cur,cur.pos,finish header.chomping indent s⟩

-- The cursor stands at the indicator. The header chooses literal or folded
-- lines, what becomes of the breaks at the end, and perhaps the indentation;
-- otherwise the first line with content sets it. `parent` is the indentation
-- around the scalar, and `steps` are enough for the whole text.
def read (steps : Nat) (folded : Bool) (parent : Int) (cur : Cursor) : Except Fault Scanned :=
  let start := cur.pos
  let (header,after) := readHeader (cur.skip 1)
  if header.increment == some 0 then .error ⟨.zeroIndicator,start⟩
  else match after.skipBlanks true with
    | .error f => .error f
    | .ok b =>
      if !b.cur.atLineEnd then .error ⟨.blockHeader,start⟩
      else
        let content := b.cur.skipBreak
        if content.peek == some '\t' then .error ⟨.tabInBlockScalar,start⟩
        else readContent steps folded header parent start b.cur.atBreak content

end AutomationLint.Yaml.Block
