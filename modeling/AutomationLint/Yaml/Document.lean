import AutomationLint.Text.Lines
import AutomationLint.Yaml.Node
import AutomationLint.Yaml.Tokens

namespace AutomationLint.Yaml

-- Tokens not yet used, and why there are no more; the handles declared. Every
-- anchor has a number, and a name means the last one that bore it; a number
-- without a node belongs to a node still being read.
structure Supply where
  tokens : List Token
  ending : Fault
  handles : Tag.Handles
  names : List (List Char × Nat)
  nodes : List (Nat × Node)

namespace Supply

def advance (s : Supply) : Supply := {s with tokens := s.tokens.tail}

def openAnchor (s : Supply) : Option (List Char) → Supply
  | none => s
  | some name => {s with names := (name,s.names.length) :: s.names}

def closeAnchor (s : Supply) (number : Nat) (node : Node) : Option (List Char) → Supply
  | none => s
  | some _ => {s with nodes := (number,node) :: s.nodes}

end Supply

abbrev Read := Node × Option Supply

def Read.broken (cause : Cause) (pos : Position) : Read := (.broken ⟨cause,pos⟩,none)

def Read.unsupplied (s : Supply) : Read := (.broken s.ending,none)

structure Properties where
  anchor : Option (List Char)
  tag : Tag

def Properties.present (p : Properties) : Bool := p.anchor.isSome || p.tag != .absent

def readAnchor (s : Supply) (tag : Tag) : Except Fault (Properties × Supply) :=
  match s.tokens with
  | [] => .error s.ending
  | ⟨.anchor name,_⟩ :: _ => .ok (⟨some name,tag⟩,s.advance)
  | _ => .ok (⟨none,tag⟩,s)

def readTag (s : Supply) (anchor : Option (List Char)) (start : Position) : Except Fault (Properties × Supply) :=
  match s.tokens with
  | [] => .error s.ending
  | ⟨.tag handle suffix,_⟩ :: _ =>
    match Tag.resolve? s.handles handle suffix with
    | some tag => .ok (⟨anchor,tag⟩,s.advance)
    | none => .error ⟨.unknownHandle,start⟩
  | _ => .ok (⟨anchor,.absent⟩,s)

def readProperties (s : Supply) : Except Fault (Properties × Supply) :=
  match s.tokens with
  | ⟨.anchor name,start⟩ :: _ => readTag s.advance (some name) start
  | ⟨.tag _ _,start⟩ :: _ =>
    match readTag s none start with
    | .error f => .error f
    | .ok (p,s) => readAnchor s p.tag
  | _ => .ok (⟨none,.absent⟩,s)

def readAlias (s : Supply) (name : List Char) (pos : Position) : Read :=
  match s.names.lookup name with
  | none => .broken .unknownAnchor pos
  | some number =>
    match s.nodes.lookup number with
    | none => .broken .recursiveAlias pos
    | some node => (.again pos node,some s.advance)

def endsBlockPart : TokenKind → Bool
  | .key | .value | .blockEnd => true
  | _ => false

def emptyAt (pos : Position) (s : Supply) : Read := (.empty pos,some s)

structure Place where
  within : Option Collection
  -- Block collections may start here.
  block : Bool
  -- So may a sequence whose dashes stand at the column of the mapping around it.
  indentless : Bool

-- Empty quotes with an anchor are as good as no text at all.
def effectiveStyle (p : Properties) (style : ScalarStyle) (text : List Char) : ScalarStyle :=
  if p.anchor.isSome && style == .quoted && text.isEmpty then .plain else style

def scalarRead (pos : Position) (p : Properties) (style : ScalarStyle) (text : List Char) (s : Supply) : Read :=
  if style == .folded && pos.column == 0 && !Text.isBlank text then .broken .foldedNotIndented pos
  else (.scalar pos p.tag (effectiveStyle p style text) text,some s)

mutual
def readNode : Nat → Place → Supply → Read
  | 0, _, s => .unsupplied s
  | fuel + 1, place, s =>
    match s.tokens with
    | ⟨.alias name,pos⟩ :: _ => readAlias s name pos
    | _ =>
      match readProperties s with
      | .error f => (.broken f,none)
      | .ok (p,s) =>
        let number := s.names.length
        match readContent fuel place p (s.openAnchor p.anchor) with
        | (node,none) => (node,none)
        | (node,some s) => (node,some (s.closeAnchor number node p.anchor))

def readContent : Nat → Place → Properties → Supply → Read
  | 0, _, _, s => .unsupplied s
  | fuel + 1, place, p, s =>
    match s.tokens with
    | [] => .unsupplied s
    | ⟨kind,pos⟩ :: _ =>
      match kind with
      | .scalar style text => scalarRead pos p style text s.advance
      | .flowSequenceStart => readFlowItems fuel pos true [] s.advance
      | .flowMappingStart => readFlowEntries fuel pos true [] s.advance
      | kind =>
        if kind == .blockEntry && place.indentless then readIndentless fuel pos [] s
        else if kind == .blockSequenceStart && place.block then readBlockItems fuel pos [] s.advance
        else if kind == .blockMappingStart && place.block then readBlockEntries fuel pos [] s.advance
        else if p.present then (.scalar pos p.tag .plain [],some s)
        else .broken (.nodeExpected place.within) pos

def readBlockItems : Nat → Position → List Node → Supply → Read
  | 0, _, _, s => .unsupplied s
  | fuel + 1, start, read, s =>
    let stop (f : Fault) : Read := (.sequence start (.broken f :: read).reverse,none)
    match s.tokens with
    | [] => stop s.ending
    | ⟨.blockEnd,_⟩ :: _ => (.sequence start read.reverse,some s.advance)
    | ⟨.blockEntry,pos⟩ :: _ =>
      match readBlockItem fuel ⟨some .blockSequence,true,false⟩ pos s.advance with
      | (item,none) => (.sequence start (item :: read).reverse,none)
      | (item,some s) => readBlockItems fuel start (item :: read) s
    | ⟨_,pos⟩ :: _ => stop ⟨.blockEntry,pos⟩

def readIndentless : Nat → Position → List Node → Supply → Read
  | 0, _, _, s => .unsupplied s
  | fuel + 1, start, read, s =>
    match s.tokens with
    | [] => (.sequence start (.broken s.ending :: read).reverse,none)
    | ⟨.blockEntry,pos⟩ :: _ =>
      match readBlockItem fuel ⟨none,true,false⟩ pos s.advance with
      | (item,none) => (.sequence start (item :: read).reverse,none)
      | (item,some s) => readIndentless fuel start (item :: read) s
    | _ => (.sequence start read.reverse,some s)

def readBlockItem : Nat → Place → Position → Supply → Read
  | 0, _, _, s => .unsupplied s
  | fuel + 1, place, dash, s =>
    match s.tokens with
    | [] => .unsupplied s
    | ⟨kind,_⟩ :: _ =>
      let ends := match kind with
        | .blockEntry | .blockEnd => true
        | .key | .value => place.within.isNone
        | _ => false
      if ends then emptyAt dash s else readNode fuel place s

def readBlockEntries : Nat → Position → List (Node × Node) → Supply → Read
  | 0, _, _, s => .unsupplied s
  | fuel + 1, start, read, s =>
    let stop (n : Node) : Read := (.mapping start ((n,.empty start) :: read).reverse,none)
    match s.tokens with
    | [] => stop (.broken s.ending)
    | ⟨.blockEnd,_⟩ :: _ => (.mapping start read.reverse,some s.advance)
    | ⟨kind,pos⟩ :: _ =>
      if kind != .key && kind != .value then stop (.broken ⟨.blockKey,pos⟩)
      else
        let keyRead := if kind == .value then emptyAt pos s else readBlockKey fuel s.advance
        match keyRead with
        | (key,none) => stop key
        | (key,some s) =>
          match readBlockValue fuel s with
          | (value,none) => (.mapping start ((key,value) :: read).reverse,none)
          | (value,some s) => readBlockEntries fuel start ((key,value) :: read) s

def readBlockKey : Nat → Supply → Read
  | 0, s => .unsupplied s
  | fuel + 1, s =>
    match s.tokens with
    | [] => .unsupplied s
    | ⟨kind,pos⟩ :: _ =>
      if endsBlockPart kind then emptyAt pos s else readNode fuel ⟨some .blockMapping,true,true⟩ s

def readBlockValue : Nat → Supply → Read
  | 0, s => .unsupplied s
  | fuel + 1, s =>
    match s.tokens with
    | [] => .unsupplied s
    | ⟨.value,pos⟩ :: _ =>
      let s := s.advance
      match s.tokens with
      | [] => .unsupplied s
      | ⟨kind,_⟩ :: _ =>
        if endsBlockPart kind then emptyAt pos s else readNode fuel ⟨some .blockMapping,true,true⟩ s
    | ⟨_,pos⟩ :: _ => emptyAt pos s

def readFlowItems : Nat → Position → Bool → List Node → Supply → Read
  | 0, _, _, _, s => .unsupplied s
  | fuel + 1, start, first, read, s =>
    let stop (f : Fault) : Read := (.sequence start (.broken f :: read).reverse,none)
    let item (s : Supply) : Read :=
      match s.tokens with
      | [] => stop s.ending
      | ⟨.flowSequenceEnd,_⟩ :: _ => (.sequence start read.reverse,some s.advance)
      | ⟨kind,pos⟩ :: _ =>
        let itemRead :=
          if kind == .key then readFlowPair fuel pos s.advance
          else readNode fuel ⟨some .flowSequence,false,false⟩ s
        match itemRead with
        | (item,none) => (.sequence start (item :: read).reverse,none)
        | (item,some s) => readFlowItems fuel start false (item :: read) s
    if first then item s
    else match s.tokens with
      | [] => stop s.ending
      | ⟨.flowSequenceEnd,_⟩ :: _ => (.sequence start read.reverse,some s.advance)
      | ⟨.flowEntry,_⟩ :: _ => item s.advance
      | ⟨_,pos⟩ :: _ => stop ⟨.flowSequenceEnd,pos⟩

def readFlowPair : Nat → Position → Supply → Read
  | 0, _, s => .unsupplied s
  | fuel + 1, start, s =>
    let ends : TokenKind → Bool
      | .flowEntry | .flowSequenceEnd => true
      | _ => false
    let place : Place := ⟨some .flowPair,false,false⟩
    let keyRead : Read := match s.tokens with
      | [] => .unsupplied s
      | ⟨kind,pos⟩ :: _ => if kind == .value || ends kind then emptyAt pos s.advance else readNode fuel place s
    match keyRead with
    | (key,none) => (.mapping start [(key,.empty start)],none)
    | (key,some s) =>
      let valueRead : Read := match s.tokens with
        | [] => .unsupplied s
        | ⟨.value,_⟩ :: _ =>
          let s := s.advance
          match s.tokens with
          | [] => .unsupplied s
          | ⟨kind,pos⟩ :: _ => if ends kind then emptyAt pos s else readNode fuel place s
        | ⟨_,pos⟩ :: _ => emptyAt pos s
      match valueRead with
      | (value,none) => (.mapping start [(key,value)],none)
      | (value,some s) => (.mapping start [(key,value)],some s)

def readFlowEntries : Nat → Position → Bool → List (Node × Node) → Supply → Read
  | 0, _, _, _, s => .unsupplied s
  | fuel + 1, start, first, read, s =>
    let stop (n : Node) : Read := (.mapping start ((n,.empty start) :: read).reverse,none)
    let entry (s : Supply) : Read :=
      match s.tokens with
      | [] => stop (.broken s.ending)
      | ⟨.flowMappingEnd,_⟩ :: _ => (.mapping start read.reverse,some s.advance)
      | ⟨kind,pos⟩ :: _ =>
        let keyRead :=
          if kind == .key then readFlowKey fuel s.advance
          else if kind == .value then emptyAt pos s
          else readNode fuel ⟨some .flowMapping,false,false⟩ s
        match keyRead with
        | (key,none) => stop key
        | (key,some s) =>
          match readFlowValue fuel (kind == .key || kind == .value) s with
          | (value,none) => (.mapping start ((key,value) :: read).reverse,none)
          | (value,some s) => readFlowEntries fuel start false ((key,value) :: read) s
    match s.tokens with
    | [] => stop (.broken s.ending)
    | ⟨.flowMappingEnd,_⟩ :: _ => (.mapping start read.reverse,some s.advance)
    | ⟨kind,pos⟩ :: _ =>
      if first then entry s
      else if kind == .flowEntry then entry s.advance
      else stop (.broken ⟨.flowMappingEnd,pos⟩)

def readFlowKey : Nat → Supply → Read
  | 0, s => .unsupplied s
  | fuel + 1, s =>
    match s.tokens with
    | [] => .unsupplied s
    | ⟨kind,pos⟩ :: _ =>
      if kind == .value || kind == .flowEntry || kind == .flowMappingEnd then emptyAt pos s
      else readNode fuel ⟨some .flowMapping,false,false⟩ s

def readFlowValue : Nat → Bool → Supply → Read
  | 0, _, s => .unsupplied s
  | fuel + 1, keyed, s =>
    match s.tokens with
    | [] => .unsupplied s
    | ⟨kind,pos⟩ :: _ =>
      if keyed && kind == .value then
        let s := s.advance
        match s.tokens with
        | [] => .unsupplied s
        | ⟨kind,_⟩ :: _ =>
          if kind == .flowEntry || kind == .flowMappingEnd then emptyAt pos s
          else readNode fuel ⟨some .flowMapping,false,false⟩ s
      else emptyAt pos s
end

-- No more tokens are needed than there are, but a level of reading may use a
-- few steps for one of them.
def depth (tokens : List Token) : Nat := 4 * tokens.length + 8

def skipStops (s : Supply) : List Token → Supply
  | ⟨.documentEnd,_⟩ :: rest => skipStops {s with tokens := rest} rest
  | tokens => {s with tokens := tokens}

def readDirectives (s : Supply) (versioned : Bool) (declared : Tag.Handles) : List Token → Except Fault Supply
  | ⟨.version,pos⟩ :: rest =>
    if versioned then .error ⟨.versionTwice,pos⟩ else readDirectives s true declared rest
  | ⟨.handle name stem,pos⟩ :: rest =>
    if (declared.lookup name).isSome then .error ⟨.handleTwice,pos⟩
    else readDirectives s versioned ((name,stem) :: declared) rest
  | tokens => .ok {s with tokens := tokens, handles := declared}

inductive Opening where
  | marked (s : Supply)
  | bare (s : Supply)
  | missing

def openMarked (s : Supply) : Except Fault Opening :=
  match readDirectives s false [] s.tokens with
  | .error f => .error f
  | .ok s =>
    match s.tokens with
    | [] => .error s.ending
    | ⟨.documentStart,_⟩ :: _ => .ok (.marked s.advance)
    | ⟨_,pos⟩ :: _ => .error ⟨.startExpected,pos⟩

-- Behind the end of a document without a stop marker only a marked one may
-- follow.
def openDocument (bare : Bool) (s : Supply) : Except Fault Opening :=
  let s := skipStops s s.tokens
  match s.tokens with
  | [] => .error s.ending
  | ⟨.streamEnd,_⟩ :: _ => .ok .missing
  | ⟨.version,_⟩ :: _ | ⟨.handle _ _,_⟩ :: _ | ⟨.documentStart,_⟩ :: _ => openMarked s
  | _ => if bare then .ok (.bare s) else openMarked s

def readRoot (s : Supply) : Read := readNode (depth s.tokens) ⟨none,true,false⟩ s

def readMarked (s : Supply) : Read :=
  match s.tokens with
  | [] => .unsupplied s
  | ⟨kind,pos⟩ :: _ =>
    match kind with
    | .version | .handle _ _ | .documentStart | .documentEnd | .streamEnd => emptyAt pos s
    | _ => readRoot s

def readOpened : Opening → Option Read
  | .marked s => some (readMarked s)
  | .bare s => some (readRoot s)
  | .missing => none

-- The beginning of a further document refuses the body; what is no document is
-- let go.
def furtherDocument (bare : Bool) (s : Supply) : Option Fault :=
  match openDocument bare {s with names := [], nodes := []} with
  | .error _ => none
  | .ok opening =>
    match readOpened opening with
    | none => none
    | some (.broken f,_) => some f
    | some (node,_) => some ⟨.severalDocuments,node.pos⟩

def afterRoot (s : Supply) : Option Fault :=
  match s.tokens with
  | [] => some s.ending
  | ⟨.documentEnd,_⟩ :: _ => furtherDocument true s.advance
  | ⟨.version,pos⟩ :: _ | ⟨.handle _ _,pos⟩ :: _ => some ⟨.markerBeforeDirective,pos⟩
  | _ => furtherDocument false s

structure Document where
  -- No node where the body has no tokens of its own.
  root : Option Node
  after : Option Fault

def Document.ofTokens (t : Tokens) : Document :=
  let ending := t.fault.getD ⟨.nodeExpected none,⟨0,0,0⟩⟩
  match openDocument true ⟨t.list,ending,[],[],[]⟩ with
  | .error f => ⟨some (.broken f),none⟩
  | .ok opening =>
    match readOpened opening with
    | none => ⟨none,none⟩
    | some (root,none) => ⟨some root,none⟩
    | some (root,some s) => ⟨some root,afterRoot s⟩

end AutomationLint.Yaml
