import AutomationLint.Stream
import AutomationLint.Text.Lines
import AutomationLint.Yaml.Cursor
import AutomationLint.Yaml.Document
import AutomationLint.Yaml.Node

namespace AutomationLint.Yaml

structure Hop where
  defined : Position
  reference : Position
  deriving DecidableEq

structure Refusal where
  fault : Fault
  -- Innermost first.
  hops : List Hop
  deriving DecidableEq

def placeText (pos : Position) : String :=
  "line " ++ toString (pos.line + 1) ++ ", column " ++ toString (pos.column + 1)

-- A value that is read where something refers to it has two places, its own
-- and that of the reference, and a fault in it is reported at the reference.
-- The report keeps what it said before: its title, and its title with all
-- places.
structure Account where
  title : String
  full : String
  pos : Position

namespace Account

def ofFault (f : Fault) : Account := ⟨f.cause.message,f.cause.message ++ " at " ++ placeText f.pos,f.pos⟩

def hop (a : Account) (h : Hop) : Account :=
  ⟨a.full,a.full ++ " (defined at " ++ placeText h.defined ++ ") at " ++ placeText h.reference,h.reference⟩

end Account

namespace Refusal

def ofFault (f : Fault) : Refusal := ⟨f,[]⟩

def add (r : Refusal) (h : Hop) : Refusal := {r with hops := r.hops ++ [h]}

def account (r : Refusal) : Account := r.hops.foldl Account.hop (.ofFault r.fault)

def onPage (page : List Char) (pos : Position) : Bool :=
  match (Text.splitFeeds page)[pos.line]? with
  | some line => pos.column ≤ line.length
  | none => false

def toReader (page : List Char) (r : Refusal) : ReaderFault :=
  let a := r.account
  let report :=
    if onPage page a.pos then
      ("error: line " ++ toString (a.pos.line + 1) ++ " column " ++ toString (a.pos.column + 1) ++ ": ").toList ++
        Text.visible a.title.toList
    else a.full.toList
  ⟨report,some (a.pos.line + 1,a.pos.column + 1)⟩

end Refusal

namespace Node

mutual
def depth : Node → Nat
  | .sequence _ items => itemsDepth items + 1
  | .mapping _ pairs => pairsDepth pairs + 1
  | .again _ node => depth node + 1
  | .scalar .. | .broken _ => 1

def itemsDepth : List Node → Nat
  | [] => 0
  | n :: rest => max (depth n) (itemsDepth rest)

def pairsDepth : List (Node × Node) → Nat
  | [] => 0
  | (k,v) :: rest => max (max (depth k) (depth v)) (pairsDepth rest)
end

def isNullWord : Node → Bool
  | .scalar _ _ style text => style == .plain && Yaml.isNullWord text
  | .again _ node => isNullWord node
  | _ => false

def isMergeKey (n : Node) : Bool :=
  match n.target with
  | .scalar _ .absent .plain ['<','<'] => true
  | _ => false

end Node

abbrev Reference := Option Position

def Reference.through (r : Reference) (n : Node) : Reference :=
  match r, n with
  | some pos, _ => some pos
  | none, .again pos _ => some pos
  | none, _ => none

def Reference.mark (r : Reference) (n : Node) (f : Refusal) : Refusal :=
  match r with
  | some pos => if pos = n.pos then f else f.add ⟨n.pos,pos⟩
  | none => f

structure Merged where
  key : Node
  value : Node
  reference : Position

mutual
-- The pairs that a merged value brings, in the order in which they win: a
-- mapping's own before its merged ones.
def mergedPairs (reference : Reference) : Node → Except Fault (List Merged)
  | .mapping pos pairs =>
    match Node.entriesFault? pairs with
    | some f => .error f
    | none =>
      match splitMerges (reference.getD pos) pairs with
      | .error f => .error f
      | .ok (own,merged) => .ok (own ++ merged)
  | .sequence _ items => mergedItems reference items
  | .scalar pos _ style text =>
    if style == .plain && isNullWord text then .ok [] else .error ⟨.mergeValue,pos⟩
  | .again pos node => mergedPairs (some (reference.getD pos)) node
  | .broken f => .error f

def mergedItems (reference : Reference) : List Node → Except Fault (List Merged)
  | [] => .ok []
  | n :: rest =>
    match mergedPairs reference n with
    | .error f => .error f
    | .ok pairs =>
      match mergedItems reference rest with
      | .error f => .error f
      | .ok later => .ok (later ++ pairs)

def splitMerges (reference : Position) : List (Node × Node) → Except Fault (List Merged × List Merged)
  | [] => .ok ([],[])
  | (k,v) :: rest =>
    if k.isMergeKey then
      match mergedPairs (some reference) v with
      | .error f => .error f
      | .ok pairs =>
        match splitMerges reference rest with
        | .error f => .error f
        | .ok (own,later) => .ok (own,later ++ pairs)
    else
      match splitMerges reference rest with
      | .error f => .error f
      | .ok (own,later) => .ok (⟨k,v,reference⟩ :: own,later)
end

abbrev KeyMark := List Char × Tag

def Node.keyMark? (n : Node) : Option KeyMark :=
  match n.target with
  | .scalar _ tag _ text => some (text,tag)
  | _ => none

def KeyMark.name? (mark : KeyMark) : Option String :=
  if mark.2 == .absent || mark.2 == .str || mark.2 == .other then some (String.ofList mark.1) else none

def Node.isNullPair (n : Node) : Bool :=
  match n.target with
  | .mapping _ [(k,_)] => k.isNullWord
  | _ => false

def Node.key (first : Bool) (n : Node) : Except Fault String :=
  match n.fault?, n.target with
  | some f, _ => .error f
  | none, .scalar pos tag style text =>
    match keyText first tag style text with
    | .ok t => .ok (String.ofList t)
    | .error cause => .error ⟨cause,pos⟩
  | none, n => .error ⟨.collectionKey,n.pos⟩

-- Behind a key that may be a pair the value is read too before the key is
-- judged.
def Node.keyBefore (first : Bool) (k v : Node) : Except Fault String :=
  if k.fault?.isNone && k.isNullPair then
    match v.fault? with
    | some f => .error f
    | none => k.key first
  else k.key first

-- A mapping while it is read. Parts are read in the order of the text, so that
-- the first fault counts, whether it lies in the text or in its meaning;
-- merged pairs are only noted at their place, and come after all of the
-- mapping's own.
structure Gathered where
  keys : List KeyMark
  entries : Tree.Entries
  merged : List Merged

abbrev ValueReader := Reference → Node → Except Refusal Tree

def readPart (value : ValueReader) (r : Reference) (n : Node) : Except Refusal Tree :=
  let r := r.through n
  match value r n.target with
  | .ok t => .ok t
  | .error f => .error (r.mark n f)

namespace Gathered

def add (value : ValueReader) (r : Reference) (g : Gathered) (k v : Node) : Except Refusal Gathered :=
  match k.keyBefore g.entries.isEmpty v with
  | .error f => .error (.ofFault f)
  | .ok name =>
    match readPart value r v with
    | .error f => .error f
    | .ok t => .ok {g with keys := k.keyMark?.toList ++ g.keys, entries := Tree.put g.entries name t}

def repeats (g : Gathered) (k : Node) : Bool := (k.keyMark?.map g.keys.contains).getD false

def own (value : ValueReader) (r : Reference) (g : Gathered) (pair : Node × Node) : Except Refusal Gathered :=
  let (k,v) := pair
  if k.isMergeKey then
    match mergedPairs r v with
    | .error f => .error (.ofFault f)
    | .ok pairs => .ok {g with merged := pairs ++ g.merged}
  else if g.repeats k then .error (.ofFault ⟨.duplicateKey (k.keyMark?.bind KeyMark.name?),k.pos⟩)
  else g.add value r k v

def merge (value : ValueReader) (g : Gathered) (m : Merged) : Except Refusal Gathered :=
  if g.repeats m.key then .ok g else g.add value (some m.reference) m.key m.value

end Gathered

def treeAt : Nat → ValueReader
  | 0, _, n => .error (.ofFault ⟨.tooDeep,n.pos⟩)
  | fuel + 1, r, n =>
    match n with
    | .broken f => .error (.ofFault f)
    | .again _ node => treeAt fuel r node
    | .scalar pos tag style text =>
      match scalarTree tag style text with
      | .ok t => .ok t
      | .error cause => .error (.ofFault ⟨cause,pos⟩)
    | .sequence _ items =>
      match items.mapM (readPart (treeAt fuel) r) with
      | .ok ts => .ok (.seq ts)
      | .error f => .error f
    | .mapping _ pairs =>
      match pairs.foldlM (Gathered.own (treeAt fuel) r) ⟨[],[],[]⟩ with
      | .error f => .error f
      | .ok g =>
        match g.merged.foldlM (Gathered.merge (treeAt fuel)) g with
        | .ok g => .ok (.map g.entries)
        | .error f => .error f

def Node.tree (n : Node) : Except Refusal (Option Tree) :=
  match n with
  | .scalar _ _ style text => if isEmptyBlock style text then .ok none else (treeAt 1 none n).map some
  | _ => (treeAt n.depth none n).map some

def dropMark : List Char → List Char
  | '\uFEFF' :: rest => rest
  | text => text

def page (body : List Char) : List Char := dropMark body

-- A byte order mark is dropped from the body and once more from its page; a
-- null character ends the text.
def pageText (page : List Char) : List Char := (dropMark page).takeWhile (· != '\x00')

def document (page : List Char) : Document := .ofTokens (.ofText (pageText page))

def readTree (page : List Char) : Except Refusal (Option Tree) :=
  let d := document page
  match d.root with
  | none =>
    match d.after with
    | none => .ok none
    | some f => .error (.ofFault f)
  | some n =>
    match n.tree, d.after with
    | .error f, _ => .error f
    | .ok _, some f => .error (.ofFault f)
    | .ok t, none => .ok t

def read : BodyReader := fun body =>
  let page := page body
  match readTree page with
  | .ok t => .ok t
  | .error f => .error (f.toReader page)

end AutomationLint.Yaml
