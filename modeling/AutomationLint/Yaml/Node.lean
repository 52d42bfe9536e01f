import AutomationLint.Number
import AutomationLint.Text.Lines
import AutomationLint.Text.Utf8
import AutomationLint.Tree
import AutomationLint.Tree.JsonReader
import AutomationLint.Yaml.Cursor
import AutomationLint.Yaml.Token

namespace AutomationLint.Yaml

inductive Tag where
  | absent
  | null | bool | int | float | timestamp | degrees | radians
  | str | binary
  | seq | map
  -- A lone exclamation mark.
  | nonspecific
  | other
  deriving DecidableEq

namespace Tag

def ofName (name : String) : Tag :=
  match name with
  | "null" => .null
  | "bool" => .bool
  | "int" => .int
  | "float" => .float
  | "timestamp" | "time" => .timestamp
  | "degrees" => .degrees
  | "radians" => .radians
  | "str" => .str
  | "binary" => .binary
  | "seq" => .seq
  | "map" => .map
  | _ => .other

abbrev Handles := List (List Char × List Char)

def common : List Char := "tag:yaml.org,2002:".toList

def stem? (handles : Handles) (handle : List Char) : Option (List Char) :=
  match handles.lookup handle with
  | some stem => some stem
  | none => if handle == ['!'] then some handle else if handle == ['!','!'] then some common else none

def resolve? (handles : Handles) (handle suffix : List Char) : Option Tag :=
  if handle.isEmpty then some .nonspecific
  else (stem? handles handle).map fun stem =>
    if stem == ['!'] || stem == common then ofName (String.ofList suffix) else .other

end Tag

-- A fault does not lose what was read before it: it becomes the last part of
-- the node in which it was met.
inductive Node where
  | scalar (pos : Position) (tag : Tag) (style : ScalarStyle) (text : List Char)
  | sequence (pos : Position) (items : List Node)
  | mapping (pos : Position) (entries : List (Node × Node))
  -- Another node, read again at the place of an alias.
  | again (reference : Position) (node : Node)
  | broken (fault : Fault)

namespace Node

def empty (pos : Position) : Node := .scalar pos .absent .plain []

def pos : Node → Position
  | .scalar pos .. => pos
  | .sequence pos _ => pos
  | .mapping pos _ => pos
  | .again _ node => node.pos
  | .broken fault => fault.pos

def target : Node → Node
  | .again _ node => node.target
  | node => node

mutual
def fault? : Node → Option Fault
  | .scalar .. => none
  | .sequence _ items => itemsFault? items
  | .mapping _ entries => entriesFault? entries
  | .again _ node => fault? node
  | .broken fault => some fault

def itemsFault? : List Node → Option Fault
  | [] => none
  | n :: rest => (fault? n).or (itemsFault? rest)

def entriesFault? : List (Node × Node) → Option Fault
  | [] => none
  | (k,v) :: rest => ((fault? k).or (fault? v)).or (entriesFault? rest)
end

end Node

def isNullWord (text : List Char) : Bool := text.isEmpty || text == ['~'] || Text.lowerWord text == "null"

def bool? (text : List Char) : Option Bool :=
  match Text.lowerWord text with
  | "true" | "yes" | "y" | "on" => some true
  | "false" | "no" | "n" | "off" => some false
  | _ => none

def digits? (base : Nat) (cs : List Char) : Option Nat :=
  let digits := cs.filter (· != '_')
  if digits.isEmpty then none
  else digits.foldl (fun n c => do
    let d ← Text.hexValue? c
    if d < base then some ((← n) * base + d) else none) (some 0)

def magnitude? : List Char → Option Nat
  | '0' :: 'x' :: rest | '0' :: 'X' :: rest => digits? 16 rest
  | '0' :: 'o' :: rest | '0' :: 'O' :: rest => digits? 8 rest
  | '0' :: 'b' :: rest | '0' :: 'B' :: rest => digits? 2 rest
  | cs => digits? 10 cs

def integer? (text : List Char) : Option Int :=
  let (negative,rest) := Decimal.splitSign text
  match magnitude? rest with
  | some n =>
    let value : Int := if negative then -n else n
    if Tree.Json.fitsWord value then some value else none
  | none => none

-- Numbers beyond the finite ones have no tree of their own and are named by
-- strings.
def infinityWord (negative : Bool) : Tree := .str (if negative then "-.inf" else ".inf")

def float? (text : List Char) : Option Tree :=
  let (negative,rest) := Decimal.splitSign text
  match Text.lowerWord rest with
  | ".nan" | "nan" => some (.str ".nan")
  | ".inf" | "inf" | "infinity" => some (infinityWord negative)
  | _ => (Decimal.read? text).map fun d =>
    match d.nearest? with
    | some x => .float x
    | none => infinityWord negative

-- A plain scalar without a known tag is the first of these that its text fits;
-- a string is what is left.
def plainTree (text : List Char) : Tree :=
  if isNullWord text then .null
  else
    let trimmed := Text.trim text
    match bool? trimmed, integer? trimmed, float? trimmed with
    | some b, _, _ => .bool b
    | none, some n, _ => .int n
    | none, none, some t => t
    | none, none, none => .str (String.ofList text)

def Tag.isForeign : Tag → Bool
  | .bool | .int | .float | .timestamp | .degrees | .radians | .seq | .map => true
  | _ => false

def binaryText (text : List Char) : Except Cause (List Char) :=
  match Text.decodeBase64? (text.filter fun c => !Text.isWhite c) with
  | none => .error .binaryBase64
  | some bytes =>
    match Text.decodeUtf8? bytes with
    | none => .error .binaryUtf8
    | some text => .ok text

def isNull (tag : Tag) (style : ScalarStyle) (text : List Char) : Bool :=
  tag == .null || (style == .plain && isNullWord text)

def scalarTree (tag : Tag) (style : ScalarStyle) (text : List Char) : Except Cause Tree :=
  if isNull tag style text then .ok .null
  else if tag.isForeign then .error .taggedScalar
  else if tag == .binary then (binaryText text).map fun t => .str (String.ofList t)
  else if style == .plain && (tag == .absent || tag == .other) then .ok (plainTree text)
  else .ok (.str (String.ofList text))

def isEmptyBlock (style : ScalarStyle) (text : List Char) : Bool :=
  text.isEmpty && (style == .literal || style == .folded)

def isNullKey (tag : Tag) (style : ScalarStyle) (text : List Char) : Bool :=
  tag == .null || (tag != .str && style == .plain && isNullWord text)

-- A key is the text of a scalar, whatever it would mean as a value. The first
-- key of a mapping is taken as it is written; the tags of the others are
-- heeded.
def keyText (first : Bool) (tag : Tag) (style : ScalarStyle) (text : List Char) : Except Cause (List Char) :=
  if isNullKey tag style text then .error .nullKey
  else if first then .ok text
  else if tag.isForeign then .error .taggedScalar
  else if tag == .binary then binaryText text
  else .ok text

end AutomationLint.Yaml
