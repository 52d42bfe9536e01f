import AutomationLint.Number
import AutomationLint.Text.Utf8

namespace AutomationLint

-- A mapping is an ordered list of entries; the reader makes their names
-- distinct. An integer and a float of equal value are different trees.
inductive Tree where
  | null
  | bool (b : Bool)
  | int (n : Int)
  | float (x : Binary64)
  | str (s : String)
  | seq (items : List Tree)
  | map (entries : List (String × Tree))
  deriving Inhabited

namespace Tree

mutual
def same : Tree → Tree → Bool
  | null, null => true
  | bool a, bool b => a == b
  | int a, int b => a == b
  | float a, float b => a == b
  | str a, str b => a == b
  | seq a, seq b => sameItems a b
  | map a, map b => sameEntries a b
  | _, _ => false

def sameItems : List Tree → List Tree → Bool
  | [], [] => true
  | a :: as, b :: bs => same a b && sameItems as bs
  | _, _ => false

def sameEntries : List (String × Tree) → List (String × Tree) → Bool
  | [], [] => true
  | (m,a) :: as, (n,b) :: bs => m == n && same a b && sameEntries as bs
  | _, _ => false
end

abbrev Entries := List (String × Tree)

def put (entries : Entries) (name : String) (value : Tree) : Entries :=
  match entries with
  | [] => [(name,value)]
  | (n,v) :: rest => if n == name then (n,value) :: rest else (n,v) :: put rest name value

theorem put_new {entries : Entries} {name : String} (new : name ∉ entries.map Prod.fst) (value : Tree) :
    put entries name value = entries ++ [(name,value)] := by
  induction entries with
  | nil => rfl
  | cons e rest ih =>
    have other : (e.1 == name) = false := beq_eq_false_iff_ne.mpr fun same => new (same ▸ List.mem_cons_self)
    rw [put,other,if_neg Bool.false_ne_true,ih fun member => new (List.mem_cons_of_mem _ member)]
    rfl

def field? (t : Tree) (name : String) : Option Tree :=
  match t with
  | map entries => entries.lookup name
  | _ => none

def hasAnyKey (entries : Entries) (names : List String) : Bool :=
  names.any fun name => (entries.lookup name).isSome

def isString : Tree → Bool
  | str _ => true
  | _ => false

-- Null, false, the empty string and zero are falsy; every collection is
-- truthy. An integer counts as the 64-bit number nearest to it, and what is
-- beyond all of these is not zero.
def truthy : Tree → Bool
  | null => false
  | bool b => b
  | int n => (Binary64.ofInt? n).all fun x => !x.isZero
  | float x => !x.isZero
  | str s => s != ""
  | seq _ | map _ => true

inductive Shape where
  | mapping | sequence | null | bool | number | string
  deriving DecidableEq

def shape : Tree → Shape
  | null => .null
  | bool _ => .bool
  | int _ | float _ => .number
  | str _ => .string
  | seq _ => .sequence
  | map _ => .mapping

def Shape.word : Shape → String
  | .mapping => "mapping"
  | .sequence => "sequence"
  | .null => "null"
  | .bool => "bool"
  | .number => "number"
  | .string => "string"

end Tree

end AutomationLint

namespace AutomationLint.Tree

mutual
@[simp] theorem same_iff (a b : Tree) : same a b = true ↔ a = b := by
  cases a with
  | seq items =>
    cases b with
    | seq others => simp only [same,sameItems_iff items others,seq.injEq]
    | _ => simp [same]
  | map entries =>
    cases b with
    | map others => simp only [same,sameEntries_iff entries others,map.injEq]
    | _ => simp [same]
  | _ => cases b <;> simp [same]

@[simp] theorem sameItems_iff (items others : List Tree) : sameItems items others = true ↔ items = others := by
  cases items with
  | nil => cases others <;> simp [sameItems]
  | cons a items =>
    cases others with
    | nil => simp [sameItems]
    | cons b others => simp only [sameItems,Bool.and_eq_true,same_iff a b,sameItems_iff items others,List.cons.injEq]

@[simp] theorem sameEntries_iff (entries others : List (String × Tree)) : sameEntries entries others = true ↔ entries = others := by
  cases entries with
  | nil => cases others <;> simp [sameEntries]
  | cons entry entries =>
    obtain ⟨name,a⟩ := entry
    cases others with
    | nil => simp [sameEntries]
    | cons other others =>
      obtain ⟨title,b⟩ := other
      simp only [sameEntries,Bool.and_eq_true,beq_iff_eq,same_iff a b,sameEntries_iff entries others,List.cons.injEq,
        Prod.mk.injEq]
end

instance : DecidableEq Tree := fun a b => decidable_of_iff (same a b = true) (same_iff a b)

-- Quotes, backslashes and control characters below U+0020 are escaped, and
-- nothing else is.
def escaped (c : Char) : List Char :=
  match c with
  | '"' => ['\\','"']
  | '\\' => ['\\','\\']
  | '\n' => ['\\','n']
  | '\r' => ['\\','r']
  | '\t' => ['\\','t']
  | '\x08' => ['\\','b']
  | '\x0c' => ['\\','f']
  | c => if c.toNat < 32 then ['\\','u','0','0',Text.lowerHex (c.toNat / 16),Text.lowerHex (c.toNat % 16)] else [c]

def quoted (s : String) : String := String.ofList ('"' :: s.toList.flatMap escaped ++ ['"'])

def jsonNumber : Binary64.Form := ⟨false⟩

def scalarJson : Tree → String
  | bool true => "true"
  | bool false => "false"
  | int n => toString n
  | float x => x.text jsonNumber
  | str s => quoted s
  | _ => "null"

def scalarText? : Tree → Option String
  | seq _ | map _ => none
  | str s => some s
  | t => some (scalarJson t)

mutual
def compact : Tree → String
  | seq items => "[" ++ compactItems items ++ "]"
  | map entries => "\x7b" ++ compactEntries entries ++ "\x7d"
  | t => scalarJson t

def compactItems : List Tree → String
  | [] => ""
  | [t] => compact t
  | t :: rest => compact t ++ "," ++ compactItems rest

def compactEntries : List (String × Tree) → String
  | [] => ""
  | [(name,t)] => quoted name ++ ":" ++ compact t
  | (name,t) :: rest => quoted name ++ ":" ++ compact t ++ "," ++ compactEntries rest
end

def newline (level : Nat) : String := String.ofList ('\n' :: List.replicate (2 * level) ' ')

mutual
def prettyAt (level : Nat) : Tree → String
  | seq [] => "[]"
  | map [] => "\x7b\x7d"
  | seq items => "[" ++ prettyItems (level + 1) items ++ newline level ++ "]"
  | map entries => "\x7b" ++ prettyEntries (level + 1) entries ++ newline level ++ "\x7d"
  | t => scalarJson t

def prettyItems (level : Nat) : List Tree → String
  | [] => ""
  | [t] => newline level ++ prettyAt level t
  | t :: rest => newline level ++ prettyAt level t ++ "," ++ prettyItems level rest

def prettyEntries (level : Nat) : List (String × Tree) → String
  | [] => ""
  | [(name,t)] => newline level ++ quoted name ++ ": " ++ prettyAt level t
  | (name,t) :: rest => newline level ++ quoted name ++ ": " ++ prettyAt level t ++ "," ++ prettyEntries level rest
end

def pretty (t : Tree) : String := prettyAt 0 t

end AutomationLint.Tree
