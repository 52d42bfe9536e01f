import AutomationLint.Stream
import AutomationLint.Tree
import AutomationLint.Yaml.Token
import AutomationLint.Yaml.Writer

namespace AutomationLint.Yaml
open Writer

def isMark (text : List Char) : Bool := text == ['.'] || text == ['#'] || text == ['-']

def isLiteral (text : List Char) (indent : Nat) : Bool :=
  text.contains '\n' && (width < text.length || !isUnsafe (asOneLine text)) && (literal? text indent).isSome

def isFolded (text : List Char) : Bool := !text.contains '\n' && !isUnsafe text && width < text.length

def stringStyle (text : List Char) (indent : Nat) : ScalarStyle :=
  if isLiteral text indent then .literal
  else if isFolded text then .folded
  else if isMark text || isUnsafe text then .quoted
  else .plain

def keyStyle (key : List Char) : ScalarStyle := if isPlainKey key then .plain else .quoted

-- The indentation of a literal block is told relative to the block around it,
-- but written as if that were none.
structure LegibleLiteral (text : List Char) (indent : Nat) : Prop where
  carriage : '\r' ∉ text
  null : '\x00' ∉ text
  content : (splitEnd text).1 ≠ []
  shallow : needsDigit (Text.splitFeeds (splitEnd text).1) = true → indent ≤ 2

structure LegiblePlain (text : List Char) : Prop where
  trimmed : text.getLast? ≠ some ' '
  means : plainTree text = .str (String.ofList text)

structure LegibleKey (key : List Char) : Prop where
  short : (keyForm key).length ≤ 1024
  trimmed : isPlainKey key = true → key.getLast? ≠ some ' '
  unmerged : isPlainKey key = true → key ≠ ['<','<']

def LegibleText (text : List Char) (indent : Nat) : Prop :=
  match stringStyle text indent with
  | .literal => LegibleLiteral text indent
  | .plain => LegiblePlain text
  | .folded | .quoted => True

mutual
def LegibleAt (column : Nat) : Tree → Prop
  | .null | .bool _ | .float _ => True
  | .int n => Tree.Json.fitsWord n = true
  | .str s => LegibleText s.toList column
  | .seq items => LegibleItems (column + 2) items
  | .map entries => (entries.map Prod.fst).Nodup ∧ LegibleEntries (column + 2) entries

def LegibleItems (column : Nat) : List Tree → Prop
  | [] => True
  | t :: rest => LegibleAt column t ∧ LegibleItems column rest

def LegibleEntries (column : Nat) : List (String × Tree) → Prop
  | [] => True
  | (name,t) :: rest => LegibleKey name.toList ∧ LegibleAt column t ∧ LegibleEntries column rest
end

def Uncut (line : List Char) : Prop := Stream.isStart line = false ∧ Stream.isStop line = false ∧ line.head? ≠ some '%'

instance : Decidable (Uncut line) := instDecidableAnd

def rootColumn (t : Tree) : Nat := if isBlock t then 0 else 2

-- Only at the root do lines start with a key, or with a string without quotes.
def LegibleRoot : Tree → Prop
  | .map entries => ∀ e ∈ entries, Uncut (keyForm e.1.toList ++ [':'])
  | .str s => stringStyle s.toList 2 = .plain → Uncut s.toList ∧ Text.isBlank s.toList = false
  | _ => True

-- Most trees can be read back, since whatever would be misread is quoted. What
-- is lost is a blank at the end of an unquoted line, a carriage return in a
-- literal block, a number that the writer takes for a word, and the mark of a
-- merge as a key.
structure Legible (t : Tree) : Prop where
  values : LegibleAt (rootColumn t) t
  root : LegibleRoot t
  mark : (Writer.document t).head? ≠ some '\uFEFF'

instance (text : List Char) (indent : Nat) : Decidable (LegibleLiteral text indent) :=
  decidable_of_iff ('\r' ∉ text ∧ '\x00' ∉ text ∧ (splitEnd text).1 ≠ [] ∧
      (needsDigit (Text.splitFeeds (splitEnd text).1) = true → indent ≤ 2))
    ⟨fun ⟨carriage,null,content,shallow⟩ => ⟨carriage,null,content,shallow⟩,
      fun ⟨carriage,null,content,shallow⟩ => ⟨carriage,null,content,shallow⟩⟩

instance (text : List Char) : Decidable (LegiblePlain text) :=
  decidable_of_iff (text.getLast? ≠ some ' ' ∧ plainTree text = .str (String.ofList text))
    ⟨fun ⟨trimmed,means⟩ => ⟨trimmed,means⟩,fun ⟨trimmed,means⟩ => ⟨trimmed,means⟩⟩

instance (key : List Char) : Decidable (LegibleKey key) :=
  decidable_of_iff ((keyForm key).length ≤ 1024 ∧ (isPlainKey key = true → key.getLast? ≠ some ' ') ∧
      (isPlainKey key = true → key ≠ ['<','<']))
    ⟨fun ⟨short,trimmed,unmerged⟩ => ⟨short,trimmed,unmerged⟩,fun ⟨short,trimmed,unmerged⟩ => ⟨short,trimmed,unmerged⟩⟩

instance (text : List Char) (indent : Nat) : Decidable (LegibleText text indent) :=
  decidable_of_iff ((stringStyle text indent = .literal → LegibleLiteral text indent) ∧
      (stringStyle text indent = .plain → LegiblePlain text))
    (by unfold LegibleText; cases stringStyle text indent <;> simp)

mutual
def decideAt (column : Nat) : (t : Tree) → Decidable (LegibleAt column t)
  | .null => decidable_of_iff' True (by rw [LegibleAt])
  | .bool _ => decidable_of_iff' True (by rw [LegibleAt])
  | .int n => decidable_of_iff' (Tree.Json.fitsWord n = true) (by rw [LegibleAt])
  | .float _ => decidable_of_iff' True (by rw [LegibleAt])
  | .str s => decidable_of_iff' (LegibleText s.toList column) (by rw [LegibleAt])
  | .seq items =>
    have := decideItems (column + 2) items
    decidable_of_iff' (LegibleItems (column + 2) items) (by rw [LegibleAt])
  | .map entries =>
    have := decideEntries (column + 2) entries
    decidable_of_iff' ((entries.map Prod.fst).Nodup ∧ LegibleEntries (column + 2) entries) (by rw [LegibleAt])

def decideItems (column : Nat) : (items : List Tree) → Decidable (LegibleItems column items)
  | [] => decidable_of_iff' True (by rw [LegibleItems])
  | t :: rest =>
    have := decideAt column t
    have := decideItems column rest
    decidable_of_iff' (LegibleAt column t ∧ LegibleItems column rest) (by rw [LegibleItems])

def decideEntries (column : Nat) : (entries : List (String × Tree)) → Decidable (LegibleEntries column entries)
  | [] => decidable_of_iff' True (by rw [LegibleEntries])
  | (name,t) :: rest =>
    have := decideAt column t
    have := decideEntries column rest
    decidable_of_iff' (LegibleKey name.toList ∧ LegibleAt column t ∧ LegibleEntries column rest) (by rw [LegibleEntries])
end

instance (column : Nat) (t : Tree) : Decidable (LegibleAt column t) := decideAt column t

instance : (t : Tree) → Decidable (LegibleRoot t)
  | .map entries => inferInstanceAs (Decidable (∀ e ∈ entries, Uncut (keyForm e.1.toList ++ [':'])))
  | .str s => inferInstanceAs (Decidable (stringStyle s.toList 2 = .plain → Uncut s.toList ∧ Text.isBlank s.toList = false))
  | .null | .bool _ | .int _ | .float _ | .seq _ => inferInstanceAs (Decidable True)

instance (t : Tree) : Decidable (Legible t) :=
  decidable_of_iff (LegibleAt (rootColumn t) t ∧ LegibleRoot t ∧ (Writer.document t).head? ≠ some '\uFEFF')
    ⟨fun ⟨values,root,mark⟩ => ⟨values,root,mark⟩,fun ⟨values,root,mark⟩ => ⟨values,root,mark⟩⟩

def leafKinds (indent : Nat) : Tree → List TokenKind
  | .str s => [.scalar (stringStyle s.toList indent) s.toList]
  | .bool b => [.scalar .plain (if b then "true" else "false").toList]
  | .int n => [.scalar .plain (toString n).toList]
  | .float x => [.scalar .plain (x.text number).toList]
  | .null => [.scalar .plain "null".toList]
  | .seq _ => [.flowSequenceStart,.flowSequenceEnd]
  | .map _ => [.flowMappingStart,.flowMappingEnd]

def keyKinds (name : String) : List TokenKind := [.key,.scalar (keyStyle name.toList) name.toList,.value]

mutual
def kindsOf (column : Nat) : Tree → List TokenKind
  | .seq (t :: rest) =>
    .blockSequenceStart :: .blockEntry :: kindsOf (column + 2) t ++ itemKinds column rest ++ [.blockEnd]
  | .map ((name,t) :: rest) =>
    .blockMappingStart :: keyKinds name ++ kindsOf (column + 2) t ++ entryKinds column rest ++ [.blockEnd]
  | t => leafKinds column t

def itemKinds (column : Nat) : List Tree → List TokenKind
  | [] => []
  | t :: rest => .blockEntry :: kindsOf (column + 2) t ++ itemKinds column rest

def entryKinds (column : Nat) : List (String × Tree) → List TokenKind
  | [] => []
  | (name,t) :: rest => keyKinds name ++ kindsOf (column + 2) t ++ entryKinds column rest
end

theorem kindsOf_leaf (t : Tree) (leaf : isBlock t = false) (column : Nat) : kindsOf column t = leafKinds column t := by
  match t with
  | .seq (_ :: _) | .map (_ :: _) => exact nomatch leaf
  | .seq [] | .map [] | .null | .bool _ | .int _ | .float _ | .str _ => rw [kindsOf] <;> nofun

end AutomationLint.Yaml

namespace AutomationLint.Yaml.Writer

theorem inline_leaf (t : Tree) (leaf : isBlock t = false) (column : Nat) : Writer.inline column t = leafLines t column := by
  match t with
  | .seq (_ :: _) | .map (_ :: _) => exact nomatch leaf
  | .seq [] | .map [] | .null | .bool _ | .int _ | .float _ | .str _ => rw [Writer.inline] <;> nofun

theorem field_lead (column : Nat) (afterBlock : Bool) (t : Tree) :
    (isBlock t = false ∧ field column afterBlock t = ' ' :: Writer.inline (column + 2) t) ∨
      field column afterBlock t = '\n' :: (spaces (column + 2) ++ Writer.inline (column + 2) t) := by
  cases t with
  | seq items =>
    cases items with
    | nil =>
      rw [inline_leaf _ rfl,field,emptyField]
      cases afterBlock
      · exact .inl ⟨rfl,rfl⟩
      · exact .inr rfl
    | cons t rest =>
      rw [field,Writer.inline]
      exact .inr (by simp)
  | map entries =>
    cases entries with
    | nil =>
      rw [inline_leaf _ rfl,field,emptyField]
      cases afterBlock
      · exact .inl ⟨rfl,rfl⟩
      · exact .inr rfl
    | cons e rest =>
      obtain ⟨name,t⟩ := e
      rw [field,Writer.inline]
      exact .inr (by simp)
  | _ =>
    refine .inl ⟨rfl,?_⟩
    rw [inline_leaf _ rfl,field] <;> nofun

theorem document_root (t : Tree) : document t = Writer.inline (rootColumn t) t := by
  match t with
  | .seq (_ :: _) | .map (_ :: _) => rfl
  | .seq [] | .map [] | .null | .bool _ | .int _ | .float _ | .str _ =>
    rw [inline_leaf _ rfl]
    rfl

end AutomationLint.Yaml.Writer
