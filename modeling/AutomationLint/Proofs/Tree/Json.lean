import AutomationLint.Proofs.Text
import AutomationLint.Proofs.Tree.JsonNumber
import Mathlib.Data.List.DropRight

namespace AutomationLint.Tree
open AutomationLint.Text

theorem escaped_feedless (c : Char) : '\n' ∉ escaped c := by
  have hex : ∀ n < 16, Text.lowerHex n ≠ '\n' := by decide
  unfold escaped
  split
  case h_8 other _ _ _ _ =>
    split
    · have high := hex (c.toNat / 16) (by omega)
      have low := hex (c.toNat % 16) (by omega)
      simp [high.symm,low.symm]
    · simpa using Ne.symm other
  all_goals decide

@[simp] theorem oneLine_quoted (s : String) : OneLine (quoted s) := by
  simp only [OneLine,quoted,String.toList_ofList,List.mem_append,List.mem_cons,List.mem_flatMap]
  have inside : ∀ c ∈ s.toList, '\n' ∉ escaped c := fun c _ => escaped_feedless c
  simpa using inside

theorem numeral_oneLine {text : String} (numeral : Yaml.Plain.Numeral text.toList) : OneLine text :=
  fun feed => absurd (numeral.each '\n' feed) (by decide)

@[simp] theorem oneLine_scalarJson (t : Tree) : OneLine (scalarJson t) := by
  cases t with
  | null => decide
  | bool b => cases b <;> decide
  | int n => exact numeral_oneLine (Yaml.Plain.int_numeral n)
  | float x => exact numeral_oneLine (Yaml.Plain.float_numeral jsonNumber x)
  | str s => simp [scalarJson]
  | seq items => exact (by decide : OneLine "null")
  | map entries => exact (by decide : OneLine "null")

mutual
@[simp] theorem oneLine_compact : ∀ t : Tree, OneLine (compact t)
  | .null | .bool _ | .int _ | .float _ | .str _ => by
    simp [compact]
  | .seq items => by
    have inside := oneLine_compactItems items
    simp +decide [compact,inside]
  | .map entries => by
    have inside := oneLine_compactEntries entries
    simp +decide [compact,inside]

theorem oneLine_compactItems : ∀ items : List Tree, OneLine (compactItems items)
  | [] => by decide
  | [t] => oneLine_compact t
  | t :: next :: rest => by
    have first := oneLine_compact t
    have later := oneLine_compactItems (next :: rest)
    simp +decide [compactItems,first,later]

theorem oneLine_compactEntries : ∀ entries : List (String × Tree), OneLine (compactEntries entries)
  | [] => by decide
  | [(name,t)] => by
    have value := oneLine_compact t
    simp +decide [compactEntries,value]
  | (name,t) :: next :: rest => by
    have first := oneLine_compact t
    have later := oneLine_compactEntries (next :: rest)
    simp +decide [compactEntries,first,later]
end

theorem numeral_ne_empty {text : String} (numeral : Yaml.Plain.Numeral text.toList) : text ≠ "" := by
  rintro rfl
  cases numeral

theorem scalarJson_ne_empty (t : Tree) : scalarJson t ≠ "" := by
  cases t with
  | null | seq | map => exact (by decide : "null" ≠ "")
  | bool b => cases b <;> exact (by decide)
  | int n => exact numeral_ne_empty (Yaml.Plain.int_numeral n)
  | float x => exact numeral_ne_empty (Yaml.Plain.float_numeral jsonNumber x)
  | str s =>
    intro none
    have quotes := congrArg String.toList none
    simp [scalarJson,quoted] at quotes

theorem compact_ne_empty (t : Tree) : compact t ≠ "" := by
  cases t with
  | seq items | map entries => simp [compact]
  | _ =>
    rw [compact]
    exact scalarJson_ne_empty _
    all_goals nofun

end AutomationLint.Tree

namespace AutomationLint.Tree.Json
open Text

def Ends (rest : List Char) : Prop := ∀ c, rest.head? = some c → isNumberChar c = false

def isSpace (c : Char) : Bool := c == ' ' || c == '\n' || c == '\r' || c == '\t'

def Opens (text : List Char) : Prop := ∃ c, text.head? = some c ∧ isSpace c = false ∧ c ≠ ']'

end AutomationLint.Tree.Json

namespace AutomationLint.Tree

end AutomationLint.Tree
