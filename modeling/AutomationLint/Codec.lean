import AutomationLint.Diagnostic
import AutomationLint.Record
import AutomationLint.Tree

namespace AutomationLint
open AutomationLint.Tree

namespace Tree

def string? : Tree → Option String
  | .str s => some s
  | _ => none

def natural? : Tree → Option Nat
  | .int n => if 0 ≤ n then some n.toNat else none
  | _ => none

def items? : Tree → Option (List Tree)
  | .seq items => some items
  | _ => none

def optional? (decode : Tree → Option α) : Option Tree → Option (Option α)
  | none | some .null => some none
  | some t => (decode t).map some

-- Fields are found by name in any order, and what is not asked for is skipped.
-- A tree may also be the bare list of the field values; then none may be
-- missing.
def fields? (names : List String) : Tree → Option (List (Option Tree))
  | .map entries => some (names.map fun name => entries.lookup name)
  | .seq items => if items.length == names.length then some (items.map some) else none
  | _ => none

end Tree

-- A severity is a word, or a mapping from that word to null.
def Severity.ofTree? : Tree → Option Severity
  | .str s => Severity.ofWord? s
  | .map [(name,.null)] => Severity.ofWord? name
  | _ => none

namespace Diagnostic

def toTree (d : Diagnostic) : Tree :=
  .map ([("severity",.str d.severity.word),("code",.str d.code)] ++
    (d.path.map fun p => ("path",.str p)).toList ++ [("message",.str d.message)])

def names : List String := ["severity","code","path","message"]

def ofFields? : List (Option Tree) → Option Diagnostic
  | [some severity,some code,path,some message] => do
    some ⟨← Severity.ofTree? severity,← code.string?,← optional? string? path,← message.string?⟩
  | _ => none

def ofTree? (t : Tree) : Option Diagnostic := (t.fields? names).bind ofFields?

end Diagnostic

namespace Report

def toTree (r : Report) : Tree :=
  .map [("index",.int r.index),("label",.str r.label),("diagnostics",.seq (r.diagnostics.map Diagnostic.toTree))]

def names : List String := ["index","label","diagnostics"]

def ofFields? : List (Option Tree) → Option Report
  | [some index,some label,some diagnostics] => do
    some ⟨← index.natural?,← label.string?,← (← diagnostics.items?).mapM Diagnostic.ofTree?⟩
  | _ => none

def ofTree? (t : Tree) : Option Report := (t.fields? names).bind ofFields?

end Report

namespace ParseError

def toTree (e : ParseError) : Tree :=
  .map (("message",.str e.message) :: (e.line.map fun n => ("line",.int n)).toList ++
    (e.column.map fun n => ("column",.int n)).toList)

def names : List String := ["message","line","column"]

def ofFields? : List (Option Tree) → Option ParseError
  | [some message,line,column] => do
    some ⟨← message.string?,← optional? natural? line,← optional? natural? column⟩
  | _ => none

def ofTree? (t : Tree) : Option ParseError := (t.fields? names).bind ofFields?

end ParseError

end AutomationLint
