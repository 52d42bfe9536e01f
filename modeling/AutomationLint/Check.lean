import AutomationLint.Record
import AutomationLint.Stream
import AutomationLint.Tree
import AutomationLint.Yaml.Reader

namespace AutomationLint
open AutomationLint.Tree

def candidateKeys : List String := ["alias","id","trigger","action"]

def automationField : String := "automation"

def isCandidate : Tree → Bool
  | .map entries => hasAnyKey entries candidateKeys
  | _ => false

-- The first rule that applies wins: a candidate root is one record, whatever
-- list it holds. The search goes one level deep and no further, so a record
-- inside a record is never found.
def extract (root : Tree) : List Tree :=
  match root with
  | .seq items => items.filter isCandidate
  | .map entries =>
    if isCandidate root then [root]
    else match entries.lookup automationField with
      | some (.seq items) => items.filter isCandidate
      | _ => []
  | _ => []

end AutomationLint

namespace AutomationLint

abbrev DocumentParser := String → Except ParseError (List Tree)

abbrev StatefulParser (σ : Type) := String → StateM σ (Except ParseError (List Tree))

def parseDocuments : DocumentParser := fun text => Stream.documents Yaml.read text.toList

structure CheckResult where
  documentCount : Nat
  root : Option Tree
  reports : List Report

namespace CheckResult

def notices (r : CheckResult) : List Diagnostic :=
  .new .success "documents_loaded" (toString r.documentCount ++ " document(s) loaded") ::
    if r.reports.isEmpty then
      [.new .info "no_automation"
        "no automation detected: no obvious automation objects were found, check structure or keys"]
    else []

def count (r : CheckResult) (severity : Severity) : Nat :=
  r.reports.foldl (fun total report => total + report.count severity) 0

end CheckResult

def validateAll (records : List Tree) : List Report := records.mapIdx fun i record => Record.validate record i

def checkRoot (documentCount : Nat) (root : Option Tree) : CheckResult :=
  ⟨documentCount,root,match root with
    | some root => validateAll (extract root)
    | none => []⟩

-- The parser may have a state of its own, such as a record of its calls. Blank
-- input is refused unread; otherwise the text is read untrimmed, so that the
-- places of faults fit it.
def checkThrough {σ : Type} (parse : StatefulParser σ) (text : String) : StateM σ (Except CheckError CheckResult) := do
  if Text.isBlank text.toList then pure (.error .emptyInput)
  else match ← parse text with
    | .error e => pure (.error (.parse e))
    | .ok docs => pure (.ok (checkRoot docs.length (Stream.selectRoot docs)))

def checkWith (parse : DocumentParser) (text : String) : Except CheckError CheckResult :=
  Prod.fst (checkThrough (fun text state => (parse text,state)) text ())

def check (text : String) : Except CheckError CheckResult := checkWith parseDocuments text

end AutomationLint
