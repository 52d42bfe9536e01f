import AutomationLint.Diagnostic
import AutomationLint.Tree

namespace AutomationLint

structure Report where
  index : Nat
  label : String
  diagnostics : List Diagnostic
  deriving DecidableEq

namespace Report

def ofSeverity (r : Report) (severity : Severity) : List Diagnostic :=
  r.diagnostics.filter fun d => d.severity == severity

def count (r : Report) (severity : Severity) : Nat := (r.ofSeverity severity).length

def messages (r : Report) (severity : Severity) : List String := (r.ofSeverity severity).map (·.message)

def isClean (r : Report) : Bool := r.count .error == 0 && r.count .warning == 0

def title (r : Report) : String := "Automation " ++ toString (r.index + 1) ++ ": " ++ r.label

end Report

end AutomationLint

namespace AutomationLint.Record
open AutomationLint.Tree

def triggerKeys : List String := ["platform","event_type","entity_id","device_id","time"]

def actionKeys : List String :=
  ["service","device_id","scene","choose","delay","wait_template","wait_for_trigger","repeat"]

def label (record : Tree) (index : Nat) : String :=
  match (["alias","id"].filterMap record.field?).find? truthy with
  | some (.str s) => s
  | some t => compact t
  | none => "Automation " ++ toString (index + 1)

def finding (severity : Severity) (code path message : String) : Diagnostic :=
  (Diagnostic.new severity code message).withPath path

inductive ItemKind where
  | trigger | action
  deriving DecidableEq

def ItemKind.word : ItemKind → String
  | .trigger => "trigger"
  | .action => "action"

def ItemKind.keys : ItemKind → List String
  | .trigger => triggerKeys
  | .action => actionKeys

def itemName (kind : ItemKind) (index : Nat) : String := kind.word ++ " #" ++ toString (index + 1)

def keyFindings (kind : ItemKind) (entries : Entries) (index : Nat) (path : String) : List Diagnostic :=
  if hasAnyKey entries kind.keys then []
  else
    let keys := " (" ++ "/".intercalate kind.keys ++ ")"
    match kind with
    | .trigger => [finding .info "trigger_no_obvious_key" path (itemName kind index ++ " has no obvious key" ++ keys)]
    | .action => [finding .warning "action_no_expected_key" path (itemName kind index ++ " has no expected key" ++ keys)]

def ItemKind.naming : ItemKind → String
  | .trigger => "platform"
  | .action => "service"

def namingFindings (kind : ItemKind) (entries : Entries) (index : Nat) (path : String) : List Diagnostic :=
  match entries.lookup kind.naming with
  | none | some (.str _) => []
  | some _ =>
    [finding .warning (kind.naming ++ "_not_string") (path ++ "." ++ kind.naming)
      (itemName kind index ++ ": '" ++ kind.naming ++ "' should be a string")]

def dataFindings (kind : ItemKind) (entries : Entries) (index : Nat) (path : String) : List Diagnostic :=
  match kind, entries.lookup "data" with
  | .trigger, _ | .action, none | .action, some .null | .action, some (.map _) => []
  | .action, some _ =>
    [finding .info "data_not_object" (path ++ ".data") (itemName kind index ++ ": 'data' should be an object")]

def itemFindings (kind : ItemKind) (item : Tree) (index : Nat) (path : String) : List Diagnostic :=
  match item with
  | .map entries =>
    keyFindings kind entries index path ++ namingFindings kind entries index path ++
      dataFindings kind entries index path
  | _ => [finding .warning (kind.word ++ "_not_object") path (itemName kind index ++ " is not an object")]

def listPath (kind : ItemKind) (index : Nat) : String := kind.word ++ "[" ++ toString index ++ "]"

def itemsFindings (kind : ItemKind) (index : Nat) : List Tree → List Diagnostic
  | [] => []
  | item :: rest => itemFindings kind item index (listPath kind index) ++ itemsFindings kind (index + 1) rest

-- Null stands for one missing item, not for a value of the wrong type; so it
-- is left to the check of an item.
def fieldFindings (kind : ItemKind) (value : Tree) : List Diagnostic :=
  match value with
  | .seq [] => [finding .warning (kind.word ++ "_list_empty") kind.word (kind.word ++ " list is empty")]
  | .seq items => itemsFindings kind 0 items
  | .map _ | .null => itemFindings kind value 0 kind.word
  | _ => [finding .warning (kind.word ++ "_wrong_type") kind.word (kind.word ++ " is not an object/array")]

def missing (kind : ItemKind) (record : Tree) (label : String) : List Diagnostic :=
  match record.field? kind.word with
  | some _ => []
  | none => [finding .warning ("missing_" ++ kind.word) kind.word ("missing " ++ kind.word ++ " in " ++ label)]

def noCondition (record : Tree) (label : String) : List Diagnostic :=
  match record.field? "condition" with
  | some _ => []
  | none => [finding .info "no_condition" "condition" ("no condition in " ++ label ++ " (runs on every trigger)")]

def partFindings (kind : ItemKind) (record : Tree) : List Diagnostic :=
  match record.field? kind.word with
  | some value => fieldFindings kind value
  | none => []

def findings (record : Tree) (label : String) : List Diagnostic :=
  missing .trigger record label ++ missing .action record label ++ noCondition record label ++
    partFindings .trigger record ++ partFindings .action record

def structureOk (label : String) : Diagnostic :=
  .new .success "structure_ok" ("basic structure OK (" ++ label ++ ")")

def verdict (c : Collector) (label : String) : List Diagnostic :=
  if c.count .error == 0 && c.count .warning == 0 then [structureOk label] else []

-- Every check looks at the record alone and only adds findings, so no finding
-- hides another one. The verdict looks at everything that was collected before
-- it.
def validate (record : Tree) (index : Nat) : Report :=
  let label := label record index
  let collected := Collector.empty.pushAll (findings record label)
  ⟨index,label,(collected.pushAll (verdict collected label)).ordered⟩

def validateItem (kind : ItemKind) (item : Tree) (index : Nat) (c : Collector) : Collector :=
  c.pushAll (itemFindings kind item index (listPath kind index))

def validateTrigger (item : Tree) (index : Nat) (c : Collector) : Collector := validateItem .trigger item index c

def validateAction (item : Tree) (index : Nat) (c : Collector) : Collector := validateItem .action item index c

end AutomationLint.Record
