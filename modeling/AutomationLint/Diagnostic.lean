namespace AutomationLint

inductive Severity where
  | error | warning | info | success
  deriving DecidableEq, Repr

namespace Severity

def all : List Severity := [error,warning,info,success]

def word : Severity → String
  | error => "error"
  | warning => "warning"
  | info => "info"
  | success => "success"

def label : Severity → String
  | error => "error"
  | warning => "warn"
  | info => "info"
  | success => "success"

def ofWord? : String → Option Severity
  | "error" => some error
  | "warning" => some warning
  | "info" => some info
  | "success" => some success
  | _ => none

def rank : Severity → Nat
  | error => 0
  | warning => 1
  | info => 2
  | success => 3

def sort (list : List Severity) : List Severity := list.mergeSort fun a b => a.rank ≤ b.rank

end Severity

structure Diagnostic where
  severity : Severity
  code : String
  path : Option String
  message : String
  deriving DecidableEq

namespace Diagnostic

def new (severity : Severity) (code message : String) : Diagnostic := ⟨severity,code,none,message⟩

def withPath (d : Diagnostic) (path : String) : Diagnostic := {d with path := some path}

def line (d : Diagnostic) : String := "[" ++ d.severity.label ++ "] " ++ d.message

end Diagnostic

-- One list for each severity. Collecting only appends, and the read-out goes
-- through the severities in order, whatever the order of collection was.
structure Collector where
  errors : List Diagnostic
  warnings : List Diagnostic
  infos : List Diagnostic
  successes : List Diagnostic
  deriving DecidableEq

namespace Collector

def empty : Collector := ⟨[],[],[],[]⟩

def push (c : Collector) (d : Diagnostic) : Collector :=
  match d.severity with
  | .error => {c with errors := c.errors ++ [d]}
  | .warning => {c with warnings := c.warnings ++ [d]}
  | .info => {c with infos := c.infos ++ [d]}
  | .success => {c with successes := c.successes ++ [d]}

def pushAll (c : Collector) (found : List Diagnostic) : Collector := found.foldl push c

def bucket (c : Collector) : Severity → List Diagnostic
  | .error => c.errors
  | .warning => c.warnings
  | .info => c.infos
  | .success => c.successes

def count (c : Collector) (severity : Severity) : Nat := (c.bucket severity).length

def readOut (c : Collector) : List Diagnostic := Severity.all.flatMap c.bucket

def ordered (c : Collector) : List Diagnostic := c.errors ++ c.warnings ++ c.infos ++ c.successes

end Collector

structure Mark where
  line : Nat
  column : Nat
  deriving DecidableEq

-- Lines and columns are counted from one here and from zero in a mark. Either
-- may be unknown, and then neither is shown.
structure ParseError where
  message : String
  line : Option Nat
  column : Option Nat
  deriving DecidableEq

namespace ParseError

def new (message : String) : ParseError := ⟨message,none,none⟩

def markedAt (e : ParseError) (mark : Mark) : ParseError :=
  {e with line := some (mark.line + 1), column := some (mark.column + 1)}

def text (e : ParseError) : String :=
  match e.line, e.column with
  | some line, some column =>
    e.message ++ " (line " ++ toString line ++ ", column " ++ toString column ++ ")"
  | _, _ => e.message

def toDiagnostic (e : ParseError) : Diagnostic := .new .error "parse_error" e.text

end ParseError

structure WriteError where
  message : String

inductive CheckError where
  | emptyInput
  | parse (e : ParseError)
  deriving DecidableEq

namespace CheckError

def text : CheckError → String
  | emptyInput => "no input"
  | parse e => "Parse error: " ++ e.text

def toDiagnostic : CheckError → Diagnostic
  | emptyInput => .new .warning "no_input" "no input: paste or pipe a YAML document to check"
  | parse e => e.toDiagnostic

end CheckError

end AutomationLint
