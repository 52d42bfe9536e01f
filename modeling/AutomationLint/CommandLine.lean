import AutomationLint.Check
import AutomationLint.Rendering

namespace AutomationLint

def sample : String :=
"# Two example automations
- alias: Light on when motion
  trigger:
    - platform: state
      entity_id: binary_sensor.motion
      to: 'on'
  condition:
    - condition: time
      after: '06:00:00'
      before: '23:00:00'
  action:
    - service: light.turn_on
      target:
        entity_id: light.hallway

- alias: Window warning
  trigger:
    - platform: state
      entity_id: binary_sensor.window
      to: 'on'
  action:
    - service: notify.mobile_app_phone
      data:
        message: The window was opened!
"

end AutomationLint

namespace AutomationLint.CommandLine

inductive Format where
  | text | json
  deriving DecidableEq

def Format.ofWord? : List Char → Option Format
  | ['t','e','x','t'] => some .text
  | ['j','s','o','n'] => some .json
  | _ => none

structure Options where
  input : Option String
  format : Format
  preview : Bool
  sample : Bool
  denyWarnings : Bool
  deriving DecidableEq

inductive Request where
  | run (options : Options)
  | version
  | help
  | misuse
  deriving DecidableEq

structure Given where
  input : Option String
  format : Option Format
  preview : Bool
  sample : Bool
  denyWarnings : Bool

def Given.nothing : Given := ⟨none,none,false,false,false⟩

def Given.setFormat? (g : Given) (word : List Char) : Option Given :=
  match g.format, Format.ofWord? word with
  | none, some f => some {g with format := some f}
  | _, _ => none

def Given.setPreview? (g : Given) : Option Given := if g.preview then none else some {g with preview := true}

def Given.setSample? (g : Given) : Option Given := if g.sample then none else some {g with sample := true}

def Given.setDenyWarnings? (g : Given) : Option Given :=
  if g.denyWarnings then none else some {g with denyWarnings := true}

def Given.setInput? (g : Given) (path : String) : Option Given :=
  if g.input.isSome || path == "" then none else some {g with input := some path}

def Given.finish (g : Given) : Request :=
  if g.sample && g.input.isSome then .misuse
  else .run ⟨g.input,g.format.getD .text,g.preview,g.sample,g.denyWarnings⟩

inductive Step where
  | go (g : Given)
  | formatNext (g : Given)
  | pathsOnly (g : Given)
  | settled (r : Request)

def Step.ofOption : Option Given → Step
  | some g => .go g
  | none => .settled .misuse

-- The letters after one dash. The letter that takes a value takes the rest of
-- them, if there is any.
def letters (g : Given) : List Char → Step
  | [] => .go g
  | 'p' :: rest =>
    match g.setPreview? with
    | some g => letters g rest
    | none => .settled .misuse
  | 'V' :: _ => .settled .version
  | 'h' :: _ => .settled .help
  | ['f'] => .formatNext g
  | 'f' :: '=' :: word | 'f' :: word => .ofOption (g.setFormat? word)
  | _ => .settled .misuse

def longName (g : Given) (name : List Char) : Step :=
  match String.ofList name with
  | "version" => .settled .version
  | "help" => .settled .help
  | "format" => .formatNext g
  | "preview" => .ofOption g.setPreview?
  | "sample" => .ofOption g.setSample?
  | "deny-warnings" => .ofOption g.setDenyWarnings?
  | _ => match stripStart? "format=".toList name with
    | some word => .ofOption (g.setFormat? word)
    | none => .settled .misuse

def step (g : Given) (arg : String) : Step :=
  match arg.toList with
  | ['-','-'] => .pathsOnly g
  | '-' :: '-' :: name => longName g name
  | '-' :: c :: more => letters g (c :: more)
  | _ => .ofOption (g.setInput? arg)

def isFlag (arg : List Char) : Bool := arg.head? == some '-' && arg != ['-']

def paths (g : Given) : List String → Request
  | [] => g.finish
  | arg :: rest =>
    match g.setInput? arg with
    | some g => paths g rest
    | none => .misuse

-- Arguments are read from left to right, and the first one that settles the
-- run wins: a request for the version or for help, or a misuse. So a misuse
-- behind such a request goes unnoticed.
def args (g : Given) : List String → Request
  | [] => g.finish
  | arg :: rest =>
    match step g arg with
    | .go g => args g rest
    | .pathsOnly g => paths g rest
    | .settled r => r
    | .formatNext g =>
      match rest with
      | [] => .misuse
      | word :: rest =>
        if isFlag word.toList then .misuse
        else match g.setFormat? word.toList with
          | some g => args g rest
          | none => .misuse

def request (given : List String) : Request := args .nothing given

inductive Source where
  | input
  | file (path : String)
  deriving DecidableEq

structure Outcome where
  exit : Nat
  stdout : String
  deriving DecidableEq

def versionText : String := "autocheck 0.1.0\n"

-- The layout of the argument parser: what the program is for, how it is
-- called, and then the arguments, each in its order, with the descriptions
-- below one another behind the widest name.
def helpLines : List String :=
  ["Heuristic structural checks for home-automation YAML documents",
    "",
    "Usage: autocheck [OPTIONS] [INPUT]",
    "",
    "Arguments:",
    "  [INPUT]  YAML file to check; `-` or omitted reads stdin",
    "",
    "Options:",
    "  -f, --format <FORMAT>  Output format [default: text] [possible values: text, json]",
    "  -p, --preview          Also print the parsed root as JSON",
    "      --sample           Check the bundled sample document instead of reading input",
    "      --deny-warnings    Exit non-zero when any warning is reported",
    "  -h, --help             Print help",
    "  -V, --version          Print version"]

def helpText : String := String.join (helpLines.map (· ++ "\n"))

def refused : Outcome := ⟨2,""⟩

def summaryText (documents : Nat) (notices : List Diagnostic) (reports : List Report) : String :=
  (RunSummary.new documents notices reports).text ++ "\n"

def findingsText (format : Format) (documents : Nat) (notices : List Diagnostic) (reports : List Report) : String :=
  match format with
  | .text => renderText notices reports
  | .json => summaryText documents notices reports

def previewText (preview : Bool) (root : Option Tree) : String :=
  match preview, root with
  | true, some root => root.pretty ++ "\n"
  | _, _ => ""

def failed (denyWarnings : Bool) (r : CheckResult) : Bool :=
  0 < r.count .error || (denyWarnings && 0 < r.count .warning)

def outcome (o : Options) (text : String) : Outcome :=
  match check text with
  | .error e => ⟨1,findingsText o.format 0 [e.toDiagnostic] []⟩
  | .ok r =>
    ⟨if failed o.denyWarnings r then 1 else 0,
      findingsText o.format r.documentCount r.notices r.reports ++ previewText o.preview r.root⟩

def Options.source? (o : Options) : Option Source :=
  if o.sample then none
  else match o.input with
    | none | some "-" => some .input
    | some path => some (.file path)

def run (read : Source → Option String) (given : List String) : Outcome :=
  match request given with
  | .version => ⟨0,versionText⟩
  | .help => ⟨0,helpText⟩
  | .misuse => refused
  | .run o =>
    match o.source? with
    | none => outcome o sample
    | some source =>
      match read source with
      | some text => outcome o text
      | none => refused

end AutomationLint.CommandLine
