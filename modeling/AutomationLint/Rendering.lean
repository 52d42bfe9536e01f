import AutomationLint.Codec
import AutomationLint.Record
import AutomationLint.Tree

namespace AutomationLint

structure RenderedMessage where
  severity : Severity
  title : Option String
  message : String
  deriving DecidableEq

namespace RenderedMessage

def notice (d : Diagnostic) : RenderedMessage := ⟨d.severity,none,d.message⟩

def line (m : RenderedMessage) : String :=
  match m.title with
  | some title => "[" ++ m.severity.label ++ "] " ++ title ++ ": " ++ m.message ++ "\n"
  | none => "[" ++ m.severity.label ++ "] " ++ m.message ++ "\n"

@[simp] theorem line_notice (d : Diagnostic) : (notice d).line = d.line ++ "\n" := rfl

@[simp] theorem line_titled (severity : Severity) (title message : String) :
    (RenderedMessage.mk severity (some title) message).line = "[" ++ severity.label ++ "] " ++ title ++ ": " ++ message ++ "\n" :=
  rfl

def toTree (m : RenderedMessage) : Tree :=
  .map (("severity",.str m.severity.word) :: (m.title.map fun t => ("title",.str t)).toList ++
    [("message",.str m.message)])

end RenderedMessage

-- The lines of a report go through the severities in order, also where its
-- diagnostics do not. Its data below keep the diagnostics as they are stored.
def renderReport (r : Report) : List RenderedMessage :=
  Severity.all.flatMap fun severity => (r.ofSeverity severity).map fun d => ⟨severity,some r.title,d.message⟩

def renderReports (reports : List Report) : List RenderedMessage := reports.flatMap renderReport

def renderText (notices : List Diagnostic) (reports : List Report) : String :=
  String.join ((notices.map RenderedMessage.notice ++ renderReports reports).map RenderedMessage.line)

structure ReportView where
  title : String
  label : String
  diagnostics : List Diagnostic

structure RunSummary where
  documents : Nat
  notices : List Diagnostic
  reports : List ReportView

namespace RunSummary

def new (documents : Nat) (notices : List Diagnostic) (reports : List Report) : RunSummary :=
  ⟨documents,notices,reports.map fun r => ⟨r.title,r.label,r.diagnostics⟩⟩

def viewTree (v : ReportView) : Tree :=
  .map [("title",.str v.title),("label",.str v.label),("diagnostics",.seq (v.diagnostics.map Diagnostic.toTree))]

def toTree (s : RunSummary) : Tree :=
  .map [("documents",.int s.documents),("notices",.seq (s.notices.map Diagnostic.toTree)),
    ("reports",.seq (s.reports.map viewTree))]

def text (s : RunSummary) : String := s.toTree.pretty

end RunSummary

end AutomationLint
