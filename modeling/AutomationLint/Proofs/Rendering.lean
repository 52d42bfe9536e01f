import AutomationLint.Proofs.Codec
import AutomationLint.Proofs.CommandLine
import AutomationLint.Proofs.Tree.Json
import Mathlib.Data.List.Forall2

namespace AutomationLint
open AutomationLint.Tree

def RenderedMessage.ofRecord (title : String) (d : Diagnostic) : RenderedMessage := ⟨d.severity,some title,d.message⟩

theorem RenderedMessage.line_ofRecord (r : Report) (d : Diagnostic) : (ofRecord r.title d).line =
    "[" ++ d.severity.label ++ "] Automation " ++ toString (r.index + 1) ++ ": " ++ r.label ++ ": " ++ d.message ++ "\n" := by
  have opening : "] Automation " = "] " ++ "Automation " := by decide +kernel
  rw [opening,ofRecord,line_titled,Report.title]
  simp only [String.append_assoc]

def ReportView.messages (v : ReportView) : List RenderedMessage := v.diagnostics.map (.ofRecord v.title)

namespace RunSummary

def recordMessages (s : RunSummary) : List RenderedMessage := s.reports.flatMap ReportView.messages

def messages (s : RunSummary) : List RenderedMessage := s.notices.map .notice ++ s.recordMessages

end RunSummary

def CheckResult.summary (r : CheckResult) : RunSummary := .new r.documentCount r.notices r.reports

def messagesOf (severity : Severity) (said : List RenderedMessage) : List RenderedMessage :=
  said.filter fun m => m.severity == severity

structure StablySorted (found order : List Diagnostic) : Prop where
  perm : order.Perm found
  ascending : order.Pairwise fun a b => a.severity.rank ≤ b.severity.rank
  stable : ∀ severity, (order.filter fun d => d.severity == severity) = found.filter fun d => d.severity == severity

-- All that is said of one record, and nothing else: its diagnostics in order,
-- each under the record's title.
structure Block (r : Report) (said : List RenderedMessage) : Prop where
  tagged : ∃ order, StablySorted r.diagnostics order ∧ said = order.map (.ofRecord r.title)
  counted : ∀ severity, (messagesOf severity said).length = r.count severity
  texts : ∀ severity, (messagesOf severity said).map (·.message) = r.messages severity

variable (r : Report) (reports : List Report) (severity : Severity)

theorem tagged_ofSeverity : ((r.ofSeverity severity).map fun d => RenderedMessage.mk severity (some r.title) d.message) =
    (r.ofSeverity severity).map (.ofRecord r.title) := by
  apply List.map_congr_left
  intro d member
  cases eq_of_beq (List.mem_filter.mp member).2
  rfl

theorem renderReport_eq : renderReport r = (Collector.bySeverity r.diagnostics).map (.ofRecord r.title) := by
  unfold renderReport
  simp only [tagged_ofSeverity]
  rw [Collector.bySeverity_parts,List.map_flatMap]
  rfl

theorem renderReport_inOrder (sorted : r.InOrder) : renderReport r = r.diagnostics.map (.ofRecord r.title) := by
  rw [renderReport_eq,Collector.bySeverity_sorted _ sorted]

@[simp] theorem messagesOf_renderReport :
    messagesOf severity (renderReport r) = (r.ofSeverity severity).map (.ofRecord r.title) := by
  have kept : ((Collector.bySeverity r.diagnostics).filter fun d => d.severity == severity) = r.ofSeverity severity :=
    Collector.filter_bySeverity _ _
  rw [renderReport_eq,messagesOf,List.filter_map]
  exact congrArg _ kept

theorem bySeverity_stablySorted (found : List Diagnostic) : StablySorted found (Collector.bySeverity found) :=
  ⟨List.mergeSort_perm _ _,Collector.sorted_bySeverity found,Collector.filter_bySeverity found⟩

theorem renderReport_block : Block r (renderReport r) := by
  refine ⟨⟨_,bySeverity_stablySorted r.diagnostics,renderReport_eq r⟩,?_,?_⟩
  · intro severity
    simp [Report.count,Report.ofSeverity]
  · intro severity
    rw [messagesOf_renderReport,List.map_map]
    rfl

theorem renderReports_blocks : ∃ blocks, List.Forall₂ Block reports blocks ∧ renderReports reports = blocks.flatten := by
  refine ⟨reports.map renderReport,?_,List.flatMap_def ..⟩
  rw [List.forall₂_map_right_iff,List.forall₂_same]
  intro report _
  exact renderReport_block report

theorem new_recordMessages (documents : Nat) (notices : List Diagnostic) :
    (RunSummary.new documents notices reports).recordMessages =
      reports.flatMap fun report => report.diagnostics.map (.ofRecord report.title) := by
  rw [RunSummary.recordMessages,RunSummary.new,List.flatMap_map]
  rfl

theorem recordMessages_inOrder (documents : Nat) (notices : List Diagnostic)
    (sorted : ∀ report ∈ reports, report.InOrder) :
    (RunSummary.new documents notices reports).recordMessages = renderReports reports := by
  rw [new_recordMessages,renderReports,List.flatMap_def,List.flatMap_def]
  apply congrArg List.flatten
  apply List.map_congr_left
  intro report member
  exact (renderReport_inOrder report (sorted report member)).symm

theorem checkRoot_inOrder (count : Nat) (root : Option Tree) :
    ∀ report ∈ (checkRoot count root).reports, report.InOrder := by
  intro report member
  obtain ⟨record,k,rfl⟩ := checkRoot_validated count root report member
  exact Record.validate_inOrder record k

theorem renderText_parts (notices : List Diagnostic) : renderText notices reports =
    String.join (notices.map fun d => d.line ++ "\n") ++
      String.join ((renderReports reports).map RenderedMessage.line) := by
  rw [renderText,List.map_append,List.map_map,String.join_append]
  rfl

theorem renderText_records : renderText [] reports = String.join (reports.flatMap fun r =>
    (Collector.bySeverity r.diagnostics).map fun d => "[" ++ d.severity.label ++ "] Automation " ++
      toString (r.index + 1) ++ ": " ++ r.label ++ ": " ++ d.message ++ "\n") := by
  have lines : ∀ r : Report, (renderReport r).map RenderedMessage.line = (Collector.bySeverity r.diagnostics).map fun d =>
      (RenderedMessage.ofRecord r.title d).line := by
    intro r
    rw [renderReport_eq,List.map_map]
    rfl
  simp only [renderText,List.map_nil,List.nil_append,renderReports,List.map_flatMap,lines,RenderedMessage.line_ofRecord]

theorem rendered_in_blocks (reports more : List Report) (notices : List Diagnostic) :
    (∃ blocks, List.Forall₂ Block reports blocks ∧ renderReports reports = blocks.flatten) ∧
    renderReports (reports ++ more) = renderReports reports ++ renderReports more ∧
    renderText notices reports = String.join (notices.map fun d => d.line ++ "\n") ++
      String.join ((renderReports reports).map RenderedMessage.line) ∧
    renderText notices reports = renderText notices [] ++ renderText [] reports ∧
    Severity.all.map Severity.label = ["error","warn","info","success"] ∧
    (∀ d : Diagnostic, d.line = "[" ++ d.severity.label ++ "] " ++ d.message) ∧
    (∀ (r : Report) (d : Diagnostic), (RenderedMessage.ofRecord r.title d).line =
      "[" ++ d.severity.label ++ "] Automation " ++ toString (r.index + 1) ++ ": " ++ r.label ++ ": " ++ d.message ++ "\n") ∧
    renderText [] reports = String.join (reports.flatMap fun r => (Collector.bySeverity r.diagnostics).map fun d =>
      "[" ++ d.severity.label ++ "] Automation " ++ toString (r.index + 1) ++ ": " ++ r.label ++ ": " ++ d.message ++ "\n") := by
  have apart : renderText notices reports = renderText notices [] ++ renderText [] reports := by
    rw [renderText_parts reports notices,renderText_parts [] notices,renderText_parts reports []]
    simp [renderReports,String.join]
  exact ⟨renderReports_blocks reports,List.flatMap_append,renderText_parts reports notices,apart,rfl,fun _ => rfl,
    RenderedMessage.line_ofRecord,renderText_records reports⟩

end AutomationLint
