import AutomationLint.Proofs.Collector
import AutomationLint.Proofs.Record.Acceptance

namespace AutomationLint.Record
open AutomationLint.Tree

inductive Collecting where
  | push (d : Diagnostic)
  | trigger (item : Tree) (index : Nat)
  | action (item : Tree) (index : Nat)

namespace Collecting

def apply : Collecting → Collector → Collector
  | push d, c => c.push d
  | trigger item index, c => validateTrigger item index c
  | action item index, c => validateAction item index c

def run (steps : List Collecting) : Collector := steps.foldl (fun c step => step.apply c) .empty

def alone (step : Collecting) : List Diagnostic := (step.apply .empty).readOut

def history (steps : List Collecting) : List Diagnostic := steps.flatMap alone

def found : Collecting → List Diagnostic
  | push d => [d]
  | trigger item index => itemFindings .trigger item index (listPath .trigger index)
  | action item index => itemFindings .action item index (listPath .action index)

def ofItem (kind : ItemKind) (item : Tree) (index : Nat) : Collecting :=
  match kind with
  | .trigger => trigger item index
  | .action => action item index

def ofItems (kind : ItemKind) (items : List Tree) : List Collecting :=
  items.zipIdx.map fun (item,index) => ofItem kind item index

variable (step : Collecting) (steps later : List Collecting) (c : Collector) (severity : Severity) (kind : ItemKind)

@[simp] theorem apply_eq_pushAll : step.apply c = c.pushAll step.found := by
  cases step <;> rfl

theorem foldl_apply : steps.foldl (fun c step => step.apply c) c = c.pushAll (steps.flatMap found) := by
  induction steps generalizing c with
  | nil => rfl
  | cons step steps ih => rw [List.foldl_cons,ih,apply_eq_pushAll,Collector.pushAll_append,List.flatMap_cons]

theorem run_eq_pushAll : run steps = Collector.empty.pushAll (steps.flatMap found) := foldl_apply steps .empty

theorem run_append : run (steps ++ later) = (run steps).pushAll (later.flatMap found) := by
  rw [run,List.foldl_append,foldl_apply later]
  rfl

-- A step's own read-out is sorted, the step's findings are not; within one
-- severity they agree.
theorem filter_history : ((history steps).filter fun d => d.severity == severity) =
    (steps.flatMap found).filter fun d => d.severity == severity := by
  have each : ∀ step : Collecting, (step.alone.filter fun d => d.severity == severity) =
      step.found.filter fun d => d.severity == severity := by
    intro step
    simp [alone]
  simp only [history,List.filter_flatMap,each]

theorem readOut_run : (run steps).readOut = Collector.bySeverity (history steps) := by
  rw [run_eq_pushAll,Collector.readOut_pushAll,Collector.bySeverity_parts,Collector.bySeverity_parts]
  simp only [filter_history]

theorem count_run : (run steps).count severity =
    ((history steps).filter fun d => d.severity == severity).length := by
  rw [run_eq_pushAll,Collector.count_pushAll,filter_history]

theorem found_ofItem (item : Tree) (index : Nat) :
    (ofItem kind item index).found = itemFindings kind item index (listPath kind index) := by
  cases kind <;> rfl

theorem found_ofItems (items : List Tree) (index : Nat) :
    ((items.zipIdx index).map fun (item,i) => ofItem kind item i).flatMap found = itemsFindings kind index items := by
  induction items generalizing index with
  | nil => rfl
  | cons item items ih =>
    rw [List.zipIdx_cons,List.map_cons,List.flatMap_cons,ih,found_ofItem]
    rfl

theorem found_push (pushed : List Diagnostic) : (pushed.map push).flatMap found = pushed := by
  rw [List.flatMap_map]
  exact List.flatMap_singleton' pushed

end Collecting

def presence (record : Tree) (title : String) : List Diagnostic :=
  missing .trigger record title ++ missing .action record title ++ noCondition record title

theorem presence_of_parts (record : Tree) (title : String) (trigger action : Tree)
    (atTrigger : record.field? "trigger" = some trigger) (atAction : record.field? "action" = some action) :
    (presence record title).length ≤ 1 ∧ ∀ d ∈ presence record title, d.code = "no_condition" := by
  have present : presence record title = noCondition record title := by
    simp [presence,missing,ItemKind.word,atTrigger,atAction]
  rw [present]
  unfold noCondition
  split
  · simp
  · simp [finding,Diagnostic.new,Diagnostic.withPath]

theorem partFindings_list (kind : ItemKind) (record : Tree) (items : List Tree) (some : items ≠ [])
    (there : record.field? kind.word = .some (.seq items)) : partFindings kind record = itemsFindings kind 0 items := by
  unfold partFindings
  rw [there]
  cases items with
  | nil => exact absurd rfl some
  | cons => rfl

def recordSteps (record : Tree) (title : String) (triggers actions : List Tree) : List Collecting :=
  (presence record title).map .push ++ Collecting.ofItems .trigger triggers ++ Collecting.ofItems .action actions

theorem recordSteps_found (record : Tree) (title : String) (triggers actions : List Tree)
    (someTriggers : triggers ≠ []) (someActions : actions ≠ [])
    (atTrigger : record.field? "trigger" = some (.seq triggers))
    (atAction : record.field? "action" = some (.seq actions)) :
    (recordSteps record title triggers actions).flatMap Collecting.found = findings record title := by
  have triggerPart := partFindings_list .trigger record triggers someTriggers atTrigger
  have actionPart := partFindings_list .action record actions someActions atAction
  rw [recordSteps,List.flatMap_append,List.flatMap_append,Collecting.found_push]
  rw [Collecting.ofItems,Collecting.found_ofItems,Collecting.ofItems,Collecting.found_ofItems]
  rw [findings,triggerPart,actionPart,presence]

-- What was reached, and the success on top of it when nothing speaks against
-- it.
def judged (c : Collector) (title : String) : Collector :=
  if c.count .error = 0 ∧ c.count .warning = 0 then c.push (structureOk title) else c

theorem judged_eq_pushAll (c : Collector) (title : String) : judged c title = c.pushAll (verdict c title) := by
  unfold judged verdict
  by_cases sound : c.count .error = 0 ∧ c.count .warning = 0
  · simp [sound,Collector.pushAll]
  · rw [if_neg sound,if_neg (by simpa using sound)]
    rfl

theorem collected_by_severity :
    (∀ steps, (Collecting.run steps).readOut = Collector.bySeverity (Collecting.history steps) ∧
      (Collecting.run steps).ordered = Collector.bySeverity (Collecting.history steps) ∧
      (∀ severity, (Collecting.run steps).count severity =
        ((Collecting.history steps).filter fun d => d.severity == severity).length) ∧
      ∀ later, (Collecting.run steps).readOut.Sublist (Collecting.run (steps ++ later)).readOut) ∧
    ∀ entries index triggers actions, triggers ≠ [] → actions ≠ [] →
      entries.lookup "trigger" = some (.seq triggers) → entries.lookup "action" = some (.seq actions) →
      let record := Tree.map entries
      let title := label record index
      (presence record title).length ≤ 1 ∧ (∀ d ∈ presence record title, d.code = "no_condition") ∧
        (validate record index).diagnostics =
          (judged (Collecting.run (recordSteps record title triggers actions)) title).ordered := by
  constructor
  · intro steps
    refine ⟨Collecting.readOut_run steps,?_,Collecting.count_run steps,?_⟩
    · simpa using Collecting.readOut_run steps
    · intro later
      rw [Collecting.run_append]
      exact Collector.readOut_sublist _ _
  · intro entries index triggers actions someTriggers someActions atTrigger atAction record title
    obtain ⟨atMostOne,condition⟩ := presence_of_parts record title _ _ atTrigger atAction
    refine ⟨atMostOne,condition,?_⟩
    have all := recordSteps_found record title triggers actions someTriggers someActions atTrigger atAction
    rw [validate_diagnostics,←Collector.pushAll_append,judged_eq_pushAll,Collecting.run_eq_pushAll,all]

theorem collected_by_severity_two_actions :
    let triggers := [Tree.map [("at",.str "12:00")]]
    let actions := [Tree.map [("service",.int 1),("data",.seq [])],.null]
    let record := Tree.map [("alias",.str "A"),("trigger",.seq triggers),("action",.seq actions)]
    triggers ≠ [] ∧ actions ≠ [] ∧ (validate record 0).diagnostics =
      (judged (Collecting.run (recordSteps record "A" triggers actions)) "A").ordered ∧
      (validate record 0).diagnostics.map (·.code) =
        ["service_not_string","action_not_object","no_condition","trigger_no_obvious_key","data_not_object"] := by
  intro triggers actions record
  have composed := collected_by_severity.2 [("alias",.str "A"),("trigger",.seq triggers),("action",.seq actions)] 0
    triggers actions (List.cons_ne_nil _ _) (List.cons_ne_nil _ _) rfl rfl
  exact ⟨List.cons_ne_nil _ _,List.cons_ne_nil _ _,composed.2.2,by decide +kernel⟩

end AutomationLint.Record
