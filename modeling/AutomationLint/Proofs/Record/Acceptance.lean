import AutomationLint.Proofs.Collector
import AutomationLint.Record

namespace AutomationLint.Record
open AutomationLint.Tree

section

def keyList (kind : ItemKind) : String := " (" ++ "/".intercalate kind.keys ++ ")"

-- Everything that a check can say of a record with this label. Apart from the
-- label every message is made of fixed words and numbers.
inductive Said (label : String) : Severity → String → Prop where
  | missing (kind : ItemKind) : Said label .warning ("missing " ++ kind.word ++ " in " ++ label)
  | noCondition : Said label .info ("no condition in " ++ label ++ " (runs on every trigger)")
  | listEmpty (kind : ItemKind) : Said label .warning (kind.word ++ " list is empty")
  | wrongType (kind : ItemKind) : Said label .warning (kind.word ++ " is not an object/array")
  | notObject (kind : ItemKind) (index : Nat) : Said label .warning (itemName kind index ++ " is not an object")
  | noObviousKey (index : Nat) :
      Said label .info (itemName .trigger index ++ " has no obvious key" ++ keyList .trigger)
  | noExpectedKey (index : Nat) :
      Said label .warning (itemName .action index ++ " has no expected key" ++ keyList .action)
  | notString (kind : ItemKind) (index : Nat) :
      Said label .warning (itemName kind index ++ ": '" ++ kind.naming ++ "' should be a string")
  | dataNotObject (index : Nat) : Said label .info (itemName .action index ++ ": 'data' should be an object")

def SaidOf (label : String) (found : List Diagnostic) : Prop := ∀ d ∈ found, Said label d.severity d.message

variable (kind : ItemKind) (record item : Tree) (index : Nat) (path label : String)

@[simp] theorem saidOf_nil : SaidOf label [] := nofun

@[simp] theorem saidOf_append (front rest : List Diagnostic) :
    SaidOf label (front ++ rest) ↔ SaidOf label front ∧ SaidOf label rest := by
  simp only [SaidOf,List.mem_append,or_imp,forall_and]

variable {label} in
theorem saidOf_finding {severity : Severity} {message : String} (code : String) (said : Said label severity message) :
    SaidOf label [finding severity code path message] := by
  intro d member
  cases List.mem_singleton.mp member
  exact said

theorem saidOf_itemFindings : SaidOf label (itemFindings kind item index path) := by
  unfold itemFindings
  split
  · rename_i entries
    have keys : SaidOf label (keyFindings kind entries index path) := by
      unfold keyFindings
      split
      · exact saidOf_nil label
      · cases kind with
        | trigger => exact saidOf_finding _ _ (.noObviousKey index)
        | action => exact saidOf_finding _ _ (.noExpectedKey index)
    have naming : SaidOf label (namingFindings kind entries index path) := by
      unfold namingFindings
      split
      · exact saidOf_nil label
      · exact saidOf_nil label
      · exact saidOf_finding _ _ (.notString kind index)
    have data : SaidOf label (dataFindings kind entries index path) := by
      unfold dataFindings
      split
      all_goals first | exact saidOf_nil label | exact saidOf_finding _ _ (.dataNotObject index)
    simp only [saidOf_append]
    exact ⟨⟨keys,naming⟩,data⟩
  · exact saidOf_finding _ _ (.notObject kind index)

theorem saidOf_itemsFindings (items : List Tree) : SaidOf label (itemsFindings kind index items) := by
  induction items generalizing index with
  | nil => exact saidOf_nil label
  | cons item rest ih => exact (saidOf_append _ _ _).mpr ⟨saidOf_itemFindings _ _ _ _ _,ih _⟩

theorem saidOf_partFindings : SaidOf label (partFindings kind record) := by
  unfold partFindings
  split
  · unfold fieldFindings
    split
    · exact saidOf_finding _ _ (.listEmpty kind)
    · exact saidOf_itemsFindings _ _ _ _
    · exact saidOf_itemFindings _ _ _ _ _
    · exact saidOf_itemFindings _ _ _ _ _
    · exact saidOf_finding _ _ (.wrongType kind)
  · exact saidOf_nil label

theorem saidOf_findings : SaidOf label (findings record label) := by
  have absent : ∀ kind, SaidOf label (missing kind record label) := by
    intro kind
    unfold missing
    split
    · exact saidOf_nil label
    · exact saidOf_finding _ _ (.missing kind)
  have condition : SaidOf label (noCondition record label) := by
    unfold noCondition
    split
    · exact saidOf_nil label
    · exact saidOf_finding _ _ .noCondition
  simp only [findings,saidOf_append]
  exact ⟨⟨⟨⟨absent _,absent _⟩,condition⟩,saidOf_partFindings _ _ _⟩,saidOf_partFindings _ _ _⟩

variable {label} in
theorem Said.grade {severity : Severity} {message : String} (said : Said label severity message) :
    severity = .warning ∨ severity = .info := by
  cases said
  all_goals first | exact .inl rfl | exact .inr rfl

end

section

def StringOrAbsent (entries : Entries) (name : String) : Prop :=
  ∀ value, entries.lookup name = some value → ∃ s, value = .str s

-- The form of one item, described on its own and not by what the checks warn
-- about. A trigger needs none of its keys; an action needs one.
inductive ItemOk : ItemKind → Tree → Prop where
  | trigger (platform : StringOrAbsent entries "platform") : ItemOk .trigger (.map entries)
  | action (expected : ∃ key ∈ actionKeys, ∃ value, entries.lookup key = some value)
      (service : StringOrAbsent entries "service") : ItemOk .action (.map entries)

inductive FieldOk (kind : ItemKind) : Tree → Prop where
  | single (item : ItemOk kind (.map entries)) : FieldOk kind (.map entries)
  | list (some : items ≠ []) (each : ∀ item ∈ items, ItemOk kind item) : FieldOk kind (.seq items)

def Accepted (record : Tree) : Prop := ∃ entries trigger action, record = .map entries ∧
  entries.lookup "trigger" = some trigger ∧ FieldOk .trigger trigger ∧
  entries.lookup "action" = some action ∧ FieldOk .action action

def EndsInSuccess (r : Report) : Prop := ∃ front last, r.diagnostics = front ++ [last] ∧
  last.severity = .success ∧ last.code = "structure_ok" ∧ ∀ d ∈ front, d.severity ≠ .success

def Quiet (found : List Diagnostic) : Prop := ∀ d ∈ found, d.severity ≠ .warning

variable (kind : ItemKind) (entries : Entries) (item record : Tree) (index : Nat) (path name : String)

@[simp] theorem quiet_nil : Quiet [] := by simp [Quiet]

@[simp] theorem quiet_append (front rest : List Diagnostic) : Quiet (front ++ rest) ↔ Quiet front ∧ Quiet rest := by
  simp only [Quiet,List.mem_append,or_imp,forall_and]

@[simp] theorem not_quiet_warning (code message : String) : ¬Quiet [finding .warning code path message] := by
  simp [Quiet,finding,Diagnostic.new,Diagnostic.withPath]

@[simp] theorem quiet_info (code message : String) : Quiet [finding .info code path message] := by
  simp [Quiet,finding,Diagnostic.new,Diagnostic.withPath]

theorem hasAnyKey_iff (names : List String) :
    hasAnyKey entries names = true ↔ ∃ name ∈ names, ∃ value, entries.lookup name = some value := by
  simp [hasAnyKey,Option.isSome_iff_exists]

theorem quiet_keyFindings : Quiet (keyFindings kind entries index path) ↔
    (kind = .action → ∃ key ∈ actionKeys, ∃ value, entries.lookup key = some value) := by
  rw [←hasAnyKey_iff]
  unfold keyFindings
  cases kind with
  | trigger =>
    split
    · simp
    · simp
  | action =>
    split
    · rename_i known
      simpa [ItemKind.keys] using known
    · rename_i unknown
      simpa [ItemKind.keys] using unknown

theorem quiet_namingFindings : Quiet (namingFindings kind entries index path) ↔ StringOrAbsent entries kind.naming := by
  unfold namingFindings StringOrAbsent
  cases found : entries.lookup kind.naming with
  | none => simp
  | some value => cases value <;> simp

@[simp] theorem quiet_dataFindings : Quiet (dataFindings kind entries index path) := by
  unfold dataFindings
  split
  all_goals first | exact quiet_nil | exact quiet_info _ _ _

@[simp] theorem quiet_itemFindings : Quiet (itemFindings kind item index path) ↔ ItemOk kind item := by
  unfold itemFindings
  split
  · rename_i entries
    simp only [quiet_append,quiet_keyFindings,quiet_namingFindings,quiet_dataFindings,and_true]
    constructor
    · intro quiet
      obtain ⟨expected,naming⟩ := quiet
      cases kind with
      | trigger => exact .trigger naming
      | action => exact .action (expected rfl) naming
    · intro ok
      cases ok with
      | trigger platform => exact ⟨by simp,platform⟩
      | action expected service => exact ⟨fun _ => expected,service⟩
  · rename_i other
    refine iff_of_false (not_quiet_warning _ _ _) ?_
    intro ok
    cases ok <;> exact other _ rfl

theorem quiet_itemsFindings (items : List Tree) :
    Quiet (itemsFindings kind index items) ↔ ∀ item ∈ items, ItemOk kind item := by
  induction items generalizing index with
  | nil => simp [itemsFindings]
  | cons item rest ih => simp [itemsFindings,ih]

@[simp] theorem quiet_fieldFindings (value : Tree) : Quiet (fieldFindings kind value) ↔ FieldOk kind value := by
  unfold fieldFindings
  split
  · refine iff_of_false (not_quiet_warning _ _ _) ?_
    intro ok
    cases ok with
    | list some => exact some rfl
  · rename_i items some
    rw [quiet_itemsFindings]
    constructor
    · intro each
      exact .list some each
    · intro ok
      cases ok with
      | list _ each => exact each
  · rw [quiet_itemFindings]
    constructor
    · intro item
      exact .single item
    · intro ok
      cases ok with
      | single item => exact item
  · rw [quiet_itemFindings]
    constructor
    · intro item
      cases item
    · intro ok
      cases ok
  · rename_i seq map null
    refine iff_of_false (not_quiet_warning _ _ _) ?_
    intro ok
    cases ok with
    | single => exact map _ rfl
    | list => exact seq _ rfl

theorem quiet_part (label : String) : Quiet (missing kind record label) ∧ Quiet (partFindings kind record) ↔
    ∃ value, record.field? kind.word = some value ∧ FieldOk kind value := by
  unfold missing partFindings
  cases found : record.field? kind.word with
  | none => simp
  | some value => simp

@[simp] theorem quiet_noCondition (label : String) : Quiet (noCondition record label) := by
  unfold noCondition
  split
  · exact quiet_nil
  · exact quiet_info _ _ _

theorem field?_eq_some (value : Tree) : record.field? name = some value ↔
    ∃ entries, record = .map entries ∧ entries.lookup name = some value := by
  cases record <;> simp [field?]

theorem accepted_iff_fields : Accepted record ↔
    (∃ trigger, record.field? "trigger" = some trigger ∧ FieldOk .trigger trigger) ∧
      ∃ action, record.field? "action" = some action ∧ FieldOk .action action := by
  simp only [field?_eq_some]
  constructor
  · intro accepted
    obtain ⟨entries,trigger,action,rfl,atTrigger,triggerOk,atAction,actionOk⟩ := accepted
    exact ⟨⟨trigger,⟨entries,rfl,atTrigger⟩,triggerOk⟩,action,⟨entries,rfl,atAction⟩,actionOk⟩
  · intro fields
    obtain ⟨⟨trigger,⟨entries,rfl,atTrigger⟩,triggerOk⟩,action,⟨_,same,atAction⟩,actionOk⟩ := fields
    cases same
    exact ⟨entries,trigger,action,rfl,atTrigger,triggerOk,atAction,actionOk⟩

-- The checks warn about exactly the records that do not have the form.
theorem quiet_findings (label : String) : Quiet (findings record label) ↔ Accepted record := by
  have triggerPart := quiet_part .trigger record label
  have actionPart := quiet_part .action record label
  rw [accepted_iff_fields]
  simp only [ItemKind.word] at triggerPart actionPart
  rw [←triggerPart,←actionPart]
  simp only [findings,quiet_append,quiet_noCondition,and_true]
  constructor
  · rintro ⟨⟨⟨noTrigger,noAction⟩,trigger⟩,action⟩
    exact ⟨⟨noTrigger,trigger⟩,noAction,action⟩
  · rintro ⟨⟨noTrigger,trigger⟩,noAction,action⟩
    exact ⟨⟨⟨noTrigger,noAction⟩,trigger⟩,action⟩

def Graded (found : List Diagnostic) : Prop := ∀ d ∈ found, d.severity = .warning ∨ d.severity = .info

theorem graded_findings (label : String) : Graded (findings record label) := fun d member =>
  (saidOf_findings record label d member).grade

variable {found : List Diagnostic} (title : String)

theorem Graded.no_error (graded : Graded found) : ∀ d ∈ found, d.severity ≠ .error := by
  intro d member
  rcases graded d member with same | same <;> simp [same]

theorem Graded.no_success (graded : Graded found) : ∀ d ∈ found, d.severity ≠ .success := by
  intro d member
  rcases graded d member with same | same <;> simp [same]

theorem verdict_pushAll (graded : Graded found) : verdict (Collector.empty.pushAll found) title = [structureOk title] ∧
    Quiet found ∨ verdict (Collector.empty.pushAll found) title = [] ∧ ¬Quiet found := by
  have errors := (Collector.filter_severity_nil found .error).mpr graded.no_error
  unfold verdict
  rw [Collector.count_pushAll,Collector.count_pushAll,errors]
  by_cases quiet : Quiet found
  · left
    rw [(Collector.filter_severity_nil found .warning).mpr quiet]
    exact ⟨rfl,quiet⟩
  · right
    have warned : (found.filter fun d => d.severity == .warning) ≠ [] := fun none =>
      quiet ((Collector.filter_severity_nil found .warning).mp none)
    exact ⟨by simpa using warned,quiet⟩

theorem validate_diagnostics : (validate record index).diagnostics =
    (Collector.empty.pushAll (findings record (label record index) ++
      verdict (Collector.empty.pushAll (findings record (label record index))) (label record index))).ordered := by
  simp only [validate,Collector.pushAll_append]

theorem validate_inOrder : (validate record index).InOrder := by
  simpa [Report.InOrder,validate_diagnostics] using Collector.sorted_bySeverity _

theorem validate_said : ∀ d ∈ (validate record index).diagnostics,
    Said (label record index) d.severity d.message ∨ d = structureOk (label record index) := by
  intro d member
  rw [validate_diagnostics] at member
  rcases List.mem_append.mp ((Collector.ordered_perm _).mem_iff.mp member) with found | judged
  · exact .inl (saidOf_findings record _ d found)
  · unfold verdict at judged
    split at judged
    · exact .inr (List.mem_singleton.mp judged)
    · cases judged

theorem validate_no_error : (validate record index).count .error = 0 := by
  rw [Report.count_eq_zero]
  intro d member
  rcases validate_said record index d member with said | rfl
  · rcases said.grade with same | same <;> simp [same]
  · simp [structureOk,Diagnostic.new]

theorem accepted_diagnostics (accepted : Accepted record) : (validate record index).diagnostics =
    findings record (label record index) ++ [structureOk (label record index)] ∧
      ∀ d ∈ findings record (label record index), d.severity = .info := by
  have graded := graded_findings record (label record index)
  have quiet := (quiet_findings record (label record index)).mpr accepted
  have noted : ∀ d ∈ findings record (label record index), d.severity = .info := fun d member =>
    (graded d member).resolve_left (quiet d member)
  rcases verdict_pushAll (label record index) graded with ⟨sound,_⟩ | ⟨_,warned⟩
  · refine ⟨?_,noted⟩
    have none : ∀ severity, severity ≠ .info →
        ((findings record (label record index)).filter fun d => d.severity == severity) = [] := by
      intro severity other
      exact (Collector.filter_severity_nil _ _).mpr fun d member same => other (same.symm.trans (noted d member))
    have all : ((findings record (label record index)).filter fun d => d.severity == .info) =
        findings record (label record index) := List.filter_eq_self.mpr fun d member => by simp [noted d member]
    rw [validate_diagnostics,sound,Collector.ordered_pushAll]
    simp [Severity.all,none,all,structureOk,Diagnostic.new]
  · exact absurd quiet warned

theorem refused_diagnostics (refused : ¬Accepted record) :
    (validate record index).diagnostics.Perm (findings record (label record index)) ∧
      ∃ d ∈ (validate record index).diagnostics, d.severity = .warning := by
  have warned : ¬Quiet (findings record (label record index)) := fun quiet => refused ((quiet_findings _ _).mp quiet)
  rcases verdict_pushAll (label record index) (graded_findings _ _) with ⟨_,quiet⟩ | ⟨silent,_⟩
  · exact absurd quiet warned
  · have perm : (validate record index).diagnostics.Perm (findings record (label record index)) := by
      rw [validate_diagnostics,silent,List.append_nil]
      exact Collector.ordered_perm _
    refine ⟨perm,?_⟩
    simp only [Quiet,ne_eq,Classical.not_forall,Classical.not_not] at warned
    obtain ⟨d,member,warning⟩ := warned
    exact ⟨d,perm.mem_iff.mpr member,warning⟩

theorem accepted_exactly : ((validate record index).isClean = true ↔ Accepted record) ∧
    (EndsInSuccess (validate record index) ↔ Accepted record) ∧
    ((validate record index).count .success = 0 ↔ ¬Accepted record) ∧
    (validate record index).count .error = 0 := by
  rw [Report.isClean_iff,Report.count_eq_zero,Report.count_eq_zero]
  by_cases accepted : Accepted record
  · obtain ⟨shown,noted⟩ := accepted_diagnostics record index accepted
    have last : structureOk (label record index) ∈ (validate record index).diagnostics := by simp [shown]
    have grades : ∀ d ∈ (validate record index).diagnostics, d.severity = .info ∨ d.severity = .success := by
      intro d member
      rw [shown] at member
      rcases List.mem_append.mp member with old | new
      · exact .inl (noted d old)
      · exact .inr (List.mem_singleton.mp new ▸ rfl)
    refine ⟨iff_of_true ?_ accepted,iff_of_true ?_ accepted,iff_of_false ?_ (fun refused => refused accepted),?_⟩
    · intro d member
      rcases grades d member with same | same <;> simp [same]
    · exact ⟨_,_,shown,rfl,rfl,fun d member => by simp [noted d member]⟩
    · exact fun silent => silent _ last rfl
    · intro d member
      rcases grades d member with same | same <;> simp [same]
  · obtain ⟨perm,d,member,warning⟩ := refused_diagnostics record index accepted
    have graded : Graded (validate record index).diagnostics := fun d member =>
      graded_findings record _ d (perm.mem_iff.mp member)
    refine ⟨iff_of_false ?_ accepted,iff_of_false ?_ accepted,iff_of_true graded.no_success accepted,graded.no_error⟩
    · exact fun clean => (clean d member).2 warning
    · intro ends
      obtain ⟨front,last,shown,success,_⟩ := ends
      exact graded.no_success last (by simp [shown]) success

end

end AutomationLint.Record
