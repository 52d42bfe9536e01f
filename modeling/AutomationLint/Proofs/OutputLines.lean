import AutomationLint.Proofs.Headline
import AutomationLint.Proofs.Rendering
import AutomationLint.Proofs.Tree.Json

namespace AutomationLint
open AutomationLint.Tree AutomationLint.Text

def Record.named? (record : Tree) : Option Tree := (["alias","id"].filterMap record.field?).find? truthy

def Severity.bracket (severity : Severity) : String := "[" ++ severity.label ++ "] "

-- Every line but the last, empty one opens with the severity of its
-- diagnostic; there are no other lines.
def OneLineEach (text : String) (found : List Diagnostic) : Prop :=
  ∃ rows, splitFeeds text.toList = rows ++ [[]] ∧
    List.Forall₂ (fun row (d : Diagnostic) => d.severity.bracket.toList <+: row) rows found

def diagnosticsOf : Except CheckError CheckResult → List Diagnostic
  | .error e => [e.toDiagnostic]
  | .ok r => r.notices ++ r.reports.flatMap Report.diagnostics

def textOf : Except CheckError CheckResult → String
  | .error e => renderText [e.toDiagnostic] []
  | .ok r => renderText r.notices r.reports

-- No record goes by a string that is more than a line. A label is printed as
-- it is, so such a string falls into further lines, and these may look like
-- diagnostics of their own.
def LabelsInLine (outcome : Except CheckError CheckResult) : Prop :=
  ∀ r, outcome = .ok r → ∀ record ∈ recordsOf r.root, ∀ s, Record.named? record = some (.str s) → OneLine s

namespace Record

variable (kind : ItemKind) (record : Tree) (index : Nat)

@[simp] theorem oneLine_word : OneLine kind.word := by cases kind <;> decide

@[simp] theorem oneLine_naming : OneLine kind.naming := by cases kind <;> decide

@[simp] theorem oneLine_itemName : OneLine (itemName kind index) := by simp +decide [itemName]

theorem Said.oneLine {label : String} {severity : Severity} {message : String} (said : Said label severity message)
    (whole : OneLine label) : OneLine message := by
  cases said <;> simp +decide [whole]

theorem oneLine_label : OneLine (Record.label record index) ↔ ∀ s, named? record = some (.str s) → OneLine s := by
  unfold Record.label
  split
  · rename_i s there
    have same : named? record = some (.str s) := there
    rw [same]
    exact ⟨fun whole _ same => by cases same; exact whole,fun each => each s rfl⟩
  · rename_i t other there
    refine iff_of_true (by simp) ?_
    intro s same
    exact absurd (Option.some.inj (there.symm.trans same)) (other s)
  · rename_i none
    refine iff_of_true (by simp +decide) ?_
    intro s same
    cases none.symm.trans same

theorem validate_oneLine (whole : OneLine (label record index)) :
    ∀ d ∈ (validate record index).diagnostics, OneLine d.message := by
  intro d member
  rcases validate_said record index d member with said | rfl
  · exact said.oneLine whole
  · simp +decide [structureOk,Diagnostic.new,whole]

theorem validate_says : ∃ d, d ∈ (validate record index).diagnostics := by
  by_cases accepted : Accepted record
  · exact ⟨structureOk (label record index),by simp [(accepted_diagnostics record index accepted).1]⟩
  · obtain ⟨_,d,member,_⟩ := refused_diagnostics record index accepted
    exact ⟨d,member⟩

end Record

namespace RenderedMessage

def words (m : RenderedMessage) : String :=
  match m.title with
  | some title => m.severity.bracket ++ title ++ ": " ++ m.message
  | none => m.severity.bracket ++ m.message

variable (m : RenderedMessage)

theorem line_words : m.line = m.words ++ "\n" := by
  obtain ⟨severity,title,message⟩ := m
  cases title <;> rfl

theorem words_bracket : m.severity.bracket.toList <+: m.words.toList := by
  obtain ⟨severity,title,message⟩ := m
  cases title with
  | none => exact ⟨message.toList,by simp [words,String.toList_append]⟩
  | some title => exact ⟨title.toList ++ ": ".toList ++ message.toList,by simp [words,String.toList_append]⟩

@[simp] theorem oneLine_bracket (severity : Severity) : OneLine severity.bracket := by cases severity <;> decide

@[simp] theorem oneLine_words :
    OneLine m.words ↔ (∀ title, m.title = some title → OneLine title) ∧ OneLine m.message := by
  obtain ⟨severity,title,message⟩ := m
  cases title <;> simp +decide [words]

end RenderedMessage

variable (said : List RenderedMessage) (found : List Diagnostic)

theorem lines_toList : (String.join (said.map RenderedMessage.line)).toList =
    ended (said.map fun m => m.words.toList) := by
  rw [String.toList_join,List.flatMap_map,ended,List.flatMap_map]
  congr 1
  funext m
  rw [m.line_words,String.toList_append]
  rfl

theorem oneLineEach_lines (same : said.map (·.severity) = found.map (·.severity)) :
    OneLineEach (String.join (said.map RenderedMessage.line)) found ↔ ∀ m ∈ said, OneLine m.words := by
  have lengths : said.length = found.length := by simpa using congrArg List.length same
  unfold OneLineEach
  rw [lines_toList]
  constructor
  · intro each
    obtain ⟨rows,pieces,opened⟩ := each
    have count := congrArg List.length pieces
    rw [List.length_append,opened.length_eq,←lengths] at count
    have whole := (length_splitFeeds_ended (said.map fun m => m.words.toList)).mp (by simpa using count)
    exact fun m member => whole _ (List.mem_map_of_mem member)
  · intro whole
    refine ⟨said.map fun m => m.words.toList,?_,?_⟩
    · have pieces := splitFeeds_parts (said.map fun m => m.words.toList) []
        (fun row member => by obtain ⟨m,inside,rfl⟩ := List.mem_map.mp member; exact whole m inside) nofun
      rwa [List.append_nil] at pieces
    · rw [List.forall₂_map_left_iff]
      have severities : List.Forall₂ (fun (m : RenderedMessage) (d : Diagnostic) => m.severity = d.severity) said found := by
        rw [←List.forall₂_eq_eq_eq,List.forall₂_map_left_iff,List.forall₂_map_right_iff] at same
        exact same
      exact severities.imp fun m d equal => equal ▸ m.words_bracket

variable (r : CheckResult) (report : Report) (record : Tree) (index : Nat)

@[simp] theorem oneLine_title : OneLine report.title ↔ OneLine report.label := by
  simp +decide [Report.title]

theorem oneLine_validated : (∀ m ∈ renderReport (Record.validate record index), OneLine m.words) ↔
    OneLine (Record.label record index) := by
  rw [renderReport_inOrder _ (Record.validate_inOrder record index)]
  constructor
  · intro each
    obtain ⟨d,member⟩ := Record.validate_says record index
    have words := each _ (List.mem_map_of_mem member)
    have label : OneLine (Record.validate record index).label := by
      simp only [RenderedMessage.oneLine_words,RenderedMessage.ofRecord] at words
      simpa using words.1 _ rfl
    exact label
  · intro whole m member
    obtain ⟨d,inside,rfl⟩ := List.mem_map.mp member
    have message := Record.validate_oneLine record index whole d inside
    have label : OneLine (Record.validate record index).label := whole
    simp [RenderedMessage.ofRecord,label,message]

theorem oneLine_notices : ∀ d ∈ r.notices, OneLine d.message := by
  have counted : OneLine (toString r.documentCount ++ " document(s) loaded") := by simp +decide
  intro d member
  unfold CheckResult.notices at member
  rcases List.mem_cons.mp member with rfl | later
  · exact counted
  · split at later
    · cases List.mem_singleton.mp later
      exact (by decide +kernel)
    · cases later

theorem oneLine_records (records : List Tree) :
    (∀ m ∈ renderReports (validateAll records), OneLine m.words) ↔
      ∀ record ∈ records, ∀ s, Record.named? record = some (.str s) → OneLine s := by
  simp only [renderReports,List.mem_flatMap]
  constructor
  · intro each record member
    obtain ⟨k,there⟩ := List.mem_iff_getElem?.mp member
    rw [←Record.oneLine_label record k,←oneLine_validated]
    have report : Record.validate record k ∈ validateAll records := by
      refine List.mem_iff_getElem?.mpr ⟨k,?_⟩
      rw [validateAll_getElem?,there]
      rfl
    exact fun m inside => each m ⟨_,report,inside⟩
  · intro labels m member
    obtain ⟨report,inside,said⟩ := member
    obtain ⟨k,there⟩ := List.mem_iff_getElem?.mp inside
    rw [validateAll_getElem?] at there
    obtain ⟨record,isThere,rfl⟩ := Option.map_eq_some_iff.mp there
    have label := (Record.oneLine_label record k).mpr (labels record (List.mem_of_getElem? isThere))
    exact (oneLine_validated record k).mpr label m said

theorem oneLineEach_result (count : Nat) (root : Option Tree) :
    OneLineEach (textOf (.ok (checkRoot count root))) (diagnosticsOf (.ok (checkRoot count root))) ↔
      ∀ record ∈ recordsOf root, ∀ s, Record.named? record = some (.str s) → OneLine s := by
  have stored : renderReports (checkRoot count root).reports =
      (checkRoot count root).reports.flatMap fun report => report.diagnostics.map (.ofRecord report.title) := by
    rw [←recordMessages_inOrder _ (checkRoot count root).documentCount (checkRoot count root).notices
      (checkRoot_inOrder count root),new_recordMessages]
  have severities : ((checkRoot count root).notices.map RenderedMessage.notice ++
      renderReports (checkRoot count root).reports).map (·.severity) =
        (diagnosticsOf (.ok (checkRoot count root))).map (·.severity) := by
    rw [stored,diagnosticsOf,List.map_append,List.map_append,List.map_map,List.map_flatMap,List.map_flatMap]
    simp only [List.map_map]
    rfl
  rw [←oneLine_records,←checkRoot_reports count root]
  refine (oneLineEach_lines _ _ severities).trans ?_
  rw [List.forall_mem_append]
  refine and_iff_right ?_
  intro m member
  obtain ⟨d,inside,rfl⟩ := List.mem_map.mp member
  simpa [RenderedMessage.notice] using oneLine_notices _ d inside

theorem oneLineEach_failure (e : CheckError) (whole : OneLine e.toDiagnostic.message) :
    OneLineEach (textOf (.error e)) (diagnosticsOf (.error e)) := by
  refine (oneLineEach_lines [.notice e.toDiagnostic] _ rfl).mpr ?_
  intro m member
  cases List.mem_singleton.mp member
  simpa [RenderedMessage.notice] using whole

namespace Stream

theorem documents_error (read : BodyReader) (text : List Char) (e : ParseError)
    (failed : documents read text = .error e) : ∃ (s : Section) (fault : ReaderFault), e = s.parseError fault := by
  suffices each : ∀ list, values read list = .error e → ∃ (s : Section) (fault : ReaderFault), e = s.parseError fault from
    each _ failed
  intro list
  induction list with
  | nil => nofun
  | cons s rest ih =>
    intro failed
    rw [values] at failed
    split at failed
    · rename_i refused
      cases failed
      unfold Section.value at refused
      split at refused
      · split at refused
        · cases refused
        · rename_i fault _
          cases refused
          exact ⟨s,fault,rfl⟩
      · cases refused
    · split at failed
      · rename_i later
        cases failed
        exact ih later
      · cases failed

theorem oneLine_parseError (s : Section) (fault : ReaderFault) : OneLine (s.parseError fault).text := by
  have message : OneLine (String.ofList (headline fault.report)) := by
    rw [OneLine,String.toList_ofList]
    exact headline_free fault.report
  unfold Section.parseError
  dsimp only
  split
  · simp +decide [ParseError.text,ParseError.markedAt,ParseError.new,message]
  · exact message

end Stream

theorem oneLine_check (text : String) (e : CheckError) (failed : check text = .error e) :
    OneLine e.toDiagnostic.message := by
  rw [check,checkWith_eq] at failed
  split at failed
  · cases failed
    decide +kernel
  · cases answer : parseDocuments text with
    | ok docs => simp [answer,conclude] at failed
    | error refusal =>
      rw [answer] at failed
      cases failed
      obtain ⟨s,fault,rfl⟩ := Stream.documents_error _ _ _ answer
      exact Stream.oneLine_parseError s fault

theorem one_line_each_diagnostic (text : String) :
    OneLineEach (textOf (check text)) (diagnosticsOf (check text)) ↔ LabelsInLine (check text) := by
  cases checked : check text with
  | error e => exact iff_of_true (oneLineEach_failure e (oneLine_check text e checked)) nofun
  | ok r =>
    obtain ⟨docs,rfl⟩ := check_ok text checked
    refine (oneLineEach_result _ _).trans ⟨?_,fun labels => labels _ rfl⟩
    intro labels s same
    cases same
    exact labels

-- An alias of two lines, the second of which looks like a diagnostic of its
-- own; none is an error.
theorem line_feed_in_alias :
    let outcome := check "alias: \"x\\n[error] y\"\n"
    (∃ r, outcome = .ok r ∧ r.reports.map (·.label) = ["x\n[error] y"]) ∧
      (diagnosticsOf outcome).map (·.severity) = [.success,.warning,.warning,.info] ∧
      ¬OneLineEach (textOf outcome) (diagnosticsOf outcome) := by
  intro outcome
  let record := Tree.map [("alias",.str "x\n[error] y")]
  have read : (parseDocuments "alias: \"x\\n[error] y\"\n").toOption = some [record] := by decide +kernel
  have checked : outcome = .ok (checkRoot 1 (some record)) := check_read _ (by decide +kernel) read
  rw [checked]
  refine ⟨⟨_,rfl,by decide +kernel⟩,by decide +kernel,?_⟩
  rw [oneLineEach_result]
  intro labels
  exact absurd (labels record (by decide +kernel) _ rfl) (by decide)

end AutomationLint
