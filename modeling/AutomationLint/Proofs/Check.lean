import AutomationLint.Check
import AutomationLint.Proofs.Candidates

namespace AutomationLint
open AutomationLint.Tree

-- The same parser, with every text that it is called with written down; so it
-- can be said of a run that there was no call.
def recorded {σ : Type} (parse : StatefulParser σ) : StatefulParser (σ × List String) := fun text state =>
  let (answer,after) := parse text state.1
  (answer,after,state.2 ++ [text])

def recordsOf (root : Option Tree) : List Tree :=
  match root with
  | some root => extract root
  | none => []

def Unnamed (record : Tree) : Prop :=
  ∀ name ∈ ["alias","id"], ∀ value, record.field? name = some value → truthy value = false

-- What a result says of the documents it is about. Values that are no records
-- change no report, wherever they stand; titles count from one.
structure Reported (docs : List Tree) (r : CheckResult) : Prop where
  counted : r.documentCount = docs.length
  root : r.root = Stream.selectRoot docs
  numbered : ∀ (k : Nat) (report : Report), r.reports[k]? = some report ↔
    ∃ record, (recordsOf r.root)[k]? = some record ∧ report = Record.validate record k
  titled : ∀ (k : Nat) (report : Report), r.reports[k]? = some report →
    report.index = k ∧ report.title = "Automation " ++ toString (k + 1) ++ ": " ++ report.label
  unnamed : ∀ (k : Nat) (record : Tree), (recordsOf r.root)[k]? = some record → Unnamed record →
    ∃ report, r.reports[k]? = some report ∧ report.label = "Automation " ++ toString (k + 1)
  notice : (∃ d ∈ r.notices, d.code = "no_automation") ↔ recordsOf r.root = []

def Gave (docs : List Tree) (r : CheckResult) : Prop :=
  ∃ (σ : Type) (parse : StatefulParser σ) (text : String) (before after : σ),
    parse text before = (.ok docs,after) ∧ checkThrough parse text before = (.ok r,after)

variable {σ : Type} (parse : StatefulParser σ) (text : String) (state : σ)

theorem isBlank_iff : Text.isBlank text.toList = true ↔ ∀ c ∈ text.toList, Text.isWhite c = true := List.all_eq_true

theorem checkThrough_blank (blank : Text.isBlank text.toList = true) :
    checkThrough parse text state = (.error .emptyInput,state) := by
  rw [checkThrough,if_pos blank]
  rfl

def conclude : Except ParseError (List Tree) → Except CheckError CheckResult
  | .error e => .error (.parse e)
  | .ok docs => .ok (checkRoot docs.length (Stream.selectRoot docs))

theorem checkThrough_text (content : ¬Text.isBlank text.toList = true) :
    checkThrough parse text state = (conclude (parse text state).1,(parse text state).2) := by
  rw [checkThrough,if_neg content]
  simp only [bind,StateT.bind]
  cases parse text state with
  | mk answer after => cases answer <;> rfl

theorem checkThrough_ok {after : σ} (ran : checkThrough parse text state = (.ok r,after)) :
    ∃ docs, parse text state = (.ok docs,after) ∧ r = checkRoot docs.length (Stream.selectRoot docs) := by
  by_cases blank : Text.isBlank text.toList = true
  · rw [checkThrough_blank parse text state blank] at ran
    cases ran
  · rw [checkThrough_text parse text state blank] at ran
    cases answer : parse text state with
    | mk given left =>
      rw [answer] at ran
      cases given with
      | error e => cases ran
      | ok docs =>
        cases ran
        exact ⟨docs,rfl,rfl⟩

theorem check_ok (ran : check text = .ok r) :
    ∃ docs, r = checkRoot docs.length (Stream.selectRoot docs) := by
  have through : checkThrough (fun text state => (parseDocuments text,state)) text () = (.ok r,()) := Prod.ext ran rfl
  obtain ⟨docs,_,result⟩ := checkThrough_ok _ _ _ through
  exact ⟨docs,result⟩

theorem checkWith_eq (parse : DocumentParser) : checkWith parse text =
    if Text.isBlank text.toList = true then .error .emptyInput else conclude (parse text) := by
  split
  · rename_i blank
    exact congrArg Prod.fst (checkThrough_blank _ text () blank)
  · rename_i content
    exact congrArg Prod.fst (checkThrough_text _ text () content)

theorem check_read (content : ¬Text.isBlank text.toList = true) {docs : List Tree}
    (read : (parseDocuments text).toOption = some docs) :
    check text = .ok (checkRoot docs.length (Stream.selectRoot docs)) := by
  rw [check,checkWith_eq,if_neg content]
  cases answer : parseDocuments text with
  | error e => simp [answer,Except.toOption] at read
  | ok given =>
    rw [answer] at read
    cases read
    rfl

theorem label_unnamed (record : Tree) (index : Nat) (unnamed : Unnamed record) :
    Record.label record index = "Automation " ++ toString (index + 1) := by
  have nothing : (["alias","id"].filterMap record.field?).find? truthy = none := by
    refine List.find?_eq_none.mpr ?_
    intro value member
    obtain ⟨name,inside,there⟩ := List.mem_filterMap.mp member
    simp [unnamed name inside value there]
  rw [Record.label,nothing]

@[simp] theorem checkRoot_reports (count : Nat) (root : Option Tree) :
    (checkRoot count root).reports = validateAll (recordsOf root) := by
  cases root <;> rfl

@[simp] theorem validateAll_getElem? (records : List Tree) (k : Nat) :
    (validateAll records)[k]? = records[k]?.map fun record => Record.validate record k := by
  rw [validateAll,List.getElem?_mapIdx]

theorem mem_validateAll (records : List Tree) (report : Report) (member : report ∈ validateAll records) :
    ∃ record k, report = Record.validate record k := by
  obtain ⟨k,there⟩ := List.mem_iff_getElem?.mp member
  rw [validateAll_getElem?] at there
  obtain ⟨record,_,rfl⟩ := Option.map_eq_some_iff.mp there
  exact ⟨record,k,rfl⟩

theorem checkRoot_validated (count : Nat) (root : Option Tree) (report : Report)
    (member : report ∈ (checkRoot count root).reports) : ∃ record k, report = Record.validate record k := by
  rw [checkRoot_reports] at member
  exact mem_validateAll _ _ member

theorem CheckResult.count_eq_length (r : CheckResult) (severity : Severity) :
    r.count severity = (r.reports.flatMap fun report => report.ofSeverity severity).length := by
  rw [List.length_flatMap,List.sum_eq_foldl,List.foldl_map]
  rfl

theorem CheckResult.count_eq_zero (r : CheckResult) (severity : Severity) :
    r.count severity = 0 ↔ ∀ report ∈ r.reports, report.count severity = 0 := by
  rw [CheckResult.count_eq_length,List.length_eq_zero_iff,List.flatMap_eq_nil_iff]
  apply forall₂_congr
  intro report member
  exact List.length_eq_zero_iff.symm

theorem reported (docs : List Tree) : Reported docs (checkRoot docs.length (Stream.selectRoot docs)) := by
  have reports := checkRoot_reports docs.length (Stream.selectRoot docs)
  refine ⟨rfl,rfl,?_,?_,?_,?_⟩
  · intro k report
    rw [reports,validateAll_getElem?,Option.map_eq_some_iff]
    simp only [eq_comm,checkRoot]
  · intro k report there
    rw [reports,validateAll_getElem?] at there
    obtain ⟨record,_,rfl⟩ := Option.map_eq_some_iff.mp there
    exact ⟨rfl,rfl⟩
  · intro k record there unnamed
    refine ⟨Record.validate record k,?_,label_unnamed record k unnamed⟩
    rw [reports,validateAll_getElem?,show (recordsOf (Stream.selectRoot docs))[k]? = some record from there]
    rfl
  · rw [CheckResult.notices,reports]
    cases none : recordsOf (Stream.selectRoot docs) with
    | nil => simp [validateAll,Diagnostic.new,checkRoot,none]
    | cons record rest => simp [validateAll,Diagnostic.new,checkRoot,none]

theorem Gave.result (gave : Gave docs r) : r = checkRoot docs.length (Stream.selectRoot docs) := by
  obtain ⟨σ,parse,text,before,after,given,ran⟩ := gave
  obtain ⟨_,same,result⟩ := checkThrough_ok parse text before ran
  rw [given] at same
  cases same
  exact result

theorem Gave.reports (gave : Gave docs r) : r.reports = validateAll (recordsOf (Stream.selectRoot docs)) := by
  rw [gave.result,checkRoot_reports]

theorem check_reports_records :
    (∀ (σ : Type) (parse : StatefulParser σ) (text : String) (state : σ) (seen : List String),
      ((∀ c ∈ text.toList, Text.isWhite c = true) →
        checkThrough parse text state = (.error .emptyInput,state) ∧
        checkThrough (recorded parse) text (state,seen) = (.error .emptyInput,state,seen)) ∧
      ((¬∀ c ∈ text.toList, Text.isWhite c = true) → ∃ answer after outcome, parse text state = (answer,after) ∧
        checkThrough parse text state = (outcome,after) ∧
        checkThrough (recorded parse) text (state,seen) = (outcome,after,seen ++ [text]) ∧
        (∀ e, answer = .error e → outcome = .error (.parse e)) ∧
        ∀ docs, answer = .ok docs → ∃ r, outcome = .ok r ∧ Reported docs r)) ∧
    (∀ docs r s, 2 ≤ docs.length → Gave docs r → Gave [.seq docs] s → r.root = s.root ∧ r.reports = s.reports) ∧
    (∀ docs more r s, 2 ≤ docs.length → Inserted docs more → Gave docs r → Gave more s → r.reports = s.reports) ∧
    ∀ items more r s, Inserted items more → Gave [.seq items] r → Gave [.seq more] s → r.reports = s.reports := by
  refine ⟨?_,?_,?_,?_⟩
  · intro σ parse text state seen
    rw [←isBlank_iff]
    constructor
    · intro blank
      exact ⟨checkThrough_blank _ _ _ blank,checkThrough_blank _ _ _ blank⟩
    · intro content
      refine ⟨_,_,conclude (parse text state).1,rfl,checkThrough_text _ _ _ content,
        checkThrough_text _ _ _ content,?_,?_⟩
      · intro e refused
        rw [refused]
        rfl
      · intro docs given
        rw [given]
        exact ⟨_,rfl,reported docs⟩
  · intro docs r s several whole single
    rw [whole.reports,single.reports,whole.result,single.result,selectRoot_several docs several]
    exact ⟨rfl,rfl⟩
  · intro docs more r s several inserted first second
    have longer := Nat.le_trans several inserted.length_le
    rw [first.reports,second.reports,selectRoot_several docs several,selectRoot_several more longer]
    exact congrArg validateAll inserted.filter.symm
  · intro items more r s inserted first second
    rw [first.reports,second.reports]
    exact congrArg validateAll inserted.filter.symm

theorem check_reports_records_among_others :
    let docs := [Tree.map [("id",.int 7)],.map [("trigger",.null)]]
    let more := [.null,docs[0],.str "x",.seq [docs[0]],docs[1],.map [("name",.str "y")]]
    ∃ r s, checkWith (fun _ => .ok docs) "x" = .ok r ∧ checkWith (fun _ => .ok more) "y" = .ok s ∧
      Inserted docs more ∧ r.reports = s.reports ∧
      s.reports.map (fun report => (report.index,report.label)) = [(0,"7"),(1,"Automation 2")] := by
  intro docs more
  have keyless : ∀ t : Tree, isCandidate t = false → Keyless t := fun t => (isCandidate_eq_false t).mp
  have inserted : Inserted docs more :=
    .insert _ (keyless _ rfl) (.keep _ (.insert _ (keyless _ rfl) (.insert _ (keyless _ rfl)
      (.keep _ (.insert _ (keyless _ (by decide +kernel)) .done)))))
  have first : Gave docs (checkRoot docs.length (Stream.selectRoot docs)) :=
    ⟨Unit,fun _ state => (.ok docs,state),"x",(),(),rfl,checkThrough_text _ _ _ (by decide)⟩
  have second : Gave more (checkRoot more.length (Stream.selectRoot more)) :=
    ⟨Unit,fun _ state => (.ok more,state),"y",(),(),rfl,checkThrough_text _ _ _ (by decide)⟩
  refine ⟨_,_,?_,?_,inserted,check_reports_records.2.2.1 docs more _ _ (Nat.le_refl _) inserted first second,
    by decide +kernel⟩
  · exact congrArg Prod.fst (checkThrough_text (fun _ state => (.ok docs,state)) "x" () (by decide))
  · exact congrArg Prod.fst (checkThrough_text (fun _ state => (.ok more,state)) "y" () (by decide))

end AutomationLint
