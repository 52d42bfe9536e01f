import AutomationLint.CommandLine
import AutomationLint.Proofs.Check
import AutomationLint.Proofs.Record.Acceptance
import AutomationLint.Tree

namespace AutomationLint.CommandLine

def textOf (read : Source → Option String) (o : Options) : Option String :=
  match o.source? with
  | none => some sample
  | some source => read source

-- Arguments that asked for these options were run on this text, wherever it
-- came from. Requests for the version or for help, misuse and unreadable input
-- are no runs in this sense.
def Ran (o : Options) (text : String) (done : Outcome) : Prop :=
  ∃ read given, request given = .run o ∧ textOf read o = some text ∧ done = run read given

def flagsOf (format : Format) (preview denied : Bool) : List String :=
  (match format with | .text => ["-ftext"] | .json => ["-fjson"]) ++ (if preview then ["-p"] else []) ++
    if denied then ["--deny-warnings"] else []

inductive Previewed (text plain : String) : String → Prop where
  | root (ran : check text = .ok r) (there : r.root = some root) : Previewed text plain (plain ++ (root.pretty ++ "\n"))
  | nothing (none : ∀ r root, check text = .ok r → r.root ≠ some root) : Previewed text plain plain

variable (o : Options) (text : String) (r : CheckResult) (denied : Bool)

theorem request_flagsOf (format : Format) (preview : Bool) :
    request (flagsOf format preview denied) = .run ⟨none,format,preview,false,denied⟩ := by
  cases format <;> cases preview <;> cases denied <;> rfl

theorem ran_flagsOf (format : Format) (preview : Bool) : Ran ⟨none,format,preview,false,denied⟩ text
    (run (fun _ => some text) (flagsOf format preview denied)) :=
  ⟨_,_,request_flagsOf denied format preview,rfl,rfl⟩

theorem Ran.outcome {done : Outcome} (ran : Ran o text done) : done = outcome o text := by
  obtain ⟨read,given,asked,readable,rfl⟩ := ran
  unfold textOf at readable
  unfold run
  rw [asked]
  cases chosen : o.source? with
  | none =>
    rw [chosen] at readable
    cases readable
    simp only [chosen]
  | some source =>
    rw [chosen] at readable
    simp only [chosen,show read source = some text from readable]

-- No check speaks of an error, so only warnings can fail a run that has a
-- result.
theorem check_no_error (ran : check text = .ok r) : ∀ report ∈ r.reports, report.count .error = 0 := by
  obtain ⟨docs,rfl⟩ := check_ok text ran
  intro report member
  obtain ⟨record,k,rfl⟩ := checkRoot_validated _ _ report member
  exact Record.validate_no_error record k

theorem clean_iff (errors : ∀ report ∈ r.reports, report.count .error = 0) :
    (∀ report ∈ r.reports, report.isClean = true) ↔ r.count .warning = 0 := by
  rw [CheckResult.count_eq_zero]
  apply forall₂_congr
  intro report member
  simp [Report.isClean,errors report member]

theorem failed_iff (errors : ∀ report ∈ r.reports, report.count .error = 0) :
    failed denied r = false ↔ (denied = true → ∀ report ∈ r.reports, report.isClean = true) := by
  have none := (CheckResult.count_eq_zero r .error).mpr errors
  rw [clean_iff r errors]
  cases denied with
  | false => simp [failed,none]
  | true => simp [failed,none]

theorem outcome_ok (ran : check text = .ok r) : outcome o text =
    ⟨if failed o.denyWarnings r then 1 else 0,
      findingsText o.format r.documentCount r.notices r.reports ++ previewText o.preview r.root⟩ := by
  rw [outcome,ran]

theorem outcome_error {e : CheckError} (refused : check text = .error e) :
    outcome o text = ⟨1,findingsText o.format 0 [e.toDiagnostic] []⟩ := by
  rw [outcome,refused]

theorem previewText_unshown (root : Option Tree) : previewText false root = "" := by
  cases root <;> rfl

theorem stdout_plain (ran : check text = .ok r) (plain : o.preview = false) :
    (outcome o text).stdout = findingsText o.format r.documentCount r.notices r.reports := by
  rw [outcome_ok o text r ran,plain,previewText_unshown,String.append_empty]

theorem exit_zero_iff : (outcome o text).exit = 0 ↔ ∃ r, check text = .ok r ∧
    (o.denyWarnings = true → ∀ report ∈ r.reports, report.isClean = true) := by
  cases checked : check text with
  | error e => simp [outcome_error o text checked]
  | ok r =>
    rw [outcome_ok o text r checked]
    have passes := failed_iff r o.denyWarnings (check_no_error text r checked)
    cases fails : failed o.denyWarnings r with
    | false => exact iff_of_true rfl ⟨r,rfl,passes.mp fails⟩
    | true =>
      refine iff_of_false (by simp) ?_
      intro clean
      obtain ⟨_,same,each⟩ := clean
      cases same
      rw [passes.mpr each] at fails
      cases fails

theorem exit_bound : (outcome o text).exit = 0 ∨ (outcome o text).exit = 1 := by
  cases checked : check text with
  | error e => exact .inr (by rw [outcome_error o text checked])
  | ok r =>
    rw [outcome_ok o text r checked]
    cases failed o.denyWarnings r with
    | false => exact .inl rfl
    | true => exact .inr rfl

theorem exit_same (other : Options) (denial : other.denyWarnings = o.denyWarnings) :
    (outcome other text).exit = (outcome o text).exit := by
  cases checked : check text with
  | error e => rw [outcome_error o text checked,outcome_error other text checked]
  | ok r => rw [outcome_ok o text r checked,outcome_ok other text r checked,denial]

theorem stdout_same (other : Options) (format : other.format = o.format) (preview : other.preview = o.preview) :
    (outcome other text).stdout = (outcome o text).stdout := by
  cases checked : check text with
  | error e => rw [outcome_error o text checked,outcome_error other text checked,format]
  | ok r => rw [outcome_ok o text r checked,outcome_ok other text r checked,format,preview]

theorem stdout_previewed (other : Options) (format : other.format = o.format) (plain : o.preview = false)
    (shown : other.preview = true) : Previewed text (outcome o text).stdout (outcome other text).stdout := by
  cases checked : check text with
  | error e =>
    rw [outcome_error o text checked,outcome_error other text checked,format]
    exact .nothing fun r root ran => by simp [checked] at ran
  | ok r =>
    rw [stdout_plain o text r checked plain,outcome_ok other text r checked,format,shown]
    cases there : r.root with
    | none =>
      rw [show previewText true none = "" from rfl,String.append_empty]
      refine .nothing ?_
      intro s root ran same
      cases checked.symm.trans ran
      simp [there] at same
    | some root => exact .root checked there

theorem exit_and_output_by_flags :
    (∀ format preview denied text, ∃ done, Ran ⟨none,format,preview,false,denied⟩ text done) ∧
    ∀ o text done, Ran o text done →
      (o.denyWarnings = false → (done.exit = 0 ↔ ∃ r, check text = .ok r)) ∧
      (o.denyWarnings = true →
        (done.exit = 0 ↔ ∃ r, check text = .ok r ∧ ∀ report ∈ r.reports, report.isClean = true)) ∧
      (done.exit ≠ 0 → done.exit = 1) ∧
      ∀ other after, Ran other text after →
        (other.denyWarnings = o.denyWarnings → after.exit = done.exit) ∧
        (other.format = o.format → other.preview = o.preview → after.stdout = done.stdout) ∧
        (other.format = o.format → o.preview = false → other.preview = true →
          Previewed text done.stdout after.stdout) := by
  constructor
  · intro format preview denied text
    exact ⟨_,ran_flagsOf text denied format preview⟩
  · intro o text done ran
    cases ran.outcome
    refine ⟨?_,?_,?_,?_⟩
    · intro lenient
      simp [exit_zero_iff,lenient]
    · intro strict
      simp [exit_zero_iff,strict]
    · intro fails
      exact (exit_bound o text).resolve_left fails
    · intro other after later
      cases later.outcome
      exact ⟨exit_same o text other,stdout_same o text other,stdout_previewed o text other⟩

theorem exit_and_output_by_flags_one_warning :
    let text := "- trigger: {at: noon}\n  action: x\n"
    let done := fun preview denied => run (fun _ => some text) (flagsOf .json preview denied)
    (done false false).exit = 0 ∧ (done false true).exit = 1 ∧ (done false true).stdout = (done false false).stdout ∧
      Previewed text (done false false).stdout (done true true).stdout ∧
      (done true true).stdout = (done false false).stdout ++
        "[\n  \x7b\n    \"trigger\": \x7b\n      \"at\": \"noon\"\n    \x7d,\n    \"action\": \"x\"\n  \x7d\n]\n" := by
  intro text done
  let record := Tree.map [("trigger",.map [("at",.str "noon")]),("action",.str "x")]
  have read : (parseDocuments text).toOption = some [.seq [record]] := by decide +kernel
  have checked : check text = .ok (checkRoot 1 (some (.seq [record]))) := check_read text (by decide +kernel) read
  obtain ⟨lenient,_,_,flags⟩ := exit_and_output_by_flags.2 _ _ _ (ran_flagsOf text false .json false)
  obtain ⟨_,strict,fails,_⟩ := exit_and_output_by_flags.2 _ _ _ (ran_flagsOf text true .json false)
  have plain : (done false false).stdout = _ :=
    congrArg Outcome.stdout ((ran_flagsOf text false .json false).outcome.trans (outcome_ok _ text _ checked))
  have shown : (done true true).stdout = _ :=
    congrArg Outcome.stdout ((ran_flagsOf text true .json true).outcome.trans (outcome_ok _ text _ checked))
  have root : (Tree.seq [record]).pretty ++ "\n" =
      "[\n  \x7b\n    \"trigger\": \x7b\n      \"at\": \"noon\"\n    \x7d,\n    \"action\": \"x\"\n  \x7d\n]\n" := by
    decide +kernel
  refine ⟨(lenient rfl).mpr ⟨_,checked⟩,fails ?_,?_,?_,?_⟩
  · intro passes
    obtain ⟨r,ran,clean⟩ := (strict rfl).mp passes
    cases checked.symm.trans ran
    exact absurd clean (by decide +kernel)
  · exact (flags _ _ (ran_flagsOf text true .json false)).2.1 rfl rfl
  · exact (flags _ _ (ran_flagsOf text true .json true)).2.2 rfl rfl rfl
  · rw [plain,shown,←root,previewText_unshown,String.append_empty]
    rfl

end AutomationLint.CommandLine
