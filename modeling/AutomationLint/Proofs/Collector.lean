import AutomationLint.Diagnostic
import AutomationLint.Record

namespace AutomationLint.Collector

variable (c : Collector) (d : Diagnostic) (found : List Diagnostic) (severity : Severity)

@[simp] theorem bucket_push : (c.push d).bucket severity =
    c.bucket severity ++ [d].filter fun d => d.severity == severity := by
  unfold push
  cases grade : d.severity <;> cases severity <;> simp [bucket,grade]

@[simp] theorem bucket_pushAll : (c.pushAll found).bucket severity =
    c.bucket severity ++ found.filter fun d => d.severity == severity := by
  induction found generalizing c with
  | nil => simp [pushAll]
  | cons d found ih =>
    have step : c.pushAll (d :: found) = (c.push d).pushAll found := rfl
    rw [step,ih,bucket_push,List.append_assoc,←List.filter_append]
    rfl

@[simp] theorem count_pushAll : (empty.pushAll found).count severity = (found.filter fun d => d.severity == severity).length := by
  rw [count,bucket_pushAll]
  cases severity <;> rfl

theorem filter_severity_nil : (found.filter fun d => d.severity == severity) = [] ↔
    ∀ d ∈ found, d.severity ≠ severity := by
  simp [List.filter_eq_nil_iff]

@[simp] theorem pushAll_append (later : List Diagnostic) : (c.pushAll found).pushAll later = c.pushAll (found ++ later) :=
  List.foldl_append.symm

@[simp] theorem ordered_eq_readOut : c.ordered = c.readOut := by
  simp [ordered,readOut,Severity.all,bucket]

theorem ordered_pushAll : (empty.pushAll found).ordered =
    Severity.all.flatMap fun severity => found.filter fun d => d.severity == severity := by
  rw [ordered_eq_readOut,readOut]
  congr 1
  funext severity
  rw [bucket_pushAll]
  cases severity <;> rfl

-- The read-out that is asked of a collector, described without its lists.
-- Errors come first, and merge sort is stable.
def bySeverity (found : List Diagnostic) : List Diagnostic :=
  found.mergeSort fun a b => a.severity.rank ≤ b.severity.rank

theorem rank_trans (a b d : Diagnostic) (left : decide (a.severity.rank ≤ b.severity.rank) = true)
    (right : decide (b.severity.rank ≤ d.severity.rank) = true) : decide (a.severity.rank ≤ d.severity.rank) = true :=
  decide_eq_true (Nat.le_trans (of_decide_eq_true left) (of_decide_eq_true right))

theorem rank_total (a b : Diagnostic) :
    (decide (a.severity.rank ≤ b.severity.rank) || decide (b.severity.rank ≤ a.severity.rank)) = true := by
  simpa using Nat.le_total a.severity.rank b.severity.rank

-- The sort moves nothing within one severity: equals are sorted already, so
-- they stay a part of what is sorted.
@[simp] theorem filter_bySeverity : ((bySeverity found).filter fun d => d.severity == severity) =
    found.filter fun d => d.severity == severity := by
  have equals : (found.filter fun d => d.severity == severity).Pairwise fun a b =>
      decide (a.severity.rank ≤ b.severity.rank) = true := by
    refine List.pairwise_of_forall_mem_list ?_
    intro a left b right
    have one := eq_of_beq (List.mem_filter.mp left).2
    have other := eq_of_beq (List.mem_filter.mp right).2
    simp [one,other]
  have kept : (found.filter fun d => d.severity == severity).Sublist (bySeverity found) :=
    List.sublist_mergeSort rank_trans rank_total equals List.filter_sublist
  have inside := kept.filter fun d => d.severity == severity
  rw [List.filter_filter] at inside
  simp only [Bool.and_self] at inside
  have perm : (bySeverity found).Perm found := List.mergeSort_perm _ _
  exact (inside.eq_of_length (perm.filter _).length_eq.symm).symm

theorem sorted_parts (sorted : found.Pairwise fun a b => a.severity.rank ≤ b.severity.rank) :
    found = Severity.all.flatMap fun severity => found.filter fun d => d.severity == severity := by
  induction found with
  | nil => rfl
  | cons d found ih =>
    obtain ⟨least,later⟩ := List.pairwise_cons.mp sorted
    have above : ∀ severity : Severity, severity.rank < d.severity.rank →
        (found.filter fun d => d.severity == severity) = [] := by
      intro severity less
      refine (filter_severity_nil found severity).mpr ?_
      intro other member same
      have bound := least other member
      rw [same] at bound
      omega
    have parts := ih later
    simp only [Severity.all,List.flatMap_cons,List.flatMap_nil,List.append_nil] at parts ⊢
    cases grade : d.severity with
    | error => simpa [grade] using parts
    | warning =>
      have errors := above .error (by simp [grade,Severity.rank])
      simpa [grade,errors] using parts
    | info =>
      have errors := above .error (by simp [grade,Severity.rank])
      have warnings := above .warning (by simp [grade,Severity.rank])
      simpa [grade,errors,warnings] using parts
    | success =>
      have errors := above .error (by simp [grade,Severity.rank])
      have warnings := above .warning (by simp [grade,Severity.rank])
      have infos := above .info (by simp [grade,Severity.rank])
      simpa [grade,errors,warnings,infos] using parts

theorem sorted_bySeverity : (bySeverity found).Pairwise fun a b => a.severity.rank ≤ b.severity.rank :=
  (List.pairwise_mergeSort rank_trans rank_total found).imp of_decide_eq_true

theorem bySeverity_sorted (sorted : found.Pairwise fun a b => a.severity.rank ≤ b.severity.rank) :
    bySeverity found = found :=
  List.mergeSort_of_pairwise (sorted.imp decide_eq_true)

theorem bySeverity_parts : bySeverity found =
    Severity.all.flatMap fun severity => found.filter fun d => d.severity == severity := by
  rw [sorted_parts _ (sorted_bySeverity found)]
  simp only [filter_bySeverity]

@[simp] theorem readOut_pushAll : (empty.pushAll found).readOut = bySeverity found := by
  rw [←ordered_eq_readOut,ordered_pushAll,bySeverity_parts]

theorem readOut_sublist (later : List Diagnostic) : c.readOut.Sublist (c.pushAll later).readOut := by
  simp only [readOut,Severity.all,List.flatMap_cons,List.flatMap_nil,List.append_nil,bucket_pushAll]
  exact (List.sublist_append_left _ _).append ((List.sublist_append_left _ _).append
    ((List.sublist_append_left _ _).append (List.sublist_append_left _ _)))

theorem ordered_perm : (empty.pushAll found).ordered.Perm found := by
  simpa [bySeverity] using List.mergeSort_perm found _

end AutomationLint.Collector

namespace AutomationLint.Report

variable (r : Report)

theorem count_eq_zero (severity : Severity) : r.count severity = 0 ↔ ∀ d ∈ r.diagnostics, d.severity ≠ severity := by
  rw [count,List.length_eq_zero_iff]
  exact Collector.filter_severity_nil _ _

theorem isClean_iff : r.isClean = true ↔ ∀ d ∈ r.diagnostics, d.severity ≠ .error ∧ d.severity ≠ .warning := by
  simp only [isClean,Bool.and_eq_true,beq_iff_eq,count_eq_zero,←forall_and]

def InOrder : Prop := r.diagnostics.Pairwise fun a b => a.severity.rank ≤ b.severity.rank

end AutomationLint.Report
