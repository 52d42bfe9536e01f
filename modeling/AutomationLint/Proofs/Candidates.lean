import AutomationLint.Check
import AutomationLint.Stream

namespace AutomationLint
open AutomationLint.Tree

def Keyless (t : Tree) : Prop := ∀ key ∈ candidateKeys, t.field? key = none

theorem isCandidate_eq_false (t : Tree) : isCandidate t = false ↔ Keyless t := by
  cases t with
  | map entries =>
    simp only [isCandidate,hasAnyKey,Keyless,field?,List.any_eq_false,Bool.not_eq_true,Option.isSome_eq_false_iff,
      Option.isNone_iff_eq_none]
  | _ => simp [isCandidate,Keyless,field?]

inductive Inserted : List Tree → List Tree → Prop where
  | done : Inserted [] []
  | keep (t : Tree) (rest : Inserted items more) : Inserted (t :: items) (t :: more)
  | insert (t : Tree) (keyless : Keyless t) (rest : Inserted items more) : Inserted items (t :: more)

theorem Inserted.filter (inserted : Inserted items more) : more.filter isCandidate = items.filter isCandidate := by
  induction inserted with
  | done => rfl
  | keep t _ ih => simp only [List.filter_cons,ih]
  | insert t keyless _ ih => simp [(isCandidate_eq_false t).mpr keyless,ih]

theorem Inserted.length_le (inserted : Inserted items more) : items.length ≤ more.length := by
  induction inserted with
  | done => exact Nat.le_refl _
  | keep _ _ ih => exact Nat.succ_le_succ ih
  | insert _ _ _ ih => exact Nat.le_succ_of_le ih

theorem selectRoot_several (docs : List Tree) (several : 2 ≤ docs.length) :
    Stream.selectRoot docs = some (.seq docs) := by
  match docs with
  | [] | [_] => simp at several
  | _ :: _ :: _ => rfl

def Keyed (t : Tree) : Prop :=
  ∃ entries, t = .map entries ∧ ∃ key ∈ candidateKeys, ∃ value, entries.lookup key = some value

theorem isCandidate_iff (t : Tree) : isCandidate t = true ↔ Keyed t := by
  cases t with
  | map entries => simp [isCandidate,hasAnyKey,Keyed,Option.isSome_iff_exists]
  | _ => simp [isCandidate,Keyed]

theorem keyless_or_keyed (t : Tree) : Keyless t ∨ Keyed t := by
  rw [←isCandidate_eq_false,←isCandidate_iff]
  exact Bool.eq_false_or_eq_true (isCandidate t) |>.symm

-- Where records are looked for: nothing of the root is deeper than these
-- lists. To every root one rule applies, and it takes a part of one list.
inductive Searched : Tree → List Tree → Prop where
  | items : Searched (.seq items) items
  | root : Searched root [root]
  | wrapped (there : root.field? "automation" = some (.seq items)) : Searched root items

inductive Barren : Tree → Prop where
  | scalar (shape : t.shape ≠ .mapping ∧ t.shape ≠ .sequence) : Barren t
  | items (each : ∀ item ∈ items, Keyless item) : Barren (.seq items)
  | mapping (keyless : Keyless (.map entries))
      (wrapped : ∀ items, entries.lookup "automation" = some (.seq items) → ∀ item ∈ items, Keyless item) :
      Barren (.map entries)

variable (root : Tree) (entries : Entries) (items : List Tree)

@[simp] theorem extract_items : extract (.seq items) = items.filter isCandidate := rfl

theorem extract_keyed (keyed : Keyed root) : extract root = [root] := by
  obtain ⟨entries,rfl,_⟩ := id keyed
  rw [extract,if_pos ((isCandidate_iff _).mpr keyed)]

theorem extract_keyless (keyless : Keyless (.map entries)) : extract (.map entries) =
    match entries.lookup "automation" with
    | some (.seq items) => items.filter isCandidate
    | _ => [] := by
  have other : ¬isCandidate (.map entries) = true := by simp [(isCandidate_eq_false _).mpr keyless]
  rw [extract,if_neg other]
  rfl

theorem extract_wrapped (keyless : Keyless (.map entries)) (there : entries.lookup "automation" = some (.seq items)) :
    extract (.map entries) = extract (.seq items) := by
  rw [extract_keyless entries keyless,there,extract_items]

theorem extract_unwrapped (keyless : Keyless (.map entries))
    (absent : ¬∃ items, entries.lookup "automation" = some (.seq items)) : extract (.map entries) = [] := by
  rw [extract_keyless entries keyless]
  split
  · rename_i items there
    exact absurd ⟨items,there⟩ absent
  · rfl

theorem filter_eq_nil : items.filter isCandidate = [] ↔ ∀ item ∈ items, Keyless item := by
  simp only [List.filter_eq_nil_iff,Bool.not_eq_true,isCandidate_eq_false]

theorem extract_searched : ∃ searched, Searched root searched ∧ extract root = searched.filter isCandidate := by
  cases root with
  | seq items => exact ⟨items,.items,rfl⟩
  | map entries =>
    rcases keyless_or_keyed (.map entries) with keyless | keyed
    · by_cases wrapped : ∃ items, entries.lookup "automation" = some (.seq items)
      · obtain ⟨items,there⟩ := wrapped
        exact ⟨items,.wrapped there,extract_wrapped _ _ keyless there⟩
      · refine ⟨_,.root,?_⟩
        rw [extract_unwrapped _ keyless wrapped,eq_comm,filter_eq_nil]
        simpa using keyless
    · refine ⟨_,.root,?_⟩
      rw [extract_keyed _ keyed,List.filter_cons_of_pos ((isCandidate_iff _).mpr keyed),List.filter_nil]
  | _ => exact ⟨_,.root,rfl⟩

theorem extract_keyed_of_mem {record : Tree} (member : record ∈ extract root) : Keyed record := by
  obtain ⟨searched,_,found⟩ := extract_searched root
  rw [found] at member
  exact (isCandidate_iff record).mp (List.mem_filter.mp member).2

@[simp] theorem extract_again : extract (.seq (extract root)) = extract root :=
  List.filter_eq_self.mpr fun _ member => (isCandidate_iff _).mpr (extract_keyed_of_mem root member)

theorem extract_eq_nil : extract root = [] ↔ Barren root := by
  cases root with
  | seq items =>
    rw [extract_items,filter_eq_nil]
    constructor
    · exact .items
    · intro barren
      cases barren with
      | scalar shape => exact absurd rfl shape.2
      | items each => exact each
  | map entries =>
    constructor
    · intro none
      rcases keyless_or_keyed (.map entries) with keyless | keyed
      · refine .mapping keyless ?_
        intro items there
        rwa [extract_wrapped _ _ keyless there,extract_items,filter_eq_nil] at none
      · rw [extract_keyed _ keyed] at none
        cases none
    · intro barren
      cases barren with
      | scalar shape => exact absurd rfl shape.1
      | mapping keyless wrapped =>
        by_cases list : ∃ items, entries.lookup "automation" = some (.seq items)
        · obtain ⟨items,there⟩ := list
          rw [extract_wrapped _ _ keyless there,extract_items,filter_eq_nil]
          exact wrapped items there
        · exact extract_unwrapped _ keyless list
  | _ => exact iff_of_true rfl (.scalar ⟨nofun,nofun⟩)

theorem records_of_root :
    (∀ root, (∀ record ∈ extract root, Keyed record) ∧
      (∃ searched, Searched root searched ∧ (extract root).Sublist searched) ∧
      (Keyed root → extract root = [root]) ∧
      extract (.seq (extract root)) = extract root ∧
      (extract root = [] ↔ Barren root)) ∧
    (∀ items more, extract (.seq (items ++ more)) = extract (.seq items) ++ extract (.seq more)) ∧
    ∀ entries items, Keyless (.map entries) → entries.lookup "automation" = some (.seq items) →
      extract (.map entries) = extract (.seq items) := by
  refine ⟨?_,?_,?_⟩
  · intro root
    obtain ⟨searched,place,found⟩ := extract_searched root
    exact ⟨fun record member => extract_keyed_of_mem root member,⟨searched,place,found ▸ List.filter_sublist⟩,
      extract_keyed root,extract_again root,extract_eq_nil root⟩
  · intro items more
    exact List.filter_append items more
  · intro entries items keyless there
    exact extract_wrapped entries items keyless there

-- A wrapped list that holds a record, a record that wraps another one, and a
-- mapping that wraps one.
theorem records_of_root_wrapped_list :
    let record := Tree.map [("id",.int 1)]
    let outer := Tree.map [("automation",.seq [record]),("action",.null)]
    let items := [record,outer,.map [("automation",.seq [record])],.seq [record]]
    let entries := [("mode",Tree.str "x"),("automation",.seq items)]
    Keyless (.map entries) ∧ entries.lookup "automation" = some (.seq items) ∧
      extract (.map entries) = extract (.seq items) ∧ extract (.seq items) = [record,outer] ∧ extract outer = [outer] := by
  intro record outer items entries
  have keyless : Keyless (.map entries) := (isCandidate_eq_false _).mp (by decide +kernel)
  obtain ⟨each,_,unwrap⟩ := records_of_root
  have keyed : Keyed outer := (isCandidate_iff outer).mp (by decide +kernel)
  exact ⟨keyless,rfl,unwrap entries items keyless rfl,rfl,(each outer).2.2.1 keyed⟩

end AutomationLint
