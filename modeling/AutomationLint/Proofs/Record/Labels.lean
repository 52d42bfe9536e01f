import AutomationLint.Proofs.Number.Nearest
import AutomationLint.Proofs.Record.Outline
import AutomationLint.Proofs.Tree.Json

namespace AutomationLint

namespace Tree

def number? : Tree → Option ℚ
  | .int n => some n
  | .float x => some x.value
  | _ => none

inductive Falsy : Tree → Prop where
  | null : Falsy .null
  | no : Falsy (.bool false)
  | empty : Falsy (.str "")
  | zero (value : number? t = some 0) : Falsy t

end Tree

namespace Record
open AutomationLint.Tree

-- Where a label comes from, told without the search for it. A string may read
-- like a number of the record; it is the value of its name all the same.
inductive Origin where
  | named (name : String) (value : Tree)
  | numbered

namespace Origin

def value? : Origin → Option Tree
  | named _ value => some value
  | numbered => none

def text (index : Nat) : Origin → String
  | named _ (.str s) => s
  | named _ value => compact value
  | numbered => "Automation " ++ toString (index + 1)

end Origin

def PassedOver (record : Tree) (name : String) : Prop := ∀ value, record.field? name = some value → Falsy value

inductive LabelledBy (record : Tree) : Origin → Prop where
  | first (there : record.field? "alias" = some value) (shown : ¬Falsy value) : LabelledBy record (.named "alias" value)
  | second (passed : PassedOver record "alias") (there : record.field? "id" = some value) (shown : ¬Falsy value) :
      LabelledBy record (.named "id" value)
  | neither (noAlias : PassedOver record "alias") (noId : PassedOver record "id") : LabelledBy record .numbered

variable {record : Tree} {origin other : Origin} {value : Tree}

theorem truthy_int (n : Int) : truthy (.int n) = false ↔ n = 0 := by
  rw [truthy]
  cases taken : Binary64.ofInt? n with
  | none =>
    have nonzero : n ≠ 0 := by
      rintro rfl
      cases taken
    simp [nonzero]
  | some x =>
    rw [←Binary64.ofInt?_isZero taken]
    simp

@[simp] theorem number?_eq_zero : number? value = some 0 ↔ value = .int 0 ∨ ∃ negative, value = .float (.zero negative) := by
  cases value with
  | int n => simp [number?]
  | float x =>
    have zero : x.value = 0 ↔ ∃ negative, x = .zero negative := by
      rw [Binary64.value_eq_zero]
      constructor
      · exact fun is => ⟨_,(Binary64.isZero_iff x).mp is⟩
      · rintro ⟨negative,rfl⟩
        rfl
    simp [number?,zero]
  | _ => simp [number?]

@[simp] theorem truthy_eq_false : truthy value = false ↔ Falsy value := by
  constructor
  · intro falsy
    cases value with
    | null => exact .null
    | bool b =>
      cases b with
      | false => exact .no
      | true => cases falsy
    | int n =>
      have none := (truthy_int n).mp falsy
      exact .zero (number?_eq_zero.mpr (.inl (congrArg Tree.int none)))
    | float x =>
      have is : x.isZero = true := by simpa [truthy] using falsy
      exact .zero (congrArg some ((Binary64.value_eq_zero x).mpr is))
    | str s =>
      have none : s = "" := by simpa [truthy] using falsy
      exact none ▸ .empty
    | seq | map => cases falsy
  · intro falsy
    cases falsy with
    | null | no => rfl
    | empty => simp [truthy]
    | zero zero =>
      rcases number?_eq_zero.mp zero with rfl | ⟨negative,rfl⟩
      · exact (truthy_int 0).mpr rfl
      · rfl

theorem truthy_of_shown (shown : ¬Falsy value) : truthy value = true :=
  Bool.eq_true_of_not_eq_false fun falsy => shown (truthy_eq_false.mp falsy)

theorem origin_unique (one : LabelledBy record origin) (two : LabelledBy record other) : origin = other := by
  cases one with
  | first there shown =>
    cases two with
    | first found => rw [Option.some.inj (there.symm.trans found)]
    | second passed | neither passed => exact absurd (passed _ there) shown
  | second passed there shown =>
    cases two with
    | first found visible => exact absurd (passed _ found) visible
    | second _ found => rw [Option.some.inj (there.symm.trans found)]
    | neither _ noId => exact absurd (noId _ there) shown
  | neither noAlias noId =>
    cases two with
    | first found visible => exact absurd (noAlias _ found) visible
    | second _ found visible => exact absurd (noId _ found) visible
    | neither => rfl

theorem origin_exists (record : Tree) : ∃ origin, LabelledBy record origin := by
  have looked : ∀ name, PassedOver record name ∨ ∃ value, record.field? name = some value ∧ ¬Falsy value := by
    intro name
    by_contra neither
    rw [not_or] at neither
    exact neither.1 fun value there => by_contra fun shown => neither.2 ⟨value,there,shown⟩
  rcases looked "alias" with passed | ⟨value,there,shown⟩
  · rcases looked "id" with hidden | ⟨value,there,shown⟩
    · exact ⟨_,.neither passed hidden⟩
    · exact ⟨_,.second passed there shown⟩
  · exact ⟨_,.first there shown⟩

theorem find?_labelled (labelled : LabelledBy record origin) :
    (["alias","id"].filterMap record.field?).find? truthy = origin.value? := by
  have hidden : ∀ name value, PassedOver record name → record.field? name = some value → truthy value = false :=
    fun name value passed there => truthy_eq_false.mpr (passed value there)
  cases labelled with
  | first there shown => simp [there,truthy_of_shown shown,Origin.value?]
  | second passed there shown =>
    cases alias_ : record.field? "alias" with
    | none => simp [alias_,there,truthy_of_shown shown,Origin.value?]
    | some other => simp [alias_,there,hidden _ other passed alias_,truthy_of_shown shown,Origin.value?]
  | neither noAlias noId =>
    refine List.find?_eq_none.mpr ?_
    intro value member
    obtain ⟨name,inside,there⟩ := List.mem_filterMap.mp member
    rcases List.mem_cons.mp inside with rfl | last
    · simp [hidden _ value noAlias there]
    · cases List.mem_singleton.mp last
      simp [hidden _ value noId there]

theorem label_text (labelled : LabelledBy record origin) (index : Nat) : label record index = origin.text index := by
  rw [label,find?_labelled labelled]
  cases origin with
  | numbered => rfl
  | named name value => cases value <;> rfl

theorem text_ne_empty (labelled : LabelledBy record origin) (index : Nat) : origin.text index ≠ "" := by
  have shownText : ∀ name value, ¬Falsy value → (Origin.named name value).text index ≠ "" := by
    intro name value shown
    cases value with
    | str s =>
      rintro rfl
      exact shown .empty
    | _ => exact compact_ne_empty _
  cases labelled with
  | first _ shown => exact shownText _ _ shown
  | second _ _ shown => exact shownText _ _ shown
  | neither =>
    intro none
    have start := congrArg String.toList none
    simp [Origin.text,String.toList_append] at start

theorem unlabelled (other : record.shape ≠ .mapping) : LabelledBy record .numbered := by
  have nothing : ∀ name, record.field? name = none := by
    intro name
    cases record with
    | map => exact absurd rfl other
    | _ => rfl
  exact .neither (fun value there => by cases (nothing _).symm.trans there)
    (fun value there => by cases (nothing _).symm.trans there)

theorem label_of_first_shown :
    (∀ record, ∃! origin, LabelledBy record origin) ∧
    (∀ record origin index, LabelledBy record origin → label record index = origin.text index) ∧
    (∀ record index, label record index ≠ "") ∧
    (∀ value, truthy value = false ↔ Falsy value) ∧
    (∀ value, number? value = some 0 ↔ value = .int 0 ∨ ∃ negative, value = .float (.zero negative)) ∧
    (∀ (n : Int) (x : Binary64), Binary64.ofInt? n = some x → (x.value = 0 ↔ n = 0)) ∧
    (∀ record other index, (∀ name ∈ ["alias","id"], record.field? name = other.field? name) →
      label record index = label other index) ∧
    ∀ record, record.shape ≠ .mapping → LabelledBy record .numbered := by
  refine ⟨?_,?_,?_,fun _ => truthy_eq_false,fun _ => number?_eq_zero,?_,?_,fun _ => unlabelled⟩
  · intro record
    obtain ⟨origin,labelled⟩ := origin_exists record
    exact ⟨origin,labelled,fun _ other => origin_unique other labelled⟩
  · intro record origin index labelled
    exact label_text labelled index
  · intro record index
    obtain ⟨origin,labelled⟩ := origin_exists record
    rw [label_text labelled index]
    exact text_ne_empty labelled index
  · intro n x taken
    rw [Binary64.value_eq_zero]
    exact Binary64.ofInt?_isZero taken
  · intro record other index same
    exact label_congr index same

-- A zero with a sign is passed over, the least number above it is not; a list
-- of records is no record.
theorem label_of_first_shown_least_number :
    let least := Tree.float ⟨false,1,by decide +kernel⟩
    let record := Tree.map [("id",least),("alias",.float (.zero true))]
    let moved := Tree.map [("alias",.float (.zero true)),("mode",.str "single"),("id",least)]
    LabelledBy record (.named "id" least) ∧ label record 4 = "5e-324" ∧ label moved 4 = label record 4 ∧
      LabelledBy (.seq [record]) .numbered ∧ label (.seq [record]) 4 = "Automation 5" := by
  intro least record moved
  obtain ⟨_,texts,_,_,_,_,fields,others⟩ := label_of_first_shown
  have passed : PassedOver record "alias" := by
    intro value there
    cases Option.some.inj there
    exact .zero (number?_eq_zero.mpr (.inr ⟨true,rfl⟩))
  have shown : ¬Falsy least := fun falsy => absurd (truthy_eq_false.mpr falsy) (by decide)
  have labelled : LabelledBy record (.named "id" least) := .second passed rfl shown
  have numbered : LabelledBy (.seq [record]) .numbered := others _ nofun
  refine ⟨labelled,?_,?_,numbered,?_⟩
  · rw [texts _ _ 4 labelled]
    decide +kernel
  · refine fields moved record 4 ?_
    intro name member
    rcases List.mem_cons.mp member with rfl | last
    · rfl
    · cases List.mem_singleton.mp last
      rfl
  · rw [texts _ _ 4 numbered]
    decide

end Record

end AutomationLint
