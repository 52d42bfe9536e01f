import AutomationLint.Proofs.Record.Acceptance
import AutomationLint.Proofs.Record.Walk

namespace AutomationLint.Record
open AutomationLint.Tree

def sites (found : List Diagnostic) : List (String × Option String) := found.map fun d => (d.code,d.path)

-- What can be wrong with an item, seen from it: the code, and the key it is
-- about, or the item itself. Nothing is taken from the checks here.
inductive ItemFinding (look : Option String → Option Tree) : ItemKind → String → Option String → Prop where
  | notObject (there : look none = some item) (other : item.shape ≠ .mapping) :
      ItemFinding look kind (kind.word ++ "_not_object") none
  | noTriggerKey (there : look none = some item) (mapping : item.shape = .mapping)
      (without : ∀ key ∈ triggerKeys, look (some key) = none) : ItemFinding look .trigger "trigger_no_obvious_key" none
  | noActionKey (there : look none = some item) (mapping : item.shape = .mapping)
      (without : ∀ key ∈ actionKeys, look (some key) = none) : ItemFinding look .action "action_no_expected_key" none
  | platform (there : look (some "platform") = some value) (other : value.shape ≠ .string) :
      ItemFinding look .trigger "platform_not_string" (some "platform")
  | service (there : look (some "service") = some value) (other : value.shape ≠ .string) :
      ItemFinding look .action "service_not_string" (some "service")
  | data (there : look (some "data") = some value) (other : value.shape ≠ .mapping ∧ value.shape ≠ .null) :
      ItemFinding look .action "data_not_object" (some "data")

def lookFrom (item : Tree) : Option String → Option Tree
  | none => some item
  | some key => item.field? key

theorem ItemKind.word_plain (kind : ItemKind) : ∀ c ∈ kind.word.toList, c ≠ '[' ∧ c ≠ '.' := by
  cases kind <;> simp [ItemKind.word]

def fieldWalk (kind : ItemKind) : Walk := ⟨kind.word,none,none,kind.word_plain⟩

def itemWalk (kind : ItemKind) (i : Nat) : Walk := ⟨kind.word,some i,none,kind.word_plain⟩

def conditionWalk : Walk := ⟨"condition",none,none,by simp⟩

-- An item stands in the field itself, when that is a mapping or null, or in
-- the list there.
inductive ItemAt (record : Tree) (kind : ItemKind) : Walk → Tree → Prop where
  | field (there : (fieldWalk kind).reach record = some item) (shape : item.shape = .mapping ∨ item.shape = .null) :
      ItemAt record kind (fieldWalk kind) item
  | element (there : (itemWalk kind i).reach record = some item) : ItemAt record kind (itemWalk kind i) item

inductive FieldFinding (record : Tree) (kind : ItemKind) : String → Walk → Prop where
  | missing (absent : (fieldWalk kind).reach record = none) :
      FieldFinding record kind ("missing_" ++ kind.word) (fieldWalk kind)
  | listEmpty (there : (fieldWalk kind).reach record = some (.seq [])) :
      FieldFinding record kind (kind.word ++ "_list_empty") (fieldWalk kind)
  | wrongType (there : (fieldWalk kind).reach record = some value)
      (scalar : value.shape = .bool ∨ value.shape = .number ∨ value.shape = .string) :
      FieldFinding record kind (kind.word ++ "_wrong_type") (fieldWalk kind)
  | item (node : ItemAt record kind w item) (wrong : ItemFinding (fun key => (w.keyed key).reach record) kind code key) :
      FieldFinding record kind code (w.keyed key)

inductive Finding (record : Tree) : String → Walk → Prop where
  | field (kind : ItemKind) (wrong : FieldFinding record kind code w) : Finding record code w
  | noCondition (absent : conditionWalk.reach record = none) : Finding record "no_condition" conditionWalk

variable (kind : ItemKind) (entries : Entries) (item record : Tree) (index : Nat) (path code : String)
  (place : Option String)

@[simp] theorem sites_append (front rest : List Diagnostic) : sites (front ++ rest) = sites front ++ sites rest :=
  List.map_append

theorem sites_perm (found other : List Diagnostic) (perm : found.Perm other) : (sites found).Perm (sites other) :=
  perm.map _

@[simp] theorem mem_sites_nil : (code,place) ∈ sites [] ↔ False := by simp [sites]

@[simp] theorem mem_sites_finding (severity : Severity) (said message : String) :
    (code,place) ∈ sites [finding severity said path message] ↔ code = said ∧ place = some path := by
  simp [sites,finding,Diagnostic.new,Diagnostic.withPath]

theorem fieldWalk_text (key : Option String) : ((fieldWalk kind).keyed key).text = kind.word ++ Walk.ending key := by
  simp [fieldWalk,Walk.keyed,Walk.text,Walk.element]

@[simp] theorem fieldWalk_self : (fieldWalk kind).text = kind.word := by
  simp [fieldWalk,Walk.text,Walk.element,Walk.ending]

theorem itemWalk_text (key : Option String) : ((itemWalk kind index).keyed key).text =
    listPath kind index ++ Walk.ending key := by
  simp [itemWalk,Walk.keyed,Walk.text,Walk.element,listPath,String.append_assoc]

theorem hasAnyKey_eq_false (names : List String) :
    hasAnyKey entries names = false ↔ ∀ name ∈ names, entries.lookup name = none := by
  simp only [hasAnyKey,List.any_eq_false,Bool.not_eq_true,Option.isSome_eq_false_iff,Option.isNone_iff_eq_none]

def ItemKind.keyless : ItemKind → String
  | .trigger => "trigger_no_obvious_key"
  | .action => "action_no_expected_key"

theorem sites_keyFindings : (code,place) ∈ sites (keyFindings kind entries index path) ↔
    code = kind.keyless ∧ place = some (path ++ Walk.ending none) ∧ ∀ key ∈ kind.keys, entries.lookup key = none := by
  rw [show path ++ Walk.ending none = path from String.append_empty]
  unfold keyFindings
  cases known : hasAnyKey entries kind.keys with
  | true =>
    have present : ¬∀ key ∈ kind.keys, entries.lookup key = none := fun absent => by
      simp [(hasAnyKey_eq_false entries kind.keys).mpr absent] at known
    simp only [if_true,mem_sites_nil,present,and_false]
  | false =>
    have absent := (hasAnyKey_eq_false entries kind.keys).mp known
    cases kind <;> simpa [ItemKind.keyless] using fun _ _ => absent

theorem sites_namingFindings : (code,place) ∈ sites (namingFindings kind entries index path) ↔
    code = kind.naming ++ "_not_string" ∧ place = some (path ++ Walk.ending (some kind.naming)) ∧
      ∃ value, entries.lookup kind.naming = some value ∧ value.shape ≠ .string := by
  have ending : path ++ Walk.ending (some kind.naming) = path ++ "." ++ kind.naming := String.append_assoc.symm
  rw [ending]
  unfold namingFindings
  cases there : entries.lookup kind.naming with
  | none => simp
  | some value => cases value <;> simp [shape]

theorem sites_dataFindings : (code,place) ∈ sites (dataFindings kind entries index path) ↔
    code = "data_not_object" ∧ place = some (path ++ Walk.ending (some "data")) ∧ kind = .action ∧
      ∃ value, entries.lookup "data" = some value ∧ value.shape ≠ .mapping ∧ value.shape ≠ .null := by
  have ending : Walk.ending (some "data") = ".data" := rfl
  rw [ending]
  unfold dataFindings
  cases kind with
  | trigger => simp
  | action =>
    cases there : entries.lookup "data" with
    | none => simp
    | some value => cases value <;> simp [shape]

theorem sites_notObject (message : String) :
    (code,place) ∈ sites [finding .warning (kind.word ++ "_not_object") path message] ↔
      code = kind.word ++ "_not_object" ∧ place = some (path ++ Walk.ending none) := by
  rw [show path ++ Walk.ending none = path from String.append_empty]
  exact mem_sites_finding _ _ _ _ _ _

theorem sites_itemFindings : (code,place) ∈ sites (itemFindings kind item index path) ↔
    ∃ key, place = some (path ++ Walk.ending key) ∧ ItemFinding (lookFrom item) kind code key := by
  cases item with
  | map entries =>
    simp only [itemFindings,sites_append,List.mem_append,sites_keyFindings,sites_namingFindings,sites_dataFindings]
    constructor
    · intro member
      rcases member with (⟨rfl,rfl,without⟩ | ⟨rfl,rfl,value,there,other⟩) | ⟨rfl,rfl,rfl,value,there,other⟩
      · cases kind with
        | trigger => exact ⟨none,rfl,.noTriggerKey rfl rfl without⟩
        | action => exact ⟨none,rfl,.noActionKey rfl rfl without⟩
      · cases kind with
        | trigger => exact ⟨some "platform",rfl,.platform there other⟩
        | action => exact ⟨some "service",rfl,.service there other⟩
      · exact ⟨some "data",rfl,.data there other⟩
    · intro described
      obtain ⟨key,rfl,wrong⟩ := described
      cases wrong with
      | notObject there other => exact absurd (Option.some.inj there ▸ rfl) other
      | noTriggerKey there mapping without => exact .inl (.inl ⟨rfl,rfl,without⟩)
      | noActionKey there mapping without => exact .inl (.inl ⟨rfl,rfl,without⟩)
      | platform there other => exact .inl (.inr ⟨rfl,rfl,_,there,other⟩)
      | service there other => exact .inl (.inr ⟨rfl,rfl,_,there,other⟩)
      | data there other => exact .inr ⟨rfl,rfl,rfl,_,there,other⟩
  | _ =>
    simp only [itemFindings,sites_notObject]
    constructor
    · intro member
      obtain ⟨rfl,rfl⟩ := member
      exact ⟨none,rfl,.notObject rfl (by simp [shape])⟩
    · intro described
      obtain ⟨key,rfl,wrong⟩ := described
      cases wrong with
      | notObject => exact ⟨rfl,rfl⟩
      | noTriggerKey there mapping => simp [←Option.some.inj there,shape] at mapping
      | noActionKey there mapping => simp [←Option.some.inj there,shape] at mapping
      | platform there => simp [lookFrom,field?] at there
      | service there => simp [lookFrom,field?] at there
      | data there => simp [lookFrom,field?] at there

theorem sites_itemsFindings (items : List Tree) : (code,place) ∈ sites (itemsFindings kind index items) ↔
    ∃ i item key, items[i]? = some item ∧ place = some ((itemWalk kind (index + i)).keyed key).text ∧
      ItemFinding (lookFrom item) kind code key := by
  induction items generalizing index with
  | nil => simp [itemsFindings]
  | cons item rest ih =>
    rw [itemsFindings,sites_append,List.mem_append,sites_itemFindings,ih]
    constructor
    · intro member
      rcases member with ⟨key,rfl,wrong⟩ | ⟨i,other,key,there,rfl,wrong⟩
      · exact ⟨0,item,key,rfl,by rw [Nat.add_zero,itemWalk_text],wrong⟩
      · exact ⟨i + 1,other,key,there,by rw [Nat.add_right_comm,Nat.add_assoc],wrong⟩
    · intro described
      obtain ⟨i,other,key,there,rfl,wrong⟩ := described
      cases i with
      | zero =>
        cases Option.some.inj there
        exact .inl ⟨key,by rw [Nat.add_zero,itemWalk_text],wrong⟩
      | succ i => exact .inr ⟨i,other,key,there,by rw [Nat.add_right_comm,Nat.add_assoc],wrong⟩

theorem reach_field : (fieldWalk kind).reach record = record.field? kind.word := rfl

theorem reach_item : (itemWalk kind index).reach record = some item ↔
    ∃ items, (fieldWalk kind).reach record = some (.seq items) ∧ items[index]? = some item := by
  rw [reach_field]
  cases there : record.field? kind.word with
  | none => simp [itemWalk,Walk.reach,there]
  | some value => cases value <;> simp [itemWalk,Walk.reach,there]

theorem ItemAt.look {w : Walk} (node : ItemAt record kind w item) :
    (fun key => (w.keyed key).reach record) = lookFrom item := by
  have here : w.reach record = some item ∧ w.key = none := by
    cases node with
    | field there shape => exact ⟨there,rfl⟩
    | element there => exact ⟨there,rfl⟩
  funext key
  cases key with
  | none => rw [Walk.keyed_none w here.2,here.1]; rfl
  | some key => rw [Walk.reach_keyed record w key here.2,here.1]; rfl

theorem fieldFinding_item {w : Walk} {key : Option String} (node : ItemAt record kind w item)
    (wrong : ItemFinding (lookFrom item) kind code key) : FieldFinding record kind code (w.keyed key) :=
  .item node (node.look ▸ wrong)

theorem fieldFindings_single (value : Tree) (single : value.shape = .mapping ∨ value.shape = .null) :
    fieldFindings kind value = itemFindings kind value 0 kind.word := by
  cases value with
  | map | null => rfl
  | _ => simp [shape] at single

theorem fieldFindings_scalar (value : Tree)
    (scalar : value.shape = .bool ∨ value.shape = .number ∨ value.shape = .string) : fieldFindings kind value =
      [finding .warning (kind.word ++ "_wrong_type") kind.word (kind.word ++ " is not an object/array")] := by
  cases value with
  | bool | int | float | str => rfl
  | _ => simp [shape] at scalar

theorem fieldFindings_list (items : List Tree) (some : items ≠ []) :
    fieldFindings kind (.seq items) = itemsFindings kind 0 items := by
  cases items with
  | nil => exact absurd rfl some
  | cons => rfl

theorem sites_wrong (code said message : String) (place : Option String) :
    (code,place) ∈ sites [finding .warning said kind.word message] ↔
      code = said ∧ place = some (fieldWalk kind).text := by
  rw [fieldWalk_self]
  exact mem_sites_finding _ _ _ _ _ _

theorem fieldFinding_of_site (value : Tree) (there : (fieldWalk kind).reach record = some value)
    (member : (code,place) ∈ sites (fieldFindings kind value)) :
    ∃ w, place = some w.text ∧ FieldFinding record kind code w := by
  have scalar : (value.shape = .bool ∨ value.shape = .number ∨ value.shape = .string) →
      ∃ w, place = some w.text ∧ FieldFinding record kind code w := by
    intro shape
    rw [fieldFindings_scalar kind value shape,sites_wrong] at member
    obtain ⟨rfl,rfl⟩ := member
    exact ⟨_,rfl,.wrongType there shape⟩
  have single : (value.shape = .mapping ∨ value.shape = .null) →
      ∃ w, place = some w.text ∧ FieldFinding record kind code w := by
    intro shape
    rw [fieldFindings_single kind value shape,sites_itemFindings] at member
    obtain ⟨key,rfl,wrong⟩ := member
    exact ⟨(fieldWalk kind).keyed key,by rw [fieldWalk_text],fieldFinding_item _ _ _ _ (.field there shape) wrong⟩
  cases value with
  | null => exact single (.inr rfl)
  | bool => exact scalar (.inl rfl)
  | int | float => exact scalar (.inr (.inl rfl))
  | str => exact scalar (.inr (.inr rfl))
  | map => exact single (.inl rfl)
  | seq items =>
    by_cases some : items = []
    · subst some
      obtain ⟨rfl,rfl⟩ := (sites_wrong kind code _ _ place).mp member
      exact ⟨_,rfl,.listEmpty there⟩
    · rw [fieldFindings_list kind items some,sites_itemsFindings] at member
      obtain ⟨i,item,key,inside,rfl,wrong⟩ := member
      rw [Nat.zero_add]
      have node := ItemAt.element ((reach_item kind item record i).mpr ⟨items,there,inside⟩)
      exact ⟨(itemWalk kind i).keyed key,rfl,fieldFinding_item _ _ _ _ node wrong⟩

theorem site_of_fieldFinding {w : Walk} (value : Tree) (there : (fieldWalk kind).reach record = some value)
    (wrong : FieldFinding record kind code w) : (code,some w.text) ∈ sites (fieldFindings kind value) := by
  cases wrong with
  | missing absent => simp [absent] at there
  | listEmpty empty =>
    cases Option.some.inj (there.symm.trans empty)
    exact (sites_wrong _ _ _ _ _).mpr ⟨rfl,rfl⟩
  | wrongType found scalar =>
    cases Option.some.inj (there.symm.trans found)
    rw [fieldFindings_scalar kind value scalar]
    exact (sites_wrong _ _ _ _ _).mpr ⟨rfl,rfl⟩
  | item node wrong =>
    rw [node.look] at wrong
    cases node with
    | field found shape =>
      cases Option.some.inj (there.symm.trans found)
      rw [fieldWalk_text,fieldFindings_single kind value shape,sites_itemFindings]
      exact ⟨_,rfl,wrong⟩
    | element found =>
      obtain ⟨items,list,inside⟩ := (reach_item kind _ record _).mp found
      cases Option.some.inj (there.symm.trans list)
      have some : items ≠ [] := by
        intro none
        simp [none] at inside
      rw [fieldFindings_list kind items some,sites_itemsFindings]
      exact ⟨_,_,_,inside,by rw [Nat.zero_add],wrong⟩

theorem sites_fieldFindings (value : Tree) (there : (fieldWalk kind).reach record = some value) :
    (code,place) ∈ sites (fieldFindings kind value) ↔ ∃ w, place = some w.text ∧ FieldFinding record kind code w := by
  constructor
  · intro member
    exact fieldFinding_of_site kind record code place value there member
  · intro described
    obtain ⟨w,rfl,wrong⟩ := described
    exact site_of_fieldFinding kind record code value there wrong

theorem sites_part (title : String) : (code,place) ∈ sites (missing kind record title ++ partFindings kind record) ↔
    ∃ w, place = some w.text ∧ FieldFinding record kind code w := by
  unfold missing partFindings
  rw [←reach_field]
  cases there : (fieldWalk kind).reach record with
  | some value => exact sites_fieldFindings kind record code place value there
  | none =>
    rw [List.append_nil,sites_wrong]
    constructor
    · intro member
      obtain ⟨rfl,rfl⟩ := member
      exact ⟨_,rfl,.missing there⟩
    · intro described
      obtain ⟨w,rfl,wrong⟩ := described
      cases wrong with
      | missing absent => exact ⟨rfl,rfl⟩
      | listEmpty found | wrongType found => simp [there] at found
      | item node wrong =>
        cases node with
        | field found shape => simp [there] at found
        | element found =>
          obtain ⟨items,list,_⟩ := (reach_item kind _ record _).mp found
          simp [there] at list

theorem sites_noCondition (title : String) : (code,place) ∈ sites (noCondition record title) ↔
    place = some conditionWalk.text ∧ code = "no_condition" ∧ conditionWalk.reach record = none := by
  have text : conditionWalk.text = "condition" := by simp [conditionWalk,Walk.text,Walk.element,Walk.ending]
  have reach : conditionWalk.reach record = record.field? "condition" := rfl
  unfold noCondition
  rw [text,reach]
  cases there : record.field? "condition" with
  | none => simp [and_comm]
  | some value => simp

-- The checks go through a record in another order; this one is that of the
-- parts the findings are about.
theorem findings_perm (title : String) : (findings record title).Perm
    ((missing .trigger record title ++ partFindings .trigger record) ++
      (missing .action record title ++ partFindings .action record) ++ noCondition record title) := by
  rw [List.perm_iff_count]
  intro d
  simp only [findings,List.count_append]
  omega

theorem sites_findings (title : String) : (code,place) ∈ sites (findings record title) ↔
    ∃ w, place = some w.text ∧ Finding record code w := by
  have perm := sites_perm _ _ (findings_perm record title)
  rw [perm.mem_iff,sites_append,sites_append,List.mem_append,List.mem_append,sites_part,sites_part,sites_noCondition]
  constructor
  · intro member
    rcases member with (⟨w,rfl,wrong⟩ | ⟨w,rfl,wrong⟩) | ⟨rfl,rfl,absent⟩
    · exact ⟨w,rfl,.field .trigger wrong⟩
    · exact ⟨w,rfl,.field .action wrong⟩
    · exact ⟨conditionWalk,rfl,.noCondition absent⟩
  · intro described
    obtain ⟨w,rfl,wrong⟩ := described
    cases wrong with
    | field kind wrong =>
      cases kind with
      | trigger => exact .inl (.inl ⟨w,rfl,wrong⟩)
      | action => exact .inl (.inr ⟨w,rfl,wrong⟩)
    | noCondition absent => exact .inr ⟨rfl,rfl,absent⟩

theorem nodup_sites_nil : (sites []).Nodup := List.nodup_nil

theorem nodup_sites_single (d : Diagnostic) : (sites [d]).Nodup := by simp [sites]

theorem nodup_sites_append (front rest : List Diagnostic) (inFront : (sites front).Nodup) (inRest : (sites rest).Nodup)
    (apart : ∀ code place, (code,place) ∈ sites front → (code,place) ∉ sites rest) : (sites (front ++ rest)).Nodup := by
  rw [sites_append,List.nodup_append]
  refine ⟨inFront,inRest,?_⟩
  intro site old other new same
  subst same
  exact apart site.1 site.2 old new

theorem nodup_itemFindings : (sites (itemFindings kind item index path)).Nodup := by
  unfold itemFindings
  split
  · rename_i entries
    have keys : (sites (keyFindings kind entries index path)).Nodup := by
      unfold keyFindings
      split
      · exact nodup_sites_nil
      · cases kind with
        | trigger => exact nodup_sites_single _
        | action => exact nodup_sites_single _
    have naming : (sites (namingFindings kind entries index path)).Nodup := by
      unfold namingFindings
      split
      · exact nodup_sites_nil
      · exact nodup_sites_nil
      · exact nodup_sites_single _
    have data : (sites (dataFindings kind entries index path)).Nodup := by
      unfold dataFindings
      split
      all_goals first | exact nodup_sites_nil | exact nodup_sites_single _
    refine nodup_sites_append _ _ (nodup_sites_append _ _ keys naming ?_) data ?_
    · intro code place old new
      have first := ((sites_keyFindings kind entries index path code place).mp old).1
      have second := ((sites_namingFindings kind entries index path code place).mp new).1
      cases kind <;> simp [first,ItemKind.keyless,ItemKind.naming] at second
    · intro code place old new
      have last := ((sites_dataFindings kind entries index path code place).mp new).1
      rw [sites_append,List.mem_append] at old
      rcases old with old | old
      · have first := ((sites_keyFindings kind entries index path code place).mp old).1
        cases kind <;> simp [first,ItemKind.keyless] at last
      · have second := ((sites_namingFindings kind entries index path code place).mp old).1
        cases kind <;> simp [second,ItemKind.naming] at last
  · exact nodup_sites_single _

theorem nodup_itemsFindings (items : List Tree) : (sites (itemsFindings kind index items)).Nodup := by
  induction items generalizing index with
  | nil => exact nodup_sites_nil
  | cons item rest ih =>
    refine nodup_sites_append _ _ (nodup_itemFindings _ _ _ _) (ih (index + 1)) ?_
    intro code place old new
    obtain ⟨key,rfl,_⟩ := (sites_itemFindings kind item index _ code place).mp old
    obtain ⟨i,_,other,_,same,_⟩ := (sites_itemsFindings kind (index + 1) code _ rest).mp new
    rw [←itemWalk_text,Option.some.injEq] at same
    have number := congrArg Walk.index (Walk.text_injective _ _ same)
    simp only [itemWalk,Walk.keyed,Option.some.injEq] at number
    omega

theorem nodup_part (title : String) : (sites (missing kind record title ++ partFindings kind record)).Nodup := by
  unfold missing partFindings
  cases there : record.field? kind.word with
  | none => exact nodup_sites_single _
  | some value =>
    change (sites (fieldFindings kind value)).Nodup
    unfold fieldFindings
    split
    · exact nodup_sites_single _
    · exact nodup_itemsFindings _ _ _
    · exact nodup_itemFindings _ _ _ _
    · exact nodup_itemFindings _ _ _ _
    · exact nodup_sites_single _

theorem FieldFinding.name {w : Walk} (wrong : FieldFinding record kind code w) : w.name = kind.word := by
  cases wrong with
  | missing | listEmpty | wrongType => rfl
  | item node => cases node <;> rfl

theorem nodup_findings (title : String) : (sites (findings record title)).Nodup := by
  refine (sites_perm _ _ (findings_perm record title)).nodup_iff.mpr ?_
  have condition : (sites (noCondition record title)).Nodup := by
    unfold noCondition
    split
    · exact nodup_sites_nil
    · exact nodup_sites_single _
  refine nodup_sites_append _ _ (nodup_sites_append _ _ (nodup_part _ _ _) (nodup_part _ _ _) ?_) condition ?_
  · intro code place old new
    obtain ⟨w,rfl,wrong⟩ := (sites_part .trigger record code place title).mp old
    obtain ⟨other,same,wrong'⟩ := (sites_part .action record code _ title).mp new
    cases Walk.text_injective _ _ (Option.some.inj same)
    exact absurd (wrong.name.symm.trans wrong'.name) (by decide)
  · intro code place old new
    obtain ⟨rfl,rfl,_⟩ := (sites_noCondition record code place title).mp new
    rw [sites_append,List.mem_append,sites_part,sites_part] at old
    rcases old with ⟨w,same,wrong⟩ | ⟨w,same,wrong⟩
    · cases Walk.text_injective _ _ (Option.some.inj same)
      exact absurd wrong.name (by decide)
    · cases Walk.text_injective _ _ (Option.some.inj same)
      exact absurd wrong.name (by decide)

theorem sites_verdict (title : String) :
    (code,place) ∈ sites (verdict (Collector.empty.pushAll (findings record title)) title) ↔
      place = none ∧ code = "structure_ok" ∧ Accepted record := by
  rw [←quiet_findings record title]
  rcases verdict_pushAll title (graded_findings record title) with ⟨shown,quiet⟩ | ⟨shown,warned⟩
  · simp [shown,sites,structureOk,Diagnostic.new,quiet,and_comm]
  · simp [shown,sites,warned]

theorem findings_at_walks :
    (∀ code w, (code,some w.text) ∈ sites (validate record index).diagnostics ↔ Finding record code w) ∧
    (∀ code place, (code,place) ∈ sites (validate record index).diagnostics ↔
      (∃ w, place = some w.text ∧ Finding record code w) ∨ place = none ∧ code = "structure_ok" ∧ Accepted record) ∧
    (sites (validate record index).diagnostics).Nodup := by
  have perm := sites_perm _ _ (validate_diagnostics record index ▸ Collector.ordered_perm _)
  have all : ∀ code place, (code,place) ∈ sites (validate record index).diagnostics ↔
      (∃ w, place = some w.text ∧ Finding record code w) ∨
        place = none ∧ code = "structure_ok" ∧ Accepted record := by
    intro code place
    rw [perm.mem_iff,sites_append,List.mem_append,sites_findings,sites_verdict]
  refine ⟨?_,all,perm.nodup_iff.mpr ?_⟩
  · intro code w
    rw [all]
    constructor
    · intro member
      rcases member with ⟨other,same,wrong⟩ | ⟨none,_⟩
      · cases Walk.text_injective _ _ (Option.some.inj same)
        exact wrong
      · cases none
    · intro wrong
      exact .inl ⟨w,rfl,wrong⟩
  · refine nodup_sites_append _ _ (nodup_findings _ _) ?_ ?_
    · unfold verdict
      split
      · exact nodup_sites_single _
      · exact nodup_sites_nil
    · intro code place old new
      obtain ⟨w,rfl,_⟩ := (sites_findings record code place _).mp old
      obtain ⟨none,_⟩ := (sites_verdict record code _ _).mp new
      cases none

end AutomationLint.Record
