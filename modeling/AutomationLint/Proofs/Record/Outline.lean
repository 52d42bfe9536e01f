import AutomationLint.Proofs.Record.Findings
import AutomationLint.Tree
import Mathlib.Data.List.Forall2

namespace AutomationLint.Record
open AutomationLint.Tree

-- What a check can tell of the value under a key: there is none, or it is as
-- it should be, or it is not. Records that are alike in this have the same
-- report.
inductive Seen where
  | absent | proper | other
  deriving DecidableEq

def seen (proper : Tree → Bool) : Option Tree → Seen
  | none => .absent
  | some value => if proper value then .proper else .other

def isObject : Tree → Bool
  | .map _ | .null => true
  | _ => false

inductive ItemsAlike : ItemKind → Tree → Tree → Prop where
  | other (first : a.shape ≠ .mapping) (second : b.shape ≠ .mapping) : ItemsAlike kind a b
  | trigger (keys : hasAnyKey entries triggerKeys = hasAnyKey others triggerKeys)
      (platform : seen isString (entries.lookup "platform") = seen isString (others.lookup "platform")) :
      ItemsAlike .trigger (.map entries) (.map others)
  | action (keys : hasAnyKey entries actionKeys = hasAnyKey others actionKeys)
      (service : seen isString (entries.lookup "service") = seen isString (others.lookup "service"))
      (data : seen isObject (entries.lookup "data") = seen isObject (others.lookup "data")) :
      ItemsAlike .action (.map entries) (.map others)

def PlainScalar (value : Tree) : Prop := value.shape = .bool ∨ value.shape = .number ∨ value.shape = .string

inductive FieldsAlike (kind : ItemKind) : Option Tree → Option Tree → Prop where
  | absent : FieldsAlike kind none none
  | list (each : List.Forall₂ (ItemsAlike kind) items others) : FieldsAlike kind (some (.seq items)) (some (.seq others))
  | single (item : ItemsAlike kind (.map entries) (.map others)) :
      FieldsAlike kind (some (.map entries)) (some (.map others))
  | null : FieldsAlike kind (some .null) (some .null)
  | scalar (first : PlainScalar a) (second : PlainScalar b) : FieldsAlike kind (some a) (some b)

structure RecordsAlike (index : Nat) (a b : Tree) : Prop where
  labels : label a index = label b index
  triggers : FieldsAlike .trigger (a.field? "trigger") (b.field? "trigger")
  actions : FieldsAlike .action (a.field? "action") (b.field? "action")
  conditions : (a.field? "condition").isSome = (b.field? "condition").isSome

def picked (names : List String) (value : String → Tree → Tree) (entries : Entries) : Entries :=
  names.filterMap fun name => (entries.lookup name).map fun t => (name,value name t)

def bare : Tree → Tree
  | .map _ => .map []
  | .seq _ => .seq []
  | .str _ => .str ""
  | .bool _ | .int _ | .float _ => .bool true
  | .null => .null

def outlineItem (kind : ItemKind) : Tree → Tree
  | .map entries => .map (picked (kind.keys ++ ["data"]) (fun _ => bare) entries)
  | _ => .null

def outlineField (kind : ItemKind) : Tree → Tree
  | .seq items => .seq (items.map (outlineItem kind))
  | .map entries => outlineItem kind (.map entries)
  | value => bare value

def outlineValue (name : String) (value : Tree) : Tree :=
  if name = "trigger" then outlineField .trigger value
  else if name = "action" then outlineField .action value
  else if name = "condition" then .null
  else value

-- A record cut down to what the checks can tell. What has no fields is like a
-- mapping without entries.
def outline : Tree → Tree
  | .map entries => .map (picked ["alias","id","trigger","action","condition"] outlineValue entries)
  | _ => .map []

variable {kind : ItemKind} {entries others : Entries} {a b : Tree} (index : Nat) (path title : String)

theorem keyFindings_alike (keys : hasAnyKey entries kind.keys = hasAnyKey others kind.keys) :
    keyFindings kind entries index path = keyFindings kind others index path := by
  rw [keyFindings,keyFindings,keys]

theorem namingFindings_seen : namingFindings kind entries index path =
    if seen isString (entries.lookup kind.naming) = .other then
      [finding .warning (kind.naming ++ "_not_string") (path ++ "." ++ kind.naming)
        (itemName kind index ++ ": '" ++ kind.naming ++ "' should be a string")]
    else [] := by
  unfold namingFindings
  cases entries.lookup kind.naming with
  | none => rfl
  | some value => cases value <;> rfl

theorem dataFindings_seen : dataFindings .action entries index path =
    if seen isObject (entries.lookup "data") = .other then
      [finding .info "data_not_object" (path ++ ".data") (itemName .action index ++ ": 'data' should be an object")]
    else [] := by
  unfold dataFindings
  cases entries.lookup "data" with
  | none => rfl
  | some value => cases value <;> rfl

theorem itemFindings_other (other : a.shape ≠ .mapping) : itemFindings kind a index path =
    [finding .warning (kind.word ++ "_not_object") path (itemName kind index ++ " is not an object")] := by
  cases a with
  | map => exact absurd rfl other
  | _ => rfl

theorem itemFindings_alike (alike : ItemsAlike kind a b) :
    itemFindings kind a index path = itemFindings kind b index path := by
  cases alike with
  | other first second => rw [itemFindings_other index path first,itemFindings_other index path second]
  | @trigger entries others keys platform =>
    have known : keyFindings .trigger entries index path = keyFindings .trigger others index path :=
      keyFindings_alike index path keys
    have named : namingFindings .trigger entries index path = namingFindings .trigger others index path := by
      rw [namingFindings_seen,namingFindings_seen,ItemKind.naming,platform]
    rw [itemFindings,itemFindings,known,named]
    rfl
  | @action entries others keys service data =>
    have known : keyFindings .action entries index path = keyFindings .action others index path :=
      keyFindings_alike index path keys
    have named : namingFindings .action entries index path = namingFindings .action others index path := by
      rw [namingFindings_seen,namingFindings_seen,ItemKind.naming,service]
    have given : dataFindings .action entries index path = dataFindings .action others index path := by
      rw [dataFindings_seen,dataFindings_seen,data]
    rw [itemFindings,itemFindings,known,named,given]

-- Both lists are gone through together; items at the same place have the same
-- number.
theorem itemsFindings_alike {items others : List Tree} (each : List.Forall₂ (ItemsAlike kind) items others) :
    itemsFindings kind index items = itemsFindings kind index others := by
  induction each generalizing index with
  | nil => rfl
  | cons alike _ ih => rw [itemsFindings,itemsFindings,itemFindings_alike _ _ alike,ih]

theorem fieldFindings_alike (alike : FieldsAlike kind (some a) (some b)) : fieldFindings kind a = fieldFindings kind b := by
  cases alike with
  | list each =>
    cases each with
    | nil => rfl
    | cons alike rest => exact itemsFindings_alike 0 (.cons alike rest)
  | single item => exact itemFindings_alike 0 _ item
  | null => rfl
  | scalar first second => rw [fieldFindings_scalar kind a first,fieldFindings_scalar kind b second]

theorem partFindings_alike (alike : FieldsAlike kind (a.field? kind.word) (b.field? kind.word)) :
    missing kind a title = missing kind b title ∧ partFindings kind a = partFindings kind b := by
  unfold missing partFindings
  generalize a.field? kind.word = one at alike
  generalize b.field? kind.word = other at alike
  cases one with
  | none => cases alike; exact ⟨rfl,rfl⟩
  | some one =>
    cases other with
    | none => cases alike
    | some other => exact ⟨rfl,fieldFindings_alike alike⟩

theorem noCondition_alike (conditions : (a.field? "condition").isSome = (b.field? "condition").isSome) :
    noCondition a title = noCondition b title := by
  unfold noCondition
  generalize a.field? "condition" = one at conditions
  generalize b.field? "condition" = other at conditions
  cases one with
  | none =>
    cases other with
    | none => rfl
    | some other => cases conditions
  | some one =>
    cases other with
    | none => cases conditions
    | some other => rfl

theorem findings_alike (alike : RecordsAlike index a b) : findings a title = findings b title := by
  obtain ⟨noTrigger,inTrigger⟩ := partFindings_alike title alike.triggers
  obtain ⟨noAction,inAction⟩ := partFindings_alike title alike.actions
  rw [findings,findings,noTrigger,noAction,noCondition_alike title alike.conditions,inTrigger,inAction]

theorem validate_alike (alike : RecordsAlike index a b) : validate a index = validate b index := by
  rw [validate,validate,alike.labels,findings_alike index _ alike]

theorem picked_absent (first : String) (names : List String) (value : String → Tree → Tree)
    (absent : entries.lookup first = none) : picked (first :: names) value entries = picked names value entries := by
  simp [picked,absent]

theorem picked_present (first : String) (names : List String) (value : String → Tree → Tree) {t : Tree}
    (there : entries.lookup first = some t) :
    picked (first :: names) value entries = (first,value first t) :: picked names value entries := by
  simp [picked,there]

theorem lookup_picked (names : List String) (value : String → Tree → Tree) (name : String) :
    (picked names value entries).lookup name =
      if name ∈ names then (entries.lookup name).map (value name) else none := by
  induction names with
  | nil => rfl
  | cons first names ih =>
    by_cases same : name = first
    · subst same
      cases there : entries.lookup name with
      | none => simp [picked_absent name names value there,ih,there]
      | some t => simp [picked_present name names value there]
    · cases there : entries.lookup first with
      | none => simp [picked_absent first names value there,ih,same]
      | some t =>
        have other : (name == first) = false := by simpa using same
        simp [picked_present first names value there,List.lookup_cons,other,ih,same]

theorem hasAnyKey_picked (names keys : List String) (value : String → Tree → Tree)
    (subset : ∀ key ∈ keys, key ∈ names) : hasAnyKey (picked names value entries) keys = hasAnyKey entries keys := by
  rw [Bool.eq_iff_iff]
  simp only [hasAnyKey,List.any_eq_true]
  apply exists_congr
  intro key
  apply and_congr_right
  intro member
  rw [lookup_picked,if_pos (subset key member),Option.isSome_map]

@[simp] theorem isString_bare (value : Tree) : isString (bare value) = isString value := by
  cases value <;> rfl

@[simp] theorem isObject_bare (value : Tree) : isObject (bare value) = isObject value := by
  cases value <;> rfl

theorem seen_picked (names : List String) (proper : Tree → Bool) (same : ∀ value, proper (bare value) = proper value)
    (name : String) (member : name ∈ names) :
    seen proper ((picked names (fun _ => bare) entries).lookup name) = seen proper (entries.lookup name) := by
  rw [lookup_picked,if_pos member]
  cases entries.lookup name with
  | none => rfl
  | some value => simp [seen,same]

theorem outlineItem_alike (item : Tree) : ItemsAlike kind (outlineItem kind item) item := by
  cases item with
  | map entries =>
    have keys : hasAnyKey (picked (kind.keys ++ ["data"]) (fun _ => bare) entries) kind.keys =
        hasAnyKey entries kind.keys := hasAnyKey_picked _ _ _ fun key member => List.mem_append_left _ member
    cases kind with
    | trigger => exact .trigger keys (seen_picked _ _ isString_bare _ (by decide))
    | action =>
      exact .action keys (seen_picked _ _ isString_bare _ (by decide)) (seen_picked _ _ isObject_bare _ (by decide))
  | _ => exact .other nofun nofun

theorem outlineItems_alike (items : List Tree) : List.Forall₂ (ItemsAlike kind) (items.map (outlineItem kind)) items := by
  induction items with
  | nil => exact .nil
  | cons item items ih => exact .cons (outlineItem_alike item) ih

theorem outlineField_alike (value : Option Tree) : FieldsAlike kind (value.map (outlineField kind)) value := by
  cases value with
  | none => exact .absent
  | some value =>
    cases value with
    | null => exact .null
    | bool => exact .scalar (.inl rfl) (.inl rfl)
    | int | float => exact .scalar (.inl rfl) (.inr (.inl rfl))
    | str => exact .scalar (.inr (.inr rfl)) (.inr (.inr rfl))
    | seq items => exact .list (outlineItems_alike items)
    | map entries => exact .single (outlineItem_alike (.map entries))

theorem field?_outline (record : Tree) (name : String)
    (member : name ∈ ["alias","id","trigger","action","condition"]) :
    (outline record).field? name = (record.field? name).map (outlineValue name) := by
  cases record with
  | map entries =>
    rw [outline,field?,lookup_picked,if_pos member]
    rfl
  | _ => rfl

theorem label_congr (same : ∀ name ∈ ["alias","id"], a.field? name = b.field? name) : label a index = label b index := by
  rw [label,label,List.filterMap_congr same]

@[simp] theorem label_outline (record : Tree) : label (outline record) index = label record index := by
  refine label_congr index ?_
  intro name member
  have kept : outlineValue name = id := by
    rcases List.mem_cons.mp member with rfl | last
    · rfl
    · cases List.mem_singleton.mp last
      rfl
  rw [field?_outline record name (List.mem_append_left ["trigger","action","condition"] member),kept,Option.map_id]
  rfl

theorem outline_alike (record : Tree) : RecordsAlike index (outline record) record := by
  refine ⟨label_outline index record,?_,?_,?_⟩
  · rw [field?_outline record "trigger" (by decide)]
    exact outlineField_alike (record.field? "trigger")
  · rw [field?_outline record "action" (by decide)]
    exact outlineField_alike (record.field? "action")
  · rw [field?_outline record "condition" (by decide),Option.isSome_map]

theorem outline_of_lookup
    (same : ∀ name ∈ ["alias","id","trigger","action","condition"], entries.lookup name = others.lookup name) :
    outline (.map entries) = outline (.map others) := by
  rw [outline,outline,picked,picked]
  apply congrArg Tree.map
  apply List.filterMap_congr
  intro name member
  rw [same name member]

theorem report_of_what_is_seen :
    (∀ index a b, RecordsAlike index a b → validate a index = validate b index) ∧
    (∀ record index, validate (outline record) index = validate record index) ∧
    ∀ index entries others,
      (∀ name ∈ ["alias","id","trigger","action","condition"], entries.lookup name = others.lookup name) →
      validate (.map entries) index = validate (.map others) index := by
  have outlined : ∀ record index, validate (outline record) index = validate record index := by
    intro record index
    exact validate_alike index (outline_alike index record)
  refine ⟨?_,outlined,?_⟩
  · intro index a b alike
    exact validate_alike index alike
  · intro index entries others same
    rw [←outlined (.map entries),←outlined (.map others),outline_of_lookup same]

-- Other keys, another order, another platform, and another item that is no
-- mapping.
theorem report_of_what_is_seen_two_records :
    let entries := [("id",Tree.int 7),("trigger",.seq [.map [("platform",.str "sun"),("offset",.int 3)],.null]),
      ("action",.str "x")]
    let others := [("mode",Tree.str "single"),("action",.bool true),
      ("trigger",.seq [.map [("at",.seq []),("platform",.str "time")],.seq [.null]]),("id",.int 7)]
    RecordsAlike 3 (.map entries) (.map others) ∧ validate (.map entries) 3 = validate (.map others) 3 ∧
      validate (.map (entries.reverse ++ [("note",.null)])) 3 = validate (.map entries) 3 ∧
      (validate (.map others) 3).diagnostics.map (·.code) =
        ["trigger_not_object","action_wrong_type","no_condition"] := by
  intro entries others
  have first : ItemsAlike .trigger (.map [("platform",.str "sun"),("offset",.int 3)])
      (.map [("at",.seq []),("platform",.str "time")]) := .trigger rfl rfl
  have alike : RecordsAlike 3 (.map entries) (.map others) :=
    ⟨by decide +kernel,.list (.cons first (.cons (.other nofun nofun) .nil)),.scalar (.inr (.inr rfl)) (.inl rfl),rfl⟩
  obtain ⟨matched,_,named⟩ := report_of_what_is_seen
  exact ⟨alike,matched 3 _ _ alike,named 3 _ _ (by decide +kernel),by decide +kernel⟩

end AutomationLint.Record
