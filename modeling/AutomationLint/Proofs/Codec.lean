import AutomationLint.Proofs.Tree.Restated
import Mathlib.Data.List.Forall2

namespace AutomationLint
open AutomationLint.Tree

-- How one kind of value is kept in trees. All that is read as it is what is
-- written for it, said in some way: in another order, with fields that are not
-- known, with null for nothing, or as the bare list of the values.
structure ReadBack (encode : α → Tree) (decode : Tree → Option α) (alike : Tree → Tree → Prop) : Prop where
  written : ∀ a, decode (encode a) = some a
  again : ∀ t a, decode t = some a → decode (encode a) = some a
  same : ∀ t u, alike t u → decode t = decode u
  exactly : ∀ t a, WellNamed t → (decode t = some a ↔ alike (encode a) t)

section

variable {encode : α → Tree} {decode : Tree → Option α} {fields optional : List String}
  {inner : String → Tree → Tree → Prop} {name : String} {before after found : Option Tree} {t u : Tree}

theorem ReadBack.of (written : ∀ a, decode (encode a) = some a)
    (step : ∀ t u, Restated fields optional inner t u → decode t = decode u)
    (canonical : ∀ t a, WellNamed t → decode t = some a → Alike fields optional inner (encode a) t) :
    ReadBack encode decode (Alike fields optional inner) := by
  have same : ∀ t u, Alike fields optional inner t u → decode t = decode u := fun t u alike =>
    congrArg (Quot.lift decode step) (Quot.eqvGen_sound alike)
  refine ⟨written,fun t a _ => written a,same,fun t a well => ⟨canonical t a well,?_⟩⟩
  intro alike
  rw [←same _ _ alike,written]

theorem Tree.Answers.needed (answers : Answers optional inner name before after) (needed : name ∉ optional)
    (decode : Tree → Option α) (within : ∀ a b, inner name a b → decode a = decode b) :
    before.bind decode = after.bind decode := by
  cases answers with
  | same => rfl
  | null may => exact absurd may needed
  | within alike => exact within _ _ alike

theorem Tree.Answers.unneeded (answers : Answers optional inner name before after) (decode : Tree → Option α)
    (only : ∀ a b, ¬inner name a b) : optional? decode before = optional? decode after := by
  cases answers with
  | same | null => rfl
  | within alike => exact absurd alike (only _ _)

theorem fields?_ne_none {build : List (Option Tree) → Option α} {a : α} (read : (t.fields? fields).bind build = some a) :
    t.fields? fields ≠ none := by
  intro none
  rw [none] at read
  cases read

@[simp] theorem string?_eq_some {s : String} : t.string? = some s ↔ t = .str s := by
  cases t <;> simp [string?]

@[simp] theorem natural?_eq_some {n : Nat} : t.natural? = some n ↔ t = .int n := by
  cases t with
  | int i =>
    simp only [natural?,Option.ite_none_right_eq_some,Option.some.injEq,int.injEq]
    omega
  | _ => simp [natural?]

@[simp] theorem items?_eq_some {items : List Tree} : t.items? = some items ↔ t = .seq items := by
  cases t <;> simp [items?]

-- A value that may be missing is written where it is there, and not as null.
theorem optional_alike (name : String) (may : name ∈ optional) (back : ∀ t a, decode t = some a → t = encode a) {value : Option α}
    (read : optional? decode found = some value) (front rest : Entries) (fresh : (front ++ rest).lookup name = none) :
    Alike fields optional inner (.map (front ++ ((value.map fun a => (name,encode a)).toList ++ rest)))
      (.map (front ++ ((found.map (name,·)).toList ++ rest))) := by
  unfold optional? at read
  split at read
  · cases read
    exact .refl _
  · cases read
    exact .rel _ _ (.null may fresh)
  · obtain ⟨a,there,rfl⟩ := Option.map_eq_some_iff.mp read
    rw [back _ _ there]
    exact .refl _

theorem mapM_eq_some (decode : α → Option β) (items : List α) (list : List β) :
    items.mapM decode = some list ↔ List.Forall₂ (fun item b => decode item = some b) items list := by
  induction items generalizing list with
  | nil => simp [eq_comm]
  | cons item items ih =>
    rw [List.mapM_cons,List.forall₂_cons_left_iff]
    simp only [Option.bind_eq_bind,Option.bind_eq_some_iff,Option.pure_def,Option.some.injEq,ih]
    constructor
    · rintro ⟨b,first,list,later,rfl⟩
      exact ⟨b,list,first,later,rfl⟩
    · rintro ⟨b,list,first,later,rfl⟩
      exact ⟨b,first,list,later,rfl⟩

theorem mapM_congr {decode : Tree → Option β} {items others : List Tree}
    (same : List.Forall₂ (fun t u => decode t = decode u) items others) : items.mapM decode = others.mapM decode := by
  induction same with
  | nil => rfl
  | cons first _ ih => rw [List.mapM_cons,List.mapM_cons,first,ih]

theorem mapM_written (encode : α → Tree) (decode : Tree → Option β) (value : α → β)
    (back : ∀ a, decode (encode a) = some (value a)) (list : List α) :
    (list.map encode).mapM decode = some (list.map value) := by
  rw [mapM_eq_some,List.forall₂_map_left_iff,List.forall₂_map_right_iff]
  exact List.forall₂_same.mpr fun a _ => back a

end

namespace Severity

@[simp] theorem ofWord?_word (severity : Severity) : ofWord? severity.word = some severity := by
  cases severity <;> rfl

theorem ofWord?_eq_some {word : String} {severity : Severity} : ofWord? word = some severity ↔ word = severity.word := by
  constructor
  · intro graded
    unfold ofWord? at graded
    split at graded <;> cases graded <;> rfl
  · rintro rfl
    exact ofWord?_word severity

end Severity

variable {t u : Tree}

namespace Diagnostic

-- A severity is also written as a mapping with nothing under its word.
def Inner (name : String) (a b : Tree) : Prop := name = "severity" ∧ ∃ word, a = .str word ∧ b = .map [(word,.null)]

abbrev Alike : Tree → Tree → Prop := Tree.Alike names ["path"] Inner

@[simp] theorem ofTree?_toTree (d : Diagnostic) : ofTree? d.toTree = some d := by
  obtain ⟨severity,code,path,message⟩ := d
  cases path <;> simp [toTree,ofTree?,ofFields?,names,fields?,List.lookup_cons,Severity.ofTree?,string?,optional?]

theorem ofTree?_eq_some {found : String → Option Tree} (there : t.fields? names = some (names.map found)) (d : Diagnostic) :
    ofTree? t = some d ↔ (found "severity").bind Severity.ofTree? = some d.severity ∧
      (found "code").bind string? = some d.code ∧ optional? string? (found "path") = some d.path ∧
      (found "message").bind string? = some d.message := by
  obtain ⟨severity,code,path,message⟩ := d
  rw [ofTree?,there,Option.bind_some]
  simp only [names,List.map,ofFields?]
  -- Only the path may be missing.
  cases found "severity" <;> cases found "code" <;> cases found "message" <;> simp [Option.bind_eq_some_iff]

theorem ofTree?_restated (step : Restated names ["path"] Inner t u) : ofTree? t = ofTree? u := by
  obtain ⟨before,after,first,second,answers⟩ := fields?_restated (by decide) step
  have severity := (answers "severity" (by decide)).needed (by decide) Severity.ofTree? fun _ _ inside => by
    obtain ⟨_,word,rfl,rfl⟩ := inside
    rfl
  have code := (answers "code" (by decide)).needed (by decide) string? fun _ _ inside => absurd inside.1 (by decide)
  have path := (answers "path" (by decide)).unneeded string? fun _ _ inside => absurd inside.1 (by decide)
  have message := (answers "message" (by decide)).needed (by decide) string? fun _ _ inside => absurd inside.1 (by decide)
  ext d
  rw [ofTree?_eq_some first,ofTree?_eq_some second,severity,code,path,message]

theorem severity_alike {severity : Severity} {a : Tree} (read : Severity.ofTree? a = some severity) (rest : Entries) :
    Alike (.map (("severity",.str severity.word) :: rest)) (.map (("severity",a) :: rest)) := by
  unfold Severity.ofTree? at read
  split at read
  · rw [Severity.ofWord?_eq_some.mp read]
    exact .refl _
  · rw [Severity.ofWord?_eq_some.mp read]
    exact within_alike [] rest ⟨rfl,_,rfl,rfl⟩
  · cases read

theorem toTree_alike (well : WellNamed t) (d : Diagnostic) (read : ofTree? t = some d) : Alike d.toTree t := by
  obtain ⟨found,all,alike,_⟩ := asked_alike ["path"] Inner (by decide) well (fields?_ne_none read)
  obtain ⟨graded,coded,placed,worded⟩ := (ofTree?_eq_some all d).mp read
  obtain ⟨severity,first,graded⟩ := Option.bind_eq_some_iff.mp graded
  obtain ⟨code,second,coded⟩ := Option.bind_eq_some_iff.mp coded
  obtain ⟨message,fourth,worded⟩ := Option.bind_eq_some_iff.mp worded
  rw [string?_eq_some.mp coded] at second
  rw [string?_eq_some.mp worded] at fourth
  have whole : asked names found = ("severity",severity) :: ("code",.str d.code) ::
      (((found "path").map ("path",·)).toList ++ [("message",.str d.message)]) := by
    simp only [names,asked_cons,first,second,fourth]
    rfl
  rw [whole] at alike
  have path : Alike (.map _) (.map _) := optional_alike "path" (by decide) (fun _ _ => string?_eq_some.mp) placed
    [("severity",.str d.severity.word),("code",.str d.code)] [("message",.str d.message)] rfl
  exact .trans _ _ _ path (.trans _ _ _ (severity_alike graded _) alike)

theorem readBack : ReadBack toTree ofTree? Alike :=
  .of ofTree?_toTree (fun _ _ => ofTree?_restated) fun _ d well => toTree_alike well d

end Diagnostic

namespace Report

-- Each diagnostic may be said in another way. None may be left out, put in or
-- moved.
def Inner (name : String) (a b : Tree) : Prop :=
  name = "diagnostics" ∧ ∃ items others, a = .seq items ∧ b = .seq others ∧ List.Forall₂ Diagnostic.Alike items others

abbrev Alike : Tree → Tree → Prop := Tree.Alike names [] Inner

def diagnostics? (t : Tree) : Option (List Diagnostic) := t.items?.bind fun items => items.mapM Diagnostic.ofTree?

theorem diagnostics?_eq_some {list : List Diagnostic} : diagnostics? t = some list ↔
    ∃ items, t = .seq items ∧ List.Forall₂ (fun item d => Diagnostic.ofTree? item = some d) items list := by
  simp only [diagnostics?,Option.bind_eq_some_iff,items?_eq_some,mapM_eq_some]

theorem diagnostics?_inner {name : String} {a b : Tree} (alike : Inner name a b) : diagnostics? a = diagnostics? b := by
  obtain ⟨_,items,others,rfl,rfl,each⟩ := alike
  exact mapM_congr (each.imp Diagnostic.readBack.same)

theorem diagnostics_alike {items : List Tree} {list : List Diagnostic}
    (read : List.Forall₂ (fun item d => Diagnostic.ofTree? item = some d) items list) (well : ∀ item ∈ items, WellNamed item) :
    List.Forall₂ Diagnostic.Alike (list.map Diagnostic.toTree) items := by
  induction read with
  | nil => exact .nil
  | cons first _ ih =>
    obtain ⟨one,later⟩ := List.forall_mem_cons.mp well
    exact .cons (Diagnostic.toTree_alike one _ first) (ih later)

theorem ofTree?_eq_some {found : String → Option Tree} (there : t.fields? names = some (names.map found)) (r : Report) :
    ofTree? t = some r ↔ (found "index").bind natural? = some r.index ∧ (found "label").bind string? = some r.label ∧
      (found "diagnostics").bind diagnostics? = some r.diagnostics := by
  obtain ⟨index,label,diagnostics⟩ := r
  rw [ofTree?,there,Option.bind_some]
  simp only [names,List.map,ofFields?]
  cases found "index" <;> cases found "label" <;> cases found "diagnostics" <;>
    simp [Option.bind_eq_some_iff,diagnostics?]

@[simp] theorem ofTree?_toTree (r : Report) : ofTree? r.toTree = some r := by
  have index : natural? (.int r.index) = some r.index := natural?_eq_some.mpr rfl
  have all : diagnostics? (.seq (r.diagnostics.map Diagnostic.toTree)) = some r.diagnostics :=
    (mapM_written Diagnostic.toTree Diagnostic.ofTree? id Diagnostic.ofTree?_toTree r.diagnostics).trans
      (congrArg some (List.map_id _))
  have there : r.toTree.fields? names = some (names.map r.toTree.field?) := rfl
  exact (ofTree?_eq_some there r).mpr ⟨index,rfl,all⟩

theorem ofTree?_restated (step : Restated names [] Inner t u) : ofTree? t = ofTree? u := by
  obtain ⟨before,after,first,second,answers⟩ := fields?_restated (by decide) step
  have index := (answers "index" (by decide)).needed nofun natural? fun _ _ inside => absurd inside.1 (by decide)
  have label := (answers "label" (by decide)).needed nofun string? fun _ _ inside => absurd inside.1 (by decide)
  have all := (answers "diagnostics" (by decide)).needed nofun diagnostics? fun _ _ => diagnostics?_inner
  ext r
  rw [ofTree?_eq_some first,ofTree?_eq_some second,index,label,all]

theorem toTree_alike (well : WellNamed t) (r : Report) (read : ofTree? t = some r) : Alike r.toTree t := by
  obtain ⟨found,all,alike,within⟩ := asked_alike [] Inner (by decide) well (fields?_ne_none read)
  obtain ⟨counted,named,listed⟩ := (ofTree?_eq_some all r).mp read
  obtain ⟨index,first,counted⟩ := Option.bind_eq_some_iff.mp counted
  obtain ⟨label,second,named⟩ := Option.bind_eq_some_iff.mp named
  obtain ⟨diagnostics,third,listed⟩ := Option.bind_eq_some_iff.mp listed
  obtain ⟨items,rfl,each⟩ := diagnostics?_eq_some.mp listed
  rw [natural?_eq_some.mp counted] at first
  rw [string?_eq_some.mp named] at second
  have whole : asked names found = [("index",.int r.index),("label",.str r.label),("diagnostics",.seq items)] := by
    simp only [names,asked_cons,first,second,third]
    rfl
  rw [whole] at alike
  have same := diagnostics_alike each (within _ _ third).items
  have step : Alike r.toTree (.map _) :=
    within_alike [("index",.int r.index),("label",.str r.label)] [] ⟨rfl,_,items,rfl,rfl,same⟩
  exact .trans _ _ _ step alike

theorem readBack : ReadBack toTree ofTree? Alike :=
  .of ofTree?_toTree (fun _ _ => ofTree?_restated) fun _ r well => toTree_alike well r

end Report

namespace ParseError

abbrev Alike : Tree → Tree → Prop := Tree.Alike names ["line","column"] fun _ _ _ => False

theorem ofTree?_eq_some {found : String → Option Tree} (there : t.fields? names = some (names.map found)) (e : ParseError) :
    ofTree? t = some e ↔ (found "message").bind string? = some e.message ∧
      optional? natural? (found "line") = some e.line ∧ optional? natural? (found "column") = some e.column := by
  obtain ⟨message,line,column⟩ := e
  rw [ofTree?,there,Option.bind_some]
  simp only [names,List.map,ofFields?]
  cases found "message" <;> simp [Option.bind_eq_some_iff]

@[simp] theorem ofTree?_toTree (e : ParseError) : ofTree? e.toTree = some e := by
  obtain ⟨message,line,column⟩ := e
  cases line <;> cases column <;> simp [toTree,ofTree?,ofFields?,names,fields?,List.lookup_cons,string?,natural?,optional?]

theorem ofTree?_restated (step : Restated names ["line","column"] (fun _ _ _ => False) t u) : ofTree? t = ofTree? u := by
  obtain ⟨before,after,first,second,answers⟩ := fields?_restated (by decide) step
  have message := (answers "message" (by decide)).needed (by decide) string? nofun
  have line := (answers "line" (by decide)).unneeded natural? nofun
  have column := (answers "column" (by decide)).unneeded natural? nofun
  ext e
  rw [ofTree?_eq_some first,ofTree?_eq_some second,message,line,column]

theorem toTree_alike (well : WellNamed t) (e : ParseError) (read : ofTree? t = some e) : Alike e.toTree t := by
  obtain ⟨found,all,alike,_⟩ := asked_alike ["line","column"] (fun _ _ _ => False) (by decide) well (fields?_ne_none read)
  obtain ⟨worded,lined,columned⟩ := (ofTree?_eq_some all e).mp read
  obtain ⟨message,first,worded⟩ := Option.bind_eq_some_iff.mp worded
  rw [string?_eq_some.mp worded] at first
  have whole : asked names found = ("message",.str e.message) :: (((found "line").map ("line",·)).toList ++
      (((found "column").map ("column",·)).toList ++ [])) := by
    simp only [names,asked_cons,first]
    rfl
  rw [whole] at alike
  have back : ∀ (t : Tree) (n : Nat), t.natural? = some n → t = .int n := fun _ _ => natural?_eq_some.mp
  have line : Alike (.map _) (.map _) := optional_alike "line" (by decide) back lined
    [("message",.str e.message)] (e.column.map fun n => ("column",.int n)).toList (by cases e.column <;> rfl)
  have column : Alike (.map _) (.map _) := optional_alike "column" (by decide) back columned
    (("message",.str e.message) :: ((found "line").map ("line",·)).toList) [] (by cases found "line" <;> rfl)
  simp only [List.append_nil] at column alike
  exact .trans _ _ _ line (.trans _ _ _ column alike)

theorem readBack : ReadBack toTree ofTree? Alike :=
  .of ofTree?_toTree (fun _ _ => ofTree?_restated) fun _ e well => toTree_alike well e

end ParseError

theorem serialized_forms_read_back : ReadBack Diagnostic.toTree Diagnostic.ofTree? Diagnostic.Alike ∧
    ReadBack Report.toTree Report.ofTree? Report.Alike ∧ ReadBack ParseError.toTree ParseError.ofTree? ParseError.Alike :=
  ⟨Diagnostic.readBack,Report.readBack,ParseError.readBack⟩

theorem serialized_forms_read_back_reordered : Report.Alike (Report.toTree ⟨3,"Lamp",[⟨.info,"delay",none,"late"⟩]⟩)
    (.map [("label",.str "Lamp"),("note",.null),("diagnostics",.seq [.map [("path",.null),("message",.str "late"),
      ("severity",.map [("info",.null)]),("code",.str "delay")]]),("index",.int 3)]) := by
  have leaf : ∀ t : Tree, t.shape ≠ .mapping ∧ t.shape ≠ .sequence → WellNamed t := fun _ => .leaf
  have severity : WellNamed (.map [("info",.null)]) := .map (by decide) (by simp [leaf,shape])
  have diagnostic : WellNamed (.map [("path",.null),("message",.str "late"),("severity",.map [("info",.null)]),
      ("code",.str "delay")]) := .map (by decide) (by simp [leaf,shape,severity])
  exact (serialized_forms_read_back.2.1.exactly _ _ (.map (by decide) (by simp [leaf,shape,WellNamed.seq,diagnostic]))).mp
    (by decide)

end AutomationLint
