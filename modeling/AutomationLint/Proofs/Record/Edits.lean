import AutomationLint.Proofs.Record.Outline

namespace AutomationLint.Record
open AutomationLint.Tree

def SameBut (kind : ItemKind) (a b : Tree) : Prop := ∀ name, name ≠ kind.word → a.field? name = b.field? name

def ItemKind.checked : ItemKind → List String
  | .trigger => ["platform"]
  | .action => ["service","data"]

def itemPlaces (kind : ItemKind) (i : Nat) : List String :=
  listPath kind i :: kind.checked.map fun key => listPath kind i ++ "." ++ key

def keptApart (kind : ItemKind) (i : Nat) (d : Diagnostic) : Bool :=
  !d.path.any (itemPlaces kind i).contains && d.code != "structure_ok"

-- What a report says apart from one list item. The verdict is on the whole
-- record and may change with the item, so it is left out too.
def apartFrom (kind : ItemKind) (i : Nat) (r : Report) : List Diagnostic :=
  r.diagnostics.filter (keptApart kind i)

variable {kind : ItemKind} {entries : Entries} {a b : Tree} (index : Nat) (title : String)

theorem lookup_put (name other : String) (value : Tree) : (put entries name value).lookup other =
    if other = name then some value else entries.lookup other := by
  induction entries with
  | nil =>
    by_cases same : other = name
    · simp [put,same]
    · simp [put,List.lookup_cons,same,beq_false_of_ne same]
  | cons entry entries ih =>
    obtain ⟨first,t⟩ := entry
    by_cases here : first = name
    · subst here
      by_cases same : other = first
      · simp [put,same]
      · simp [put,List.lookup_cons,same,beq_false_of_ne same]
    · by_cases same : other = first
      · subst same
        simp [put,here]
      · simp [put,here,List.lookup_cons,beq_false_of_ne same,ih]

@[simp] theorem field?_put (name : String) (value : Tree) : (Tree.map (put entries name value)).field? name = some value := by
  rw [field?,lookup_put,if_pos rfl]

theorem field?_put_other (name other : String) (value : Tree) (apart : other ≠ name) :
    (Tree.map (put entries name value)).field? other = (Tree.map entries).field? other := by
  rw [field?,field?,lookup_put,if_neg apart]

theorem put_sameBut (value : Tree) : SameBut kind (.map (put entries kind.word value)) (.map entries) :=
  fun name apart => field?_put_other kind.word name value apart

theorem SameBut.label (same : SameBut kind a b) : label a index = label b index := by
  refine label_congr index ?_
  intro name member
  refine same name ?_
  rintro rfl
  cases kind <;> simp [ItemKind.word] at member

theorem part_congr (kind : ItemKind) (same : a.field? kind.word = b.field? kind.word) :
    missing kind a title = missing kind b title ∧ partFindings kind a = partFindings kind b := by
  rw [missing,missing,partFindings,partFindings,same]
  exact ⟨rfl,rfl⟩

def Elsewhere (kind : ItemKind) (d : Diagnostic) : Prop := ∃ w : Walk, d.path = some w.text ∧ w.name ≠ kind.word

theorem other_elsewhere (kind other : ItemKind) (apart : other.word ≠ kind.word) (record : Tree) (d : Diagnostic)
    (member : d ∈ missing other record title ++ partFindings other record ++ noCondition record title) :
    Elsewhere kind d := by
  rcases List.mem_append.mp member with inField | atCondition
  · have site : (d.code,d.path) ∈ sites (missing other record title ++ partFindings other record) :=
      List.mem_map_of_mem inField
    obtain ⟨w,path,wrong⟩ := (sites_part other record d.code d.path title).mp site
    exact ⟨w,path,wrong.name ▸ apart⟩
  · have site : (d.code,d.path) ∈ sites (noCondition record title) := List.mem_map_of_mem atCondition
    refine ⟨conditionWalk,((sites_noCondition record d.code d.path title).mp site).1,?_⟩
    cases kind <;> decide

theorem findings_around (same : SameBut kind a b) {x y : Tree} (inA : a.field? kind.word = some x)
    (inB : b.field? kind.word = some y) :
    ∃ front back, (∀ d ∈ front ++ back, Elsewhere kind d) ∧
      findings a title = front ++ fieldFindings kind x ++ back ∧
      findings b title = front ++ fieldFindings kind y ++ back := by
  have noneA : missing kind a title = [] := by rw [missing,inA]
  have noneB : missing kind b title = [] := by rw [missing,inB]
  have partA : partFindings kind a = fieldFindings kind x := by rw [partFindings,inA]
  have partB : partFindings kind b = fieldFindings kind y := by rw [partFindings,inB]
  have condition : noCondition b title = noCondition a title := by
    rw [noCondition,noCondition,same "condition" (by cases kind <;> decide)]
  cases kind with
  | trigger =>
    obtain ⟨missed,found⟩ := part_congr title .action (same "action" (by decide))
    refine ⟨missing .action a title ++ noCondition a title,partFindings .action a,?_,?_,?_⟩
    · intro d member
      refine other_elsewhere title .trigger .action (by decide) a d ?_
      simp only [List.mem_append] at member ⊢
      exact or_right_comm.mp member
    · rw [findings,noneA,partA,List.nil_append]
    · rw [findings,noneB,partB,condition,missed,found,List.nil_append]
  | action =>
    obtain ⟨missed,found⟩ := part_congr title .trigger (same "trigger" (by decide))
    refine ⟨missing .trigger a title ++ noCondition a title ++ partFindings .trigger a,[],?_,?_,?_⟩
    · intro d member
      refine other_elsewhere title .action .trigger (by decide) a d ?_
      simp only [List.append_nil,List.mem_append] at member ⊢
      exact or_right_comm.mp member
    · rw [findings,noneA,partA,List.append_nil,List.append_nil]
    · rw [findings,noneB,partB,condition,missed,found,List.append_nil,List.append_nil]

theorem itemsFindings_append (front back : List Tree) : itemsFindings kind index (front ++ back) =
    itemsFindings kind index front ++ itemsFindings kind (index + front.length) back := by
  induction front generalizing index with
  | nil => rfl
  | cons item front ih =>
    rw [List.cons_append,itemsFindings,itemsFindings,ih,List.append_assoc,List.length_cons,Nat.add_right_comm,
      Nat.add_assoc]

theorem itemsFindings_set (items : List Tree) (i : Nat) (inside : i < items.length) (item : Tree) :
    itemsFindings kind 0 (items.set i item) = itemsFindings kind 0 (items.take i) ++
      itemFindings kind item i (listPath kind i) ++ itemsFindings kind (i + 1) (items.drop (i + 1)) := by
  have before : (items.take i).length = i := List.length_take_of_le (Nat.le_of_lt inside)
  rw [List.set_eq_take_append_cons_drop,if_pos inside,itemsFindings_append,itemsFindings,before,Nat.zero_add,
    List.append_assoc]

theorem ItemKind.word_injective {other : ItemKind} (same : other.word = kind.word) : other = kind := by
  revert same
  cases other <;> cases kind <;> decide

theorem mem_itemPlaces (i : Nat) (path : String) : path ∈ itemPlaces kind i ↔
    ∃ key : Option String, (∀ name, key = some name → name ∈ kind.checked) ∧
      path = ((itemWalk kind i).keyed key).text := by
  simp only [itemWalk_text]
  constructor
  · intro member
    rcases List.mem_cons.mp member with rfl | keyed
    · exact ⟨none,nofun,String.append_empty.symm⟩
    · obtain ⟨name,checked,rfl⟩ := List.mem_map.mp keyed
      exact ⟨some name,by rintro _ ⟨⟩; exact checked,String.append_assoc⟩
  · intro described
    obtain ⟨key,checked,rfl⟩ := described
    cases key with
    | none => exact List.mem_cons.mpr (.inl String.append_empty)
    | some name =>
      exact List.mem_cons_of_mem _ (List.mem_map.mpr ⟨name,checked name rfl,String.append_assoc⟩)

theorem itemFindings_places (item : Tree) (i : Nat) :
    ∀ d ∈ itemFindings kind item i (listPath kind i), ∃ path ∈ itemPlaces kind i, d.path = some path := by
  intro d member
  have site : (d.code,d.path) ∈ sites (itemFindings kind item i (listPath kind i)) := List.mem_map_of_mem member
  obtain ⟨key,path,wrong⟩ := (sites_itemFindings kind item i _ d.code d.path).mp site
  refine ⟨_,(mem_itemPlaces i _).mpr ⟨key,?_,rfl⟩,by rw [path,itemWalk_text]⟩
  rintro name rfl
  generalize d.code = code at wrong
  cases wrong with
  | platform | service | data => decide

theorem itemPlaces_apart (other : ItemKind) (i j : Nat) (apart : (other,j) ≠ (kind,i)) :
    (itemPlaces other j).Disjoint (itemPlaces kind i) := by
  intro path one two
  obtain ⟨key,_,rfl⟩ := (mem_itemPlaces j path).mp one
  obtain ⟨last,_,same⟩ := (mem_itemPlaces i _).mp two
  have walks := Walk.text_injective _ _ same
  have names : other.word = kind.word := congrArg Walk.name walks
  have numbers : some j = some i := congrArg Walk.index walks
  exact apart (Prod.ext (ItemKind.word_injective names) (Option.some.inj numbers))

-- What is filtered out of a report may be filtered out of the findings, unless
-- it is the verdict that is left in.
theorem filter_validate (record : Tree) (keep : Diagnostic → Bool)
    (dropped : ∀ title, keep (structureOk title) = false) : (validate record index).diagnostics.filter keep =
      (Collector.empty.pushAll ((findings record (label record index)).filter keep)).ordered := by
  have silent : ∀ c title, (verdict c title).filter keep = [] := by
    intro c title
    unfold verdict
    split
    · simp [dropped]
    · rfl
  rw [validate_diagnostics,Collector.ordered_pushAll,Collector.ordered_pushAll,List.filter_flatMap]
  congr 1
  funext severity
  rw [List.filter_comm,List.filter_append,silent,List.append_nil]

theorem itemFindings_dropped (item : Tree) (i : Nat) :
    (itemFindings kind item i (listPath kind i)).filter (keptApart kind i) = [] := by
  refine List.filter_eq_nil_iff.mpr ?_
  intro d member
  obtain ⟨path,place,same⟩ := itemFindings_places item i d member
  simp [keptApart,same,place]

theorem findings_apart (same : SameBut kind a b) {items : List Tree} {i : Nat} (inside : i < items.length)
    (item edited : Tree) (inA : a.field? kind.word = some (.seq (items.set i item)))
    (inB : b.field? kind.word = some (.seq (items.set i edited))) :
    (findings a title).filter (keptApart kind i) = (findings b title).filter (keptApart kind i) := by
  obtain ⟨front,back,_,foundA,foundB⟩ := findings_around title same inA inB
  have some : ∀ item, items.set i item ≠ [] := by
    intro item
    refine List.ne_nil_of_length_pos ?_
    rw [List.length_set]
    exact Nat.zero_lt_of_lt inside
  rw [foundA,foundB,fieldFindings_list _ _ (some item),fieldFindings_list _ _ (some edited),itemsFindings_set _ _ inside,
    itemsFindings_set _ _ inside]
  simp only [List.filter_append,itemFindings_dropped]

theorem edit_stays_local (kind : ItemKind) (entries : Entries) (items : List Tree) (i : Nat) (edited : Tree)
    (index : Nat) (there : entries.lookup kind.word = some (.seq items)) (inside : i < items.length) :
    let before := validate (.map entries) index
    let after := validate (.map (put entries kind.word (.seq (items.set i edited)))) index
    before.index = after.index ∧ before.label = after.label ∧ apartFrom kind i before = apartFrom kind i after ∧
      ∀ other j, (other,j) ≠ (kind,i) → (itemPlaces other j).Disjoint (itemPlaces kind i) := by
  intro before after
  have same : SameBut kind (.map (put entries kind.word (.seq (items.set i edited)))) (.map entries) := put_sameBut _
  have old : (Tree.map entries).field? kind.word = some (.seq (items.set i items[i])) := by
    rw [List.set_getElem_self]
    exact there
  refine ⟨rfl,(same.label index).symm,?_,fun other j apart => itemPlaces_apart other i j apart⟩
  have dropped : ∀ title, keptApart kind i (structureOk title) = false := fun _ => rfl
  rw [apartFrom,apartFrom,filter_validate index _ _ dropped,filter_validate index _ _ dropped,←same.label index,
    findings_apart _ same inside edited items[i] (field?_put _ _) old]

-- The eleventh trigger and the second one: the path of the one begins like
-- that of the other.
theorem edit_stays_local_second_of_eleven :
    let sun := Tree.map [("platform",.str "sun")]
    let items := List.replicate 10 sun ++ [.map [("platform",.int 1)]]
    let entries := [("trigger",Tree.seq items),("action",.map [("delay",.int 1)])]
    let before := validate (.map entries) 0
    let after := validate (.map (put entries "trigger" (.seq (items.set 1 (.map [("platform",.null)]))))) 0
    entries.lookup "trigger" = some (.seq items) ∧ 1 < items.length ∧
      apartFrom .trigger 1 before = apartFrom .trigger 1 after ∧
      after.diagnostics.map (·.path) = [some "trigger[1].platform",some "trigger[10].platform",some "condition"] ∧
      (apartFrom .trigger 1 after).map (·.path) = [some "trigger[10].platform",some "condition"] := by
  intro sun items entries before after
  have inside : 1 < items.length := by decide
  have kept := (edit_stays_local .trigger entries items 1 (.map [("platform",.null)]) 0 rfl inside).2.2.1
  exact ⟨rfl,inside,kept,by decide +kernel,by decide +kernel⟩

end AutomationLint.Record
