import AutomationLint.Proofs.Yaml.Legible
import AutomationLint.Yaml.Reader

namespace AutomationLint.Yaml
open Writer

def isMissing : Node → Bool
  | .scalar _ _ style text => isEmptyBlock style text
  | _ => false

-- The node has no faults, aliases and merges, and its keys are all different;
-- so it is read as the tree by any reference and with any fuel that is enough
-- for its depth.
structure Means (n : Node) (t : Tree) : Prop where
  direct : n.target = n
  whole : n.fault? = none
  present : isMissing n = false
  tree : ∀ fuel r, n.depth ≤ fuel → treeAt fuel r n = .ok t

inductive ItemsMean : List Node → List Tree → Prop where
  | nil : ItemsMean [] []
  | cons {n : Node} {t : Tree} {nodes : List Node} {trees : List Tree} (first : Means n t) (rest : ItemsMean nodes trees) :
      ItemsMean (n :: nodes) (t :: trees)

def keyNode (pos : Position) (name : String) : Node := .scalar pos .absent (keyStyle name.toList) name.toList

inductive EntriesMean : List (Node × Node) → Tree.Entries → Prop where
  | nil : EntriesMean [] []
  | cons {value : Node} {t : Tree} {pairs : List (Node × Node)} {entries : Tree.Entries} (pos : Position) (name : String)
      (legible : LegibleKey name.toList) (first : Means value t) (rest : EntriesMean pairs entries) :
      EntriesMean ((keyNode pos name,value) :: pairs) ((name,t) :: entries)

variable {n : Node} {t : Tree} {nodes : List Node} {trees : List Tree} {pairs : List (Node × Node)}
  {entries done : Tree.Entries} {fuel : Nat} {r : Reference}

theorem Means.root (means : Means n t) : n.tree = .ok (some t) := by
  have tree := means.tree n.depth none (Nat.le_refl _)
  cases n with
  | scalar pos tag style text =>
    have present : isEmptyBlock style text = false := means.present
    simp only [Node.tree,present,if_neg Bool.false_ne_true]
    exact congrArg (Except.map some) tree
  | _ => exact congrArg (Except.map some) tree

theorem scalar_means {style : ScalarStyle} {text : List Char} (pos : Position)
    (means : scalarTree .absent style text = .ok t) (present : isEmptyBlock style text = false) :
    Means (.scalar pos .absent style text) t := by
  refine ⟨rfl,rfl,present,?_⟩
  intro fuel r deep
  obtain ⟨fuel,rfl⟩ : ∃ left, fuel = left + 1 := ⟨fuel - 1,by simp only [Node.depth] at deep; omega⟩
  rw [treeAt,means]

theorem Means.part (means : Means n t) (deep : n.depth ≤ fuel) : readPart (treeAt fuel) r n = .ok t := by
  rw [readPart,means.direct,means.tree fuel _ deep]

theorem ItemsMean.whole (means : ItemsMean nodes trees) : Node.itemsFault? nodes = none := by
  induction means with
  | nil => rfl
  | cons first _ ih => simp [Node.itemsFault?,first.whole,ih]

theorem ItemsMean.parts (means : ItemsMean nodes trees) (deep : Node.itemsDepth nodes ≤ fuel) :
    nodes.mapM (readPart (treeAt fuel) r) = .ok trees := by
  induction means with
  | nil => rfl
  | cons first _ ih =>
    rw [Node.itemsDepth] at deep
    rw [List.mapM_cons,first.part (by omega),ih (by omega)]
    rfl

theorem sequence_means (pos : Position) (means : ItemsMean nodes trees) : Means (.sequence pos nodes) (.seq trees) := by
  refine ⟨rfl,means.whole,rfl,?_⟩
  intro fuel r deep
  rw [Node.depth] at deep
  obtain ⟨fuel,rfl⟩ : ∃ left, fuel = left + 1 := ⟨fuel - 1,by omega⟩
  rw [treeAt]
  simp only [means.parts (Nat.le_of_succ_le_succ deep)]

theorem EntriesMean.whole (means : EntriesMean pairs entries) : Node.entriesFault? pairs = none := by
  induction means with
  | nil => rfl
  | cons pos name _ first _ ih => simp [Node.entriesFault?,keyNode,Node.fault?,first.whole,ih]

def marks (done : Tree.Entries) : List KeyMark := (done.map fun e => (e.1.toList,Tag.absent)).reverse

theorem keyNode_merge {name : String} (legible : LegibleKey name.toList) (pos : Position) :
    (keyNode pos name).isMergeKey = false := by
  unfold Node.isMergeKey keyNode
  split
  · rename_i same
    obtain ⟨-,-,plain,text⟩ := Node.scalar.inj same
    have is : isPlainKey name.toList = true := by
      cases key : isPlainKey name.toList with
      | true => rfl
      | false =>
        rw [keyStyle,key] at plain
        exact nomatch plain
    exact absurd text (legible.unmerged is)
  · rfl

theorem keyNode_text (pos : Position) (name : String) (first : Bool) (value : Node) :
    (keyNode pos name).keyBefore first value = .ok name := by
  have null : isNullKey .absent (keyStyle name.toList) name.toList = false := by
    unfold keyStyle
    split
    · rename_i plain
      simp only [isPlainKey,readsOtherwise,isAmbiguous,Bool.not_eq_true',Bool.or_eq_false_iff] at plain
      simp [isNullKey,plain]
    · rfl
  have text : keyText first .absent (keyStyle name.toList) name.toList = .ok name.toList := by
    rw [keyText,null]
    cases first <;> rfl
  have read : (keyNode pos name).key first = .ok name := by
    simp only [Node.key,keyNode,Node.fault?,Node.target,text,String.ofList_toList]
  exact read

theorem own_added {value : Node} {name : String} (legible : LegibleKey name.toList) (pos : Position)
    (means : Means value t) (new : name ∉ done.map Prod.fst) (deep : value.depth ≤ fuel) :
    Gathered.own (treeAt fuel) r ⟨marks done,done,[]⟩ (keyNode pos name,value) =
      .ok ⟨marks (done ++ [(name,t)]),done ++ [(name,t)],[]⟩ := by
  have fresh : (⟨marks done,done,[]⟩ : Gathered).repeats (keyNode pos name) = false := by
    simp only [Gathered.repeats,keyNode,Node.keyMark?,Node.target,Option.map_some,Option.getD_some,
      List.contains_eq_mem,decide_eq_false_iff_not,marks,List.mem_reverse,List.mem_map]
    rintro ⟨e,member,same⟩
    refine new (List.mem_map.mpr ⟨e,member,?_⟩)
    exact String.toList_injective (Prod.mk.inj same).1
  have added : marks (done ++ [(name,t)]) = (keyNode pos name).keyMark?.toList ++ marks done := by
    simp [marks,keyNode,Node.keyMark?,Node.target]
  simp only [Gathered.own,keyNode_merge legible pos,fresh,if_neg Bool.false_ne_true,Gathered.add,keyNode_text,
    means.part deep,Tree.put_new new,added]

theorem EntriesMean.gathered (means : EntriesMean pairs entries) (done : Tree.Entries)
    (distinct : ((done ++ entries).map Prod.fst).Nodup) (deep : Node.pairsDepth pairs ≤ fuel) :
    pairs.foldlM (Gathered.own (treeAt fuel) r) ⟨marks done,done,[]⟩ =
      .ok ⟨marks (done ++ entries),done ++ entries,[]⟩ := by
  induction means generalizing done with
  | nil => rw [List.append_nil]; rfl
  | @cons value t pairs entries pos name legible first rest ih =>
    rw [Node.pairsDepth] at deep
    have next : done ++ (name,t) :: entries = done ++ [(name,t)] ++ entries := by simp
    have new : name ∉ done.map Prod.fst := by
      rw [List.map_append,List.nodup_append] at distinct
      intro member
      exact distinct.2.2 name member name List.mem_cons_self rfl
    rw [next] at distinct ⊢
    rw [List.foldlM_cons,own_added legible pos first new (by omega)]
    exact ih _ distinct (by omega)

theorem mapping_means (pos : Position) (means : EntriesMean pairs entries) (distinct : (entries.map Prod.fst).Nodup) :
    Means (.mapping pos pairs) (.map entries) := by
  refine ⟨rfl,means.whole,rfl,?_⟩
  intro fuel r deep
  rw [Node.depth] at deep
  obtain ⟨fuel,rfl⟩ : ∃ left, fuel = left + 1 := ⟨fuel - 1,by omega⟩
  have gathered := means.gathered (r := r) [] distinct (Nat.le_of_succ_le_succ deep)
  rw [treeAt]
  have start : (⟨[],[],[]⟩ : Gathered) = ⟨marks [],[],[]⟩ := rfl
  rw [start,gathered]
  rfl

end AutomationLint.Yaml
