import AutomationLint.Proofs.Yaml.Meaning
import AutomationLint.Proofs.Yaml.Scalar.Meaning
import AutomationLint.Proofs.Yaml.Scan.Levels

namespace AutomationLint.Yaml
open Scan Writer

def startsNode : TokenKind → Bool
  | .scalar _ _ | .flowSequenceStart | .flowMappingStart | .blockSequenceStart | .blockMappingStart => true
  | _ => false

variable {s : Supply} {token : Token} {own rest : List Token} {place : Place} {column fuel : Nat}

theorem next_token {kind : TokenKind} {kinds : List TokenKind} (own_ : own.map Token.kind = kind :: kinds) :
    ∃ pos later, own = ⟨kind,pos⟩ :: later ∧ later.map Token.kind = kinds := by
  obtain ⟨⟨_,pos⟩,later,rfl,rfl,same⟩ := List.map_eq_cons_iff.mp own_
  exact ⟨pos,later,rfl,same⟩

theorem kindsOf_starts (t : Tree) (column : Nat) : ∃ kind rest, kindsOf column t = kind :: rest ∧ startsNode kind = true := by
  match t with
  | .seq (item :: later) => exact ⟨_,_,by rw [kindsOf]; rfl,rfl⟩
  | .map ((name,value) :: later) => exact ⟨_,_,by rw [kindsOf]; rfl,rfl⟩
  | .seq [] | .map [] | .null | .bool _ | .int _ | .float _ | .str _ => exact ⟨_,_,kindsOf_leaf _ rfl column,rfl⟩

theorem kindsOf_seq (column : Nat) (item : Tree) (later : List Tree) : kindsOf column (.seq (item :: later)) =
    .blockSequenceStart :: (itemKinds column (item :: later) ++ [.blockEnd]) := by
  rw [kindsOf,itemKinds]
  rfl

theorem kindsOf_map (column : Nat) (e : String × Tree) (later : Tree.Entries) : kindsOf column (.map (e :: later)) =
    .blockMappingStart :: (entryKinds column (e :: later) ++ [.blockEnd]) := by
  obtain ⟨name,value⟩ := e
  rw [kindsOf,entryKinds]
  rfl

theorem readNode_content (starts : startsNode token.kind = true) :
    readNode (fuel + 1) place {s with tokens := token :: rest} =
      readContent fuel place ⟨none,.absent⟩ {s with tokens := token :: rest} := by
  obtain ⟨kind,pos⟩ := token
  have properties : readProperties {s with tokens := ⟨kind,pos⟩ :: rest} =
      .ok (⟨none,.absent⟩,{s with tokens := ⟨kind,pos⟩ :: rest}) := by
    cases kind <;> first | rfl | exact absurd starts Bool.false_ne_true
  rw [readNode]
  simp only [properties]
  cases kind
  all_goals first
    | exact absurd starts Bool.false_ne_true
    | (dsimp only; split <;> rename_i read <;> exact read.symm)

theorem scalar_read {style : ScalarStyle} {text : List Char} (is : token.kind = .scalar style text)
    (usual : usual token = true) :
    readContent (fuel + 1) place ⟨none,.absent⟩ {s with tokens := token :: rest} =
      (.scalar token.pos .absent style text,some {s with tokens := rest}) := by
  obtain ⟨kind,pos⟩ := token
  subst is
  have indented : (style == .folded && pos.column == 0 && !Text.isBlank text) = false := by
    cases style with
    | folded =>
      have other : (pos.column == 0) = false := beq_eq_false_iff_ne.mpr (by simpa [Scan.usual] using usual)
      simp [other]
    | _ => rfl
  rw [readContent]
  simp only [scalarRead,indented,if_neg Bool.false_ne_true]
  rfl

theorem leaf_read (t : Tree) (leaf : isBlock t = false) (kinds : own.map Token.kind = leafKinds column t)
    (usual : ∀ token ∈ own, usual token = true) (legible : LegibleAt column t) (s : Supply) (rest : List Token)
    (fuel : Nat) (enough : 3 ≤ fuel) (place : Place) :
    ∃ node, readNode fuel place {s with tokens := own ++ rest} = (node,some {s with tokens := rest}) ∧ Means node t := by
  obtain ⟨fuel,rfl⟩ : ∃ left, fuel = left + 3 := ⟨fuel - 3,by omega⟩
  have scalar : ∀ style text, leafKinds column t = [.scalar style text] →
      ∃ node, readNode (fuel + 3) place {s with tokens := own ++ rest} = (node,some {s with tokens := rest}) ∧
        Means node t := by
    intro style text written
    rw [written] at kinds
    obtain ⟨token,later,rfl,is,none⟩ := List.map_eq_cons_iff.mp kinds
    obtain rfl := List.map_eq_nil_iff.mp none
    refine ⟨_,?_,scalar_means token.pos (leaf_means t column style text written legible)
      (leaf_present t column style text written)⟩
    rw [List.singleton_append,readNode_content (by rw [is]; rfl),scalar_read is (usual token List.mem_cons_self)]
  cases t with
  | seq items =>
    cases items with
    | cons => exact nomatch leaf
    | nil =>
      obtain ⟨pos,_,rfl,closing⟩ := next_token kinds
      obtain ⟨_,_,rfl,none⟩ := next_token closing
      obtain rfl := List.map_eq_nil_iff.mp none
      refine ⟨.sequence pos [],?_,sequence_means pos .nil⟩
      rw [List.cons_append,readNode_content rfl]
      rfl
  | map entries =>
    cases entries with
    | cons => exact nomatch leaf
    | nil =>
      obtain ⟨pos,_,rfl,closing⟩ := next_token kinds
      obtain ⟨_,_,rfl,none⟩ := next_token closing
      obtain rfl := List.map_eq_nil_iff.mp none
      refine ⟨.mapping pos [],?_,mapping_means pos .nil .nil⟩
      rw [List.cons_append,readNode_content rfl]
      rfl
  | _ => exact scalar _ _ rfl

theorem sequence_opens (block : place.block = true) (pos : Position) (tail : List Token) :
    readNode (fuel + 2) place {s with tokens := ⟨.blockSequenceStart,pos⟩ :: tail} =
      readBlockItems fuel pos [] {s with tokens := tail} := by
  rw [readNode_content rfl,readContent]
  simp only [block]
  rfl

theorem mapping_opens (block : place.block = true) (pos : Position) (tail : List Token) :
    readNode (fuel + 2) place {s with tokens := ⟨.blockMappingStart,pos⟩ :: tail} =
      readBlockEntries fuel pos [] {s with tokens := tail} := by
  rw [readNode_content rfl,readContent]
  simp only [block]
  rfl

theorem item_read (starts : startsNode token.kind = true) {node : Node} {after : Supply} {tail : List Token}
    (inner : readNode fuel ⟨some .blockSequence,true,false⟩ {s with tokens := token :: tail} = (node,some after))
    (start pos : Position) (read : List Node) :
    readBlockItems (fuel + 2) start read {s with tokens := ⟨.blockEntry,pos⟩ :: token :: tail} =
      readBlockItems (fuel + 1) start (node :: read) after := by
  have item : readBlockItem (fuel + 1) ⟨some .blockSequence,true,false⟩ pos {s with tokens := token :: tail} =
      (node,some after) := by
    obtain ⟨kind,_⟩ := token
    rw [readBlockItem]
    cases kind <;> first | exact absurd starts Bool.false_ne_true | exact inner
  rw [readBlockItems]
  simp only [Supply.advance,List.tail_cons,item]

theorem entry_read (starts : startsNode token.kind = true) {name : String} {value : Node} {after : Supply}
    {tail : List Token}
    (inner : readNode (fuel + 2) ⟨some .blockMapping,true,true⟩ {s with tokens := token :: tail} = (value,some after))
    (start first pos colon : Position) (usual : usual ⟨.scalar (keyStyle name.toList) name.toList,pos⟩ = true)
    (read : List (Node × Node)) :
    readBlockEntries (fuel + 4) start read {s with tokens :=
      ⟨.key,first⟩ :: ⟨.scalar (keyStyle name.toList) name.toList,pos⟩ :: ⟨.value,colon⟩ :: token :: tail} =
      readBlockEntries (fuel + 3) start ((keyNode pos name,value) :: read) after := by
  have key : readBlockKey (fuel + 3) {s with tokens :=
      ⟨.scalar (keyStyle name.toList) name.toList,pos⟩ :: ⟨.value,colon⟩ :: token :: tail} =
      (keyNode pos name,some {s with tokens := ⟨.value,colon⟩ :: token :: tail}) := by
    rw [readBlockKey]
    exact (readNode_content rfl).trans (scalar_read rfl usual)
  have value_ : readBlockValue (fuel + 3) {s with tokens := ⟨.value,colon⟩ :: token :: tail} = (value,some after) := by
    obtain ⟨kind,_⟩ := token
    rw [readBlockValue]
    cases kind <;> first | exact absurd starts Bool.false_ne_true | exact inner
  rw [readBlockEntries]
  simp only [Supply.advance,List.tail_cons]
  have keyed : (TokenKind.key != .key && TokenKind.key != .value) = false := rfl
  have other : (TokenKind.key == .value) = false := rfl
  simp only [keyed,other,if_neg Bool.false_ne_true,key,value_]

-- The tokens of a value, whatever follows them, are read up to the last one,
-- and the node that is read means the value. There is one lemma for each
-- constructor, so that the induction on the tree only chooses.
def Readable (t : Tree) : Prop :=
  ∀ (column : Nat) (s : Supply) (own rest : List Token) (place : Place) (fuel : Nat),
    own.map Token.kind = kindsOf column t → (∀ token ∈ own, usual token = true) → LegibleAt column t →
    (isBlock t = true → place.block = true) → 4 * own.length ≤ fuel →
    ∃ node, readNode fuel place {s with tokens := own ++ rest} = (node,some {s with tokens := rest}) ∧ Means node t

def ItemsReadable (items : List Tree) : Prop :=
  ∀ (column : Nat) (s : Supply) (own rest : List Token) (fuel : Nat) (start : Position) (read : List Node),
    own.map Token.kind = itemKinds column items ++ [.blockEnd] → (∀ token ∈ own, usual token = true) →
    LegibleItems (column + 2) items → 4 * own.length ≤ fuel →
    ∃ nodes, readBlockItems fuel start read {s with tokens := own ++ rest} =
      (.sequence start (read.reverse ++ nodes),some {s with tokens := rest}) ∧ ItemsMean nodes items

def EntriesReadable (entries : Tree.Entries) : Prop :=
  ∀ (column : Nat) (s : Supply) (own rest : List Token) (fuel : Nat) (start : Position) (read : List (Node × Node)),
    own.map Token.kind = entryKinds column entries ++ [.blockEnd] → (∀ token ∈ own, usual token = true) →
    LegibleEntries (column + 2) entries → 4 * own.length ≤ fuel →
    ∃ pairs, readBlockEntries fuel start read {s with tokens := own ++ rest} =
      (.mapping start (read.reverse ++ pairs),some {s with tokens := rest}) ∧ EntriesMean pairs entries

-- A leaf has a token at least, and so three steps are allowed.
theorem leaf_readable {t : Tree} (leaf : isBlock t = false) : Readable t := by
  intro column s own rest place fuel kinds usual legible _ enough
  obtain ⟨_,_,starts,_⟩ := kindsOf_starts t column
  obtain ⟨_,_,rfl,_⟩ := next_token (kinds.trans starts)
  rw [List.length_cons] at enough
  exact leaf_read t leaf (kinds.trans (kindsOf_leaf t leaf column)) usual legible s rest fuel (by omega) place

theorem seq_readable {item : Tree} {later : List Tree} (all : ItemsReadable (item :: later)) :
    Readable (.seq (item :: later)) := by
  intro column s own rest place fuel kinds usual legible block enough
  rw [LegibleAt] at legible
  obtain ⟨pos,inner,rfl,innerKinds⟩ := next_token (kinds.trans (kindsOf_seq column item later))
  rw [List.length_cons] at enough
  obtain ⟨fuel,rfl⟩ : ∃ left, fuel = left + 2 := ⟨fuel - 2,by omega⟩
  obtain ⟨nodes,read,means⟩ := all column s inner rest fuel pos [] innerKinds (List.forall_mem_cons.mp usual).2 legible
    (by omega)
  refine ⟨_,?_,sequence_means pos means⟩
  rw [List.cons_append,sequence_opens (block rfl),read]
  rfl

theorem map_readable {e : String × Tree} {later : Tree.Entries} (all : EntriesReadable (e :: later)) :
    Readable (.map (e :: later)) := by
  intro column s own rest place fuel kinds usual legible block enough
  rw [LegibleAt] at legible
  obtain ⟨pos,inner,rfl,innerKinds⟩ := next_token (kinds.trans (kindsOf_map column e later))
  rw [List.length_cons] at enough
  obtain ⟨fuel,rfl⟩ : ∃ left, fuel = left + 2 := ⟨fuel - 2,by omega⟩
  obtain ⟨pairs,read,means⟩ := all column s inner rest fuel pos [] innerKinds (List.forall_mem_cons.mp usual).2 legible.2
    (by omega)
  refine ⟨_,?_,mapping_means pos means legible.1⟩
  rw [List.cons_append,mapping_opens (block rfl),read]
  rfl

theorem items_readable_nil : ItemsReadable [] := by
  intro column s own rest fuel start read kinds _ _ enough
  obtain ⟨pos,_,rfl,none⟩ := next_token kinds
  obtain rfl := List.map_eq_nil_iff.mp none
  obtain ⟨fuel,rfl⟩ : ∃ left, fuel = left + 1 := ⟨fuel - 1,by simp at enough; omega⟩
  refine ⟨[],?_,.nil⟩
  rw [readBlockItems,List.append_nil]
  rfl

theorem items_readable_cons {item : Tree} {later : List Tree} (one : Readable item) (others : ItemsReadable later) :
    ItemsReadable (item :: later) := by
  intro column s own rest fuel start read kinds usual legible enough
  rw [LegibleItems] at legible
  rw [itemKinds,List.cons_append,List.cons_append,List.append_assoc] at kinds
  obtain ⟨pos,_,rfl,behindDash⟩ := next_token kinds
  obtain ⟨first,more,rfl,firstKinds,moreKinds⟩ := List.map_eq_append_iff.mp behindDash
  simp only [List.forall_mem_cons,List.forall_mem_append] at usual
  obtain ⟨_,firstUsual,moreUsual⟩ := usual
  simp only [List.length_cons,List.length_append] at enough
  obtain ⟨fuel,rfl⟩ : ∃ left, fuel = left + 2 := ⟨fuel - 2,by omega⟩
  obtain ⟨node,inner,means⟩ := one (column + 2) s first (more ++ rest) ⟨some .blockSequence,true,false⟩ fuel
    firstKinds firstUsual legible.1 (fun _ => rfl) (by omega)
  obtain ⟨nodes,behind,all⟩ := others column s more rest (fuel + 1) start (node :: read) moreKinds moreUsual legible.2
    (by omega)
  obtain ⟨kind,_,starts,is⟩ := kindsOf_starts item (column + 2)
  rw [starts] at firstKinds
  obtain ⟨_,_,rfl,_⟩ := next_token firstKinds
  refine ⟨node :: nodes,?_,.cons means all⟩
  rw [List.cons_append] at inner
  rw [List.cons_append,List.append_assoc,List.cons_append,item_read is inner start pos read,behind]
  simp

theorem entries_readable_nil : EntriesReadable [] := by
  intro column s own rest fuel start read kinds _ _ enough
  obtain ⟨pos,_,rfl,none⟩ := next_token kinds
  obtain rfl := List.map_eq_nil_iff.mp none
  obtain ⟨fuel,rfl⟩ : ∃ left, fuel = left + 1 := ⟨fuel - 1,by simp at enough; omega⟩
  refine ⟨[],?_,.nil⟩
  rw [readBlockEntries,List.append_nil]
  rfl

theorem entries_readable_cons {name : String} {value : Tree} {later : Tree.Entries} (one : Readable value)
    (others : EntriesReadable later) : EntriesReadable ((name,value) :: later) := by
  intro column s own rest fuel start read kinds usual legible enough
  rw [LegibleEntries] at legible
  rw [entryKinds,keyKinds] at kinds
  simp only [List.cons_append,List.append_assoc,List.nil_append] at kinds
  obtain ⟨opening,_,rfl,fromKey⟩ := next_token kinds
  obtain ⟨pos,_,rfl,fromColon⟩ := next_token fromKey
  obtain ⟨colon,_,rfl,fromValue⟩ := next_token fromColon
  obtain ⟨first,more,rfl,firstKinds,moreKinds⟩ := List.map_eq_append_iff.mp fromValue
  simp only [List.forall_mem_cons,List.forall_mem_append] at usual
  obtain ⟨_,keyUsual,_,firstUsual,moreUsual⟩ := usual
  simp only [List.length_cons,List.length_append] at enough
  obtain ⟨fuel,rfl⟩ : ∃ left, fuel = left + 4 := ⟨fuel - 4,by omega⟩
  obtain ⟨node,inner,means⟩ := one (column + 2) s first (more ++ rest) ⟨some .blockMapping,true,true⟩ (fuel + 2)
    firstKinds firstUsual legible.2.1 (fun _ => rfl) (by omega)
  obtain ⟨pairs,behind,all⟩ := others column s more rest (fuel + 3) start ((keyNode pos name,node) :: read) moreKinds
    moreUsual legible.2.2 (by omega)
  obtain ⟨kind,_,starts,is⟩ := kindsOf_starts value (column + 2)
  rw [starts] at firstKinds
  obtain ⟨_,_,rfl,_⟩ := next_token firstKinds
  refine ⟨(keyNode pos name,node) :: pairs,?_,.cons pos name legible.1 means all⟩
  rw [List.cons_append] at inner
  rw [List.cons_append,List.cons_append,List.cons_append,List.append_assoc,List.cons_append,
    entry_read is inner start opening pos colon keyUsual read,behind]
  simp

mutual
theorem readable (t : Tree) : Readable t := by
  match t with
  | .seq (item :: later) => exact seq_readable (items_readable_cons (readable item) (items_readable later))
  | .map ((_,value) :: later) => exact map_readable (entries_readable_cons (readable value) (entries_readable later))
  | .seq [] | .map [] | .null | .bool _ | .int _ | .float _ | .str _ => exact leaf_readable rfl

theorem items_readable (items : List Tree) : ItemsReadable items := by
  match items with
  | [] => exact items_readable_nil
  | item :: later => exact items_readable_cons (readable item) (items_readable later)

theorem entries_readable (entries : Tree.Entries) : EntriesReadable entries := by
  match entries with
  | [] => exact entries_readable_nil
  | (_,value) :: later => exact entries_readable_cons (readable value) (entries_readable later)
end

theorem opened_bare {kind : TokenKind} {pos : Position} (starts : startsNode kind = true) (s : Supply)
    (there : s.tokens = ⟨kind,pos⟩ :: rest) : openDocument true s = .ok (.bare s) := by
  obtain ⟨tokens,_,_,_,_⟩ := s
  obtain rfl : tokens = ⟨kind,pos⟩ :: rest := there
  cases kind <;> first | exact absurd starts Bool.false_ne_true | rfl

theorem document_read {tokens : List Token} (t : Tree) (kinds : tokens.map Token.kind = kindsOf column t ++ [.streamEnd])
    (usual : ∀ token ∈ tokens.dropLast, usual token = true) (legible : LegibleAt column t) :
    ∃ root, Document.ofTokens ⟨tokens,none⟩ = ⟨some root,none⟩ ∧ Means root t := by
  obtain ⟨own,last,rfl,ownKinds,lastKind⟩ := List.map_eq_append_iff.mp kinds
  obtain ⟨end_,_,rfl,nothing⟩ := next_token lastKind
  obtain rfl := List.map_eq_nil_iff.mp nothing
  rw [List.dropLast_concat] at usual
  let s : Supply := ⟨[],⟨.nodeExpected none,⟨0,0,0⟩⟩,[],[],[]⟩
  obtain ⟨root,read,means⟩ := readable t column s own [⟨.streamEnd,end_⟩] ⟨none,true,false⟩
    (depth (own ++ [⟨.streamEnd,end_⟩])) ownKinds usual legible (fun _ => rfl)
    (by simp only [depth,List.length_append,List.length_cons]; omega)
  refine ⟨root,?_,means⟩
  obtain ⟨kind,_,starts,is⟩ := kindsOf_starts t column
  obtain ⟨pos,later,rfl,_⟩ := next_token (ownKinds.trans starts)
  let begun : Supply := {s with tokens := ⟨kind,pos⟩ :: later ++ [⟨.streamEnd,end_⟩]}
  have opened : openDocument true begun = .ok (.bare begun) := opened_bare is begun rfl
  have whole : readOpened (.bare begun) = some (root,some {s with tokens := [⟨.streamEnd,end_⟩]}) := congrArg some read
  simp only [Document.ofTokens,Option.getD_none]
  rw [opened]
  simp only [whole]
  rfl

end AutomationLint.Yaml
