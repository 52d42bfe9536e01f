import AutomationLint.Proofs.Yaml.Nodes
import AutomationLint.Proofs.Yaml.Scan.Beginnings

namespace AutomationLint.Yaml

-- White space, but neither a blank nor a break: to the reader a character like
-- any other, so that a plain scalar begins with it, and that is no word for
-- null.
def isStray (c : Char) : Bool := Text.isWhite c && !isBlank c && !isBreak c

variable {c : Char} {rest : List Char}

theorem toLower_white (white : Text.isWhite c = true) : c.toLower = c := by
  unfold Char.toLower
  split
  · rename_i upper
    have above : 65 ≤ c.toNat := UInt32.le_iff_toNat_le.mp upper.1
    have below : c.toNat ≤ 90 := UInt32.le_iff_toNat_le.mp upper.2
    simp only [Text.isWhite,Bool.or_eq_true,Bool.and_eq_true,decide_eq_true_eq,beq_iff_eq] at white
    omega
  · rfl

theorem stray_ne (stray : isStray c = true) (d : Char) (plain : isStray d = false) : c ≠ d := by
  rintro rfl
  exact absurd stray (by simp [plain])

theorem marker_stray (stray : isStray c = true) : isDocumentMarker (c :: rest) = false := by
  have start : isDocumentStart (c :: rest) = false := by
    unfold isDocumentStart
    split
    · rename_i same
      exact absurd (List.cons.inj same).1 (stray_ne stray '-' (by decide))
    · rfl
  have stop : isDocumentEnd (c :: rest) = false := by
    unfold isDocumentEnd
    split
    · rename_i same
      exact absurd (List.cons.inj same).1 (stray_ne stray '.' (by decide))
    · rfl
  rw [isDocumentMarker,start,stop]
  rfl

theorem isNullWord_stray (stray : isStray c = true) : isNullWord (c :: rest) = false := by
  have white : Text.isWhite c = true := by
    simp only [isStray,Bool.and_eq_true] at stray
    exact stray.1.1
  have tilde : (c :: rest == ['~']) = false := by
    refine beq_eq_false_iff_ne.mpr fun same => ?_
    exact stray_ne stray '~' (by decide) (List.cons.inj same).1
  have word : (Text.lowerWord (c :: rest) == "null") = false := by
    refine beq_eq_false_iff_ne.mpr fun same => ?_
    have letters := congrArg String.toList same
    rw [Text.lowerWord,String.toList_ofList,List.map_cons,toLower_white white] at letters
    exact stray_ne stray 'n' (by decide) (List.cons.inj letters).1
  rw [isNullWord,tilde,word]
  rfl

namespace Plain

variable {ctx : Context} {cur : Cursor}

theorem scan_suffix {text : List Char} {gap : Gap} {r : Scanned} (fuel : Nat) (ok : scan ctx fuel cur text gap = .ok r) :
    text <:+ r.newestFirst := by
  induction fuel generalizing cur text gap with
  | zero =>
    cases ok
    exact List.suffix_refl _
  | succ fuel ih =>
    rw [scan] at ok
    dsimp only at ok
    split at ok
    · cases ok
      exact List.suffix_refl _
    · split at ok
      · cases ok
        exact List.suffix_refl _
      · split at ok
        · cases ok
        · split at ok
          · cases ok
            exact List.suffix_refl _
          · have longer (front : List Char) : text <:+ front ++ text := List.suffix_append _ _
            split at ok
            · cases ok
            · split at ok
              · cases ok
                exact longer _
              · split at ok
                · cases ok
                  exact longer _
                · exact (longer _).trans (ih ok)

theorem word_stray (stray : isStray c = true) : ∃ more, word false (c :: rest) = c :: more := by
  have inner : isBlank c = false ∧ isBreak c = false := by
    simp only [isStray,Bool.and_eq_true,Bool.not_eq_true'] at stray
    exact ⟨stray.1.2,stray.2⟩
  have goesOn : plainGoesOn false (c :: rest) = true := by
    unfold plainGoesOn
    split
    · rfl
    · rename_i same
      exact absurd (List.cons.inj same).1 (stray_ne stray ':' (by decide))
    · rfl
  exact ⟨word false rest,by simp [word,inner,goesOn]⟩

theorem scan_stray {r : Scanned} (fuel : Nat) (stray : isStray c = true) (outside : ctx.inFlow = false)
    (there : cur.rest = c :: rest) (ok : scan ctx (fuel + 1) cur [] (.blanks []) = .ok r) :
    ∃ more, r.newestFirst.reverse = c :: more := by
  obtain ⟨more,read⟩ : ∃ more, word false (c :: rest) = c :: more := word_stray stray
  have peek : cur.peek = some c := by simp [Cursor.peek,there]
  have comment : (cur.peek == some '#') = false := by
    rw [peek]
    exact beq_eq_false_iff_ne.mpr fun same => stray_ne stray '#' (by decide) (Option.some.inj same)
  have begins : (c :: more).reverse <:+ r.newestFirst := by
    rw [scan,there,outside,read] at ok
    simp only [Gap.isBroken,comment,Bool.false_and,Gap.text,List.isEmpty_cons,List.reverse_nil,List.append_nil,
      if_neg Bool.false_ne_true] at ok
    split at ok
    · cases ok
    · split at ok
      · cases ok
        exact List.suffix_refl _
      · split at ok
        · cases ok
          exact List.suffix_refl _
        · exact scan_suffix _ ok
  obtain ⟨front,whole⟩ := begins
  exact ⟨more ++ front.reverse,by rw [←whole]; simp⟩

end Plain

namespace Scan

variable {s t : Scan}

theorem dispatch_stray (stray : isStray c = true) (next : Option Char) : s.dispatch c next = s.plain := by
  unfold dispatch
  split
  all_goals first
    | rfl
    | exact absurd stray (by decide)

theorem plain_stray (stray : isStray c = true) (none : s.newestFirst = []) (outside : s.inFlow = false)
    (levels : s.indents = []) (steps : s.steps ≠ 0) (there : s.cur.rest = c :: rest) (ok : s.plain = .ok t) :
    Begun t.newestFirst := by
  obtain ⟨fuel,more⟩ := Nat.exists_eq_succ_of_ne_zero steps
  have still : s.property.leaveNonBlock = {s with key := s.property.key, keyAllowed := false} := by
    rw [property_eq,leaveNonBlock]
    change leaveThrough s.indents _ = _
    rw [levels]
    rfl
  have sameFlow : ({s with key := s.property.key, keyAllowed := false} : Scan).inFlow = false := outside
  unfold plain at ok
  dsimp only at ok
  rw [still,sameFlow,Bool.false_and,if_neg Bool.false_ne_true] at ok
  dsimp only at ok
  rw [more] at ok
  split at ok
  · cases ok
  · rename_i r scanned
    split at ok <;> cases ok
    obtain ⟨text,begins⟩ := Plain.scan_stray fuel stray rfl there scanned
    refine ⟨⟨.scalar .plain r.newestFirst.reverse,s.pos⟩,?_,?_⟩
    · simp [emit,none]
    · rw [isFilled,begins,isNullWord_stray stray]
      rfl

theorem tokens_stray {text : List Char} (stray : isStray c = true) (first : seen false text = c :: rest) :
    (Tokens.ofText text).Filled := by
  obtain ⟨t,settled,moved,left⟩ := start_settled text
  have there : t.cur.rest = c :: rest := left.trans first
  obtain ⟨unexpired,expired,stepped⟩ := step_settled settled
  have bare : unexpired.newestFirst = [] := expireKey_tokens expired
  have column : t.column = (t.pos.column : Int) := rfl
  have level : t.indent ≤ t.column := by
    rw [moved.indent,column]
    exact Int.le_trans (by decide : (-1 : Int) ≤ 0) (Int.natCast_nonneg _)
  have turned : (t.dedent t.column).turn = t.plain := by
    rw [dedent_of_le _ level,turn_content there level,dispatch_stray stray]
    intro _
    exact ⟨stray_ne stray '%' (by decide),marker_stray stray⟩
  rw [turned] at stepped
  rw [Tokens.ofText,Tokens.scan,if_neg (by exact Bool.false_ne_true),expired]
  dsimp only
  rw [stepped]
  cases read : t.plain with
  | error f => exact .inl ⟨by simp [Tokens.cutOff,bare],Option.some_ne_none f⟩
  | ok next =>
    refine scan_filled _ (plain_stray stray moved.tokens ?_ moved.levels ?_ there read)
    · simp [inFlow,moved.brackets,start]
    · rw [moved.steps]
      exact Nat.succ_ne_zero _

end Scan

def Node.Filled : Node → Prop
  | .scalar _ tag style text => tag = .absent ∧ style = .plain ∧ Yaml.isNullWord text = false
  | .sequence .. | .mapping .. | .broken _ => True
  | .again .. => False

theorem readBlockItems_filled (fuel : Nat) (start : Position) (read : List Node) (s : Supply) :
    (readBlockItems fuel start read s).1.Filled := by
  induction fuel generalizing read s with
  | zero => trivial
  | succ fuel ih =>
    rw [readBlockItems]
    dsimp only
    split
    · trivial
    · trivial
    · split
      · trivial
      · exact ih _ _
    · trivial

theorem readBlockEntries_filled (fuel : Nat) (start : Position) (read : List (Node × Node)) (s : Supply) :
    (readBlockEntries fuel start read s).1.Filled := by
  induction fuel generalizing read s with
  | zero => trivial
  | succ fuel ih =>
    rw [readBlockEntries]
    dsimp only
    split
    · trivial
    · trivial
    · split
      · trivial
      · split
        · trivial
        · split
          · trivial
          · exact ih _ _

theorem readFlowEntries_filled (fuel : Nat) (start : Position) (first : Bool) (read : List (Node × Node)) (s : Supply) :
    (readFlowEntries fuel start first read s).1.Filled := by
  induction fuel generalizing first read s with
  | zero => trivial
  | succ fuel ih =>
    -- Every branch makes a mapping of what was read, but for the one that reads on.
    rw [readFlowEntries]
    dsimp only
    repeat' split
    all_goals first
      | trivial
      | exact ih _ _ _

theorem readContent_filled (fuel : Nat) (place : Place) (block : place.block = true) (s : Supply) (kind : TokenKind)
    (pos : Position) (rest : List Token) (there : s.tokens = ⟨kind,pos⟩ :: rest) (filled : isFilled kind = true) :
    (readContent (fuel + 1) place ⟨none,.absent⟩ s).1.Filled := by
  rw [readContent,there]
  cases kind with
  | scalar style text =>
    cases style with
    | plain =>
      refine ⟨rfl,rfl,?_⟩
      simpa [isFilled] using filled
    | quoted | literal | folded => cases filled
  | blockSequenceStart =>
    simp [block]
    exact readBlockItems_filled _ _ _ _
  | blockMappingStart =>
    simp [block]
    exact readBlockEntries_filled _ _ _ _
  | flowMappingStart => exact readFlowEntries_filled _ _ _ _ _
  | key => trivial
  | _ => cases filled

theorem readRoot_filled (s : Supply) (token : Token) (rest : List Token) (there : s.tokens = token :: rest)
    (filled : isFilled token.kind = true) : (readRoot s).1.Filled := by
  obtain ⟨kind,pos⟩ := token
  have properties : readProperties s = .ok (⟨none,.absent⟩,s) := by
    unfold readProperties
    rw [there]
    cases kind <;> first | rfl | exact absurd filled Bool.false_ne_true
  obtain ⟨fuel,more⟩ : ∃ fuel, depth s.tokens = fuel + 2 := ⟨4 * s.tokens.length + 6,rfl⟩
  have content := readContent_filled fuel ⟨none,true,false⟩ rfl s kind pos rest there filled
  have same : (readRoot s).1 = (readContent (fuel + 1) ⟨none,true,false⟩ ⟨none,.absent⟩ s).1 := by
    rw [readRoot,more,readNode]
    split
    · rename_i reference
      cases there.symm.trans reference
      exact absurd filled Bool.false_ne_true
    · have bare : s.openAnchor none = s := rfl
      simp only [properties,bare]
      split <;> rename_i read <;> rw [read]
  rwa [same]

theorem document_filled {tokens : Tokens} (begun : tokens.Filled) : ∃ root after, Document.ofTokens tokens = ⟨some root,after⟩ ∧
    root.Filled := by
  unfold Document.ofTokens
  rcases begun with ⟨none,fault⟩ | ⟨token,rest,there,filled⟩
  · rw [none]
    exact ⟨_,_,rfl,trivial⟩
  · generalize tokens.fault.getD ⟨.nodeExpected none,⟨0,0,0⟩⟩ = ending
    let s : Supply := ⟨tokens.list,ending,[],[],[]⟩
    have opened : openDocument true s = .ok (.bare s) := by
      obtain ⟨kind,pos⟩ := token
      simp only [s,there]
      cases kind <;> first | exact absurd filled Bool.false_ne_true | rfl
    have root := readRoot_filled s token rest there filled
    simp only [s] at opened root
    dsimp only
    rw [opened]
    dsimp only [readOpened]
    split
    · rename_i same
      cases same
    · rename_i node same
      rw [Option.some.inj same] at root
      exact ⟨_,_,rfl,root⟩
    · rename_i node more same
      rw [Option.some.inj same] at root
      exact ⟨_,_,rfl,root⟩

theorem float_filled {text : List Char} {t : Tree} (is : float? text = some t) : t ≠ .null := by
  unfold float? at is
  dsimp only at is
  split at is
  case h_6 =>
    obtain ⟨d,_,rfl⟩ := Option.map_eq_some_iff.mp is
    split <;> exact nofun
  all_goals
    cases is
    exact nofun

theorem plainTree_filled {text : List Char} (other : isNullWord text = false) : plainTree text ≠ .null := by
  unfold plainTree
  rw [other,if_neg Bool.false_ne_true]
  dsimp only
  split
  · exact nofun
  · exact nofun
  · rename_i float
    exact float_filled float
  · exact nofun

theorem treeAt_collection {n : Node} {fuel : Nat} {r : Reference} {t : Tree} (ok : treeAt fuel r n = .ok t)
    (is : (∃ pos items, n = .sequence pos items) ∨ ∃ pos entries, n = .mapping pos entries) : t ≠ .null := by
  cases fuel with
  | zero => cases ok
  | succ fuel =>
    rcases is with ⟨pos,items,rfl⟩ | ⟨pos,entries,rfl⟩
    · rw [treeAt] at ok
      split at ok <;> cases ok
      exact fun same => by cases same
    · rw [treeAt] at ok
      split at ok
      · cases ok
      · split at ok <;> cases ok
        exact fun same => by cases same

theorem Node.Filled.tree {n : Node} {t : Option Tree} (filled : n.Filled) (ok : n.tree = .ok t) : t.getD .null ≠ .null := by
  have collection (is : (∃ pos items, n = .sequence pos items) ∨ ∃ pos entries, n = .mapping pos entries) :
      t.getD .null ≠ .null := by
    have made : (treeAt n.depth none n).map some = .ok t := by
      rcases is with ⟨pos,items,rfl⟩ | ⟨pos,entries,rfl⟩ <;> exact ok
    cases whole : treeAt n.depth none n with
    | error f =>
      rw [whole] at made
      cases made
    | ok u =>
      rw [whole] at made
      cases made
      exact treeAt_collection whole is
  cases n with
  | scalar pos tag style text =>
    obtain ⟨rfl,rfl,other⟩ := filled
    have scalar : scalarTree .absent .plain text = .ok (plainTree text) := by
      rw [scalarTree,isNull,other]
      rfl
    have bare : isEmptyBlock .plain text = false := Bool.and_false _
    rw [Node.tree,bare,if_neg Bool.false_ne_true,treeAt,scalar] at ok
    cases ok
    exact plainTree_filled other
  | sequence pos items => exact collection (.inl ⟨pos,items,rfl⟩)
  | mapping pos entries => exact collection (.inr ⟨pos,entries,rfl⟩)
  | again => exact filled.elim
  | broken f => cases ok

theorem read_stray (body : List Char) (stray : isStray c = true)
    (first : (seen false (pageText (page body))).head? = some c) (t : Option Tree) (ok : Yaml.read body = .ok t) :
    t.getD .null ≠ .null := by
  obtain ⟨rest,there⟩ := List.head?_eq_some_iff.mp first
  obtain ⟨root,after,document_,filled⟩ := document_filled (Scan.tokens_stray stray there)
  have tree : root.tree = .ok t := by
    simp only [Yaml.read,readTree,document,document_] at ok
    cases tree : root.tree with
    | error f => simp [tree] at ok
    | ok u =>
      cases after with
      | some f => simp [tree] at ok
      | none => simpa [tree] using ok
  exact filled.tree tree

end AutomationLint.Yaml
