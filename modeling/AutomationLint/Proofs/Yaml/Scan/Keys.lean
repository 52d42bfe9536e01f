import AutomationLint.Proofs.Yaml.Scan.Scalars

namespace AutomationLint.Yaml.Scan
open Writer

section

variable {s t : Scan} {kinds : List TokenKind} {columns : List Nat} {text rest tail : List Char} {style : ScalarStyle}

theorem insert_last (s : Scan) (kind : TokenKind) (pos : Position) : s.insert s.count kind pos = s.emit kind pos := by
  simp [insert,emit]

theorem indentTo_opens (outside : s.inFlow = false) (within : Within s columns) (column : Nat)
    (deep : indentOf columns < column) (number : Nat) (kind : TokenKind) (pos : Position) :
    s.indentTo column number kind pos =
      {s.insert number kind pos with indent := (column : Int), indents := levelsOf (column :: columns)} := by
  unfold indentTo
  rw [outside,if_neg Bool.false_ne_true]
  cases within with
  | inl tight =>
    cases columns with
    | nil => simp [tight.levels,tight.indent,levelsOf,deep]
    | cons innermost outer => simp [tight.levels,tight.indent,levelsOf,deep]
  | inr loose =>
    have left : s.indent ≤ column := by rw [loose.indent]; omega
    rw [loose.levels]
    simp only [left,decide_true,Bool.not_false,Bool.and_self,if_true,if_pos deep]
    rfl

theorem indentTo_stays {column : Nat} (tight : Tight s (column :: columns)) (number : Nat) (kind : TokenKind)
    (pos : Position) : s.indentTo column number kind pos = s := by
  unfold indentTo
  split
  · rfl
  · rw [tight.levels,tight.indent]
    simp [levelsOf,indentOf,tight.indent]

theorem indentPast_tight {column : Nat} (outside : s.inFlow = false) (tight : Tight s (column :: columns)) :
    s.indentPast = {s with indent := column + 1, indents := ⟨column,false⟩ :: levelsOf (column :: columns)} := by
  simp [indentPast,inBlock,tight.levels,levelsOf,outside,tight.indent,indentOf]

-- A scalar that may be a key is read, up to its colon. That it was one is
-- known at the colon only; then its token, and at the first key of a mapping
-- the token that opens the block, are put in front of it.
structure KeyRead (s t : Scan) (style : ScalarStyle) (text tail : List Char) : Prop where
  unfolded : style ≠ .folded
  tokens : t.newestFirst = ⟨.scalar style text,s.pos⟩ :: s.newestFirst
  count : t.count = s.count + 1
  possible : t.key.possible = true
  number : t.key.number = s.count
  start : t.key.pos = s.pos
  there : t.cur.rest = ':' :: tail
  line : t.pos.line = s.pos.line
  near : t.pos.offset ≤ s.pos.offset + 1024
  column : s.pos.column < t.pos.column
  brackets : t.brackets = s.brackets
  pairs : t.pairs = s.pairs
  comment : t.comment = none
  steps : t.steps = s.steps

theorem plain_key (holds : Holds s kinds) (within : Within s columns) (deep : indentOf columns ≤ s.column)
    (allowed : s.keyAllowed = true) (words : Plain.Words text) (there : s.cur.rest = text ++ ':' :: tail)
    (ends : endsWord tail.head? = true) (near : text.length ≤ 1024) :
    ∃ t, s.plain = .ok t ∧ KeyRead s t .plain text tail ∧ Tight t columns := by
  have follows := Cursor.rest_skip there
  have halts : Halts (s.cur.skip text.length).rest := by
    intro c head
    rw [follows] at head
    obtain rfl := Option.some.inj head
    decide
  have read := plain_words holds within deep words (Plain.stops_colon ends) there (s.cur.skip text.length) (.blanks [])
    (fun ctx _ => Plain.gapReader.stops _ _ halts) (.inl ⟨rfl,rfl⟩)
  have key := property_key allowed
  refine ⟨_,read,⟨nofun,rfl,rfl,?_,?_,?_,follows,rfl,?_,?_,rfl,rfl,rfl,rfl⟩,⟨rfl,rfl⟩⟩
  · exact congrArg PendingKey.possible key
  · exact congrArg PendingKey.number key
  · exact congrArg PendingKey.pos key
  · simpa [plainDone,emit,Scan.pos,Cursor.skip] using near
  · have := List.length_pos_iff.mpr words.filled
    simp only [plainDone,emit,Scan.pos,Cursor.skip]
    omega

theorem quoted_key {single : Bool} {escape : Char → List Char} (holds : Holds s kinds) (allowed : s.keyAllowed = true)
    (faithful : ∀ c ∈ text, Quoted.Faithful single escape c) (itself : escape ' ' = [' '])
    (there : s.cur.rest = inMarks single escape text ++ ':' :: tail)
    (near : (inMarks single escape text).length ≤ 1024) :
    ∃ t, s.quoted single = .ok t ∧ KeyRead s t .quoted text tail ∧ t.indent = s.indent ∧ t.indents = s.indents := by
  have follows := Cursor.rest_skip there
  have closes : Quoted.Closes (':' :: tail) := fun c head => .inr (Option.some.inj head).symm
  have content : Content (s.cur.skip (inMarks single escape text).length).rest := by
    intro c head
    rw [follows] at head
    obtain rfl := Option.some.inj head
    decide
  have read := quoted_text holds faithful itself there closes (s.cur.skip (inMarks single escape text).length) false
    (toNextToken_of_skip (skipToToken_content _ content) holds.comment)
  have key := property_key allowed
  refine ⟨_,read,⟨nofun,rfl,rfl,?_,?_,?_,follows,rfl,?_,?_,rfl,rfl,holds.comment,rfl⟩,rfl,rfl⟩
  · exact congrArg PendingKey.possible key
  · exact congrArg PendingKey.number key
  · exact congrArg PendingKey.pos key
  · simpa [quotedDone,emit,Scan.pos,Cursor.skip] using near
  · simp only [quotedDone,emit,Scan.pos,Cursor.skip,inMarks_length]
    omega

theorem KeyRead.released (read : KeyRead s t style text tail) : KeyRead s t.release style text tail :=
  {read with tokens := read.tokens}

def keyed (t : Scan) : Scan := (t.skip 1).insert t.key.number .key t.key.pos

def valued (t : Scan) (pos : Position) : Scan :=
  {t with key := {t.key with possible := false}, keyAllowed := false}.emit .value pos

theorem colon_keyed (holds : Holds s kinds) (read : KeyRead s t style text tail) (untabbed : tail.head? ≠ some '\t') :
    t.colon = .ok ((t.keyed.indentTo t.key.pos.column t.key.number .blockMappingStart t.key.pos).indentPast.valued
      t.pos) := by
  have tab : checkTab (t.skip 1) = .ok (t.skip 1) := by
    have peek : ((t.skip 1).cur.peek != some '\t') = true := by
      rw [bne_iff_ne]
      simpa [Scan.skip,Cursor.skip,Cursor.peek,read.there] using untabbed
    rw [checkTab,if_pos peek]
  have pairs : t.pairs = [] := read.pairs.trans holds.pairs
  simp only [colon,pairs,List.isEmpty_nil,Bool.not_true,Bool.false_and,if_neg Bool.false_ne_true,tab,read.possible,if_true]
  rfl

theorem keyed_tokens (read : KeyRead s t style text tail) :
    t.keyed.newestFirst = ⟨.scalar style text,s.pos⟩ :: ⟨.key,s.pos⟩ :: s.newestFirst ∧ t.keyed.count = s.count + 2 := by
  simp [keyed,insert,Scan.skip,read.tokens,read.start,read.count,read.number]

theorem KeyRead.usual (read : KeyRead s t style text tail) : usual ⟨.scalar style text,s.pos⟩ = true := by
  have unfolded := read.unfolded
  cases style with
  | folded => exact absurd rfl unfolded
  | _ => rfl

theorem Holds.valued (kinds : List TokenKind) (running : ∀ token ∈ t.newestFirst, usual token = true)
    (made : t.newestFirst.reverse.map Token.kind = kinds) (count : t.count = t.newestFirst.length)
    (brackets : t.brackets = []) (pairs : t.pairs = []) (comment : t.comment = none) (steps : t.cur.rest.length < t.steps)
    (pos : Position) : Holds (t.valued pos) (kinds ++ [.value]) := by
  refine Holds.emit ?_ .value pos rfl
  exact ⟨made,count,running,brackets,pairs,nofun,comment,steps⟩

structure ValueNext (s u : Scan) (kinds : List TokenKind) (columns : List Nat) (tail : List Char) : Prop where
  holds : Holds u kinds
  loose : Loose u columns
  there : u.cur.rest = tail
  column : s.pos.column < u.pos.column

theorem colon_opens (holds : Holds s kinds) (read : KeyRead s t style text tail) (within : Within t columns)
    (deep : indentOf columns < s.column) (untabbed : tail.head? ≠ some '\t') (shorter : tail.length < s.steps) :
    ∃ u, t.colon = .ok u ∧
      ValueNext s u (kinds ++ [.blockMappingStart,.key,.scalar style text,.value]) (s.pos.column :: columns) tail := by
  have outside : t.keyed.inFlow = false := by
    have : t.keyed.brackets = [] := read.brackets.trans holds.brackets
    simp [Scan.inFlow,this]
  obtain ⟨tokens,count⟩ := keyed_tokens read
  have opens := indentTo_opens outside (within.of_eq rfl rfl) s.pos.column deep t.key.number .blockMappingStart t.key.pos
  have start : t.key.pos.column = s.pos.column := by rw [read.start]
  let block : Scan := {t.keyed.insert t.key.number .blockMappingStart t.key.pos with
    indent := (s.pos.column : Int), indents := levelsOf (s.pos.column :: columns)}
  have past : block.indentPast = {block with
      indent := s.pos.column + 1, indents := ⟨s.pos.column,false⟩ :: levelsOf (s.pos.column :: columns)} :=
    indentPast_tight outside ⟨rfl,rfl⟩
  have rest : (t.cur.skip 1).rest = tail := by simp [Cursor.skip,read.there]
  refine ⟨_,colon_keyed holds read untabbed,?_⟩
  rw [start,opens,past]
  refine ⟨?_,⟨rfl,rfl⟩,rest,?_⟩
  · have whole : kinds ++ [.blockMappingStart,.key,.scalar style text,.value] =
        kinds ++ [.blockMappingStart,.key,.scalar style text] ++ [.value] := by simp
    rw [whole]
    refine Holds.valued _ ?_ ?_ ?_ ?_ ?_ ?_ ?_ t.pos
    · have opened : block.newestFirst = ⟨.scalar style text,s.pos⟩ :: ⟨.key,s.pos⟩ ::
          ⟨.blockMappingStart,t.key.pos⟩ :: s.newestFirst := by simp [block,insert,tokens,count,read.number]
      simp only [opened,List.forall_mem_cons]
      exact ⟨read.usual,rfl,rfl,holds.running⟩
    · simp [block,insert,tokens,count,read.number,←holds.made]
    · simp [block,insert,tokens,count,read.number,holds.count]
    · exact read.brackets.trans holds.brackets
    · exact read.pairs.trans holds.pairs
    · exact read.comment
    · have same : t.steps = s.steps := read.steps
      simp only [block,keyed,insert,Scan.skip,rest,same]
      exact shorter
  · exact Nat.lt_succ_of_lt read.column

theorem colon_stays (holds : Holds s kinds) (read : KeyRead s t style text tail)
    (tight : Tight t (s.pos.column :: columns)) (untabbed : tail.head? ≠ some '\t') (shorter : tail.length < s.steps) :
    ∃ u, t.colon = .ok u ∧
      ValueNext s u (kinds ++ [.key,.scalar style text,.value]) (s.pos.column :: columns) tail := by
  have outside : t.keyed.inFlow = false := by
    have : t.keyed.brackets = [] := read.brackets.trans holds.brackets
    simp [Scan.inFlow,this]
  obtain ⟨tokens,count⟩ := keyed_tokens read
  have keyedTight : Tight t.keyed (s.pos.column :: columns) := ⟨tight.indent,tight.levels⟩
  have stays := indentTo_stays keyedTight t.key.number .blockMappingStart t.key.pos
  have start : t.key.pos.column = s.pos.column := by rw [read.start]
  have rest : (t.cur.skip 1).rest = tail := by simp [Cursor.skip,read.there]
  refine ⟨_,colon_keyed holds read untabbed,?_⟩
  rw [start,stays,indentPast_tight outside keyedTight]
  refine ⟨?_,⟨rfl,rfl⟩,rest,Nat.lt_succ_of_lt read.column⟩
  have whole : kinds ++ [.key,.scalar style text,.value] = kinds ++ [.key,.scalar style text] ++ [.value] := by simp
  rw [whole]
  refine Holds.valued _ ?_ ?_ ?_ ?_ ?_ ?_ ?_ t.pos
  · simp only [tokens,List.forall_mem_cons]
    exact ⟨read.usual,rfl,holds.running⟩
  · simp [tokens,←holds.made]
  · simp [tokens,count,holds.count]
  · exact read.brackets.trans holds.brackets
  · exact read.pairs.trans holds.pairs
  · exact read.comment
  · have same : t.steps = s.steps := read.steps
    simp only [keyed,insert,Scan.skip,rest,same]
    exact shorter

theorem steps_to_colon (turned : s.turn = .ok t) (read : KeyRead s t style text tail) (uncut : t.indent ≤ s.column)
    (shorter : t.cur.rest.length < s.cur.rest.length) (ends : endsWord tail.head? = true) :
    Steps s t.release ∧ t.release.turn = t.release.colon := by
  have content : Content t.cur.rest := by
    intro c head
    rw [read.there] at head
    obtain rfl := Option.some.inj head
    decide
  have same : t.release.pos = t.pos := rfl
  have settled : t.settle = .ok t.release := by
    refine settle_fresh ?_ ?_ read.comment content
    · rw [read.line,read.start]
    · rw [read.start]; exact read.near
  have deeper := read.column
  have level : t.release.indent ≤ t.release.column := by
    have : t.release.indent = t.indent := rfl
    have : t.release.column = (t.pos.column : Int) := rfl
    have : s.column = (s.pos.column : Int) := rfl
    omega
  have there : t.release.cur.rest = ':' :: tail := read.there
  have landed : t.release.land = t.release := by
    rw [land_content (by rw [there]; exact List.cons_ne_nil _ _),dedent_of_le _ level]
  refine ⟨.one turned shorter ?_ settled (Nat.le_refl _) landed,?_⟩
  · simp [done,read.tokens]
  · rw [turn_content there level]
    · simp [dispatch,ends]
    · intro zero
      rw [same] at zero
      omega

theorem value_along {u : Scan} (steps : Steps s t) (turned : t.turn = .ok u)
    (next : ValueNext s u kinds (s.pos.column :: columns) (' ' :: rest))
    (shorter : u.cur.rest.length < t.cur.rest.length) (content : Content rest) (filled : rest ≠ []) :
    ∃ v, Before s v kinds (s.pos.column :: columns) rest := by
  obtain ⟨v,there,moved,cur,_⟩ := settle_along next.holds 1 next.there content
  have length := congrArg List.length next.there
  have place : v.cur.rest = rest := by rw [cur]; simp [Cursor.skip,next.there]
  have less : v.cur.rest.length ≤ u.cur.rest.length := by rw [place,length]; exact Nat.le_succ _
  have within : Within v (s.pos.column :: columns) := Within.moved (.inr next.loose) moved
  have deep : indentOf (s.pos.column :: columns) < v.column := by
    have := next.column
    simp only [indentOf,Scan.column,cur,Cursor.skip,Cursor.column]
    simp only [Scan.pos] at this ⊢
    omega
  have landed : v.land = v := by
    rw [land_content (by rw [place]; exact filled),dedent_of_le _ (within.indent_le deep)]
  exact ⟨v,steps.trans (.one turned shorter next.holds.done there less landed),
    next.holds.moved moved less,within,place,deep⟩

theorem value_line {u : Scan} (steps : Steps s t) (turned : t.turn = .ok u) (column : Nat)
    (next : ValueNext s u kinds (s.pos.column :: columns) ('\n' :: (spaces column ++ rest)))
    (shorter : u.cur.rest.length < t.cur.rest.length) (content : Content rest) (filled : rest ≠ [])
    (deeper : s.pos.column < column) :
    ∃ v, Before s v kinds (s.pos.column :: columns) rest ∧ v.pos.column = column ∧ v.keyAllowed = true := by
  obtain ⟨v,there,moved,cur,allowed⟩ := settle_line next.holds column next.there content
  have length := congrArg List.length next.there
  have place : v.cur.rest = rest := by rw [cur]; rfl
  have less : v.cur.rest.length ≤ u.cur.rest.length := by
    rw [place,length]
    simp only [List.length_cons,List.length_append]
    omega
  have within : Within v (s.pos.column :: columns) := Within.moved (.inr next.loose) moved
  have at_ : v.pos.column = column := by rw [Scan.pos,cur]; rfl
  have deep : indentOf (s.pos.column :: columns) < v.column := by
    have : v.column = (v.pos.column : Int) := rfl
    simp only [indentOf]
    omega
  have landed : v.land = v := by
    rw [land_content (by rw [place]; exact filled),dedent_of_le _ (within.indent_le deep)]
  exact ⟨v,⟨steps.trans (.one turned shorter next.holds.done there less landed),
    next.holds.moved moved less,within,place,deep⟩,at_,allowed⟩

end

section

variable {s t : Scan} {kinds : List TokenKind} {columns : List Nat} {rest : List Char}

theorem misplacedProperty_none (holds : Holds s kinds) : s.misplacedProperty = none := by
  unfold misplacedProperty
  cases newest : s.newestFirst with
  | nil => rfl
  | cons token older =>
    have plain := holds.running token (newest ▸ List.mem_cons_self)
    obtain ⟨kind,pos⟩ := token
    cases kind <;> first | rfl | exact absurd plain (by simp [usual])

theorem dropKey_free (free : s.key.possible = true → s.key.required = false) :
    s.dropKey = .ok {s with key := {s.key with possible := false}} := by
  have owed : (s.key.possible && s.key.required) = false := by
    cases possible : s.key.possible with
    | false => rfl
    | true => rw [free possible]; rfl
  rw [dropKey,owed]
  rfl

theorem skipBlanks_one {cur : Cursor} (there : cur.rest = ' ' :: rest) (content : Content rest) :
    cur.skipBlanks true = .ok ⟨cur.skip 1,true,false⟩ := by
  have run : (rest.takeWhile fun c => c == ' ' || (true && c == '\t')) = [] := by
    cases rest with
    | nil => rfl
    | cons c later =>
      have blank := (content c rfl).1
      simp only [isBlank,Bool.or_eq_false_iff] at blank
      simp [blank]
  have comment : ((cur.skip 1).peek == some '#') = false := by
    have after : (cur.skip 1).rest = rest := by simp [Cursor.skip,there]
    rw [Cursor.peek,after]
    exact beq_eq_false_iff_ne.mpr fun same => (content '#' same).2.2 rfl
  unfold Cursor.skipBlanks
  rw [there,List.takeWhile_cons_of_pos (by rfl),run]
  simp only [List.length_singleton,comment]
  rfl

-- A bracket right behind a dash stands in a level of its own.
theorem lead_level (holds : Holds s kinds) (tight : Tight s columns) (deeper : Bool) :
    ∃ v, (if deeper then s.indentPast else s) = v ∧ Holds v kinds ∧ Within v columns ∧ v.cur = s.cur := by
  cases deeper with
  | false => exact ⟨s,rfl,holds,.inl tight,rfl⟩
  | true =>
    obtain ⟨indent,levels,step,within⟩ := indentPast_within (.inl tight) holds.inFlow
    rw [step] at within
    exact ⟨_,step,{holds with made := holds.made},within,rfl⟩

theorem dash_read (holds : Holds s kinds) (allowed : s.keyAllowed = true) (there : s.cur.rest = '-' :: ' ' :: rest)
    (content : Content rest) {column : Nat} {entered : Scan} {more : List TokenKind}
    (enters : (s.skip 1).indentTo s.pos.column s.count .blockSequenceStart s.pos = entered)
    (inside : Holds entered more) (tight : Tight entered (column :: columns)) (cur : entered.cur = s.cur.skip 1) :
    ∃ u, s.dash = .ok u ∧ Holds u (more ++ [.blockEntry]) ∧ Within u (column :: columns) ∧ u.cur = s.cur.skip 2 ∧
      u.keyAllowed = true := by
  have blank : (s.cur.skip 1).rest = ' ' :: rest := by simp [Cursor.skip,there]
  have twice : (s.cur.skip 1).skip 1 = s.cur.skip 2 := Cursor.skip_skip _ _ _
  have blanks : entered.skipBlanks true = .ok ({entered with cur := s.cur.skip 2},⟨s.cur.skip 2,true,false⟩) := by
    simp only [Scan.skipBlanks,cur,skipBlanks_one blank content,twice]
  have moved : Holds {entered with cur := s.cur.skip 2} more := by
    refine inside.at_ _ ?_
    rw [cur,←twice,blank,Cursor.skip,blank]
    exact Nat.le_succ _
  have still : Tight {entered with cur := s.cur.skip 2} (column :: columns) := ⟨tight.indent,tight.levels⟩
  obtain ⟨v,chosen,vHolds,vWithin,vCur⟩ := lead_level moved still ((s.cur.skip 2).atBreak || flowNext (s.cur.skip 2).peek)
  refine ⟨emit (allowKey {v with key := {v.key with possible := false}} true) .blockEntry v.pos,?_,?_,vWithin.of_eq rfl rfl,
    vCur,rfl⟩
  · rw [dash,holds.inFlow,if_neg Bool.false_ne_true,allowed,if_neg (by decide),misplacedProperty_none holds]
    dsimp only
    rw [enters,blanks]
    simp only [Bool.false_and,if_neg Bool.false_ne_true]
    rw [chosen,dropKey_free vHolds.free]
    rfl
  · refine Holds.emit ?_ _ _ rfl
    exact {vHolds with made := vHolds.made, free := fun possible => absurd possible Bool.false_ne_true}

theorem dash_opens (holds : Holds s kinds) (within : Within s columns) (deep : indentOf columns < s.column)
    (allowed : s.keyAllowed = true) (there : s.cur.rest = '-' :: ' ' :: rest) (content : Content rest) :
    ∃ u, s.dash = .ok u ∧ Holds u (kinds ++ [.blockSequenceStart,.blockEntry]) ∧
      Within u (s.pos.column :: columns) ∧ u.cur = s.cur.skip 2 ∧ u.keyAllowed = true := by
  have opens := indentTo_opens (s := s.skip 1) holds.inFlow (within.of_eq rfl rfl) s.pos.column deep s.count
    .blockSequenceStart s.pos
  have last : (s.skip 1).insert s.count .blockSequenceStart s.pos = (s.skip 1).emit .blockSequenceStart s.pos :=
    insert_last (s.skip 1) _ _
  rw [last] at opens
  have made : Holds ((s.skip 1).emit .blockSequenceStart s.pos) (kinds ++ [.blockSequenceStart]) :=
    (holds.skip 1).emit _ _ rfl
  obtain ⟨u,read,uHolds,others⟩ := dash_read holds allowed there content opens
    {made with made := made.made} ⟨rfl,rfl⟩ rfl
  rw [List.append_assoc] at uHolds
  exact ⟨u,read,uHolds,others⟩

theorem dash_stays (holds : Holds s kinds) (tight : Tight s (s.pos.column :: columns)) (allowed : s.keyAllowed = true)
    (there : s.cur.rest = '-' :: ' ' :: rest) (content : Content rest) :
    ∃ u, s.dash = .ok u ∧ Holds u (kinds ++ [.blockEntry]) ∧ Within u (s.pos.column :: columns) ∧
      u.cur = s.cur.skip 2 ∧ u.keyAllowed = true := by
  have same : Tight (s.skip 1) (s.pos.column :: columns) := ⟨tight.indent,tight.levels⟩
  exact dash_read holds allowed there content (indentTo_stays same _ _ _) (holds.skip 1) same rfl

theorem item_next {u : Scan} (there : s.cur.rest = '-' :: ' ' :: rest) (content : Content rest) (filled : rest ≠ [])
    (deep : s.indent ≤ s.column) (read : s.dash = .ok u) (holds : Holds u kinds)
    (within : Within u (s.pos.column :: columns)) (cur : u.cur = s.cur.skip 2) (allowed : u.keyAllowed = true) :
    ∃ v, Before s v kinds (s.pos.column :: columns) rest ∧ v.pos.column = s.pos.column + 2 ∧ v.keyAllowed = true := by
  have turned : s.turn = .ok u := by
    rw [turn_content there deep]
    · exact read
    · exact fun _ => ⟨by decide,rfl⟩
  have place : u.cur.rest = rest := by rw [cur]; simp [Cursor.skip,there]
  obtain ⟨v,settled,moved,vCur,same⟩ := settle_along holds 0 place content
  have vPlace : v.cur.rest = rest := by rw [vCur,Cursor.skip_zero,place]
  have vColumn : v.pos.column = s.pos.column + 2 := by rw [Scan.pos,vCur,cur]; rfl
  have vWithin := within.moved moved
  have vDeep : indentOf (s.pos.column :: columns) < v.column := by
    have : v.column = (v.pos.column : Int) := rfl
    simp only [indentOf]
    omega
  have landed : v.land = v := by
    rw [land_content (by rw [vPlace]; exact filled),dedent_of_le _ (vWithin.indent_le vDeep)]
  have less : v.cur.rest.length ≤ u.cur.rest.length := Nat.le_of_eq (by rw [vPlace,place])
  have shorter : u.cur.rest.length < s.cur.rest.length := by
    rw [place,there]
    exact Nat.lt_succ_of_lt (Nat.lt_succ_self _)
  exact ⟨v,⟨.one turned shorter holds.done settled less landed,holds.moved moved less,vWithin,vPlace,vDeep⟩,vColumn,
    same.trans allowed⟩

end

end AutomationLint.Yaml.Scan
