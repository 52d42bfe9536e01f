import AutomationLint.Yaml.Tokens

namespace AutomationLint.Yaml.Scan

section

-- The columns of open blocks, innermost first, and the indentation they make.
def indentOf : List Nat → Int
  | [] => -1
  | innermost :: _ => innermost

def levelsOf : List Nat → List Indent
  | [] => []
  | _ :: outer => ⟨indentOf outer,true⟩ :: levelsOf outer

structure Tight (s : Scan) (columns : List Nat) : Prop where
  indent : s.indent = indentOf columns
  levels : s.indents = levelsOf columns

structure Loose (s : Scan) (columns : List Nat) : Prop where
  indent : s.indent = indentOf columns + 1
  levels : s.indents = ⟨indentOf columns,false⟩ :: levelsOf columns

def Within (s : Scan) (columns : List Nat) : Prop := Tight s columns ∨ Loose s columns

def tightened (s : Scan) (columns : List Nat) : Scan := {s with indent := indentOf columns, indents := levelsOf columns}

-- The tokens of a written tree have no properties, the end of the text is not
-- among them, and folded lines are indented.
def usual (token : Token) : Bool :=
  match token.kind with
  | .streamEnd | .anchor _ | .tag _ _ => false
  | .scalar .folded _ => token.pos.column != 0
  | _ => true

-- A state between tokens: these kinds of tokens are made, no bracket is open,
-- and no key is owed.
structure Holds (s : Scan) (kinds : List TokenKind) : Prop where
  made : s.newestFirst.reverse.map Token.kind = kinds
  count : s.count = s.newestFirst.length
  running : ∀ token ∈ s.newestFirst, usual token = true
  brackets : s.brackets = []
  pairs : s.pairs = []
  free : s.key.possible = true → s.key.required = false
  comment : s.comment = none
  steps : s.cur.rest.length < s.steps

variable {s : Scan} {kinds : List TokenKind} {columns : List Nat}

theorem Within.of_eq {t : Scan} (within : Within s columns) (indent : t.indent = s.indent)
    (levels : t.indents = s.indents) : Within t columns :=
  within.imp (fun tight => ⟨indent.trans tight.indent,levels.trans tight.levels⟩)
    fun loose => ⟨indent.trans loose.indent,levels.trans loose.levels⟩

theorem Within.indent_le {column : Int} (within : Within s columns) (deep : indentOf columns < column) :
    s.indent ≤ column := by
  cases within with
  | inl tight => rw [tight.indent]; omega
  | inr loose => rw [loose.indent]; omega

namespace Holds

theorem inFlow (holds : Holds s kinds) : s.inFlow = false := by
  simp [Scan.inFlow,holds.brackets]

theorem done (holds : Holds s kinds) : s.done = false := by
  unfold Scan.done
  cases newest : s.newestFirst with
  | nil => rfl
  | cons token older =>
    have other := holds.running token (newest ▸ List.mem_cons_self)
    simp only [List.head?_cons,Option.map_some,Option.getD_some,beq_eq_false_iff_ne]
    intro same
    rw [usual,same] at other
    exact absurd other Bool.false_ne_true

theorem emit (holds : Holds s kinds) (kind : TokenKind) (pos : Position) (more : usual ⟨kind,pos⟩ = true) :
    Holds (s.emit kind pos) (kinds ++ [kind]) := by
  refine {holds with made := ?_, count := ?_, running := ?_}
  · simp [Scan.emit,←holds.made]
  · simp [Scan.emit,holds.count]
  · exact List.forall_mem_cons.mpr ⟨more,holds.running⟩

theorem at_ (holds : Holds s kinds) (cur : Cursor) (shorter : cur.rest.length ≤ s.cur.rest.length) :
    Holds {s with cur := cur} kinds :=
  {holds with steps := Nat.lt_of_le_of_lt shorter holds.steps}

theorem tightened (holds : Holds s kinds) (columns : List Nat) : Holds (s.tightened columns) kinds :=
  {holds with made := holds.made}

theorem skip (holds : Holds s kinds) (n : Nat) : Holds (s.skip n) kinds := by
  refine {holds with steps := ?_}
  have := holds.steps
  simp only [Scan.skip,Cursor.skip,List.length_drop]
  omega

end Holds

theorem dedentThrough_of_le (column : Int) (levels : List Indent) (above : s.indent ≤ column) :
    dedentThrough column levels s = s := by
  cases levels with
  | nil => rfl
  | cons top outer =>
    rw [dedentThrough,if_neg (by omega)]

theorem dedentThrough_twice (deeper column : Int) (below : column ≤ deeper) (levels : List Indent) (s : Scan)
    (own : s.indents = levels) :
    dedentThrough column (dedentThrough deeper levels s).indents (dedentThrough deeper levels s) =
      dedentThrough column levels s := by
  induction levels generalizing s with
  | nil => rw [dedentThrough,own]
  | cons top outer ih =>
    by_cases left : deeper < s.indent
    · rw [dedentThrough,if_pos left]
      conv => rhs; rw [dedentThrough,if_pos (by omega)]
      refine ih _ ?_
      cases top.block <;> rfl
    · rw [dedentThrough,if_neg left,own]

theorem dedentThrough_keeps (column : Int) (levels : List Indent) (s : Scan) :
    ∃ newestFirst count indent indents, dedentThrough column levels s =
      {s with newestFirst := newestFirst, count := count, indent := indent, indents := indents} := by
  induction levels generalizing s with
  | nil => exact ⟨_,_,_,_,rfl⟩
  | cons top outer ih =>
    rw [dedentThrough]
    split
    · obtain ⟨newestFirst,count,indent,indents,same⟩ := ih (if top.block then
        {s with indent := top.outer, indents := outer}.emit .blockEnd s.pos
        else {s with indent := top.outer, indents := outer})
      refine ⟨newestFirst,count,indent,indents,same.trans ?_⟩
      cases top.block <;> rfl
    · exact ⟨_,_,_,_,rfl⟩

theorem dedent_usual (s : Scan) (column : Int) : (∀ token ∈ (s.dedent column).newestFirst, usual token = true) ↔
    ∀ token ∈ s.newestFirst, usual token = true := by
  suffices through : ∀ levels (s : Scan), (∀ token ∈ (dedentThrough column levels s).newestFirst, usual token = true) ↔
      ∀ token ∈ s.newestFirst, usual token = true by
    unfold dedent
    split
    · rfl
    · exact through _ _
  intro levels
  induction levels with
  | nil => exact fun _ => Iff.rfl
  | cons top outer ih =>
    intro s
    rw [dedentThrough]
    split
    · refine (ih _).trans ?_
      cases top.block with
      | false => rfl
      | true => exact List.forall_mem_cons.trans (and_iff_right rfl)
    · rfl

theorem dedent_keeps (s : Scan) (column : Int) :
    ∃ newestFirst count indent indents, s.dedent column =
      {s with newestFirst := newestFirst, count := count, indent := indent, indents := indents} := by
  unfold dedent
  split
  · exact ⟨_,_,_,_,rfl⟩
  · exact dedentThrough_keeps column s.indents s

@[simp] theorem dedent_cur (s : Scan) (column : Int) : (s.dedent column).cur = s.cur := by
  obtain ⟨_,_,_,_,same⟩ := dedent_keeps s column
  rw [same]

@[simp] theorem dedent_keyAllowed (s : Scan) (column : Int) : (s.dedent column).keyAllowed = s.keyAllowed := by
  obtain ⟨_,_,_,_,same⟩ := dedent_keeps s column
  rw [same]

@[simp] theorem dedent_inFlow (s : Scan) (column : Int) : (s.dedent column).inFlow = s.inFlow := by
  obtain ⟨_,_,_,_,same⟩ := dedent_keeps s column
  rw [same]
  rfl

theorem dedent_twice (deeper column : Int) (below : column ≤ deeper) :
    (s.dedent deeper).dedent column = s.dedent column := by
  have same := dedent_inFlow s deeper
  rw [dedent,same]
  by_cases inside : s.inFlow = true
  · simp [dedent,inside]
  · rw [if_neg inside,dedent,dedent,if_neg inside,if_neg inside]
    exact dedentThrough_twice deeper column below s.indents s rfl

theorem dedent_of_le (column : Int) (above : s.indent ≤ column) : s.dedent column = s := by
  unfold dedent
  split
  · rfl
  · exact dedentThrough_of_le _ _ above

theorem tightened_tight (s : Scan) (columns : List Nat) : Tight (s.tightened columns) columns := ⟨rfl,rfl⟩

theorem tightened_of_tight (tight : Tight s columns) : s.tightened columns = s := by
  rw [tightened,←tight.indent,←tight.levels]

theorem dedent_block {column : Nat} (holds : Holds s kinds) (tight : Tight s (column :: columns))
    (deeper : indentOf columns < column) :
    Holds (s.dedent (indentOf columns)) (kinds ++ [.blockEnd]) ∧ Tight (s.dedent (indentOf columns)) columns := by
  have step : s.dedent (indentOf columns) = (s.tightened columns).emit .blockEnd s.pos := by
    have left : indentOf columns < s.indent := by rw [tight.indent]; exact deeper
    rw [dedent,holds.inFlow,if_neg Bool.false_ne_true,tight.levels,levelsOf,dedentThrough,if_pos left]
    exact dedentThrough_of_le _ _ (Int.le_refl _)
  rw [step]
  exact ⟨(holds.tightened columns).emit .blockEnd s.pos rfl,⟨rfl,rfl⟩⟩

theorem dedent_within (outside : s.inFlow = false) (within : Within s columns) :
    s.dedent (indentOf columns) = s.tightened columns := by
  cases within with
  | inl tight => rw [dedent_of_le _ (Int.le_of_eq tight.indent),tightened_of_tight tight]
  | inr loose =>
    have left : indentOf columns < s.indent := by rw [loose.indent]; omega
    rw [dedent,outside,if_neg Bool.false_ne_true,loose.levels,dedentThrough,if_pos left]
    exact dedentThrough_of_le _ _ (Int.le_refl _)

theorem leaveNonBlock_within (within : Within s columns) : s.leaveNonBlock = s.tightened columns := by
  have still : ∀ s : Scan, Tight s columns → leaveThrough s.indents s = s := by
    intro s tight
    cases columns with
    | nil => rw [tight.levels,levelsOf,leaveThrough]
    | cons column outer => rw [tight.levels,levelsOf,leaveThrough,if_pos rfl]
  cases within with
  | inl tight => rw [leaveNonBlock,still s tight,tightened_of_tight tight]
  | inr loose =>
    rw [leaveNonBlock,loose.levels,leaveThrough,if_neg Bool.false_ne_true]
    exact still (s.tightened columns) (tightened_tight s columns)

end

def settle (s : Scan) : Except Fault Scan :=
  match s.expireKey with
  | .error f => .error f
  | .ok s =>
    match s.release.toNextToken with
    | .error f => .error f
    | .ok s => s.expireKey

def landing (s : Scan) : Int := if s.cur.rest = [] then -1 else s.column

def land (s : Scan) : Scan := s.dedent s.landing

def turn (s : Scan) : Except Fault Scan :=
  match s.cur.rest with
  | [] => s.finish
  | c :: rest =>
    if s.pos.column = 0 && c == '%' then s.directive
    else if s.cur.atDocumentMarker then s.marker
    else if s.misindented c then s.fail .indentation
    else s.dispatch c rest.head?

-- Both states stand before a token, or the second one at the end.
inductive Steps : Scan → Scan → Prop where
  | refl (s : Scan) : Steps s s
  | turned {s next settled t : Scan} (turned : s.turn = .ok next) (shorter : next.cur.rest.length < s.cur.rest.length)
      (running : next.done = false) (there : next.settle = .ok settled)
      (onward : settled.cur.rest.length ≤ next.cur.rest.length) (more : Steps settled.land t) : Steps s t

theorem Steps.trans {s t u : Scan} (first : Steps s t) (second : Steps t u) : Steps s u := by
  induction first with
  | refl => exact second
  | turned turned shorter running there onward _ ih => exact .turned turned shorter running there onward (ih second)

theorem Steps.one {s next settled t : Scan} (turned : s.turn = .ok next)
    (shorter : next.cur.rest.length < s.cur.rest.length) (running : next.done = false)
    (there : next.settle = .ok settled) (onward : settled.cur.rest.length ≤ next.cur.rest.length)
    (landed : settled.land = t) : Steps s t := by
  subst landed
  exact .turned turned shorter running there onward (.refl _)

theorem step_settled {s settled : Scan} (there : s.settle = .ok settled) :
    ∃ unexpired, s.expireKey = .ok unexpired ∧ unexpired.release.step = (settled.dedent settled.column).turn := by
  unfold settle at there
  cases expired : s.expireKey with
  | error f => simp [expired] at there
  | ok unexpired =>
    refine ⟨unexpired,rfl,?_⟩
    simp only [expired] at there
    cases next : unexpired.release.toNextToken with
    | error f => simp [next] at there
    | ok t =>
      simp only [next] at there
      simp only [step,next,there]
      rfl

theorem scan_turn {s settled next : Scan} (fuel : Nat) (running : s.done = false) (there : s.settle = .ok settled)
    (turned : (settled.dedent settled.column).turn = .ok next) : Tokens.scan (fuel + 1) s = Tokens.scan fuel next := by
  obtain ⟨unexpired,expired,stepped⟩ := step_settled there
  rw [Tokens.scan,running,if_neg Bool.false_ne_true]
  simp only [expired,stepped,turned]

theorem land_content {s : Scan} (content : s.cur.rest ≠ []) : s.land = s.dedent s.column := by
  rw [land,landing,if_neg content]

theorem scan_steps {s last : Scan} (steps : Steps s last) (before settled : Scan) (running : before.done = false)
    (there : before.settle = .ok settled) (start : settled.land = s)
    (onward : settled.cur.rest.length ≤ before.cur.rest.length) (fuel : Nat) (enough : before.cur.rest.length + 2 ≤ fuel) :
    ∃ final end_ left, Tokens.scan fuel before = Tokens.scan left final ∧ final.done = false ∧
      final.settle = .ok end_ ∧ end_.land = last ∧ 2 ≤ left := by
  induction steps generalizing before settled fuel with
  | refl s => exact ⟨before,settled,fuel,rfl,running,there,start,by omega⟩
  | turned turned shorter nextRunning nextThere nextOnward _ ih =>
    subst start
    have same : settled.land.cur = settled.cur := dedent_cur _ _
    have content : settled.cur.rest ≠ [] := by
      intro none
      rw [same,none] at shorter
      exact Nat.not_lt_zero _ shorter
    obtain ⟨left,rfl⟩ : ∃ left, fuel = left + 1 := ⟨fuel - 1,by omega⟩
    rw [land_content content] at turned
    rw [scan_turn left running there turned]
    refine ih _ _ nextRunning nextThere rfl nextOnward left ?_
    rw [same] at shorter
    omega

theorem kinds_moved (s : Scan) (column : Int) (cur : Cursor) :
    ({s with cur := cur}.dedent column).newestFirst.map Token.kind = (s.dedent column).newestFirst.map Token.kind := by
  suffices general : ∀ levels (s t : Scan), s.newestFirst.map Token.kind = t.newestFirst.map Token.kind →
      s.indent = t.indent → (dedentThrough column levels s).newestFirst.map Token.kind =
        (dedentThrough column levels t).newestFirst.map Token.kind by
    unfold dedent
    have same : ({s with cur := cur} : Scan).inFlow = s.inFlow := rfl
    rw [same]
    split
    · rfl
    · exact general _ _ _ rfl rfl
  intro levels
  induction levels with
  | nil =>
    intro s t kinds _
    exact kinds
  | cons top outer ih =>
    intro s t kinds indent
    rw [dedentThrough,dedentThrough,indent]
    split
    · refine ih _ _ ?_ ?_
      · cases top.block
        · exact kinds
        · exact congrArg (_ :: ·) kinds
      · cases top.block <;> rfl
    · exact kinds

theorem endBlocks_free {s : Scan} (none : s.brackets = []) (free : s.key.possible = true → s.key.required = false) :
    s.endBlocks = .ok {s.dedent (-1) with key := .none, keyAllowed := false} := by
  have owed : (s.key.possible && s.key.required) = false := by
    cases possible : s.key.possible with
    | false => rfl
    | true => rw [free possible]; rfl
  have brackets : s.brackets.head? = Option.none := by rw [none]; rfl
  unfold endBlocks
  rw [brackets]
  simp only [owed]
  rfl

theorem finish_kinds {s : Scan} (none : s.brackets = []) (free : s.key.possible = true → s.key.required = false) :
    ∃ t, s.finish = .ok t ∧ t.done = true ∧ t.newestFirst.reverse.map Token.kind =
        (s.dedent (-1)).newestFirst.reverse.map Token.kind ++ [.streamEnd] ∧
      ((∀ token ∈ s.newestFirst, usual token = true) → ∀ token ∈ t.newestFirst.tail, usual token = true) := by
  have closed (cur : Cursor) := endBlocks_free (s := {s with cur := cur}) none free
  unfold finish
  dsimp only
  rw [closed]
  refine ⟨_,rfl,rfl,?_,?_⟩
  · simp only [emit,List.reverse_cons,List.map_append,List.map_cons,List.map_nil,List.map_reverse]
    rw [kinds_moved]
  · intro running
    exact (dedent_usual {s with cur := _} (-1)).mpr running

theorem scan_end {final end_ : Scan} {kinds : List TokenKind} (running : final.done = false)
    (there : final.settle = .ok end_) (nothing : end_.cur.rest = []) (holds : Holds end_.land kinds) (fuel : Nat)
    (enough : 2 ≤ fuel) :
    ∃ tokens, Tokens.scan fuel final = ⟨tokens,none⟩ ∧ tokens.map Token.kind = kinds ++ [.streamEnd] ∧
      ∀ token ∈ tokens.dropLast, usual token = true := by
  obtain ⟨left,rfl⟩ : ∃ left, fuel = left + 2 := ⟨fuel - 2,by omega⟩
  have landed : end_.land = end_.dedent (-1) := by rw [land,landing,if_pos nothing]
  rw [landed] at holds
  have fresh : (end_.dedent end_.column).brackets = [] ∧
      ((end_.dedent end_.column).key.possible = true → (end_.dedent end_.column).key.required = false) := by
    have none := holds.brackets
    have free := holds.free
    obtain ⟨_,_,_,_,out⟩ := dedent_keeps end_ (-1)
    obtain ⟨_,_,_,_,same⟩ := dedent_keeps end_ end_.column
    rw [out] at none free
    rw [same]
    exact ⟨none,free⟩
  obtain ⟨t,finished,last,made,usual⟩ := finish_kinds fresh.1 fresh.2
  have turned : (end_.dedent end_.column).turn = .ok t := by
    have rest : (end_.dedent end_.column).cur.rest = [] := by rw [dedent_cur,nothing]
    rw [turn,rest]
    exact finished
  rw [scan_turn (left + 1) running there turned,Tokens.scan,if_pos last]
  refine ⟨_,rfl,?_,?_⟩
  · have out : (-1 : Int) ≤ end_.column := by simp only [column]; omega
    rw [made,dedent_twice _ _ out,holds.made]
  · intro token member
    refine usual ?_ token ?_
    · exact (dedent_usual end_ end_.column).mpr ((dedent_usual end_ (-1)).mp holds.running)
    · rw [List.dropLast_reverse] at member
      exact List.mem_reverse.mp member

end AutomationLint.Yaml.Scan
