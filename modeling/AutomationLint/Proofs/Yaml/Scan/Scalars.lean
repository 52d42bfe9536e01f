import AutomationLint.Proofs.Yaml.Scalar.Plain
import AutomationLint.Proofs.Yaml.Scalar.Quoted
import AutomationLint.Proofs.Yaml.Scan.Blanks

namespace AutomationLint.Yaml.Scan
open Writer

section

variable {s : Scan} {kinds : List TokenKind} {columns : List Nat} {text rest tail : List Char} {column : Int}

theorem property_eq (s : Scan) : s.property = {s with key := s.property.key, keyAllowed := false} := by
  unfold Scan.property noteKey
  split <;> rfl

theorem property_key (allowed : s.keyAllowed = true) :
    s.property.key = ⟨true,!s.inFlow && s.indent == s.column && s.inBlock,s.count,s.pos⟩ := by
  rw [Scan.property,noteKey,if_pos allowed]
  rfl

-- Deeper than its block nothing is bound to be a key.
theorem property_free (holds : Holds s kinds) (within : Within s columns) (deep : indentOf columns < s.column) :
    s.property.key.possible = true → s.property.key.required = false := by
  cases allowed : s.keyAllowed with
  | true =>
    intro _
    rw [property_key allowed]
    cases within with
    | inl tight =>
      have other : (s.indent == s.column) = false := beq_eq_false_iff_ne.mpr (by rw [tight.indent]; omega)
      simp [other]
    | inr loose => simp [inBlock,loose.levels]
  | false =>
    have same : s.property.key = s.key := by
      rw [Scan.property,noteKey,if_neg (by simp [allowed])]
      rfl
    rw [same]
    exact holds.free

def plainDone (s : Scan) (columns : List Nat) (text : List Char) (after : Cursor) (broken : Bool) : Scan :=
  emit {s with
    key := s.property.key, indent := indentOf columns, indents := levelsOf columns
    cur := after, lineStart := broken, keyAllowed := broken, comment := none} (.scalar .plain text) s.pos

theorem plain_words (holds : Holds s kinds) (within : Within s columns) (deep : indentOf columns ≤ s.column)
    (words : Plain.Words text) (stops : Plain.Stops tail) (there : s.cur.rest = text ++ tail) (after : Cursor)
    (gap : Plain.Gap) (beyond : ∀ ctx : Plain.Context, ctx.steps = s.steps →
      Plain.skipGap ctx s.steps (s.cur.skip text.length) (.blanks []) = .ok (after,gap))
    (ends : (after.pos = (s.cur.skip text.length).pos ∧ gap = .blanks []) ∨ (after.column : Int) ≤ indentOf columns) :
    s.plain = .ok (s.plainDone columns text after gap.isBroken) := by
  let ctx : Plain.Context := ⟨s.steps,false,indentOf columns + 1,s.pos⟩
  have read : Plain.scan ctx s.steps s.cur [] (.blanks []) = .ok ⟨after,text.reverse ++ ([] ++ []),gap.isBroken,none⟩ := by
    refine Plain.scan_words s.steps rfl words stops there ?_ holds.steps ?_ after gap (beyond ctx rfl) ?_ [] []
    · simp only [ctx]
      simp only [Scan.column] at deep
      omega
    · have := holds.steps
      rw [there,List.length_append] at this
      omega
    · exact ends.imp id fun less => by simp only [ctx]; omega
  have tight : s.property.leaveNonBlock = tightened {s with key := s.property.key, keyAllowed := false} columns := by
    rw [property_eq]
    exact leaveNonBlock_within (within.of_eq rfl rfl)
  have outside : (tightened {s with key := s.property.key, keyAllowed := false} columns).inFlow = false := holds.inFlow
  have filled : text.reverse.isEmpty = false := by simp [words.filled]
  unfold plain
  dsimp only
  rw [tight,outside,Bool.false_and,if_neg Bool.false_ne_true]
  have same : Plain.scan ⟨s.steps,false,indentOf columns + 1,s.pos⟩ s.steps s.cur [] (.blanks []) = _ := read
  dsimp only [tightened]
  rw [same]
  simp only [List.append_nil,filled,if_neg Bool.false_ne_true,List.reverse_reverse,Bool.false_or]
  rfl

-- A text that does not start like something else is read as a plain scalar.
theorem dispatch_plain {c : Char} {more : List Char} (start : badStart (c :: more) = false) :
    s.dispatch c (more ++ tail).head? = s.plain := by
  simp only [badStart,Bool.or_eq_false_iff] at start
  obtain ⟨⟨_,indicator⟩,lone⟩ := start
  have word : (c == '-' || c == '?') = true → endsWord (more ++ tail).head? = false := by
    intro dash
    rw [dash,Bool.true_and] at lone
    cases more with
    | nil => exact absurd lone (by decide)
    | cons d more =>
      simp only [List.head?_cons,Option.map_some,Option.getD_some,isAsciiSpace] at lone
      simp_all [endsWord,isBlank,isBreak]
  unfold dispatch
  split
  all_goals first
    | rfl
    | exact absurd indicator (by decide)
    | (rw [word (by decide),if_neg Bool.false_ne_true])

theorem plain_turn (filled : text ≠ []) (start : badStart text = false) (there : s.cur.rest = text ++ tail)
    (level : s.indent ≤ s.column) (unmarked : s.pos.column = 0 → isDocumentMarker s.cur.rest = false) :
    s.turn = s.plain := by
  obtain ⟨c,more,rfl⟩ := List.exists_cons_of_ne_nil filled
  have first : s.cur.rest = c :: (more ++ tail) := there
  rw [turn_content first level,dispatch_plain start]
  intro zero
  refine ⟨?_,first ▸ unmarked zero⟩
  rintro rfl
  exact absurd start (by simp [badStart,isIndicator])

theorem plainDone_holds (holds : Holds s kinds) (within : Within s columns) (deep : indentOf columns < s.column)
    (text : List Char) (after : Cursor) (broken : Bool) (shorter : after.rest.length ≤ s.cur.rest.length) :
    Holds (s.plainDone columns text after broken) (kinds ++ [.scalar .plain text]) := by
  refine Holds.emit ?_ _ _ rfl
  exact {holds with
    made := holds.made, free := property_free holds within deep, comment := rfl
    steps := Nat.lt_of_le_of_lt shorter holds.steps}

theorem plain_passed (holds : Holds s kinds) (within : Within s columns) (deep : indentOf columns < s.column)
    (words : Plain.Words text) (start : badStart text = false) (there : s.cur.rest = text ++ tail)
    (onward : Onward tail column rest) (out : column ≤ indentOf columns)
    (unmarked : s.pos.column = 0 → isDocumentMarker s.cur.rest = false) :
    ∃ t, Passed s (kinds ++ [.scalar .plain text]) columns column rest t := by
  have turned := plain_turn words.filled start there (within.indent_le deep) unmarked
  have positive := List.length_pos_iff.mpr words.filled
  have follows := Cursor.rest_skip there
  have length := congrArg List.length there
  rw [List.length_append] at length
  cases onward with
  | none =>
    have read := plain_words holds within (Int.le_of_lt deep) words Plain.stops_nil there (s.cur.skip text.length)
      (.blanks []) (fun ctx _ => Plain.gapReader.stops _ _ (by rw [follows]; exact nofun)) (.inl ⟨rfl,rfl⟩)
    have made := plainDone_holds holds within deep text (s.cur.skip text.length) false
      (by rw [follows]; exact Nat.zero_le _)
    refine passed_line (turned.trans read) ?_ made (.inl ⟨rfl,rfl⟩) .none follows out
    rw [plainDone,emit,follows,length]
    exact positive
  | line n _ filled content =>
    have halts : Halts rest := fun d first => ⟨(content d first).1,(content d first).2.1⟩
    have steps := holds.steps
    simp only [List.length_append,List.length_cons,spaces_length] at length
    have read := plain_words holds within (Int.le_of_lt deep) words Plain.stops_break there
      ((s.cur.skip text.length).nextLine n rest) (.broken 0)
      (fun ctx _ => Plain.skipGap_line n s.steps (by omega) follows halts) (.inr out)
    have made := plainDone_holds holds within deep text ((s.cur.skip text.length).nextLine n rest) true
      (by simp only [Cursor.nextLine]; omega)
    refine passed_there (turned.trans read) ?_ made (.inl ⟨rfl,rfl⟩) (.line n rest filled content) rfl out
      (fun _ => rfl) (fun _ => rfl)
    simp only [plainDone,emit,Cursor.nextLine]
    omega

def quotedDone (s : Scan) (text : List Char) (after : Cursor) (broken : Bool) : Scan :=
  emit {s with
    key := s.property.key, cur := after, lineStart := broken, keyAllowed := broken
    adjacentAt := after.pos.offset} (.scalar .quoted text) s.pos

def inMarks (single : Bool) (escape : Char → List Char) (text : List Char) : List Char :=
  Quoted.mark single :: text.flatMap escape ++ [Quoted.mark single]

variable {single : Bool} {escape : Char → List Char}

@[simp] theorem inMarks_length : (inMarks single escape text).length = (text.flatMap escape).length + 2 := by
  simp only [inMarks,List.length_append,List.length_cons,List.length_nil]

theorem quoted_text (holds : Holds s kinds) (faithful : ∀ c ∈ text, Quoted.Faithful single escape c)
    (itself : escape ' ' = [' ']) (there : s.cur.rest = inMarks single escape text ++ tail)
    (closes : Quoted.Closes tail) (after : Cursor) (broken : Bool)
    (next : toNextToken {s with
        key := s.property.key, keyAllowed := false, cur := s.cur.skip (inMarks single escape text).length
        lineStart := false} =
      .ok {s with key := s.property.key, keyAllowed := broken, cur := after, lineStart := broken}) :
    s.quoted single = .ok (s.quotedDone text after broken) := by
  have opened : s.cur.rest =
      Quoted.mark single :: (text.flatMap escape ++ Quoted.mark single :: tail) := by rw [there]; simp [inMarks]
  have read : Quoted.read ⟨s.steps,single,s.inFlow,s.indent,s.pos⟩ s.cur = .ok (s.cur.skip _,text) :=
    Quoted.read_text faithful itself opened closes rfl holds.steps
  rw [inMarks_length] at next
  rw [quoted,property_eq]
  have outside : ({s with key := s.property.key, keyAllowed := false} : Scan).inFlow = s.inFlow := rfl
  simp only [outside,read]
  rw [next]
  rfl

theorem quoted_turn (there : s.cur.rest = inMarks single escape text ++ tail) (level : s.indent ≤ s.column) :
    s.turn = s.quoted single := by
  have first : s.cur.rest = Quoted.mark single :: (text.flatMap escape ++ [Quoted.mark single] ++ tail) := by
    rw [there]
    simp [inMarks]
  rw [turn_content first level]
  · cases single <;> rfl
  · intro _
    cases single <;> exact ⟨by decide,rfl⟩

theorem quotedDone_holds (holds : Holds s kinds) (within : Within s columns) (deep : indentOf columns < s.column)
    (text : List Char) (after : Cursor) (broken : Bool) (shorter : after.rest.length ≤ s.cur.rest.length) :
    Holds (s.quotedDone text after broken) (kinds ++ [.scalar .quoted text]) := by
  refine Holds.emit ?_ _ _ rfl
  exact {holds with
    made := holds.made, free := property_free holds within deep
    steps := Nat.lt_of_le_of_lt shorter holds.steps}

theorem quoted_passed (holds : Holds s kinds) (within : Within s columns) (deep : indentOf columns < s.column)
    (faithful : ∀ c ∈ text, Quoted.Faithful single escape c) (itself : escape ' ' = [' '])
    (there : s.cur.rest = inMarks single escape text ++ tail) (onward : Onward tail column rest)
    (out : column ≤ indentOf columns) :
    ∃ t, Passed s (kinds ++ [.scalar .quoted text]) columns column rest t := by
  have turned := quoted_turn there (within.indent_le deep)
  have follows := Cursor.rest_skip there
  have length := congrArg List.length there
  rw [List.length_append,inMarks_length] at length
  cases onward with
  | none =>
    have read := quoted_text holds faithful itself there nofun (s.cur.skip (inMarks single escape text).length) false
      (toNextToken_of_skip (skipToToken_content _ (by dsimp only; rw [follows]; exact nofun)) holds.comment)
    have made := quotedDone_holds holds within deep text (s.cur.skip (inMarks single escape text).length) false
      (by rw [follows]; exact Nat.zero_le _)
    refine passed_line (turned.trans read) ?_ made (within.of_eq rfl rfl) .none follows out
    rw [quotedDone,emit,follows,length]
    exact Nat.zero_lt_succ _
  | line n _ filled content =>
    have closes : Quoted.Closes ('\n' :: (spaces n ++ rest)) := fun c head => .inl (Option.some.inj head).symm
    have steps := holds.steps
    simp only [List.length_cons,List.length_append,spaces_length] at length
    have next := toNextToken_line (s := {s with
        key := s.property.key, keyAllowed := false, cur := s.cur.skip (inMarks single escape text).length
        lineStart := false}) holds.comment holds.inFlow n follows content (by
      dsimp only
      rw [follows]
      simp only [List.length_cons,List.length_append,spaces_length]
      omega)
    have read := quoted_text holds faithful itself there closes
      ((s.cur.skip (inMarks single escape text).length).nextLine n rest) true next
    have made := quotedDone_holds holds within deep text
      ((s.cur.skip (inMarks single escape text).length).nextLine n rest) true (by simp only [Cursor.nextLine]; omega)
    refine passed_there (turned.trans read) ?_ made (within.of_eq rfl rfl) (.line n rest filled content) rfl out
      (fun _ => rfl) (fun _ => rfl)
    simp only [quotedDone,emit,Cursor.nextLine]
    omega

end

section

variable {s t : Scan} {kinds : List TokenKind} {columns : List Nat} {rest tail : List Char} {column : Int}

theorem Passed.prepend (steps : Steps s t) {u : Scan} (passed : Passed t kinds columns column rest u) :
    Passed s kinds columns column rest u := {passed with steps := steps.trans passed.steps}

theorem noteKey_eq (s : Scan) : s.noteKey = {s with key := s.property.key} := by
  unfold Scan.property noteKey
  split <;> rfl

theorem indentPast_within (within : Within s columns) (outside : s.inFlow = false) :
    ∃ indent levels, s.indentPast = {s with indent := indent, indents := levels} ∧ Within s.indentPast columns := by
  cases within with
  | inl tight =>
    cases columns with
    | nil =>
      have same : s.indentPast = s := by simp [indentPast,inBlock,tight.levels,levelsOf]
      rw [same]
      exact ⟨_,_,rfl,.inl tight⟩
    | cons innermost outer =>
      have step : s.indentPast = {s with indent := s.indent + 1, indents := ⟨s.indent,false⟩ :: s.indents} := by
        simp [indentPast,inBlock,tight.levels,levelsOf,outside]
      rw [step]
      refine ⟨_,_,rfl,.inr ⟨?_,?_⟩⟩
      · exact congrArg (· + 1) tight.indent
      · rw [tight.levels,tight.indent]
  | inr loose =>
    have same : s.indentPast = s := by simp [indentPast,inBlock,loose.levels]
    rw [same]
    exact ⟨_,_,rfl,.inr loose⟩

structure Shape where
  opener : Char
  closer : Char
  first : TokenKind
  last : TokenKind

def square : Shape := ⟨'[',']',.flowSequenceStart,.flowSequenceEnd⟩
def curly : Shape := ⟨'\x7b','\x7d',.flowMappingStart,.flowMappingEnd⟩

def opened (s : Scan) (shape : Shape) (indent : Int) (levels : List Indent) : Scan :=
  emit {s with
    brackets := [⟨shape.opener,s.pos,s.property.key⟩], key := .none, keyAllowed := true
    indent := indent, indents := levels, cur := s.cur.skip 1, lineStart := false
    inBraces := s.inBraces || shape.opener == '\x7b'
    pairs := if shape.opener == '\x7b' then [] else [false]} shape.first s.pos

theorem openBracket_opened (holds : Holds s kinds) (within : Within s columns) {shape : Shape}
    (known : shape = square ∨ shape = curly) (there : s.cur.rest = shape.opener :: shape.closer :: tail) :
    ∃ indent levels, s.openBracket shape.opener = .ok (s.opened shape indent levels) ∧
      Within (s.opened shape indent levels) columns := by
  have noted : Within s.noteKey columns := within.of_eq (by rw [noteKey_eq]) (by rw [noteKey_eq])
  have outside : s.noteKey.inFlow = false := by rw [noteKey_eq]; exact holds.inFlow
  obtain ⟨indent,levels,step,inside⟩ := indentPast_within noted outside
  rw [step] at inside
  refine ⟨indent,levels,?_,inside.of_eq rfl rfl⟩
  have bare : ∀ c, (s.cur.skip 1).rest.head? = some c → isBlank c = false ∧ c ≠ '#' := by
    intro c head
    rw [Cursor.skip,there] at head
    obtain rfl := Option.some.inj head
    rcases known with rfl | rfl <;> decide
  have blanks := Cursor.skipBlanks_none true bare
  unfold openBracket
  dsimp only
  rw [step,noteKey_eq]
  rcases known with rfl | rfl
  · simp [level,holds.brackets,holds.pairs,Scan.skip,Scan.skipBlanks,blanks,opened,square,emit]
  · simp [level,holds.brackets,holds.pairs,Scan.skip,Scan.skipBlanks,blanks,opened,curly,emit]

def closed (s : Scan) (shape : Shape) (indent : Int) (levels : List Indent) : Scan :=
  {(s.opened shape indent levels).release with
    brackets := [], key := s.property.key, keyAllowed := false, cur := s.cur.skip 2, lineStart := false
    pairs := []}.emit shape.last (s.cur.skip 1).pos

theorem closeBracket_closed {shape : Shape} (known : shape = square ∨ shape = curly)
    (there : s.cur.rest = shape.opener :: shape.closer :: tail)
    (bare : ∀ c, tail.head? = some c → isBlank c = false ∧ c ≠ '#') (indent : Int) (levels : List Indent) :
    (s.opened shape indent levels).release.closeBracket shape.closer = .ok (s.closed shape indent levels) := by
  have twice : (s.cur.skip 1).skip 1 = s.cur.skip 2 := Cursor.skip_skip _ _ _
  have blanks : (s.cur.skip 2).skipBlanks true = .ok ⟨s.cur.skip 2,false,false⟩ := by
    refine Cursor.skipBlanks_none true ?_
    simpa [Cursor.skip,there] using bare
  unfold closeBracket
  rcases known with rfl | rfl
  · simp [release,opened,square,emit,closed,dropKey,PendingKey.none,endPair,Scan.skip,twice,Scan.skipBlanks,blanks,
      Scan.inFlow,Scan.pos]
  · simp [release,opened,curly,emit,closed,dropKey,PendingKey.none,Scan.skip,twice,Scan.skipBlanks,blanks,
      Scan.inFlow,Scan.pos]

section Turns

variable {shape : Shape} (known : shape = square ∨ shape = curly)
include known

theorem opened_turn (level : s.indent ≤ s.column) (there : s.cur.rest = shape.opener :: shape.closer :: tail) :
    s.turn = s.openBracket shape.opener := by
  rw [turn_content there level]
  · rcases known with rfl | rfl <;> rfl
  · intro _
    rcases known with rfl | rfl <;> exact ⟨by decide,rfl⟩

theorem opened_settle (uncut : s.comment = none) (there : s.cur.rest = shape.opener :: shape.closer :: tail)
    (indent : Int) (levels : List Indent) :
    (s.opened shape indent levels).settle = .ok (s.opened shape indent levels).release := by
  refine settle_still (fun _ => rfl) uncut ?_
  intro c head
  have behind : (s.opened shape indent levels).cur.rest = shape.closer :: tail := by simp [opened,emit,Cursor.skip,there]
  rw [behind] at head
  obtain rfl := Option.some.inj head
  rcases known with rfl | rfl <;> decide

theorem closed_turn (there : s.cur.rest = shape.opener :: shape.closer :: tail)
    (bare : ∀ c, tail.head? = some c → isBlank c = false ∧ c ≠ '#') (indent : Int) (levels : List Indent) :
    (s.opened shape indent levels).release.turn = .ok (s.closed shape indent levels) := by
  have behind : (s.opened shape indent levels).release.cur.rest = shape.closer :: tail := by
    simp [release,opened,emit,Cursor.skip,there]
  have flow : (s.opened shape indent levels).release.inFlow = true := rfl
  have column : (s.opened shape indent levels).release.pos.column ≠ 0 := by
    simp [release,opened,emit,Scan.pos,Cursor.skip]
  have marker : (s.opened shape indent levels).release.cur.atDocumentMarker = false := by
    have other : ((s.opened shape indent levels).release.cur.column == 0) = false := beq_eq_false_iff_ne.mpr column
    rw [Cursor.atDocumentMarker,other,Bool.false_and]
  have closing := closeBracket_closed known there bare indent levels
  rw [turn,behind]
  simp only [column,marker,decide_false,Bool.false_and,if_neg Bool.false_ne_true,misindented,flow]
  rcases known with rfl | rfl <;> simpa [square,curly,dispatch] using closing

theorem closed_holds (holds : Holds s kinds) (within : Within s columns) (deep : indentOf columns < s.column)
    (indent : Int) (levels : List Indent) :
    Holds (s.closed shape indent levels) (kinds ++ [shape.first,shape.last]) := by
  refine ⟨?_,?_,?_,rfl,rfl,property_free holds within deep,holds.comment,?_⟩
  · simp [closed,opened,release,emit,←holds.made]
  · simp [closed,opened,release,emit,holds.count]
  · refine List.forall_mem_cons.mpr ⟨?_,List.forall_mem_cons.mpr ⟨?_,holds.running⟩⟩
    all_goals rcases known with rfl | rfl <;> rfl
  · have := holds.steps
    simp only [closed,opened,release,emit,Cursor.skip,List.length_drop]
    omega

theorem brackets_passed (holds : Holds s kinds) (within : Within s columns) (deep : indentOf columns < s.column)
    (there : s.cur.rest = shape.opener :: shape.closer :: tail) (onward : Onward tail column rest)
    (out : column ≤ indentOf columns) :
    ∃ t, Passed s (kinds ++ [shape.first,shape.last]) columns column rest t := by
  obtain ⟨indent,levels,opening,inside⟩ := openBracket_opened holds within known there
  have bare : ∀ c, tail.head? = some c → isBlank c = false ∧ c ≠ '#' := by
    intro c head
    cases onward with
    | none => exact nomatch head
    | line => obtain rfl := Option.some.inj head; decide
  have behind : (s.opened shape indent levels).release.cur.rest = shape.closer :: tail := by
    simp [release,opened,emit,Cursor.skip,there]
  have landed : (s.opened shape indent levels).release.land = (s.opened shape indent levels).release := by
    have flow : (s.opened shape indent levels).release.inFlow = true := rfl
    rw [land,dedent,flow,if_pos rfl]
  have steps : Steps s (s.opened shape indent levels).release := by
    have first := (opened_turn known (within.indent_le deep) there).trans opening
    refine .one first ?_ ?_ (opened_settle known holds.comment there indent levels) (Nat.le_refl _) landed
    · rw [there]
      have same : (s.opened shape indent levels).cur.rest = shape.closer :: tail := behind
      rw [same]
      exact Nat.lt_succ_self _
    · rcases known with rfl | rfl <;> rfl
  have place : (s.closed shape indent levels).cur.rest = tail := by simp [closed,emit,Cursor.skip,there]
  obtain ⟨t,passed⟩ := passed_line (closed_turn known there bare indent levels)
    (by rw [place,behind]; exact Nat.lt_succ_self _) (closed_holds known holds within deep indent levels)
    (inside.of_eq rfl rfl) onward place out
  exact ⟨t,passed.prepend steps⟩

end Turns

end

end AutomationLint.Yaml.Scan
