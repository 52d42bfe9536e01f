import AutomationLint.Proofs.Yaml.Scan.Levels
import AutomationLint.Yaml.Writer

namespace AutomationLint.Yaml

theorem each_of_all {p : Char → Prop} [DecidablePred p] {text : List Char} (all : text.all (fun c => decide (p c)) = true) :
    ∀ c ∈ text, p c :=
  fun c member => of_decide_eq_true (List.all_eq_true.mp all c member)

theorem visible_ne {c : Char} (visible : isControl c = false) (d : Char) (control : isControl d = true) : c ≠ d := by
  rintro rfl
  exact Bool.false_ne_true (visible.symm.trans control)

theorem visible_break {c : Char} (visible : isControl c = false) : isBreak c = false := by
  simp [isBreak,visible_ne visible '\n' (by decide),visible_ne visible '\r' (by decide)]

theorem visible_blank {c : Char} (visible : isControl c = false) (blank : c ≠ ' ') : isBlank c = false := by
  simp [isBlank,blank,visible_ne visible '\t' (by decide)]

def Cursor.nextLine (cur : Cursor) (column : Nat) (rest : List Char) : Cursor :=
  ⟨rest,⟨cur.pos.line + 1,column,cur.pos.offset + 1 + column⟩⟩

@[simp] theorem Cursor.skip_zero (cur : Cursor) : cur.skip 0 = cur := by simp [Cursor.skip]

@[simp] theorem Cursor.skip_skip (cur : Cursor) (m n : Nat) : (cur.skip m).skip n = cur.skip (m + n) := by
  simp only [Cursor.skip,List.drop_drop]
  congr 2 <;> omega

theorem Cursor.rest_skip {cur : Cursor} {front rest : List Char} (there : cur.rest = front ++ rest) :
    (cur.skip front.length).rest = rest := by
  simp [Cursor.skip,there]

theorem Cursor.skipBlanks_none {cur : Cursor} (tabs : Bool)
    (bare : ∀ c, cur.rest.head? = some c → isBlank c = false ∧ c ≠ '#') :
    cur.skipBlanks tabs = .ok ⟨cur,false,false⟩ := by
  have run : (cur.rest.takeWhile fun c => c == ' ' || (tabs && c == '\t')) = [] := by
    cases first : cur.rest with
    | nil => rfl
    | cons c rest =>
      have blank := (bare c (by rw [first]; rfl)).1
      simp only [isBlank,Bool.or_eq_false_iff] at blank
      simp [blank]
  have comment : (cur.peek == some '#') = false := by
    refine beq_eq_false_iff_ne.mpr ?_
    intro same
    exact (bare '#' same).2 rfl
  unfold Cursor.skipBlanks
  simp only [run,List.length_nil,Cursor.skip_zero,comment]
  rfl

def Halts (text : List Char) : Prop := ∀ c, text.head? = some c → isBlank c = false ∧ isBreak c = false

namespace Scan
open Writer

def Content (text : List Char) : Prop := ∀ c, text.head? = some c → isBlank c = false ∧ isBreak c = false ∧ c ≠ '#'

-- Only the place, what a place allows, and a key that is none any more may
-- differ.
structure Moved (s t : Scan) : Prop where
  tokens : t.newestFirst = s.newestFirst
  count : t.count = s.count
  brackets : t.brackets = s.brackets
  pairs : t.pairs = s.pairs
  indent : t.indent = s.indent
  levels : t.indents = s.indents
  comment : t.comment = s.comment
  steps : t.steps = s.steps
  key : t.key.possible = true → t.key = s.key

variable {s t u : Scan} {kinds : List TokenKind} {columns : List Nat} {rest : List Char}

theorem Moved.trans (first : Moved s t) (second : Moved t u) : Moved s u :=
  ⟨second.tokens.trans first.tokens,second.count.trans first.count,second.brackets.trans first.brackets,
    second.pairs.trans first.pairs,second.indent.trans first.indent,second.levels.trans first.levels,
    second.comment.trans first.comment,second.steps.trans first.steps,
    fun possible => (second.key possible).trans (first.key (second.key possible ▸ possible))⟩

theorem Holds.moved (holds : Holds s kinds) (moved : Moved s t) (shorter : t.cur.rest.length ≤ s.cur.rest.length) :
    Holds t kinds := by
  refine ⟨?_,?_,?_,?_,?_,?_,?_,?_⟩
  · rw [moved.tokens,holds.made]
  · rw [moved.count,moved.tokens,holds.count]
  · rw [moved.tokens]
    exact holds.running
  · rw [moved.brackets,holds.brackets]
  · rw [moved.pairs,holds.pairs]
  · intro possible
    have same := moved.key possible
    rw [same] at possible ⊢
    exact holds.free possible
  · rw [moved.comment,holds.comment]
  · rw [moved.steps]
    exact Nat.lt_of_le_of_lt shorter holds.steps

theorem Within.moved (within : Within s columns) (moved : Moved s t) : Within t columns :=
  within.of_eq moved.indent moved.levels

@[simp] theorem spaces_length (n : Nat) : (spaces n).length = n := List.length_replicate

theorem rest_spaces {cur : Cursor} {n : Nat} (there : cur.rest = spaces n ++ rest) : (cur.skip n).rest = rest := by
  have behind := Cursor.rest_skip there
  rwa [spaces_length] at behind

-- What takes one blank takes a run of them; `gap` is what has been taken in so
-- many steps.
theorem past_spaces {α β : Type} (skip : Nat → Cursor → α → β) (gap : Nat → α)
    (one : ∀ fuel cur k, cur.peek = some ' ' → skip (fuel + 1) cur (gap k) = skip fuel (cur.skip 1) (gap (k + 1)))
    {cur : Cursor} (n fuel k : Nat) (there : cur.rest = spaces n ++ rest) :
    skip (fuel + n) cur (gap k) = skip fuel (cur.skip n) (gap (k + n)) := by
  induction n generalizing cur k with
  | zero => rw [Cursor.skip_zero,Nat.add_zero,Nat.add_zero]
  | succ n ih =>
    have first : cur.rest = ' ' :: (spaces n ++ rest) := there
    have after : (cur.skip 1).rest = spaces n ++ rest := by simp [Cursor.skip,first]
    rw [←Nat.add_assoc,one _ cur k (by simp [Cursor.peek,first]),ih (k + 1) after,Cursor.skip_skip,Nat.add_comm 1 n,
      Nat.add_assoc,Nat.add_comm 1 n]

-- A reader of gaps goes on over blanks and breaks, and is done with what it
-- has where neither comes next. What it does with them is its own: only for
-- the blanks of one line is that asked for below.
structure GapReader {α : Type} (skip : Nat → Cursor → α → Except Fault (Cursor × α)) : Prop where
  spent : ∀ cur gap, skip 0 cur gap = .ok (cur,gap)
  atEnd : ∀ fuel cur gap, cur.peek = none → skip (fuel + 1) cur gap = .ok (cur,gap)
  solid : ∀ fuel cur gap c, cur.peek = some c → isBlank c = false → isBreak c = false →
    skip (fuel + 1) cur gap = .ok (cur,gap)

section

variable {α : Type} {skip : Nat → Cursor → α → Except Fault (Cursor × α)} {cur : Cursor}

theorem GapReader.stops (reader : GapReader skip) (fuel : Nat) (gap : α) (halts : Halts cur.rest) :
    skip fuel cur gap = .ok (cur,gap) := by
  cases fuel with
  | zero => exact reader.spent cur gap
  | succ fuel =>
    cases next : cur.peek with
    | none => exact reader.atEnd fuel cur gap next
    | some c => exact reader.solid fuel cur gap c next (halts c next).1 (halts c next).2

theorem GapReader.blanks (reader : GapReader skip) (gap : Nat → α)
    (one : ∀ fuel cur k, cur.peek = some ' ' → skip (fuel + 1) cur (gap k) = skip fuel (cur.skip 1) (gap (k + 1)))
    (n fuel : Nat) (enough : n ≤ fuel) (there : cur.rest = spaces n ++ rest) (halts : Halts rest) :
    skip fuel cur (gap 0) = .ok (cur.skip n,gap n) := by
  have run := past_spaces skip gap one n (fuel - n) 0 there
  rw [Nat.sub_add_cancel enough,Nat.zero_add] at run
  exact run.trans (reader.stops _ _ (rest_spaces there ▸ halts))

end

theorem first_blanks (text : List Char) : ∃ front n later, text = front ++ (spaces n ++ later) ∧ ' ' ∉ front ∧
    later.head? ≠ some ' ' ∧ (n = 0 → later = []) := by
  induction text with
  | nil => exact ⟨[],0,[],rfl,nofun,nofun,fun _ => rfl⟩
  | cons c text ih =>
    obtain ⟨front,n,later,same,solid,ends,whole⟩ := ih
    by_cases blank : c = ' '
    · subst blank
      cases front with
      | nil => exact ⟨[],n + 1,later,congrArg (' ' :: ·) same,nofun,ends,nofun⟩
      | cons d front =>
        refine ⟨[],1,text,rfl,nofun,?_,nofun⟩
        rw [same]
        intro head
        exact solid (List.mem_of_mem_head? head)
    · refine ⟨c :: front,n,later,congrArg (c :: ·) same,?_,ends,whole⟩
      intro member
      cases member with
      | head => exact blank rfl
      | tail _ inner => exact solid inner

theorem expireKey_moved (free : s.key.possible = true → s.key.required = false) :
    ∃ t, s.expireKey = .ok t ∧ Moved s t ∧ t.cur = s.cur ∧ t.keyAllowed = s.keyAllowed := by
  unfold expireKey
  split
  · rename_i stale
    have possible : s.key.possible = true := by
      simp only [Bool.and_eq_true] at stale
      exact stale.1.2
    rw [free possible,if_neg Bool.false_ne_true]
    exact ⟨_,rfl,⟨rfl,rfl,rfl,rfl,rfl,rfl,rfl,rfl,nofun⟩,rfl,rfl⟩
  · exact ⟨s,rfl,⟨rfl,rfl,rfl,rfl,rfl,rfl,rfl,rfl,fun _ => rfl⟩,rfl,rfl⟩

theorem skipToToken_content (fuel : Nat) (content : Content s.cur.rest) : skipToToken fuel s = .ok s := by
  cases fuel with
  | zero => rfl
  | succ fuel =>
    rw [skipToToken]
    cases first : s.cur.rest with
    | nil => simp [Cursor.peek,first]
    | cons c rest =>
      obtain ⟨blank,feed,comment⟩ := content c (by simp [first])
      have tab : (c == '\t') = false := by
        refine beq_eq_false_iff_ne.mpr ?_
        intro same
        subst same
        exact absurd blank (by decide)
      simp [Cursor.peek,first,feed,blank,comment,tab]

theorem skipToToken_blanks (n fuel : Nat) (enough : n ≤ fuel) (blanks : s.cur.rest = spaces n ++ rest)
    (content : Content rest) : skipToToken fuel s = .ok {s with cur := s.cur.skip n} := by
  have run : skipToToken (fuel - n + n) s = skipToToken (fuel - n) {s with cur := s.cur.skip n} :=
    past_spaces (fun fuel cur (_ : Unit) => skipToToken fuel {s with cur := cur}) (fun _ => ())
      (fun _ _ _ next => by simp only [skipToToken,next]; rfl) n (fuel - n) 0 blanks
  rw [Nat.sub_add_cancel enough] at run
  exact run.trans (skipToToken_content _ (rest_spaces blanks ▸ content))

theorem skipToToken_line (column fuel : Nat) (enough : column < fuel) (outside : s.inFlow = false)
    (line : s.cur.rest = '\n' :: (spaces column ++ rest)) (content : Content rest) :
    skipToToken fuel s =
      .ok {s with cur := s.cur.nextLine column rest, lineStart := true, keyAllowed := true} := by
  obtain ⟨left,rfl⟩ : ∃ left, fuel = left + 1 := ⟨fuel - 1,by omega⟩
  have next : s.cur.peek = some '\n' := by simp [Cursor.peek,line]
  have step : skipToToken (left + 1) s = skipToToken left s.newLine := by
    rw [skipToToken,next]
    rfl
  have there : s.newLine.cur = ⟨spaces column ++ rest,⟨s.cur.pos.line + 1,0,s.cur.pos.offset + 1⟩⟩ := by
    simp only [newLine,Cursor.skipBreak,line]
  have blanks : s.newLine.cur.rest = spaces column ++ rest := by rw [there]
  rw [step,skipToToken_blanks column left (by omega) blanks content,there]
  simp only [newLine,outside,Cursor.nextLine,Cursor.skip,spaces_length,List.drop_left',Bool.not_false,Bool.or_true]
  congr 4
  omega

theorem toNextToken_of_skip (skipped : skipToToken s.steps s = .ok t) (uncut : t.comment = none) :
    s.toNextToken = .ok t := by
  simp only [toNextToken,skipped,checkComment,uncut]

theorem toNextToken_along (uncut : s.comment = none) (n : Nat) (blanks : s.cur.rest = spaces n ++ rest)
    (content : Content rest) (steps : s.cur.rest.length < s.steps) :
    s.toNextToken = .ok {s with cur := s.cur.skip n} := by
  refine toNextToken_of_skip (skipToToken_blanks n s.steps ?_ blanks content) uncut
  have length := congrArg List.length blanks
  simp only [List.length_append,spaces_length] at length
  omega

theorem toNextToken_line (uncut : s.comment = none) (outside : s.inFlow = false) (column : Nat)
    (line : s.cur.rest = '\n' :: (spaces column ++ rest)) (content : Content rest)
    (steps : s.cur.rest.length < s.steps) :
    s.toNextToken = .ok {s with cur := s.cur.nextLine column rest, lineStart := true, keyAllowed := true} := by
  refine toNextToken_of_skip (skipToToken_line column s.steps ?_ outside line content) uncut
  have length := congrArg List.length line
  simp only [List.length_cons,List.length_append,spaces_length] at length
  omega

theorem settle_of_next (free : s.key.possible = true → s.key.required = false) (move : Cursor → Cursor)
    (allowed : Bool → Bool) (next : ∀ t, Moved s t → t.cur = s.cur → ∃ u, t.toNextToken = .ok u ∧ Moved t u ∧
      u.cur = move t.cur ∧ u.keyAllowed = allowed t.keyAllowed) :
    ∃ u, s.settle = .ok u ∧ Moved s u ∧ u.cur = move s.cur ∧ u.keyAllowed = allowed s.keyAllowed := by
  obtain ⟨t,expired,moved,cur,same⟩ := expireKey_moved free
  have released : Moved s t.release :=
    moved.trans ⟨rfl,rfl,rfl,rfl,rfl,rfl,rfl,rfl,fun _ => rfl⟩
  obtain ⟨u,there,onward,place,allows⟩ := next t.release released cur
  have all := released.trans onward
  have stillFree : u.key.possible = true → u.key.required = false := by
    intro possible
    have old := all.key possible
    rw [old] at possible ⊢
    exact free possible
  obtain ⟨v,expired',moved',cur',same'⟩ := expireKey_moved stillFree
  refine ⟨v,?_,all.trans moved',?_,?_⟩
  · simp only [settle,expired,there,expired']
  · rw [cur',place]
    exact congrArg move cur
  · rw [same',allows]
    exact congrArg allowed same

theorem settle_along (holds : Holds s kinds) (n : Nat) (blanks : s.cur.rest = spaces n ++ rest)
    (content : Content rest) :
    ∃ u, s.settle = .ok u ∧ Moved s u ∧ u.cur = s.cur.skip n ∧ u.keyAllowed = s.keyAllowed := by
  refine settle_of_next holds.free (·.skip n) id ?_
  intro t moved cur
  have tHolds := holds.moved moved (Nat.le_of_eq (by rw [cur]))
  exact ⟨_,toNextToken_along tHolds.comment n (cur ▸ blanks) content tHolds.steps,⟨rfl,rfl,rfl,rfl,rfl,rfl,rfl,rfl,fun _ => rfl⟩,rfl,rfl⟩

theorem settle_line (holds : Holds s kinds) (column : Nat) (line : s.cur.rest = '\n' :: (spaces column ++ rest))
    (content : Content rest) :
    ∃ u, s.settle = .ok u ∧ Moved s u ∧ u.cur = s.cur.nextLine column rest ∧ u.keyAllowed = true := by
  refine settle_of_next holds.free (·.nextLine column rest) (fun _ => true) ?_
  intro t moved cur
  have tHolds := holds.moved moved (Nat.le_of_eq (by rw [cur]))
  exact ⟨_,toNextToken_line tHolds.comment tHolds.inFlow column (cur ▸ line) content tHolds.steps,⟨rfl,rfl,rfl,rfl,rfl,rfl,rfl,rfl,fun _ => rfl⟩,rfl,rfl⟩

theorem settle_still (kept : ∀ released, expireKey {s with released := released} = .ok {s with released := released})
    (uncut : s.comment = none) (content : Content s.cur.rest) : s.settle = .ok s.release := by
  have next : s.release.toNextToken = .ok s.release :=
    toNextToken_of_skip (skipToToken_content _ content) uncut
  have again : s.release.expireKey = .ok s.release := kept _
  simp only [settle,kept s.released,next,again]

theorem expireKey_fresh (line : s.pos.line = s.key.pos.line) (near : s.pos.offset ≤ s.key.pos.offset + 1024) :
    s.expireKey = .ok s := by
  unfold expireKey
  rw [if_neg]
  simp only [Bool.and_eq_true,Bool.or_eq_true,decide_eq_true_eq,not_and,not_or]
  omega

theorem settle_fresh (line : s.pos.line = s.key.pos.line) (near : s.pos.offset ≤ s.key.pos.offset + 1024)
    (uncut : s.comment = none) (content : Content s.cur.rest) : s.settle = .ok s.release :=
  settle_still (fun _ => expireKey_fresh line near) uncut content

end Scan

end AutomationLint.Yaml

namespace AutomationLint.Yaml.Scan
open Writer

-- What follows the last character of a line, where the next content stands,
-- and that content.
inductive Onward : List Char → Int → List Char → Prop where
  | none : Onward [] (-1) []
  | line (column : Nat) (rest : List Char) (filled : rest ≠ []) (content : Content rest) :
      Onward ('\n' :: (spaces column ++ rest)) column rest

structure Before (s t : Scan) (kinds : List TokenKind) (columns : List Nat) (rest : List Char) : Prop where
  steps : Steps s t
  holds : Holds t kinds
  within : Within t columns
  there : t.cur.rest = rest
  deep : indentOf columns < t.column

-- From a state before a value to one behind it, which has left all levels
-- inside the value.
structure Passed (s : Scan) (kinds : List TokenKind) (columns : List Nat) (column : Int) (rest : List Char) (t : Scan) :
    Prop where
  steps : Steps s (t.dedent column)
  holds : Holds t kinds
  tight : Tight t columns
  there : t.cur.rest = rest
  column : rest ≠ [] → t.column = column
  allowed : rest ≠ [] → t.keyAllowed = true

variable {s t u : Scan} {kinds : List TokenKind} {columns : List Nat} {rest tail : List Char} {column : Int}

theorem Onward.content (onward : Onward tail column rest) : Content rest := by
  cases onward with
  | none => exact nofun
  | line _ _ _ content => exact content

theorem Onward.column_none (onward : Onward tail column rest) (none : rest = []) : column = -1 := by
  cases onward with
  | none => rfl
  | line _ _ filled _ => exact absurd none filled

theorem Onward.length (onward : Onward tail column rest) : rest.length ≤ tail.length := by
  cases onward with
  | none => exact Nat.le_refl _
  | line => simp only [List.length_cons,List.length_append]; omega

theorem content_spaces {first second : List Char} (one : Content first) (other : Content second) (m n : Nat)
    (same : spaces m ++ first = spaces n ++ second) : m = n ∧ first = second := by
  have blank : isBlank ' ' = true := by decide
  induction m generalizing n with
  | zero =>
    cases n with
    | zero => exact ⟨rfl,same⟩
    | succ n =>
      have head := (one ' ' (by
        have := congrArg List.head? same
        simpa [spaces,List.replicate_succ] using this)).1
      rw [blank] at head
      exact absurd head (by decide)
  | succ m ih =>
    cases n with
    | zero =>
      have head := (other ' ' (by
        have := congrArg List.head? same
        simpa [spaces,List.replicate_succ] using this.symm)).1
      rw [blank] at head
      exact absurd head (by decide)
    | succ n =>
      obtain ⟨equal,rests⟩ := ih n (List.cons.inj same).2
      exact ⟨congrArg (· + 1) equal,rests⟩

theorem Onward.unique {other : Int} {another : List Char} (one : Onward tail column rest)
    (two : Onward tail other another) : column = other ∧ rest = another := by
  cases one with
  | none =>
    cases two with
    | none => exact ⟨rfl,rfl⟩
  | line m _ _ content =>
    generalize whole : '\n' :: (spaces m ++ rest) = text at two
    cases two with
    | none => exact nomatch whole
    | line n _ _ content' =>
      obtain ⟨equal,rests⟩ := content_spaces content content' m n (List.cons.inj whole).2
      exact ⟨congrArg Int.ofNat equal,rests⟩

theorem turn_content {c : Char} (there : s.cur.rest = c :: rest) (deep : s.indent ≤ s.column)
    (unmarked : s.pos.column = 0 → c ≠ '%' ∧ isDocumentMarker (c :: rest) = false) :
    s.turn = s.dispatch c rest.head? := by
  have directive : (decide (s.pos.column = 0) && c == '%') = false := by
    by_cases zero : s.pos.column = 0
    · simp [(unmarked zero).1]
    · simp [zero]
  have marker : s.cur.atDocumentMarker = false := by
    unfold Cursor.atDocumentMarker
    by_cases zero : s.pos.column = 0
    · rw [there,(unmarked zero).2,Bool.and_false]
    · have other : (s.cur.column == 0) = false := beq_eq_false_iff_ne.mpr zero
      rw [other,Bool.false_and]
  have inside : s.misindented c = false := by
    have not : decide (s.column < s.indent) = false := decide_eq_false (by omega)
    rw [misindented,not,Bool.false_and]
  rw [turn,there]
  simp only [directive,marker,inside,if_neg Bool.false_ne_true]

theorem passed_settled (turned : s.turn = .ok t) (shorter : t.cur.rest.length < s.cur.rest.length)
    (holds : Holds t kinds) (within : Within t columns) (there : t.settle = .ok u) (moved : Moved t u)
    (onward : Onward tail column rest) (place : u.cur.rest = rest) (less : rest.length ≤ t.cur.rest.length)
    (out : column ≤ indentOf columns) (at_ : rest ≠ [] → u.column = column) (allowed : rest ≠ [] → u.keyAllowed = true) :
    Passed s kinds columns column rest (u.tightened columns) := by
  have later : u.cur.rest.length ≤ t.cur.rest.length := by rw [place]; exact less
  have uHolds := holds.moved moved later
  have landed : u.land = (u.tightened columns).dedent column := by
    have target : u.landing = column := by
      unfold landing
      rw [place]
      split
      · rename_i none
        exact (onward.column_none none).symm
      · rename_i filled
        exact at_ filled
    rw [land,target,←dedent_within uHolds.inFlow (within.moved moved),dedent_twice _ _ out]
  exact ⟨.one turned shorter holds.done there later landed,uHolds.tightened columns,
    tightened_tight u columns,place,at_,allowed⟩

theorem passed_line (turned : s.turn = .ok t) (shorter : t.cur.rest.length < s.cur.rest.length) (holds : Holds t kinds)
    (within : Within t columns) (onward : Onward tail column rest) (place : t.cur.rest = tail)
    (out : column ≤ indentOf columns) : ∃ u, Passed s kinds columns column rest u := by
  cases onward with
  | none =>
    obtain ⟨u,there,moved,cur,_⟩ := settle_along holds 0 place nofun
    have end_ : u.cur.rest = [] := by rw [cur]; simp [Cursor.skip,place]
    exact ⟨_,passed_settled turned shorter holds within there moved .none end_ (Nat.zero_le _) out
      (absurd rfl) (absurd rfl)⟩
  | line n _ filled content =>
    obtain ⟨u,there,moved,cur,allowed⟩ := settle_line holds n place content
    have end_ : u.cur.rest = rest := by rw [cur]; rfl
    have less := (Onward.line n rest filled content).length
    rw [←place] at less
    refine ⟨_,passed_settled turned shorter holds within there moved (.line n rest filled content) end_ less out ?_
      fun _ => allowed⟩
    intro _
    simp only [Scan.column,cur,Cursor.nextLine,Cursor.column]

theorem passed_there (turned : s.turn = .ok t) (shorter : t.cur.rest.length < s.cur.rest.length) (holds : Holds t kinds)
    (within : Within t columns) (onward : Onward tail column rest) (place : t.cur.rest = rest)
    (out : column ≤ indentOf columns) (at_ : rest ≠ [] → t.column = column)
    (allowed : rest ≠ [] → t.keyAllowed = true) : ∃ u, Passed s kinds columns column rest u := by
  obtain ⟨u,there,moved,cur,same⟩ := settle_along holds 0 place onward.content
  have still : u.cur = t.cur := by rw [cur]; simp [Cursor.skip]
  refine ⟨_,passed_settled turned shorter holds within there moved onward (still ▸ place) ?_ out ?_ (same ▸ allowed)⟩
  · exact Nat.le_of_eq (by rw [place])
  · rw [Scan.column,still]; exact at_

end AutomationLint.Yaml.Scan
