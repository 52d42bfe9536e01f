import AutomationLint.Proofs.Stream.LineEnds
import AutomationLint.Proofs.Stream.Positions
import AutomationLint.Proofs.Stream.Transparency
import Mathlib.Data.List.Forall2

namespace AutomationLint.Stream

inductive Opening where
  | beginning | start (line : Line) | stop

-- A stream is in pieces, one from its beginning and one behind every marker
-- line. What opens a piece is kept apart from the lines behind it, for what
-- stands on a start line behind its marker belongs to the piece.
structure Piece where
  opening : Opening
  following : List Line

def isMark (line : Line) : Bool := isStart line || isStop line

def untilMark (lines : List Line) : List Line := lines.takeWhile fun line => !isMark line

def openedBy : List Line → Option Piece
  | [] => none
  | line :: later =>
    if isStart line then some ⟨.start line,untilMark later⟩
    else if isStop line then some ⟨.stop,untilMark later⟩
    else none

def opened (lines : List Line) : List Piece := lines.tails.filterMap openedBy

def pieces (lines : List Line) : List Piece := ⟨.beginning,untilMark lines⟩ :: opened lines

def Content (line : Line) : Prop := Meaningful line ∧ line.head? ≠ some '%'

instance : Decidable (Content line) := instDecidableAnd

def Contentless (lines : List Line) : Prop := ∀ line ∈ lines, isStart line = false ∧
  (Text.isBlank line = true ∨ (Text.trim line).head? = some '#' ∨ line.head? = some '%' ∨ isStop line = true)

namespace Piece

def explicit (p : Piece) : Bool :=
  match p.opening with
  | .start _ => true
  | .beginning | .stop => false

def lines (p : Piece) : List Line :=
  match p.opening with
  | .start line => blankMarker line :: p.following
  | .beginning | .stop => p.following

def hasContent (p : Piece) : Bool := p.lines.any fun line => Content line

def isDocument (p : Piece) : Bool := p.explicit || p.hasContent

def body (p : Piece) : List Char :=
  Text.joinLines (p.lines.map fun line => if line.head? = some '%' then [] else Text.dropCarriage line)

-- The document of a piece: the reader's value of its body, and null without a
-- value or without content.
inductive Gives (read : BodyReader) (p : Piece) : Tree → Prop where
  | empty (none : p.hasContent = false) : Gives read p .null
  | value (content : p.hasContent = true) (answer : read p.body = .ok t) : Gives read p (t.getD .null)

end Piece

variable (read : BodyReader) (line : Line) (lines : List Line) (text : List Char)

theorem isContent_dropCarriage : Section.isContent (Text.dropCarriage line) = decide (Content line) := by
  have percent : (Text.dropCarriage line).head? = some '%' ↔ line.head? = some '%' := by
    rw [←dropCarriage_directive line,Section.isDirective,beq_iff_eq]
  rw [Bool.eq_iff_iff,isContent_iff,meaningful_dropCarriage,ne_eq,percent,decide_eq_true_iff,Content]

structure Shows (s : Section) (p : Piece) : Prop where
  explicit : s.explicit = p.explicit
  rows : s.rows = p.lines.map Text.dropCarriage

variable {s : Section} {p : Piece}

theorem Shows.hasContent (shows : Shows s p) : s.hasContent = p.hasContent := by
  rw [Section.hasContent,shows.rows,List.any_map,Piece.hasContent]
  congr 1
  funext line
  exact isContent_dropCarriage line

theorem Shows.isDocument (shows : Shows s p) : s.isDocument = p.isDocument := by
  rw [Section.isDocument,Piece.isDocument,shows.explicit,shows.hasContent]

theorem Shows.body (shows : Shows s p) : s.body = p.body := by
  rw [Section.body,Section.bodyLines,shows.rows,List.map_map,Piece.body]
  congr 2
  funext line
  simp only [Function.comp_apply,dropCarriage_directive]

theorem Shows.value (shows : Shows s p) (d : Tree) : s.value read = .ok d ↔ p.Gives read d := by
  unfold Section.value
  rw [shows.hasContent,shows.body]
  cases content : p.hasContent with
  | false =>
    constructor
    · intro ok
      cases ok
      exact .empty content
    · intro gives
      cases gives with
      | empty => rfl
      | value some => simp [content] at some
  | true =>
    cases answer : read p.body with
    | error fault =>
      refine iff_of_false nofun ?_
      intro gives
      cases gives with
      | empty none => simp [content] at none
      | value _ ok => simp [answer] at ok
    | ok t =>
      constructor
      · intro ok
        cases ok
        exact .value content answer
      · intro gives
        cases gives with
        | empty none => simp [content] at none
        | value _ ok =>
          cases answer.symm.trans ok
          rfl

theorem values_shown {list : List Section} {shown : List Piece} (shows : List.Forall₂ Shows list shown)
    (docs : List Tree) : values read list = .ok docs ↔ List.Forall₂ (fun p d => p.Gives read d) shown docs := by
  induction shows generalizing docs with
  | nil => cases docs <;> simp [values]
  | @cons s p list shown first _ ih =>
    cases docs with
    | nil =>
      cases got : s.value read with
      | error e => simp [values,got]
      | ok t => cases later : values read list <;> simp [values,got,later]
    | cons d docs =>
      rw [List.forall₂_cons,←first.value,←ih]
      cases got : s.value read with
      | error e => simp [values,got]
      | ok t => cases later : values read list <;> simp [values,got,later]

theorem mark_cases : isStart line = true ∨ isStop line = true ∨ isMark line = false := by
  cases start : isStart line <;> cases stop : isStop line <;> simp [isMark,start,stop]

theorem opened_start (start : isStart line = true) :
    opened (line :: lines) = ⟨.start line,untilMark lines⟩ :: opened lines ∧ untilMark (line :: lines) = [] := by
  simp [opened,openedBy,untilMark,isMark,start]

theorem opened_stop (stop : isStop line = true) :
    opened (line :: lines) = ⟨.stop,untilMark lines⟩ :: opened lines ∧ untilMark (line :: lines) = [] := by
  have other : isStart line = false := Bool.eq_false_iff.mpr fun start => start_not_stop line start stop
  simp [opened,openedBy,untilMark,isMark,stop,other]

theorem opened_other (other : isMark line = false) :
    opened (line :: lines) = opened lines ∧ untilMark (line :: lines) = line :: untilMark lines := by
  simp only [isMark,Bool.or_eq_false_iff] at other
  simp [opened,openedBy,untilMark,isMark,other]

theorem cut_pieces (current : Section) (number : Nat) :
    (cut current number lines).map (fun s => (s.explicit,s.lines)) =
      (current.explicit,current.lines ++ untilMark lines) :: (opened lines).map fun p => (p.explicit,p.lines) := by
  induction lines generalizing current number with
  | nil => simp [cut,untilMark,opened,openedBy]
  | cons line lines ih =>
    rcases mark_cases line with start | stop | other
    · obtain ⟨here,none⟩ := opened_start line lines start
      rw [cut_start _ _ _ _ start,List.map_cons,ih,here,none,List.map_cons,List.append_nil]
      rfl
    · obtain ⟨here,none⟩ := opened_stop line lines stop
      rw [cut_stop _ _ _ _ stop,List.map_cons,ih,here,none,List.map_cons,List.append_nil]
      rfl
    · obtain ⟨here,more⟩ := opened_other line lines other
      simp only [isMark,Bool.or_eq_false_iff] at other
      have taken : step current number line = ([],{current with lines := current.lines ++ [line]}) := by
        simp [step,other]
      rw [cut_cons,taken,List.nil_append,ih,here,more]
      simp

theorem sections_pieces : List.Forall₂ Shows (sections text) (pieces (Text.lines text)) := by
  have cuts : (sections text).map (fun s => (s.explicit,s.lines)) =
      (pieces (Text.lines text)).map fun p => (p.explicit,p.lines) := cut_pieces _ ⟨0,false,[]⟩ 0
  have rows := calc (sections text).map (fun s => (s.explicit,s.rows))
    _ = (sections text).map fun s => (s.explicit,s.lines.map Text.dropCarriage) :=
      List.map_congr_left fun s member => by rw [section_rows text s member]
    _ = ((sections text).map fun s => (s.explicit,s.lines)).map (Prod.map id (List.map Text.dropCarriage)) := by
      rw [List.map_map]
      rfl
    _ = (pieces (Text.lines text)).map fun p => (p.explicit,p.lines.map Text.dropCarriage) := by
      rw [cuts,List.map_map]
      rfl
  rw [←List.forall₂_eq_eq_eq,List.forall₂_map_left_iff,List.forall₂_map_right_iff] at rows
  exact rows.imp fun s p same => ⟨congrArg Prod.fst same,congrArg Prod.snd same⟩

theorem countP_opened : (opened lines).countP Piece.explicit = lines.countP isStart := by
  induction lines with
  | nil => rfl
  | cons line lines ih =>
    rcases mark_cases line with start | stop | other
    · rw [(opened_start line lines start).1,List.countP_cons_of_pos rfl,List.countP_cons_of_pos start,ih]
    · have other : ¬isStart line = true := fun start => start_not_stop line start stop
      rw [(opened_stop line lines stop).1,List.countP_cons_of_neg Bool.false_ne_true,List.countP_cons_of_neg other,ih]
    · have plain : ¬isStart line = true := by simp_all [isMark]
      rw [(opened_other line lines other).1,List.countP_cons_of_neg plain,ih]

theorem countP_explicit : (pieces lines).countP Piece.explicit = lines.countP isStart := by
  rw [pieces,List.countP_cons_of_neg Bool.false_ne_true,countP_opened]

theorem flatMap_following : (pieces lines).flatMap Piece.following = lines.filter fun line => !isMark line := by
  rw [pieces,List.flatMap_cons]
  induction lines with
  | nil => rfl
  | cons line lines ih =>
    rcases mark_cases line with start | stop | other
    · obtain ⟨here,none⟩ := opened_start line lines start
      rw [here,none,List.flatMap_cons,ih]
      simp [isMark,start]
    · obtain ⟨here,none⟩ := opened_stop line lines stop
      rw [here,none,List.flatMap_cons,ih]
      simp [isMark,stop]
    · obtain ⟨here,more⟩ := opened_other line lines other
      rw [here,more,List.cons_append,ih]
      simp [other]

-- The pieces that make documents are those of start lines, and the other ones
-- with content.
theorem length_documents : ((pieces lines).filter Piece.isDocument).length =
    lines.countP isStart + (pieces lines).countP fun p => !p.explicit && p.hasContent := by
  rw [List.length_eq_countP_add_countP Piece.explicit,List.countP_filter,List.countP_filter,←countP_explicit]
  congr 1
  · apply List.countP_congr
    intro p _
    cases explicit : p.explicit <;> simp [Piece.isDocument,explicit]
  · apply List.countP_congr
    intro p _
    cases explicit : p.explicit <;> simp [Piece.isDocument,explicit]

theorem contentless_iff : Contentless lines ↔
    (∀ line ∈ lines, isStart line = false) ∧ ∀ line ∈ lines, isMark line = false → ¬Content line := by
  have each : ∀ line, isStart line = false →
      (Text.isBlank line = true ∨ (Text.trim line).head? = some '#' ∨ line.head? = some '%' ∨ isStop line = true ↔
        (isMark line = false → ¬Content line)) := by
    intro line start
    cases stop : isStop line with
    | true => simp [isMark,stop]
    | false =>
      cases blank : Text.isBlank line <;> simp [isMark,start,stop,Content,Meaningful,blank,Classical.or_iff_not_imp_left]
  constructor
  · intro contentless
    exact ⟨fun line member => (contentless line member).1,
      fun line member => (each line (contentless line member).1).mp (contentless line member).2⟩
  · intro parts line member
    exact ⟨parts.1 line member,(each line (parts.1 line member)).mpr (parts.2 line member)⟩

theorem explicit_none : (∀ p ∈ pieces lines, p.explicit = false) ↔ ∀ line ∈ lines, isStart line = false := by
  have counts := countP_explicit lines
  simp only [←Bool.not_eq_true,←List.countP_eq_zero,counts]

theorem lines_implicit (implicit : p.explicit = false) : p.lines = p.following := by
  obtain ⟨opening,following⟩ := p
  cases opening with
  | start => cases implicit
  | beginning | stop => rfl

theorem mem_following : (∃ p ∈ pieces lines, line ∈ p.following) ↔ line ∈ lines ∧ isMark line = false := by
  rw [←List.mem_flatMap,flatMap_following,List.mem_filter,Bool.not_eq_true']

theorem filter_documents : (pieces lines).filter Piece.isDocument = [] ↔ Contentless lines := by
  rw [contentless_iff,←explicit_none,List.filter_eq_nil_iff]
  constructor
  · intro none
    have implicit : ∀ p ∈ pieces lines, p.explicit = false := by
      intro p member
      have silent := none p member
      simp only [Piece.isDocument,Bool.or_eq_true,not_or,Bool.not_eq_true] at silent
      exact silent.1
    refine ⟨implicit,?_⟩
    intro line inside other content
    obtain ⟨p,member,follows⟩ := (mem_following line lines).mpr ⟨inside,other⟩
    refine none p member ?_
    rw [Piece.isDocument,Piece.hasContent,lines_implicit (implicit p member),Bool.or_eq_true,List.any_eq_true]
    exact .inr ⟨line,follows,decide_eq_true content⟩
  · intro parts p member document
    obtain ⟨implicit,plain⟩ := parts
    rw [Piece.isDocument,implicit p member,Bool.false_or,Piece.hasContent,lines_implicit (implicit p member),
      List.any_eq_true] at document
    obtain ⟨line,follows,content⟩ := document
    obtain ⟨inside,other⟩ := (mem_following line lines).mp ⟨p,member,follows⟩
    exact plain line inside other (of_decide_eq_true content)

theorem documents_iff (docs : List Tree) : documents read text = .ok docs ↔
    List.Forall₂ (fun p d => p.Gives read d) ((pieces (Text.lines text)).filter Piece.isDocument) docs := by
  refine values_shown read ?_ docs
  refine List.rel_filter ?_ (sections_pieces text)
  intro s p shows
  exact iff_of_eq (congrArg (· = true) shows.isDocument)

theorem documents_nil : documents read text = .ok [] ↔ Contentless (Text.lines text) := by
  rw [documents_iff,List.forall₂_nil_right_iff,filter_documents]

theorem selectRoot_none (docs : List Tree) : selectRoot docs = none ↔ docs = [] := by
  match docs with
  | [] => simp [selectRoot]
  | [_] => simp [selectRoot]
  | _ :: _ :: _ => simp [selectRoot]

theorem blank_contentless (blank : Text.isBlank text = true) : Contentless (Text.lines text) := by
  intro line member
  rw [isBlank_lines,List.all_eq_true] at blank
  refine ⟨?_,.inl (blank line member)⟩
  refine Bool.eq_false_iff.mpr fun start => ?_
  obtain ⟨after,rfl,_⟩ := (isMarker_iff _ _).mp start
  have white := blank _ member
  simp [Text.isBlank,Text.isWhite] at white

theorem documents_counted (read : BodyReader) :
    (∀ text docs, documents read text = .ok docs →
      docs.length = (Text.lines text).countP isStart +
        ((pieces (Text.lines text)).countP fun p => !p.explicit && p.hasContent) ∧
      List.Forall₂ (fun p d => p.Gives read d) ((pieces (Text.lines text)).filter Piece.isDocument) docs ∧
      (selectRoot docs = none ↔ Contentless (Text.lines text))) ∧
    (∀ text, documents read text = .ok [] ↔ Contentless (Text.lines text)) ∧
    ∀ text, checkWith (parser read) text = .error .emptyInput → parser read text = .ok [] := by
  refine ⟨?_,documents_nil read,?_⟩
  · intro text docs accepted
    have gives := (documents_iff read text docs).mp accepted
    refine ⟨gives.length_eq ▸ length_documents _,gives,?_⟩
    rw [selectRoot_none,←documents_nil read,accepted,Except.ok.injEq]
  · intro text refused
    rw [checkWith_eq] at refused
    split at refused
    · rename_i blank
      exact (documents_nil read text.toList).mpr (blank_contentless text.toList blank)
    · cases answer : parser read text with
      | error e => simp [answer,conclude] at refused
      | ok docs => simp [answer,conclude] at refused

-- Two markers one after the other, comments between two of them, and content
-- on a marker line.
theorem documents_counted_adjacent_markers :
    let text := "# c\n...\n%x\n--- # y\n\n...\na: 1\n---\n--- [2]\n... z\n# d".toList
    let docs := [Tree.null,.map [("a",.int 1)],.null,.seq [.int 2]]
    documents Yaml.read text = .ok docs ∧
      docs.length = (Text.lines text).countP isStart +
        ((pieces (Text.lines text)).countP fun p => !p.explicit && p.hasContent) ∧
      (Text.lines text).countP isStart = 3 ∧ ¬Contentless (Text.lines text) ∧
      checkWith (parser Yaml.read) " \n" = .error .emptyInput ∧ parser Yaml.read " \n" = .ok [] := by
  intro text docs
  have accepted : documents Yaml.read text = .ok docs := by decide +kernel
  obtain ⟨counted,_,root⟩ := (documents_counted Yaml.read).1 text docs accepted
  have refused : checkWith (parser Yaml.read) " \n" = .error .emptyInput := by
    rw [checkWith_eq]
    rfl
  exact ⟨accepted,counted,by decide +kernel,fun none => (by cases root.mpr none),refused,
    (documents_counted Yaml.read).2.2 " \n" refused⟩

end AutomationLint.Stream
