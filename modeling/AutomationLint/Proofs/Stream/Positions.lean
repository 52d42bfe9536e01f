import AutomationLint.Proofs.Stream.Sections
import AutomationLint.Yaml.Reader

namespace AutomationLint.Stream

def Section.span (s : Section) : List Nat := List.range' s.firstLine s.rows.length

def numbersOf (chosen : Line → Bool) (lines : List Line) (first : Nat) : List Nat :=
  ((lines.zipIdx first).filter fun numbered => chosen numbered.1).map Prod.snd

def isKept (line : Line) : Bool := !isStop line

-- How a line of a body differs from its source line: not at all, but for a
-- carriage return at its end, a blanked marker on the line that opens the
-- section, and directives, which are emptied.
inductive Copies : Bool → Line → Line → Prop where
  | opening (start : isStart source = true) (bound : returns ≤ 1)
      (same : [' ',' ',' '] ++ source.drop 3 = row ++ List.replicate returns '\r') : Copies true source row
  | directive (percent : source.head? = some '%') : Copies false source []
  | plain (other : source.head? ≠ some '%') (bound : returns ≤ 1)
      (same : source = row ++ List.replicate returns '\r') : Copies false source row

def charAt (lines : List Line) : Nat → Nat → Option Char
  | line + 1, column + 1 => lines[line]?.bind (·[column]?)
  | _, _ => none

theorem cut_spans (current : Section) (number : Nat) (rest : List Line)
    (reached : current.firstLine + current.lines.length = number) :
    (cut current number rest).flatMap (fun s => List.range' s.firstLine s.lines.length) =
      List.range' current.firstLine current.lines.length ++ numbersOf isKept rest number := by
  induction rest generalizing current number with
  | nil => simp [cut,numbersOf]
  | cons line rest ih =>
    by_cases start : isStart line = true
    · have kept : isKept line = true := by simpa [isKept] using start_not_stop line start
      rw [cut_start _ _ _ _ start,List.flatMap_cons,ih ⟨number,true,[blankMarker line]⟩ (number + 1) rfl]
      simp [numbersOf,List.zipIdx_cons,kept]
    · by_cases stop : isStop line = true
      · rw [cut_stop _ _ _ _ stop,List.flatMap_cons,ih ⟨number + 1,false,[]⟩ (number + 1) rfl]
        simp [numbersOf,List.zipIdx_cons,isKept,stop]
      · have kept : isKept line = true := by simpa [isKept] using stop
        have taken : step current number line = ([],{current with lines := current.lines ++ [line]}) := by
          simp [step,start,stop]
        rw [cut_cons,taken,List.nil_append,ih _ _ (by simp only [List.length_append,List.length_singleton]; omega)]
        simp [numbersOf,List.zipIdx_cons,kept,List.range'_concat,reached]

theorem sections_spans (text : List Char) :
    (sections text).flatMap Section.span = numbersOf isKept (Text.lines text) 0 := by
  have same : (sections text).map Section.span =
      (sections text).map (fun s => List.range' s.firstLine s.lines.length) := by
    apply List.map_congr_left
    intro s member
    rw [Section.span,section_rows text s member,List.length_map]
  rw [List.flatMap_def,same,←List.flatMap_def]
  exact cut_spans ⟨0,false,[]⟩ 0 (Text.lines text) rfl

theorem numbersOf_perm (lines : List Line) :
    (numbersOf isKept lines 0 ++ numbersOf isStop lines 0).Perm (List.range lines.length) := by
  have halves := (List.filter_append_perm (fun numbered : Line × Nat => isKept numbered.1) (lines.zipIdx 0)).map Prod.snd
  rw [List.map_append,List.zipIdx_map_snd,←List.range_eq_range'] at halves
  simpa [numbersOf,isKept] using halves

theorem body_lines (s : Section) (content : s.hasContent = true) : Text.splitFeeds s.body = s.bodyLines := by
  have some : s.bodyLines ≠ [] := by
    intro none
    have empty : s.rows = [] := by simpa [Section.bodyLines] using none
    simp [Section.hasContent,empty] at content
  refine Text.splitFeeds_join s.bodyLines some ?_
  intro line member
  obtain ⟨row,inside,rfl⟩ := List.mem_map.mp member
  have free := Text.lines_free s.text row inside
  split
  · simp
  · exact free

theorem dropCarriage_directive (line : Line) :
    Section.isDirective (Text.dropCarriage line) = true ↔ line.head? = some '%' := by
  constructor
  · intro directive
    obtain ⟨rest,same⟩ := List.head?_eq_some_iff.mp (eq_of_beq directive)
    obtain ⟨returns,_,whole⟩ := Text.dropCarriage_returns line
    rw [whole,same]
    rfl
  · intro percent
    obtain ⟨rest,rfl⟩ := List.head?_eq_some_iff.mp percent
    rw [show '%' :: rest = ['%'] ++ rest from rfl,Text.dropCarriage_append _ _ (by decide)]
    rfl

theorem bodyLines_copies (text : List Char) (s : Section) (member : s ∈ sections text) (j : Nat) (row : Line)
    (isThere : s.bodyLines[j]? = some row) : ∃ source, (Text.lines text)[s.firstLine + j]? = some source ∧
      Copies (s.explicit && j == 0) source row := by
  rw [Section.bodyLines,section_rows text s member,List.map_map,List.getElem?_map] at isThere
  obtain ⟨line,found,rfl⟩ := Option.map_eq_some_iff.mp isThere
  obtain ⟨source,original,shown⟩ := (sections_placed text s member).lines j line found
  refine ⟨source,original,?_⟩
  cases place : s.explicit && j == 0 with
  | true =>
    simp only [place,if_true] at shown
    obtain ⟨start,rfl⟩ := shown
    have blanks := Text.dropCarriage_append [' ',' ',' '] (source.drop 3) (by decide)
    obtain ⟨returns,bound,whole⟩ := Text.dropCarriage_returns (source.drop 3)
    refine .opening start bound ?_
    simp only [Function.comp_apply,blankMarker,blanks]
    rw [if_neg (by simp [Section.isDirective]),List.append_assoc,←whole]
  | false =>
    simp only [place,Bool.false_eq_true,if_false] at shown
    subst shown
    simp only [Function.comp_apply]
    split
    · rename_i directive
      exact .directive ((dropCarriage_directive line).mp directive)
    · rename_i other
      obtain ⟨returns,bound,whole⟩ := Text.dropCarriage_returns line
      exact .plain (fun percent => other ((dropCarriage_directive line).mpr percent)) bound whole

theorem Copies.column {opening : Bool} {source row : Line} (copies : Copies opening source row) (j : Nat) (c : Char)
    (isThere : row[j]? = some c) : source[j]? = some c ∨ opening = true ∧ j < 3 := by
  have inside : ∀ returns, (row ++ List.replicate returns '\r')[j]? = some c := fun returns => by
    rw [List.getElem?_append_left (List.getElem?_eq_some_iff.mp isThere).1,isThere]
  cases copies with
  | opening start bound same =>
    rename_i returns
    by_cases marker : j < 3
    · exact .inr ⟨rfl,marker⟩
    · have kept := inside returns
      rw [←same,List.getElem?_append_right (by simpa using marker),List.getElem?_drop] at kept
      left
      rwa [show 3 + (j - [' ',' ',' '].length) = j by simp only [List.length_cons,List.length_nil]; omega] at kept
  | directive percent => simp at isThere
  | plain other bound same =>
    left
    rw [same]
    exact inside _

theorem value_place (read : BodyReader) (s : Section) (fault : ReaderFault) (line column : Nat)
    (content : s.hasContent = true) (refused : read s.body = .error fault) (place : fault.place = some (line,column))
    (fromOne : 1 ≤ line ∧ 1 ≤ column) :
    ∃ e, s.value read = .error e ∧ e.line = some (s.firstLine + line) ∧ e.column = some column := by
  refine ⟨s.parseError fault,by simp [Section.value,content,refused],?_,?_⟩
  · simp only [Section.parseError,place,ParseError.markedAt,Option.some.injEq]
    omega
  · simp only [Section.parseError,place,ParseError.markedAt,Option.some.injEq]
    omega

theorem places_point_into_source (text : List Char) :
    ((sections text).flatMap Section.span = numbersOf isKept (Text.lines text) 0 ∧
      ((sections text).flatMap Section.span ++ numbersOf isStop (Text.lines text) 0).Perm
        (List.range (Text.lines text).length)) ∧
    ∀ s ∈ sections text, s.hasContent = true →
      ((Text.splitFeeds s.body).length = s.span.length ∧
        ∀ (j : Nat) (row : Line), (Text.splitFeeds s.body)[j]? = some row →
          ∃ source, (Text.lines text)[s.firstLine + j]? = some source ∧ Copies (s.explicit && j == 0) source row) ∧
      ∀ (read : BodyReader) (fault : ReaderFault) (line column : Nat), read s.body = .error fault →
        fault.place = some (line,column) → 1 ≤ line ∧ 1 ≤ column →
        ∃ e, s.value read = .error e ∧ e.line = some (s.firstLine + line) ∧ e.column = some column ∧
          ∀ c, charAt (Text.splitFeeds s.body) line column = some c →
            charAt (Text.lines text) (s.firstLine + line) column = some c ∨
              s.explicit = true ∧ line = 1 ∧ column ≤ 3 := by
  refine ⟨⟨sections_spans text,sections_spans text ▸ numbersOf_perm _⟩,?_⟩
  intro s member content
  rw [body_lines s content]
  refine ⟨⟨by simp [Section.span,Section.bodyLines],bodyLines_copies text s member⟩,?_⟩
  intro read fault line column refused place fromOne
  obtain ⟨e,fails,atLine,atColumn⟩ := value_place read s fault line column content refused place fromOne
  refine ⟨e,fails,atLine,atColumn,?_⟩
  obtain ⟨l,rfl⟩ := Nat.exists_eq_add_of_le' fromOne.1
  obtain ⟨k,rfl⟩ := Nat.exists_eq_add_of_le' fromOne.2
  intro c here
  obtain ⟨row,atRow,inRow⟩ := Option.bind_eq_some_iff.mp here
  obtain ⟨source,original,copies⟩ := bodyLines_copies text s member l row atRow
  rcases copies.column k c inRow with same | ⟨opening,marker⟩
  · left
    rw [←Nat.add_assoc]
    simpa [charAt,original] using same
  · right
    simp only [Bool.and_eq_true,beq_iff_eq] at opening
    exact ⟨opening.1,by omega,by omega⟩

theorem places_point_into_source_marker_line :
    let text := "a\n... x\n--- b: [\n%c\n".toList
    ∃ s ∈ sections text, ∃ fault e, s.hasContent = true ∧ Yaml.read s.body = .error fault ∧ fault.place = some (1,8) ∧
      s.value Yaml.read = .error e ∧ e.line = some 3 ∧ e.column = some 8 ∧ charAt (Text.lines text) 3 8 = some '[' := by
  intro text
  let s : Section := ⟨2,true,["    b: [".toList,"%c".toList]⟩
  have member : s ∈ sections text := by decide +kernel
  have content : s.hasContent = true := by decide +kernel
  have outcome : (match Yaml.read s.body with | .error fault => fault.place | .ok _ => none) = some (1,8) := by
    decide +kernel
  cases refused : Yaml.read s.body with
  | ok t => simp [refused] at outcome
  | error fault =>
    simp only [refused] at outcome
    obtain ⟨e,fails,atLine,atColumn,_⟩ :=
      ((places_point_into_source text).2 s member content).2 Yaml.read fault 1 8 refused outcome (by decide)
    exact ⟨s,member,fault,e,content,refused,outcome,fails,atLine,atColumn,by decide +kernel⟩

end AutomationLint.Stream
