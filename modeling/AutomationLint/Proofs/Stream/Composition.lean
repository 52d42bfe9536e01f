import AutomationLint.Proofs.Stream.Sections
import AutomationLint.Yaml.Reader

namespace AutomationLint

def ParseError.movedBy (e : ParseError) (offset : Nat) : ParseError := {e with line := e.line.map (· + offset)}

namespace Stream

-- The outcome of one stream and then another one, `offset` lines further down.
-- A fault of the first ends both.
def oneThenOther (first second : Except ParseError (List Tree)) (offset : Nat) : Except ParseError (List Tree) :=
  match first with
  | .error e => .error e
  | .ok before =>
    match second with
    | .error e => .error (e.movedBy offset)
    | .ok after => .ok (before ++ after)

variable (read : BodyReader) (offset : Nat)

theorem parseError_movedBy (s : Section) (fault : ReaderFault) :
    (s.movedBy offset).parseError fault = (s.parseError fault).movedBy offset := by
  obtain ⟨report,place⟩ := fault
  cases place with
  | none => rfl
  | some place =>
    obtain ⟨line,column⟩ := place
    have moved : line - 1 + (s.firstLine + offset) + 1 = line - 1 + s.firstLine + 1 + offset := by omega
    simp [Section.parseError,ParseError.markedAt,ParseError.movedBy,Section.movedBy,moved]

theorem value_movedBy (s : Section) :
    (s.movedBy offset).value read = (s.value read).mapError (·.movedBy offset) := by
  have content : (s.movedBy offset).hasContent = s.hasContent := rfl
  have body : (s.movedBy offset).body = s.body := rfl
  unfold Section.value
  rw [content,body]
  split
  · cases got : read s.body with
    | error fault => exact congrArg Except.error (parseError_movedBy offset s fault)
    | ok t => rfl
  · rfl

theorem values_movedBy (list : List Section) :
    values read (list.map (·.movedBy offset)) = (values read list).mapError (·.movedBy offset) := by
  induction list with
  | nil => rfl
  | cons s rest ih =>
    simp only [List.map_cons,values,value_movedBy,ih]
    cases got : s.value read with
    | error e => rfl
    | ok t => cases tail : values read rest <;> rfl

theorem values_append (front rest : List Section) : values read (front ++ rest) =
    match values read front with
    | .error e => .error e
    | .ok before => (values read rest).map (before ++ ·) := by
  induction front with
  | nil =>
    change values read rest = (values read rest).map ([] ++ ·)
    cases values read rest <;> rfl
  | cons s front ih =>
    simp only [List.cons_append,values,ih]
    cases got : s.value read with
    | error e => rfl
    | ok t =>
      cases head : values read front with
      | error e => rfl
      | ok before => cases tail : values read rest <;> rfl

theorem movedBy_documents (list : List Section) :
    (list.map (·.movedBy offset)).filter Section.isDocument =
      (list.filter Section.isDocument).map (·.movedBy offset) := by
  rw [List.filter_map]
  rfl

theorem documents_of_sections (whole first second : List Char)
    (parts : sections whole = sections first ++ (sections second).map (·.movedBy offset) ∨
      sections whole = sections first ++ (sections second).tail.map (·.movedBy offset) ∧
        ∃ head, (sections second).head? = some head ∧ head.isDocument = false) :
    documents read whole = oneThenOther (documents read first) (documents read second) offset := by
  have kept : (sections whole).filter Section.isDocument = (sections first).filter Section.isDocument ++
      ((sections second).filter Section.isDocument).map (·.movedBy offset) := by
    rcases parts with all | ⟨tail,head,atHead,dropped⟩
    · rw [all,List.filter_append,movedBy_documents]
    · obtain ⟨later,same⟩ := List.head?_eq_some_iff.mp atHead
      rw [tail,List.filter_append,movedBy_documents,same,List.tail_cons,List.filter_cons_of_neg (by simp [dropped])]
  unfold documents
  rw [kept,values_append,values_movedBy]
  cases values read ((sections first).filter Section.isDocument) with
  | error e => rfl
  | ok before => cases values read ((sections second).filter Section.isDocument) <;> rfl

theorem sections_start (before after : List Char) (whole : Text.Whole before) (first : Line)
    (opening : (Text.lines after).head? = some first) (start : isStart first = true) :
    sections (before ++ after) = sections before ++ (sections after).tail.map (·.movedBy (Text.lines before).length) ∧
      (sections after).head? = some ⟨0,false,[]⟩ := by
  obtain ⟨rest,lines⟩ := List.head?_eq_some_iff.mp opening
  obtain ⟨closed,last,alone,onward⟩ := cut_append ⟨0,false,[]⟩ 0 (Text.lines before)
  have moved := cut_movedBy ⟨0,true,[blankMarker first]⟩ 1 (Text.lines before).length rest
  unfold sections
  rw [Text.lines_append _ _ whole,lines,onward,cut_start _ _ _ _ start,alone,cut_start _ _ _ _ start]
  refine ⟨?_,rfl⟩
  rw [List.tail_cons,Nat.zero_add,←moved,Nat.add_comm 1,List.append_assoc]
  simp [Section.movedBy]

theorem sections_stop (before stop after : List Char) (whole : Text.Whole before) (free : '\n' ∉ stop)
    (marker : isStop stop = true) : sections (before ++ stop ++ '\n' :: after) =
      sections before ++ (sections after).map (·.movedBy ((Text.lines before).length + 1)) := by
  obtain ⟨closed,last,alone,onward⟩ := cut_append ⟨0,false,[]⟩ 0 (Text.lines before)
  have moved := cut_movedBy ⟨0,false,[]⟩ 0 ((Text.lines before).length + 1) (Text.lines after)
  unfold sections
  rw [List.append_assoc,Text.lines_append _ _ whole,Text.lines_feed _ _ free,onward,
    cut_stop _ _ _ _ (isStop_dropCarriage _ marker),alone,←moved]
  simp [Section.movedBy]

theorem documents_compose (before after : List Char) (whole : Text.Whole before) :
    (∀ first, (Text.lines after).head? = some first → isStart first = true →
      documents read (before ++ after) =
        oneThenOther (documents read before) (documents read after) (Text.lines before).length) ∧
    (∀ stop, '\n' ∉ stop → isStop stop = true →
      documents read (before ++ stop ++ '\n' :: after) =
        oneThenOther (documents read before) (documents read after) ((Text.lines before).length + 1)) := by
  constructor
  · intro first opening start
    obtain ⟨parts,head⟩ := sections_start before after whole first opening start
    exact documents_of_sections read _ _ _ _ (.inr ⟨parts,_,head,rfl⟩)
  · intro stop free marker
    exact documents_of_sections read _ _ _ _ (.inl (sections_stop before stop after whole free marker))

theorem documents_compose_later_fault :
    (documents Yaml.read "a: 1\n---\nb: [\n".toList =
      oneThenOther (documents Yaml.read "a: 1\n".toList) (documents Yaml.read "---\nb: [\n".toList) 1) ∧
    documents Yaml.read "a: 1\n... end\nb: [\n".toList =
      oneThenOther (documents Yaml.read "a: 1\n".toList) (documents Yaml.read "b: [\n".toList) 2 :=
  ⟨(documents_compose Yaml.read "a: 1\n".toList "---\nb: [\n".toList (.inr rfl)).1 "---".toList rfl rfl,
    (documents_compose Yaml.read "a: 1\n".toList "b: [\n".toList (.inr rfl)).2 "... end".toList (by decide) rfl⟩

end Stream

end AutomationLint
