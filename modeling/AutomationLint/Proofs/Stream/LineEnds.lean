import AutomationLint.Proofs.Check
import AutomationLint.Proofs.Text

namespace AutomationLint.Stream

inductive LineEnd where
  | feed | carriageFeed

def LineEnd.text : LineEnd → List Char
  | feed => ['\n']
  | carriageFeed => ['\r','\n']

-- Texts of these lines. Every line has either end; a last one that has
-- characters may have none.
inductive Spelled : List Line → List Char → Prop where
  | nothing : Spelled [] []
  | unended (some : line ≠ []) : Spelled [line] line
  | ended (ending : LineEnd) (rest : Spelled later text) : Spelled (line :: later) (line ++ ending.text ++ text)

def Unbroken (lines : List Line) : Prop := ∀ line ∈ lines, '\n' ∉ line ∧ '\r' ∉ line

instance : Decidable (Unbroken lines) := List.decidableBAll _ _

def parser (read : BodyReader) : DocumentParser := fun text => documents read text.toList

variable {lines : List Line} {line : Line} {text : List Char}

theorem lines_ending_line (ending : LineEnd) (feedless : '\n' ∉ line) (returnless : '\r' ∉ line) :
    Text.lines (line ++ ending.text ++ text) = line :: Text.lines text := by
  cases ending with
  | feed =>
    have kept := (Text.dropCarriage_eq_self line).mpr fun ends => returnless (List.mem_of_getLast? ends)
    rw [LineEnd.text,List.append_assoc,List.singleton_append,Text.lines_feed _ _ feedless,kept]
  | carriageFeed =>
    have longer : '\n' ∉ line ++ ['\r'] := by simpa using feedless
    have parted : line ++ LineEnd.carriageFeed.text ++ text = (line ++ ['\r']) ++ '\n' :: text := by simp [LineEnd.text]
    rw [parted,Text.lines_feed _ _ longer,Text.dropCarriage_concat]

theorem lines_spelled (spelled : Spelled lines text) (unbroken : Unbroken lines) : Text.lines text = lines := by
  induction spelled with
  | nothing => rfl
  | unended some =>
    have free := (unbroken _ List.mem_cons_self).1
    rw [Text.lines_open _ free,if_neg some]
  | ended ending rest ih =>
    obtain ⟨feedless,returnless⟩ := unbroken _ List.mem_cons_self
    rw [lines_ending_line ending feedless returnless,ih fun line member => unbroken line (List.mem_cons_of_mem _ member)]

theorem isBlank_lines (text : List Char) : Text.isBlank text = (Text.lines text).all Text.isBlank := by
  fun_induction Text.lines text with
  | case1 => rfl
  | case2 rest ih => exact ih
  | case3 rest ih => exact ih
  | case4 c rest feed carriage none ih =>
    rw [none] at ih
    simp only [Text.isBlank,List.all_cons,List.all_nil,Bool.and_true] at ih ⊢
    rw [ih,Bool.and_true]
  | case5 c rest feed carriage first later some ih =>
    rw [some] at ih
    simp only [Text.isBlank,List.all_cons,Bool.and_assoc] at ih ⊢
    rw [ih]

theorem documents_of_lines (read : BodyReader) (one other : List Char) (same : Text.lines one = Text.lines other) :
    documents read one = documents read other := by
  unfold documents sections
  rw [same]

theorem check_of_lines (read : BodyReader) (one other : String)
    (same : Text.lines one.toList = Text.lines other.toList) :
    checkWith (parser read) one = checkWith (parser read) other := by
  have documents := documents_of_lines read one.toList other.toList same
  rw [checkWith_eq,checkWith_eq,isBlank_lines,isBlank_lines,same,parser,parser,documents]

theorem line_ends_alike (lines : List Line) (unbroken : Unbroken lines) (one other : String)
    (first : Spelled lines one.toList) (second : Spelled lines other.toList) :
    (∀ read, documents read one.toList = documents read other.toList ∧
      checkWith (parser read) one = checkWith (parser read) other) ∧ check one = check other := by
  have same : Text.lines one.toList = Text.lines other.toList :=
    (lines_spelled first unbroken).trans (lines_spelled second unbroken).symm
  refine ⟨?_,check_of_lines Yaml.read one other same⟩
  intro read
  exact ⟨documents_of_lines read _ _ same,check_of_lines read one other same⟩

theorem line_ends_alike_later_fault :
    let lines := ["a: 1".toList,"---".toList,"b: [".toList]
    let one := "a: 1\r\n---\nb: [\r\n"
    let other := "a: 1\n---\r\nb: ["
    Unbroken lines ∧ Spelled lines one.toList ∧ Spelled lines other.toList ∧ check one = check other ∧
      ∃ e, check other = .error (.parse e) ∧ e.line = some 3 ∧ e.column = some 4 := by
  intro lines one other
  have unbroken : Unbroken lines := by decide +kernel
  have first : Spelled lines one.toList := by
    have parts : one.toList = "a: 1".toList ++ LineEnd.carriageFeed.text ++ ("---".toList ++ LineEnd.feed.text ++
        ("b: [".toList ++ LineEnd.carriageFeed.text ++ [])) := by decide +kernel
    rw [parts]
    exact .ended .carriageFeed (.ended .feed (.ended .carriageFeed .nothing))
  have second : Spelled lines other.toList := by
    have parts : other.toList = "a: 1".toList ++ LineEnd.feed.text ++ ("---".toList ++ LineEnd.carriageFeed.text ++
        "b: [".toList) := by decide +kernel
    rw [parts]
    exact .ended .feed (.ended .carriageFeed (.unended (by decide +kernel)))
  refine ⟨unbroken,first,second,(line_ends_alike lines unbroken one other first second).2,?_⟩
  have faulty : (match parseDocuments other with | .ok _ => none | .error e => some (e.line,e.column)) =
      some (some 3,some 4) := by decide +kernel
  rw [check,checkWith_eq,if_neg (by decide +kernel)]
  cases answer : parseDocuments other with
  | ok docs => simp [answer] at faulty
  | error e =>
    rw [answer] at faulty
    simp only [Option.some.injEq,Prod.mk.injEq] at faulty
    exact ⟨e,rfl,faulty⟩

end AutomationLint.Stream
