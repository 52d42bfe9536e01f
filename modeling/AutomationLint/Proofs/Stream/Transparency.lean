import AutomationLint.Proofs.Stream.Sections
import AutomationLint.Tree
import AutomationLint.Yaml.Reader

namespace AutomationLint.Stream

def Unmarked (text : List Char) : Prop :=
  ∀ line ∈ Text.lines text, isStart line = false ∧ isStop line = false ∧ line.head? ≠ some '%'

instance : Decidable (Unmarked text) := List.decidableBAll _ _

def Meaningful (line : Line) : Prop := Text.isBlank line = false ∧ (Text.trim line).head? ≠ some '#'

instance : Decidable (Meaningful line) := instDecidableAnd

-- What the reader is given of a text without markers: its lines, each without
-- one more carriage return, joined again. The end of the last one is lost.
def rejoined (text : List Char) : List Char := Text.joinLines ((Text.lines text).map Text.dropCarriage)

def Clean (text : List Char) : Prop :=
  (∀ piece ∈ Text.splitFeeds text, piece.getLast? ≠ some '\r') ∧ text.getLast? ≠ some '\n'

def asOnly (answer : Except ReaderFault (Option Tree)) : Except ParseError (List Tree) :=
  match answer with
  | .ok t => .ok [t.getD .null]
  | .error fault => .error (Section.parseError ⟨0,false,[]⟩ fault)

structure Transparent (read : BodyReader) (text : List Char) : Prop where
  accepted : ∀ t, read text = .ok t → documents read text = .ok [t.getD .null]
  refused : ∀ fault, read text = .error fault → ∃ e, documents read text = .error e

def feedFor (c : Char) : Char := if c = '\r' then '\n' else c

def fed : List Char → List Char
  | '\r' :: '\n' :: rest => '\n' :: fed rest
  | c :: rest => feedFor c :: fed rest
  | [] => []

-- One kind of line break is like another. The stream turns every end of a line
-- into a line feed, so only such a reader cannot tell what it is given from
-- what stands in the text.
def BreakBlind (read : BodyReader) : Prop := ∀ text, (read (fed text)).toOption = (read text).toOption

def Tidy (text : List Char) : Prop :=
  (∀ piece ∈ Text.splitFeeds text, ¬['\r','\r'] <:+ piece) ∧ text.getLast? ≠ some '\n' ∧ text.getLast? ≠ some '\r'

instance : Decidable (Tidy text) := inferInstanceAs (Decidable (_ ∧ _))

variable (read : BodyReader) (text : List Char) (line : Line)

theorem cut_unmarked (current : Section) (number : Nat) (lines : List Line)
    (unmarked : ∀ line ∈ lines, isStart line = false ∧ isStop line = false) :
    cut current number lines = [{current with lines := current.lines ++ lines}] := by
  induction lines generalizing current number with
  | nil => simp [cut]
  | cons line lines ih =>
    obtain ⟨start,stop⟩ := unmarked line List.mem_cons_self
    have taken : step current number line = ([],{current with lines := current.lines ++ [line]}) := by
      simp [step,start,stop]
    rw [cut_cons,taken,ih _ _ fun other member => unmarked other (List.mem_cons_of_mem _ member)]
    simp

@[simp] theorem find?_dropCarriage : (Text.dropCarriage line).find? (fun c => !Text.isWhite c) =
    line.find? fun c => !Text.isWhite c := by
  obtain ⟨returns,_,whole⟩ := Text.dropCarriage_returns line
  have white : (List.replicate returns '\r').find? (fun c => !Text.isWhite c) = none := by
    refine List.find?_eq_none.mpr ?_
    intro c member
    rw [(List.mem_replicate.mp member).2]
    decide
  conv => rhs; rw [whole,List.find?_append,white]
  simp

theorem isBlank_eq_isNone : Text.isBlank line = (line.find? fun c => !Text.isWhite c).isNone := by
  rw [Bool.eq_iff_iff,Option.isNone_iff_eq_none,List.find?_eq_none]
  simp [Text.isBlank]

theorem head?_trim : (Text.trim line).head? = line.find? fun c => !Text.isWhite c := by
  induction line with
  | nil => rfl
  | cons c rest ih =>
    by_cases white : Text.isWhite c = true
    · have start : Text.trim (c :: rest) = Text.trim rest := by simp [Text.trim,Text.trimStart,white]
      rw [start,ih]
      simp [white]
    · have kept : (Text.trimEnd (c :: rest)).head? = some c := by
        rw [Text.trimEnd,List.reverse_cons,List.dropWhile_append]
        split <;> simp [white]
      simp only [Text.trim,Text.trimStart,List.dropWhile_cons,white]
      simpa [white] using kept

theorem isContent_iff : Section.isContent line = true ↔ Meaningful line ∧ line.head? ≠ some '%' := by
  simp [Section.isContent,Section.isDirective,Meaningful,and_assoc]

@[simp] theorem meaningful_dropCarriage : Meaningful (Text.dropCarriage line) ↔ Meaningful line := by
  simp only [Meaningful,isBlank_eq_isNone,head?_trim,find?_dropCarriage]

theorem head?_dropCarriage (percent : (Text.dropCarriage line).head? = some '%') : line.head? = some '%' := by
  obtain ⟨returns,_,whole⟩ := Text.dropCarriage_returns line
  obtain ⟨rest,same⟩ := List.head?_eq_some_iff.mp percent
  rw [whole,same]
  rfl

theorem sections_unmarked (unmarked : Unmarked text) : sections text = [⟨0,false,Text.lines text⟩] :=
  cut_unmarked _ _ _ fun line member => ⟨(unmarked line member).1,(unmarked line member).2.1⟩

theorem documents_unmarked (unmarked : Unmarked text) (content : ∃ line ∈ Text.lines text, Meaningful line) :
    documents read text = asOnly (read (rejoined text)) := by
  let s : Section := ⟨0,false,Text.lines text⟩
  have only := sections_unmarked text unmarked
  have rows : s.rows = (Text.lines text).map Text.dropCarriage := section_rows text s (by simp [only,s])
  have plain : ∀ row ∈ s.rows, row.head? ≠ some '%' := by
    intro row member
    rw [rows] at member
    obtain ⟨line,inside,rfl⟩ := List.mem_map.mp member
    exact fun percent => (unmarked line inside).2.2 (head?_dropCarriage line percent)
  have has : s.hasContent = true := by
    obtain ⟨line,inside,meaningful⟩ := content
    have row : Text.dropCarriage line ∈ s.rows := rows ▸ List.mem_map_of_mem inside
    exact List.any_eq_true.mpr
      ⟨_,row,(isContent_iff _).mpr ⟨(meaningful_dropCarriage line).mpr meaningful,plain _ row⟩⟩
  have kept : s.bodyLines = s.rows := by
    refine (List.map_congr_left ?_).trans (List.map_id _)
    intro row member
    simp [Section.isDirective,plain row member]
  have body : s.body = rejoined text := by rw [Section.body,kept,rows,rejoined]
  have document : s.isDocument = true := by simp [Section.isDocument,has]
  rw [documents,only,List.filter_cons_of_pos document,List.filter_nil,values,values,Section.value,if_pos has,body]
  cases read (rejoined text) <;> rfl

theorem transparent_iff (unmarked : Unmarked text) (content : ∃ line ∈ Text.lines text, Meaningful line) :
    Transparent read text ↔
      ((read (rejoined text)).toOption.map fun t => t.getD .null) = (read text).toOption.map fun t => t.getD .null := by
  have all := documents_unmarked read text unmarked content
  cases body : read (rejoined text) with
  | ok given =>
    rw [body] at all
    cases whole : read text with
    | ok t =>
      refine ⟨fun only => ?_,fun same => ⟨?_,by simp [whole]⟩⟩
      · simpa [all,asOnly,Except.toOption] using only.accepted t whole
      · simpa [all,asOnly,whole,Except.toOption] using same
    | error fault =>
      refine iff_of_false (fun only => ?_) (by simp [Except.toOption])
      obtain ⟨e,fails⟩ := only.refused fault whole
      simp [all,asOnly] at fails
  | error refusal =>
    rw [body] at all
    cases whole : read text with
    | ok t =>
      refine iff_of_false (fun only => ?_) (by simp [Except.toOption])
      simpa [all,asOnly] using only.accepted t whole
    | error fault => exact iff_of_true ⟨by simp [whole],fun _ _ => ⟨_,all⟩⟩ rfl

theorem rejoined_parts (front : List Line) (last : Line) (free : ∀ line ∈ front, '\n' ∉ line) (open_ : '\n' ∉ last)
    (some : last ≠ []) : rejoined (Text.ended front ++ last) =
      Text.ended (front.map fun line => Text.dropCarriage (Text.dropCarriage line)) ++ Text.dropCarriage last := by
  rw [rejoined,Text.lines_parts _ _ free open_,if_neg some,List.map_append,List.map_map]
  exact Text.join_parts _ _

theorem dropCarriage_free (free : '\n' ∉ line) : '\n' ∉ Text.dropCarriage line := by
  obtain ⟨returns,_,whole⟩ := Text.dropCarriage_returns line
  rw [whole] at free
  exact fun member => free (List.mem_append_left _ member)

theorem dropCarriage_twice : Text.dropCarriage (Text.dropCarriage line) = line ↔ line.getLast? ≠ some '\r' := by
  rw [←Text.dropCarriage_eq_self]
  constructor
  · intro same
    obtain ⟨returns,_,whole⟩ := Text.dropCarriage_returns line
    obtain ⟨more,_,rest⟩ := Text.dropCarriage_returns (Text.dropCarriage line)
    have short : (Text.dropCarriage line).length = line.length + more := by
      rw [rest,same]
      simp
    have long : line.length = (Text.dropCarriage line).length + returns := by
      conv => lhs; rw [whole]
      simp
    have none : returns = 0 := by omega
    rw [none] at whole
    simpa using whole.symm
  · intro same
    rw [same,same]

section Parts

variable {front : List Line} {last : Line} (free : ∀ line ∈ front, '\n' ∉ line) (open_ : '\n' ∉ last)
include free open_

theorem clean_parts (some : last ≠ []) : Clean (Text.ended front ++ last) ↔
    (∀ line ∈ front, line.getLast? ≠ .some '\r') ∧ last.getLast? ≠ .some '\r' := by
  rw [Clean,Text.splitFeeds_parts front last free open_]
  constructor
  · intro clean
    exact ⟨fun line member => clean.1 line (List.mem_append_left _ member),clean.1 last (by simp)⟩
  · intro whole
    refine ⟨?_,?_⟩
    · intro piece member
      rcases List.mem_append.mp member with old | new
      · exact whole.1 piece old
      · exact List.mem_singleton.mp new ▸ whole.2
    · rw [Text.getLast?_parts front last some]
      exact fun feed => open_ (List.mem_of_getLast? feed)

theorem rejoined_eq_parts (some : last ≠ []) : rejoined (Text.ended front ++ last) = Text.ended front ++ last ↔
    (∀ line ∈ front, line.getLast? ≠ .some '\r') ∧ last.getLast? ≠ .some '\r' := by
  rw [rejoined_parts front last free open_ some]
  constructor
  · intro same
    have split := congrArg Text.splitFeeds same
    rw [Text.splitFeeds_parts front last free open_,Text.splitFeeds_parts _ _ ?_ (dropCarriage_free _ open_)] at split
    · obtain ⟨fronts,lasts⟩ := List.append_inj' split rfl
      refine ⟨?_,(Text.dropCarriage_eq_self last).mp (List.cons.inj lasts).1⟩
      intro line member
      exact (dropCarriage_twice line).mp (List.map_inj_left.mp (fronts.trans (List.map_id front).symm) line member)
    · intro line member
      obtain ⟨source,inside,rfl⟩ := List.mem_map.mp member
      exact dropCarriage_free _ (dropCarriage_free _ (free source inside))
  · intro whole
    have fronts : front.map (fun line => Text.dropCarriage (Text.dropCarriage line)) = front :=
      (List.map_congr_left fun line member => (dropCarriage_twice line).mpr (whole.1 line member)).trans
        (List.map_id front)
    rw [fronts,(Text.dropCarriage_eq_self last).mpr whole.2]

end Parts

theorem rejoined_ended {later : List Line} (free : ∀ l ∈ line :: later, '\n' ∉ l) :
    rejoined (Text.ended (line :: later)) ≠ Text.ended (line :: later) := by
  intro same
  have written : Text.ended (line :: later) = Text.ended (line :: later) ++ [] := (List.append_nil _).symm
  have rows : ((Text.lines (Text.ended (line :: later))).map Text.dropCarriage).length = later.length + 1 := by
    rw [written,Text.lines_parts _ _ free List.not_mem_nil]
    simp
  have split := Text.splitFeeds_join ((Text.lines (Text.ended (line :: later))).map Text.dropCarriage)
    (List.ne_nil_of_length_eq_add_one rows) (by
      intro row member
      obtain ⟨source,inside,rfl⟩ := List.mem_map.mp member
      exact dropCarriage_free source (Text.lines_free _ source inside))
  have pieces := Text.splitFeeds_parts (line :: later) [] free List.not_mem_nil
  rw [←written] at pieces
  rw [←rejoined,same,pieces] at split
  have length := congrArg List.length split
  rw [rows] at length
  simp at length

theorem rejoined_eq_self : rejoined text = text ↔ Clean text := by
  obtain ⟨front,last,free,open_,rfl⟩ := Text.parts text
  by_cases some : last = []
  · subst some
    rw [List.append_nil]
    cases front with
    | nil => exact iff_of_true rfl ⟨by simp [Text.ended,Text.splitFeeds],by simp [Text.ended]⟩
    | cons line later =>
      have ends := Text.getLast?_ended (line :: later) (List.cons_ne_nil _ _)
      exact iff_of_false (rejoined_ended line free) fun clean => clean.2 ends
  · rw [clean_parts free open_ some,rejoined_eq_parts free open_ some]

theorem fed_feed (rest : List Char) (free : '\n' ∉ line) :
    fed (line ++ '\n' :: rest) = (Text.dropCarriage line).map feedFor ++ '\n' :: fed rest := by
  induction line with
  | nil => rfl
  | cons c line ih =>
    have inner : '\n' ∉ line := List.not_mem_of_not_mem_cons free
    cases line with
    | nil =>
      by_cases carriage : c = '\r'
      · subst carriage; rfl
      · simp [fed,Text.dropCarriage,carriage,feedFor]
    | cons d line =>
      have plain : d ≠ '\n' := (List.ne_of_not_mem_cons inner).symm
      rw [Text.dropCarriage_cons _ _ (List.cons_ne_nil _ _)]
      simp only [List.cons_append] at ih ⊢
      rw [fed,ih inner]
      · rfl
      · intro rest' _ same
        exact plain (List.cons.inj same).1

theorem fed_open (free : '\n' ∉ line) : fed line = line.map feedFor := by
  induction line with
  | nil => rfl
  | cons c line ih =>
    have inner : '\n' ∉ line := List.not_mem_of_not_mem_cons free
    rw [fed,ih inner]
    · rfl
    · intro rest _ same
      exact inner (same ▸ List.mem_cons_self)

theorem fed_parts (front : List Line) (last : Line) (free : ∀ line ∈ front, '\n' ∉ line) (open_ : '\n' ∉ last) :
    fed (Text.ended front ++ last) =
      Text.ended (front.map fun line => (Text.dropCarriage line).map feedFor) ++ last.map feedFor := by
  induction front with
  | nil => exact fed_open last open_
  | cons line front ih =>
    have step : Text.ended (line :: front) ++ last = line ++ '\n' :: (Text.ended front ++ last) := by simp [Text.ended]
    rw [step,fed_feed _ _ (free line List.mem_cons_self),ih fun line member => free line (List.mem_cons_of_mem _ member)]
    simp [Text.ended]

-- What a line loses twice over is a second carriage return.
theorem dropCarriage_thrice (one : ¬['\r','\r'] <:+ line) :
    Text.dropCarriage (Text.dropCarriage line) = Text.dropCarriage line := by
  rw [Text.dropCarriage_eq_self]
  intro ends
  obtain ⟨front,inner⟩ := List.getLast?_eq_some_iff.mp ends
  obtain ⟨returns,bound,whole⟩ := Text.dropCarriage_returns line
  rw [inner] at whole
  match returns, bound with
  | 0, _ =>
    rw [List.replicate_zero,List.append_nil] at whole
    rw [whole,Text.dropCarriage_concat] at inner
    simpa using congrArg List.length inner
  | 1, _ => exact one ⟨front,by rw [whole]; simp⟩

theorem fed_rejoined (tidy : Tidy text) : fed (rejoined text) = fed text := by
  obtain ⟨front,last,free,open_,rfl⟩ := Text.parts text
  obtain ⟨single,feed,carriage⟩ := tidy
  rw [Text.splitFeeds_parts front last free open_] at single
  by_cases some : last = []
  · subst some
    cases front with
    | nil => rfl
    | cons line later =>
      have ends := Text.getLast?_ended (line :: later) (List.cons_ne_nil _ _)
      rw [List.append_nil] at feed
      exact absurd ends feed
  · rw [Text.getLast?_parts front last some] at carriage
    have kept := (Text.dropCarriage_eq_self last).mpr carriage
    rw [rejoined_parts front last free open_ some,kept,fed_parts _ _ ?_ open_,fed_parts _ _ free open_,List.map_map]
    · have once : ∀ line ∈ front, Text.dropCarriage (Text.dropCarriage line) = Text.dropCarriage line :=
        fun line member => dropCarriage_thrice line (single line (List.mem_append_left _ member))
      rw [List.map_congr_left]
      intro line member
      simp only [Function.comp_apply,once line member]
    · intro line member
      obtain ⟨source,inside,rfl⟩ := List.mem_map.mp member
      exact dropCarriage_free _ (dropCarriage_free _ (free source inside))

theorem lines_ending (c : Char) (last : text.getLast? = some c) (feed : c ≠ '\n') (carriage : c ≠ '\r') :
    Text.lines (text ++ ['\n']) = Text.lines text := by
  obtain ⟨front,rest,free,open_,rfl⟩ := Text.parts text
  by_cases none : rest = []
  · subst none
    cases front with
    | nil => simp [Text.ended] at last
    | cons line later =>
      rw [List.append_nil,Text.getLast?_ended _ (List.cons_ne_nil _ _)] at last
      exact absurd (Option.some.inj last).symm feed
  · rw [Text.getLast?_parts front rest none] at last
    have kept : Text.dropCarriage rest = rest := (Text.dropCarriage_eq_self rest).mpr (by simpa [last] using carriage)
    rw [List.append_assoc,Text.lines_ended _ _ free,Text.lines_feed _ _ open_,kept,Text.lines_parts _ _ free open_,
      if_neg none]
    rfl

theorem transparent_exactly (unmarked : Unmarked text) (content : ∃ line ∈ Text.lines text, Meaningful line) :
    (∀ read, documents read text = asOnly (read (rejoined text))) ∧
    ((∀ read, Transparent read text) ↔ Clean text) ∧
    (∀ read, BreakBlind read → Tidy text → Transparent read text) ∧
    ∀ read c, text.getLast? = some c → c ≠ '\n' → c ≠ '\r' →
      documents read (text ++ ['\n']) = documents read text := by
  refine ⟨fun read => documents_unmarked read text unmarked content,?_,?_,?_⟩
  · constructor
    · intro every
      -- A reader that knows the text itself from every other one.
      let knows : BodyReader := fun body => .ok (if body = text then some (.bool true) else none)
      have shown := (transparent_iff knows text unmarked content).mp (every knows)
      refine (rejoined_eq_self text).mp (Decidable.byContradiction ?_)
      intro other
      simp [knows,Except.toOption,other] at shown
    · intro clean read
      rw [transparent_iff read text unmarked content,(rejoined_eq_self text).mpr clean]
  · intro read blind tidy
    rw [transparent_iff read text unmarked content,←blind (rejoined text),fed_rejoined text tidy,blind text]
  · intro read c last feed carriage
    unfold documents sections
    rw [lines_ending text c last feed carriage]

theorem fed_self (free : '\r' ∉ text) : fed text = text := by
  fun_induction fed text with
  | case1 rest => exact absurd List.mem_cons_self free
  | case2 c rest _ ih =>
    have other : c ≠ '\r' := (List.ne_of_not_mem_cons free).symm
    rw [ih (List.not_mem_of_not_mem_cons free),feedFor,if_neg other]
  | case3 => rfl

theorem fed_free : '\r' ∉ fed text := by
  fun_induction fed text with
  | case1 rest ih => simpa using ih
  | case2 c rest _ ih =>
    refine List.not_mem_cons_of_ne_of_not_mem ?_ ih
    unfold feedFor
    split
    · decide
    · rename_i other
      exact Ne.symm other
  | case3 => simp

theorem transparent_exactly_folded_scalar :
    let text := "a: b\r\n  c\n\r\n  d".toList
    let read : BodyReader := fun body => Yaml.read (fed body)
    Unmarked text ∧ BreakBlind read ∧ Tidy text ∧ Transparent read text ∧
      documents read (text ++ ['\n']) = documents read text ∧
      (documents read text).toOption = some [.map [("a",.str "b c\nd")]] := by
  intro text read
  have unmarked : Unmarked text := by decide +kernel
  have content : ∃ line ∈ Text.lines text, Meaningful line := by decide +kernel
  have blind : BreakBlind read := fun body => by
    simp only [read,fed_self _ (fed_free body)]
  have tidy : Tidy text := by decide +kernel
  obtain ⟨_,_,whole,ending⟩ := transparent_exactly text unmarked content
  exact ⟨unmarked,blind,tidy,whole read blind tidy,ending read 'd' (by decide +kernel) (by decide) (by decide),by decide +kernel⟩

-- A scalar that keeps its line ends loses the last of them on the way to the
-- reader.
theorem kept_line_end_lost :
    let text := "a: |+\n  x\n\n".toList
    Unmarked text ∧ (∃ line ∈ Text.lines text, Meaningful line) ∧ ¬Transparent Yaml.read text ∧
      (Yaml.read text).toOption = some (some (.map [("a",.str "x\n\n")])) ∧
      (documents Yaml.read text).toOption = some [.map [("a",.str "x\n")]] := by
  intro text
  have unmarked : Unmarked text := by decide +kernel
  have content : ∃ line ∈ Text.lines text, Meaningful line := by decide +kernel
  have kept : (Yaml.read text).toOption = some (some (.map [("a",.str "x\n\n")])) := by decide +kernel
  have lost : (Yaml.read (rejoined text)).toOption = some (some (.map [("a",.str "x\n")])) := by decide +kernel
  refine ⟨unmarked,content,?_,kept,by decide +kernel⟩
  intro transparent
  rw [transparent_iff Yaml.read text unmarked content,kept,lost] at transparent
  revert transparent
  decide

end AutomationLint.Stream
