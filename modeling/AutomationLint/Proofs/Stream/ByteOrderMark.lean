import AutomationLint.Proofs.Stream.Documents
import AutomationLint.Proofs.Yaml.Scan.Unseen

namespace AutomationLint.Stream

def byteOrderMark : Char := '\uFEFF'

def marked (text : String) : String := String.ofList (byteOrderMark :: text.toList)

def MarkBlind (read : BodyReader) : Prop :=
  ∀ body, body.head? ≠ some byteOrderMark → read (byteOrderMark :: body) = read body

-- The reader drops a mark, but the cut does not: with one in front, the first
-- line is a line with content, whatever it was before. The mark is unseen
-- where the result with it is the result without it, and there is one with it
-- only where there is one without.
def MarkUnseen (read : BodyReader) (text : String) : Prop :=
  (checkWith (parser read) (marked text)).toOption = (checkWith (parser read) text).toOption

-- There is content in front of the first marker, and the first line is no
-- directive.
def Fronted (text : List Char) : Prop :=
  text.head? ≠ some '%' ∧ ∃ line ∈ untilMark (Text.lines text), Content line

instance : Decidable (Fronted text) := instDecidableAnd

def leading (lines : List Line) : Piece := (openedBy lines).getD ⟨.beginning,untilMark lines⟩

def leadingMarked (first : Line) (rest : List Line) : Piece :=
  ⟨.beginning,(byteOrderMark :: first) :: untilMark rest⟩

def Later (read : BodyReader) (rest : List Line) (docs : List Tree) : Prop :=
  List.Forall₂ (fun p d => p.Gives read d) ((opened rest).filter Piece.isDocument) docs

-- A reader that tells one body, with a mark or without, from all others. What
-- it gives shows which body it was given; so what holds for every reader can
-- be turned against the stream.
def knowing (body : List Char) : BodyReader := fun other =>
  .ok (if Yaml.dropMark other = body then some (.bool true) else none)

variable (read : BodyReader) (first : Line) (rest : List Line) (text : List Char)

theorem read_markBlind : MarkBlind Yaml.read := by
  intro body other
  have kept : Yaml.page body = body := Yaml.dropMark_other body other
  have dropped : Yaml.page (byteOrderMark :: body) = body := rfl
  simp only [Yaml.read,kept,dropped]

theorem lines_front (c : Char) (feed : c ≠ '\n') (carriage : c ≠ '\r') : Text.lines (c :: text) =
    match Text.lines text with
    | [] => [[c]]
    | line :: later => (c :: line) :: later := by
  conv => lhs; unfold Text.lines
  split
  · rename_i same
    cases same
  · rename_i same
    cases same
    exact absurd rfl feed
  · rename_i same
    cases same
    exact absurd rfl carriage
  · rename_i same
    cases same
    rfl

theorem lines_mark (lines : Text.lines text = first :: rest) :
    Text.lines (byteOrderMark :: text) = (byteOrderMark :: first) :: rest := by
  rw [lines_front text byteOrderMark (by decide) (by decide),lines]

theorem lines_head (lines : Text.lines text = first :: rest) : first = [] ∨ first.head? = text.head? := by
  match text with
  | [] => cases lines
  | c :: text =>
    unfold Text.lines at lines
    split at lines
    · cases lines
    · cases lines
      exact .inl rfl
    · cases lines
      exact .inl rfl
    · rename_i _ _ same
      cases same
      split at lines <;> cases lines <;> exact .inr rfl

theorem lines_percent (lines : Text.lines text = first :: rest) :
    first.head? = some '%' ↔ text.head? = some '%' := by
  constructor
  · intro percent
    rcases lines_head first rest text lines with none | same
    · rw [none] at percent
      cases percent
    · rw [←same,percent]
  · intro percent
    obtain ⟨text,rfl⟩ := List.head?_eq_some_iff.mp percent
    rw [lines_front text '%' (by decide) (by decide)] at lines
    split at lines <;> cases lines <;> rfl

theorem leading_other (other : isMark first = false) :
    leading (first :: rest) = ⟨.beginning,first :: untilMark rest⟩ := by
  obtain ⟨start,stop⟩ := Bool.or_eq_false_iff.mp other
  rw [leading,(opened_other first rest other).2]
  simp [openedBy,start,stop]

theorem leading_start (start : isStart first = true) :
    leading (first :: rest) = ⟨.start first,untilMark rest⟩ := by
  simp [leading,openedBy,start]

theorem leading_stop (stop : isStop first = true) : leading (first :: rest) = ⟨.stop,untilMark rest⟩ := by
  have start : isStart first = false := Bool.eq_false_iff.mpr fun start => start_not_stop first start stop
  simp [leading,openedBy,start,stop]

theorem pieces_leading : (pieces (first :: rest)).filter Piece.isDocument =
    (leading (first :: rest) :: opened rest).filter Piece.isDocument := by
  have bare : ¬(Piece.isDocument ⟨.beginning,[]⟩ = true) := by decide
  rcases mark_cases first with start | stop | other
  · obtain ⟨here,none⟩ := opened_start first rest start
    rw [pieces,here,none,List.filter_cons_of_neg bare,leading_start first rest start]
  · obtain ⟨here,none⟩ := opened_stop first rest stop
    rw [pieces,here,none,List.filter_cons_of_neg bare,leading_stop first rest stop]
  · obtain ⟨here,more⟩ := opened_other first rest other
    rw [pieces,here,more,leading_other first rest other]

theorem content_mark : Content (byteOrderMark :: first) := by
  have white : Text.isWhite byteOrderMark = false := by decide
  have front : (Text.trim (byteOrderMark :: first)).head? = some byteOrderMark := by simp [head?_trim,white]
  refine ⟨⟨by simp [Text.isBlank,white],?_⟩,by simp [byteOrderMark]⟩
  rw [front]
  decide

@[simp] theorem leadingMarked_content : (leadingMarked first rest).hasContent = true :=
  List.any_eq_true.mpr ⟨_,List.mem_cons_self,decide_eq_true (content_mark first)⟩

theorem pieces_leadingMarked : (pieces ((byteOrderMark :: first) :: rest)).filter Piece.isDocument =
    leadingMarked first rest :: (opened rest).filter Piece.isDocument := by
  obtain ⟨here,more⟩ := opened_other (byteOrderMark :: first) rest rfl
  have document : (leadingMarked first rest).isDocument = true := by
    rw [Piece.isDocument,leadingMarked_content,Bool.or_true]
  rw [pieces,here,more,←List.filter_cons_of_pos document]
  rfl

def Piece.shownLine (line : Line) : Line := if line.head? = some '%' then [] else Text.dropCarriage line

theorem Piece.body_start (after : Line) (following : List Line) :
    (⟨.start (['-','-','-'] ++ after),following⟩ : Piece).body =
      Text.joinLines ((' ' :: Text.dropCarriage (' ' :: ' ' :: after)) :: following.map Piece.shownLine) := by
  rw [←Text.dropCarriage_cons _ _ (List.cons_ne_nil _ _)]
  rfl

theorem Piece.body_stop (following : List Line) :
    (⟨.stop,following⟩ : Piece).body = Text.joinLines (following.map Piece.shownLine) := rfl

def plainBody (first : Line) (rest : List Line) : List Char :=
  Text.joinLines (Text.dropCarriage first ::
    (untilMark rest).map Piece.shownLine)

theorem joinLines_cons (c : Char) (row : Line) (rows : List Line) :
    Text.joinLines ((c :: row) :: rows) = c :: Text.joinLines (row :: rows) := by
  cases rows <;> rfl

theorem leadingMarked_body : (leadingMarked first rest).body = byteOrderMark :: plainBody first rest := by
  have kept : Text.dropCarriage (byteOrderMark :: first) = byteOrderMark :: Text.dropCarriage first := by
    cases first with
    | nil => rfl
    | cons c first => exact Text.dropCarriage_cons _ _ (List.cons_ne_nil _ _)
  have rows : (leadingMarked first rest).lines = (byteOrderMark :: first) :: untilMark rest := rfl
  have plain : (byteOrderMark :: first).head? ≠ some '%' := by simp [byteOrderMark]
  rw [Piece.body,rows,List.map_cons,if_neg plain,kept,joinLines_cons]
  rfl

theorem Piece.gives_content {p : Piece} (content : p.hasContent = true) (d : Tree) :
    p.Gives read d ↔ ∃ t, read p.body = .ok t ∧ t.getD .null = d := by
  constructor
  · intro gives
    cases gives with
    | empty none => simp [content] at none
    | value _ answer => exact ⟨_,answer,rfl⟩
  · rintro ⟨t,answer,rfl⟩
    exact .value content answer

theorem Piece.Gives.content {p : Piece} {d : Tree} (gives : p.Gives read d) (other : d ≠ .null) :
    p.hasContent = true := by
  cases gives with
  | empty => exact absurd rfl other
  | value content => exact content

theorem selectRoot_unique {docs other : List Tree} (length : docs.length = other.length)
    (root : selectRoot docs = selectRoot other) : docs = other := by
  match docs, other with
  | [], [] => rfl
  | [d], [e] => simpa [selectRoot] using root
  | _ :: _ :: _, _ :: _ :: _ => simpa [selectRoot] using root

theorem conclude_same (one other : Except ParseError (List Tree)) :
    (conclude one).toOption = (conclude other).toOption ↔ ∀ docs, one = .ok docs ↔ other = .ok docs := by
  cases one with
  | error e =>
    cases other with
    | error f => simp [conclude,Except.toOption]
    | ok ts => simp [conclude,Except.toOption]
  | ok ds =>
    cases other with
    | error f => simp [conclude,Except.toOption]
    | ok ts =>
      constructor
      · intro same
        have results := Option.some.inj same
        have documents := selectRoot_unique (congrArg CheckResult.documentCount results) (congrArg CheckResult.root results)
        rw [documents]
        exact fun docs => Iff.rfl
      · intro same
        cases (same ds).mp rfl
        rfl

theorem conclude_ok (answer : Except ParseError (List Tree)) (accepted : conclude answer = .ok r) :
    ∃ docs, answer = .ok docs ∧ r = checkRoot docs.length (selectRoot docs) := by
  cases answer with
  | error e => cases accepted
  | ok docs => exact ⟨docs,rfl,(Except.ok.inj accepted).symm⟩

theorem checkWith_content (given : String) (content : ¬Text.isBlank given.toList = true) :
    checkWith (parser read) given = conclude (documents read given.toList) := by
  rw [checkWith_eq,if_neg content]
  rfl

@[simp] theorem toList_marked (given : String) : (marked given).toList = byteOrderMark :: given.toList := String.toList_ofList

@[simp] theorem isBlank_marked (given : String) : ¬Text.isBlank (marked given).toList = true := by
  rw [toList_marked]
  simp [Text.isBlank,show Text.isWhite byteOrderMark = false by decide]

theorem later_cons (p : Piece) (docs : List Tree) :
    List.Forall₂ (fun p d => p.Gives read d) (p :: (opened rest).filter Piece.isDocument) docs ↔
      ∃ d later, docs = d :: later ∧ p.Gives read d ∧ Later read rest later := by
  rw [List.forall₂_cons_left_iff]
  constructor
  · rintro ⟨d,later,gives,behind,rfl⟩
    exact ⟨d,later,rfl,gives,behind⟩
  · rintro ⟨d,later,rfl,gives,behind⟩
    exact ⟨d,later,gives,behind,rfl⟩

theorem documents_marked (lines : Text.lines text = first :: rest) (docs : List Tree) :
    documents read (byteOrderMark :: text) = .ok docs ↔
      ∃ d later, docs = d :: later ∧ (leadingMarked first rest).Gives read d ∧ Later read rest later := by
  rw [documents_iff,lines_mark first rest text lines,pieces_leadingMarked,later_cons]

theorem documents_leading (lines : Text.lines text = first :: rest) (docs : List Tree) :
    documents read text = .ok docs ↔ if (leading (first :: rest)).isDocument = true
      then ∃ d later, docs = d :: later ∧ (leading (first :: rest)).Gives read d ∧ Later read rest later
      else Later read rest docs := by
  rw [documents_iff,lines,pieces_leading]
  split
  · rename_i document
    rw [List.filter_cons_of_pos document,later_cons]
  · rename_i silent
    rw [List.filter_cons_of_neg silent]
    rfl

theorem markUnseen_iff (given : String) (content : ¬Text.isBlank given.toList = true)
    (lines : Text.lines given.toList = first :: rest) : MarkUnseen read given ↔
      ∀ later, Later read rest later → (leading (first :: rest)).isDocument = true ∧
        ∀ d, (leadingMarked first rest).Gives read d ↔ (leading (first :: rest)).Gives read d := by
  rw [MarkUnseen,checkWith_content read _ (isBlank_marked given),checkWith_content read _ content,toList_marked,
    conclude_same]
  simp only [documents_marked read first rest _ lines,documents_leading read first rest _ lines]
  split
  · rename_i document
    constructor
    · intro same later behind
      refine ⟨document,fun d => ?_⟩
      have here := same (d :: later)
      simpa [behind] using here
    · intro same docs
      constructor
      · rintro ⟨d,later,rfl,gives,behind⟩
        exact ⟨d,later,rfl,((same later behind).2 d).mp gives,behind⟩
      · rintro ⟨d,later,rfl,gives,behind⟩
        exact ⟨d,later,rfl,((same later behind).2 d).mpr gives,behind⟩
  · rename_i silent
    constructor
    · intro same later behind
      -- The same documents cannot be behind one more.
      obtain ⟨d,rest',more,_,again⟩ := (same later).mpr behind
      have one := behind.length_eq
      have other := again.length_eq
      rw [more,List.length_cons] at one
      omega
    · intro same docs
      constructor
      · rintro ⟨d,later,rfl,_,behind⟩
        exact absurd (same later behind).1 silent
      · intro behind
        exact absurd (same docs behind).1 silent

theorem fronted_iff (lines : Text.lines text = first :: rest) : Fronted text ↔
    isMark first = false ∧ first.head? ≠ some '%' ∧ (leading (first :: rest)).hasContent = true := by
  rw [Fronted,lines,ne_eq,←lines_percent first rest text lines]
  rcases mark_cases first with start | stop | other
  · simp [(opened_start first rest start).2,isMark,start]
  · simp [(opened_stop first rest stop).2,isMark,stop]
  · have here : (leading (first :: rest)).lines = first :: untilMark rest := by
      rw [leading_other first rest other]
      rfl
    rw [(opened_other first rest other).2,Piece.hasContent,here]
    simp [other]

theorem plainBody_head (lines : Text.lines text = first :: rest) (other : text.head? ≠ some byteOrderMark) :
    (plainBody first rest).head? ≠ some byteOrderMark := by
  unfold plainBody
  cases row : Text.dropCarriage first with
  | nil => cases untilMark rest <;> simp [Text.joinLines,byteOrderMark]
  | cons c row' =>
    obtain ⟨returns,_,whole⟩ := Text.dropCarriage_returns first
    rw [row] at whole
    rw [joinLines_cons,List.head?_cons]
    rcases lines_head first rest text lines with none | same
    · rw [none] at whole
      cases whole
    · rwa [←same,whole] at other

theorem fronted_gives (blind : MarkBlind read) (lines : Text.lines text = first :: rest)
    (other : text.head? ≠ some byteOrderMark) (fronted : Fronted text) (d : Tree) :
    (leadingMarked first rest).Gives read d ↔ (leading (first :: rest)).Gives read d := by
  obtain ⟨plain,percent,content⟩ := (fronted_iff first rest text lines).mp fronted
  have body : (leading (first :: rest)).body = plainBody first rest := by
    rw [leading_other first rest plain]
    rw [plainBody,Piece.body,Piece.lines,List.map_cons,if_neg percent]
    rfl
  rw [Piece.gives_content read (leadingMarked_content first rest),Piece.gives_content read content,
    leadingMarked_body,blind _ (plainBody_head first rest text lines other),body]

theorem later_total (total : ∀ body, ∃ t, read body = .ok t) (rest : List Line) : ∃ later, Later read rest later := by
  unfold Later
  induction (opened rest).filter Piece.isDocument with
  | nil => exact ⟨[],.nil⟩
  | cons p list ih =>
    obtain ⟨later,behind⟩ := ih
    obtain ⟨t,answer⟩ := total p.body
    cases content : p.hasContent with
    | false => exact ⟨.null :: later,.cons (.empty content) behind⟩
    | true => exact ⟨t.getD .null :: later,.cons (.value content answer) behind⟩

theorem joinLines_length (row : Line) (rows : List Line) :
    (Text.joinLines (row :: rows)).length = row.length + (Text.joinLines ([] :: rows)).length := by
  cases rows <;> simp [Text.joinLines]

theorem body_plain (content : (leading (first :: rest)).hasContent = true)
    (same : Yaml.dropMark (leading (first :: rest)).body = plainBody first rest) :
    isMark first = false ∧ first.head? ≠ some '%' := by
  rcases mark_cases first with start | stop | other
  · -- What was a marker starts with a blank.
    obtain ⟨after,rfl,_⟩ := (isMarker_iff _ _).mp start
    have blank : (leading ((['-','-','-'] ++ after) :: rest)).body.head? = some ' ' := by
      rw [leading_start _ rest start,Piece.body_start,joinLines_cons,List.head?_cons]
    have dash : (plainBody (['-','-','-'] ++ after) rest).head? = some '-' := by
      rw [plainBody,Text.dropCarriage_append _ _ (by decide),List.cons_append,joinLines_cons,List.head?_cons]
    rw [Yaml.dropMark_other _ (by rw [blank]; decide)] at same
    rw [same,dash] at blank
    cases blank
  · -- The line is missing from the body.
    rw [leading_stop first rest stop] at content same
    have shorter := congrArg List.length same
    have bound := Yaml.dropMark_length (Piece.body ⟨.stop,untilMark rest⟩)
    rw [plainBody,joinLines_length] at shorter
    rw [Piece.body_stop] at shorter bound
    cases rows : untilMark rest with
    | nil => simp [Piece.hasContent,Piece.lines,rows] at content
    | cons row more =>
      simp only [rows,List.map_cons,Text.joinLines,List.length_append,List.length_cons,List.length_nil] at shorter bound
      omega
  · refine ⟨other,fun percent => ?_⟩
    obtain ⟨after,rfl⟩ := List.head?_eq_some_iff.mp percent
    have shorter := congrArg List.length same
    have bound := Yaml.dropMark_length (leading (('%' :: after) :: rest)).body
    have emptied : (leading (('%' :: after) :: rest)).body =
        Text.joinLines ([] :: (untilMark rest).map Piece.shownLine) := by
      rw [leading_other _ rest other]
      rfl
    obtain ⟨row,kept⟩ : ∃ row, Text.dropCarriage ('%' :: after) = '%' :: row := by
      cases after with
      | nil => exact ⟨[],rfl⟩
      | cons c after => exact ⟨_,Text.dropCarriage_cons _ _ (List.cons_ne_nil _ _)⟩
    rw [plainBody,joinLines_length,kept,List.length_cons] at shorter
    rw [emptied] at shorter bound
    omega

theorem knowing_markBlind (body : List Char) : MarkBlind (knowing body) := by
  intro other unmarked
  simp only [knowing,Yaml.dropMark_other other unmarked]
  rfl

theorem knowing_gives (body : List Char) (p : Piece) :
    p.Gives (knowing body) (.bool true) ↔ p.hasContent = true ∧ Yaml.dropMark p.body = body := by
  constructor
  · intro gives
    have content := Piece.Gives.content (knowing body) gives fun same => by cases same
    obtain ⟨t,answer,value⟩ := (Piece.gives_content (knowing body) content _).mp gives
    refine ⟨content,?_⟩
    by_contra differs
    cases answer.symm.trans (congrArg Except.ok (if_neg differs))
    cases value
  · rintro ⟨content,same⟩
    exact (Piece.gives_content (knowing body) content _).mpr ⟨_,congrArg Except.ok (if_pos same),rfl⟩

theorem fronted_unseen (given : String) (content : ¬Text.isBlank given.toList = true)
    (lines : Text.lines given.toList = first :: rest) (other : given.toList.head? ≠ some byteOrderMark)
    (blind : MarkBlind read) (fronted : Fronted given.toList) : MarkUnseen read given := by
  refine (markUnseen_iff read first rest given content lines).mpr fun later behind => ⟨?_,?_⟩
  · rw [Piece.isDocument,((fronted_iff first rest _ lines).mp fronted).2.2,Bool.or_true]
  · exact fronted_gives read first rest _ blind lines other fronted

-- Unseen by the reader that knows the body without a marker and a directive,
-- the mark is behind neither.
theorem unseen_fronted (given : String) (content : ¬Text.isBlank given.toList = true)
    (lines : Text.lines given.toList = first :: rest)
    (unseen : MarkUnseen (knowing (plainBody first rest)) given) : Fronted given.toList := by
  obtain ⟨later,behind⟩ := later_total (knowing (plainBody first rest)) (fun body => ⟨_,rfl⟩) rest
  obtain ⟨_,same⟩ := (markUnseen_iff _ first rest given content lines).mp unseen later behind
  have shown : (leadingMarked first rest).Gives (knowing (plainBody first rest)) (.bool true) := by
    refine (knowing_gives _ _).mpr ⟨leadingMarked_content first rest,?_⟩
    rw [leadingMarked_body]
    rfl
  obtain ⟨some,plain⟩ := (knowing_gives _ _).mp ((same (.bool true)).mp shown)
  obtain ⟨unmarked,percent⟩ := body_plain first rest some plain
  exact (fronted_iff first rest _ lines).mpr ⟨unmarked,percent,some⟩

theorem marked_counts (given : String) (content : ¬Text.isBlank given.toList = true)
    (lines : Text.lines given.toList = first :: rest) (silent : (leading (first :: rest)).isDocument = false)
    (accepted : checkWith (parser read) given = .ok without)
    (more : checkWith (parser read) (marked given) = .ok withMark) :
    withMark.documentCount = without.documentCount + 1 := by
  rw [checkWith_content read _ content] at accepted
  rw [checkWith_content read _ (isBlank_marked given),toList_marked] at more
  obtain ⟨docs,answer,rfl⟩ := conclude_ok _ accepted
  obtain ⟨others,marked,rfl⟩ := conclude_ok _ more
  have here := (documents_leading read first rest _ lines docs).mp answer
  rw [if_neg (by rw [silent]; decide)] at here
  obtain ⟨d,later,rfl,_,behind⟩ := (documents_marked read first rest _ lines others).mp marked
  exact congrArg (· + 1) (behind.length_eq.symm.trans here.length_eq)

theorem mark_unseen_exactly (given : String) (content : ¬Text.isBlank given.toList = true)
    (other : given.toList.head? ≠ some byteOrderMark) :
    (Fronted given.toList → (check (marked given)).toOption = (check given).toOption) ∧
    ((∀ read, MarkBlind read → MarkUnseen read given) ↔ Fronted given.toList) ∧
    ∃ first rest, Text.lines given.toList = first :: rest ∧
      (∀ read, MarkUnseen read given ↔
        ∀ later, Later read rest later → (leading (first :: rest)).isDocument = true ∧
          ∀ d, (leadingMarked first rest).Gives read d ↔ (leading (first :: rest)).Gives read d) ∧
      ∀ read without withMark, (leading (first :: rest)).isDocument = false →
        checkWith (parser read) given = .ok without → checkWith (parser read) (marked given) = .ok withMark →
        withMark.documentCount = without.documentCount + 1 := by
  obtain ⟨first,rest,lines⟩ : ∃ first rest, Text.lines given.toList = first :: rest := by
    cases lines : Text.lines given.toList with
    | nil => exact absurd (by rw [isBlank_lines,lines]; rfl) content
    | cons first rest => exact ⟨first,rest,rfl⟩
  have unseen (read : BodyReader) := fronted_unseen read first rest given content lines other
  refine ⟨unseen Yaml.read read_markBlind,⟨?_,fun fronted read blind => unseen read blind fronted⟩,first,rest,lines,?_,?_⟩
  · intro every
    exact unseen_fronted first rest given content lines (every _ (knowing_markBlind _))
  · intro read
    exact markUnseen_iff read first rest given content lines
  · intro read without withMark
    exact marked_counts read first rest given content lines

theorem mark_unseen_exactly_comment_first :
    let given := "# c\na: 1\n--- 2\n"
    ¬Text.isBlank given.toList = true ∧ given.toList.head? ≠ some byteOrderMark ∧ Fronted given.toList ∧
      (check (marked given)).toOption = (check given).toOption ∧ (∀ read, MarkBlind read → MarkUnseen read given) ∧
      documents Yaml.read given.toList = .ok [.map [("a",.int 1)],.int 2] := by
  intro given
  have content : ¬Text.isBlank given.toList = true := by decide +kernel
  have unmarked : given.toList.head? ≠ some byteOrderMark := by decide +kernel
  have fronted : Fronted given.toList := by decide +kernel
  obtain ⟨here,every,_⟩ := mark_unseen_exactly given content unmarked
  exact ⟨content,unmarked,fronted,here fronted,every.mpr fronted,by decide +kernel⟩

-- An empty document comes in front, so that the root is another one and the
-- record is not found in it.
theorem mark_hides_record :
    let given := "# c\n---\nautomation:\n- id: x\n"
    ¬Text.isBlank given.toList = true ∧ given.toList.head? ≠ some byteOrderMark ∧ MarkBlind Yaml.read ∧
      ∃ without withMark, check given = .ok without ∧ check (marked given) = .ok withMark ∧
        without.documentCount = 1 ∧ without.reports.map Report.label = ["x"] ∧
        withMark.documentCount = 2 ∧ withMark.reports = [] := by
  intro given
  let record : Tree := .map [("automation",.seq [.map [("id",.str "x")]])]
  have content : ¬Text.isBlank given.toList = true := by decide +kernel
  have one : documents Yaml.read given.toList = .ok [record] := by decide +kernel
  have two : documents Yaml.read (marked given).toList = .ok [.null,record] := by
    rw [toList_marked]
    decide +kernel
  refine ⟨content,by decide +kernel,read_markBlind,checkRoot 1 (some record),checkRoot 2 (some (.seq [.null,record])),
    ?_,?_,rfl,by decide +kernel,rfl,by decide +kernel⟩
  · exact (checkWith_content Yaml.read given content).trans (congrArg conclude one)
  · exact (checkWith_content Yaml.read _ (isBlank_marked given)).trans (congrArg conclude two)

end AutomationLint.Stream
