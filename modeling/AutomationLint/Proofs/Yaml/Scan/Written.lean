import AutomationLint.Proofs.Number.Numerals
import AutomationLint.Proofs.Yaml.Legible
import AutomationLint.Proofs.Yaml.Scalar.Lines
import AutomationLint.Proofs.Yaml.Scan.Keys
import AutomationLint.Proofs.Yaml.Scan.Scalars

namespace AutomationLint.Yaml.Scan
open Writer

section

variable {s : Scan} {kinds : List TokenKind} {columns : List Nat} {text more rest tail : List Char} {column : Int}

-- The column where the further lines of a value are written in these blocks.
def insideOf (columns : List Nat) : Nat := (indentOf columns).toNat + 2

theorem dropLast_line (text more : List Char) : (text ++ ['\n'] ++ more).dropLast = text ++ ('\n' :: more).dropLast := by
  rw [List.append_assoc,List.dropLast_append_of_ne_nil]
  · rfl
  · exact List.cons_ne_nil _ _

theorem single_faithful {c : Char} (blank : isBlank c = false) (feed : isBreak c = false) (quote : c ≠ '\'') :
    Quoted.Faithful true (fun c => [c]) c := by
  refine .plain rfl ?_ feed quote nofun
  rintro rfl
  exact absurd blank (by decide)

-- A block scalar ends where a line stands outside its indentation.
theorem block_passed (holds : Holds s kinds) (within : Within s columns) (deep : indentOf columns < s.column)
    (folded : Bool) {digit : Bool} {chomping : Block.Chomping} {k n : Nat} {line : List Char} {later : List (List Char)}
    (is : Block.Rows folded (line :: later)) (ends : Block.Ends chomping k n) (told : digit = needsDigit (line :: later))
    (there : s.cur.rest = (if folded then '>' else '|') :: ((if digit then ['2'] else []) ++
      (Block.marks chomping ++ Block.below (insideOf columns) (line :: (later ++ List.replicate k [])) tail)))
    (onward : Onward tail column rest) (out : column ≤ indentOf columns)
    (said : text = Block.joined (Block.glue folded) (line :: later) ++ Block.newlines n) :
    ∃ t, Passed s (kinds ++ [.scalar (if folded then .folded else .literal) text]) columns column rest t := by
  have turned : s.turn = s.block folded := by
    rw [turn_content there (within.indent_le deep)]
    · cases folded <;> simp [dispatch,holds.inFlow]
    · intro _
      cases folded <;> exact ⟨by decide,rfl⟩
  have tight : (s.noteKey.allowKey true).leaveNonBlock =
      tightened {s with key := s.property.key, keyAllowed := true} columns := by
    rw [noteKey_eq]
    exact leaveNonBlock_within (within.of_eq rfl rfl)
  have less : column < insideOf columns := by simp only [insideOf]; omega
  obtain ⟨r,read,text_,place,at_,indented⟩ :=
    Block.read_written s.steps (indentOf columns) digit _ later is onward ends told rfl less there holds.steps
  have done : s.block folded = .ok (emit {s.tightened columns with
      key := s.property.key, keyAllowed := true, cur := r.cur, lineStart := true}
      (.scalar (if folded then .folded else .literal) text) r.pos) := by
    unfold block
    dsimp only
    rw [tight]
    simp only [tightened]
    rw [read]
    simp only [text_,said]
  have shorter : rest.length < s.cur.rest.length := by
    have rows := Block.below_length (insideOf columns) (line :: (later ++ List.replicate k [])) tail
    have less := onward.length
    rw [there]
    simp only [List.length_cons,List.length_append] at rows ⊢
    omega
  refine passed_there (turned.trans done) ?_ ?_ (.inl ⟨rfl,rfl⟩) onward place out at_ fun _ => rfl
  · exact place ▸ shorter
  · refine Holds.emit ?_ _ _ ?_
    · exact {holds with
        made := holds.made, free := property_free holds within deep
        steps := Nat.lt_trans (place ▸ shorter) holds.steps}
    · cases folded with
      | false => rfl
      | true =>
        have other : r.pos.column ≠ 0 := by
          rw [indented]
          exact Nat.succ_ne_zero _
        simpa [usual] using other

theorem literal_passed (holds : Holds s kinds) (within : Within s columns) (deep : indentOf columns < s.column)
    (literal : isLiteral text (insideOf columns) = true) (legible : LegibleLiteral text (insideOf columns))
    (there : s.cur.rest = (stringLines text (insideOf columns) ++ more).dropLast)
    (onward : Onward (('\n' :: more).dropLast) column rest) (out : column ≤ indentOf columns) :
    ∃ t, Passed s (kinds ++ [.scalar .literal text]) columns column rest t := by
  obtain ⟨chomping,k,line,later,ends,split,form⟩ := Block.literal_form text _ literal legible (Nat.le_add_left _ _)
  rw [form,Block.blockForm_dropLast] at there
  have rows : Block.Rows false (line :: later) := split ▸ Block.splitFeeds_rows (fun carriage => legible.carriage (by
    rw [Block.splitEnd_text text]
    exact List.mem_append_left _ carriage)) legible.content (Block.splitEnd_last text)
  have said : text = Block.joined (Block.glue false) (line :: later) ++ Block.newlines (splitEnd text).2 := by
    rw [←split,Block.glue,if_neg Bool.false_ne_true,Block.joined_splitFeeds]
    exact Block.splitEnd_text text
  exact block_passed holds within deep false rows ends rfl (by rw [there]; simp) onward out said

theorem folded_passed (holds : Holds s kinds) (within : Within s columns) (deep : indentOf columns < s.column)
    (folded : isFolded text = true) (there : s.cur.rest = (stringLines text (insideOf columns) ++ more).dropLast)
    (onward : Onward (('\n' :: more).dropLast) column rest) (out : column ≤ indentOf columns) :
    ∃ t, Passed s (kinds ++ [.scalar .folded text]) columns column rest t := by
  obtain ⟨line,later,whole,joins,rows,plain⟩ := Block.folded_rows text folded
  rw [Block.folded_form text _ folded,whole,Block.blockForm_dropLast] at there
  have said : text = Block.joined (Block.glue true) (line :: later) ++ Block.newlines 0 := by
    rw [Block.glue,if_pos rfl,joins]
    exact (List.append_nil text).symm
  exact block_passed holds within deep true rows .none plain.symm (by rw [there]; simp [Block.marks]) onward out said

theorem stringLines_line {column : Nat} (literal : isLiteral text column = false) (folded : isFolded text = false) :
    stringLines text column = oneLine text ++ ['\n'] := by
  unfold stringLines
  dsimp only
  cases feeds : text.contains '\n' with
  | true =>
    rw [if_pos rfl]
    split
    · rename_i long
      have none : literal? text column = none := by
        rw [isLiteral,feeds,long] at literal
        simpa using literal
      rw [none]
      rfl
    · rfl
  | false =>
    rw [if_neg Bool.false_ne_true,if_neg]
    rw [isFolded,feeds] at folded
    simpa using folded

theorem oneLine_mark (text : List Char) : oneLine text =
    if isMark text then '\'' :: text ++ ['\''] else if isUnsafe text then inQuotes escapeValue text else text := rfl

theorem string_passed (holds : Holds s kinds) (within : Within s columns) (deep : indentOf columns < s.column)
    (legible : LegibleText text (insideOf columns))
    (there : s.cur.rest = (stringLines text (insideOf columns) ++ more).dropLast)
    (onward : Onward (('\n' :: more).dropLast) column rest) (out : column ≤ indentOf columns)
    (unmarked : s.pos.column = 0 → isDocumentMarker s.cur.rest = false) :
    ∃ t, Passed s (kinds ++ [.scalar (stringStyle text (insideOf columns)) text]) columns column rest t := by
  unfold LegibleText at legible
  unfold stringStyle at legible ⊢
  cases literal : isLiteral text (insideOf columns) with
  | true =>
    rw [literal,if_pos rfl] at legible
    exact literal_passed holds within deep literal legible there onward out
  | false =>
    cases folded : isFolded text with
    | true => exact folded_passed holds within deep folded there onward out
    | false =>
      rw [stringLines_line literal folded,dropLast_line,oneLine_mark] at there
      rw [literal,folded,if_neg Bool.false_ne_true,if_neg Bool.false_ne_true] at legible
      rw [if_neg Bool.false_ne_true,if_neg Bool.false_ne_true]
      cases mark : isMark text with
      | true =>
        rw [mark,if_pos rfl] at there
        have solid : ∀ c ∈ text, isBlank c = false ∧ isBreak c = false ∧ c ≠ '\'' := by
          simp only [isMark,Bool.or_eq_true,beq_iff_eq] at mark
          rcases mark with (rfl | rfl) | rfl <;> exact each_of_all (by decide)
        have faithful : ∀ c ∈ text, Quoted.Faithful true (fun c => [c]) c := fun c member =>
          single_faithful (solid c member).1 (solid c member).2.1 (solid c member).2.2
        refine quoted_passed holds within deep faithful rfl ?_ onward out
        rw [there]
        simp [inMarks,Quoted.mark]
      | false =>
        rw [mark,if_neg Bool.false_ne_true] at there
        cases safe : isUnsafe text with
        | true =>
          rw [safe,if_pos rfl] at there
          exact quoted_passed holds within deep (fun c _ => Quoted.faithful_value c) rfl there onward out
        | false =>
          rw [safe,if_neg Bool.false_ne_true] at there
          rw [mark,safe] at legible
          obtain ⟨even,start⟩ := Plain.even_safe safe legible.trimmed
          exact plain_passed holds within deep even.words start there onward out unmarked

theorem leaf_passed (holds : Holds s kinds) (within : Within s columns) (deep : indentOf columns < s.column) (t : Tree)
    (leaf : isBlock t = false) (legible : LegibleAt (insideOf columns) t)
    (there : s.cur.rest = (leafLines t (insideOf columns) ++ more).dropLast)
    (onward : Onward (('\n' :: more).dropLast) column rest) (out : column ≤ indentOf columns)
    (unmarked : s.pos.column = 0 → isDocumentMarker s.cur.rest = false) :
    ∃ u, Passed s (kinds ++ leafKinds (insideOf columns) t) columns column rest u := by
  have plain : ∀ text, Plain.Even text → badStart text = false →
      leafLines t (insideOf columns) = text ++ ['\n'] →
      ∃ u, Passed s (kinds ++ [.scalar .plain text]) columns column rest u := by
    intro text even start written
    rw [written,dropLast_line] at there
    exact plain_passed holds within deep even.words start there onward out unmarked
  cases t with
  | null => exact plain "null".toList (Plain.even_solid (by decide) (each_of_all (by decide))) (by decide) rfl
  | bool b => cases b <;> exact plain _ (Plain.even_solid (by decide) (each_of_all (by decide))) (by decide) rfl
  | int n => exact plain _ (Plain.int_numeral n).even.1 (Plain.int_numeral n).even.2 rfl
  | float x => exact plain _ (Plain.float_numeral _ x).even.1 (Plain.float_numeral _ x).even.2 rfl
  | str text =>
    rw [LegibleAt] at legible
    exact string_passed holds within deep legible there onward out unmarked
  | seq items =>
    have written : s.cur.rest = square.opener :: square.closer :: ('\n' :: more).dropLast := by
      rw [there]
      exact dropLast_line ['[',']'] more
    exact brackets_passed (.inl rfl) holds within deep written onward out
  | map entries =>
    have written : s.cur.rest = curly.opener :: curly.closer :: ('\n' :: more).dropLast := by
      rw [there]
      exact dropLast_line ['\x7b','\x7d'] more
    exact brackets_passed (.inr rfl) holds within deep written onward out

end

section

variable {s : Scan} {kinds : List TokenKind} {columns : List Nat} {rest tail : List Char}

theorem keyForm_filled (key : List Char) (legible : LegibleKey key) : keyForm key ≠ [] := by
  unfold keyForm
  split
  · rename_i plain
    exact (Plain.even_key plain (legible.trimmed plain)).1.filled
  · exact List.cons_ne_nil _ _

theorem key_read (holds : Holds s kinds) (within : Within s columns) (deep : indentOf columns ≤ s.column)
    (level : s.indent ≤ s.column) (allowed : s.keyAllowed = true) {key : List Char} (legible : LegibleKey key)
    (there : s.cur.rest = keyForm key ++ ':' :: tail) (ends : endsWord tail.head? = true)
    (unmarked : s.pos.column = 0 → isDocumentMarker s.cur.rest = false) :
    ∃ t, s.turn = .ok t ∧ KeyRead s t (keyStyle key) key tail ∧ Within t columns ∧
      (Tight s columns → Tight t columns) := by
  have near := legible.short
  unfold keyForm at there near
  unfold keyStyle
  cases plain : isPlainKey key with
  | true =>
    rw [plain,if_pos rfl] at there near
    obtain ⟨even,start⟩ := Plain.even_key plain (legible.trimmed plain)
    obtain ⟨t,read,is,tight⟩ := plain_key holds within deep allowed even.words there ends near
    exact ⟨t,(plain_turn even.filled start there level unmarked).trans read,is,.inl tight,fun _ => tight⟩
  | false =>
    rw [plain,if_neg Bool.false_ne_true] at there near
    obtain ⟨t,read,is,indent,levels⟩ := quoted_key holds allowed (fun c _ => Quoted.faithful_key c) rfl there near
    have marked : s.cur.rest = inMarks false escapeKey key ++ ':' :: tail := there
    exact ⟨t,(quoted_turn marked level).trans read,is,within.of_eq indent levels,
      fun tight => ⟨indent.trans tight.indent,levels.trans tight.levels⟩⟩

theorem key_opens (holds : Holds s kinds) (within : Within s columns) (deep : indentOf columns < s.column)
    (allowed : s.keyAllowed = true) {name : String} (legible : LegibleKey name.toList)
    (there : s.cur.rest = keyForm name.toList ++ ':' :: tail) (ends : endsWord tail.head? = true)
    (untabbed : tail.head? ≠ some '\t') (unmarked : s.pos.column = 0 → isDocumentMarker s.cur.rest = false) :
    ∃ t u, Steps s t ∧ t.turn = .ok u ∧ u.cur.rest.length < t.cur.rest.length ∧
      ValueNext s u (kinds ++ .blockMappingStart :: keyKinds name) (s.pos.column :: columns) tail := by
  have level := within.indent_le deep
  obtain ⟨t,turned,read,inside,_⟩ :=
    key_read holds within (Int.le_of_lt deep) level allowed legible there ends unmarked
  have filled := List.length_pos_iff.mpr (keyForm_filled _ legible)
  have length := congrArg List.length there
  have steps := holds.steps
  simp only [List.length_append,List.length_cons] at length
  obtain ⟨there',colon⟩ := steps_to_colon turned read (inside.indent_le deep)
    (by rw [read.there,List.length_cons]; omega) ends
  obtain ⟨u,opened,next⟩ := colon_opens holds read.released (inside.of_eq rfl rfl) deep untabbed (by omega)
  refine ⟨t.release,u,there',colon.trans opened,?_,next⟩
  have same : t.release.cur.rest = ':' :: tail := read.there
  rw [next.there,same]
  exact Nat.lt_succ_self _

theorem key_stays (holds : Holds s kinds) (tight : Tight s (s.pos.column :: columns)) (allowed : s.keyAllowed = true)
    {name : String} (legible : LegibleKey name.toList)
    (there : s.cur.rest = keyForm name.toList ++ ':' :: tail) (ends : endsWord tail.head? = true)
    (untabbed : tail.head? ≠ some '\t') (unmarked : s.pos.column = 0 → isDocumentMarker s.cur.rest = false) :
    ∃ t u, Steps s t ∧ t.turn = .ok u ∧ u.cur.rest.length < t.cur.rest.length ∧
      ValueNext s u (kinds ++ keyKinds name) (s.pos.column :: columns) tail := by
  have level : s.indent ≤ s.column := Int.le_of_eq tight.indent
  obtain ⟨t,turned,read,_,inside⟩ :=
    key_read holds (.inl tight) (Int.le_refl _) level allowed legible there ends unmarked
  have filled := List.length_pos_iff.mpr (keyForm_filled _ legible)
  have length := congrArg List.length there
  have steps := holds.steps
  simp only [List.length_append,List.length_cons] at length
  obtain ⟨there',colon⟩ := steps_to_colon turned read (Int.le_of_eq (inside tight).indent)
    (by rw [read.there,List.length_cons]; omega) ends
  have still : Tight t.release (s.pos.column :: columns) := ⟨(inside tight).indent,(inside tight).levels⟩
  obtain ⟨u,stays,next⟩ := colon_stays holds read.released still untabbed (by omega)
  refine ⟨t.release,u,there',colon.trans stays,?_,next⟩
  have same : t.release.cur.rest = ':' :: tail := read.there
  rw [next.there,same]
  exact Nat.lt_succ_self _

-- At least two characters, at the first of which a token may stand.
def Starts (text : List Char) : Prop :=
  ∃ c d rest, text = c :: d :: rest ∧ isBlank c = false ∧ isBreak c = false ∧ c ≠ '#'

theorem Starts.indicator {c : Char} {rest : List Char} (some : rest ≠ [])
    (first : isBlank c = false ∧ isBreak c = false ∧ c ≠ '#') : Starts (c :: rest) := by
  obtain ⟨d,rest,rfl⟩ := List.exists_cons_of_ne_nil some
  exact ⟨c,d,rest,rfl,first⟩

theorem Starts.append {text : List Char} (starts : Starts text) (more : List Char) : Starts (text ++ more) := by
  obtain ⟨c,d,rest,rfl,first⟩ := starts
  exact ⟨c,d,rest ++ more,rfl,first⟩

theorem Starts.dropLast {text : List Char} (starts : Starts text) : Content text.dropLast ∧ text.dropLast ≠ [] := by
  obtain ⟨c,d,rest,rfl,first⟩ := starts
  refine ⟨?_,by simp⟩
  intro e head
  obtain rfl := Option.some.inj head
  exact first

theorem starts_even {text : List Char} (even : Plain.Even text) (d : Char) (more : List Char) :
    Starts (text ++ d :: more) := by
  obtain ⟨c,rest,rfl⟩ := List.exists_cons_of_ne_nil even.filled
  obtain ⟨comment,visible⟩ := even.solid c List.mem_cons_self
  have blank : c ≠ ' ' := fun same => even.first (congrArg some same)
  cases rest with
  | nil => exact ⟨c,d,more,rfl,visible_blank visible blank,visible_break visible,comment⟩
  | cons e rest => exact ⟨c,e,rest ++ d :: more,rfl,visible_blank visible blank,visible_break visible,comment⟩

theorem key_starts {key : List Char} (legible : LegibleKey key) (more : List Char) :
    Starts (keyForm key ++ ':' :: more) := by
  unfold keyForm
  split
  · rename_i plain
    exact starts_even (Plain.even_key plain (legible.trimmed plain)).1 _ _
  · exact Starts.indicator (by simp) (by decide)

theorem literal_starts {text lines : List Char} {indent : Nat} (written : literal? text indent = some lines) :
    Starts lines := by
  unfold literal? at written
  dsimp only at written
  generalize (if needsDigit (Text.splitFeeds (splitEnd text).1) then Nat.toDigits 10 indent else []) = digits at written
  split at written
  · cases written
  · obtain rfl := Option.some.inj written
    exact Starts.indicator (by simp) (by decide)

theorem string_starts {text : List Char} {indent : Nat} (legible : LegibleText text indent) :
    Starts (stringLines text indent) := by
  unfold LegibleText stringStyle at legible
  cases literal : isLiteral text indent with
  | true =>
    exact literal_starts (Block.stringLines_literal literal)
  | false =>
    cases folded : isFolded text with
    | true =>
      rw [Block.folded_form text indent folded]
      exact ⟨'>','-',_,rfl,by decide,by decide,by decide⟩
    | false =>
      rw [stringLines_line literal folded,oneLine_mark]
      cases mark : isMark text with
      | true =>
        rw [if_pos rfl]
        simp only [isMark,Bool.or_eq_true,beq_iff_eq] at mark
        rcases mark with (rfl | rfl) | rfl <;> exact ⟨'\'',_,_,rfl,by decide,by decide,by decide⟩
      | false =>
        rw [if_neg Bool.false_ne_true]
        cases safe : isUnsafe text with
        | true =>
          rw [if_pos rfl]
          exact Starts.indicator (by simp) (by decide)
        | false =>
          rw [literal,folded,mark,safe] at legible
          rw [if_neg Bool.false_ne_true]
          exact starts_even (Plain.even_safe safe legible.trimmed).1 _ _

theorem leaf_starts (t : Tree) (column : Nat) (legible : LegibleAt column t) : Starts (leafLines t column) := by
  cases t with
  | null => exact ⟨_,_,_,rfl,by decide,by decide,by decide⟩
  | bool b => cases b <;> exact ⟨_,_,_,rfl,by decide,by decide,by decide⟩
  | int n => exact starts_even (Plain.int_numeral n).even.1 _ _
  | float x => exact starts_even (Plain.float_numeral _ x).even.1 _ _
  | str text =>
    rw [LegibleAt] at legible
    exact string_starts legible
  | seq items => exact ⟨_,_,_,rfl,by decide,by decide,by decide⟩
  | map entries => exact ⟨_,_,_,rfl,by decide,by decide,by decide⟩

theorem inline_starts (t : Tree) (column : Nat) (legible : LegibleAt column t) : Starts (inline column t) := by
  match t with
  | .seq (item :: later) =>
    rw [Writer.inline]
    exact ⟨'-',' ',_,rfl,by decide,by decide,by decide⟩
  | .map ((name,value) :: later) =>
    rw [LegibleAt] at legible
    rw [Writer.inline]
    exact (key_starts legible.2.1 _).append _
  | .seq [] | .map [] | .null | .bool _ | .int _ | .float _ | .str _ =>
    rw [inline_leaf _ rfl]
    exact leaf_starts _ column legible

variable {column : Nat} {target : Int} {more text : List Char}

theorem onward_line (column : Nat) (starts : Starts text) :
    Onward (('\n' :: (spaces column ++ text)).dropLast) column text.dropLast := by
  obtain ⟨content,filled⟩ := starts.dropLast
  have some : text ≠ [] := by
    rintro rfl
    exact filled rfl
  have same : ('\n' :: (spaces column ++ text)).dropLast = '\n' :: (spaces column ++ text.dropLast) := by
    rw [←List.cons_append,List.dropLast_append_of_ne_nil some]
    rfl
  rw [same]
  exact .line column text.dropLast filled content

theorem items_onward (items : List Tree) (onward : Onward (('\n' :: more).dropLast) target rest)
    (out : target ≤ column) :
    ∃ next place, Onward (('\n' :: (Writer.items column items ++ more)).dropLast) next place ∧ next ≤ column := by
  cases items with
  | nil => exact ⟨target,rest,onward,out⟩
  | cons t later =>
    rw [Writer.items]
    have starts : Starts ('-' :: ' ' :: Writer.inline (column + 2) t ++ Writer.items column later ++ more) :=
      ⟨'-',' ',_,rfl,by decide,by decide,by decide⟩
    have line := onward_line column starts
    simp only [List.append_assoc,List.cons_append] at line ⊢
    exact ⟨_,_,line,Int.le_refl _⟩

theorem fields_onward (entries : List (String × Tree)) (afterBlock : Bool)
    (legible : LegibleEntries (column + 2) entries) (onward : Onward (('\n' :: more).dropLast) target rest)
    (out : target ≤ column) :
    ∃ next place, Onward (('\n' :: (fields column afterBlock entries ++ more)).dropLast) next place ∧
      next ≤ column := by
  cases entries with
  | nil => exact ⟨target,rest,onward,out⟩
  | cons e later =>
    obtain ⟨name,t⟩ := e
    rw [LegibleEntries] at legible
    rw [fields]
    have starts := (key_starts legible.1 (field column afterBlock t)).append (fields column (isBlock t) later ++ more)
    have line := onward_line column starts
    simp only [List.append_assoc,List.cons_append] at line ⊢
    exact ⟨_,_,line,Int.le_refl _⟩

theorem Passed.close {t : Scan} (passed : Passed s kinds (column :: columns) target rest t)
    (deeper : indentOf columns < column) (out : target ≤ indentOf columns) :
    Passed s (kinds ++ [.blockEnd]) columns target rest (t.dedent (indentOf columns)) := by
  obtain ⟨holds,tight⟩ := dedent_block passed.holds passed.tight deeper
  refine ⟨?_,holds,tight,?_,?_,?_⟩
  · rw [dedent_twice _ _ out]
    exact passed.steps
  · rw [dedent_cur]
    exact passed.there
  · rw [Scan.column,dedent_cur]
    exact passed.column
  · rw [dedent_keyAllowed]
    exact passed.allowed

theorem isDocumentStart_cons (a b c : Char) (rest : List Char) :
    isDocumentStart (a :: b :: c :: rest) = (decide (a = '-' ∧ b = '-' ∧ c = '-') && endsWord rest.head?) := by
  unfold isDocumentStart
  split
  · rename_i same
    obtain ⟨rfl,rfl,rfl,rfl⟩ : a = '-' ∧ b = '-' ∧ c = '-' ∧ rest = _ := by simpa using same
    simp
  · rename_i other
    have not : ¬(a = '-' ∧ b = '-' ∧ c = '-') := by
      rintro ⟨rfl,rfl,rfl⟩
      exact other rest rfl
    simp [not]

theorem isDocumentEnd_cons (a b c : Char) (rest : List Char) :
    isDocumentEnd (a :: b :: c :: rest) = (decide (a = '.' ∧ b = '.' ∧ c = '.') && endsWord rest.head?) := by
  unfold isDocumentEnd
  split
  · rename_i same
    obtain ⟨rfl,rfl,rfl,rfl⟩ : a = '.' ∧ b = '.' ∧ c = '.' ∧ rest = _ := by simpa using same
    simp
  · rename_i other
    have not : ¬(a = '.' ∧ b = '.' ∧ c = '.') := by
      rintro ⟨rfl,rfl,rfl⟩
      exact other rest rfl
    simp [not]

theorem marker_colon (key tail : List Char) :
    isDocumentMarker (key ++ ':' :: tail) = isDocumentMarker (key ++ [':']) := by
  match key with
  | [] => rfl
  | [a] => simp [isDocumentMarker,isDocumentStart,isDocumentEnd]
  | [a,b] => simp [isDocumentMarker,isDocumentStart,isDocumentEnd]
  | a :: b :: c :: rest =>
    have head : (rest ++ ':' :: tail).head? = (rest ++ [':']).head? := by cases rest <;> rfl
    simp only [isDocumentMarker,List.cons_append,isDocumentStart_cons,isDocumentEnd_cons,head]

end

end AutomationLint.Yaml.Scan
