import AutomationLint.Proofs.Stream.Transparency
import AutomationLint.Proofs.Yaml.Scalar.Meaning
import AutomationLint.Proofs.Yaml.Scan.Written

namespace AutomationLint.Yaml
open AutomationLint.Stream Writer

def Clear (text : List Char) : Prop := ∀ c ∈ text, c ≠ '\n' ∧ c ≠ '\r' ∧ c ≠ '\x00'

instance (text : List Char) : Decidable (Clear text) := List.decidableBAll _ text

structure Row (line : List Char) : Prop where
  clear : Clear line
  uncut : Uncut line

def Laid (text : List Char) : Prop := ∃ rows, text = Text.ended rows ∧ ∀ row ∈ rows, Row row

-- Whatever a line is that starts so, it is left alone: it cuts no stream and
-- is no directive. Only the keys and items of a root and a root string are
-- asked for that, for all other lines start with a blank.
structure Opens (start : List Char) : Prop where
  clear : Clear start
  uncut : ∀ rest, Uncut (start ++ rest)

variable {text more start : List Char}

theorem Clear.append (front : Clear text) (back : Clear more) : Clear (text ++ more) := fun c member =>
  (List.mem_append.mp member).elim (front c) (back c)

theorem clear_visible (visible : ∀ c ∈ text, isControl c = false) : Clear text := fun c member =>
  ⟨visible_ne (visible c member) '\n' (by decide),visible_ne (visible c member) '\r' (by decide),
    visible_ne (visible c member) '\x00' (by decide)⟩

theorem clear_spaces (n : Nat) : Clear (spaces n) := by
  intro c member
  rw [List.eq_of_mem_replicate member]
  decide

theorem Laid.append (front : Laid text) (back : Laid more) : Laid (text ++ more) := by
  obtain ⟨rows,rfl,own⟩ := front
  obtain ⟨others,rfl,rest⟩ := back
  refine ⟨rows ++ others,by simp [Text.ended],?_⟩
  intro row member
  exact (List.mem_append.mp member).elim (own row) (rest row)

theorem laid_row (row : Row text) : Laid (text ++ ['\n']) :=
  ⟨[text],by simp [Text.ended],fun other member => List.mem_singleton.mp member ▸ row⟩

theorem Opens.row (opens : Opens start) (clear : Clear text) : Row (start ++ text) :=
  ⟨opens.clear.append clear,opens.uncut text⟩

theorem Opens.alone (opens : Opens start) : Row start := ⟨opens.clear,by simpa using opens.uncut []⟩

theorem Opens.append (opens : Opens start) (clear : Clear text) : Opens (start ++ text) := by
  refine ⟨opens.clear.append clear,fun rest => ?_⟩
  rw [List.append_assoc]
  exact opens.uncut _

theorem uncut_line {line : List Char} (dash : ∀ rest, line ≠ '-' :: '-' :: rest) (dot : ∀ rest, line ≠ '.' :: '.' :: rest)
    (percent : line.head? ≠ some '%') : Uncut line := by
  have none : ∀ m, (∀ rest, line ≠ m :: m :: rest) → isMarker [m,m,m] line = false := by
    intro m other
    cases marked : isMarker [m,m,m] line with
    | false => rfl
    | true =>
      obtain ⟨after,same,_⟩ := (isMarker_iff _ _).mp marked
      exact absurd same (other _)
  exact ⟨none '-' dash,none '.' dot,percent⟩

theorem opens_first {c : Char} (plain : c ∉ ['-','.','%']) (clear : Clear (c :: text)) : Opens (c :: text) := by
  simp only [List.mem_cons,List.not_mem_nil,or_false,not_or] at plain
  refine ⟨clear,fun rest => uncut_line (fun _ same => ?_) (fun _ same => ?_) fun same => ?_⟩
  · exact plain.1 (List.cons.inj same).1
  · exact plain.2.1 (List.cons.inj same).1
  · exact plain.2.2 (Option.some.inj same)

theorem opens_second {c d : Char} (other : d ≠ c) (percent : c ≠ '%') (clear : Clear (c :: d :: text)) :
    Opens (c :: d :: text) := by
  refine ⟨clear,fun rest => uncut_line (fun _ same => ?_) (fun _ same => ?_) fun same => percent (Option.some.inj same)⟩
  all_goals
    obtain ⟨first,same⟩ := List.cons.inj same
    exact other ((List.cons.inj same).1.trans first.symm)

theorem opens_spaces (n : Nat) (clear : Clear text) : Opens (spaces (n + 1) ++ text) :=
  opens_first (by decide) ((clear_spaces (n + 1)).append clear)

theorem opens_dash (column : Nat) : Opens (spaces column ++ ['-',' ']) := by
  cases column with
  | zero => exact opens_second (by decide) (by decide) (by decide)
  | succ n => exact opens_spaces n (by decide)

theorem clear_quoted (escape : Char → List Char) (written : ∀ c, Quoted.Written c (escape c)) (text : List Char) :
    Clear (inQuotes escape text) := by
  have inner : Clear (text.flatMap escape) := by
    refine clear_visible fun d member => ?_
    obtain ⟨c,_,within⟩ := List.mem_flatMap.mp member
    exact (written c).visible d within
  exact Clear.append (Clear.append (by decide : Clear ['"']) inner) (by decide : Clear ['"'])

theorem clear_key (key : List Char) : Clear (keyForm key) := by
  unfold keyForm
  split
  · rename_i plain
    exact clear_visible fun c member => (Plain.key_solid plain c member).2.2
  · exact clear_quoted escapeKey Quoted.written_key key

theorem clear_line (text : List Char) : Clear (oneLine text) := by
  rw [Scan.oneLine_mark]
  split
  · rename_i mark
    simp only [isMark,Bool.or_eq_true,beq_iff_eq] at mark
    rcases mark with (rfl | rfl) | rfl <;> decide
  · split
    · exact clear_quoted escapeValue Quoted.written_value text
    · rename_i safe
      exact clear_visible fun c member => (Plain.safe_solid (Bool.not_eq_true _ ▸ safe) c member).2

structure LeafForm (text first : List Char) (rows : List (List Char)) : Prop where
  form : text = first ++ '\n' :: Text.ended rows
  clear : Clear first
  rows : ∀ row ∈ rows, Row row

theorem leafForm_line (text : List Char) (clear : Clear text) : LeafForm (text ++ ['\n']) text [] := ⟨rfl,clear,nofun⟩

theorem leafForm_block {header : List Char} {indent : Nat} {lines : List (List Char)} (clear : Clear header)
    (deep : 0 < indent) (inner : ∀ line ∈ lines, Clear line) :
    LeafForm (Block.blockForm header indent lines) header (lines.map (spaces indent ++ ·)) := by
  refine ⟨?_,clear,?_⟩
  · simp [Block.blockForm,Text.ended,List.flatMap_map]
  · intro row member
    obtain ⟨line,own,rfl⟩ := List.mem_map.mp member
    obtain ⟨n,rfl⟩ : ∃ n, indent = n + 1 := ⟨indent - 1,by omega⟩
    exact (opens_spaces n (inner line own)).alone

-- Whether the line of a key is a marker is told by the key and its colon.
theorem isMarker_key_iff {m : Char} (key rest : List Char) (other : m ≠ ':') :
    isMarker [m,m,m] (key ++ ':' :: rest) = true ↔
      ∃ own, key = [m,m,m] ++ own ∧ ∀ c ∈ (own ++ [':']).head?, Text.isWhite c = true := by
  have heads : ∀ own : List Char, (own ++ ':' :: rest).head? = (own ++ [':']).head? := by
    intro own
    cases own <;> rfl
  rw [isMarker_iff]
  constructor
  · rintro ⟨after,same,white⟩
    obtain ⟨own,key_,behind⟩ | ⟨own,mark,behind⟩ := List.append_eq_append_iff.mp same
    · cases own with
      | nil =>
        rw [List.append_nil] at key_
        refine ⟨[],by rw [←key_,List.append_nil],?_⟩
        rw [List.nil_append] at behind
        rw [←behind] at white
        exact white
      | cons c own =>
        obtain ⟨rfl,_⟩ := List.cons.inj behind
        have member : ':' ∈ [m,m,m] := by rw [key_]; simp
        simp [Ne.symm other] at member
    · refine ⟨own,mark,?_⟩
      rw [behind,heads] at white
      exact white
  · rintro ⟨own,rfl,white⟩
    refine ⟨own ++ ':' :: rest,by simp,?_⟩
    rw [heads]
    exact white

theorem isMarker_key {m : Char} (key rest : List Char) (other : m ≠ ':') :
    isMarker [m,m,m] (key ++ ':' :: rest) = isMarker [m,m,m] (key ++ [':']) := by
  rw [Bool.eq_iff_iff,isMarker_key_iff key rest other,isMarker_key_iff key [] other]

theorem opens_key {key : List Char} (uncut : Uncut (keyForm key ++ [':'])) : Opens (keyForm key ++ [':']) := by
  refine ⟨(clear_key key).append (by decide),fun rest => ?_⟩
  rw [List.append_assoc]
  refine ⟨?_,?_,?_⟩
  · exact (isMarker_key _ _ (by decide)).trans uncut.1
  · exact (isMarker_key _ _ (by decide)).trans uncut.2.1
  · have head := uncut.2.2
    cases form : keyForm key with
    | nil => simp
    | cons c more =>
      rw [form] at head
      exact head

theorem meaningful_head {c : Char} {rest : List Char} (seen : Text.isWhite c = false) (comment : c ≠ '#') :
    Meaningful (c :: rest) := by
  refine ⟨by simp [Text.isBlank,seen],?_⟩
  rw [head?_trim]
  simpa [seen] using comment

theorem meaningful_free (seen : Text.isBlank text = false) (free : '#' ∉ text) : Meaningful text := by
  refine ⟨seen,?_⟩
  rw [head?_trim]
  exact fun comment => free (List.mem_of_find?_eq_some comment)

structure Heads (first : List Char) : Prop where
  uncut : Uncut first
  seen : Meaningful first

theorem heads_first {c : Char} {rest : List Char} (plain : c ∉ ['-','.','%','#']) (seen : Text.isWhite c = false)
    (clear : Clear (c :: rest)) : Heads (c :: rest) := by
  have opens : Opens (c :: rest) := opens_first (fun member => plain (List.mem_append_left ['#'] member)) clear
  refine ⟨opens.alone.uncut,meaningful_head seen ?_⟩
  rintro rfl
  exact plain (by decide)

theorem literal_rows (text : List Char) (indent : Nat) (literal : isLiteral text indent = true)
    (legible : LegibleLiteral text indent) (deep : 2 ≤ indent) :
    ∃ first rows, LeafForm (stringLines text indent) first rows ∧ Heads first := by
  obtain ⟨chomping,k,line,later,_,split,form⟩ := Block.literal_form text indent literal legible deep
  have header : Clear ('|' :: ((if needsDigit (line :: later) then ['2'] else []) ++ Block.marks chomping)) := by
    cases needsDigit (line :: later) <;> cases chomping <;> decide
  rw [form]
  refine ⟨_,_,leafForm_block header (Nat.lt_of_lt_of_le (by decide) deep) ?_,heads_first (by decide) (by decide) header⟩
  intro row member
  rcases List.mem_append.mp (List.cons_append ▸ member : row ∈ (line :: later) ++ List.replicate k []) with own | empty
  · obtain ⟨free,within⟩ := Block.splitFeeds_line (split ▸ own)
    intro c inner
    have original : c ∈ text := by
      rw [Block.splitEnd_text text]
      exact List.mem_append_left _ (within c inner)
    exact ⟨fun same => free (same ▸ inner),fun same => legible.carriage (same ▸ original),
      fun same => legible.null (same ▸ original)⟩
  · rw [List.eq_of_mem_replicate empty]
    exact nofun

theorem folded_rows (text : List Char) (indent : Nat) (folded : isFolded text = true) (positive : 0 < indent) :
    ∃ first rows, LeafForm (stringLines text indent) first rows ∧ Heads first := by
  have header : Clear ['>','-'] := by decide
  rw [Block.folded_form text indent folded]
  refine ⟨_,_,leafForm_block header positive ?_,heads_first (by decide) (by decide) header⟩
  obtain ⟨line,later,whole,joins,_⟩ := Block.folded_rows text folded
  simp only [isFolded,Bool.and_eq_true,Bool.not_eq_true'] at folded
  intro row member
  refine clear_visible fun c inner => (Plain.safe_solid folded.1.2 c ?_).2
  exact joins ▸ Block.mem_joined ' ' (whole ▸ member) inner

-- A string on one line starts with a quote, or it is left as it is.
theorem line_heads (text : List Char)
    (plain : isMark text = false → isUnsafe text = false → Uncut text ∧ Text.isBlank text = false) :
    Heads (oneLine text) := by
  have clear := clear_line text
  rw [Scan.oneLine_mark] at clear ⊢
  cases mark : isMark text with
  | true =>
    rw [mark,if_pos rfl] at clear
    rw [if_pos rfl]
    exact heads_first (by decide) (by decide) clear
  | false =>
    rw [if_neg Bool.false_ne_true]
    cases safe : isUnsafe text with
    | true =>
      rw [if_pos rfl]
      exact heads_first (by decide) (by decide) (clear_quoted escapeValue Quoted.written_value text)
    | false =>
      obtain ⟨uncut,seen⟩ := plain mark safe
      rw [if_neg Bool.false_ne_true]
      exact ⟨uncut,meaningful_free seen fun member => (Plain.safe_solid safe '#' member).1 rfl⟩

theorem string_form (text : List Char) (indent : Nat) (legible : LegibleText text indent) (deep : 2 ≤ indent) :
    ∃ first rows, LeafForm (stringLines text indent) first rows ∧
      ((stringStyle text indent = .plain → Uncut text ∧ Text.isBlank text = false) → Heads first) := by
  unfold LegibleText stringStyle at legible
  unfold stringStyle
  cases literal : isLiteral text indent with
  | true =>
    rw [literal,if_pos rfl] at legible
    obtain ⟨first,rows,form,heads⟩ := literal_rows text indent literal legible deep
    exact ⟨first,rows,form,fun _ => heads⟩
  | false =>
    cases folded : isFolded text with
    | true =>
      obtain ⟨first,rows,form,heads⟩ := folded_rows text indent folded (Nat.lt_of_lt_of_le (by decide) deep)
      exact ⟨first,rows,form,fun _ => heads⟩
    | false =>
      rw [Scan.stringLines_line literal folded]
      refine ⟨_,_,leafForm_line _ (clear_line text),fun root => line_heads text fun mark safe => root ?_⟩
      rw [mark,safe]
      rfl

theorem numeral_heads (numeral : Plain.Numeral text) : Clear text ∧ Heads text := by
  have clear : Clear text := clear_visible fun c member => (Plain.numeral_solid (numeral.each c member)).2.2.2
  refine ⟨clear,?_⟩
  have figure : ∀ d : Char, d.isDigit = true → d ∉ ['-','.','%','#'] ∧ Text.isWhite d = false := fun d digit =>
    digit_holds (fun d => d ∉ ['-','.','%','#'] ∧ Text.isWhite d = false) (by decide) digit
  cases numeral with
  | unsigned d rest digit =>
    obtain ⟨plain,seen⟩ := figure d digit
    exact heads_first plain seen clear
  | negative d rest digit =>
    obtain ⟨plain,_⟩ := figure d digit
    have opens : Opens ('-' :: d :: rest) := opens_second (fun same => plain (by simp [same])) (by decide) clear
    exact ⟨opens.alone.uncut,meaningful_head (by decide) (by decide)⟩

theorem leaf_form (t : Tree) (leaf : isBlock t = false) (column : Nat) (legible : LegibleAt column t) (deep : 2 ≤ column) :
    ∃ first rows, LeafForm (leafLines t column) first rows ∧ (column = 2 → LegibleRoot t → Heads first) := by
  cases t with
  | null => exact ⟨_,_,leafForm_line "null".toList (by decide),fun _ _ =>
      heads_first (by decide) (by decide) (by decide)⟩
  | bool b =>
    have word : ∃ text, leafLines (.bool b) column = text ++ ['\n'] ∧ Clear text ∧ Heads text := by
      cases b
      · exact ⟨"false".toList,rfl,by decide,heads_first (by decide) (by decide) (by decide)⟩
      · exact ⟨"true".toList,rfl,by decide,heads_first (by decide) (by decide) (by decide)⟩
    obtain ⟨text,same,clear,heads⟩ := word
    exact ⟨text,[],same ▸ leafForm_line _ clear,fun _ _ => heads⟩
  | int n =>
    obtain ⟨clear,heads⟩ := numeral_heads (Plain.int_numeral n)
    exact ⟨_,_,leafForm_line _ clear,fun _ _ => heads⟩
  | float x =>
    obtain ⟨clear,heads⟩ := numeral_heads (Plain.float_numeral number x)
    exact ⟨_,_,leafForm_line _ clear,fun _ _ => heads⟩
  | str s =>
    rw [LegibleAt] at legible
    obtain ⟨first,rows,form,heads⟩ := string_form s.toList column legible deep
    exact ⟨first,rows,form,fun two root => heads (two ▸ root)⟩
  | seq items => exact ⟨_,_,leafForm_line "[]".toList (by decide),fun _ _ =>
      heads_first (by decide) (by decide) (by decide)⟩
  | map entries => exact ⟨_,_,leafForm_line "\x7b\x7d".toList (by decide),fun _ _ =>
      heads_first (by decide) (by decide) (by decide)⟩

theorem leaf_laid (t : Tree) (leaf : isBlock t = false) (column : Nat) (legible : LegibleAt column t) (deep : 2 ≤ column)
    (opens : Opens start) : Laid (start ++ Writer.inline column t) := by
  rw [inline_leaf t leaf]
  obtain ⟨first,rows,form,_⟩ := leaf_form t leaf column legible deep
  refine ⟨(start ++ first) :: rows,?_,List.forall_mem_cons.mpr ⟨opens.row form.clear,form.rows⟩⟩
  rw [form.form]
  simp [Text.ended]

theorem field_laid (column : Nat) (afterBlock : Bool) (t : Tree)
    (inner : ∀ start, Opens start → Laid (start ++ Writer.inline (column + 2) t)) (opens : Opens start) :
    Laid (start ++ field column afterBlock t) := by
  cases field_lead column afterBlock t with
  | inl line =>
    rw [line.2]
    have whole := inner (start ++ [' ']) (opens.append (by decide))
    rwa [List.append_assoc] at whole
  | inr line =>
    rw [line]
    have own : Laid (start ++ ['\n']) := laid_row opens.alone
    have below := inner (spaces (column + 2)) (List.append_nil (spaces (column + 2)) ▸ opens_spaces (column + 1) nofun)
    have whole := own.append below
    rwa [List.append_assoc] at whole

mutual
theorem inline_laid (t : Tree) (column : Nat) (legible : LegibleAt (column + 2) t) (start : List Char)
    (opens : Opens start) : Laid (start ++ Writer.inline (column + 2) t) := by
  match t with
  | .seq (item :: later) =>
    rw [LegibleAt,LegibleItems] at legible
    have dash : Opens (start ++ ['-',' ']) := opens.append (by decide)
    have whole := (inline_laid item (column + 2) legible.1 _ dash).append (items_laid later (column + 2) legible.2)
    rw [Writer.inline]
    simpa using whole
  | .map ((name,value) :: later) =>
    rw [LegibleAt,LegibleEntries] at legible
    obtain ⟨_,_,legibleValue,legibleLater⟩ := legible
    have key : Opens (start ++ (keyForm name.toList ++ [':'])) :=
      opens.append ((clear_key _).append (by decide))
    have own := field_laid (column + 2) false value (fun start opens => inline_laid value (column + 2) legibleValue start opens) key
    have whole := own.append (fields_laid later (column + 2) (isBlock value) legibleLater fun e _ =>
      opens_spaces (column + 1) ((clear_key _).append (by decide)))
    rw [Writer.inline]
    simpa using whole
  | .seq [] | .map [] | .null | .bool _ | .int _ | .float _ | .str _ =>
    exact leaf_laid _ rfl _ legible (Nat.le_add_left _ _) opens

theorem items_laid (items : List Tree) (column : Nat) (legible : LegibleItems (column + 2) items) :
    Laid (Writer.items column items) := by
  match items with
  | [] => exact ⟨[],rfl,nofun⟩
  | item :: later =>
    rw [LegibleItems] at legible
    have whole := (inline_laid item column legible.1 _ (opens_dash column)).append (items_laid later column legible.2)
    rw [Writer.items]
    simpa using whole

theorem fields_laid (entries : Tree.Entries) (column : Nat) (afterBlock : Bool)
    (legible : LegibleEntries (column + 2) entries)
    (keys : ∀ e ∈ entries, Opens (spaces column ++ (keyForm e.1.toList ++ [':']))) :
    Laid (fields column afterBlock entries) := by
  match entries with
  | [] => exact ⟨[],rfl,nofun⟩
  | (name,value) :: later =>
    rw [LegibleEntries] at legible
    obtain ⟨_,legibleValue,legibleLater⟩ := legible
    obtain ⟨key,laterKeys⟩ := List.forall_mem_cons.mp keys
    have own := field_laid column afterBlock value (fun start opens => inline_laid value column legibleValue start opens) key
    have whole := own.append (fields_laid later column (isBlock value) legibleLater laterKeys)
    rw [fields]
    simpa using whole
end

theorem first_row {rows : List (List Char)} (same : Text.ended rows = start ++ text) (free : '\n' ∉ start)
    (some : start ≠ []) : ∃ more later, rows = (start ++ more) :: later := by
  cases rows with
  | nil =>
    rw [Text.ended,List.flatMap_nil] at same
    exact absurd (List.append_eq_nil_iff.mp same.symm).1 some
  | cons row later =>
    have whole : row ++ '\n' :: Text.ended later = start ++ text := by
      rw [←same]
      simp [Text.ended]
    obtain ⟨own,begun,behind⟩ | ⟨own,rfl,_⟩ := List.append_eq_append_iff.mp whole
    · cases own with
      | nil => exact ⟨[],later,by rw [begun]; simp⟩
      | cons c own =>
        obtain ⟨rfl,_⟩ := List.cons.inj behind
        exact absurd (begun ▸ by simp) free
    · exact ⟨own,later,rfl⟩

theorem meaningful_start {c : Char} (member : c ∈ start) (seen : Text.isWhite c = false) (free : '#' ∉ start)
    (more : List Char) : Meaningful (start ++ more) := by
  refine ⟨?_,?_⟩
  · rw [Text.isBlank,List.all_append]
    have : start.all Text.isWhite = false := List.all_eq_false.mpr ⟨c,member,by simp [seen]⟩
    rw [this,Bool.false_and]
  · rw [head?_trim,List.find?_append]
    cases found : start.find? (fun c => !Text.isWhite c) with
    | none => exact absurd (List.find?_eq_none.mp found c member) (by simp [seen])
    | some d =>
      rintro same
      obtain rfl := Option.some.inj same
      exact free (List.mem_of_find?_eq_some found)

theorem meaningful_key (key more : List Char) : Meaningful (keyForm key ++ [':'] ++ more) := by
  unfold keyForm
  split
  · rename_i plain
    refine meaningful_start (c := ':') (by simp) (by decide) ?_ more
    simp only [List.mem_append,List.mem_singleton,not_or]
    exact ⟨fun member => (Plain.key_solid plain '#' member).2.1 rfl,by decide⟩
  · exact meaningful_head (c := '"') (by decide) (by decide)

structure RootForm (text first : List Char) (later : List (List Char)) : Prop where
  form : text = Text.ended (first :: later)
  rows : ∀ row ∈ first :: later, Row row
  seen : Meaningful first

theorem leaf_root (t : Tree) (leaf : isBlock t = false) (legible : Legible t) :
    ∃ first later, RootForm (Writer.document t) first later := by
  have two : rootColumn t = 2 := by rw [rootColumn,leaf]; rfl
  obtain ⟨first,rows,form,heads⟩ := leaf_form t leaf (rootColumn t) legible.values (Nat.le_of_eq two.symm)
  obtain ⟨uncut,seen⟩ := heads two legible.root
  refine ⟨first,rows,?_,List.forall_mem_cons.mpr ⟨⟨form.clear,uncut⟩,form.rows⟩,seen⟩
  rw [document_root,inline_leaf t leaf,form.form]
  simp [Text.ended]

theorem seq_root (item : Tree) (later : List Tree) (legible : LegibleItems 2 (item :: later)) :
    ∃ first rows, RootForm (Writer.document (.seq (item :: later))) first rows := by
  have form : Writer.document (.seq (item :: later)) = ['-',' '] ++ (Writer.inline 2 item ++ Writer.items 0 later) := by
    rw [Writer.document,Writer.inline]
    simp
  have whole : Writer.document (.seq (item :: later)) = Writer.items 0 (item :: later) := by
    rw [form,Writer.items]
    simp [spaces]
  obtain ⟨rows,ended,own⟩ := items_laid (item :: later) 0 legible
  rw [whole] at form ⊢
  obtain ⟨more,below,rfl⟩ := first_row (ended.symm.trans form) (by decide) (by decide)
  exact ⟨_,below,ended,own,meaningful_head (by decide) (by decide)⟩

theorem map_root (name : String) (value : Tree) (later : Tree.Entries)
    (legible : LegibleEntries 2 ((name,value) :: later))
    (keys : ∀ e ∈ (name,value) :: later, Uncut (keyForm e.1.toList ++ [':'])) :
    ∃ first rows, RootForm (Writer.document (.map ((name,value) :: later))) first rows := by
  have form : Writer.document (.map ((name,value) :: later)) =
      keyForm name.toList ++ [':'] ++ (field 0 false value ++ fields 0 (isBlock value) later) := by
    rw [Writer.document,Writer.inline]
    simp
  have whole : Writer.document (.map ((name,value) :: later)) = fields 0 false ((name,value) :: later) := by
    rw [form,fields]
    simp [spaces]
  obtain ⟨rows,ended,own⟩ := fields_laid ((name,value) :: later) 0 false legible fun e member => opens_key (keys e member)
  rw [whole] at form ⊢
  have free : '\n' ∉ keyForm name.toList ++ [':'] := fun member =>
    ((clear_key name.toList).append (by decide) '\n' member).1 rfl
  obtain ⟨more,below,rfl⟩ := first_row (ended.symm.trans form) free (by simp)
  exact ⟨_,below,ended,own,meaningful_key _ _⟩

theorem document_form (t : Tree) (legible : Legible t) : ∃ first later, RootForm (Writer.document t) first later := by
  have values := legible.values
  match t with
  | .seq (item :: later) =>
    rw [LegibleAt] at values
    exact seq_root item later values
  | .map ((name,value) :: later) =>
    rw [LegibleAt] at values
    exact map_root name value later values.2 legible.root
  | .seq [] | .map [] | .null | .bool _ | .int _ | .float _ | .str _ => exact leaf_root _ rfl legible

theorem isStart_document {line rest : List Char} (behind : rest = [] ∨ rest.head? = some '\n') {m : Char} (feed : m ≠ '\n')
    {after : List Char} (same : line ++ rest = [m,m,m] ++ after) (ends : endsWord after.head? = true) :
    isMarker [m,m,m] line = true := by
  have white : ∀ c, isBlank c = true ∨ isBreak c = true → Text.isWhite c = true := by
    intro c known
    simp only [isBlank,isBreak,Bool.or_eq_true,beq_iff_eq] at known
    rcases known with (rfl | rfl) | (rfl | rfl) <;> decide
  refine (isMarker_iff _ _).mpr ?_
  obtain ⟨own,begun,tail⟩ | ⟨own,rfl,tail⟩ := List.append_eq_append_iff.mp same
  · cases own with
    | nil => exact ⟨[],by rw [begun]; simp,fun _ head => absurd head (Option.some_ne_none _).symm⟩
    | cons c own =>
      rw [tail] at behind
      rcases behind with none | head
      · exact absurd none (List.cons_ne_nil _ _)
      · obtain rfl := Option.some.inj head
        have member : '\n' ∈ [m,m,m] := by rw [begun]; simp
        simp [Ne.symm feed] at member
  · refine ⟨own,rfl,?_⟩
    cases own with
    | nil => exact fun _ head => absurd head (Option.some_ne_none _).symm
    | cons c own =>
      rintro d head
      obtain rfl := Option.some.inj head
      rw [tail] at ends
      exact white c (by simpa [endsWord] using ends)

theorem uncut_document {line rest : List Char} (uncut : Uncut line) (behind : rest = [] ∨ rest.head? = some '\n') :
    isDocumentMarker (line ++ rest) = false := by
  cases marker : isDocumentMarker (line ++ rest) with
  | false => rfl
  | true =>
    simp only [isDocumentMarker,Bool.or_eq_true] at marker
    rcases marker with start | stop
    · unfold isDocumentStart at start
      split at start
      · rename_i after same
        exact absurd (isStart_document behind (by decide) same start) (by simpa [isStart] using uncut.1)
      · cases start
    · unfold isDocumentEnd at stop
      split at stop
      · rename_i after same
        exact absurd (isStart_document behind (by decide) same stop) (by simpa [isStop] using uncut.2.1)
      · cases stop

end AutomationLint.Yaml
