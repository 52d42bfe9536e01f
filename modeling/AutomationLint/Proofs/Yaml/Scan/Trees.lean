import AutomationLint.Proofs.Yaml.Scan.Written

namespace AutomationLint.Yaml.Scan
open Writer

def KeysUnmarked (entries : List (String × Tree)) : Prop :=
  ∀ e ∈ entries, isDocumentMarker (keyForm e.1.toList ++ [':']) = false

def RootUnmarked : Tree → Prop
  | .map entries => KeysUnmarked entries
  | _ => True

-- Before a value: blocks start at the column of their lines, and a key may
-- stand there.
structure Placed (s : Scan) (columns : List Nat) (column : Nat) (t : Tree) : Prop where
  deep : indentOf columns < s.column
  leaf : isBlock t = false → column = insideOf columns
  unmarked : s.pos.column = 0 → isBlock t = false → isDocumentMarker s.cur.rest = false
  block : isBlock t = true → s.pos.column = column
  allowed : isBlock t = true → s.keyAllowed = true
  keys : s.pos.column = 0 → RootUnmarked t

structure Landed (s : Scan) (column : Int) (rest : List Char) : Prop where
  there : s.cur.rest = rest
  column : rest ≠ [] → s.column = column
  allowed : rest ≠ [] → s.keyAllowed = true

variable {s t u : Scan} {kinds : List TokenKind} {columns : List Nat} {rest more place : List Char} {target : Int}

theorem Passed.landed (passed : Passed s kinds columns target rest t) : Landed t target rest :=
  ⟨passed.there,passed.column,passed.allowed⟩

theorem Landed.at_line {column : Nat} (landed : Landed s column place) (tight : Tight s (column :: columns))
    (filled : place ≠ []) : s.pos.column = column ∧ s.indent ≤ s.column ∧ s.dedent column = s := by
  have own : s.pos.column = column := Int.ofNat.inj (landed.column filled)
  refine ⟨own,?_,dedent_of_le _ (Int.le_of_eq tight.indent)⟩
  rw [tight.indent,indentOf,←own]
  exact Int.le_refl _

theorem field_tail (column : Nat) (afterBlock : Bool) (value : Tree) (more : List Char)
    (legible : LegibleAt (column + 2) value) :
    let own := (Writer.inline (column + 2) value ++ more).dropLast
    Content own ∧ own ≠ [] ∧
      ((isBlock value = false ∧ (field column afterBlock value ++ more).dropLast = ' ' :: own) ∨
        (field column afterBlock value ++ more).dropLast = '\n' :: (spaces (column + 2) ++ own)) := by
  have starts := (inline_starts value (column + 2) legible).append more
  obtain ⟨content,filled⟩ := starts.dropLast
  have some : Writer.inline (column + 2) value ++ more ≠ [] := by
    intro none
    rw [none] at filled
    exact filled rfl
  refine ⟨content,filled,?_⟩
  cases field_lead column afterBlock value with
  | inl line =>
    refine .inl ⟨line.1,?_⟩
    rw [line.2,List.cons_append,List.dropLast_cons_of_ne_nil some]
  | inr line =>
    refine .inr ?_
    rw [line,List.cons_append,List.append_assoc,←List.cons_append,List.dropLast_append_of_ne_nil some]
    rfl

theorem field_ends (column : Nat) (afterBlock : Bool) (value : Tree) (more : List Char)
    (legible : LegibleAt (column + 2) value) :
    endsWord (field column afterBlock value ++ more).dropLast.head? = true ∧
      (field column afterBlock value ++ more).dropLast.head? ≠ some '\t' := by
  obtain ⟨_,_,along | line⟩ := field_tail column afterBlock value more legible
  · rw [along.2]
    exact ⟨rfl,by simp⟩
  · rw [line]
    exact ⟨rfl,by simp⟩

theorem field_before {column : Nat} {afterBlock : Bool} {value : Tree} (legible : LegibleAt (column + 2) value)
    (steps : Steps s t) (turned : t.turn = .ok u) (shorter : u.cur.rest.length < t.cur.rest.length)
    (own : s.pos.column = column)
    (next : ValueNext s u kinds (s.pos.column :: columns) (field column afterBlock value ++ more).dropLast) :
    ∃ v, Before s v kinds (column :: columns) (Writer.inline (column + 2) value ++ more).dropLast ∧
      Placed v (column :: columns) (column + 2) value := by
  subst own
  obtain ⟨content,filled,along | line⟩ := field_tail s.pos.column afterBlock value more legible
  · rw [along.2] at next
    obtain ⟨v,before⟩ := value_along steps turned next shorter content filled
    have deeper := before.deep
    have later : v.pos.column ≠ 0 := by
      have : v.column = (v.pos.column : Int) := rfl
      simp only [indentOf] at deeper
      omega
    exact ⟨v,before,deeper,fun _ => rfl,fun zero => absurd zero later,fun block => absurd block (by simp [along.1]),
      fun block => absurd block (by simp [along.1]),fun zero => absurd zero later⟩
  · rw [line] at next
    obtain ⟨v,before,place,allowed⟩ :=
      value_line steps turned (s.pos.column + 2) next shorter content filled (by omega)
    have later : v.pos.column ≠ 0 := by omega
    exact ⟨v,before,before.deep,fun _ => rfl,fun zero => absurd zero later,fun _ => place,fun _ => allowed,
      fun zero => absurd zero later⟩

theorem item_before {column : Nat} {item : Tree} (legible : LegibleAt (column + 2) item)
    (there : s.cur.rest = '-' :: ' ' :: (Writer.inline (column + 2) item ++ more).dropLast) (deep : s.indent ≤ s.column)
    (read : s.dash = .ok u) (holds : Holds u kinds) (within : Within u (s.pos.column :: columns))
    (cur : u.cur = s.cur.skip 2) (allowed : u.keyAllowed = true) (own : s.pos.column = column) :
    ∃ v, Before s v kinds (column :: columns) (Writer.inline (column + 2) item ++ more).dropLast ∧
      Placed v (column :: columns) (column + 2) item := by
  subst own
  obtain ⟨content,filled⟩ := ((inline_starts item (s.pos.column + 2) legible).append more).dropLast
  obtain ⟨v,before,place,same⟩ := item_next there content filled deep read holds within cur allowed
  have later : v.pos.column ≠ 0 := by omega
  exact ⟨v,before,before.deep,fun _ => rfl,fun zero => absurd zero later,fun _ => place,fun _ => same,
    fun zero => absurd zero later⟩

theorem item_content (column : Nat) (item : Tree) (legible : LegibleAt column item) (more : List Char) :
    Content (Writer.inline column item ++ more).dropLast := ((inline_starts item column legible).append more).dropLast.1

theorem seq_there {column : Nat} {item : Tree} {later : List Tree} (legible : LegibleAt (column + 2) item)
    (more : List Char) :
    ('-' :: ' ' :: Writer.inline (column + 2) item ++ Writer.items column later ++ more).dropLast =
      '-' :: ' ' :: (Writer.inline (column + 2) item ++ (Writer.items column later ++ more)).dropLast := by
  obtain ⟨c,d,rest,same,_⟩ := inline_starts item (column + 2) legible
  rw [same]
  simp

theorem map_there {column : Nat} {afterBlock : Bool} {name : String} {value : Tree} {later : List (String × Tree)}
    (more : List Char) :
    (keyForm name.toList ++ ':' :: field column afterBlock value ++ fields column (isBlock value) later ++
        more).dropLast =
      keyForm name.toList ++ ':' :: (field column afterBlock value ++
        (fields column (isBlock value) later ++ more)).dropLast := by
  have filled : field column afterBlock value ≠ [] := by
    obtain line | line := field_lead column afterBlock value
    · rw [line.2]; exact List.cons_ne_nil _ _
    · rw [line]; exact List.cons_ne_nil _ _
  simp only [List.append_assoc,List.cons_append]
  rw [List.dropLast_append_of_ne_nil (List.cons_ne_nil _ _),
    List.dropLast_cons_of_ne_nil (List.append_ne_nil_of_left_ne_nil filled _)]

-- The scanner goes from before a value to behind it, wherever the value is
-- written, and makes its tokens. As with nodes, there is one lemma for each
-- constructor.
def Passable (node : Tree) : Prop :=
  ∀ (column : Nat) (s : Scan) (kinds : List TokenKind) (columns : List Nat) (more rest : List Char) (target : Int),
    Holds s kinds → Within s columns → Placed s columns column node → LegibleAt column node →
    s.cur.rest = (Writer.inline column node ++ more).dropLast → Onward (('\n' :: more).dropLast) target rest →
    target ≤ indentOf columns → ∃ t, Passed s (kinds ++ kindsOf column node) columns target rest t

def ItemsPassable (items : List Tree) : Prop :=
  ∀ (column : Nat) (s : Scan) (kinds : List TokenKind) (columns : List Nat) (more rest place : List Char)
    (target next : Int), Holds s kinds → Tight s (column :: columns) → LegibleItems (column + 2) items →
    Landed s next place → Onward (('\n' :: (Writer.items column items ++ more)).dropLast) next place →
    Onward (('\n' :: more).dropLast) target rest → target ≤ column →
    ∃ t, Passed (s.dedent next) (kinds ++ itemKinds column items) (column :: columns) target rest t

def EntriesPassable (entries : List (String × Tree)) : Prop :=
  ∀ (afterBlock : Bool) (column : Nat) (s : Scan) (kinds : List TokenKind) (columns : List Nat)
    (more rest place : List Char) (target next : Int), Holds s kinds → Tight s (column :: columns) →
    LegibleEntries (column + 2) entries → (column = 0 → KeysUnmarked entries) → Landed s next place →
    Onward (('\n' :: (fields column afterBlock entries ++ more)).dropLast) next place →
    Onward (('\n' :: more).dropLast) target rest → target ≤ column →
    ∃ t, Passed (s.dedent next) (kinds ++ entryKinds column entries) (column :: columns) target rest t

theorem leaf_passable {node : Tree} (leaf : isBlock node = false) : Passable node := by
  intro column s kinds columns more rest target holds within placed legible there onward out
  obtain rfl := placed.leaf leaf
  rw [inline_leaf node leaf] at there
  rw [kindsOf_leaf node leaf]
  exact leaf_passed holds within placed.deep node leaf legible there onward out fun zero => placed.unmarked zero leaf

theorem items_none : ItemsPassable [] := by
  intro column s kinds columns more rest place target next holds tight _ landed first onward _
  obtain ⟨rfl,rfl⟩ := first.unique onward
  refine ⟨s,.refl _,?_,tight,landed.there,landed.column,landed.allowed⟩
  rw [itemKinds,List.append_nil]
  exact holds

theorem entries_none : EntriesPassable [] := by
  intro afterBlock column s kinds columns more rest place target next holds tight _ _ landed first onward _
  obtain ⟨rfl,rfl⟩ := first.unique onward
  refine ⟨s,.refl _,?_,tight,landed.there,landed.column,landed.allowed⟩
  rw [entryKinds,List.append_nil]
  exact holds

section Sequences

variable {item : Tree} {later : List Tree} {column : Nat}

-- A dash, its item and the items behind it; the dash may have opened the block
-- or not.
theorem item_passed (one : Passable item) (others : ItemsPassable later)
    (legible : LegibleItems (column + 2) (item :: later))
    (there : s.cur.rest =
      '-' :: ' ' :: (Writer.inline (column + 2) item ++ (Writer.items column later ++ more)).dropLast)
    (level : s.indent ≤ s.column) (read : s.dash = .ok u) (holds : Holds u kinds)
    (within : Within u (s.pos.column :: columns)) (cur : u.cur = s.cur.skip 2) (allowed : u.keyAllowed = true)
    (own : s.pos.column = column) (onward : Onward (('\n' :: more).dropLast) target rest) (out : target ≤ column) :
    ∃ t, Passed s (kinds ++ kindsOf (column + 2) item ++ itemKinds column later) (column :: columns) target rest t := by
  rw [LegibleItems] at legible
  obtain ⟨v,before,placed⟩ := item_before legible.1 there level read holds within cur allowed own
  obtain ⟨next,place,line,less⟩ := items_onward later onward out
  obtain ⟨w,passed⟩ := one (column + 2) v _ _ _ place next before.holds before.within placed legible.1 before.there line less
  obtain ⟨x,behind⟩ := others column w _ columns more rest place target next passed.holds passed.tight legible.2
    passed.landed line onward out
  exact ⟨x,behind.prepend (before.steps.trans passed.steps)⟩

theorem seq_passable (one : Passable item) (others : ItemsPassable later) : Passable (.seq (item :: later)) := by
  intro column s kinds columns more rest target holds within placed legible there onward out
  rw [LegibleAt] at legible
  rw [Writer.inline,seq_there legible.1] at there
  have own := placed.block rfl
  have deeper : indentOf columns < column := own ▸ placed.deep
  have inside : target ≤ column := Int.le_of_lt (Int.lt_of_le_of_lt out deeper)
  obtain ⟨u,read,uHolds,uWithin,uCur,uAllowed⟩ := dash_opens holds within placed.deep (placed.allowed rfl) there
    (item_content _ item legible.1 _)
  obtain ⟨x,behind⟩ := item_passed one others legible there (within.indent_le placed.deep) read uHolds uWithin uCur
    uAllowed own onward inside
  refine ⟨x.dedent (indentOf columns),?_⟩
  rw [kindsOf]
  simpa using behind.close deeper out

theorem items_passable_cons (one : Passable item) (others : ItemsPassable later) : ItemsPassable (item :: later) := by
  intro column s kinds columns more rest place target next holds tight legible landed first onward out
  have starts : Starts ('-' :: ' ' :: Writer.inline (column + 2) item ++ Writer.items column later ++ more) :=
    ⟨'-',' ',_,rfl,by decide,by decide,by decide⟩
  have written : Writer.items column (item :: later) ++ more =
      spaces column ++ ('-' :: ' ' :: Writer.inline (column + 2) item ++ Writer.items column later ++ more) := by
    rw [Writer.items]
    simp
  rw [written] at first
  obtain ⟨rfl,rfl⟩ := first.unique (onward_line column starts)
  obtain ⟨own,level,stays⟩ := landed.at_line tight starts.dropLast.2
  rw [stays]
  have there := landed.there
  rw [seq_there legible.1] at there
  obtain ⟨u,read,uHolds,uWithin,uCur,uAllowed⟩ := dash_stays holds (own ▸ tight) (landed.allowed starts.dropLast.2) there
    (item_content _ item legible.1 _)
  obtain ⟨x,behind⟩ := item_passed one others legible there level read uHolds uWithin uCur uAllowed own onward out
  refine ⟨x,?_⟩
  rw [itemKinds]
  simpa using behind

end Sequences

section Mappings

variable {name : String} {value : Tree} {later : List (String × Tree)} {column : Nat}

theorem value_passed (one : Passable value) (others : EntriesPassable later) {afterBlock : Bool}
    (legible : LegibleEntries (column + 2) ((name,value) :: later)) (unmarked : column = 0 → KeysUnmarked later)
    (steps : Steps s t) (turned : t.turn = .ok u) (shorter : u.cur.rest.length < t.cur.rest.length)
    (own : s.pos.column = column)
    (after : ValueNext s u kinds (s.pos.column :: columns)
      (field column afterBlock value ++ (fields column (isBlock value) later ++ more)).dropLast)
    (onward : Onward (('\n' :: more).dropLast) target rest) (out : target ≤ column) :
    ∃ t, Passed s (kinds ++ kindsOf (column + 2) value ++ entryKinds column later) (column :: columns) target rest t := by
  rw [LegibleEntries] at legible
  obtain ⟨_,legibleValue,legibleLater⟩ := legible
  obtain ⟨v,before,placed⟩ := field_before legibleValue steps turned shorter own after
  obtain ⟨next,place,line,less⟩ := fields_onward later (isBlock value) legibleLater onward out
  obtain ⟨w,passed⟩ := one (column + 2) v _ _ _ place next before.holds before.within placed legibleValue before.there
    line less
  obtain ⟨x,behind⟩ := others (isBlock value) column w _ columns more rest place target next passed.holds passed.tight
    legibleLater unmarked passed.landed line onward out
  exact ⟨x,behind.prepend (before.steps.trans passed.steps)⟩

theorem map_passable (one : Passable value) (others : EntriesPassable later) :
    Passable (.map ((name,value) :: later)) := by
  intro column s kinds columns more rest target holds within placed legible there onward out
  rw [LegibleAt] at legible
  obtain ⟨key,legibleValue,_⟩ := legible.2
  rw [Writer.inline,map_there] at there
  have own := placed.block rfl
  have deeper : indentOf columns < column := own ▸ placed.deep
  have inside : target ≤ column := Int.le_of_lt (Int.lt_of_le_of_lt out deeper)
  have ends := field_ends column false value (fields column (isBlock value) later ++ more) legibleValue
  have unmarked : s.pos.column = 0 → isDocumentMarker s.cur.rest = false := by
    intro zero
    rw [there,marker_colon]
    exact placed.keys zero (name,value) List.mem_cons_self
  obtain ⟨t,u,steps,turned,shorter,next⟩ :=
    key_opens holds within placed.deep (placed.allowed rfl) key there ends.1 ends.2 unmarked
  have laterKeys : column = 0 → KeysUnmarked later := fun zero e member =>
    placed.keys (own.trans zero) e (List.mem_cons_of_mem _ member)
  obtain ⟨x,behind⟩ := value_passed one others legible.2 laterKeys steps turned shorter own next onward inside
  refine ⟨x.dedent (indentOf columns),?_⟩
  rw [kindsOf]
  simpa using behind.close deeper out

theorem entries_passable_cons (one : Passable value) (others : EntriesPassable later) :
    EntriesPassable ((name,value) :: later) := by
  intro afterBlock column s kinds columns more rest place target next holds tight legible unmarked landed first onward out
  have ⟨key,legibleValue,_⟩ := legible
  have starts : Starts (keyForm name.toList ++ ':' :: field column afterBlock value ++
      fields column (isBlock value) later ++ more) := by
    rw [List.append_assoc]
    exact (key_starts key _).append _
  have written : fields column afterBlock ((name,value) :: later) ++ more =
      spaces column ++ (keyForm name.toList ++ ':' :: field column afterBlock value ++
        fields column (isBlock value) later ++ more) := by
    rw [fields]
    simp
  rw [written] at first
  obtain ⟨rfl,rfl⟩ := first.unique (onward_line column starts)
  obtain ⟨own,_,stays⟩ := landed.at_line tight starts.dropLast.2
  rw [stays]
  have there := landed.there
  rw [map_there] at there
  have ends := field_ends column afterBlock value (fields column (isBlock value) later ++ more) legibleValue
  have unmarkedHere : s.pos.column = 0 → isDocumentMarker s.cur.rest = false := by
    intro zero
    rw [there,marker_colon]
    exact unmarked (own.symm.trans zero) (name,value) List.mem_cons_self
  obtain ⟨t,u,steps,turned,shorter,next⟩ :=
    key_stays holds (own ▸ tight) (landed.allowed starts.dropLast.2) key there ends.1 ends.2 unmarkedHere
  have laterKeys : column = 0 → KeysUnmarked later := fun zero e member =>
    unmarked zero e (List.mem_cons_of_mem _ member)
  obtain ⟨x,behind⟩ := value_passed one others legible laterKeys steps turned shorter own next onward out
  refine ⟨x,?_⟩
  rw [entryKinds]
  simpa using behind

end Mappings

mutual
theorem passable (node : Tree) : Passable node := by
  match node with
  | .seq (item :: later) => exact seq_passable (passable item) (items_passable later)
  | .map ((_,value) :: later) => exact map_passable (passable value) (entries_passable later)
  | .seq [] | .map [] | .null | .bool _ | .int _ | .float _ | .str _ => exact leaf_passable rfl

theorem items_passable (items : List Tree) : ItemsPassable items := by
  match items with
  | [] => exact items_none
  | item :: later => exact items_passable_cons (passable item) (items_passable later)

theorem entries_passable (entries : List (String × Tree)) : EntriesPassable entries := by
  match entries with
  | [] => exact entries_none
  | (_,value) :: later => exact entries_passable_cons (passable value) (entries_passable later)
end

theorem start_holds (text : List Char) : Holds (start text) [] :=
  ⟨rfl,rfl,nofun,rfl,rfl,nofun,rfl,Nat.lt_succ_self _⟩

theorem tokens_written (t : Tree) (legible : LegibleAt (rootColumn t) t) (keys : RootUnmarked t)
    (unmarked : isBlock t = false → isDocumentMarker (Writer.document t).dropLast = false) :
    ∃ tokens, Tokens.ofText (Writer.document t).dropLast = ⟨tokens,none⟩ ∧
      tokens.map Token.kind = kindsOf (rootColumn t) t ++ [.streamEnd] ∧ ∀ token ∈ tokens.dropLast, usual token = true := by
  rw [document_root] at unmarked ⊢
  generalize text : (Writer.inline (rootColumn t) t).dropLast = body at unmarked ⊢
  obtain ⟨content,filled⟩ := (inline_starts t (rootColumn t) legible).dropLast
  rw [text] at content filled
  obtain ⟨u,there,moved,cur,allowed⟩ := settle_along (start_holds body) 0 rfl content
  have still : u.cur = Cursor.start body := by rw [cur,Cursor.skip_zero]; rfl
  have place : u.cur.rest = body := by rw [still]; rfl
  have column : u.pos.column = 0 := by rw [Scan.pos,still]; rfl
  have holds : Holds u [] := (start_holds body).moved moved (Nat.le_of_eq (congrArg List.length place))
  have tight : Tight u [] := ⟨moved.indent,moved.levels⟩
  have level : u.indent ≤ u.column := by
    have : u.column = (u.pos.column : Int) := rfl
    rw [tight.indent,this]
    simp only [indentOf]
    omega
  have landed : u.land = u := by rw [land_content (by rw [place]; exact filled),dedent_of_le _ level]
  have placed : Placed u [] (rootColumn t) t := by
    refine ⟨?_,?_,?_,?_,?_,fun _ => keys⟩
    · have : u.column = (u.pos.column : Int) := rfl
      simp only [indentOf]
      omega
    · intro leaf; simp [rootColumn,leaf,insideOf,indentOf]
    · intro _ leaf; rw [place]; exact unmarked leaf
    · intro block; simp [rootColumn,block,column]
    · intro _; rw [allowed]; rfl
  obtain ⟨w,passed⟩ := passable t (rootColumn t) u [] [] [] [] (-1) holds (.inl tight) placed legible
    (by rw [place,List.append_nil,text]) .none (Int.le_refl _)
  have ended : w.dedent (-1) = w := dedent_of_le _ (Int.le_of_eq passed.tight.indent)
  have steps := passed.steps
  rw [ended] at steps
  obtain ⟨final,end_,left,same,running,settled,landing,enough⟩ := scan_steps steps (start body) u (start_holds body).done there
    landed (Nat.le_of_eq (congrArg List.length place)) (body.length + 2) (Nat.le_refl _)
  have nothing : end_.cur.rest = [] := by
    have : end_.land.cur = end_.cur := dedent_cur _ _
    rw [←this,landing,passed.there]
  obtain ⟨tokens,read,kinds,usual⟩ := scan_end running settled nothing (landing ▸ passed.holds) left enough
  exact ⟨tokens,same.trans read,kinds,usual⟩

end AutomationLint.Yaml.Scan
