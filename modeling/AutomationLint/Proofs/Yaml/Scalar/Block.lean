import AutomationLint.Proofs.Yaml.Scan.Blanks
import AutomationLint.Yaml.Scalar

namespace AutomationLint.Yaml.Block
open Scan Writer

def below (indent : Nat) : List (List Char) → List Char → List Char
  | [], tail => tail
  | line :: later, tail => '\n' :: (spaces indent ++ (line ++ below indent later tail))

def joined (glue : Char) : List (List Char) → List Char
  | [] => []
  | [line] => line
  | line :: later => line ++ glue :: joined glue later

def glue (folded : Bool) : Char := if folded then ' ' else '\n'

def lead (folded pending : Bool) (breaks : Nat) : List Char :=
  if folded && pending then [' '] else newlines (breaks + pending.toNat)

-- How the header tells the breaks at the end, the empty lines that are written
-- for them, and how many these breaks are.
inductive Ends : Chomping → Nat → Nat → Prop where
  | none : Ends .strip 0 0
  | one : Ends .clip 0 1
  | more (n : Nat) : Ends .keep (n + 1) (n + 2)

-- The lines of a text, the last one with something in it. Folded lines are
-- those that start with a character.
structure Rows (folded : Bool) (lines : List (List Char)) : Prop where
  unbroken : ∀ line ∈ lines, ∀ c ∈ line, isBreak c = false
  last : lines.getLast? ≠ some []
  visible : folded = true → ∀ line ∈ lines, ∃ c rest, line = c :: rest ∧ isBlank c = false

variable {cur : Cursor} {indent column k n : Nat} {text tail rest line : List Char} {lines : List (List Char)}
  {target : Int} {folded : Bool} {chomping : Chomping}

theorem joined_cons (glue : Char) (line : List Char) (lines : List (List Char)) (some : lines ≠ []) :
    joined glue (line :: lines) = line ++ glue :: joined glue lines := by
  cases lines with
  | nil => exact absurd rfl some
  | cons next later => rfl

theorem Rows.behind {next : List Char} (is : Rows folded (line :: next :: lines)) : Rows folded (next :: lines) :=
  ⟨fun l member => is.unbroken l (List.mem_cons_of_mem _ member),by simpa using is.last,
    fun fold l member => is.visible fold l (List.mem_cons_of_mem _ member)⟩

theorem Rows.filled (is : Rows true (line :: lines)) : line ≠ [] := by
  obtain ⟨c,rest,same,_⟩ := is.visible rfl line List.mem_cons_self
  exact same ▸ List.cons_ne_nil c rest

theorem Rows.seen {c : Char} (is : Rows folded ((c :: line) :: lines)) (fold : folded = true) : isBlank c = false := by
  obtain ⟨d,rest,same,seen⟩ := is.visible fold (c :: line) List.mem_cons_self
  exact (List.cons.inj same).1 ▸ seen

theorem skipBreak_feed (there : cur.rest = '\n' :: rest) :
    cur.skipBreak.rest = rest ∧ cur.skipBreak.column = 0 := by
  simp [Cursor.skipBreak,there,Cursor.column]

theorem atBreak_eq (there : cur.rest = rest) (unbroken : ∀ c, rest.head? = some c → isBreak c = false) :
    cur.atBreak = false := by
  cases first : rest with
  | nil => simp [Cursor.atBreak,Cursor.peek,there,first]
  | cons c more => simp [Cursor.atBreak,Cursor.peek,there,first,unbroken c (by rw [first]; rfl)]

theorem indent_run (there : cur.rest = spaces column ++ rest) (start : cur.column = 0) (least : column ≤ indent)
    (stops : column = indent ∨ rest.head? ≠ some ' ') :
    ((cur.rest.take (indent - cur.column)).takeWhile (· == ' ')).length = column := by
  have blanks : ∀ c ∈ spaces column, (c == ' ') = true := by simp [spaces]
  have taken : cur.rest.take (indent - cur.column) = spaces column ++ rest.take (indent - column) := by
    rw [there,start,Nat.sub_zero,List.take_append,List.take_of_length_le (by rw [spaces_length]; exact least),
      spaces_length]
  have none : (rest.take (indent - column)).takeWhile (· == ' ') = [] := by
    cases stops with
    | inl same => simp [same]
    | inr other =>
      cases rest with
      | nil => simp
      | cons c more =>
        cases left : indent - column with
        | zero => rfl
        | succ m =>
          have blank : (c == ' ') = false := by simpa using other
          simp [blank]
  rw [taken,List.takeWhile_append_of_pos blanks,none,List.append_nil,spaces_length]

theorem skipIndent_content (fuel breaks : Nat) (there : cur.rest = spaces column ++ rest) (start : cur.column = 0)
    (least : column ≤ indent) (stops : column = indent ∨ rest.head? ≠ some ' ')
    (unbroken : ∀ c, rest.head? = some c → isBreak c = false) :
    skipIndent indent (fuel + 1) cur breaks = (cur.skip column,breaks) := by
  have after : (cur.skip column).rest = rest := rest_spaces there
  rw [skipIndent,indent_run there start least stops]
  simp only [atBreak_eq after unbroken,if_neg Bool.false_ne_true]

theorem column_skip (start : cur.column = 0) (m : Nat) : (cur.skip m).column = m := by
  simp only [Cursor.skip,Cursor.column] at start ⊢
  omega

theorem leading_run (there : cur.rest = spaces column ++ rest) (stops : rest.head? ≠ some ' ') :
    cur.skipWhile (· == ' ') = cur.skip column := by
  have none : rest.takeWhile (· == ' ') = [] := by
    cases rest with
    | nil => rfl
    | cons c more =>
      have blank : (c == ' ') = false := by simpa using stops
      simp [blank]
  have blanks : ∀ c ∈ spaces column, (c == ' ') = true := by simp [spaces]
  rw [Cursor.skipWhile,there,List.takeWhile_append_of_pos blanks,none,List.append_nil,spaces_length]

theorem skipLeading_content (fuel breaks widest : Nat) (there : cur.rest = spaces column ++ rest)
    (start : cur.column = 0) (stops : rest.head? ≠ some ' ') (unbroken : ∀ c, rest.head? = some c → isBreak c = false) :
    skipLeading (fuel + 1) cur breaks widest = (cur.skip column,breaks,max widest column) := by
  have after : (cur.skip column).rest = rest := rest_spaces there
  rw [skipLeading,leading_run there stops]
  simp only [atBreak_eq after unbroken,if_neg Bool.false_ne_true,column_skip start]

theorem empty_line (fuel breaks : Nat) (there : cur.rest = spaces indent ++ '\n' :: rest) (start : cur.column = 0) :
    ∃ next, skipIndent indent (fuel + 1) cur breaks = skipIndent indent fuel next (breaks + 1) ∧
      (∀ widest, skipLeading (fuel + 1) cur breaks widest = skipLeading fuel next (breaks + 1) (max widest indent)) ∧
      next.rest = rest ∧ next.column = 0 := by
  have after : (cur.skip indent).rest = '\n' :: rest := rest_spaces there
  have broken : (cur.skip indent).atBreak = true := by simp [Cursor.atBreak,Cursor.peek,after,isBreak]
  refine ⟨(cur.skip indent).skipBreak,?_,?_,skipBreak_feed after⟩
  · rw [skipIndent,indent_run there start (Nat.le_refl _) (.inl rfl)]
    simp only [broken,if_true]
  · intro widest
    rw [skipLeading,leading_run there (by simp)]
    simp only [broken,if_true,column_skip start]

theorem skipIndent_empties (k fuel breaks : Nat) (there : cur.rest = spaces indent ++ below indent (List.replicate k []) tail)
    (start : cur.column = 0) (onward : Onward tail target rest) (out : target < indent) (enough : k + 2 ≤ fuel) :
    ∃ next, skipIndent indent fuel cur breaks = (next,breaks + k + if tail = [] then 0 else 1) ∧ next.rest = rest ∧
      next.column = if tail = [] then (indent : Int) else target := by
  induction k generalizing cur fuel breaks with
  | zero =>
    obtain ⟨fuel,rfl⟩ : ∃ left, fuel = left + 2 := ⟨fuel - 2,by omega⟩
    cases onward with
    | none =>
      refine ⟨cur.skip indent,skipIndent_content (fuel + 1) breaks there start (Nat.le_refl _) (.inl rfl) nofun,
        rest_spaces there,?_⟩
      simp [column_skip start]
    | line column rest filled content =>
      obtain ⟨next,step,_,place,fresh⟩ := empty_line (fuel + 1) breaks there start
      have less : column ≤ indent := by omega
      have head : rest.head? ≠ some ' ' := fun first => absurd (content ' ' first).1 (by decide)
      refine ⟨next.skip column,?_,rest_spaces place,?_⟩
      · rw [step,skipIndent_content fuel (breaks + 1) place fresh less (.inr head) fun c first => (content c first).2.1]
        rfl
      · simp [column_skip fresh]
  | succ k ih =>
    obtain ⟨fuel,rfl⟩ : ∃ left, fuel = left + 1 := ⟨fuel - 1,by omega⟩
    obtain ⟨next,step,_,place,fresh⟩ := empty_line fuel breaks there start
    obtain ⟨last,read,others⟩ := ih fuel (breaks + 1) place fresh (by omega)
    refine ⟨last,?_,others⟩
    rw [step,read]
    congr 1
    omega

theorem scanLines_stops (steps fuel : Nat) (s : Lines) (stops : s.cur.column ≠ indent ∨ s.cur.rest = []) :
    scanLines steps folded indent fuel s = s := by
  cases fuel with
  | zero => rfl
  | succ fuel =>
    have ends : (s.cur.column != indent || s.cur.atEnd || (indent == 0 && isDocumentEnd s.cur.rest)) = true := by
      cases stops with
      | inl other => simp [other]
      | inr none => simp [Cursor.atEnd,none]
    rw [scanLines,if_pos ends]

def behind (steps : Nat) (folded : Bool) (indent fuel : Nat) (cur : Cursor) (text : List Char) (blank : Bool) : Lines :=
  if cur.atEnd then ⟨cur,text,false,0,blank⟩
  else
    let (next,further) := skipIndent indent steps cur.skipBreak 0
    scanLines steps folded indent fuel ⟨next,text,true,further,blank⟩

structure Finished (chomping : Chomping) (indent : Nat) (text rest : List Char) (target : Int) (s : Lines) : Prop where
  said : finish chomping indent s = text
  there : s.cur.rest = rest
  column : rest ≠ [] → (s.cur.column : Int) = target

theorem behind_alone (steps fuel : Nat) (blank : Bool) (there : cur.rest = tail) (onward : Onward tail target rest)
    (out : target < indent) (positive : 0 < indent) (deep : indent ≤ cur.column) (ends : Ends chomping 0 n)
    (enough : 1 ≤ steps) :
    Finished chomping indent (text.reverse ++ newlines n) rest target
      (behind steps folded indent fuel cur text blank) := by
  have least : max indent 1 = indent := Nat.max_eq_left positive
  cases onward with
  | none =>
    have end_ : cur.atEnd = true := by simp [Cursor.atEnd,there]
    rw [behind,if_pos end_]
    refine ⟨?_,there,absurd rfl⟩
    cases ends <;> simp [finish,end_,least,deep]
  | line column rest filled content =>
    have more : cur.atEnd = false := by simp [Cursor.atEnd,there]
    obtain ⟨place,fresh⟩ := skipBreak_feed there
    obtain ⟨steps,rfl⟩ : ∃ left, steps = left + 1 := ⟨steps - 1,by omega⟩
    have head : rest.head? ≠ some ' ' := fun first => absurd (content ' ' first).1 (by decide)
    have less : column < indent := by omega
    have after : (cur.skipBreak.skip column).rest = rest := rest_spaces place
    have other : (cur.skipBreak.skip column).column ≠ indent := by rw [column_skip fresh]; omega
    rw [behind,more,if_neg Bool.false_ne_true,
      skipIndent_content steps 0 place fresh (Nat.le_of_lt less) (.inr head) fun c first => (content c first).2.1]
    dsimp only
    rw [scanLines_stops _ _ _ (.inl other)]
    have not : (cur.skipBreak.skip column).atEnd = false := by simp [Cursor.atEnd,after,filled]
    refine ⟨?_,after,fun _ => by rw [column_skip fresh]⟩
    cases ends <;> simp [finish,not]

theorem behind_empties (steps fuel : Nat) (blank : Bool)
    (there : cur.rest = below indent (List.replicate (k + 1) []) tail) (onward : Onward tail target rest)
    (out : target < indent) (positive : 0 < indent) (enough : k + 2 ≤ steps) :
    Finished .keep indent (text.reverse ++ newlines (k + 2)) rest target
      (behind steps folded indent fuel cur text blank) := by
  have least : max indent 1 = indent := Nat.max_eq_left positive
  have more : cur.atEnd = false := by simp [Cursor.atEnd,there,below,List.replicate_succ]
  obtain ⟨place,fresh⟩ := skipBreak_feed there
  obtain ⟨next,read,after,column⟩ := skipIndent_empties k steps 0 place fresh onward out enough
  rw [behind,more,if_neg Bool.false_ne_true,read]
  dsimp only
  cases onward with
  | none =>
    rw [scanLines_stops _ _ _ (.inr after)]
    have end_ : next.atEnd = true := by simp [Cursor.atEnd,after]
    have same : next.column = indent := Int.ofNat.inj (by simpa using column)
    refine ⟨?_,after,absurd rfl⟩
    simp [finish,end_,least,same]
    exact congrArg newlines (by omega)
  | line column rest filled content =>
    have other : next.column ≠ indent := by
      simp only [if_neg (List.cons_ne_nil _ _)] at column
      omega
    rw [scanLines_stops _ _ _ (.inl other)]
    have not : next.atEnd = false := by simp [Cursor.atEnd,after,filled]
    refine ⟨?_,after,fun _ => by simpa using column⟩
    simp [finish,not]
    exact congrArg newlines (by omega)

theorem behind_last (steps fuel : Nat) (blank : Bool) (there : cur.rest = below indent (List.replicate k []) tail)
    (onward : Onward tail target rest) (out : target < indent) (positive : 0 < indent) (deep : indent ≤ cur.column)
    (ends : Ends chomping k n) (enough : k + 1 ≤ steps) :
    Finished chomping indent (text.reverse ++ newlines n) rest target
      (behind steps folded indent fuel cur text blank) := by
  cases k with
  | zero => exact behind_alone steps fuel blank there onward out positive deep ends enough
  | succ k =>
    cases ends
    exact behind_empties steps fuel blank there onward out positive enough

theorem scanLines_line (steps fuel further : Nat) (pending blank : Bool) (c : Char) (more : List Char)
    (unbroken : ∀ d ∈ c :: more, isBreak d = false) (visible : folded = true → isBlank c = false)
    (first : folded = true → further = 0 ∧ blank = false)
    (there : cur.rest = c :: more ++ rest) (ends : ∀ d, rest.head? = some d → isBreak d = true)
    (place : cur.column = indent) (positive : 0 < indent) :
    scanLines steps folded indent (fuel + 1) ⟨cur,text,pending,further,blank⟩ =
      behind steps folded indent fuel (cur.skip (c :: more).length)
        ((c :: more).reverse ++ lead folded pending further ++ text) (isBlank c) := by
  have goes : (cur.column != indent || cur.atEnd || (indent == 0 && isDocumentEnd cur.rest)) = false := by
    have : (indent == 0) = false := beq_eq_false_iff_ne.mpr (by omega)
    simp [Cursor.atEnd,there,place,this]
  have line : cur.rest.takeWhile (fun d => !isBreak d) = c :: more := by
    have none : rest.takeWhile (fun d => !isBreak d) = [] := by
      cases rest with
      | nil => rfl
      | cons d rest => simp [ends d rfl]
    rw [there,List.takeWhile_append_of_pos (fun d member => by simp [unbroken d member]),none,List.append_nil]
  have blankNow : cur.atBlank = isBlank c := by simp [Cursor.atBlank,Cursor.peek,there]
  have joins : joint folded ⟨cur,text,pending,further,blank⟩ = lead folded pending further := by
    cases folded with
    | false => rfl
    | true =>
      obtain ⟨rfl,rfl⟩ := first rfl
      cases pending <;> simp [joint,lead,blankNow,visible rfl]
  rw [scanLines,goes,if_neg Bool.false_ne_true]
  simp only [line,joins,blankNow]
  rfl

theorem below_ends {lines : List (List Char)} (onward : Onward tail target rest) :
    ∀ d, (below indent lines tail).head? = some d → isBreak d = true := by
  intro d head
  cases lines with
  | nil =>
    cases onward with
    | none => exact nomatch head
    | line => obtain rfl := Option.some.inj head; rfl
  | cons line later => obtain rfl := Option.some.inj head; rfl

theorem below_append (front behind : List (List Char)) (tail : List Char) :
    below indent (front ++ behind) tail = below indent front (below indent behind tail) := by
  induction front with
  | nil => rfl
  | cons line later ih => simp only [List.cons_append,below,ih]

theorem below_length (indent : Nat) (lines : List (List Char)) (tail : List Char) :
    lines.length + tail.length ≤ (below indent lines tail).length := by
  induction lines with
  | nil => exact Nat.le_of_eq (Nat.zero_add _)
  | cons line later ih => simp only [below,List.length_cons,List.length_append]; omega

theorem line_read {c : Char} {more : List Char} {later : List (List Char)} (steps left fuel breaks : Nat)
    (pending blank : Bool) (text : List Char) (is : Rows folded ((c :: more) :: later))
    (there : cur.rest = spaces indent ++ (c :: more ++ rest)) (start : cur.column = 0) (positive : 0 < indent)
    (first : folded = true → breaks = 0 ∧ blank = false) (ends : ∀ d, rest.head? = some d → isBreak d = true)
    (enters : cur.rest.length < left) (enough : cur.rest.length < fuel) :
    let entered := skipIndent indent left cur breaks
    ∃ next past, scanLines steps folded indent fuel ⟨entered.1,text,pending,entered.2,blank⟩ =
        behind steps folded indent past next ((c :: more).reverse ++ lead folded pending breaks ++ text) (isBlank c) ∧
      next.rest = rest ∧ indent ≤ next.column ∧ rest.length < past := by
  obtain ⟨left,rfl⟩ : ∃ l, left = l + 1 := ⟨left - 1,by omega⟩
  obtain ⟨fuel,rfl⟩ : ∃ l, fuel = l + 1 := ⟨fuel - 1,by omega⟩
  have solid := is.unbroken (c :: more) List.mem_cons_self
  have lands := skipIndent_content left breaks there start (Nat.le_refl _) (.inl rfl)
    (fun d head => Option.some.inj head ▸ solid c List.mem_cons_self)
  have after : (cur.skip indent).rest = c :: more ++ rest := rest_spaces there
  have length := congrArg List.length there
  simp only [List.length_append,List.length_cons] at length
  simp only [lands]
  refine ⟨_,fuel,scanLines_line steps fuel breaks pending blank c more solid is.seen first after ends
    (column_skip start _) positive,Cursor.rest_skip after,?_,by omega⟩
  simp only [Cursor.skip,Cursor.column]
  omega

@[simp] theorem lead_reverse (folded pending : Bool) (breaks : Nat) :
    (lead folded pending breaks).reverse = lead folded pending breaks := by
  unfold lead
  split
  · rfl
  · exact List.reverse_replicate

@[simp] theorem lead_further (pending : Bool) (breaks : Nat) :
    lead false pending (breaks + 1) = lead false pending breaks ++ ['\n'] := by
  simp only [lead,Bool.false_and,if_neg Bool.false_ne_true,newlines,←List.replicate_succ']
  congr 1
  omega

@[simp] theorem lead_later (folded : Bool) : lead folded true 0 = [glue folded] := by
  cases folded <;> rfl

-- Behind the break before a line, this line and all further ones are read.
def RowsRead (steps indent : Nat) (folded : Bool) (chomping : Chomping) (k n : Nat) (tail rest : List Char)
    (target : Int) (line : List Char) (later : List (List Char)) : Prop :=
  ∀ (cur : Cursor) (left fuel breaks : Nat) (pending blank : Bool) (text : List Char),
    cur.rest = spaces indent ++ (line ++ below indent (later ++ List.replicate k []) tail) → cur.column = 0 →
    (folded = true → breaks = 0 ∧ blank = false) → cur.rest.length < left → cur.rest.length < fuel →
    cur.rest.length < steps →
    let entered := skipIndent indent left cur breaks
    Finished chomping indent
      (text.reverse ++ lead folded pending breaks ++ joined (glue folded) (line :: later) ++ newlines n) rest target
      (scanLines steps folded indent fuel ⟨entered.1,text,pending,entered.2,blank⟩)

section Reading

variable (steps : Nat) {next : List Char} {later : List (List Char)}

theorem rows_last (positive : 0 < indent) (is : Rows folded [line]) (onward : Onward tail target rest) (out : target < indent)
    (ends : Ends chomping k n) : RowsRead steps indent folded chomping k n tail rest target line [] := by
  intro cur left fuel breaks pending blank text there start first enters enough every
  obtain ⟨c,more,rfl⟩ := List.exists_cons_of_ne_nil (l := line) fun none => is.last (by rw [none]; rfl)
  obtain ⟨next,past,read,place,deep,_⟩ := line_read steps left fuel breaks pending blank text is there start positive
    first (below_ends onward) enters enough
  have rows := below_length indent (List.replicate k []) tail
  have length := congrArg List.length there
  simp only [List.length_append,List.length_replicate,List.nil_append] at rows length
  have last : Finished chomping indent _ rest target (behind steps folded indent past next
      ((c :: more).reverse ++ lead folded pending breaks ++ text) (isBlank c)) :=
    behind_last steps past (isBlank c) place onward out positive deep ends (by omega)
  intro entered
  rw [read]
  simpa [joined] using last

theorem rows_empty (is : Rows folded ([] :: next :: later))
    (others : RowsRead steps indent folded chomping k n tail rest target next later) :
    RowsRead steps indent folded chomping k n tail rest target [] (next :: later) := by
  intro cur left fuel breaks pending blank text there start first enters enough every
  have unfolded : folded = false := by
    cases folded with
    | false => rfl
    | true => exact absurd rfl is.filled
  subst unfolded
  have there : cur.rest = spaces indent ++ '\n' ::
      (spaces indent ++ (next ++ below indent (later ++ List.replicate k []) tail)) := there
  have length := congrArg List.length there
  simp only [List.length_append,List.length_cons] at length
  obtain ⟨left,rfl⟩ : ∃ l, left = l + 1 := ⟨left - 1,by omega⟩
  obtain ⟨after,step,_,place,fresh⟩ := empty_line left breaks there start
  have shorter : after.rest.length < cur.rest.length := by
    rw [place]
    simp only [List.length_append]
    omega
  have further := others after left fuel (breaks + 1) pending blank text place fresh nofun (by omega) (by omega) (by omega)
  intro entered
  have same : entered = skipIndent indent left after (breaks + 1) := step
  rw [same]
  rw [lead_further] at further
  simpa [joined_cons,glue] using further

theorem rows_line (positive : 0 < indent) {c : Char} {more : List Char} (is : Rows folded ((c :: more) :: next :: later))
    (others : RowsRead steps indent folded chomping k n tail rest target next later) :
    RowsRead steps indent folded chomping k n tail rest target (c :: more) (next :: later) := by
  intro cur left fuel breaks pending blank text there start first enters enough every
  have there : cur.rest = spaces indent ++ (c :: more ++ '\n' ::
      (spaces indent ++ (next ++ below indent (later ++ List.replicate k []) tail))) := there
  have length := congrArg List.length there
  simp only [List.length_append,List.length_cons] at length
  obtain ⟨after,past,read,place,deep,enough'⟩ := line_read steps left fuel breaks pending blank text is there start
    positive first (fun d head => Option.some.inj head ▸ rfl) enters enough
  obtain ⟨place',fresh⟩ := skipBreak_feed place
  have shorter : after.skipBreak.rest.length < cur.rest.length := by
    rw [place']
    simp only [List.length_append]
    omega
  have goes : after.atEnd = false := by simp [Cursor.atEnd,place]
  have further := others after.skipBreak steps past 0 true (isBlank c)
    ((c :: more).reverse ++ lead folded pending breaks ++ text) place' fresh (fun fold => ⟨rfl,is.seen fold⟩) (by omega)
    (by rw [place']; exact Nat.lt_of_succ_lt enough') (by omega)
  intro entered
  rw [read,behind,goes,if_neg Bool.false_ne_true]
  rw [lead_later] at further
  simpa [joined_cons] using further

theorem rows_read (positive : 0 < indent) (later : List (List Char)) (is : Rows folded (line :: later))
    (onward : Onward tail target rest) (out : target < indent) (ends : Ends chomping k n) :
    RowsRead steps indent folded chomping k n tail rest target line later := by
  induction later generalizing line with
  | nil => exact rows_last steps positive is onward out ends
  | cons next later ih =>
    cases line with
    | nil => exact rows_empty steps is (ih is.behind)
    | cons c more => exact rows_line steps positive is (ih is.behind)

end Reading

theorem enters_line {c : Char} {front : List Char} (unbroken : ∀ d ∈ c :: front, isBreak d = false)
    (there : cur.rest = spaces indent ++ (c :: front ++ rest)) (start : cur.column = 0) (left breaks : Nat) :
    ∃ next further, skipIndent indent (left + 1) cur breaks = (next,further) ∧ next.column = indent ∧ next.rest ≠ [] ∧
      (c ≠ ' ' → ∀ widest, skipLeading (left + 1) cur breaks widest = (next,further,max widest indent)) := by
  have solid : ∀ d, (c :: front ++ rest).head? = some d → isBreak d = false := fun d head =>
    Option.some.inj head ▸ unbroken c List.mem_cons_self
  refine ⟨_,_,skipIndent_content left breaks there start (Nat.le_refl _) (.inl rfl) solid,column_skip start _,?_,?_⟩
  · simp [Cursor.skip,there,spaces]
  · intro plain widest
    exact skipLeading_content left breaks widest there start (fun first => plain (Option.some.inj first)) solid

-- The first line with something in it sets the indentation, unless it starts
-- with a blank.
theorem enters_lines {more : List Char} (later : List (List Char)) (is : Rows folded (line :: later))
    (there : cur.rest = spaces indent ++ (line ++ below indent later more)) (start : cur.column = 0)
    (left breaks : Nat) (enters : cur.rest.length < left) :
    ∃ next further, skipIndent indent left cur breaks = (next,further) ∧ next.column = indent ∧ next.rest ≠ [] ∧
      (needsDigit (line :: later) = false →
        ∀ widest, skipLeading left cur breaks widest = (next,further,max widest indent)) := by
  induction later generalizing line cur left breaks with
  | nil =>
    obtain ⟨left,rfl⟩ : ∃ l, left = l + 1 := ⟨left - 1,by omega⟩
    obtain ⟨c,front,rfl⟩ := List.exists_cons_of_ne_nil (l := line) fun none => is.last (by rw [none]; rfl)
    obtain ⟨next,further,entered,column,filled,leads⟩ :=
      enters_line (is.unbroken _ List.mem_cons_self) there start left breaks
    exact ⟨next,further,entered,column,filled,fun plain => leads (by simpa [needsDigit] using plain)⟩
  | cons second later ih =>
    obtain ⟨left,rfl⟩ : ∃ l, left = l + 1 := ⟨left - 1,by omega⟩
    cases line with
    | nil =>
      have there : cur.rest = spaces indent ++ '\n' :: (spaces indent ++ (second ++ below indent later more)) := there
      have length := congrArg List.length there
      simp only [List.length_append,List.length_cons] at length
      obtain ⟨after,step,leading,place,fresh⟩ := empty_line left breaks there start
      obtain ⟨next,further,entered,column,filled,leads⟩ := ih is.behind place fresh left (breaks + 1)
        (by rw [place]; simp only [List.length_append]; omega)
      refine ⟨next,further,step.trans entered,column,filled,?_⟩
      intro plain widest
      rw [leading,leads (by simpa [needsDigit] using plain)]
      congr 2
      omega
    | cons c front =>
      obtain ⟨next,further,entered,column,filled,leads⟩ :=
        enters_line (is.unbroken _ List.mem_cons_self) there start left breaks
      exact ⟨next,further,entered,column,filled,fun plain => leads (by simpa [needsDigit] using plain)⟩

def marks : Chomping → List Char
  | .strip => ['-']
  | .clip => []
  | .keep => ['+']

theorem readHeader_written (digit : Bool) (chomping : Chomping)
    (there : cur.rest = (if digit then ['2'] else []) ++ (marks chomping ++ '\n' :: rest)) :
    ∃ after, readHeader cur = (⟨chomping,if digit then some 2 else none⟩,after) ∧ after.rest = '\n' :: rest := by
  cases digit <;> cases chomping <;>
    exact ⟨_,by simp [readHeader,Cursor.peek,Cursor.skip,there,chomping?,digit?,marks]; rfl,by simp [there,marks]⟩

theorem readContent_written (steps : Nat) (parent : Int) (digit : Bool) (start : Position) (broken : Bool)
    (later : List (List Char)) (is : Rows folded (line :: later)) (onward : Onward tail target rest)
    (ends : Ends chomping k n) (told : digit = needsDigit (line :: later)) (inside : indent = parent.toNat + 2)
    (out : target < indent)
    (there : cur.rest = spaces indent ++ (line ++ below indent (later ++ List.replicate k []) tail))
    (fresh : cur.column = 0) (every : cur.rest.length < steps) :
    ∃ r, readContent steps folded ⟨chomping,if digit then some 2 else none⟩ parent start broken cur = .ok r ∧
      r.text = joined (glue folded) (line :: later) ++ newlines n ∧ r.cur.rest = rest ∧
      (rest ≠ [] → (r.cur.column : Int) = target) ∧ r.pos.column = indent := by
  have positive : 0 < indent := by omega
  obtain ⟨next,further,entered,column,filled,leads⟩ :=
    enters_lines later is (below_append .. ▸ there) fresh steps 0 every
  have read := rows_read steps positive later is onward out ends cur steps steps 0 false false [] there fresh
    (fun _ => ⟨rfl,rfl⟩) every every every
  simp only [entered] at read
  obtain ⟨said,place,at_⟩ := read
  have more : next.atEnd = false := by simp [Cursor.atEnd,filled]
  have level : (decide (next.column < indent) && decide (parent < next.column)) = false := by simp [column]
  have begun : readContent steps folded ⟨chomping,if digit then some 2 else none⟩ parent start broken cur =
      .ok ⟨(scanLines steps folded indent steps ⟨next,[],false,further,false⟩).cur,next.pos,
        finish chomping indent (scanLines steps folded indent steps ⟨next,[],false,further,false⟩)⟩ := by
    cases digit with
    | false =>
      have same : max (max 0 indent) (max (parent + 1).toNat (if 0 < parent then 1 else 0)) = indent := by
        split <;> omega
      simp only [readContent,leads told.symm,same,more,level,if_neg Bool.false_ne_true]
    | true =>
      have same : (max parent 0).toNat + 2 = indent := by omega
      simp only [readContent,if_true,same,entered,more,level,if_neg Bool.false_ne_true]
  refine ⟨_,begun,?_,place,at_,column⟩
  rw [said]
  simp [lead,newlines]

theorem read_written (steps : Nat) (parent : Int) (digit : Bool) (c : Char) (later : List (List Char))
    (is : Rows folded (line :: later)) (onward : Onward tail target rest)
    (ends : Ends chomping k n) (told : digit = needsDigit (line :: later)) (inside : indent = parent.toNat + 2)
    (out : target < indent)
    (there : cur.rest = c :: ((if digit then ['2'] else []) ++
      (marks chomping ++ below indent (line :: (later ++ List.replicate k [])) tail)))
    (every : cur.rest.length < steps) :
    ∃ r, read steps folded parent cur = .ok r ∧
      r.text = joined (glue folded) (line :: later) ++ newlines n ∧ r.cur.rest = rest ∧
      (rest ≠ [] → (r.cur.column : Int) = target) ∧ r.pos.column = indent := by
  have first : (cur.skip 1).rest = (if digit then ['2'] else []) ++ (marks chomping ++
      '\n' :: (spaces indent ++ (line ++ below indent (later ++ List.replicate k []) tail))) := by
    simp [Cursor.skip,there,below]
  obtain ⟨after,header,place⟩ := readHeader_written digit chomping first
  obtain ⟨content,fresh⟩ := skipBreak_feed place
  have blanks : after.skipBlanks true = .ok ⟨after,false,false⟩ := by
    refine Cursor.skipBlanks_none true fun d head => ?_
    rw [place] at head
    obtain rfl := Option.some.inj head
    decide
  have lineEnd : after.atLineEnd = true := by simp [Cursor.atLineEnd,Cursor.peek,place,endsLine,isBreak]
  have untabbed : (after.skipBreak.peek == some '\t') = false := by
    rw [Cursor.peek,content,inside]
    rfl
  have zero : ((if digit then some 2 else none) == some 0) = false := by cases digit <;> rfl
  have length := congrArg List.length there
  have length' := congrArg List.length content
  simp only [below,List.length_append,List.length_cons] at length length'
  obtain ⟨r,read,said⟩ := readContent_written steps parent digit cur.pos after.atBreak later is onward ends told inside
    out content fresh (by omega)
  refine ⟨r,?_,said⟩
  rw [Block.read]
  simp only [header,zero,if_neg Bool.false_ne_true,blanks,lineEnd,Bool.not_true,untabbed,read]

end AutomationLint.Yaml.Block
