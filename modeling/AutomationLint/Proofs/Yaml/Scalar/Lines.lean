import AutomationLint.Proofs.Text
import AutomationLint.Proofs.Yaml.Legible
import AutomationLint.Proofs.Yaml.Scalar.Block
import AutomationLint.Proofs.Yaml.Scalar.Plain

namespace AutomationLint.Yaml.Block
open Writer

variable {text more : List Char} {lines : List (List Char)} {indent : Nat}

theorem splitEnd_text (text : List Char) : text = (splitEnd text).1 ++ newlines (splitEnd text).2 := by
  have feeds : ∀ c ∈ text.reverse.takeWhile (· == '\n'), c = '\n' := fun c member => by
    simpa using List.all_eq_true.mp List.all_takeWhile c member
  have whole := congrArg List.reverse (List.takeWhile_append_dropWhile (p := (· == '\n')) (l := text.reverse))
  rw [List.reverse_append,List.reverse_reverse,List.eq_replicate_of_mem feeds,List.reverse_replicate] at whole
  exact whole.symm

theorem splitEnd_last (text : List Char) : (splitEnd text).1.getLast? ≠ some '\n' := by
  rw [splitEnd,List.getLast?_reverse]
  intro feed
  have := List.head?_dropWhile_not (· == '\n') text.reverse
  rw [feed] at this
  exact absurd this (by decide)

theorem joined_feeds (lines : List (List Char)) : joined '\n' lines = Text.joinLines lines := by
  induction lines with
  | nil => rfl
  | cons line later ih =>
    cases later with
    | nil => rfl
    | cons next later =>
      rw [joined_cons _ _ _ (List.cons_ne_nil _ _),ih]
      rfl

theorem joined_splitFeeds (text : List Char) : joined '\n' (Text.splitFeeds text) = text := by
  obtain ⟨front,last,free,open_,rfl⟩ := Text.parts text
  rw [Text.splitFeeds_parts front last free open_,joined_feeds,Text.join_parts]

theorem mem_joined {line : List Char} {c : Char} (glue : Char) (member : line ∈ lines) (inner : c ∈ line) :
    c ∈ joined glue lines := by
  induction lines with
  | nil => exact nomatch member
  | cons first later ih =>
    cases later with
    | nil => exact List.mem_singleton.mp member ▸ inner
    | cons next later =>
      rw [joined_cons _ _ _ (List.cons_ne_nil _ _)]
      rcases List.mem_cons.mp member with rfl | rest
      · exact List.mem_append_left _ inner
      · exact List.mem_append_right _ (List.mem_cons_of_mem _ (ih rest))

theorem splitFeeds_line {line : List Char} (member : line ∈ Text.splitFeeds text) :
    '\n' ∉ line ∧ ∀ c ∈ line, c ∈ text := by
  refine ⟨?_,fun c inner => joined_splitFeeds text ▸ mem_joined '\n' member inner⟩
  obtain ⟨front,last,free,open_,rfl⟩ := Text.parts text
  rw [Text.splitFeeds_parts front last free open_] at member
  exact (List.mem_append.mp member).elim (free line) fun same => List.mem_singleton.mp same ▸ open_

theorem splitFeeds_rows (carriage : '\r' ∉ text) (filled : text ≠ []) (last : text.getLast? ≠ some '\n') :
    Rows false (Text.splitFeeds text) := by
  refine ⟨?_,?_,nofun⟩
  · intro line member c inner
    obtain ⟨free,within⟩ := splitFeeds_line member
    have feed : c ≠ '\n' := fun same => free (same ▸ inner)
    have other : c ≠ '\r' := fun same => carriage (same ▸ within c inner)
    simp [isBreak,other,feed]
  · obtain ⟨front,open_,free,whole,rfl⟩ := Text.parts text
    rw [Text.splitFeeds_parts front open_ free whole]
    intro none
    obtain rfl : open_ = [] := by simpa using none
    cases front with
    | nil => exact filled rfl
    | cons line front =>
      rw [List.append_nil] at last
      exact last (Text.getLast?_ended _ (List.cons_ne_nil _ _))

theorem below_ended (indent : Nat) (lines : List (List Char)) (more : List Char) :
    '\n' :: ((lines.flatMap fun line => spaces indent ++ line ++ ['\n']) ++ more) = below indent lines ('\n' :: more) := by
  induction lines with
  | nil => rfl
  | cons line later ih => simp [below,←ih]

theorem below_filled (indent : Nat) (lines : List (List Char)) {tail : List Char} (filled : tail ≠ []) :
    below indent lines tail ≠ [] := by
  cases lines with
  | nil => exact filled
  | cons => exact List.cons_ne_nil _ _

theorem below_dropLast (indent : Nat) (lines : List (List Char)) (tail : List Char) (filled : tail ≠ []) :
    (below indent lines tail).dropLast = below indent lines tail.dropLast := by
  induction lines with
  | nil => rfl
  | cons line later ih =>
    rw [below,←List.cons_append,←List.append_assoc,List.dropLast_append_of_ne_nil (below_filled _ _ filled),ih]
    simp [below]

def blockForm (header : List Char) (indent : Nat) (lines : List (List Char)) : List Char :=
  header ++ '\n' :: lines.flatMap fun line => spaces indent ++ line ++ ['\n']

theorem blockForm_dropLast (header : List Char) (indent : Nat) (lines : List (List Char)) (more : List Char) :
    (blockForm header indent lines ++ more).dropLast = header ++ below indent lines ('\n' :: more).dropLast := by
  rw [blockForm,List.append_assoc,List.cons_append,below_ended,
    List.dropLast_append_of_ne_nil (below_filled _ _ (List.cons_ne_nil _ _)),below_dropLast _ _ _ (List.cons_ne_nil _ _)]

theorem ends_written (n : Nat) : ∃ chomping, Ends chomping (n - 1) n ∧
    (if n = 0 then ['-'] else if n = 1 then [] else ['+']) = marks chomping := by
  match n with
  | 0 => exact ⟨.strip,.none,rfl⟩
  | 1 => exact ⟨.clip,.one,rfl⟩
  | n + 2 => exact ⟨.keep,.more n,rfl⟩

theorem stringLines_literal {text : List Char} {indent : Nat} (literal : isLiteral text indent = true) :
    literal? text indent = some (stringLines text indent) := by
  simp only [isLiteral,Bool.and_eq_true] at literal
  obtain ⟨⟨feeds,long⟩,is⟩ := literal
  obtain ⟨lines,written⟩ := Option.isSome_iff_exists.mp is
  unfold stringLines
  dsimp only
  rw [if_pos feeds,if_pos long,written]
  rfl

theorem literal_form (text : List Char) (indent : Nat) (literal : isLiteral text indent = true)
    (legible : LegibleLiteral text indent) (deep : 2 ≤ indent) :
    ∃ chomping k line later, Ends chomping k (splitEnd text).2 ∧ Text.splitFeeds (splitEnd text).1 = line :: later ∧
      stringLines text indent = blockForm ('|' :: ((if needsDigit (line :: later) then ['2'] else []) ++ marks chomping))
        indent (line :: (later ++ List.replicate k [])) := by
  have written := stringLines_literal literal
  obtain ⟨chomping,ends,told⟩ := ends_written (splitEnd text).2
  obtain ⟨line,later,split⟩ : ∃ line later, Text.splitFeeds (splitEnd text).1 = line :: later := by
    obtain ⟨front,last,free,open_,same⟩ := Text.parts (splitEnd text).1
    rw [same,Text.splitFeeds_parts front last free open_]
    exact List.exists_cons_of_ne_nil (by simp)
  have digit : (if needsDigit (line :: later) then Nat.toDigits 10 indent else []) =
      if needsDigit (line :: later) then ['2'] else [] := by
    split
    · rename_i needs
      have two : indent = 2 := Nat.le_antisymm (legible.shallow (split ▸ needs)) deep
      rw [two]
      rfl
    · rfl
  refine ⟨chomping,_,line,later,ends,split,?_⟩
  unfold literal? at written
  simp only [split,digit,told] at written
  rw [if_neg (by split <;> decide)] at written
  rw [←Option.some.inj written]
  simp [blockForm]

def took (c : Char) (f : Fill) : Fill :=
  let f := if c != ' ' && f.newestFirst.head? == some ' ' then
    {f with broken := some (f.newestFirst.drop 1), fresh := 0} else f
  {f with newestFirst := c :: f.newestFirst, count := f.count + 1, fresh := f.fresh + 1}

-- A line that could be broken was left at a blank, and what came after it
-- starts a word.
def Breakable (f : Fill) : Prop := ∀ line, f.broken = some line →
  ∃ word c, f.newestFirst = word ++ c :: ' ' :: line ∧ f.fresh = (word ++ [c]).length ∧ c ≠ ' '

@[simp] theorem took_newest (c : Char) (f : Fill) : (took c f).newestFirst = c :: f.newestFirst := by
  unfold took
  split <;> rfl

theorem took_breakable (c : Char) {f : Fill} (breakable : Breakable f) : Breakable (took c f) := by
  unfold took
  split
  · rename_i starts
    intro line same
    simp only [Bool.and_eq_true,bne_iff_ne,beq_iff_eq] at starts
    obtain ⟨older,blank⟩ := List.head?_eq_some_iff.mp starts.2
    obtain rfl := Option.some.inj same
    exact ⟨[],c,by simp [blank],rfl,starts.1⟩
  · intro line same
    obtain ⟨word,d,whole,fresh,starts⟩ := breakable line same
    exact ⟨c :: word,d,congrArg (c :: ·) whole,congrArg (· + 1) fresh,starts⟩

theorem fold_cons (c : Char) (rest : List Char) (f : Fill) : fold (c :: rest) f =
    if width < (took c f).count then
      match (took c f).broken with
      | some line => line.reverse :: fold rest ⟨(took c f).newestFirst.take (took c f).fresh,0,(took c f).fresh,none⟩
      | none => [(took c f).newestFirst.reverse ++ rest]
    else fold rest (took c f) := rfl

def Visible (line : List Char) : Prop := ∃ c more, line = c :: more ∧ c ≠ ' '

-- Blanks are lost only where a line was broken, and there stands one between
-- the joined lines.
theorem fold_lines (rest : List Char) (f : Fill) (breakable : Breakable f)
    (starts : Visible (f.newestFirst.reverse ++ rest)) :
    fold rest f ≠ [] ∧ joined ' ' (fold rest f) = f.newestFirst.reverse ++ rest ∧ ∀ line ∈ fold rest f, Visible line := by
  induction rest generalizing f with
  | nil =>
    rw [fold,List.append_nil] at *
    exact ⟨List.cons_ne_nil _ _,rfl,fun line member => List.mem_singleton.mp member ▸ starts⟩
  | cons c rest ih =>
    have newest := took_newest c f
    have next := took_breakable c breakable
    have same : f.newestFirst.reverse ++ c :: rest = (took c f).newestFirst.reverse ++ rest := by
      rw [newest,List.reverse_cons,List.append_assoc]
      rfl
    rw [same] at starts ⊢
    rw [fold_cons]
    split
    · cases broken : (took c f).broken with
      | none => exact ⟨List.cons_ne_nil _ _,rfl,fun line member => List.mem_singleton.mp member ▸ starts⟩
      | some line =>
        obtain ⟨word,d,whole,fresh,solid⟩ := next line broken
        have kept : (took c f).newestFirst.take (took c f).fresh = word ++ [d] := by
          have ended : word ++ d :: ' ' :: line = word ++ [d] ++ ' ' :: line := by simp
          rw [whole,fresh,ended]
          exact List.take_left' rfl
        rw [kept]
        obtain ⟨some,joins,seen⟩ := ih ⟨word ++ [d],0,(took c f).fresh,none⟩ nofun ⟨d,word.reverse ++ rest,by simp,solid⟩
        refine ⟨List.cons_ne_nil _ _,?_,?_⟩
        · rw [joined_cons _ _ _ some,joins,whole]
          simp
        · intro each member
          rcases List.mem_cons.mp member with rfl | later
          · obtain ⟨e,more,first,visible⟩ := starts
            rw [whole] at first
            cases reversed : line.reverse with
            | nil =>
              refine absurd ?_ visible
              simpa [reversed] using (congrArg List.head? first).symm
            | cons x xs =>
              refine ⟨x,xs,rfl,?_⟩
              have : x = e := by simpa [reversed] using congrArg List.head? first
              exact this ▸ visible
          · exact seen each later
    · exact ih _ next starts

theorem folded_rows (text : List Char) (is : isFolded text = true) :
    ∃ line later, fold text ⟨[],0,0,none⟩ = line :: later ∧ joined ' ' (line :: later) = text ∧
      Rows true (line :: later) ∧ needsDigit (line :: later) = false := by
  simp only [isFolded,Bool.and_eq_true,Bool.not_eq_true',decide_eq_true_eq] at is
  obtain ⟨⟨_,safe⟩,long⟩ := is
  have each : ∀ c ∈ text, isControl c = false := fun c member => (Plain.safe_solid safe c member).2
  have start : badStart text = false := by
    simp only [isUnsafe,Bool.or_eq_false_iff] at safe
    exact safe.1.1.1.2
  have starts : Visible text := by
    obtain ⟨c,more,rfl⟩ := List.exists_cons_of_ne_nil (l := text) (by rintro rfl; exact absurd long (by decide))
    exact ⟨c,more,rfl,fun blank => Plain.head?_of_start start (congrArg some blank)⟩
  obtain ⟨some,joins,seen⟩ := fold_lines text ⟨[],0,0,none⟩ (fun _ found => absurd found (Option.some_ne_none _).symm) starts
  have joins : joined ' ' (fold text ⟨[],0,0,none⟩) = text := joins
  have controlled : ∀ line ∈ fold text ⟨[],0,0,none⟩, ∀ c ∈ line, isControl c = false := fun line member c inner =>
    each c (joins ▸ mem_joined ' ' member inner)
  obtain ⟨line,later,whole⟩ := List.exists_cons_of_ne_nil some
  rw [whole] at joins seen controlled
  refine ⟨line,later,whole,joins,⟨?_,?_,?_⟩,?_⟩
  · exact fun line member c inner => visible_break (controlled line member c inner)
  · intro none
    obtain ⟨c,more,same,_⟩ := seen [] (List.mem_of_getLast? none)
    exact absurd same (List.cons_ne_nil _ _).symm
  · intro _ line member
    obtain ⟨c,more,rfl,blank⟩ := seen line member
    exact ⟨c,more,rfl,visible_blank (controlled _ member c List.mem_cons_self) blank⟩
  · obtain ⟨c,more,rfl,blank⟩ := seen line List.mem_cons_self
    simpa [needsDigit] using blank

theorem folded_form (text : List Char) (indent : Nat) (is : isFolded text = true) :
    stringLines text indent = blockForm ['>','-'] indent (fold text ⟨[],0,0,none⟩) := by
  simp only [isFolded,Bool.and_eq_true,Bool.not_eq_true',decide_eq_true_eq] at is
  unfold stringLines
  dsimp only
  rw [is.1.1,is.1.2,if_neg Bool.false_ne_true,if_pos (by simpa using is.2)]
  rfl

end AutomationLint.Yaml.Block
