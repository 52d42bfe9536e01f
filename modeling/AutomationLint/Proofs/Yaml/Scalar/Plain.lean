import AutomationLint.Proofs.Yaml.Scan.Blanks
import AutomationLint.Yaml.Writer

namespace AutomationLint.Yaml.Plain
open Writer

section

structure Word (text : List Char) : Prop where
  filled : text ≠ []
  solid : ∀ c ∈ text, isBlank c = false ∧ isBreak c = false ∧ c ≠ '#'
  colon : text.getLast? ≠ some ':'

inductive Words : List Char → Prop where
  | last (word : List Char) (is : Word word) : Words word
  | more (word : List Char) (blanks : Nat) (later : List Char) (is : Word word) (rest : Words later) :
      Words (word ++ (spaces (blanks + 1) ++ later))

-- What ends a word: the end of the line, a blank, or a colon before one of
-- these.
def Stops (tail : List Char) : Prop := word false tail = []

variable {ctx : Context} {cur : Cursor} {text tail rest : List Char}

theorem word_stops (solid : ∀ c ∈ text, isBlank c = false ∧ isBreak c = false ∧ c ≠ '#')
    (colon : text.getLast? ≠ some ':') (stops : Stops tail) : word false (text ++ tail) = text := by
  induction text with
  | nil => exact stops
  | cons c text ih =>
    obtain ⟨blank,feed,_⟩ := solid c List.mem_cons_self
    have goesOn : plainGoesOn false (c :: (text ++ tail)) = true := by
      by_cases same : c = ':'
      · subst same
        cases text with
        | nil => exact absurd rfl colon
        | cons d text =>
          obtain ⟨dBlank,dFeed,_⟩ := solid d (List.mem_cons_of_mem _ List.mem_cons_self)
          simp [plainGoesOn,endsWord,dBlank,dFeed]
      · unfold plainGoesOn
        split
        · rfl
        · rename_i equal
          exact absurd (List.cons.inj equal).1 same
        · rfl
    have inner : text.getLast? ≠ some ':' := by
      cases text with
      | nil => exact nofun
      | cons d text => simpa using colon
    rw [List.cons_append,word,blank,feed,goesOn]
    simp only [Bool.or_self,Bool.not_true,if_neg Bool.false_ne_true]
    rw [ih (fun d member => solid d (List.mem_cons_of_mem _ member)) inner]

theorem stops_nil : Stops [] := rfl

theorem stops_break : Stops ('\n' :: rest) := rfl

theorem stops_blank : Stops (' ' :: rest) := rfl

theorem stops_colon (ends : endsWord rest.head? = true) : Stops (':' :: rest) := by
  simp [Stops,word,plainGoesOn,ends]

theorem gapReader : Scan.GapReader (skipGap ctx) where
  spent _ _ := rfl
  atEnd fuel cur gap none := by simp [skipGap,none]
  solid fuel cur gap c next blank feed := by simp [skipGap,next,blank,feed]

theorem skipGap_blanks (n fuel : Nat) (before : List Char) (enough : n ≤ fuel) (blanks : cur.rest = spaces n ++ rest)
    (halts : Halts rest) : skipGap ctx fuel cur (.blanks before) = .ok (cur.skip n,.blanks (spaces n ++ before)) :=
  gapReader.blanks (fun k => .blanks (spaces k ++ before)) (fun _ _ _ next => by rw [skipGap,next]; rfl) n fuel enough blanks
    halts

theorem skipGap_broken (n fuel : Nat) (further : Nat) (enough : n ≤ fuel) (blanks : cur.rest = spaces n ++ rest)
    (halts : Halts rest) : skipGap ctx fuel cur (.broken further) = .ok (cur.skip n,.broken further) :=
  gapReader.blanks (fun _ => .broken further) (fun _ _ _ next => by rw [skipGap,next]; rfl) n fuel enough blanks halts

theorem skipGap_line (column fuel : Nat) (enough : column < fuel) (line : cur.rest = '\n' :: (spaces column ++ rest))
    (halts : Halts rest) : skipGap ctx fuel cur (.blanks []) = .ok (cur.nextLine column rest,.broken 0) := by
  obtain ⟨left,rfl⟩ : ∃ left, fuel = left + 1 := ⟨fuel - 1,by omega⟩
  have next : cur.peek = some '\n' := by simp [Cursor.peek,line]
  have step : skipGap ctx (left + 1) cur (.blanks []) = skipGap ctx left cur.skipBreak (.broken 0) := by
    rw [skipGap,next]
    rfl
  have there : cur.skipBreak = ⟨spaces column ++ rest,⟨cur.pos.line + 1,0,cur.pos.offset + 1⟩⟩ := by
    simp only [Cursor.skipBreak,line]
  have blanks : cur.skipBreak.rest = spaces column ++ rest := by rw [there]
  rw [step,skipGap_broken column left 0 (by omega) blanks halts,there]
  simp [Cursor.skip,Cursor.nextLine,spaces]

theorem scan_word (fuel : Nat) (inBlock : ctx.inFlow = false) (is : Word text) (stops : Stops tail)
    (there : cur.rest = text ++ tail) (before acc : List Char) :
    scan ctx (fuel + 1) cur acc (.blanks before) =
      match skipGap ctx ctx.steps (cur.skip text.length) (.blanks []) with
      | .error f => .error f
      | .ok (after,gap) =>
        if after.pos == (cur.skip text.length).pos then .ok ⟨after,text.reverse ++ (before ++ acc),false,none⟩
        else if decide ((after.column : Int) < ctx.indent) then .ok ⟨after,text.reverse ++ (before ++ acc),gap.isBroken,none⟩
        else scan ctx fuel after (text.reverse ++ (before ++ acc)) gap := by
  have read : word false cur.rest = text := by rw [there,word_stops is.solid is.colon stops]
  have comment : (cur.peek == some '#') = false := by
    obtain ⟨c,more,rfl⟩ := List.exists_cons_of_ne_nil is.filled
    have other := (is.solid c List.mem_cons_self).2.2
    simp [Cursor.peek,there,other]
  have nonempty : text.isEmpty = false := by simp [is.filled]
  have unbroken : (Gap.blanks before).isBroken = false := rfl
  have kept : (Gap.blanks before).text.reverse = before := List.reverse_reverse before
  rw [scan]
  rcases beyond : skipGap ctx ctx.steps (cur.skip text.length) (.blanks []) with _ | ⟨after,gap⟩
  all_goals simp only [unbroken,Bool.false_and,if_neg Bool.false_ne_true,comment,inBlock,read,nonempty,kept,beyond,
    List.append_assoc,Bool.not_false,Bool.true_and]

theorem Words.filled (words : Words text) : text ≠ [] := by
  cases words with
  | last word is => exact is.filled
  | more word blanks later is rest => exact fun none => is.filled (List.append_eq_nil_iff.mp none).1

theorem Words.halts (words : Words text) : Halts (text ++ tail) := by
  have first : ∀ {word more : List Char}, Word word → Halts (word ++ more) := by
    intro word more is c there
    obtain ⟨d,rest,rfl⟩ := List.exists_cons_of_ne_nil is.filled
    obtain rfl := Option.some.inj there
    exact ⟨(is.solid d List.mem_cons_self).1,(is.solid d List.mem_cons_self).2.1⟩
  cases words with
  | last word is => exact first is
  | more word blanks later is rest =>
    rw [List.append_assoc]
    exact first is

-- The last word ends the scalar: what follows is right behind it, or stands
-- too far to the left.
theorem scan_last (fuel : Nat) (inBlock : ctx.inFlow = false) (is : Word text) (stops : Stops tail)
    (there : cur.rest = text ++ tail) (deep : ctx.indent ≤ cur.column + 1) (after : Cursor) (gap : Gap)
    (beyond : skipGap ctx ctx.steps (cur.skip text.length) (.blanks []) = .ok (after,gap))
    (ends : (after.pos = (cur.skip text.length).pos ∧ gap = .blanks []) ∨ (after.column : Int) < ctx.indent)
    (before acc : List Char) :
    scan ctx (fuel + 1) cur acc (.blanks before) = .ok ⟨after,text.reverse ++ (before ++ acc),gap.isBroken,none⟩ := by
  have positive := List.length_pos_iff.mpr is.filled
  rw [scan_word fuel inBlock is stops there before acc,beyond]
  cases ends with
  | inl still => simp [still.1,still.2,Gap.isBroken]
  | inr left =>
    have moved : (after.pos == (cur.skip text.length).pos) = false := by
      refine beq_eq_false_iff_ne.mpr ?_
      intro same
      have column := congrArg Position.column same
      simp only [Cursor.column,Cursor.skip] at deep left column
      omega
    simp only [moved,if_neg Bool.false_ne_true,if_pos (decide_eq_true left)]

theorem scan_further (fuel n : Nat) (inBlock : ctx.inFlow = false) (is : Word text)
    (there : cur.rest = text ++ (spaces (n + 1) ++ rest)) (halts : Halts rest) (deep : ctx.indent ≤ cur.column + 1)
    (steps : cur.rest.length < ctx.steps) (before acc : List Char) :
    scan ctx (fuel + 1) cur acc (.blanks before) =
      scan ctx fuel (cur.skip (text.length + (n + 1))) (text.reverse ++ (before ++ acc)) (.blanks (spaces (n + 1))) := by
  have length := congrArg List.length there
  simp only [List.length_append,Scan.spaces_length] at length
  rw [scan_word fuel inBlock is stops_blank there before acc,
    skipGap_blanks (n + 1) ctx.steps [] (by omega) (Cursor.rest_skip there) halts,Cursor.skip_skip,List.append_nil]
  have moved : ((cur.skip (text.length + (n + 1))).pos == (cur.skip text.length).pos) = false := by
    refine beq_eq_false_iff_ne.mpr ?_
    intro same
    have column := congrArg Position.column same
    simp only [Cursor.skip] at column
    omega
  have inside : ¬((cur.skip (text.length + (n + 1))).column : Int) < ctx.indent := by
    simp only [Cursor.column,Cursor.skip] at deep ⊢
    omega
  simp only [moved,if_neg Bool.false_ne_true,decide_eq_false inside]

theorem scan_words (fuel : Nat) (inBlock : ctx.inFlow = false) (words : Words text) (stops : Stops tail)
    (there : cur.rest = text ++ tail) (deep : ctx.indent ≤ cur.column + 1) (steps : cur.rest.length < ctx.steps)
    (enough : text.length ≤ fuel) (after : Cursor) (gap : Gap)
    (beyond : skipGap ctx ctx.steps (cur.skip text.length) (.blanks []) = .ok (after,gap))
    (ends : (after.pos = (cur.skip text.length).pos ∧ gap = .blanks []) ∨ (after.column : Int) < ctx.indent)
    (before acc : List Char) :
    scan ctx fuel cur acc (.blanks before) = .ok ⟨after,text.reverse ++ (before ++ acc),gap.isBroken,none⟩ := by
  induction words generalizing fuel cur before acc with
  | last word is =>
    have positive := List.length_pos_iff.mpr is.filled
    obtain ⟨left,rfl⟩ : ∃ left, fuel = left + 1 := ⟨fuel - 1,by omega⟩
    exact scan_last left inBlock is stops there deep after gap beyond ends before acc
  | more word blanks later is rest ih =>
    have positive := List.length_pos_iff.mpr is.filled
    obtain ⟨left,rfl⟩ : ∃ left, fuel = left + 1 := ⟨fuel - 1,by simp at enough; omega⟩
    have follows : cur.rest = word ++ (spaces (blanks + 1) ++ (later ++ tail)) := by rw [there]; simp
    have again : (cur.skip (word.length + (blanks + 1))).rest = later ++ tail := by
      rw [←Cursor.skip_skip]
      exact Scan.rest_spaces (Cursor.rest_skip follows)
    have onward : (cur.skip (word.length + (blanks + 1))).skip later.length =
        cur.skip (word ++ (spaces (blanks + 1) ++ later)).length := by
      rw [Cursor.skip_skip,List.length_append,List.length_append,Scan.spaces_length,Nat.add_assoc]
    simp only [List.length_append,Scan.spaces_length] at enough
    rw [scan_further left blanks inBlock is follows rest.halts deep steps before acc,
      ih left again ?_ ?_ (by omega) (onward ▸ beyond) (onward ▸ ends)]
    · simp [spaces]
    · simp only [Cursor.column,Cursor.skip] at deep ⊢
      omega
    · simp only [Cursor.skip,List.length_drop]
      omega

end

section

-- One line that starts and ends with a word, and in which nothing ends a
-- scalar.
structure Even (text : List Char) : Prop where
  filled : text ≠ []
  first : text.head? ≠ some ' '
  last : text.getLast? ≠ some ' '
  colon : text.getLast? ≠ some ':'
  colons : hasColonBlank text = false
  solid : ∀ c ∈ text, c ≠ '#' ∧ isControl c = false

variable {text front rest : List Char}

theorem hasColonBlank_suffix (front : List Char) (inside : hasColonBlank rest = true) :
    hasColonBlank (front ++ rest) = true := by
  induction front with
  | nil => exact inside
  | cons c front ih =>
    rw [List.cons_append]
    unfold hasColonBlank
    split
    · exact absurd ‹_› (List.cons_ne_nil _ _)
    · rfl
    · rename_i same
      rw [←(List.cons.inj same).2]
      exact ih

theorem Even.front_solid (even : Even (front ++ rest)) (solid : ' ' ∉ front) :
    ∀ c ∈ front, isBlank c = false ∧ isBreak c = false ∧ c ≠ '#' := by
  intro c inside
  obtain ⟨comment,visible⟩ := even.solid c (List.mem_append_left _ inside)
  have blank : c ≠ ' ' := fun same => solid (same ▸ inside)
  exact ⟨visible_blank visible blank,visible_break visible,comment⟩

theorem Even.front_colon {n : Nat} (even : Even (front ++ (spaces (n + 1) ++ rest))) : front.getLast? ≠ some ':' := by
  intro same
  obtain ⟨start,rfl⟩ := List.getLast?_eq_some_iff.mp same
  have blank : hasColonBlank (':' :: ' ' :: (spaces n ++ rest)) = true := rfl
  have found := hasColonBlank_suffix start blank
  have written : start ++ [':'] ++ (spaces (n + 1) ++ rest) = start ++ ':' :: ' ' :: (spaces n ++ rest) := by
    simp [spaces,List.replicate_succ]
  rw [←written,even.colons] at found
  exact absurd found (by decide)

theorem Even.behind (even : Even (front ++ rest)) (filled : rest ≠ []) (first : rest.head? ≠ some ' ') : Even rest := by
  have last : (front ++ rest).getLast? = rest.getLast? := by
    rw [List.getLast?_append,List.getLast?_eq_some_getLast filled]
    rfl
  refine ⟨filled,first,last ▸ even.last,last ▸ even.colon,?_,fun c inside => even.solid c (List.mem_append_right _ inside)⟩
  cases found : hasColonBlank rest with
  | false => rfl
  | true => exact absurd (hasColonBlank_suffix front found) (by rw [even.colons]; decide)

theorem Even.words (even : Even text) : Words text := by
  generalize size : text.length = n
  induction n using Nat.strongRecOn generalizing text with
  | ind n ih =>
    obtain ⟨front,blanks,later,rfl,solid,ends,whole⟩ := Scan.first_blanks text
    have member := even.front_solid solid
    cases blanks with
    | zero =>
      obtain rfl := whole rfl
      have same : front ++ (spaces 0 ++ []) = front := List.append_nil front
      rw [same] at even ⊢
      exact .last front ⟨even.filled,member,even.colon⟩
    | succ blanks =>
      have filled : front ≠ [] := by
        rintro rfl
        exact even.first rfl
      have some : later ≠ [] := by
        rintro rfl
        refine even.last ?_
        rw [List.append_nil,spaces,List.replicate_succ',←List.append_assoc]
        simp
      have split : Even ((front ++ spaces (blanks + 1)) ++ later) := by rwa [List.append_assoc]
      have inner := split.behind some ends
      refine .more front blanks later ⟨filled,member,even.front_colon⟩ (ih later.length ?_ inner rfl)
      rw [←size]
      simp only [List.length_append,Scan.spaces_length]
      omega

theorem hasColonBlank_free (free : ':' ∉ text) : hasColonBlank text = false := by
  induction text with
  | nil => rfl
  | cons c text ih =>
    have other : c ≠ ':' := (List.ne_of_not_mem_cons free).symm
    unfold hasColonBlank
    split
    · rfl
    · rename_i same
      exact absurd (List.cons.inj same).1 other
    · rename_i same
      rw [←(List.cons.inj same).2]
      exact ih (List.not_mem_of_not_mem_cons free)

theorem head?_of_start (start : badStart text = false) : text.head? ≠ some ' ' := by
  intro blank
  obtain ⟨rest,rfl⟩ := List.head?_eq_some_iff.mp blank
  exact absurd start (by simp [badStart,isAsciiSpace])

theorem safe_solid (safe : isUnsafe text = false) : ∀ c ∈ text, c ≠ '#' ∧ isControl c = false := by
  simp only [isUnsafe,Bool.or_eq_false_iff] at safe
  intro c member
  have := List.any_eq_false.mp safe.2 c member
  simpa using this

theorem key_solid (plain : isPlainKey text = true) : ∀ c ∈ text, c ≠ ':' ∧ c ≠ '#' ∧ isControl c = false := by
  simp only [isPlainKey,Bool.not_eq_true',Bool.or_eq_false_iff] at plain
  intro c member
  have := List.any_eq_false.mp plain.2 c member
  simp only [Bool.or_eq_true,beq_iff_eq,not_or,Bool.not_eq_true] at this
  exact ⟨this.1.1.1,this.1.1.2,this.2⟩

theorem even_safe (safe : isUnsafe text = false) (last : text.getLast? ≠ some ' ') :
    Even text ∧ badStart text = false := by
  have solid := safe_solid safe
  simp only [isUnsafe,Bool.or_eq_false_iff] at safe
  obtain ⟨⟨⟨⟨reads,start⟩,colons⟩,ends⟩,_⟩ := safe
  refine ⟨⟨?_,head?_of_start start,last,?_,colons,solid⟩,start⟩
  · rintro rfl
    exact absurd reads (by decide)
  · intro colon
    obtain ⟨front,rfl⟩ := List.getLast?_eq_some_iff.mp colon
    have white : Text.isWhite ':' = false := by decide
    simp [endsInColon,Text.trimEnd,white] at ends

theorem even_key (plain : isPlainKey text = true) (last : text.getLast? ≠ some ' ') :
    Even text ∧ badStart text = false := by
  have solid := key_solid plain
  simp only [isPlainKey,Bool.not_eq_true',Bool.or_eq_false_iff] at plain
  obtain ⟨⟨reads,start⟩,_⟩ := plain
  have free : ':' ∉ text := fun member => (solid ':' member).1 rfl
  refine ⟨⟨?_,head?_of_start start,last,?_,hasColonBlank_free free,fun c member => (solid c member).2⟩,start⟩
  · rintro rfl
    exact absurd reads (by decide)
  · exact fun colon => free (List.mem_of_getLast? colon)

def isNumeral (c : Char) : Bool := c.isDigit || c == '.' || c == 'e' || c == '+' || c == '-'

theorem digit_bounds {c : Char} (digit : c.isDigit = true) : 48 ≤ c.toNat ∧ c.toNat ≤ 57 := by
  simp only [Char.isDigit,Bool.and_eq_true,decide_eq_true_eq] at digit
  exact ⟨UInt32.le_iff_toNat_le.mp digit.1,UInt32.le_iff_toNat_le.mp digit.2⟩

theorem numeral_solid {c : Char} (numeral : isNumeral c = true) :
    c ≠ ' ' ∧ c ≠ ':' ∧ c ≠ '#' ∧ isControl c = false := by
  have digit : ∀ d : Char, isNumeral d = false → c ≠ d := by
    rintro _ other rfl
    exact absurd numeral (by rw [other]; decide)
  refine ⟨digit ' ' (by decide),digit ':' (by decide),digit '#' (by decide),?_⟩
  simp only [isNumeral,Bool.or_eq_true,beq_iff_eq] at numeral
  rcases numeral with (((figure | rfl) | rfl) | rfl) | rfl
  · obtain ⟨least,most⟩ := digit_bounds figure
    simp only [isControl,Bool.or_eq_false_iff,Bool.and_eq_false_iff,decide_eq_false_iff_not]
    omega
  all_goals decide

theorem even_solid (filled : text ≠ [])
    (solid : ∀ c ∈ text, c ≠ ' ' ∧ c ≠ ':' ∧ c ≠ '#' ∧ isControl c = false) : Even text := by
  have free : ':' ∉ text := fun member => (solid ':' member).2.1 rfl
  have blank : ' ' ∉ text := fun member => (solid ' ' member).1 rfl
  refine ⟨filled,?_,?_,?_,hasColonBlank_free free,fun c member => (solid c member).2.2⟩
  · exact fun first => blank (List.mem_of_mem_head? first)
  · exact fun last => blank (List.mem_of_getLast? last)
  · exact fun last => free (List.mem_of_getLast? last)

end

end AutomationLint.Yaml.Plain
