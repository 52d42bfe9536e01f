import AutomationLint.Proofs.Yaml.Scan.Blanks
import AutomationLint.Yaml.Writer

namespace AutomationLint.Yaml.Quoted
open Writer

theorem hexValue?_append (k more value : Nat) (digits rest : List Char) (length : digits.length = k) (start : Nat)
    (read : hexValue? k start (digits ++ rest) = some value) :
    hexValue? (k + more) start (digits ++ rest) = hexValue? more value rest := by
  induction digits generalizing k start with
  | nil =>
    subst length
    obtain rfl := Option.some.inj read
    simp
  | cons c digits ih =>
    subst length
    rw [List.length_cons,List.cons_append] at read
    rw [List.length_cons,List.cons_append,Nat.add_right_comm]
    cases digit : Text.hexValue? c with
    | none => simp [hexValue?,digit] at read
    | some d =>
      simp only [hexValue?,digit] at read ⊢
      exact ih digits.length rfl _ read

theorem hexValue?_digits (width n : Nat) (rest : List Char) :
    hexValue? width 0 (Text.upperHexDigits width n ++ rest) = some (n % Nat.pow 16 width) := by
  induction width generalizing n rest with
  | zero => simp [hexValue?,Nat.mod_one]
  | succ width ih =>
    have front := ih (n / 16) ([Text.upperHex (n % 16)] ++ rest)
    rw [Text.upperHexDigits,List.append_assoc,
      hexValue?_append width 1 _ _ _ (Text.upperHexDigits_length width _) 0 front]
    have last := Text.hexValue?_upperHex (n % 16) (Nat.mod_lt _ (by decide))
    simp only [List.singleton_append,hexValue?,last]
    show some (n / 16 % Nat.pow 16 width * 16 + n % 16) = some (n % (Nat.pow 16 width * 16))
    rw [Nat.mul_comm (Nat.pow 16 width) 16,Nat.mod_mul,Nat.mul_comm 16,Nat.add_comm]

def mark (single : Bool) : Char := if single then '\'' else '"'

inductive Faithful (single : Bool) (escape : Char → List Char) (c : Char) : Prop where
  | plain (same : escape c = [c]) (tab : c ≠ '\t') (feed : isBreak c = false) (closing : c ≠ mark single)
      (backslash : single = false → c ≠ '\\')
  | escaped (double : single = false) (name : List Char) (written : escape c = '\\' :: name)
      (joined : (name.head?.map isBreak).getD false = false)
      (read : ∀ start rest, readEscape start (name ++ rest) = .ok (c,name.length))

theorem readEscape_short {name c : Char} (known : escape? name = some c) (start : Position) (rest : List Char) :
    readEscape start ([name] ++ rest) = .ok (c,1) := by
  simp only [List.singleton_append,readEscape,known]

theorem readEscape_hex {name : Char} {width : Nat} (unknown : escape? name = none) (hex : hexLength? name = some width)
    (c : Char) (fits : c.toNat < Nat.pow 16 width) (start : Position) (rest : List Char) :
    readEscape start (name :: Text.upperHexDigits width c.toNat ++ rest) = .ok (c,width + 1) := by
  have digits := hexValue?_digits width c.toNat rest
  rw [Nat.mod_eq_of_lt fits] at digits
  simp only [List.cons_append,readEscape,unknown,hex,digits,Text.char?_toNat]

theorem control_small {c : Char} (control : isControl c = true) : c.toNat < 256 := by
  simp only [isControl,Bool.or_eq_true,Bool.and_eq_true,decide_eq_true_eq] at control
  omega

-- The three ways in which a character is written in quotes. Whatever the
-- character is, its escape is read as it, so nothing is asked of the string.
inductive Written (c : Char) : List Char → Prop where
  | itself (visible : isControl c = false) (closing : c ≠ '"') (backslash : c ≠ '\\') : Written c [c]
  | short (name : Char) (known : escape? name = some c) (solid : isControl name = false) : Written c ['\\',name]
  | hex (name : Char) (width : Nat) (unknown : escape? name = none) (hex : hexLength? name = some width)
      (fits : c.toNat < Nat.pow 16 width) (solid : isControl name = false) :
      Written c ('\\' :: name :: Text.upperHexDigits width c.toNat)

theorem upperHexDigits_visible (width n : Nat) : ∀ c ∈ Text.upperHexDigits width n, isControl c = false := by
  have digit : ∀ d < 16, isControl (Text.upperHex d) = false := by decide
  induction width generalizing n with
  | zero => exact nofun
  | succ width ih =>
    intro c member
    rcases List.mem_append.mp member with front | last
    · exact ih _ c front
    · rw [List.mem_singleton.mp last]
      exact digit _ (Nat.mod_lt _ (by decide))

theorem Written.visible {c : Char} {text : List Char} (written : Written c text) : ∀ d ∈ text, isControl d = false := by
  cases written with
  | itself visible => exact fun d member => List.mem_singleton.mp member ▸ visible
  | short name _ solid => exact List.forall_mem_cons.mpr ⟨by decide,fun d member => List.mem_singleton.mp member ▸ solid⟩
  | hex name width _ _ _ solid =>
    exact List.forall_mem_cons.mpr ⟨by decide,List.forall_mem_cons.mpr ⟨solid,upperHexDigits_visible width c.toNat⟩⟩

theorem faithful_written {escape : Char → List Char} {c : Char} (written : Written c (escape c)) :
    Faithful false escape c := by
  generalize form : escape c = text at written
  cases written with
  | itself visible closing backslash =>
    exact .plain form (visible_ne visible '\t' (by decide)) (visible_break visible) closing fun _ => backslash
  | short name known solid =>
    exact .escaped rfl [name] form (by simpa using visible_break solid) (readEscape_short known)
  | hex name width unknown hex fits solid =>
    refine .escaped rfl _ form (by simpa using visible_break solid) ?_
    intro start rest
    rw [List.length_cons,Text.upperHexDigits_length]
    exact readEscape_hex unknown hex c fits start rest

theorem written_control {c name : Char} {width : Nat} (unknown : escape? name = none)
    (hex : hexLength? name = some width) (wide : 2 ≤ width) (solid : isControl name = false) (closing : c ≠ '"')
    (backslash : c ≠ '\\') :
    Written c (if isControl c then '\\' :: name :: Text.upperHexDigits width c.toNat else [c]) := by
  split
  · rename_i control
    refine .hex name width unknown hex ?_ solid
    calc c.toNat < Nat.pow 16 2 := control_small control
      _ ≤ Nat.pow 16 width := Nat.pow_le_pow_right (by decide) wide
  · rename_i visible
    exact .itself (by simpa using visible) closing backslash

theorem written_value (c : Char) : Written c (escapeValue c) := by
  unfold escapeValue
  split
  all_goals first
    | exact .short _ (by decide) (by decide)
    | exact .hex 'u' 4 (by decide) (by decide) (by decide) (by decide)
    | exact written_control (by decide) (by decide) (by decide) (by decide) (by assumption) (by assumption)

theorem written_key (c : Char) : Written c (escapeKey c) := by
  unfold escapeKey
  split
  all_goals first
    | exact .short _ (by decide) (by decide)
    | exact written_control (by decide) (by decide) (by decide) (by decide) (by assumption) (by assumption)

theorem faithful_value (c : Char) : Faithful false escapeValue c := faithful_written (written_value c)

theorem faithful_key (c : Char) : Faithful false escapeKey c := faithful_written (written_key c)

variable {ctx : Context} {cur : Cursor} {text tail rest : List Char} {escape : Char → List Char}

-- Where a run of characters in quotes stops: at a blank, or at a closing mark
-- that is not doubled.
inductive RunEnds (single : Bool) : List Char → Prop where
  | blank (rest : List Char) : RunEnds single (' ' :: rest)
  | closing (rest : List Char) (lone : rest.head? ≠ some '\'') : RunEnds single (mark single :: rest)

theorem run_ends (fuel : Nat) (ends : RunEnds ctx.single cur.rest) (acc : List Char) :
    run ctx fuel cur acc = .ok ⟨cur,acc,false⟩ := by
  cases fuel with
  | zero => rfl
  | succ fuel =>
    rw [run]
    generalize cur.rest = text at ends
    cases ends with
    | blank rest => rfl
    | closing rest lone =>
      cases single : ctx.single with
      | false => simp [mark,isBlank,isBreak]
      | true => simp [mark,isBlank,isBreak,lone]

theorem run_solid (fuel : Nat) (faithful : ∀ c ∈ text, Faithful ctx.single escape c) (solid : ' ' ∉ text)
    (there : cur.rest = text.flatMap escape ++ tail) (ends : RunEnds ctx.single tail) (enough : text.length ≤ fuel)
    (acc : List Char) :
    run ctx fuel cur acc = .ok ⟨cur.skip (text.flatMap escape).length,text.reverse ++ acc,false⟩ := by
  induction text generalizing fuel cur acc with
  | nil =>
    rw [List.flatMap_nil,List.length_nil,Cursor.skip_zero]
    exact run_ends fuel (there ▸ ends) acc
  | cons c text ih =>
    obtain ⟨left,rfl⟩ : ∃ left, fuel = left + 1 := ⟨fuel - 1,by simp at enough; omega⟩
    have other : c ≠ ' ' := fun same => solid (same ▸ List.mem_cons_self)
    have later := fun d member => faithful d (List.mem_cons_of_mem c member)
    have follows : cur.rest = escape c ++ (text.flatMap escape ++ tail) := by rw [there]; simp
    -- One character is read, however it is written.
    have step : run ctx (left + 1) cur acc = run ctx left (cur.skip (escape c).length) (c :: acc) := by
      rw [run,follows]
      cases faithful c List.mem_cons_self with
      | plain same tab feed closing backslash =>
        have blank : isBlank c = false := by simp [isBlank,other,tab]
        rw [same]
        cases single : ctx.single with
        | false =>
          have quote : c ≠ '"' := by simpa [mark,single] using closing
          simp [blank,feed,quote,backslash single]
        | true =>
          have quote : c ≠ '\'' := by simpa [mark,single] using closing
          simp [blank,feed,quote]
      | escaped double name written joined read =>
        have head : ((name ++ (text.flatMap escape ++ tail)).head?.map isBreak).getD false = false := by
          cases name with
          | nil => exact absurd (read ctx.start []) (by simp [readEscape])
          | cons d name => exact joined
        have opening : isBlank '\\' = false ∧ isBreak '\\' = false ∧ ('\\' == '\'') = false ∧ ('\\' == '"') = false := by decide
        rw [written]
        simp only [List.cons_append,opening,double,head,read,Bool.or_self,Bool.false_and,Bool.not_false,Bool.and_true,
          if_neg Bool.false_ne_true,beq_self_eq_true,if_true,List.length_cons]
    have inner : ' ' ∉ text := fun member => solid (List.mem_cons_of_mem _ member)
    rw [step,ih left later inner (Cursor.rest_skip follows) (by simp at enough; omega),Cursor.skip_skip]
    simp

theorem gapReader : Scan.GapReader (skipGap ctx) where
  spent _ _ := rfl
  atEnd fuel cur gap none := by simp [skipGap,none]
  solid fuel cur gap c next blank feed := by simp [skipGap,next,blank,feed]

theorem skipGap_blanks (n fuel : Nat) (before : List Char) (enough : n ≤ fuel) (blanks : cur.rest = spaces n ++ rest)
    (halts : Halts rest) : skipGap ctx fuel cur (.blanks before) = .ok (cur.skip n,.blanks (spaces n ++ before)) :=
  gapReader.blanks (fun k => .blanks (spaces k ++ before)) (fun _ _ _ next => by rw [skipGap,next]; rfl) n fuel enough blanks
    halts

theorem faithful_filled (single : Bool) (c : Char) (faithful : Faithful single escape c) : 1 ≤ (escape c).length := by
  cases faithful with
  | plain same => exact Nat.le_of_eq (congrArg List.length same).symm
  | escaped _ name written => rw [written]; exact Nat.succ_le_succ (Nat.zero_le _)

theorem flatMap_length (single : Bool) (faithful : ∀ c ∈ text, Faithful single escape c) :
    text.length ≤ (text.flatMap escape).length := by
  induction text with
  | nil => exact Nat.le_refl _
  | cons c text ih =>
    have one := faithful_filled single c (faithful c List.mem_cons_self)
    have later := ih fun d member => faithful d (List.mem_cons_of_mem c member)
    simp only [List.length_cons,List.flatMap_cons,List.length_append]
    omega

theorem spaces_flatMap (itself : escape ' ' = [' ']) (n : Nat) : (spaces n).flatMap escape = spaces n := by
  induction n with
  | zero => rfl
  | succ n ih =>
    have first : spaces (n + 1) = ' ' :: spaces n := rfl
    rw [first,List.flatMap_cons,itself,ih]
    rfl

theorem written_halts (single : Bool) (tail : List Char) (faithful : ∀ c ∈ text, Faithful single escape c) (first : text.head? ≠ some ' ') :
    Halts (text.flatMap escape ++ mark single :: tail) := by
  intro c head
  cases text with
  | nil =>
    obtain rfl := Option.some.inj head
    cases single <;> decide
  | cons d text =>
    have other : d ≠ ' ' := fun same => first (congrArg some same)
    cases faithful d List.mem_cons_self with
    | plain same tab feed =>
      rw [List.flatMap_cons,same] at head
      obtain rfl := Option.some.inj head
      exact ⟨by simp [isBlank,other,tab],feed⟩
    | escaped _ name written =>
      rw [List.flatMap_cons,written] at head
      obtain rfl := Option.some.inj head
      decide

theorem scan_starts (column : cur.column ≠ 0) (filled : cur.rest ≠ []) :
    cur.atDocumentMarker = false ∧ cur.atEnd = false := by
  have other : (cur.column == 0) = false := beq_eq_false_iff_ne.mpr column
  exact ⟨by rw [Cursor.atDocumentMarker,other,Bool.false_and],List.isEmpty_eq_false_iff.mpr filled⟩

theorem scan_last (fuel : Nat) (faithful : ∀ c ∈ text, Faithful ctx.single escape c) (solid : ' ' ∉ text)
    (there : cur.rest = text.flatMap escape ++ mark ctx.single :: tail) (lone : tail.head? ≠ some '\'')
    (column : cur.column ≠ 0) (enough : text.length ≤ ctx.steps) (acc : List Char) :
    scan ctx (fuel + 1) cur acc = .ok (cur.skip ((text.flatMap escape).length + 1),text.reverse ++ acc) := by
  obtain ⟨marker,inside⟩ := scan_starts column (by simp [there])
  have ended : atClosing ctx (cur.skip (text.flatMap escape).length) = true := by
    rw [atClosing,Cursor.peek,Cursor.rest_skip there]
    exact beq_self_eq_true _
  rw [scan,marker,inside,if_neg Bool.false_ne_true,if_neg Bool.false_ne_true,
    run_solid ctx.steps faithful solid there (.closing tail lone) enough]
  simp only [ended,if_true,Cursor.skip_skip]

theorem scan_further (fuel n : Nat) (faithful : ∀ c ∈ text, Faithful ctx.single escape c) (solid : ' ' ∉ text)
    (there : cur.rest = text.flatMap escape ++ (spaces (n + 1) ++ rest))
    (halts : Halts rest) (column : cur.column ≠ 0)
    (enough : text.length ≤ ctx.steps) (blanks : n + 1 ≤ ctx.steps) (acc : List Char) :
    scan ctx (fuel + 1) cur acc =
      scan ctx fuel (cur.skip ((text.flatMap escape).length + (n + 1))) (spaces (n + 1) ++ (text.reverse ++ acc)) := by
  obtain ⟨marker,inside⟩ := scan_starts column (by simp [there,spaces,List.replicate_succ])
  have behind := Cursor.rest_skip there
  have unended : atClosing ctx (cur.skip (text.flatMap escape).length) = false := by
    have blank : (cur.skip (text.flatMap escape).length).peek = some ' ' := by
      rw [Cursor.peek,behind]
      rfl
    rw [atClosing,blank]
    cases ctx.single <;> decide
  rw [scan,marker,inside,if_neg Bool.false_ne_true,if_neg Bool.false_ne_true,
    run_solid ctx.steps faithful solid there (.blank _) enough]
  simp only [unended,if_neg Bool.false_ne_true]
  rw [skipGap_blanks (n + 1) ctx.steps [] blanks behind halts,Cursor.skip_skip]
  simp [misindented,Gap.text]

theorem scan_text (fuel : Nat) (faithful : ∀ c ∈ text, Faithful ctx.single escape c) (itself : escape ' ' = [' '])
    (there : cur.rest = text.flatMap escape ++ mark ctx.single :: tail) (lone : tail.head? ≠ some '\'')
    (column : cur.column ≠ 0) (steps : cur.rest.length < ctx.steps) (enough : text.length < fuel) (acc : List Char) :
    scan ctx fuel cur acc = .ok (cur.skip ((text.flatMap escape).length + 1),text.reverse ++ acc) := by
  induction fuel generalizing text cur acc with
  | zero => exact absurd enough (Nat.not_lt_zero _)
  | succ fuel ih =>
    obtain ⟨front,n,later,rfl,solid,ends,whole⟩ := Scan.first_blanks text
    have frontFaithful := fun c member => faithful c (List.mem_append_left (spaces n ++ later) member)
    have laterFaithful := fun c member => faithful c (List.mem_append_right front (List.mem_append_right (spaces n) member))
    have written : (front ++ (spaces n ++ later)).flatMap escape =
        front.flatMap escape ++ (spaces n ++ later.flatMap escape) := by
      rw [List.flatMap_append,List.flatMap_append,spaces_flatMap itself]
    have follows : cur.rest = front.flatMap escape ++
        (spaces n ++ (later.flatMap escape ++ mark ctx.single :: tail)) := by
      rw [there,written,List.append_assoc,List.append_assoc]
    have length := congrArg List.length follows
    have short := flatMap_length ctx.single frontFaithful
    simp only [List.length_append,List.length_cons,Scan.spaces_length] at length enough
    cases n with
    | zero =>
      obtain rfl := whole rfl
      have flat : front ++ (spaces 0 ++ []) = front := List.append_nil front
      rw [flat]
      exact scan_last fuel frontFaithful solid follows lone column (by omega) acc
    | succ n =>
      have again : (cur.skip ((front.flatMap escape).length + (n + 1))).rest =
          later.flatMap escape ++ mark ctx.single :: tail := by
        rw [←Cursor.skip_skip]
        exact Scan.rest_spaces (Cursor.rest_skip follows)
      rw [scan_further fuel n frontFaithful solid follows (written_halts ctx.single tail laterFaithful ends) column
        (by omega) (by omega) acc,ih laterFaithful again ?_ ?_ (by omega)]
      · rw [Cursor.skip_skip,written]
        simp only [List.length_append,Scan.spaces_length,List.reverse_append]
        simp [spaces,Nat.add_assoc]
      · simp only [Cursor.skip,Cursor.column] at column ⊢
        omega
      · rw [again]
        simp only [List.length_append,List.length_cons]
        omega

def Closes (tail : List Char) : Prop := ∀ c, tail.head? = some c → c = '\n' ∨ c = ':'

theorem read_text (faithful : ∀ c ∈ text, Faithful ctx.single escape c) (itself : escape ' ' = [' '])
    (there : cur.rest = mark ctx.single :: (text.flatMap escape ++ mark ctx.single :: tail)) (closes : Closes tail)
    (start : ctx.start = cur.pos) (steps : cur.rest.length < ctx.steps) :
    read ctx cur = .ok (cur.skip ((text.flatMap escape).length + 2),text) := by
  have opened : (cur.skip 1).rest = text.flatMap escape ++ mark ctx.single :: tail := by simp [Cursor.skip,there]
  have length := congrArg List.length there
  have short := flatMap_length ctx.single faithful
  simp only [List.length_cons,List.length_append] at length
  have lone : tail.head? ≠ some '\'' := by
    intro quote
    cases closes _ quote with
    | inl same => exact absurd same (by decide)
    | inr same => exact absurd same (by decide)
  have scanned := scan_text ctx.steps faithful itself opened lone (by simp [Cursor.column,Cursor.skip])
    (by rw [opened]; simp only [List.length_append,List.length_cons]; omega) (by omega) []
  have whole : (cur.skip 1).skip ((text.flatMap escape).length + 1) = cur.skip ((text.flatMap escape).length + 2) := by
    rw [Cursor.skip_skip]
    congr 1
    omega
  have after : (cur.skip ((text.flatMap escape).length + 2)).rest = tail := by
    have front : (cur.skip 1).rest = (text.flatMap escape ++ [mark ctx.single]) ++ tail := by simp [opened]
    have rest := Cursor.rest_skip front
    rwa [List.length_append,List.length_singleton,whole] at rest
  rw [read,scanned,whole]
  generalize stop : cur.skip ((text.flatMap escape).length + 2) = last at after
  have line : last.pos.line = cur.pos.line := by rw [←stop]; rfl
  have blanks : last.skipBlanks true = .ok ⟨last,false,false⟩ := by
    refine Cursor.skipBlanks_none true ?_
    intro c head
    rw [after] at head
    cases closes c head with
    | inl same => subst same; decide
    | inr same => subst same; decide
  have well : endsWell ctx last = true := by
    unfold endsWell Cursor.peek
    rw [after]
    cases first : tail with
    | nil => rfl
    | cons c later =>
      cases closes c (by rw [first]; rfl) with
      | inl same => subst same; rfl
      | inr same => subst same; simp [start,line]
  simp only [blanks,well,if_true,List.append_nil,List.reverse_reverse]

end AutomationLint.Yaml.Quoted
