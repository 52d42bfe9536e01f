import AutomationLint.Number
import AutomationLint.Proofs.Yaml.Scalar.Plain

namespace AutomationLint.Yaml.Plain

-- A digit, after a sign perhaps, and then digits, a point and an exponent in
-- any order. That is enough to tell a number from every other word.
inductive Numeral : List Char → Prop where
  | unsigned (d : Char) (rest : List Char) (digit : d.isDigit = true) (numerals : ∀ c ∈ rest, isNumeral c = true) :
      Numeral (d :: rest)
  | negative (d : Char) (rest : List Char) (digit : d.isDigit = true) (numerals : ∀ c ∈ rest, isNumeral c = true) :
      Numeral ('-' :: d :: rest)

variable {text digits : List Char}

theorem numeral_digit {c : Char} (digit : c.isDigit = true) : isNumeral c = true := by simp [isNumeral,digit]

theorem digit_starts {d : Char} (digit : d.isDigit = true) : isAsciiSpace d = false ∧ isIndicator d = false ∧ d ≠ '-' ∧ d ≠ '?' := by
  obtain ⟨least,most⟩ := digit_bounds digit
  have other : ∀ c : Char, (c.toNat < 48 ∨ 57 < c.toNat) → d ≠ c := by
    rintro _ out rfl
    omega
  refine ⟨?_,?_,other '-' (by decide),other '?' (by decide)⟩
  · simp [isAsciiSpace,other ' ' (by decide),other '\t' (by decide),other '\n' (by decide),other '\x0c' (by decide),
      other '\r' (by decide)]
  · simp only [isIndicator,List.contains_eq_mem,decide_eq_false_iff_not]
    intro member
    have outside : ∀ c ∈ [',',':','[',']','{','}','#','&','*','!','|','>','\'','"','%','@','\x60'],
        c.toNat < 48 ∨ 57 < c.toNat := each_of_all (by decide)
    exact other d (outside d member) rfl

theorem Numeral.each (numeral : Numeral text) : ∀ c ∈ text, isNumeral c = true := by
  cases numeral with
  | unsigned d rest digit numerals => exact List.forall_mem_cons.mpr ⟨numeral_digit digit,numerals⟩
  | negative d rest digit numerals =>
    exact List.forall_mem_cons.mpr ⟨by decide,List.forall_mem_cons.mpr ⟨numeral_digit digit,numerals⟩⟩

theorem Numeral.even (numeral : Numeral text) : Even text ∧ badStart text = false := by
  have solid : ∀ c ∈ text, c ≠ ' ' ∧ c ≠ ':' ∧ c ≠ '#' ∧ isControl c = false := fun c member =>
    numeral_solid (numeral.each c member)
  cases numeral with
  | unsigned d rest digit =>
    obtain ⟨space,indicator,dash,question⟩ := digit_starts digit
    exact ⟨even_solid (List.cons_ne_nil _ _) solid,by simp [badStart,space,indicator,dash,question]⟩
  | negative d rest digit =>
    obtain ⟨space,_⟩ := digit_starts digit
    have dash : isAsciiSpace '-' = false ∧ isIndicator '-' = false := by decide
    exact ⟨even_solid (List.cons_ne_nil _ _) solid,by simp [badStart,space,dash]⟩

theorem toDigits_digits (n : Nat) (c : Char) (member : c ∈ Nat.toDigits 10 n) : c.isDigit = true :=
  Nat.isDigit_of_mem_toDigits (by decide) (by decide) member

theorem toDigits_cons (n : Nat) : ∃ d rest, Nat.toDigits 10 n = d :: rest ∧ d.isDigit = true ∧
    ∀ c ∈ rest, c.isDigit = true := by
  obtain ⟨d,rest,same⟩ := List.exists_cons_of_ne_nil (Nat.toDigits_ne_nil (n := n) (b := 10))
  refine ⟨d,rest,same,toDigits_digits n d (by simp [same]),fun c member => toDigits_digits n c (by simp [same,member])⟩

theorem int_toList (n : Int) :
    (toString n).toList = (if n < 0 then ['-'] else []) ++ Nat.toDigits 10 n.natAbs := by
  cases n with
  | ofNat m =>
    have pos : ¬Int.ofNat m < 0 := Int.not_lt.mpr (Int.natCast_nonneg m)
    rw [if_neg pos,Int.toString_eq_repr]
    show (Nat.repr m).toList = _
    rw [Nat.repr_eq_ofList_toDigits,String.toList_ofList]
    rfl
  | negSucc m =>
    rw [if_pos (Int.negSucc_lt_zero m),Int.toString_eq_repr]
    show ("-" ++ Nat.repr (m + 1)).toList = _
    rw [String.toList_append,Nat.repr_eq_ofList_toDigits]
    simp

theorem int_numeral (n : Int) : Numeral (toString n).toList := by
  obtain ⟨d,rest,same,digit,digits⟩ := toDigits_cons n.natAbs
  rw [int_toList,same]
  split
  · exact .negative d rest digit fun c member => numeral_digit (digits c member)
  · exact .unsigned d rest digit fun c member => numeral_digit (digits c member)

def Led (text : List Char) : Prop := ∃ d rest, text = d :: rest ∧ d.isDigit = true ∧ ∀ c ∈ rest, isNumeral c = true

theorem led_append (some : digits ≠ []) (figures : ∀ c ∈ digits, c.isDigit = true)
    (numerals : ∀ c ∈ text, isNumeral c = true) : Led (digits ++ text) := by
  obtain ⟨d,rest,rfl⟩ := List.exists_cons_of_ne_nil some
  refine ⟨d,rest ++ text,rfl,figures d List.mem_cons_self,?_⟩
  intro c member
  rcases List.mem_append.mp member with inner | outer
  · exact numeral_digit (figures c (List.mem_cons_of_mem _ inner))
  · exact numerals c outer

theorem zeros_digits (n : Nat) (c : Char) (member : c ∈ Binary64.zeros n) : c.isDigit = true := by
  rw [List.eq_of_mem_replicate member]
  decide

theorem positional_led (some : digits ≠ []) (figures : ∀ c ∈ digits, c.isDigit = true) (exponent : Int) :
    Led (Binary64.positional digits exponent) := by
  unfold Binary64.positional
  split
  · rw [List.append_assoc]
    refine led_append some figures ?_
    intro c member
    rcases List.mem_append.mp member with zero | last
    · exact numeral_digit (zeros_digits _ c zero)
    · rcases List.mem_cons.mp last with rfl | last
      · decide
      · rw [List.mem_singleton.mp last]; decide
  · dsimp only
    split
    · rename_i short
      refine led_append ?_ (fun c member => figures c (List.mem_of_mem_take member)) ?_
      · intro none
        have := congrArg List.length none
        rw [List.length_take,List.length_nil] at this
        omega
      · intro c member
        rcases List.mem_cons.mp member with rfl | later
        · decide
        · exact numeral_digit (figures c (List.mem_of_mem_drop later))
    · refine ⟨'0',_,rfl,by decide,?_⟩
      intro c member
      rcases List.mem_cons.mp member with rfl | later
      · decide
      · rcases List.mem_append.mp later with zero | figure
        · exact numeral_digit (zeros_digits _ c zero)
        · exact numeral_digit (figures c figure)

theorem scientific_led (form : Binary64.Form) (some : digits ≠ []) (figures : ∀ c ∈ digits, c.isDigit = true)
    (order : Int) : Led (Binary64.scientific form digits order) := by
  obtain ⟨d,rest,rfl⟩ := List.exists_cons_of_ne_nil some
  have exponent : ∀ c ∈ 'e' :: (if order < 0 then '-' else '+') :: Binary64.digitsOf order.natAbs,
      isNumeral c = true := by
    intro c member
    rcases List.mem_cons.mp member with rfl | member
    · decide
    · rcases List.mem_cons.mp member with rfl | member
      · split <;> decide
      · exact numeral_digit (toDigits_digits _ c member)
  have first := figures d List.mem_cons_self
  cases rest with
  | nil =>
    unfold Binary64.scientific
    dsimp only
    split
    · refine ⟨d,_,rfl,first,?_⟩
      intro c member
      rcases List.mem_cons.mp member with rfl | member
      · decide
      · rcases List.mem_cons.mp member with rfl | member
        · decide
        · exact exponent c member
    · exact ⟨d,_,rfl,first,exponent⟩
  | cons e rest =>
    refine ⟨d,_,rfl,first,?_⟩
    intro c member
    rcases List.mem_append.mp member with member | member
    · rcases List.mem_cons.mp member with rfl | member
      · decide
      · exact numeral_digit (figures c (List.mem_cons_of_mem _ member))
    · exact exponent c member

theorem magnitude_led (form : Binary64.Form) (x : Binary64) : Led (x.magnitudeText form) := by
  unfold Binary64.magnitudeText
  split
  · exact ⟨'0',['.','0'],rfl,by decide,each_of_all (by decide)⟩
  · dsimp only
    split
    · exact positional_led Nat.toDigits_ne_nil (toDigits_digits _) _
    · exact scientific_led form Nat.toDigits_ne_nil (toDigits_digits _) _

theorem float_numeral (form : Binary64.Form) (x : Binary64) : Numeral (x.text form).toList := by
  obtain ⟨d,rest,same,digit,numerals⟩ := magnitude_led form x
  rw [Binary64.text,String.toList_ofList,same]
  split
  · exact .negative d rest digit numerals
  · exact .unsigned d rest digit numerals

end AutomationLint.Yaml.Plain
