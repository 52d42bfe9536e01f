import AutomationLint.Proofs.Number.Numerals
import AutomationLint.Proofs.Number.Shortest
import AutomationLint.Proofs.Yaml.Legible

namespace AutomationLint.Yaml
open Plain Writer

variable {text rest : List Char}

theorem lowerWord_starts {word : String} {c : Char} (same : Text.lowerWord (c :: rest) = word) :
    word.toList.head? = some c.toLower := by
  rw [←same,Text.lowerWord,String.toList_ofList]
  rfl

theorem trim_solid (solid : ∀ c ∈ text, Text.isWhite c = false) : Text.trim text = text := by
  have drop : ∀ cs : List Char, (∀ c ∈ cs, Text.isWhite c = false) → cs.dropWhile Text.isWhite = cs := by
    intro cs solid
    cases cs with
    | nil => rfl
    | cons c rest => rw [List.dropWhile_cons_of_neg (by simp [solid c List.mem_cons_self])]
  rw [Text.trim,Text.trimStart,drop text solid,Text.trimEnd,drop _ fun c member => solid c (List.mem_reverse.mp member),
    List.reverse_reverse]

theorem digit_cases {c : Char} (digit : c.isDigit = true) : c ∈ "0123456789".toList := by
  obtain ⟨least,most⟩ := digit_bounds digit
  have known : c.toNat = 48 ∨ c.toNat = 49 ∨ c.toNat = 50 ∨ c.toNat = 51 ∨ c.toNat = 52 ∨ c.toNat = 53 ∨ c.toNat = 54 ∨
      c.toNat = 55 ∨ c.toNat = 56 ∨ c.toNat = 57 := by omega
  rw [←Char.ofNat_toNat c]
  rcases known with same | same | same | same | same | same | same | same | same | same <;> (rw [same]; decide)

theorem digit_holds {c : Char} (p : Char → Prop) [DecidablePred p]
    (all : "0123456789".toList.all (fun d => decide (p d)) = true) (digit : c.isDigit = true) : p c :=
  each_of_all all c (digit_cases digit)

theorem numeral_white {c : Char} (numeral : isNumeral c = true) : Text.isWhite c = false := by
  simp only [isNumeral,Bool.or_eq_true,beq_iff_eq] at numeral
  rcases numeral with (((digit | rfl) | rfl) | rfl) | rfl
  · exact digit_holds (Text.isWhite · = false) (by decide) digit
  all_goals decide

def valueWords : List String := ["true","yes","y","on","false","no","n","off","null","~"]

-- A text that starts with such a character is no word for a value.
def wordless (c : Char) : Bool := valueWords.all fun word => word.toList.head? != some c.toLower

theorem wordless_word {c : Char} (is : wordless c = true) :
    isNullWord (c :: rest) = false ∧ bool? (c :: rest) = none := by
  have none : ∀ word ∈ valueWords, word.toList.head? ≠ some c.toLower := by
    simpa [wordless] using is
  have other : ∀ word ∈ valueWords, Text.lowerWord (c :: rest) ≠ word :=
    fun word member same => none word member (lowerWord_starts same)
  refine ⟨?_,?_⟩
  · have tilde : (c :: rest == ['~']) = false := by
      refine beq_eq_false_iff_ne.mpr fun same => ?_
      obtain ⟨rfl,rfl⟩ := List.cons.inj same
      exact other "~" (by decide) (by decide)
    have null : (Text.lowerWord (c :: rest) == "null") = false := beq_eq_false_iff_ne.mpr (other "null" (by decide))
    simp [isNullWord,tilde,null]
  · unfold bool?
    split
    all_goals first
      | (rename_i same; exact absurd same (other _ (by decide)))
      | rfl

theorem Plain.Numeral.wordless (numeral : Numeral text) : ∃ c rest, text = c :: rest ∧ wordless c = true := by
  cases numeral with
  | unsigned d rest digit _ =>
    exact ⟨d,rest,rfl,digit_holds (Yaml.wordless · = true) (by decide) digit⟩
  | negative d rest => exact ⟨'-',_,rfl,by decide⟩

theorem digits_fold (digits : List Char) (figures : ∀ c ∈ digits, c.isDigit = true) (n : Nat) :
    digits.foldl (fun n c => do
      let d ← Text.hexValue? c
      if d < 10 then some ((← n) * 10 + d) else none) (some n) = some (Nat.ofDigitChars 10 digits n) := by
  induction digits generalizing n with
  | nil => rfl
  | cons c rest ih =>
    have digit := figures c List.mem_cons_self
    have least := digit_bounds digit
    have small : c.toNat - 48 < 10 := by omega
    have step : (do
        let d ← Text.hexValue? c
        if d < 10 then some ((← some n) * 10 + d) else none) = some (n * 10 + (c.toNat - 48)) := by
      simp [Text.hexValue?,digit,small]
    rw [List.foldl_cons,step,ih (fun d member => figures d (List.mem_cons_of_mem _ member)),Nat.ofDigitChars_cons,
      Nat.mul_comm n 10]
    rfl

@[simp] theorem digits?_toDigits (n : Nat) : digits? 10 (Nat.toDigits 10 n) = some n := by
  have figures : ∀ c ∈ Nat.toDigits 10 n, c.isDigit = true := toDigits_digits n
  have kept : (Nat.toDigits 10 n).filter (· != '_') = Nat.toDigits 10 n := by
    refine List.filter_eq_self.mpr fun c member => ?_
    exact digit_holds (fun c => (c != '_') = true) (by decide) (figures c member)
  have some : (Nat.toDigits 10 n).isEmpty = false := by simp [Nat.toDigits_ne_nil]
  unfold digits?
  dsimp only
  rw [kept,some,if_neg Bool.false_ne_true,digits_fold _ figures,Nat.ofDigitChars_toDigits (by decide) (by decide)]

@[simp] theorem magnitude?_toDigits (n : Nat) : magnitude? (Nat.toDigits 10 n) = some n := by
  obtain ⟨d,rest,same,_,figures⟩ := toDigits_cons n
  have read := digits?_toDigits n
  have solid : ∀ c ∈ rest, c ∉ ['x','X','o','O','b','B'] := fun c member =>
    digit_holds (· ∉ ['x','X','o','O','b','B']) (by decide) (figures c member)
  rw [same] at read ⊢
  unfold magnitude?
  split
  all_goals first
    | exact read
    | (rename_i whole
       obtain ⟨-,rfl⟩ := List.cons.inj whole
       exact absurd (by decide) (solid _ List.mem_cons_self))

theorem integer?_int (n : Int) (fits : Tree.Json.fitsWord n = true) : integer? (toString n).toList = some n := by
  obtain ⟨d,rest,same,digit,_⟩ := toDigits_cons n.natAbs
  have sign : Decimal.splitSign (toString n).toList = (decide (n < 0),Nat.toDigits 10 n.natAbs) := by
    rw [int_toList]
    by_cases negative : n < 0
    · simp [negative,Decimal.splitSign]
    · obtain ⟨minus,plus⟩ : d ≠ '-' ∧ d ≠ '+' := digit_holds (fun d => d ≠ '-' ∧ d ≠ '+') (by decide) digit
      simp [negative,same,Decimal.splitSign,minus,plus]
  have value : (if decide (n < 0) then -(n.natAbs : Int) else n.natAbs) = n := by
    split <;> rename_i negative <;> simp only [decide_eq_true_eq] at negative <;> omega
  unfold integer?
  simp only [sign,magnitude?_toDigits,value,fits,if_true]

theorem plainTree_int (n : Int) (fits : Tree.Json.fitsWord n = true) : plainTree (toString n).toList = .int n := by
  obtain ⟨c,rest,same,wordless⟩ := (int_numeral n).wordless
  have solid := trim_solid fun c member => numeral_white ((int_numeral n).each c member)
  have words : isNullWord (c :: rest) = false ∧ bool? (c :: rest) = none := wordless_word wordless
  rw [←same] at words
  simp only [plainTree,words.1,if_neg Bool.false_ne_true,solid,words.2,integer?_int n fits]

theorem digits?_none {base : Nat} {c : Char} (member : c ∈ text) (kept : c ≠ '_')
    (stray : ∀ d, Text.hexValue? c = some d → ¬d < base) : digits? base text = none := by
  let read : Option Nat → Char → Option Nat := fun n c => do
    let d ← Text.hexValue? c
    if d < base then some ((← n) * base + d) else none
  have lost : ∀ cs : List Char, cs.foldl read none = none := by
    intro cs
    induction cs with
    | nil => rfl
    | cons d cs ih =>
      have step : read none d = none := by simp [read]
      rw [List.foldl_cons,step,ih]
  have stuck : ∀ n, read n c = none := by
    intro n
    cases value : Text.hexValue? c with
    | none => simp [read,value]
    | some d => simp [read,value,stray d value]
  have inner : c ∈ text.filter (· != '_') := List.mem_filter.mpr ⟨member,bne_iff_ne.mpr kept⟩
  obtain ⟨front,back,split⟩ := List.append_of_mem inner
  have folded : (text.filter (· != '_')).foldl read (some 0) = none := by
    rw [split,List.foldl_append,List.foldl_cons,stuck,lost]
  unfold digits?
  dsimp only
  split
  · rfl
  · exact folded

theorem magnitudeText_pointed (form : Binary64.Form) (x : Binary64) :
    '.' ∈ x.magnitudeText form ∨ 'e' ∈ x.magnitudeText form := by
  unfold Binary64.magnitudeText
  split
  · exact .inl (by decide)
  · dsimp only
    split
    · refine .inl ?_
      unfold Binary64.positional
      split
      · simp
      · dsimp only
        split <;> simp
    · exact .inr (List.mem_append_right _ List.mem_cons_self)

@[simp] theorem magnitude?_float (form : Binary64.Form) (x : Binary64) : magnitude? (x.magnitudeText form) = none := by
  obtain ⟨d,rest,same,digit,numerals⟩ := magnitude_led form x
  have stray : digits? 10 (x.magnitudeText form) = none :=
    (magnitudeText_pointed form x).elim (fun point => digits?_none point (by decide) (by decide))
      fun exponent => digits?_none exponent (by decide) (by decide)
  rw [same] at stray ⊢
  unfold magnitude?
  split
  all_goals first
    | exact stray
    | (rename_i whole
       obtain ⟨-,rfl⟩ := List.cons.inj whole
       exact absurd (numerals _ List.mem_cons_self) (by decide))

@[simp] theorem splitSign_float (form : Binary64.Form) (x : Binary64) :
    Decimal.splitSign (x.text form).toList = (x.negative,x.magnitudeText form) := by
  obtain ⟨d,rest,same,digit,_⟩ := magnitude_led form x
  rw [Binary64.text,String.toList_ofList]
  cases x.negative with
  | true => rfl
  | false =>
    obtain ⟨minus,plus⟩ : d ≠ '-' ∧ d ≠ '+' := digit_holds (fun d => d ≠ '-' ∧ d ≠ '+') (by decide) digit
    rw [if_neg Bool.false_ne_true,same]
    simp [Decimal.splitSign,minus,plus]

@[simp] theorem integer?_float (form : Binary64.Form) (x : Binary64) : integer? (x.text form).toList = none := by
  unfold integer?
  simp only [splitSign_float,magnitude?_float]

def endlessWords : List String := [".nan","nan",".inf","inf","infinity"]

@[simp] theorem float?_text (form : Binary64.Form) (x : Binary64) : float? (x.text form).toList = some (.float x) := by
  obtain ⟨n,k,read,nearest⟩ := Binary64.magnitudeText_nearest form x
  have decimal : Decimal.read? (x.text form).toList = some ⟨x.negative,n,k⟩ := by
    simp only [Decimal.read?,splitSign_float,read,Option.map_some]
  obtain ⟨d,rest,same,digit,_⟩ := magnitude_led form x
  have outside : ∀ word ∈ endlessWords, word.toList.head? ≠ some d.toLower :=
    digit_holds (fun d => ∀ word ∈ endlessWords, word.toList.head? ≠ some d.toLower) (by decide) digit
  have other : ∀ word ∈ endlessWords, Text.lowerWord (x.magnitudeText form) ≠ word := by
    intro word member equal
    rw [same] at equal
    exact outside word member (lowerWord_starts equal)
  unfold float?
  simp only [splitSign_float,decimal,Option.map_some]
  split
  all_goals first
    | (rename_i equal; exact absurd equal (other _ (by decide)))
    | (simp only [Decimal.nearest?,nearest])

@[simp] theorem plainTree_float (form : Binary64.Form) (x : Binary64) : plainTree (x.text form).toList = .float x := by
  obtain ⟨c,rest,same,wordless⟩ := (float_numeral form x).wordless
  have solid := trim_solid fun c member => numeral_white ((float_numeral form x).each c member)
  have words : isNullWord (c :: rest) = false ∧ bool? (c :: rest) = none := wordless_word wordless
  rw [←same] at words
  simp only [plainTree,words.1,if_neg Bool.false_ne_true,solid,words.2,integer?_float,float?_text]

theorem scalar_plain {t : Tree} (means : plainTree text = t) (some : t ≠ .null) :
    scalarTree .absent .plain text = .ok t := by
  have word : isNullWord text = false := by
    cases null : isNullWord text with
    | false => rfl
    | true =>
      rw [plainTree,null,if_pos rfl] at means
      exact absurd means.symm some
  have null : isNull .absent .plain text = false := by simp [isNull,word]
  rw [scalarTree,null,if_neg Bool.false_ne_true,←means]
  rfl

theorem scalar_text {style : ScalarStyle} (marked : style ≠ .plain) :
    scalarTree .absent style text = .ok (.str (String.ofList text)) := by
  cases style with
  | plain => exact absurd rfl marked
  | _ => rfl

theorem string_means (s : String) (column : Nat) (legible : LegibleText s.toList column) :
    scalarTree .absent (stringStyle s.toList column) s.toList = .ok (.str s) := by
  unfold LegibleText at legible
  have same : Tree.str (String.ofList s.toList) = .str s := by rw [String.ofList_toList]
  cases style : stringStyle s.toList column with
  | plain =>
    rw [style] at legible
    exact scalar_plain (legible.means.trans same) nofun
  | _ => exact (scalar_text (by decide)).trans (congrArg Except.ok same)

-- Every value but a collection is read from one scalar.
theorem leaf_means (t : Tree) (column : Nat) (style : ScalarStyle) (text : List Char)
    (written : leafKinds column t = [.scalar style text]) (legible : LegibleAt column t) :
    scalarTree .absent style text = .ok t := by
  cases t with
  | null =>
    obtain ⟨rfl,rfl⟩ : style = .plain ∧ text = "null".toList := by simpa [leafKinds] using written.symm
    rfl
  | bool b =>
    obtain ⟨rfl,rfl⟩ : style = .plain ∧ text = (if b then "true" else "false").toList := by
      simpa [leafKinds] using written.symm
    cases b <;> rfl
  | int n =>
    obtain ⟨rfl,rfl⟩ : style = .plain ∧ text = (toString n).toList := by simpa [leafKinds] using written.symm
    rw [LegibleAt] at legible
    exact scalar_plain (plainTree_int n legible) nofun
  | float x =>
    obtain ⟨rfl,rfl⟩ : style = .plain ∧ text = (x.text number).toList := by simpa [leafKinds] using written.symm
    exact scalar_plain (plainTree_float number x) nofun
  | str s =>
    obtain ⟨rfl,rfl⟩ : style = stringStyle s.toList column ∧ text = s.toList := by
      simpa [leafKinds] using written.symm
    rw [LegibleAt] at legible
    exact string_means s column legible
  | seq items => simp [leafKinds] at written
  | map entries => simp [leafKinds] at written

theorem string_present (text : List Char) (column : Nat) : isEmptyBlock (stringStyle text column) text = false := by
  cases filled : text.isEmpty with
  | false => simp [isEmptyBlock,filled]
  | true =>
    obtain rfl := List.isEmpty_iff.mp filled
    rfl

theorem leaf_present (t : Tree) (column : Nat) (style : ScalarStyle) (text : List Char)
    (written : leafKinds column t = [.scalar style text]) : isEmptyBlock style text = false := by
  cases t with
  | str s =>
    obtain ⟨rfl,rfl⟩ : style = stringStyle s.toList column ∧ text = s.toList := by
      simpa [leafKinds] using written.symm
    exact string_present s.toList column
  | seq items => simp [leafKinds] at written
  | map entries => simp [leafKinds] at written
  | _ =>
    obtain ⟨rfl,_⟩ : style = .plain ∧ text = _ := by simpa [leafKinds] using written.symm
    simp [isEmptyBlock]

end AutomationLint.Yaml
