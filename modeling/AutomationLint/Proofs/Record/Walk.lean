import AutomationLint.Record

namespace AutomationLint.Record
open AutomationLint.Tree

-- A walk goes to a field, then perhaps to an element of its list, and then
-- perhaps to a key; its text is the path of a finding. The name has no
-- brackets and no dots: only then does the text show where it ends.
structure Walk where
  name : String
  index : Option Nat
  key : Option String
  plain : ∀ c ∈ name.toList, c ≠ '[' ∧ c ≠ '.'

namespace Walk

def element (index : Option Nat) : String :=
  match index with
  | none => ""
  | some i => "[" ++ toString i ++ "]"

def ending (key : Option String) : String :=
  match key with
  | none => ""
  | some key => "." ++ key

def text (w : Walk) : String := w.name ++ element w.index ++ ending w.key

def reach (record : Tree) (w : Walk) : Option Tree :=
  let node := match w.index, record.field? w.name with
    | none, value => value
    | some i, some (.seq items) => items[i]?
    | some _, _ => none
  match w.key with
  | none => node
  | some key => node.bind (·.field? key)

def keyed (w : Walk) (key : Option String) : Walk := {w with key := key}

theorem reach_keyed (record : Tree) (w : Walk) (key : String) (bare : w.key = none) :
    (w.keyed (some key)).reach record = (w.reach record).bind (·.field? key) := by
  simp only [reach,keyed,bare]

theorem keyed_none (w : Walk) (bare : w.key = none) : w.keyed none = w := by
  obtain ⟨name,index,key,plain⟩ := w
  cases bare
  rfl

theorem front_unique (kept : Char → Prop) (front other rest later : List Char)
    (inFront : ∀ c ∈ front, kept c) (inOther : ∀ c ∈ other, kept c)
    (afterFront : ∀ c ∈ rest.head?, ¬kept c) (afterOther : ∀ c ∈ later.head?, ¬kept c)
    (same : front ++ rest = other ++ later) : front = other ∧ rest = later := by
  induction front generalizing other with
  | nil =>
    cases other with
    | nil => exact ⟨rfl,same⟩
    | cons d other =>
      have head : rest.head? = some d := by simp [show rest = d :: (other ++ later) from same]
      exact absurd (inOther d List.mem_cons_self) (afterFront d head)
  | cons c front ih =>
    cases other with
    | nil =>
      have head : later.head? = some c := by simp [show later = c :: (front ++ rest) from same.symm]
      exact absurd (inFront c List.mem_cons_self) (afterOther c head)
    | cons d other =>
      obtain ⟨rfl,tail⟩ := List.cons.inj same
      obtain ⟨rfl,equal⟩ := ih other (fun c member => inFront c (List.mem_cons_of_mem _ member))
        (fun c member => inOther c (List.mem_cons_of_mem _ member)) tail
      exact ⟨rfl,equal⟩

theorem element_toList (i : Nat) : (element (some i)).toList = '[' :: (Nat.toDigits 10 i ++ [']']) := by
  simp [element,String.toList_append]

theorem ending_head (key : Option String) : ∀ c ∈ (ending key).toList.head?, c = '.' := by
  cases key <;> simp [ending,String.toList_append]

theorem ending_injective (key other : Option String) (same : ending key = ending other) : key = other := by
  rw [←String.toList_inj] at same
  cases key with
  | none =>
    cases other with
    | none => rfl
    | some other => simp [ending,String.toList_append] at same
  | some key =>
    cases other with
    | none => simp [ending,String.toList_append] at same
    | some other => exact congrArg some (String.toList_inj.mp (by simpa [ending,String.toList_append] using same))

theorem tail_injective (index other : Option Nat) (key last : Option String)
    (same : (element index).toList ++ (ending key).toList = (element other).toList ++ (ending last).toList) :
    index = other ∧ key = last := by
  cases index with
  | none =>
    cases other with
    | none => exact ⟨rfl,ending_injective _ _ (String.toList_inj.mp (by simpa [element] using same))⟩
    | some j =>
      have bracket : (ending key).toList.head? = some '[' := by
        rw [show (element none).toList = [] from rfl,List.nil_append] at same
        rw [same,element_toList]
        rfl
      exact absurd (ending_head key _ bracket) (by decide)
  | some i =>
    cases other with
    | none =>
      have bracket : (ending last).toList.head? = some '[' := by
        rw [show (element none).toList = [] from rfl,List.nil_append] at same
        rw [←same,element_toList]
        rfl
      exact absurd (ending_head last _ bracket) (by decide)
    | some j =>
      rw [element_toList,element_toList] at same
      simp only [List.cons_append,List.append_assoc] at same
      obtain ⟨digits,rest⟩ := front_unique (fun c => c.isDigit = true) (Nat.toDigits 10 i) (Nat.toDigits 10 j) _ _
        (fun c member => Nat.isDigit_of_mem_toDigits (by decide) (by decide) member)
        (fun c member => Nat.isDigit_of_mem_toDigits (by decide) (by decide) member)
        (by simp) (by simp) (List.cons.inj same).2
      have index : i = j := by
        have numbers := congrArg (fun digits => Nat.ofDigitChars 10 digits 0) digits
        simpa using numbers
      exact ⟨congrArg some index,ending_injective _ _ (String.toList_inj.mp (List.cons.inj rest).2)⟩

theorem tail_stops (index : Option Nat) (key : Option String) :
    ∀ c ∈ ((element index).toList ++ (ending key).toList).head?, ¬(c ≠ '[' ∧ c ≠ '.') := by
  intro c member
  cases index with
  | none => simp [ending_head key c (by simpa [element] using member)]
  | some i =>
    rw [element_toList] at member
    simp [←Option.some.inj member]

theorem text_injective (w other : Walk) (same : w.text = other.text) : w = other := by
  obtain ⟨name,index,key,plain⟩ := w
  obtain ⟨name',index',key',plain'⟩ := other
  simp only [text,←String.toList_inj,String.toList_append,List.append_assoc] at same
  obtain ⟨names,tails⟩ := front_unique _ _ _ _ _ plain plain' (tail_stops index key) (tail_stops index' key') same
  cases String.toList_inj.mp names
  obtain ⟨rfl,rfl⟩ := tail_injective _ _ _ _ tails
  rfl

theorem name_of_bracket (w : Walk) (name : String) (rest : List Char) (plain : ∀ c ∈ name.toList, c ≠ '[' ∧ c ≠ '.')
    (same : w.text.toList = name.toList ++ '[' :: rest) : w.name = name := by
  simp only [text,String.toList_append,List.append_assoc] at same
  obtain ⟨names,_⟩ := front_unique _ _ _ _ _ w.plain plain (tail_stops w.index w.key) (by simp) same
  exact String.toList_inj.mp names

end Walk

end AutomationLint.Record
