import AutomationLint.Text.Lines

namespace AutomationLint.Text

theorem takeExactly {p : Char → Bool} {front rest : List Char} (inside : ∀ c ∈ front, p c = true)
    (ends : ∀ c, rest.head? = some c → p c = false) :
    (front ++ rest).takeWhile p = front ∧ (front ++ rest).dropWhile p = rest := by
  rw [List.takeWhile_append_of_pos inside,List.dropWhile_append_of_pos inside]
  cases rest with
  | nil => simp
  | cons c rest =>
    have stop := ends c rfl
    rw [List.takeWhile_cons_of_neg (by simp [stop]),List.dropWhile_cons_of_neg (by simp [stop])]
    simp

section

-- A carriage return that still ends a line belongs to the line's end.
def dropCarriage : List Char → List Char
  | [] => []
  | ['\r'] => []
  | c :: rest => c :: dropCarriage rest

theorem dropCarriage_cons (c : Char) (line : List Char) (longer : line ≠ []) :
    dropCarriage (c :: line) = c :: dropCarriage line := by
  cases line with
  | nil => exact absurd rfl longer
  | cons d rest => simp [dropCarriage]

theorem dropCarriage_append (front rest : List Char) (free : '\r' ∉ front) :
    dropCarriage (front ++ rest) = front ++ dropCarriage rest := by
  induction front with
  | nil => rfl
  | cons c front ih =>
    have inner : '\r' ∉ front := List.not_mem_of_not_mem_cons free
    have other : c ≠ '\r' := (List.ne_of_not_mem_cons free).symm
    cases whole : front ++ rest with
    | nil =>
      obtain ⟨rfl,rfl⟩ := List.append_eq_nil_iff.mp whole
      simp [dropCarriage,other]
    | cons d later =>
      rw [List.cons_append,whole,dropCarriage_cons _ _ (List.cons_ne_nil _ _),←whole,ih inner,List.cons_append]

theorem dropCarriage_returns (line : List Char) :
    ∃ returns ≤ 1, line = dropCarriage line ++ List.replicate returns '\r' := by
  fun_induction dropCarriage line with
  | case1 => exact ⟨0,by omega,rfl⟩
  | case2 => exact ⟨1,by omega,rfl⟩
  | case3 c rest _ ih =>
    obtain ⟨returns,bound,same⟩ := ih
    exact ⟨returns,bound,by rw [List.cons_append,←same]⟩

@[simp] theorem dropCarriage_concat (line : List Char) : dropCarriage (line ++ ['\r']) = line := by
  induction line with
  | nil => rfl
  | cons c line ih => rw [List.cons_append,dropCarriage_cons _ _ (by simp),ih]

theorem dropCarriage_eq_self (line : List Char) : dropCarriage line = line ↔ line.getLast? ≠ some '\r' := by
  constructor
  · intro same ends
    obtain ⟨front,rfl⟩ := List.getLast?_eq_some_iff.mp ends
    rw [dropCarriage_concat] at same
    simpa using congrArg List.length same
  · intro other
    obtain ⟨returns,bound,whole⟩ := dropCarriage_returns line
    match returns, bound with
    | 0, _ => simpa using whole.symm
    | 1, _ => exact absurd (by rw [whole]; simp) other

theorem lines_feed (line rest : List Char) (free : '\n' ∉ line) :
    lines (line ++ '\n' :: rest) = dropCarriage line :: lines rest := by
  induction line with
  | nil => rfl
  | cons c line ih =>
    have inner : '\n' ∉ line := List.not_mem_of_not_mem_cons free
    have other : c ≠ '\n' := (List.ne_of_not_mem_cons free).symm
    cases line with
    | nil =>
      by_cases carriage : c = '\r'
      · subst carriage; rfl
      · simp [lines,dropCarriage,carriage]
    | cons d line =>
      have plain : d ≠ '\n' := (List.ne_of_not_mem_cons inner).symm
      rw [dropCarriage_cons _ _ (List.cons_ne_nil _ _)]
      simp only [List.cons_append] at ih ⊢
      rw [lines,ih inner]
      · exact other
      · intro rest' _ same
        exact plain (List.cons.inj same).1

theorem lines_free (text : List Char) : ∀ line ∈ lines text, '\n' ∉ line := by
  fun_induction lines text with
  | case1 => simp
  | case2 rest ih | case3 rest ih =>
    intro line member
    rcases List.mem_cons.mp member with rfl | later
    · simp
    · exact ih line later
  | case4 c rest feed carriage none ih =>
    intro line member
    rw [List.mem_singleton.mp member]
    simpa using fun same => feed same.symm
  | case5 c rest feed carriage first later some ih =>
    rw [some] at ih
    intro line member
    rcases List.mem_cons.mp member with rfl | rest
    · exact List.not_mem_cons_of_ne_of_not_mem (Ne.symm feed) (ih first List.mem_cons_self)
    · exact ih line (List.mem_cons_of_mem _ rest)

-- Reading by lines undoes the ending of lines, and goes on with what follows.
theorem lines_ended (written : List (List Char)) (rest : List Char) (free : ∀ line ∈ written, '\n' ∉ line) :
    lines (ended written ++ rest) = written.map dropCarriage ++ lines rest := by
  induction written with
  | nil => rfl
  | cons line later ih =>
    have tail : ∀ line ∈ later, '\n' ∉ line := fun line member => free line (List.mem_cons_of_mem _ member)
    have step : ended (line :: later) ++ rest = line ++ '\n' :: (ended later ++ rest) := by simp [ended]
    rw [step,lines_feed _ _ (free line List.mem_cons_self),ih tail]
    rfl

def Whole (text : List Char) : Prop := text = [] ∨ text.getLast? = some '\n'

theorem parts (text : List Char) :
    ∃ front last, (∀ line ∈ front, '\n' ∉ line) ∧ '\n' ∉ last ∧ text = ended front ++ last := by
  induction text with
  | nil => exact ⟨[],[],by simp,by simp,rfl⟩
  | cons c rest ih =>
    obtain ⟨front,last,free,open_,same⟩ := ih
    by_cases feed : c = '\n'
    · exact ⟨[] :: front,last,by simpa using free,open_,by simp [feed,same,ended]⟩
    · cases front with
      | nil =>
        refine ⟨[],c :: last,by simp,?_,by simp [same,ended]⟩
        exact List.not_mem_cons_of_ne_of_not_mem (Ne.symm feed) open_
      | cons line later =>
        refine ⟨(c :: line) :: later,last,?_,open_,by simp [same,ended]⟩
        intro other member
        rcases List.mem_cons.mp member with rfl | old
        · exact List.not_mem_cons_of_ne_of_not_mem (Ne.symm feed) (free line List.mem_cons_self)
        · exact free other (List.mem_cons_of_mem _ old)

theorem getLast?_ended (front : List (List Char)) (some : front ≠ []) : (ended front).getLast? = .some '\n' := by
  induction front with
  | nil => exact absurd rfl some
  | cons line later ih =>
    have step : ended (line :: later) = (line ++ ['\n']) ++ ended later := rfl
    rw [step,List.getLast?_append]
    cases later with
    | nil => simp [ended]
    | cons next later => rw [ih (List.cons_ne_nil _ _)]; rfl

theorem getLast?_parts (front : List (List Char)) (last : List Char) (some : last ≠ []) :
    (ended front ++ last).getLast? = last.getLast? := by
  rw [List.getLast?_append,List.getLast?_eq_some_getLast some]
  rfl

theorem Whole.written (text : List Char) (whole : Whole text) :
    ∃ written, (∀ line ∈ written, '\n' ∉ line) ∧ text = ended written := by
  obtain ⟨front,last,free,open_,rfl⟩ := parts text
  refine ⟨front,free,?_⟩
  by_cases none : last = []
  · rw [none,List.append_nil]
  · rcases whole with empty | ends
    · exact absurd (List.append_eq_nil_iff.mp empty).2 none
    · rw [getLast?_parts _ _ none] at ends
      exact absurd (List.mem_of_getLast? ends) open_

theorem lines_append (text rest : List Char) (whole : Whole text) : lines (text ++ rest) = lines text ++ lines rest := by
  obtain ⟨written,free,rfl⟩ := whole.written
  have alone := lines_ended written [] free
  rw [List.append_nil] at alone
  rw [lines_ended written rest free,alone]
  simp [lines]

theorem splitFeeds_feed (line rest : List Char) (free : '\n' ∉ line) :
    splitFeeds (line ++ '\n' :: rest) = line :: splitFeeds rest := by
  induction line with
  | nil => rfl
  | cons c line ih =>
    have inner : '\n' ∉ line := List.not_mem_of_not_mem_cons free
    have other : c ≠ '\n' := (List.ne_of_not_mem_cons free).symm
    rw [List.cons_append,splitFeeds,ih inner]
    exact other

theorem splitFeeds_single (line : List Char) (free : '\n' ∉ line) : splitFeeds line = [line] := by
  induction line with
  | nil => rfl
  | cons c line ih =>
    have inner : '\n' ∉ line := List.not_mem_of_not_mem_cons free
    have other : c ≠ '\n' := (List.ne_of_not_mem_cons free).symm
    rw [splitFeeds,ih inner]
    exact other

theorem splitFeeds_join (joined : List (List Char)) (some : joined ≠ []) (free : ∀ line ∈ joined, '\n' ∉ line) :
    splitFeeds (joinLines joined) = joined := by
  induction joined with
  | nil => exact absurd rfl some
  | cons line later ih =>
    have head := free line List.mem_cons_self
    cases later with
    | nil => exact splitFeeds_single line head
    | cons next later =>
      have tail : ∀ line ∈ next :: later, '\n' ∉ line := fun line member => free line (List.mem_cons_of_mem _ member)
      rw [joinLines,splitFeeds_feed _ _ head,ih (List.cons_ne_nil _ _) tail]
      simp

theorem lines_open (last : List Char) (free : '\n' ∉ last) : lines last = if last = [] then [] else [last] := by
  induction last with
  | nil => rfl
  | cons c line ih =>
    have inner : '\n' ∉ line := List.not_mem_of_not_mem_cons free
    have other : c ≠ '\n' := (List.ne_of_not_mem_cons free).symm
    rw [lines,ih inner]
    · by_cases none : line = []
      · simp [none]
      · simp [none]
    · exact other
    · intro rest _ same
      exact inner (same ▸ List.mem_cons_self)

variable (front : List (List Char)) (last : List Char)

theorem lines_parts (free : ∀ line ∈ front, '\n' ∉ line) (open_ : '\n' ∉ last) :
    lines (ended front ++ last) = front.map dropCarriage ++ if last = [] then [] else [last] := by
  rw [lines_ended _ _ free,lines_open _ open_]

theorem splitFeeds_parts (free : ∀ line ∈ front, '\n' ∉ line) (open_ : '\n' ∉ last) :
    splitFeeds (ended front ++ last) = front ++ [last] := by
  induction front with
  | nil => exact splitFeeds_single last open_
  | cons line front ih =>
    have step : ended (line :: front) ++ last = line ++ '\n' :: (ended front ++ last) := by simp [ended]
    rw [step,splitFeeds_feed _ _ (free line List.mem_cons_self),
      ih fun line member => free line (List.mem_cons_of_mem _ member)]
    rfl

theorem join_parts : joinLines (front ++ [last]) = ended front ++ last := by
  induction front with
  | nil => rfl
  | cons line front ih =>
    cases whole : front ++ [last] with
    | nil => simp at whole
    | cons next later =>
      rw [List.cons_append,whole,joinLines,←whole,ih]
      · simp [ended]
      · exact List.cons_ne_nil _ _

end

def OneLine (s : String) : Prop := '\n' ∉ s.toList

instance : Decidable (OneLine s) := inferInstanceAs (Decidable ('\n' ∉ s.toList))

@[simp] theorem oneLine_append (s t : String) : OneLine (s ++ t) ↔ OneLine s ∧ OneLine t := by
  simp [OneLine,String.toList_append]

theorem digits_of_nat (n : Nat) : ∀ c ∈ (toString n).toList, c.isDigit = true := by
  intro c member
  have digit : c ∈ Nat.toDigits 10 n := by simpa [Nat.toString_eq_repr] using member
  exact Nat.isDigit_of_mem_toDigits (by decide) (by decide) digit

@[simp] theorem oneLine_nat (n : Nat) : OneLine n.repr := fun feed => absurd (digits_of_nat n _ feed) (by decide)

theorem length_splitFeeds (text : List Char) : (splitFeeds text).length = text.count '\n' + 1 := by
  fun_induction splitFeeds text with
  | case1 => rfl
  | case2 rest ih => simp [ih]
  | case3 c rest feed none ih => simp [none] at ih
  | case4 c rest feed piece later some ih =>
    rw [some] at ih
    rw [List.count_cons_of_ne feed]
    exact ih

theorem count_ended (rows : List (List Char)) : rows.length ≤ (ended rows).count '\n' ∧
    ((ended rows).count '\n' = rows.length ↔ ∀ row ∈ rows, '\n' ∉ row) := by
  induction rows with
  | nil => simp [ended]
  | cons row rows ih =>
    obtain ⟨bound,free⟩ := ih
    have step : ended (row :: rows) = row ++ ['\n'] ++ ended rows := rfl
    have feeds : (ended (row :: rows)).count '\n' = row.count '\n' + 1 + (ended rows).count '\n' := by
      rw [step,List.count_append,List.count_append,List.count_singleton_self]
    rw [feeds,List.forall_mem_cons,←free,←List.count_eq_zero,List.length_cons]
    omega

-- There are no more pieces than lines only where no line falls into two.
theorem length_splitFeeds_ended (rows : List (List Char)) :
    (splitFeeds (ended rows)).length = rows.length + 1 ↔ ∀ row ∈ rows, '\n' ∉ row := by
  rw [length_splitFeeds,←(count_ended rows).2]
  omega

end AutomationLint.Text
