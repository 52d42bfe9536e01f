import AutomationLint.Proofs.Text
import AutomationLint.Stream

namespace AutomationLint.Stream

variable (current : Section) (number offset : Nat) (line : Line) (front rest : List Line)

def Section.movedBy (s : Section) (offset : Nat) : Section := {s with firstLine := s.firstLine + offset}

theorem isMarker_iff (marker : List Char) : isMarker marker line = true ↔
    ∃ after, line = marker ++ after ∧ ∀ c ∈ after.head?, Text.isWhite c = true := by
  constructor
  · intro marked
    unfold isMarker at marked
    split at marked
    · rename_i stripped
      exact ⟨[],(stripStart?_eq_some _ _ _).mp stripped,by simp⟩
    · rename_i c after stripped
      exact ⟨c :: after,(stripStart?_eq_some _ _ _).mp stripped,by simpa using marked⟩
    · cases marked
  · intro marker
    obtain ⟨after,same,white⟩ := marker
    have stripped := (stripStart?_eq_some marker line after).mpr same
    cases after with
    | nil => simp [isMarker,stripped]
    | cons c after => simpa [isMarker,stripped] using white

theorem start_not_stop (start : isStart line = true) : ¬isStop line = true := by
  intro stop
  obtain ⟨after,same,_⟩ := (isMarker_iff _ _).mp start
  obtain ⟨other,equal,_⟩ := (isMarker_iff _ _).mp stop
  rw [same] at equal
  simp at equal

theorem isStop_dropCarriage (stop : isStop line = true) : isStop (Text.dropCarriage line) = true := by
  obtain ⟨after,rfl,white⟩ := (isMarker_iff _ _).mp stop
  refine (isMarker_iff _ _).mpr ⟨Text.dropCarriage after,Text.dropCarriage_append _ _ (by decide),?_⟩
  cases after with
  | nil => simp [Text.dropCarriage]
  | cons c after =>
    cases after with
    | nil =>
      by_cases carriage : c = '\r'
      · simp [Text.dropCarriage,carriage]
      · simpa [Text.dropCarriage,carriage] using white
    | cons d after => simpa [Text.dropCarriage] using white

theorem cut_cons : cut current number (line :: rest) =
    (step current number line).1 ++ cut (step current number line).2 (number + 1) rest := rfl

-- Sections once closed stay as they are. The last one is all that a later line
-- can still change.
theorem cut_append : ∃ closed last, cut current number front = closed ++ [last] ∧
    ∀ rest, cut current number (front ++ rest) = closed ++ cut last (number + front.length) rest := by
  induction front generalizing current number with
  | nil => exact ⟨[],current,rfl,fun rest => rfl⟩
  | cons line front ih =>
    obtain ⟨closed,last,alone,onward⟩ := ih (step current number line).2 (number + 1)
    refine ⟨(step current number line).1 ++ closed,last,?_,?_⟩
    · rw [cut_cons,alone,List.append_assoc]
    · intro rest
      have shifted : number + (line :: front).length = number + 1 + front.length := by
        simp only [List.length_cons]; omega
      rw [List.cons_append,cut_cons,onward,List.append_assoc,shifted]

theorem step_movedBy : step (current.movedBy offset) (number + offset) line =
    ((step current number line).1.map (·.movedBy offset),(step current number line).2.movedBy offset) := by
  unfold step
  split
  · rfl
  · split
    · simp [Section.movedBy,Nat.add_right_comm]
    · rfl

theorem cut_movedBy : cut (current.movedBy offset) (number + offset) rest =
    (cut current number rest).map (·.movedBy offset) := by
  induction rest generalizing current number with
  | nil => rfl
  | cons line rest ih =>
    have moved := ih (step current number line).2 (number + 1)
    rw [Nat.add_right_comm] at moved
    rw [cut_cons,cut_cons,step_movedBy,List.map_append,moved]

theorem cut_start (start : isStart line = true) : cut current number (line :: rest) =
    current :: cut ⟨number,true,[blankMarker line]⟩ (number + 1) rest := by
  simp [cut_cons,step,start]

theorem cut_stop (stop : isStop line = true) : cut current number (line :: rest) =
    current :: cut ⟨number + 1,false,[]⟩ (number + 1) rest := by
  have other : isStart line = false := Bool.eq_false_iff.mpr fun start => start_not_stop line start stop
  simp [cut_cons,step,stop,other]

-- What every section at hand, and every closed one, keeps true: each of its
-- lines is the source line of its number.
structure Placed (source : List Line) (s : Section) : Prop where
  lines : ∀ (j : Nat) (line : Line), s.lines[j]? = some line → ∃ original, source[s.firstLine + j]? = some original ∧
    if s.explicit && j == 0 then isStart original = true ∧ line = blankMarker original else line = original
  opened : s.explicit = true → s.lines ≠ []

theorem step_placed (source : List Line) (current : Section) (number : Nat) (line : Line)
    (placed : Placed source current) (reached : current.firstLine + current.lines.length = number)
    (here : source[number]? = some line) :
    (∀ s ∈ (step current number line).1, Placed source s) ∧ Placed source (step current number line).2 ∧
      (step current number line).2.firstLine + (step current number line).2.lines.length = number + 1 := by
  unfold step
  split
  · rename_i start
    refine ⟨by simpa using placed,⟨?_,by simp⟩,rfl⟩
    intro j found isThere
    cases j with
    | zero =>
      cases Option.some.inj isThere
      exact ⟨line,here,by simpa using start⟩
    | succ j => simp at isThere
  · split
    · exact ⟨by simpa using placed,⟨by simp,by simp⟩,rfl⟩
    · refine ⟨by simp,⟨?_,by simp⟩,?_⟩
      · intro j found isThere
        by_cases old : j < current.lines.length
        · rw [List.getElem?_append_left old] at isThere
          exact placed.lines j found isThere
        · have last : j = current.lines.length := by
            have bound := (List.getElem?_eq_some_iff.mp isThere).1
            simp only [List.length_append,List.length_singleton] at bound
            omega
          subst last
          have inner : (current.explicit && current.lines.length == 0) = false := by
            cases explicit : current.explicit with
            | false => rfl
            | true => simpa using placed.opened explicit
          rw [List.getElem?_concat_length] at isThere
          refine ⟨line,by simpa [reached] using here,?_⟩
          simpa [inner] using (Option.some.inj isThere).symm
      · simp only [List.length_append,List.length_singleton]
        omega

theorem cut_placed (source : List Line) (current : Section) (number : Nat) (rest : List Line)
    (placed : Placed source current) (reached : current.firstLine + current.lines.length = number)
    (ahead : ∀ i : Nat, rest[i]? = source[number + i]?) : ∀ s ∈ cut current number rest, Placed source s := by
  induction rest generalizing current number with
  | nil => simpa [cut] using placed
  | cons line rest ih =>
    have here : source[number]? = some line := by simpa using (ahead 0).symm
    obtain ⟨closed,next,onward⟩ := step_placed source current number line placed reached here
    intro s member
    rw [cut_cons] at member
    rcases List.mem_append.mp member with old | later
    · exact closed s old
    · refine ih _ _ next onward ?_ s later
      intro i
      have shifted := ahead (i + 1)
      rwa [List.getElem?_cons_succ,←Nat.add_assoc,Nat.add_right_comm] at shifted

theorem sections_placed (text : List Char) : ∀ s ∈ sections text, Placed (Text.lines text) s :=
  cut_placed _ _ _ _ ⟨by simp,by simp⟩ rfl fun i => by rw [Nat.zero_add]

theorem section_rows (text : List Char) (s : Section) (member : s ∈ sections text) :
    s.rows = s.lines.map Text.dropCarriage := by
  have free : ∀ line ∈ s.lines, '\n' ∉ line := by
    intro line inside
    obtain ⟨j,isThere⟩ := List.mem_iff_getElem?.mp inside
    obtain ⟨original,found,shown⟩ := (sections_placed text s member).lines j line isThere
    have source := Text.lines_free text original (List.mem_of_getElem? found)
    split at shown
    · rw [shown.2]
      simpa [blankMarker] using fun dropped => source (List.mem_of_mem_drop dropped)
    · rwa [shown]
  have whole := Text.lines_ended s.lines [] free
  rwa [List.append_nil,Text.lines,List.append_nil] at whole

end AutomationLint.Stream
