import AutomationLint.Proofs.Text
import AutomationLint.Stream

namespace AutomationLint

structure Trimmed (text : List Char) : Prop where
  free : '\n' ∉ text
  first : ∃ c, text.head? = some c ∧ Text.isWhite c = false
  last : ∃ c, text.getLast? = some c ∧ Text.isWhite c = false

-- A line feed is white, but it ends the line, so it is no padding.
def Padding (text : List Char) : Prop := ∀ c ∈ text, Text.isWhite c = true ∧ c ≠ '\n'

-- What a report may open with, before it tells its place. The place ends at
-- the first colon that a blank follows, whatever colons the message has; so
-- where there is a place, nothing is asked of the message.
inductive LeadIn : List Char → Prop where
  | blanks (only : Padding front) : LeadIn front
  | error (before : Padding front) (after : Padding gap) : LeadIn (front ++ ("error:".toList ++ gap))

inductive Behind : List Char → Prop where
  | nothing : Behind []
  | feed : Behind ('\n' :: rest)
  | carriage : Behind ('\r' :: '\n' :: rest)

def placeOf (line column : Nat) : List Char := ("line " ++ toString line ++ " column " ++ toString column).toList

def located (line column : Nat) (message : List Char) : List Char := placeOf line column ++ ": ".toList ++ message

def afterError (first : List Char) : List Char :=
  match stripStart? "error:".toList first with
  | some rest => Text.trimStart rest
  | none => first

def afterPlace (first : List Char) : List Char :=
  match splitColon? first with
  | some (place,message) => if (stripStart? "line ".toList place).isSome then message else first
  | none => first

theorem headline_cuts (report : List Char) :
    headline report = afterPlace (afterError (Text.trim ((Text.lines report).headD []))) := rfl

@[simp] theorem stripStart?_append (start rest : List Char) : stripStart? start (start ++ rest) = some rest :=
  (stripStart?_eq_some start _ rest).mpr rfl

theorem stripStart?_eq_none {start text : List Char} (other : ¬start <+: text) : stripStart? start text = none := by
  cases found : stripStart? start text with
  | none => rfl
  | some rest => exact absurd ⟨rest,((stripStart?_eq_some start text rest).mp found).symm⟩ other

theorem splitColon?_parts (text : List Char) : ∀ before after, splitColon? text = some (before,after) →
    text = before ++ ": ".toList ++ after := by
  fun_induction splitColon? text with
  | case1 => nofun
  | case2 rest =>
    intro before after same
    cases same
    rfl
  | case3 c rest _ ih =>
    intro before after same
    obtain ⟨⟨front,last⟩,found,pair⟩ := Option.map_eq_some_iff.mp same
    cases pair
    rw [ih front after found]
    rfl

theorem splitColon?_first (before after : List Char) (free : ':' ∉ before) :
    splitColon? (before ++ ": ".toList ++ after) = some (before,after) := by
  induction before with
  | nil => rfl
  | cons c before ih =>
    have other : c ≠ ':' := (List.ne_of_not_mem_cons free).symm
    have inner := ih (List.not_mem_of_not_mem_cons free)
    rw [List.cons_append,List.cons_append,splitColon?,inner]
    · rfl
    · rintro rest rfl
      exact absurd rfl other

theorem trim_sublist (line : List Char) : (Text.trim line).Sublist line := by
  have end_ : ∀ cs : List Char, (Text.trimEnd cs).Sublist cs := by
    intro cs
    have reversed := (List.dropWhile_sublist (l := cs.reverse) Text.isWhite).reverse
    rwa [List.reverse_reverse] at reversed
  exact (end_ _).trans (List.dropWhile_sublist _)

theorem afterError_sublist (first : List Char) : (afterError first).Sublist first := by
  unfold afterError
  split
  · rename_i rest found
    rw [(stripStart?_eq_some _ _ _).mp found]
    exact (List.dropWhile_sublist _).trans (List.sublist_append_right _ _)
  · exact List.Sublist.refl _

theorem afterPlace_sublist (first : List Char) : (afterPlace first).Sublist first := by
  unfold afterPlace
  split
  · rename_i place message found
    split
    · rw [splitColon?_parts _ _ _ found]
      exact List.sublist_append_right _ _
    · exact List.Sublist.refl _
  · exact List.Sublist.refl _

theorem headline_sublist (report : List Char) : (headline report).Sublist ((Text.lines report).headD []) := by
  rw [headline_cuts]
  exact ((afterPlace_sublist _).trans (afterError_sublist _)).trans (trim_sublist _)

theorem headline_free (report : List Char) : '\n' ∉ headline report := by
  intro feed
  have first := (headline_sublist report).subset feed
  cases all : Text.lines report with
  | nil => simp [all] at first
  | cons line later =>
    rw [all] at first
    exact Text.lines_free report line (all ▸ List.mem_cons_self) first

variable {front core behind message : List Char}

theorem Trimmed.ne_nil (trimmed : Trimmed core) : core ≠ [] := by
  obtain ⟨c,there,_⟩ := trimmed.first
  rintro rfl
  cases there

theorem Padding.free (padding : Padding front) : '\n' ∉ front := fun member => (padding _ member).2 rfl

theorem trimStart_padding (padding : Padding front) (trimmed : Trimmed core) : Text.trimStart (front ++ core) = core := by
  obtain ⟨c,there,visible⟩ := trimmed.first
  obtain ⟨rest,rfl⟩ := List.head?_eq_some_iff.mp there
  rw [Text.trimStart,List.dropWhile_append_of_pos fun c member => (padding c member).1,List.dropWhile_cons_of_neg]
  simp [visible]

theorem trimEnd_trimmed (trimmed : Trimmed core) : Text.trimEnd core = core := by
  obtain ⟨c,there,visible⟩ := trimmed.last
  obtain ⟨rest,rfl⟩ := List.getLast?_eq_some_iff.mp there
  simp [Text.trimEnd,visible]

theorem trim_padding (padding : Padding front) (trimmed : Trimmed core) : Text.trim (front ++ core) = core := by
  rw [Text.trim,trimStart_padding padding trimmed,trimEnd_trimmed trimmed]

theorem Trimmed.prepend (trimmed : Trimmed core) (free : '\n' ∉ front)
    (first : ∃ c, front.head? = some c ∧ Text.isWhite c = false) : Trimmed (front ++ core) := by
  obtain ⟨c,there,visible⟩ := first
  obtain ⟨d,ends,seen⟩ := trimmed.last
  refine ⟨?_,⟨c,?_,visible⟩,d,?_,seen⟩
  · exact fun member => (List.mem_append.mp member).elim free trimmed.free
  · rw [List.head?_append,there]
    rfl
  · rw [List.getLast?_append,ends]
    rfl

theorem first_line (free : '\n' ∉ front) (trimmed : Trimmed core) (after : Behind behind) :
    (Text.lines (front ++ core ++ behind)).headD [] = front ++ core := by
  obtain ⟨c,ends,visible⟩ := trimmed.last
  have open_ : '\n' ∉ front ++ core := fun member => (List.mem_append.mp member).elim free trimmed.free
  -- A carriage return is white, so what is trimmed does not lose one to the end of its line.
  have uncut : Text.dropCarriage (front ++ core) = front ++ core := by
    rw [Text.dropCarriage_eq_self,List.getLast?_append,ends]
    rintro ⟨⟩
    exact absurd visible (by decide)
  cases after with
  | nothing =>
    rw [List.append_nil,Text.lines_open _ open_,if_neg (by simp [trimmed.ne_nil])]
    rfl
  | feed =>
    rw [Text.lines_feed _ _ open_,uncut]
    rfl
  | @carriage rest =>
    have returned : '\n' ∉ front ++ core ++ ['\r'] := by simpa using open_
    have row : front ++ core ++ '\r' :: '\n' :: rest = front ++ core ++ ['\r'] ++ '\n' :: rest := by simp
    rw [row,Text.lines_feed _ _ returned,Text.dropCarriage_concat]
    rfl

theorem headline_core (lead : LeadIn front) (trimmed : Trimmed core) (after : Behind behind)
    (other : ¬"error:".toList <+: core) : headline (front ++ core ++ behind) = afterPlace core := by
  rw [headline_cuts]
  congr 1
  cases lead with
  | blanks only =>
    rw [first_line only.free trimmed after,trim_padding only trimmed,afterError,stripStart?_eq_none other]
  | @error front gap before padding =>
    have word : '\n' ∉ "error:".toList := by decide
    have whole : Trimmed ("error:".toList ++ gap ++ core) :=
      trimmed.prepend (fun member => (List.mem_append.mp member).elim word padding.free) ⟨'e',rfl,by decide⟩
    have row : front ++ ("error:".toList ++ gap) ++ core = front ++ ("error:".toList ++ gap ++ core) := by
      simp only [List.append_assoc]
    rw [row,first_line before.free whole after,trim_padding before whole,List.append_assoc,afterError,
      stripStart?_append]
    exact trimStart_padding padding trimmed

theorem placeOf_plain (line column : Nat) : ':' ∉ placeOf line column ∧ '\n' ∉ placeOf line column := by
  have apart : ∀ c, c.isDigit = false → c ∉ "line ".toList → c ∉ " column ".toList → c ∉ placeOf line column := by
    intro c plain first second
    have other : ∀ n : Nat, c ∉ (toString n).toList := fun n member => by simp [Text.digits_of_nat n c member] at plain
    simp only [placeOf,String.toList_append,List.mem_append,not_or]
    exact ⟨⟨⟨first,other line⟩,second⟩,other column⟩
  exact ⟨apart ':' rfl (by decide) (by decide),apart '\n' rfl (by decide) (by decide)⟩

theorem placeOf_start (line column : Nat) : ∃ rest, placeOf line column = "line ".toList ++ rest :=
  ⟨(toString line ++ " column " ++ toString column).toList,by simp [placeOf,String.toList_append]⟩

theorem located_trimmed (line column : Nat) (trimmed : Trimmed message) : Trimmed (located line column message) := by
  obtain ⟨rest,start⟩ := placeOf_start line column
  have colon : '\n' ∉ ": ".toList := by decide
  refine trimmed.prepend ?_ ⟨'l',by rw [start]; rfl,by decide⟩
  exact fun member => (List.mem_append.mp member).elim (placeOf_plain line column).2 colon

theorem afterPlace_located (line column : Nat) (message : List Char) :
    afterPlace (located line column message) = message := by
  obtain ⟨rest,start⟩ := placeOf_start line column
  rw [afterPlace,located,splitColon?_first _ _ (placeOf_plain line column).1]
  simp only [start,stripStart?_append,Option.isSome_some,if_true]

-- A colon in a message ends no place where the message does not begin like
-- one.
theorem afterPlace_other (other : ¬"line ".toList <+: message) : afterPlace message = message := by
  unfold afterPlace
  split
  · rename_i place rest found
    have part : place <+: message := by
      rw [splitColon?_parts _ _ _ found,List.append_assoc]
      exact List.prefix_append _ _
    have unplaced : ¬"line ".toList <+: place := fun starts => other (starts.trans part)
    rw [stripStart?_eq_none unplaced]
    rfl
  · rfl

theorem headline_is_message :
    (∀ report, '\n' ∉ headline report) ∧
    ∀ front message behind, LeadIn front → Trimmed message → Behind behind →
      (∀ line column, headline (front ++ located line column message ++ behind) = message) ∧
      (¬"line ".toList <+: message → ¬"error:".toList <+: message → headline (front ++ message ++ behind) = message) := by
  refine ⟨headline_free,?_⟩
  intro front message behind lead trimmed after
  refine ⟨?_,?_⟩
  · intro line column
    have placed : ¬"error:".toList <+: located line column message := by
      obtain ⟨rest,start⟩ := placeOf_start line column
      rw [located,start]
      rintro ⟨later,same⟩
      exact absurd (List.cons.inj same).1 (by decide)
    rw [headline_core lead (located_trimmed line column trimmed) after placed,afterPlace_located]
  · intro unplaced unmarked
    rw [headline_core lead trimmed after unmarked,afterPlace_other unplaced]

theorem headline_is_message_twice_placed :
    let front := "\u00a0error:\t".toList
    let message := "line 2: error: unclosed bracket".toList
    let behind := "\r\n  |\n1 | key: 1".toList
    (LeadIn front ∧ Trimmed message ∧ Behind behind) ∧ front ++ located 1 6 message ++ behind =
        "\u00a0error:\tline 1 column 6: line 2: error: unclosed bracket\r\n  |\n1 | key: 1".toList ∧
      headline (front ++ located 1 6 message ++ behind) = message ∧
      headline "unexpected end: none".toList = "unexpected end: none".toList := by
  intro front message behind
  have single : ∀ c, Text.isWhite c = true → c ≠ '\n' → Padding [c] := by
    intro c white other d member
    cases List.mem_singleton.mp member
    exact ⟨white,other⟩
  have blank : Padding "\u00a0".toList := single '\u00a0' (by decide) (by decide)
  have gap : Padding "\t".toList := single '\t' (by decide) (by decide)
  have lead : LeadIn front := .error blank gap
  have trimmed : Trimmed message := ⟨by decide,⟨'l',rfl,by decide⟩,'t',rfl,by decide⟩
  have after : Behind behind := .carriage
  have plain : Trimmed "unexpected end: none".toList := ⟨by decide,⟨'u',rfl,by decide⟩,'e',rfl,by decide⟩
  obtain ⟨_,each⟩ := headline_is_message
  refine ⟨⟨lead,trimmed,after⟩,by decide +kernel,(each front message behind lead trimmed after).1 1 6,?_⟩
  have alone := (each [] _ [] (.blanks nofun) plain .nothing).2 (by decide) (by decide)
  simpa using alone

end AutomationLint
