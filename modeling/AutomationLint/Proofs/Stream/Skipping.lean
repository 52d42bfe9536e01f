import AutomationLint.Proofs.Stream.Transparency
import AutomationLint.Proofs.Yaml.Scan.Unseen
import AutomationLint.Proofs.Yaml.Stray

namespace AutomationLint.Stream

def pale (inComment : Bool) : List Char → Bool
  | [] => true
  | c :: rest =>
    if c == '\n' then pale false rest
    else if inComment then pale true rest
    else if c == '#' then pale true rest
    else Text.isWhite c && pale false rest

-- The first character that is not white starts a comment. White to the stream
-- is more than blank to the reader, and a comment is shorter for the reader,
-- which ends it at a carriage return too.
def Silent (row : Line) : Prop := ∀ c, (row.find? fun c => !Text.isWhite c) = some c → c = '#'

variable {s : Section} {row : Line} {rest : List Char}

theorem silent_row (silent : Section.isContent row = false) (plain : Section.isDirective row = false) : Silent row := by
  intro c first
  have blank : Text.isBlank row = false := by rw [isBlank_eq_isNone,first]; rfl
  rw [Section.isContent,blank,plain,head?_trim,first] at silent
  simpa using silent

theorem bodyLines_silent (silent : s.hasContent = false) : ∀ row ∈ s.bodyLines, Silent row := by
  intro row member
  obtain ⟨source,inside,rfl⟩ := List.mem_map.mp member
  split
  · exact fun _ => nofun
  · rename_i plain
    refine silent_row ?_ (Bool.eq_false_iff.mpr plain)
    exact List.any_eq_false.mp silent source inside |> Bool.eq_false_iff.mpr

theorem pale_comment (free : '\n' ∉ row) (behind : pale false rest = true) : pale true (row ++ '\n' :: rest) = true := by
  induction row with
  | nil => simpa [pale] using behind
  | cons c row ih =>
    have plain : (c == '\n') = false := beq_eq_false_iff_ne.mpr (List.ne_of_not_mem_cons free).symm
    simpa [pale,plain] using ih (List.not_mem_of_not_mem_cons free)

theorem pale_row (free : '\n' ∉ row) (silent : Silent row) (behind : pale false rest = true) :
    pale false (row ++ '\n' :: rest) = true := by
  induction row with
  | nil => simpa [pale] using behind
  | cons c row ih =>
    have plain : (c == '\n') = false := beq_eq_false_iff_ne.mpr (List.ne_of_not_mem_cons free).symm
    have inner := List.not_mem_of_not_mem_cons free
    cases white : Text.isWhite c with
    | true =>
      have later : Silent row := fun d first => silent d (by simp [white,first])
      have other : (c == '#') = false := beq_eq_false_iff_ne.mpr (by rintro rfl; exact absurd white (by decide))
      simpa [pale,plain,white,other] using ih inner later
    | false =>
      obtain rfl := silent c (by simp [white])
      simpa [pale] using pale_comment inner behind

theorem pale_ended (rows : List Line) (free : ∀ row ∈ rows, '\n' ∉ row) (silent : ∀ row ∈ rows, Silent row) :
    pale false (Text.ended rows) = true := by
  induction rows with
  | nil => rfl
  | cons row rows ih =>
    have behind := ih (fun r member => free r (List.mem_cons_of_mem _ member))
      fun r member => silent r (List.mem_cons_of_mem _ member)
    have whole : Text.ended (row :: rows) = row ++ '\n' :: Text.ended rows := by simp [Text.ended]
    rw [whole]
    exact pale_row (free row List.mem_cons_self) (silent row List.mem_cons_self) behind

theorem pale_front (front behind : List Char) (inComment : Bool) (whole : pale inComment (front ++ behind) = true) :
    pale inComment front = true := by
  induction front generalizing inComment with
  | nil => rfl
  | cons c front ih =>
    rw [List.cons_append,pale] at whole
    rw [pale]
    split
    · rename_i feed
      rw [if_pos feed] at whole
      exact ih false whole
    · rename_i feed
      rw [if_neg feed] at whole
      split
      · rename_i comment
        rw [if_pos comment] at whole
        exact ih true whole
      · rename_i outside
        rw [if_neg outside] at whole
        split
        · rename_i comment
          rw [if_pos comment] at whole
          exact ih true whole
        · rename_i other
          rw [if_neg other,Bool.and_eq_true] at whole
          rw [whole.1,Bool.true_and]
          exact ih false whole.2

theorem seen_pale {text : List Char} (inComment : Bool) (whole : pale inComment text = true) (returnless : '\r' ∉ text)
    (c : Char) (first : (Yaml.seen inComment text).head? = some c) : Yaml.isStray c = true ∧ c ∈ text := by
  induction text generalizing inComment with
  | nil => cases first
  | cons d text ih =>
    have later (inComment : Bool) (whole : pale inComment text = true)
        (first : (Yaml.seen inComment text).head? = some c) : Yaml.isStray c = true ∧ c ∈ d :: text :=
      (ih inComment whole (List.not_mem_of_not_mem_cons returnless) first).imp_right (List.mem_cons_of_mem _)
    have feeds : Yaml.isBreak d = (d == '\n') := by
      have other : (d == '\r') = false := beq_eq_false_iff_ne.mpr (List.ne_of_not_mem_cons returnless).symm
      rw [Yaml.isBreak,other,Bool.or_false]
    rw [pale] at whole
    rw [Yaml.seen,feeds] at first
    split at first
    · rename_i feed
      rw [if_pos feed] at whole
      exact later false whole first
    · rename_i feed
      rw [if_neg feed] at whole
      split at first
      · rename_i comment
        rw [if_pos comment] at whole
        exact later true whole first
      · rename_i outside
        rw [if_neg outside] at whole
        split at first
        · rename_i blank
          have other : ¬(d == '#') = true := by
            intro same
            rw [beq_iff_eq.mp same] at blank
            exact absurd blank (by decide)
          rw [if_neg other,Bool.and_eq_true] at whole
          exact later false whole.2 first
        · rename_i blank
          split at first
          · rename_i comment
            rw [if_pos comment] at whole
            exact later true whole first
          · rename_i other
            rw [if_neg other,Bool.and_eq_true] at whole
            cases Option.some.inj first
            refine ⟨?_,List.mem_cons_self⟩
            rw [Yaml.isStray,whole.1,feeds,Bool.eq_false_iff.mpr blank,Bool.eq_false_iff.mpr feed]
            rfl

theorem mem_joinLines (rows : List Line) (c : Char) (member : c ∈ Text.joinLines rows) :
    c = '\n' ∨ ∃ row ∈ rows, c ∈ row := by
  induction rows with
  | nil => cases member
  | cons row rows ih =>
    cases rows with
    | nil => exact .inr ⟨row,List.mem_cons_self,member⟩
    | cons next more =>
      have parts : c ∈ row ++ '\n' :: Text.joinLines (next :: more) := member
      rw [List.mem_append,List.mem_cons] at parts
      rcases parts with here | feed | later
      · exact .inr ⟨row,List.mem_cons_self,here⟩
      · exact .inl feed
      · exact (ih later).imp_right fun ⟨row,inside,there⟩ => ⟨row,List.mem_cons_of_mem _ inside,there⟩

theorem mem_body (c : Char) (member : c ∈ s.body) : c = '\n' ∨ ∃ row ∈ s.rows, c ∈ row := by
  refine (mem_joinLines _ c member).imp_right ?_
  rintro ⟨shown,inside,there⟩
  obtain ⟨row,source,rfl⟩ := List.mem_map.mp inside
  split at there
  · cases there
  · exact ⟨row,source,there⟩

theorem body_pale (silent : s.hasContent = false) : pale false s.body = true := by
  have free : ∀ row ∈ s.bodyLines, '\n' ∉ row := by
    intro row member
    obtain ⟨source,inside,rfl⟩ := List.mem_map.mp member
    split
    · exact List.not_mem_nil
    · exact Text.lines_free s.text source inside
  have whole := pale_ended s.bodyLines free (bodyLines_silent silent)
  rw [Section.body]
  rcases List.eq_nil_or_concat s.bodyLines with none | ⟨front,last,rows⟩
  · rw [none]
    rfl
  · rw [rows,List.concat_eq_append] at whole ⊢
    have ended : Text.ended (front ++ [last]) = Text.joinLines (front ++ [last]) ++ ['\n'] := by
      rw [Text.join_parts]
      simp [Text.ended]
    exact pale_front _ ['\n'] false (ended ▸ whole)

theorem seen_stray (silent : s.hasContent = false) (returnless : ∀ row ∈ s.rows, '\r' ∉ row) (c : Char)
    (first : (Yaml.seen false (Yaml.pageText (Yaml.page s.body))).head? = some c) :
    Yaml.isStray c = true ∧ ∃ row ∈ s.rows, c ∈ row := by
  have whole := body_pale silent
  have unmarked : s.body.head? ≠ some '\uFEFF' := by
    intro mark
    obtain ⟨rest,same⟩ := List.head?_eq_some_iff.mp mark
    rw [same] at whole
    cases whole
  have split := List.takeWhile_append_dropWhile (p := (· != '\x00')) (l := s.body)
  rw [Yaml.pageText_other _ unmarked] at first
  have carriage : '\r' ∉ s.body := fun inside => (mem_body '\r' inside).elim nofun fun ⟨row,there,member⟩ =>
    returnless row there member
  obtain ⟨stray,member⟩ := seen_pale false (pale_front _ _ false (split.symm ▸ whole))
    (fun inside => carriage (List.takeWhile_subset _ inside)) c first
  refine ⟨stray,(mem_body c (List.takeWhile_subset _ member)).resolve_left ?_⟩
  rintro rfl
  exact absurd stray (by decide)

theorem skipped_exactly (s : Section) (silent : s.hasContent = false) :
    ((∀ row ∈ s.rows, ∀ c ∈ row, Text.isWhite c = true → Yaml.isBlank c = true) → Yaml.read s.body = .ok none) ∧
    (Yaml.Unseen s.body → Yaml.read s.body = .ok none) ∧
    ((∀ row ∈ s.rows, '\r' ∉ row) →
      ((∃ t, Yaml.read s.body = .ok t ∧ t.getD .null = .null) ↔ Yaml.Unseen s.body)) := by
  refine ⟨?_,Yaml.read_unseen s.body,?_⟩
  · intro blanks
    refine Yaml.read_unseen s.body ?_
    have returnless : ∀ row ∈ s.rows, '\r' ∉ row := fun row there carriage =>
      absurd (blanks row there '\r' carriage (by decide)) (by decide)
    refine List.head?_eq_none_iff.mp (Option.eq_none_iff_forall_ne_some.mpr fun c first => ?_)
    obtain ⟨stray,row,there,member⟩ := seen_stray silent returnless c first
    simp only [Yaml.isStray,Bool.and_eq_true,Bool.not_eq_true'] at stray
    exact absurd (blanks row there c member stray.1.1) (by rw [stray.1.2]; decide)
  · intro returnless
    constructor
    · rintro ⟨t,answer,null⟩
      refine List.head?_eq_none_iff.mp (Option.eq_none_iff_forall_ne_some.mpr fun c first => ?_)
      exact Yaml.read_stray s.body (seen_stray silent returnless c first).1 first t answer null
    · exact fun unseen => ⟨none,Yaml.read_unseen s.body unseen,rfl⟩

theorem skipped_exactly_comments :
    let s : Section := ⟨3,true,["    # a".toList,"%TAG ! x".toList,"\t# b\u00A0c".toList,[]]⟩
    s.hasContent = false ∧ Yaml.Unseen s.body ∧ Yaml.read s.body = .ok none ∧
      ∃ t, Yaml.read s.body = .ok t ∧ t.getD .null = .null := by
  intro s
  have silent : s.hasContent = false := by decide +kernel
  have unseen : Yaml.Unseen s.body := by decide +kernel
  obtain ⟨_,skipped,exact⟩ := skipped_exactly s silent
  exact ⟨silent,unseen,skipped unseen,(exact (by decide +kernel)).mpr unseen⟩

-- A carriage return ends a comment for the reader only; a no-break space is
-- white space for the stream only.
theorem skipped_value_lost :
    let one := "# c\ra: 1\n".toList
    let other := "---\n\u00A0\n".toList
    (∃ s ∈ sections one, s.hasContent = false ∧ s.isDocument = false ∧
      (Yaml.read s.body).toOption = some (some (.map [("a",.int 1)])) ∧ (documents Yaml.read one).toOption = some []) ∧
    ∃ s ∈ sections other, s.hasContent = false ∧ s.explicit = true ∧
      (Yaml.read s.body).toOption = some (some (.str "\u00A0")) ∧ (documents Yaml.read other).toOption = some [.null] := by
  intro one other
  refine ⟨⟨⟨0,false,["# c\ra: 1".toList]⟩,?_⟩,⟨0,true,["   ".toList,"\u00A0".toList]⟩,?_⟩
  · decide +kernel
  · decide +kernel

end AutomationLint.Stream
