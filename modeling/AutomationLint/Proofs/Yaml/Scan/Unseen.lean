import AutomationLint.Proofs.Yaml.Scan.Trees
import AutomationLint.Yaml.Reader

namespace AutomationLint.Yaml

section

variable (body : List Char)

theorem dropMark_other (other : body.head? ≠ some '\uFEFF') : dropMark body = body := by
  unfold dropMark
  split
  · exact absurd rfl other
  · rfl

theorem dropMark_length : (dropMark body).length ≤ body.length := by
  unfold dropMark
  split <;> simp

theorem pageText_other (other : body.head? ≠ some '\uFEFF') :
    pageText (page body) = body.takeWhile (· != '\x00') := by
  rw [page,dropMark_other body other,pageText,dropMark_other body other]

theorem pageText_body {body : List Char} (mark : body.head? ≠ some '\uFEFF') (null : '\x00' ∉ body) :
    page body = body ∧ pageText body = body := by
  refine ⟨dropMark_other body mark,?_⟩
  rw [pageText,dropMark_other body mark]
  have kept : ∀ c ∈ body, (c != '\x00') = true := fun c member => bne_iff_ne.mpr fun equal => null (equal ▸ member)
  have whole : (body ++ []).takeWhile (· != '\x00') = body ++ [].takeWhile (· != '\x00') :=
    List.takeWhile_append_of_pos kept
  simpa using whole

end

section

-- The text from its first character outside of blanks, breaks and comments on.
-- Blanks are two characters for the reader, breaks are two more, and a comment
-- goes on to the next break of either kind.
def seen (inComment : Bool) : List Char → List Char
  | [] => []
  | c :: rest =>
    if isBreak c then seen false rest
    else if inComment then seen true rest
    else if isBlank c then seen false rest
    else if c == '#' then seen true rest
    else c :: rest

def Unseen (body : List Char) : Prop := seen false (pageText (page body)) = []

instance : Decidable (Unseen body) := instDecidableEqList _ _

theorem seen_break (c : Char) (rest : List Char) (feed : isBreak c = true) (inComment : Bool) :
    seen inComment (c :: rest) = seen false rest := by
  simp [seen,feed]

theorem seen_comment (text : List Char) : seen true text = seen false (text.dropWhile fun c => !isBreak c) := by
  induction text with
  | nil => rfl
  | cons c rest ih =>
    cases feed : isBreak c with
    | true => simp [seen,feed]
    | false => simpa [seen,feed] using ih

theorem Cursor.rest_skipBreak {cur : Cursor} {c : Char} {rest : List Char} (there : cur.rest = c :: rest)
    (feed : isBreak c = true) :
    seen false cur.skipBreak.rest = seen false rest ∧ cur.skipBreak.rest.length ≤ rest.length := by
  unfold Cursor.skipBreak
  split
  · rename_i same
    cases there.symm.trans same
    exact ⟨(seen_break '\n' _ rfl false).symm,Nat.le_succ _⟩
  · rename_i same
    cases there.symm.trans same
    exact ⟨rfl,Nat.le_refl _⟩
  · rename_i same
    cases there.symm.trans same
    exact ⟨rfl,Nat.le_refl _⟩
  · rename_i carriage line
    rw [there] at carriage line
    rcases (by simpa [isBreak] using feed : c = '\n' ∨ c = '\r') with rfl | rfl
    · exact absurd rfl (line rest)
    · exact absurd rfl (carriage rest)

@[simp] theorem Cursor.rest_skipWhile (cur : Cursor) (p : Char → Bool) : (cur.skipWhile p).rest = cur.rest.dropWhile p := by
  have split := List.takeWhile_append_dropWhile (p := p) (l := cur.rest)
  exact Cursor.rest_skip split.symm

namespace Scan

variable {s : Scan}

theorem Moved.refl (s : Scan) : Moved s s := ⟨rfl,rfl,rfl,rfl,rfl,rfl,rfl,rfl,fun _ => rfl⟩

theorem skipToToken_seen (fuel : Nat) (enough : s.cur.rest.length ≤ fuel) (levels : s.indents = []) :
    ∃ t, skipToToken fuel s = .ok t ∧ Moved s t ∧ t.cur.rest = seen false s.cur.rest := by
  induction fuel generalizing s with
  | zero =>
    have nothing := List.eq_nil_of_length_eq_zero (Nat.le_zero.mp enough)
    exact ⟨s,rfl,.refl s,by rw [nothing]; rfl⟩
  | succ fuel ih =>
    -- What is passed over first leads to a state from which the rest is passed over.
    have onward (t : Scan) (moved : Moved s t) (shorter : t.cur.rest.length < s.cur.rest.length)
        (same : seen false t.cur.rest = seen false s.cur.rest) :
        ∃ u, skipToToken fuel t = .ok u ∧ Moved s u ∧ u.cur.rest = seen false s.cur.rest := by
      obtain ⟨u,skipped,more,left⟩ := ih (s := t) (by omega) (moved.levels.trans levels)
      exact ⟨u,skipped,moved.trans more,left.trans same⟩
    rw [skipToToken]
    cases there : s.cur.rest with
    | nil => exact ⟨s,by simp [Cursor.peek,there],.refl s,by rw [there]; rfl⟩
    | cons c rest =>
      rw [there] at onward
      have peek : s.cur.peek = some c := by simp [Cursor.peek,there]
      have tabs : (c == '\t' && !s.indents.isEmpty && s.lineStart && decide (s.column < s.indent)) = false := by
        simp [levels]
      simp only [peek,tabs]
      split
      · rename_i feed
        obtain ⟨same,shorter⟩ := Cursor.rest_skipBreak there feed
        refine onward s.newLine ⟨rfl,rfl,rfl,rfl,rfl,rfl,rfl,rfl,fun _ => rfl⟩ ?_ ?_
        · exact Nat.lt_succ_of_le shorter
        · rw [seen_break c rest feed]
          exact same
      · rename_i feed
        split
        · rename_i impossible
          cases impossible
        · split
          · rename_i blank
            refine onward {s with cur := s.cur.skip 1} ⟨rfl,rfl,rfl,rfl,rfl,rfl,rfl,rfl,fun _ => rfl⟩ ?_ ?_
            · simp [Cursor.skip,there]
            · simp [Cursor.skip,there,seen,feed,blank]
          · rename_i blank
            split
            · rename_i comment
              have past : s.cur.skipComment.rest = rest.dropWhile fun ch => !isBreak ch := by
                rw [Cursor.skipComment,Cursor.rest_skipWhile,there]
                simp [feed]
              refine onward {s with cur := s.cur.skipComment} ⟨rfl,rfl,rfl,rfl,rfl,rfl,rfl,rfl,fun _ => rfl⟩ ?_ ?_
              · rw [past]
                exact Nat.lt_succ_of_le (List.dropWhile_sublist _).length_le
              · rw [past,←seen_comment]
                simp [seen,feed,blank,comment]
            · rename_i comment
              exact ⟨s,rfl,.refl s,by simp [there,seen,feed,blank,comment]⟩

theorem expireKey_idle (idle : s.key.possible = false) : s.expireKey = .ok s := by simp [expireKey,idle]

theorem start_settled (text : List Char) :
    ∃ t, (start text).settle = .ok t ∧ Moved (start text) t ∧ t.cur.rest = seen false text := by
  have expired : (start text).expireKey = .ok (start text) := expireKey_idle rfl
  obtain ⟨t,skipped,moved,left⟩ := skipToToken_seen (s := (start text).release) (text.length + 1) (Nat.le_succ _) rfl
  have next : (start text).release.toNextToken = .ok t := toNextToken_of_skip skipped moved.comment
  have idle : t.key.possible = false := by
    cases possible : t.key.possible with
    | false => rfl
    | true =>
      rw [moved.key possible] at possible
      exact possible.symm
  have again : t.expireKey = .ok t := expireKey_idle idle
  exact ⟨t,by simp only [settle,expired,next,again],⟨moved.tokens,moved.count,moved.brackets,moved.pairs,moved.indent,
    moved.levels,moved.comment,moved.steps,moved.key⟩,left⟩

theorem tokens_unseen (text : List Char) (none : seen false text = []) :
    ∃ pos, Tokens.ofText text = ⟨[⟨.streamEnd,pos⟩],Option.none⟩ := by
  obtain ⟨t,settled,moved,left⟩ := start_settled text
  have nothing : t.cur.rest = [] := left.trans none
  have holds : Holds t [] := (start_holds text).moved moved (by rw [nothing]; exact Nat.zero_le _)
  have outermost : t.land = t := by
    rw [land]
    refine dedent_of_le _ ?_
    rw [landing,if_pos nothing,moved.indent]
    exact Int.le_refl _
  obtain ⟨tokens,read,kinds,_⟩ := scan_end rfl settled nothing (outermost.symm ▸ holds) (text.length + 2) (Nat.le_add_left _ _)
  obtain ⟨last,_,rfl,is,rest⟩ := List.map_eq_cons_iff.mp kinds
  obtain rfl := List.map_eq_nil_iff.mp rest
  exact ⟨last.pos,read.trans (by rw [←is])⟩

end Scan

theorem read_unseen (body : List Char) (unseen : Unseen body) : Yaml.read body = .ok none := by
  obtain ⟨pos,tokens⟩ := Scan.tokens_unseen _ unseen
  have document : document (page body) = ⟨none,none⟩ := by
    rw [document,tokens]
    rfl
  simp only [Yaml.read,readTree,document]

end

end AutomationLint.Yaml
