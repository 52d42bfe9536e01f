import AutomationLint.Proofs.Yaml.Scan.Unseen
import AutomationLint.Yaml.Node

namespace AutomationLint.Yaml

-- Tokens that begin a value other than null, or none at all.
def isFilled : TokenKind → Bool
  | .scalar .plain text => !isNullWord text
  | .blockSequenceStart | .blockMappingStart | .flowMappingStart | .key => true
  | _ => false

-- Of tokens with the newest in front. Once there is one that begins a value,
-- the tokens begin with such a one for good: later tokens go behind it, and
-- what the scanner puts in front of it when a colon follows begins a
-- collection.
def Begun (tokens : List Token) : Prop := ∃ first, tokens.getLast? = some first ∧ isFilled first.kind = true

theorem Begun.cons {tokens : List Token} (begun : Begun tokens) (token : Token) : Begun (token :: tokens) := by
  obtain ⟨first,last,filled⟩ := begun
  refine ⟨first,?_,filled⟩
  rw [List.getLast?_cons,last]
  rfl

namespace Scan

variable {s t : Scan}

theorem emit_begun (begun : Begun s.newestFirst) (kind : TokenKind) (pos : Position) :
    Begun (s.emit kind pos).newestFirst := begun.cons _

theorem insert_begun (begun : Begun s.newestFirst) (number : Nat) (kind : TokenKind) (pos : Position)
    (filled : isFilled kind = true) : Begun (s.insert number kind pos).newestFirst := by
  obtain ⟨first,last,old⟩ := begun
  unfold insert
  dsimp only
  generalize s.count - number = later
  rw [Begun,List.getLast?_append,List.getLast?_cons]
  cases behind : (s.newestFirst.drop later).getLast? with
  | none => exact ⟨⟨kind,pos⟩,rfl,filled⟩
  | some token =>
    have same : token = first := by
      rw [List.getLast?_drop] at behind
      split at behind
      · cases behind
      · exact Option.some.inj (behind.symm.trans last)
    exact ⟨token,rfl,same ▸ old⟩

@[simp, grind =] theorem skip_tokens (s : Scan) (n : Nat) : (s.skip n).newestFirst = s.newestFirst := rfl

@[simp, grind =] theorem allowKey_tokens (s : Scan) (allowed : Bool) : (s.allowKey allowed).newestFirst = s.newestFirst :=
  rfl

@[simp, grind =] theorem release_tokens (s : Scan) : s.release.newestFirst = s.newestFirst := rfl

@[grind →] theorem skipBlanks_tokens {tabs : Bool} {b : Blanks} (ok : s.skipBlanks tabs = .ok (t,b)) : t.newestFirst = s.newestFirst := by
  unfold skipBlanks at ok
  split at ok <;> cases ok
  rfl

@[grind →] theorem dropKey_tokens (ok : s.dropKey = .ok t) : t.newestFirst = s.newestFirst := by
  unfold dropKey at ok
  split at ok <;> cases ok
  rfl

@[grind →] theorem expireKey_tokens (ok : s.expireKey = .ok t) : t.newestFirst = s.newestFirst := by
  unfold expireKey at ok
  split at ok
  · split at ok <;> cases ok
    rfl
  · cases ok
    rfl

@[simp, grind =] theorem noteKey_tokens (s : Scan) : s.noteKey.newestFirst = s.newestFirst := by
  unfold noteKey
  split <;> rfl

@[simp, grind =] theorem property_tokens (s : Scan) : s.property.newestFirst = s.newestFirst := noteKey_tokens s

@[simp, grind =] theorem indentPast_tokens (s : Scan) : s.indentPast.newestFirst = s.newestFirst := by
  unfold indentPast
  split <;> rfl

@[simp, grind =] theorem leaveThrough_tokens (levels : List Indent) (s : Scan) : (leaveThrough levels s).newestFirst = s.newestFirst := by
  induction levels generalizing s with
  | nil => rfl
  | cons top outer ih =>
    rw [leaveThrough]
    split
    · rfl
    · exact ih _

@[simp, grind =] theorem leaveNonBlock_tokens (s : Scan) : s.leaveNonBlock.newestFirst = s.newestFirst := leaveThrough_tokens _ s

@[grind →] theorem skipToToken_tokens (fuel : Nat) (ok : skipToToken fuel s = .ok t) : t.newestFirst = s.newestFirst := by
  fun_induction skipToToken fuel s with
  | case1 => cases ok; rfl
  | case2 => cases ok; rfl
  | case3 fuel s c peek feed ih => exact ih ok
  | case4 => cases ok
  | case5 fuel s c peek feed tab u b skipped ends ih => exact (ih ok).trans (skipBlanks_tokens skipped)
  | case6 => cases ok
  | case7 fuel s c peek feed tab blank ih => exact ih ok
  | case8 fuel s c peek feed tab blank comment ih => exact ih ok
  | case9 => cases ok; rfl

@[grind →] theorem checkComment_tokens (ok : s.checkComment = .ok t) : t.newestFirst = s.newestFirst := by
  unfold checkComment at ok
  split at ok
  · cases ok
    rfl
  · split at ok <;> cases ok
    rfl

@[grind →] theorem toNextToken_tokens (ok : s.toNextToken = .ok t) : t.newestFirst = s.newestFirst := by
  unfold toNextToken at ok
  split at ok
  · cases ok
  · rename_i u skipped
    exact (checkComment_tokens ok).trans (skipToToken_tokens _ skipped)

@[grind →] theorem skipKeyBlanks_tokens (fuel : Nat) (needed : Bool) (ok : skipKeyBlanks fuel needed s = .ok t) :
    t.newestFirst = s.newestFirst := by
  fun_induction skipKeyBlanks fuel needed s with
  | case1 => cases ok; rfl
  | case2 fuel needed s peek ih => exact ih ok
  | case3 fuel needed s peek ih => exact ih ok
  | case4 fuel needed s peek ih => exact ih ok
  | case5 fuel needed s peek ih => exact ih ok
  | case6 => cases ok
  | case7 => cases ok
  | case8 => cases ok; rfl

@[grind →] theorem checkTab_tokens (ok : s.checkTab = .ok t) : t.newestFirst = s.newestFirst := by
  unfold checkTab at ok
  split at ok
  · cases ok
    rfl
  · split at ok
    · cases ok
    · rename_i u b skipped
      dsimp only at ok
      split at ok <;> cases ok
      exact skipBlanks_tokens skipped

theorem dedentThrough_begun (column : Int) (levels : List Indent) (begun : Begun s.newestFirst) :
    Begun (dedentThrough column levels s).newestFirst := by
  induction levels generalizing s with
  | nil => exact begun
  | cons top outer ih =>
    rw [dedentThrough]
    split
    · refine ih ?_
      split
      · exact begun.cons _
      · exact begun
    · exact begun

theorem dedent_begun (begun : Begun s.newestFirst) (column : Int) : Begun (s.dedent column).newestFirst := by
  unfold dedent
  split
  · exact begun
  · exact dedentThrough_begun column _ begun

theorem indentTo_begun (begun : Begun s.newestFirst) (column : Int) (number : Nat) (kind : TokenKind) (pos : Position)
    (filled : isFilled kind = true) : Begun (s.indentTo column number kind pos).newestFirst := by
  unfold indentTo
  split
  · exact begun
  · extract_lets u
    have left : Begun u.newestFirst := by
      dsimp only [u]
      split
      · split <;> exact begun
      · exact begun
    split
    · exact insert_begun left _ _ _ filled
    · exact left

theorem endPair_begun (begun : Begun s.newestFirst) : Begun s.endPair.newestFirst := by
  unfold endPair
  split
  · exact begun.cons _
  · exact begun

theorem openBracket_begun {opener : Char} (ok : s.openBracket opener = .ok t) (begun : Begun s.newestFirst) :
    Begun t.newestFirst := by
  unfold openBracket at ok
  dsimp only at ok
  split at ok
  · cases ok
  · split at ok <;> cases ok
    rename_i u blanks skipped
    refine emit_begun ?_ _ _
    have inner : u.newestFirst = s.noteKey.indentPast.newestFirst := by grind
    simpa [inner] using begun

theorem closeBracket_begun {closer : Char} (ok : s.closeBracket closer = .ok t) (begun : Begun s.newestFirst) :
    Begun t.newestFirst := by
  unfold closeBracket at ok
  split at ok
  · cases ok
  · split at ok
    · cases ok
    · rename_i u dropped
      dsimp only at ok
      split at ok <;> cases ok
      rename_i v blanks skipped
      have before : Begun u.newestFirst := by grind
      have after : Begun v.newestFirst := by
        have same : v.newestFirst = if closer == ']' then u.endPair.newestFirst else u.newestFirst := by grind
        rw [same]
        split
        · exact endPair_begun before
        · exact before
      refine emit_begun ?_ _ _
      split <;> exact after

theorem comma_begun (ok : s.comma = .ok t) (begun : Begun s.newestFirst) : Begun t.newestFirst := by
  unfold comma at ok
  split at ok
  · cases ok
  · rename_i u dropped
    dsimp only at ok
    split at ok <;> cases ok
    rename_i v blanks skipped
    refine emit_begun ?_ _ _
    have before : Begun (u.allowKey true).newestFirst := by grind
    have same : v.newestFirst = (u.allowKey true).endPair.newestFirst := by grind
    simpa [same] using endPair_begun before

theorem dash_begun (ok : s.dash = .ok t) (begun : Begun s.newestFirst) : Begun t.newestFirst := by
  unfold dash at ok
  split at ok
  · cases ok
  · split at ok
    · cases ok
    · split at ok
      · cases ok
      · dsimp only at ok
        split at ok
        · cases ok
        · rename_i u blanks skipped
          have opened : Begun u.newestFirst := by
            rw [skipBlanks_tokens skipped]
            exact indentTo_begun (s := s.skip 1) begun _ _ _ _ rfl
          split at ok
          · cases ok
          · split at ok <;> cases ok
            rename_i v dropped
            refine emit_begun ?_ _ _
            have same : v.newestFirst = u.newestFirst := by grind
            simpa [same] using opened

theorem question_begun (ok : s.question = .ok t) (begun : Begun s.newestFirst) : Begun t.newestFirst := by
  unfold question at ok
  dsimp only at ok
  split at ok
  · cases ok
  · split at ok
    · cases ok
    · rename_i u dropped
      split at ok <;> cases ok
      rename_i v skipped
      refine emit_begun ?_ _ _
      have same : v.newestFirst = u.newestFirst := by grind
      rw [same,dropKey_tokens dropped]
      split
      · exact begun
      · exact indentTo_begun begun _ _ _ _ rfl

theorem colon_begun (ok : s.colon = .ok t) (begun : Begun s.newestFirst) : Begun t.newestFirst := by
  unfold colon at ok
  extract_lets start key opensPair paired at ok
  have before : Begun paired.newestFirst := by
    dsimp only [paired]
    split <;> exact begun
  split at ok
  · cases ok
  · rename_i u checked
    have here : Begun u.newestFirst := by
      have same : u.newestFirst = paired.newestFirst := by grind
      rwa [same]
    split at ok
    · dsimp only at ok
      split at ok
      · cases ok
      · cases ok
        refine emit_begun ?_ _ _
        simp only [indentPast_tokens]
        refine indentTo_begun ?_ _ _ _ _ rfl
        have keyed := insert_begun here key.number .key key.pos rfl
        split
        · exact insert_begun keyed _ _ _ rfl
        · exact keyed
    · extract_lets v at ok
      have unkeyed : Begun v.newestFirst := by
        dsimp only [v]
        split
        · exact emit_begun here _ _
        · exact here
      split at ok <;> cases ok
      refine emit_begun ?_ _ _
      change Begun (indentPast _).newestFirst
      simpa only [indentPast_tokens] using indentTo_begun unkeyed _ _ .blockMappingStart start rfl

theorem flowColon_begun (ok : s.flowColon = .ok t) (begun : Begun s.newestFirst) : Begun t.newestFirst := by
  unfold flowColon at ok
  dsimp only at ok
  split at ok
  · cases ok
  · exact colon_begun ok begun

theorem named_begun {kind : List Char → TokenKind} (ok : s.named kind = .ok t) (begun : Begun s.newestFirst) :
    Begun t.newestFirst := by
  unfold named at ok
  dsimp only at ok
  split at ok <;> cases ok
  refine emit_begun ?_ _ _
  simpa using begun

theorem tag_begun (ok : s.tag = .ok t) (begun : Begun s.newestFirst) : Begun t.newestFirst := by
  unfold tag at ok
  dsimp only at ok
  split at ok
  · cases ok
  · split at ok <;> cases ok
    refine emit_begun ?_ _ _
    simpa using begun

theorem plain_begun (ok : s.plain = .ok t) (begun : Begun s.newestFirst) : Begun t.newestFirst := by
  unfold plain at ok
  dsimp only at ok
  split at ok
  · cases ok
  · split at ok
    · cases ok
    · split at ok <;> cases ok
      refine emit_begun ?_ _ _
      simpa using begun

theorem quoted_begun {single : Bool} (ok : s.quoted single = .ok t) (begun : Begun s.newestFirst) :
    Begun t.newestFirst := by
  unfold quoted at ok
  dsimp only at ok
  split at ok
  · cases ok
  · split at ok <;> cases ok
    rename_i u next
    refine emit_begun ?_ _ _
    have same : u.newestFirst = s.newestFirst := by grind
    rwa [same]

theorem block_begun {folded : Bool} (ok : s.block folded = .ok t) (begun : Begun s.newestFirst) :
    Begun t.newestFirst := by
  unfold block at ok
  dsimp only at ok
  split at ok <;> cases ok
  refine emit_begun ?_ _ _
  simpa using begun

theorem endBlocks_begun (ok : s.endBlocks = .ok t) (begun : Begun s.newestFirst) : Begun t.newestFirst := by
  unfold endBlocks at ok
  split at ok
  · cases ok
  · split at ok <;> cases ok
    exact dedent_begun begun _

theorem marker_begun (ok : s.marker = .ok t) (begun : Begun s.newestFirst) : Begun t.newestFirst := by
  unfold marker at ok
  split at ok
  · cases ok
  · rename_i u ended
    have here := endBlocks_begun ended begun
    dsimp only at ok
    split at ok
    · cases ok
      exact emit_begun here _ _
    · split at ok
      · cases ok
      · rename_i v blanks skipped
        split at ok <;> cases ok
        refine emit_begun ?_ _ _
        have same : v.newestFirst = u.newestFirst := by grind
        rwa [same]

theorem directive_begun (ok : s.directive = .ok t) (begun : Begun s.newestFirst) : Begun t.newestFirst := by
  unfold directive at ok
  split at ok
  · cases ok
  · rename_i u dropped
    dsimp only at ok
    split at ok <;> cases ok
    refine emit_begun ?_ _ _
    have before : Begun u.newestFirst := by grind
    exact dedent_begun before _

theorem finish_begun (ok : s.finish = .ok t) (begun : Begun s.newestFirst) : Begun t.newestFirst := by
  unfold finish at ok
  dsimp only at ok
  split at ok <;> cases ok
  rename_i u ended
  exact emit_begun (endBlocks_begun ended begun) _ _

theorem dispatch_begun {c : Char} {next : Option Char} (ok : s.dispatch c next = .ok t) (begun : Begun s.newestFirst) :
    Begun t.newestFirst := by
  unfold dispatch at ok
  split at ok
  · exact openBracket_begun ok begun
  · exact openBracket_begun ok begun
  · exact closeBracket_begun ok begun
  · exact closeBracket_begun ok begun
  · exact comma_begun ok begun
  · exact named_begun ok begun
  · exact named_begun ok begun
  · exact tag_begun ok begun
  · exact quoted_begun ok begun
  · exact quoted_begun ok begun
  · split at ok
    · exact dash_begun ok begun
    · exact plain_begun ok begun
  · split at ok
    · exact question_begun ok begun
    · exact plain_begun ok begun
  · split at ok
    · exact colon_begun ok begun
    · split at ok
      · exact flowColon_begun ok begun
      · exact plain_begun ok begun
  · split at ok
    · exact plain_begun ok begun
    · exact block_begun ok begun
  · split at ok
    · exact plain_begun ok begun
    · exact block_begun ok begun
  · cases ok
  · cases ok
  · cases ok
  · exact plain_begun ok begun

theorem turn_begun (ok : s.turn = .ok t) (begun : Begun s.newestFirst) : Begun t.newestFirst := by
  unfold turn at ok
  split at ok
  · exact finish_begun ok begun
  · split at ok
    · exact directive_begun ok begun
    · split at ok
      · exact marker_begun ok begun
      · split at ok
        · cases ok
        · exact dispatch_begun ok begun

theorem step_begun (ok : s.step = .ok t) (begun : Begun s.newestFirst) : Begun t.newestFirst := by
  unfold step at ok
  split at ok
  · cases ok
  · rename_i u next
    split at ok
    · cases ok
    · rename_i v unexpired
      refine turn_begun (s := v.dedent v.column) ok (dedent_begun ?_ _)
      have same : v.newestFirst = s.newestFirst := by grind
      rwa [same]

end Scan

-- What is delivered of tokens that have begun: the first one still begins a
-- value other than null. When a fault cuts the tokens off, there may be none.
def Tokens.Filled (tokens : Tokens) : Prop :=
  (tokens.list = [] ∧ tokens.fault ≠ none) ∨ ∃ first rest, tokens.list = first :: rest ∧ isFilled first.kind = true

theorem Begun.reverse {tokens : List Token} (begun : Begun tokens) :
    ∃ first rest, tokens.reverse = first :: rest ∧ isFilled first.kind = true := by
  obtain ⟨first,last,filled⟩ := begun
  rw [←List.head?_reverse] at last
  obtain ⟨rest,same⟩ := List.head?_eq_some_iff.mp last
  exact ⟨first,rest,same,filled⟩

theorem cutOff_filled {s : Scan} (begun : Begun s.newestFirst) (f : Fault) : (Tokens.cutOff s f).Filled := by
  obtain ⟨first,rest,same,filled⟩ := begun.reverse
  unfold Tokens.cutOff
  generalize s.count - s.released = held
  cases left : (s.newestFirst.drop held).reverse with
  | nil => exact .inl ⟨rfl,nofun⟩
  | cons token later =>
    have same' : token = first := by
      have front : (s.newestFirst.drop held).reverse <+: s.newestFirst.reverse :=
        List.reverse_prefix.mpr (List.drop_suffix held _)
      rw [left,same] at front
      exact (List.cons_prefix_cons.mp front).1
    exact .inr ⟨token,later,rfl,same' ▸ filled⟩

theorem scan_filled (fuel : Nat) {s : Scan} (begun : Begun s.newestFirst) : (Tokens.scan fuel s).Filled := by
  induction fuel generalizing s with
  | zero => exact .inr begun.reverse
  | succ fuel ih =>
    rw [Tokens.scan]
    split
    · exact .inr begun.reverse
    · split
      · exact cutOff_filled begun _
      · rename_i u unexpired
        have here : Begun u.release.newestFirst := by grind
        dsimp only
        split
        · exact cutOff_filled here _
        · rename_i next stepped
          exact ih (Scan.step_begun stepped here)

end AutomationLint.Yaml
