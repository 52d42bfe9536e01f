import AutomationLint.Proofs.Record.Edits
import AutomationLint.Stream

namespace AutomationLint.Record
open AutomationLint.Tree

def Single (value : Tree) : Prop := value.shape = .mapping ∨ value.shape = .null

def shortPath (kind : ItemKind) (path : String) : String :=
  match stripStart? (listPath kind 0).toList path.toList with
  | some rest => kind.word ++ String.ofList rest
  | none => path

def shortened (kind : ItemKind) (d : Diagnostic) : Diagnostic := {d with path := d.path.map (shortPath kind)}

def inShort (kind : ItemKind) (r : Report) : Report := {r with diagnostics := r.diagnostics.map (shortened kind)}

-- What is done to findings below one path moves them to another path. The
-- check of an item only hands its path on, so it is moved as a whole.
def Moves (f : Diagnostic → Diagnostic) (path target : String) : Prop := ∀ severity code rest message,
  f (finding severity code (path ++ rest) message) = finding severity code (target ++ rest) message

variable {kind : ItemKind} {entries others : Entries} {a b item : Tree} {f : Diagnostic → Diagnostic}
  {path target : String} (index : Nat) (title : String)

theorem Moves.here (moves : Moves f path target) (severity : Severity) (code message : String) :
    f (finding severity code path message) = finding severity code target message := by
  simpa using moves severity code "" message

theorem keyFindings_moved (moves : Moves f path target) :
    (keyFindings kind entries index path).map f = keyFindings kind entries index target := by
  unfold keyFindings
  split
  · rfl
  · cases kind with
    | trigger => rw [List.map_singleton,moves.here]
    | action => rw [List.map_singleton,moves.here]

theorem namingFindings_moved (moves : Moves f path target) :
    (namingFindings kind entries index path).map f = namingFindings kind entries index target := by
  unfold namingFindings
  split
  · rfl
  · rfl
  · rw [List.map_singleton,@String.append_assoc path,moves,@String.append_assoc target]

theorem dataFindings_moved (moves : Moves f path target) :
    (dataFindings kind entries index path).map f = dataFindings kind entries index target := by
  unfold dataFindings
  split
  any_goals rfl
  rw [List.map_singleton,moves]

theorem itemFindings_moved (moves : Moves f path target) :
    (itemFindings kind item index path).map f = itemFindings kind item index target := by
  unfold itemFindings
  split
  · rw [List.map_append,List.map_append,keyFindings_moved index moves,namingFindings_moved index moves,
      dataFindings_moved index moves]
  · rw [List.map_singleton,moves.here]

theorem shortPath_element (rest : String) : shortPath kind (listPath kind 0 ++ rest) = kind.word ++ rest := by
  have stripped : stripStart? (listPath kind 0).toList (listPath kind 0 ++ rest).toList = some rest.toList :=
    (stripStart?_eq_some _ _ _).mpr String.toList_append
  rw [shortPath,stripped]
  simp

theorem shortPath_walk (w : Walk) (other : w.name ≠ kind.word) : shortPath kind w.text = w.text := by
  unfold shortPath
  cases stripped : stripStart? (listPath kind 0).toList w.text.toList with
  | none => rfl
  | some rest =>
    have bracket : w.text.toList = kind.word.toList ++ '[' :: (['0',']'] ++ rest) := by
      rw [(stripStart?_eq_some _ _ _).mp stripped]
      cases kind <;> rfl
    exact absurd (w.name_of_bracket _ _ kind.word_plain bracket) other

theorem shortened_moves : Moves (shortened kind) (listPath kind 0) kind.word := by
  intro severity code rest message
  simp [shortened,finding,Diagnostic.new,Diagnostic.withPath,shortPath_element]

theorem shortened_elsewhere (d : Diagnostic) (elsewhere : Elsewhere kind d) : shortened kind d = d := by
  obtain ⟨w,path,other⟩ := elsewhere
  simp only [shortened,path,Option.map_some,shortPath_walk w other]
  rw [←path]

theorem findings_short (same : SameBut kind a b) (single : Single item) (inA : a.field? kind.word = some item)
    (inB : b.field? kind.word = some (.seq [item])) : findings a title = (findings b title).map (shortened kind) := by
  obtain ⟨front,back,elsewhere,foundA,foundB⟩ := findings_around title same inA inB
  have list : fieldFindings kind (.seq [item]) = itemFindings kind item 0 (listPath kind 0) := List.append_nil _
  have kept : ∀ found : List Diagnostic, (∀ d ∈ found, d ∈ front ++ back) → found.map (shortened kind) = found := by
    intro found inside
    refine (List.map_congr_left ?_).trans (List.map_id found)
    intro d member
    exact shortened_elsewhere d (elsewhere d (inside d member))
  have before := kept front fun d => List.mem_append_left back
  have behind := kept back fun d => List.mem_append_right front
  rw [foundA,foundB,fieldFindings_single kind item single,list,List.map_append,List.map_append,before,behind,
    itemFindings_moved 0 shortened_moves]

-- What neither regrades findings nor touches the verdict may be done to the
-- report instead.
theorem validate_mapped (grade : ∀ d, (f d).severity = d.severity)
    (fixed : ∀ title, f (structureOk title) = structureOk title) (labels : label a index = label b index)
    (found : findings a (label b index) = (findings b (label b index)).map f) :
    validate a index = {validate b index with diagnostics := (validate b index).diagnostics.map f} := by
  have graded : ∀ (found : List Diagnostic) severity, ((found.map f).filter fun d => d.severity == severity) =
      (found.filter fun d => d.severity == severity).map f := by
    intro found severity
    simp [List.filter_map,Function.comp_def,grade]
  have judged : ∀ found title, verdict (Collector.empty.pushAll (found.map f)) title =
      (verdict (Collector.empty.pushAll found) title).map f := by
    intro found title
    unfold verdict
    simp only [Collector.count_pushAll,graded,List.length_map]
    split
    · rw [List.map_singleton,fixed]
    · rfl
  have diagnostics : (validate a index).diagnostics = (validate b index).diagnostics.map f := by
    rw [validate_diagnostics,validate_diagnostics,labels,found,judged,←List.map_append,Collector.ordered_pushAll,
      Collector.ordered_pushAll,List.map_flatMap]
    simp only [graded]
  rw [←diagnostics]
  exact congrArg (fun title => (⟨index,title,(validate a index).diagnostics⟩ : Report)) labels

theorem validate_single (same : SameBut kind a b) (single : Single item) (inA : a.field? kind.word = some item)
    (inB : b.field? kind.word = some (.seq [item])) : validate a index = inShort kind (validate b index) :=
  validate_mapped index (fun _ => rfl) (fun _ => rfl) (same.label index) (findings_short _ same single inA inB)

theorem put_sameBut_put (value other : Tree) :
    SameBut kind (.map (put entries kind.word value)) (.map (put entries kind.word other)) := by
  intro name apart
  rw [put_sameBut value name apart,put_sameBut other name apart]

theorem SameBut.put (same : SameBut kind (.map entries) (.map others)) (name : String) (value : Tree) :
    SameBut kind (.map (put entries name value)) (.map (put others name value)) := by
  intro field apart
  rw [field?,field?,lookup_put,lookup_put]
  split
  · rfl
  · exact same field apart

theorem single_is_list_of_one (entries : Entries) (index : Nat) :
    (∀ kind item, Single item → validate (.map (put entries kind.word item)) index =
      inShort kind (validate (.map (put entries kind.word (.seq [item]))) index)) ∧
    ∀ trigger action, Single trigger → Single action →
      validate (.map (put (put entries "trigger" trigger) "action" action)) index =
        inShort .trigger (inShort .action
          (validate (.map (put (put entries "trigger" (.seq [trigger])) "action" (.seq [action]))) index)) := by
  constructor
  · intro kind item single
    exact validate_single index (put_sameBut_put item _) single (field?_put _ item) (field?_put _ _)
  · intro trigger action singleTrigger singleAction
    let between := put (put entries "trigger" (.seq [trigger])) "action" action
    have first : validate (.map (put (put entries "trigger" trigger) "action" action)) index =
        inShort .trigger (validate (.map between) index) := by
      have atTrigger : ∀ value,
          (Tree.map (put (put entries "trigger" value) "action" action)).field? "trigger" = some value :=
        fun value => (field?_put_other "action" "trigger" action (by decide)).trans (field?_put _ value)
      have same : SameBut .trigger (.map (put (put entries "trigger" trigger) "action" action)) (.map between) :=
        (put_sameBut_put trigger _).put "action" action
      exact validate_single index same singleTrigger (atTrigger trigger) (atTrigger _)
    have second : validate (.map between) index = inShort .action
        (validate (.map (put (put entries "trigger" (.seq [trigger])) "action" (.seq [action]))) index) :=
      validate_single index (put_sameBut_put action _) singleAction (field?_put _ action) (field?_put _ _)
    rw [first,second]

theorem single_is_list_of_one_null_and_action :
    let action := Tree.map [("data",.seq []),("service",.int 1)]
    let single := put (put [("id",.int 7)] "trigger" .null) "action" action
    let list := put (put [("id",.int 7)] "trigger" (.seq [.null])) "action" (.seq [action])
    Single .null ∧ Single action ∧
      validate (.map single) 0 = inShort .trigger (inShort .action (validate (.map list) 0)) ∧
      (validate (.map single) 0).diagnostics.map (·.path) =
        [some "trigger",some "action.service",some "condition",some "action.data"] ∧
      (validate (.map list) 0).diagnostics.map (·.path) =
        [some "trigger[0]",some "action[0].service",some "condition",some "action[0].data"] := by
  intro action single list
  have alike := (single_is_list_of_one [("id",.int 7)] 0).2 .null action (.inr rfl) (.inl rfl)
  exact ⟨.inr rfl,.inl rfl,alike,by decide +kernel,by decide +kernel⟩

end AutomationLint.Record
