import AutomationLint.Check
import AutomationLint.Proofs.Yaml.Layout
import AutomationLint.Proofs.Yaml.Nodes
import AutomationLint.Proofs.Yaml.Scan.Trees
import AutomationLint.Proofs.Yaml.Scan.Unseen
import AutomationLint.Tree

namespace AutomationLint.Yaml
open AutomationLint.Stream

-- What is written for the tree is one document again, and that is the tree.
def RoundTrips (t : Tree) : Prop := ∃ docs, parseDocuments (write t) = .ok docs ∧ Stream.selectRoot docs = some t

variable {t : Tree} {first : List Char} {later : List (List Char)}

theorem trailing_blank_lost :
    let root := Tree.map [("a",.str "a ")]
    (parseDocuments "a: 'a '").toOption = some [root] ∧ write root = "a: a \n" ∧ ¬RoundTrips root := by
  intro root
  refine ⟨by decide +kernel,by decide +kernel,?_⟩
  intro back
  obtain ⟨docs,read,same⟩ := back
  have changed : (parseDocuments (write (.map [("a",.str "a ")]))).toOption = some [.map [("a",.str "a")]] := by
    decide +kernel
  rw [read] at changed
  cases Option.some.inj changed
  revert same
  decide +kernel

theorem lines_rows {rows : List (List Char)} (own : ∀ row ∈ rows, Row row) :
    Text.lines (Text.ended rows) = rows ∧ rows.map Text.dropCarriage = rows := by
  have kept : rows.map Text.dropCarriage = rows := by
    refine (List.map_congr_left fun row member => ?_).trans (List.map_id rows)
    refine (Text.dropCarriage_eq_self row).mpr fun carriage => ?_
    exact ((own row member).clear '\r' (List.mem_of_getLast? carriage)).2.1 rfl
  have read := Text.lines_ended rows [] fun row member feed => ((own row member).clear '\n' feed).1 rfl
  rw [List.append_nil,kept] at read
  exact ⟨by simpa [Text.lines] using read,kept⟩

theorem ended_dropLast {rows : List (List Char)} (some : rows ≠ []) : (Text.ended rows).dropLast = Text.joinLines rows := by
  obtain ⟨front,last,rfl⟩ := (List.eq_nil_or_concat rows).resolve_left some
  have whole : Text.ended (front ++ [last]) = Text.ended front ++ last ++ ['\n'] := by simp [Text.ended]
  rw [List.concat_eq_append,whole,List.dropLast_concat,Text.join_parts]

theorem RootForm.documents {text : List Char} (form : RootForm text first later) (read : BodyReader) :
    Stream.documents read text = asOnly (read text.dropLast) := by
  obtain ⟨rfl,own,seen⟩ := form
  obtain ⟨lines,kept⟩ := lines_rows own
  have unmarked : Unmarked (Text.ended (first :: later)) := by
    rw [Unmarked,lines]
    exact fun row member => (own row member).uncut
  have content : ∃ line ∈ Text.lines (Text.ended (first :: later)), Meaningful line := by
    rw [lines]
    exact ⟨first,List.mem_cons_self,seen⟩
  rw [documents_unmarked read _ unmarked content,rejoined,lines,kept,ended_dropLast (List.cons_ne_nil _ _)]

theorem RootForm.clear {text : List Char} (form : RootForm text first later) : '\x00' ∉ text := by
  obtain ⟨rfl,own,_⟩ := form
  intro null
  obtain ⟨row,member,inner⟩ := List.mem_flatMap.mp null
  rcases List.mem_append.mp inner with within | feed
  · exact ((own row member).clear '\x00' within).2.2 rfl
  · exact absurd (List.mem_singleton.mp feed) (by decide)

theorem RootForm.unmarked {text : List Char} (form : RootForm text first later) :
    isDocumentMarker text.dropLast = false := by
  obtain ⟨rfl,own,_⟩ := form
  rw [ended_dropLast (List.cons_ne_nil _ _)]
  have uncut := (own first List.mem_cons_self).uncut
  cases later with
  | nil =>
    have alone : isDocumentMarker (first ++ []) = false := uncut_document uncut (.inl rfl)
    rwa [List.append_nil] at alone
  | cons next more => exact uncut_document uncut (.inr rfl)

theorem legible_round_trips (t : Tree) (legible : Legible t) : RoundTrips t := by
  obtain ⟨first,later,form⟩ := document_form t legible
  have keys : Scan.RootUnmarked t := by
    have root := legible.root
    cases t with
    | map entries =>
      intro e member
      have alone := uncut_document (root e member) (.inl (rfl : [] = []))
      rwa [List.append_nil] at alone
    | _ => exact trivial
  obtain ⟨tokens,scanned,kinds,usual⟩ := Scan.tokens_written t legible.values keys fun _ => form.unmarked
  obtain ⟨root,read,means⟩ := document_read t kinds usual legible.values
  have mark : (Writer.document t).dropLast.head? ≠ some '\uFEFF' := by
    intro first
    obtain ⟨rest,same⟩ := List.head?_eq_some_iff.mp first
    refine legible.mark ?_
    cases whole : Writer.document t with
    | nil => rw [whole] at same; exact nomatch same
    | cons c more =>
      cases more with
      | nil => rw [whole] at same; exact nomatch same
      | cons d more =>
        rw [whole] at same
        exact congrArg some (List.cons.inj same).1
  obtain ⟨page_,text⟩ := pageText_body mark fun null => form.clear (List.dropLast_subset _ null)
  have tree : readTree (Writer.document t).dropLast = .ok (some t) := by
    rw [readTree,document,text,scanned,read]
    simp only [means.root]
  have body : Yaml.read (Writer.document t).dropLast = .ok (some t) := by
    simp only [Yaml.read,page_,tree]
  refine ⟨[t],?_,rfl⟩
  rw [parseDocuments,write,String.toList_ofList,form.documents,body]
  rfl

-- One tree with every kind of value, and with strings and keys in every style
-- but the folded one.
theorem legible_round_trips_every_value :
    let root := Tree.map [("alias",.str "at: dusk"),("note",.str "one\n\n  two\n"),("mode",.str "."),("id",.str "# 7"),
      ("trigger",.seq [.map [("platform",.str "sun"),("when ever",.null)],.seq [.bool true,.int (-3)],.seq []]),
      ("for: a",.map [("size",.float ⟨false,0x3FF8000000000000,by decide⟩)]),("rest",.map [])]
    Legible root ∧ RoundTrips root := by
  intro root
  have legible : Legible root := by decide +kernel
  exact ⟨legible,legible_round_trips root legible⟩

end AutomationLint.Yaml
