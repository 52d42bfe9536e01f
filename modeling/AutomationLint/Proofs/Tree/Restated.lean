import AutomationLint.Codec
import Mathlib.Data.List.Nodup
import Mathlib.Data.List.Perm.Basic
import Mathlib.Logic.Relation

namespace AutomationLint.Tree

inductive WellNamed : Tree → Prop where
  | leaf (single : t.shape ≠ .mapping ∧ t.shape ≠ .sequence) : WellNamed t
  | seq (each : ∀ t ∈ items, WellNamed t) : WellNamed (.seq items)
  | map (distinct : (entries.map Prod.fst).Nodup) (each : ∀ entry ∈ entries, WellNamed entry.2) : WellNamed (.map entries)

-- Other ways to say what a mapping says to a reader of certain fields, one
-- small step for each. None of them changes what the reader finds, and what it
-- finds can always be said in one way, with the fields in their order and
-- nothing else.
inductive Restated (fields optional : List String) (inner : String → Tree → Tree → Prop) : Tree → Tree → Prop where
  | reordered (distinct : (entries.map Prod.fst).Nodup) (moved : entries.Perm others) :
      Restated fields optional inner (.map entries) (.map others)
  | unread (other : name ∉ fields) :
      Restated fields optional inner (.map (front ++ rest)) (.map (front ++ (name,value) :: rest))
  | null (may : name ∈ optional) (absent : (front ++ rest).lookup name = none) :
      Restated fields optional inner (.map (front ++ rest)) (.map (front ++ (name,.null) :: rest))
  | listed (all : values.length = fields.length) : Restated fields optional inner (.map (fields.zip values)) (.seq values)
  | within (alike : inner name a b) :
      Restated fields optional inner (.map (front ++ (name,a) :: rest)) (.map (front ++ (name,b) :: rest))

abbrev Alike (fields optional : List String) (inner : String → Tree → Tree → Prop) : Tree → Tree → Prop :=
  Relation.EqvGen (Restated fields optional inner)

inductive Answers (optional : List String) (inner : String → Tree → Tree → Prop) (name : String) :
    Option Tree → Option Tree → Prop where
  | same : Answers optional inner name found found
  | null (may : name ∈ optional) : Answers optional inner name none (some .null)
  | within (alike : inner name a b) : Answers optional inner name (some a) (some b)

def asked (fields : List String) (found : String → Option Tree) : Entries :=
  fields.filterMap fun name => (found name).map (name,·)

variable {fields optional : List String} {inner : String → Tree → Tree → Prop} {entries others front rest : Entries}
  {t u value : Tree} {name other : String}

theorem WellNamed.items {items : List Tree} (well : WellNamed (.seq items)) : ∀ item ∈ items, WellNamed item := by
  cases well with
  | leaf single => exact absurd rfl single.2
  | seq each => exact each

theorem lookup_inserted (front rest : Entries) (name : String) (value : Tree) (other : String) :
    (front ++ (name,value) :: rest).lookup other =
      (front.lookup other).or (if other = name then some value else rest.lookup other) := by
  rw [List.lookup_append,List.lookup_cons]
  by_cases same : other = name
  · simp [same]
  · simp [same,beq_false_of_ne same]

theorem mem_iff_lookup (distinct : (entries.map Prod.fst).Nodup) :
    (name,value) ∈ entries ↔ entries.lookup name = some value := by
  induction entries with
  | nil => simp
  | cons entry entries ih =>
    obtain ⟨first,found⟩ := entry
    obtain ⟨fresh,later⟩ := List.nodup_cons.mp distinct
    rw [List.mem_cons,ih later,List.lookup_cons]
    by_cases same : name = first
    · subst same
      have none : ¬entries.lookup name = some value := fun there =>
        fresh (List.mem_map.mpr ⟨(name,value),(ih later).mpr there,rfl⟩)
      simp [none,eq_comm]
    · simp [same,beq_false_of_ne same]

theorem lookup_perm (distinct : (entries.map Prod.fst).Nodup) (moved : entries.Perm others) (name : String) :
    entries.lookup name = others.lookup name := by
  have unique : (others.map Prod.fst).Nodup := (moved.map _).nodup_iff.mp distinct
  ext value
  rw [←mem_iff_lookup distinct,←mem_iff_lookup unique,moved.mem_iff]

theorem lookup_restated (step : Restated fields optional inner (.map entries) (.map others)) (member : name ∈ fields) :
    Answers optional inner name (entries.lookup name) (others.lookup name) := by
  cases step with
  | reordered distinct moved =>
    rw [lookup_perm distinct moved]
    exact .same
  | @unread added front rest value unasked =>
    have apart : name ≠ added := fun same => unasked (same ▸ member)
    rw [lookup_inserted,if_neg apart,List.lookup_append]
    exact .same
  | @null inserted front rest may absent =>
    rw [lookup_inserted,List.lookup_append]
    by_cases same : name = inserted
    · subst same
      rw [List.lookup_append,Option.or_eq_none_iff] at absent
      rw [absent.1,absent.2,if_pos rfl]
      exact .null may
    · rw [if_neg same]
      exact .same
  | @within changed a b front rest alike =>
    rw [lookup_inserted,lookup_inserted]
    by_cases same : name = changed
    · subst same
      rw [if_pos rfl,if_pos rfl]
      cases front.lookup name with
      | none => exact .within alike
      | some value => exact .same
    · rw [if_neg same,if_neg same]
      exact .same

theorem lookup_zip (unique : fields.Nodup) (values : List Tree) (all : values.length = fields.length) :
    fields.map (fun name => (fields.zip values).lookup name) = values.map some := by
  induction fields generalizing values with
  | nil =>
    rw [List.length_eq_zero_iff.mp all]
    rfl
  | cons first fields ih =>
    obtain ⟨fresh,later⟩ := List.nodup_cons.mp unique
    cases values with
    | nil => cases all
    | cons value values =>
      have behind : ∀ name ∈ fields, ((first :: fields).zip (value :: values)).lookup name =
          (fields.zip values).lookup name := by
        intro name member
        have other : name ≠ first := fun same => fresh (same ▸ member)
        simp [List.lookup_cons,beq_false_of_ne other]
      rw [List.map_cons,List.map_congr_left behind,ih later values (Nat.succ.inj all)]
      simp

theorem fields?_listed (unique : fields.Nodup) {values : List Tree} (all : values.length = fields.length) :
    (seq values).fields? fields = some (fields.map fun name => (fields.zip values).lookup name) := by
  rw [Tree.fields?,if_pos (beq_iff_eq.mpr all),lookup_zip unique values all]

theorem fields?_restated (unique : fields.Nodup) (step : Restated fields optional inner t u) :
    ∃ before after, t.fields? fields = some (fields.map before) ∧ u.fields? fields = some (fields.map after) ∧
      ∀ name ∈ fields, Answers optional inner name (before name) (after name) := by
  cases step with
  | listed all => exact ⟨_,_,rfl,fields?_listed unique all,fun _ _ => .same⟩
  | reordered distinct moved => exact ⟨_,_,rfl,rfl,fun name => lookup_restated (.reordered distinct moved)⟩
  | unread other => exact ⟨_,_,rfl,rfl,fun name => lookup_restated (.unread other)⟩
  | null may absent => exact ⟨_,_,rfl,rfl,fun name => lookup_restated (.null may absent)⟩
  | within alike => exact ⟨_,_,rfl,rfl,fun name => lookup_restated (.within alike)⟩

theorem mem_asked (entry : String × Tree) (found : String → Option Tree) :
    entry ∈ asked fields found ↔ entry.1 ∈ fields ∧ found entry.1 = some entry.2 := by
  obtain ⟨name,value⟩ := entry
  simp only [asked,List.mem_filterMap,Option.map_eq_some_iff,Prod.mk.injEq]
  constructor
  · rintro ⟨name,member,value,there,rfl,rfl⟩
    exact ⟨member,there⟩
  · rintro ⟨member,there⟩
    exact ⟨name,member,value,there,rfl,rfl⟩

theorem asked_cons (first : String) (fields : List String) (found : String → Option Tree) :
    asked (first :: fields) found = ((found first).map (first,·)).toList ++ asked fields found := by
  cases there : found first <;> simp [asked,there]

theorem asked_nodup (unique : fields.Nodup) (found : String → Option Tree) : (asked fields found).Nodup := by
  refine unique.filterMap ?_
  intro name other entry one two
  obtain ⟨_,_,rfl⟩ := Option.map_eq_some_iff.mp one
  obtain ⟨_,_,same⟩ := Option.map_eq_some_iff.mp two
  exact (Prod.mk.inj same).1.symm

theorem asked_perm (distinct : (entries.map Prod.fst).Nodup) (unique : fields.Nodup) :
    (asked fields (fun name => entries.lookup name) ++ entries.filter fun entry => entry.1 ∉ fields).Perm entries := by
  have apart : ∀ entry ∈ asked fields (fun name => entries.lookup name),
      ∀ other ∈ entries.filter (fun entry => entry.1 ∉ fields), entry ≠ other := by
    rintro entry one _ two rfl
    exact (decide_eq_true_eq.mp (List.mem_filter.mp two).2) ((mem_asked _ _).mp one).1
  have each := distinct.of_map
  refine (List.perm_ext_iff_of_nodup (List.nodup_append.mpr ⟨asked_nodup unique _,each.filter _,apart⟩) each).mpr ?_
  intro entry
  rw [List.mem_append,mem_asked,←mem_iff_lookup distinct,List.mem_filter,decide_eq_true_eq]
  by_cases read : entry.1 ∈ fields
  · simp [read]
  · simp [read]

theorem within_alike {a b : Tree} (front rest : Entries) (alike : inner name a b) :
    Alike fields optional inner (.map (front ++ (name,a) :: rest)) (.map (front ++ (name,b) :: rest)) :=
  .rel _ _ (.within alike)

theorem unread_alike (front others : Entries) (unread : ∀ entry ∈ others, entry.1 ∉ fields) :
    Alike fields optional inner (.map front) (.map (front ++ others)) := by
  induction others generalizing front with
  | nil =>
    rw [List.append_nil]
    exact .refl _
  | cons entry others ih =>
    have step : Restated fields optional inner (.map (front ++ [])) (.map (front ++ entry :: [])) :=
      .unread (unread entry List.mem_cons_self)
    rw [List.append_nil] at step
    have rest := ih (front ++ [entry]) fun other member => unread other (List.mem_cons_of_mem _ member)
    rw [List.append_assoc] at rest
    exact .trans _ _ _ (.rel _ _ step) rest

theorem asked_map (unique : fields.Nodup) (distinct : (entries.map Prod.fst).Nodup) :
    Alike fields optional inner (.map (asked fields fun name => entries.lookup name)) (.map entries) := by
  have perm := asked_perm distinct unique
  have added : Alike fields optional inner (.map (asked fields fun name => entries.lookup name)) _ :=
    unread_alike _ (entries.filter fun entry => entry.1 ∉ fields) fun entry member =>
      decide_eq_true_eq.mp (List.mem_filter.mp member).2
  exact .trans _ _ _ added (.rel _ _ (.reordered ((perm.map _).nodup_iff.mpr distinct) perm))

-- Whatever fields are found in, it says the same as these fields alone.
theorem asked_alike (optional : List String) (inner : String → Tree → Tree → Prop) (unique : fields.Nodup)
    (well : WellNamed t) (there : t.fields? fields ≠ none) :
    ∃ found, t.fields? fields = some (fields.map found) ∧ Alike fields optional inner (.map (asked fields found)) t ∧
      ∀ name value, found name = some value → WellNamed value := by
  cases well with
  | leaf single =>
    cases t with
    | map => exact absurd rfl single.1
    | seq => exact absurd rfl single.2
    | _ => exact absurd rfl there
  | @map entries distinct each =>
    refine ⟨fun name => entries.lookup name,rfl,asked_map unique distinct,?_⟩
    intro name value found
    exact each _ ((mem_iff_lookup distinct).mpr found)
  | @seq values each =>
    have all : values.length = fields.length := by
      by_contra short
      exact there (if_neg (mt beq_iff_eq.mp short))
    have names : (fields.zip values).map Prod.fst = fields := List.map_fst_zip (Nat.le_of_eq all.symm)
    have distinct : ((fields.zip values).map Prod.fst).Nodup := names.symm ▸ unique
    refine ⟨fun name => (fields.zip values).lookup name,fields?_listed unique all,?_,?_⟩
    · exact .trans _ _ _ (asked_map unique distinct) (.rel _ _ (.listed all))
    · intro name value found
      exact each _ (List.of_mem_zip ((mem_iff_lookup distinct).mpr found)).2

end AutomationLint.Tree
