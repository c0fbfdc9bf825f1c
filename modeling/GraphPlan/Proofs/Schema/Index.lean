import GraphPlan.Schema.Basic
import Mathlib.Data.List.Basic
import Mathlib.Data.List.Induction

/-!
# The index of a schema

A schema keeps three things beside each other: the list of its columns, an index from keys to
positions, and a table of aliases. `Schema.Valid` says that they agree: every column stands at its
position, the index gives the last column with a key, and no alias points outside.

The view of a schema is `Schema.contents`, the list of what its columns hold. Operations that add
columns are instances of `pushAll`, and every lookup is explained by the view.
-/

namespace GraphPlan

namespace Content

theorem key_eq_var {c : Content} {x : String} : c.key = .var x ↔ c = .var x := by
  cases c <;> simp [key]

theorem key_eq_attr {c : Content} {x a : String} : c.key = .attr x a ↔ c = .attr x a := by
  cases c <;> simp [key]

theorem key_eq_label {c : Content} {x : String} : c.key = .label x ↔ c = .label x := by
  cases c <;> simp [key]

theorem isStructural_of_role {c : Content} (h : c.role ≠ .computed) (h' : c.role ≠ .aggregate) :
    c.isStructural = true := by
  cases c <;> simp [role, isStructural] at h h' ⊢

theorem role_ne_aggregate_of_isStructural {c : Content} (h : c.isStructural = true) :
    c.role ≠ .aggregate := by
  cases c <;> simp [role, isStructural] at h ⊢

end Content

namespace Schema

variable {s : Schema}

/-! ## The view -/

/-- What the columns hold, in the order of their positions. -/
def contents (s : Schema) : List Content :=
  s.columns.map Column.content

@[simp]
theorem contents_empty : empty.contents = [] :=
  rfl

@[simp]
theorem length_contents (s : Schema) : s.contents.length = s.width := by
  simp [contents, width]

@[simp]
theorem contents_push (s : Schema) (c : Content) : (s.push c).contents = s.contents ++ [c] := by
  simp [contents]

/-- Appends several columns. -/
def pushAll (s : Schema) (cs : List Content) : Schema :=
  cs.foldl push s

@[simp]
theorem pushAll_nil (s : Schema) : s.pushAll [] = s :=
  rfl

@[simp]
theorem pushAll_cons (s : Schema) (c : Content) (cs : List Content) :
    s.pushAll (c :: cs) = (s.push c).pushAll cs :=
  rfl

theorem pushAll_append (s : Schema) (cs ds : List Content) :
    s.pushAll (cs ++ ds) = (s.pushAll cs).pushAll ds :=
  List.foldl_append

@[simp]
theorem contents_pushAll (s : Schema) (cs : List Content) :
    (s.pushAll cs).contents = s.contents ++ cs := by
  induction cs generalizing s with
  | nil => simp
  | cons c cs ih => rw [pushAll_cons, ih, contents_push, List.append_assoc, List.singleton_append]

@[simp]
theorem width_pushAll (s : Schema) (cs : List Content) :
    (s.pushAll cs).width = s.width + cs.length := by
  rw [← length_contents, contents_pushAll, List.length_append, length_contents]

@[simp]
theorem aliases_pushAll (s : Schema) (cs : List Content) : (s.pushAll cs).aliases = s.aliases := by
  induction cs generalizing s with
  | nil => rfl
  | cons c cs ih => rw [pushAll_cons, ih, aliases_push]

/-- The keys that are known after columns were added. -/
theorem isSome_get?_pushAll {s : Schema} {cs : List Content} {key : ColumnKey} :
    ((s.pushAll cs).keys.get? key).isSome = true ↔
      (s.keys.get? key).isSome = true ∨ ∃ c ∈ cs, c.key = key := by
  induction cs generalizing s with
  | nil => simp
  | cons c cs ih =>
    rw [pushAll_cons, ih, get?_keys_push]
    by_cases hc : key = c.key
    · simp [hc]
    · rw [if_neg hc]
      simp [Ne.symm hc]

/-- The position of a key that the new columns do not have. -/
theorem get?_keys_pushAll {s : Schema} {cs : List Content} {key : ColumnKey}
    (h : ∀ c ∈ cs, c.key ≠ key) :
    (s.pushAll cs).keys.get? key = s.keys.get? key := by
  induction cs generalizing s with
  | nil => rfl
  | cons c cs ih =>
    rw [pushAll_cons, ih fun d hd => h d (.tail c hd), get?_keys_push,
      if_neg (h c List.mem_cons_self).symm]

theorem varColumn?_pushAll {s : Schema} {cs : List Content} {x : String}
    (h : Content.var x ∉ cs) : (s.pushAll cs).varColumn? x = s.varColumn? x := by
  refine get?_keys_pushAll ?_
  intro c hc hkey
  rw [Content.key_eq_var.1 hkey] at hc
  exact h hc

/-- Adding attributes of a variable one by one. -/
theorem foldl_addAttribute (s : Schema) (x : String) (attrs : List String) :
    attrs.foldl (fun s a => s.addAttribute x a) s = s.pushAll (attrs.map (.attr x)) := by
  rw [pushAll, List.foldl_map]
  rfl

/-! ## Agreement of columns, index and aliases -/

/-- `i` is the last place in a list with the given key. -/
def IsLast (cs : List Content) (key : ColumnKey) (i : Nat) : Prop :=
  (∃ c, cs[i]? = some c ∧ c.key = key) ∧ ∀ j c, cs[j]? = some c → c.key = key → j ≤ i

theorem not_isLast_nil (key : ColumnKey) (i : Nat) : ¬ IsLast [] key i := by
  rintro ⟨⟨c, hc, -⟩, -⟩
  simp at hc

/-- A column at the end is the last one with its key, and leaves the last places of other keys. -/
theorem isLast_append_singleton {cs : List Content} {c : Content} {key : ColumnKey} {i : Nat} :
    IsLast (cs ++ [c]) key i ↔ if key = c.key then i = cs.length else IsLast cs key i := by
  split
  · next hkey =>
    subst hkey
    constructor
    · rintro ⟨⟨d, hd, -⟩, hmax⟩
      have hle := hmax cs.length c (by simp) rfl
      have hlt := (List.getElem?_eq_some_iff.1 hd).1
      simp only [List.length_append, List.length_singleton] at hlt
      omega
    · rintro rfl
      refine ⟨⟨c, by simp, rfl⟩, fun j d hd _ => ?_⟩
      have hlt := (List.getElem?_eq_some_iff.1 hd).1
      simp only [List.length_append, List.length_singleton] at hlt
      omega
  · next hkey =>
    -- the new column does not have the key, so only the old ones count
    have hold : ∀ (j : Nat) (d : Content), d.key = key →
        ((cs ++ [c])[j]? = some d ↔ cs[j]? = some d) := by
      intro j d hd
      rcases Nat.lt_trichotomy j cs.length with hj | hj | hj
      · rw [List.getElem?_append_left hj]
      · subst hj
        simp only [List.getElem?_concat_length, Option.some.injEq, Nat.le_refl,
          List.getElem?_eq_none, reduceCtorEq, iff_false]
        rintro rfl
        exact hkey hd.symm
      · rw [List.getElem?_eq_none (Nat.le_of_lt hj), List.getElem?_eq_none (by simp; omega)]
    constructor
    · rintro ⟨⟨d, hd, hdk⟩, hmax⟩
      exact ⟨⟨d, (hold i d hdk).1 hd, hdk⟩, fun j e he hek => hmax j e ((hold j e hek).2 he) hek⟩
    · rintro ⟨⟨d, hd, hdk⟩, hmax⟩
      exact ⟨⟨d, (hold i d hdk).2 hd, hdk⟩, fun j e he hek => hmax j e ((hold j e hek).1 he) hek⟩

/-- A key that occurs has a last place. -/
theorem exists_isLast {cs : List Content} {c : Content} (h : c ∈ cs) :
    ∃ i, IsLast cs c.key i := by
  induction cs using List.reverseRecOn with
  | nil => cases h
  | append_singleton cs d ih =>
    by_cases hd : c.key = d.key
    · exact ⟨cs.length, isLast_append_singleton.2 (by rw [if_pos hd])⟩
    · have hc : c ∈ cs := by
        rcases List.mem_append.1 h with h | h
        · exact h
        · rw [List.mem_singleton.1 h] at hd
          exact absurd rfl hd
      obtain ⟨i, hi⟩ := ih hc
      exact ⟨i, isLast_append_singleton.2 (by rw [if_neg hd]; exact hi)⟩

/-- Columns, index and aliases agree. -/
structure Valid (s : Schema) : Prop where
  /-- Every column stands at its position. -/
  position : ∀ (i : Nat) (c : Column), s.columns[i]? = some c → c.position = i
  /-- The index gives the last column with a key. -/
  key : ∀ key i, s.keys.get? key = some i ↔ IsLast s.contents key i
  /-- Aliases stand for columns that exist. -/
  alias_lt : ∀ name i, s.aliases.get? name = some i → i < s.width

theorem valid_empty : empty.Valid where
  position := by
    intro i c h
    simp [empty] at h
  key := by
    intro key i
    simp only [contents_empty, not_isLast_nil, iff_false]
    intro h
    cases h
  alias_lt := by
    intro name i h
    simp [empty, Table.empty, Table.get?] at h

/-- Appending a column keeps the parts in agreement. -/
theorem Valid.push (hs : s.Valid) (c : Content) : (s.push c).Valid where
  position := by
    intro i d hd
    rw [columns_push] at hd
    rcases Nat.lt_or_ge i s.columns.length with hi | hi
    · rw [List.getElem?_append_left hi] at hd
      exact hs.position i d hd
    · have hlt := (List.getElem?_eq_some_iff.1 hd).1
      simp only [List.length_append, List.length_singleton] at hlt
      have hi : i = s.columns.length := by omega
      subst hi
      simp only [List.getElem?_concat_length, Option.some.injEq] at hd
      rw [← hd]
      rfl
  key := by
    intro key i
    rw [get?_keys_push, contents_push, isLast_append_singleton, length_contents, ← hs.key]
    split <;> simp [eq_comm]
  alias_lt := by
    intro name i h
    rw [width_push]
    exact Nat.lt_succ_of_lt (hs.alias_lt name i h)

theorem Valid.pushAll (hs : s.Valid) (cs : List Content) : (s.pushAll cs).Valid := by
  induction cs generalizing s with
  | nil => exact hs
  | cons c cs ih => exact ih (hs.push c)

theorem Valid.addComputed (hs : s.Valid) : s.addComputed.Valid :=
  Valid.push (s := { s with nextSerial := s.nextSerial + 1 }) ⟨hs.position, hs.key, hs.alias_lt⟩ _

/-- An alias for an existing column may be declared. -/
theorem Valid.insertAlias (hs : s.Valid) (name : String) {column : Nat} (h : column < s.width) :
    ({ s with aliases := s.aliases.insert name column } : Schema).Valid where
  position := hs.position
  key := hs.key
  alias_lt := by
    intro other i hi
    rw [Table.get?_insert] at hi
    split at hi
    · cases hi
      exact h
    · exact hs.alias_lt other i hi

theorem Valid.addAggregate (hs : s.Valid) (kind : AggregateKind) (source : String) :
    (s.addAggregate kind source).Valid :=
  (hs.push (.aggregate kind source)).insertAlias _ (by rw [width_push]; exact Nat.lt_succ_self _)

/-! ## Lookups -/

/-- What the index gives is a column with the key. -/
theorem Valid.getElem?_of_get? (hs : s.Valid) {key : ColumnKey} {i : Nat}
    (h : s.keys.get? key = some i) : ∃ c, s.contents[i]? = some c ∧ c.key = key :=
  ((hs.key key i).1 h).1

theorem Valid.get?_lt (hs : s.Valid) {key : ColumnKey} {i : Nat} (h : s.keys.get? key = some i) :
    i < s.width := by
  obtain ⟨c, hc, -⟩ := hs.getElem?_of_get? h
  rw [← length_contents]
  exact (List.getElem?_eq_some_iff.1 hc).1

/-- The index knows exactly the keys of the columns. -/
theorem Valid.isSome_get? (hs : s.Valid) {key : ColumnKey} :
    (s.keys.get? key).isSome = true ↔ ∃ c ∈ s.contents, c.key = key := by
  rw [Option.isSome_iff_exists]
  constructor
  · rintro ⟨i, hi⟩
    obtain ⟨c, hc, hk⟩ := hs.getElem?_of_get? hi
    exact ⟨c, List.mem_of_getElem? hc, hk⟩
  · rintro ⟨c, hc, rfl⟩
    obtain ⟨i, hi⟩ := exists_isLast hc
    exact ⟨i, (hs.key _ i).2 hi⟩

theorem Valid.getElem?_of_varColumn? (hs : s.Valid) {x : String} {i : Nat}
    (h : s.varColumn? x = some i) : s.contents[i]? = some (.var x) := by
  obtain ⟨c, hc, hk⟩ := hs.getElem?_of_get? h
  rw [hc, Content.key_eq_var.1 hk]

theorem Valid.getElem?_of_attrColumn? (hs : s.Valid) {x a : String} {i : Nat}
    (h : s.attrColumn? x a = some i) : s.contents[i]? = some (.attr x a) := by
  obtain ⟨c, hc, hk⟩ := hs.getElem?_of_get? h
  rw [hc, Content.key_eq_attr.1 hk]

theorem Valid.getElem?_of_labelColumn? (hs : s.Valid) {x : String} {i : Nat}
    (h : s.labelColumn? x = some i) : s.contents[i]? = some (.label x) := by
  obtain ⟨c, hc, hk⟩ := hs.getElem?_of_get? h
  rw [hc, Content.key_eq_label.1 hk]

theorem hasVariable_of_varColumn? {x : String} {i : Nat} (h : s.varColumn? x = some i) :
    s.hasVariable x = true := by
  rw [hasVariable, h]
  rfl

/-- A key that only one content has is found exactly when some column holds that content. -/
theorem Valid.isSome_get?_key (hs : s.Valid) (c : Content)
    (hc : ∀ d : Content, d.key = c.key → d = c) :
    (s.keys.get? c.key).isSome = true ↔ c ∈ s.contents := by
  rw [hs.isSome_get?]
  constructor
  · rintro ⟨d, hd, hk⟩
    rwa [hc d hk] at hd
  · intro h
    exact ⟨c, h, rfl⟩

/-- A variable is found exactly when it has a column. -/
theorem Valid.hasVariable_iff (hs : s.Valid) {x : String} :
    s.hasVariable x = true ↔ Content.var x ∈ s.contents :=
  hs.isSome_get?_key (.var x) fun _ => Content.key_eq_var.1

/-- An attribute is found exactly when it has a column. -/
theorem Valid.hasAttribute_iff (hs : s.Valid) {x a : String} :
    s.hasAttribute x a = true ↔ Content.attr x a ∈ s.contents :=
  hs.isSome_get?_key (.attr x a) fun _ => Content.key_eq_attr.1

/-- A label is found exactly when it has a column. -/
theorem Valid.hasLabel_iff (hs : s.Valid) {x : String} :
    s.hasLabel x = true ↔ Content.label x ∈ s.contents :=
  hs.isSome_get?_key (.label x) fun _ => Content.key_eq_label.1

/-- The list of variables holds exactly those that are found. -/
theorem Valid.mem_vars (hs : s.Valid) {x : String} :
    x ∈ s.vars ↔ s.hasVariable x = true := by
  rw [hs.hasVariable_iff, vars, contents, List.mem_filterMap, List.mem_map]
  constructor
  · rintro ⟨c, hc, hx⟩
    refine ⟨c, hc, ?_⟩
    split at hx
    · next name hname =>
      cases hx
      exact hname
    · cases hx
  · rintro ⟨c, hc, hx⟩
    exact ⟨c, hc, by rw [hx]⟩

/-- No aggregate is found where no column holds one. -/
theorem Valid.aggregateColumn?_eq_none (hs : s.Valid)
    (h : ∀ c ∈ s.contents, c.role ≠ .aggregate) (text : String) :
    s.aggregateColumn? text = none := by
  rw [← Option.not_isSome_iff_eq_none, aggregateColumn?, hs.isSome_get?]
  rintro ⟨c, hc, hkey⟩
  refine h c hc ?_
  cases c <;> simp [Content.key, Content.role] at hkey ⊢

/-- Columns of which none is computed or aggregated can be appended. -/
theorem append_eq_ok {t : Schema} (h : ∀ c ∈ t.contents, c.isStructural = true) (s : Schema) :
    Schema.append t s = .ok () (s.pushAll t.contents) := by
  have hfind : (t.columns.find? fun c => !c.content.isStructural) = none := by
    rw [List.find?_eq_none]
    intro c hc
    have := h c.content (List.mem_map.2 ⟨c, hc, rfl⟩)
    simp [this]
  unfold Schema.append
  rw [hfind, Schema.pushAll, contents, List.foldl_map]

/-- A variable that has a column keeps one when columns are added. -/
theorem Valid.hasVariable_pushAll (hs : s.Valid) {cs : List Content} {x : String} :
    (s.pushAll cs).hasVariable x = true ↔ s.hasVariable x = true ∨ Content.var x ∈ cs := by
  rw [(hs.pushAll cs).hasVariable_iff, hs.hasVariable_iff, contents_pushAll, List.mem_append]

/-! ## Schemas of patterns -/

/-- The schema of a plan that finds matches: its columns hold objects bound to variables and what is
read from them, and nothing has another name yet. -/
structure OfPattern (s : Schema) : Prop where
  /-- The parts of the schema agree. -/
  valid : s.Valid
  /-- No column is computed or aggregated. -/
  structural : ∀ c ∈ s.contents, c.isStructural = true
  /-- The variable that a column is about has a column. -/
  bound : ∀ c ∈ s.contents, Content.var c.primary ∈ s.contents
  /-- There are no aliases. -/
  alias_none : ∀ name, s.aliasColumn? name = none

theorem ofPattern_empty : empty.OfPattern where
  valid := valid_empty
  structural := by simp
  bound := by simp
  alias_none := fun _ => rfl

/-- Columns about variables that are bound may be added. -/
theorem OfPattern.pushAll (hs : s.OfPattern) {cs : List Content}
    (hcs : ∀ c ∈ cs, c.isStructural = true)
    (hb : ∀ c ∈ cs, Content.var c.primary ∈ s.contents ++ cs) : (s.pushAll cs).OfPattern where
  valid := hs.valid.pushAll cs
  structural := by
    intro c hc
    rw [contents_pushAll] at hc
    rcases List.mem_append.1 hc with hc | hc
    · exact hs.structural c hc
    · exact hcs c hc
  bound := by
    intro c hc
    rw [contents_pushAll] at hc ⊢
    rcases List.mem_append.1 hc with hc | hc
    · exact List.mem_append_left _ (hs.bound c hc)
    · exact hb c hc
  alias_none := by
    intro name
    rw [aliasColumn?, aliases_pushAll]
    exact hs.alias_none name

/-- One schema of a pattern after another is one. -/
theorem OfPattern.pushAll_contents (hs : s.OfPattern) {t : Schema} (ht : t.OfPattern) :
    (s.pushAll t.contents).OfPattern :=
  hs.pushAll ht.structural fun c hc => List.mem_append_right _ (ht.bound c hc)

theorem OfPattern.addVariable (hs : s.OfPattern) (x : String) : (s.addVariable x).OfPattern := by
  show (s.pushAll [.var x]).OfPattern
  refine hs.pushAll ?_ ?_
  · simp [Content.isStructural]
  · simp [Content.primary]

/-- No aggregate has a column in the schema of a pattern. -/
theorem OfPattern.aggregateColumn?_eq_none (hs : s.OfPattern) (text : String) :
    s.aggregateColumn? text = none :=
  hs.valid.aggregateColumn?_eq_none
    (fun c hc => Content.role_ne_aggregate_of_isStructural (hs.structural c hc)) text

/-- Merging with the schema of a pattern succeeds and appends its columns. -/
theorem OfPattern.append_eq_ok {t : Schema} (ht : t.OfPattern) (s : Schema) :
    Schema.append t s = .ok () (s.pushAll t.contents) :=
  Schema.append_eq_ok ht.structural s

end Schema

end GraphPlan
