import GraphPlan.Decimal.Numeral
import GraphPlan.Proofs.Schema.Distinct
import Mathlib.Order.Bounds.Basic

/-!
# Schemas that can be built

`Schema.Reachable n` are the schemas that come out of the empty one by changes in any order, `n` of
which made a computed column. Keys may repeat in them, so they are not `Sharp`. What always holds is
`Schema.Consistent`: the parts agree, the index gives the greatest position with a key, and no two
computed columns have the same name. A change that fails changes nothing.
-/

namespace GraphPlan

/-- The number of a computed column. -/
def Content.serial? : Content → Option Nat
  | .computed n => some n
  | _ => none

namespace Content

theorem serial?_eq_some {c : Content} {n : Nat} : c.serial? = some n ↔ c = .computed n := by
  cases c <;> simp [serial?]

theorem mem_filterMap_serial? {cs : List Content} {n : Nat} :
    n ∈ cs.filterMap serial? ↔ .computed n ∈ cs := by
  simp [List.mem_filterMap, serial?_eq_some]

/-- A column that can be carried over into another plan has no number. -/
theorem serial?_eq_none_of_isStructural {c : Content} (h : c.isStructural = true) :
    c.serial? = none := by
  cases c <;> simp [serial?, isStructural] at h ⊢

/-- The names of computed columns differ when their numbers do. -/
theorem primary_computed_inj {m n : Nat} :
    (computed m).primary = (computed n).primary ↔ m = n := by
  show "expr#" ++ Nat.repr m = "expr#" ++ Nat.repr n ↔ m = n
  rw [String.append_right_inj]
  constructor
  · intro h
    have hdigits : natDigits m = natDigits n := by
      have hlist := congrArg String.toList h
      rwa [Nat.toList_repr, Nat.toList_repr] at hlist
    rw [← digitsValue_natDigits m, hdigits, digitsValue_natDigits]
  · rintro rfl
    rfl

end Content

namespace Schema

variable {n : Nat} {s t : Schema}

/-! ## Changes -/

/-- A change of one schema. -/
inductive Change where
  | addVariable (var : String)
  | addAttribute (var attr : String)
  | addLabel (var : String)
  | addScratch (tag : String)
  | addComputed
  | addAggregate (kind : AggregateKind) (source : String)
  | setAlias (name : String) (column : Nat)
  | reduce (keep : List Nat)

/-- Carries a change out. -/
def Change.run : Change → SchemaM Unit
  | addVariable var => modify (·.addVariable var)
  | addAttribute var attr => modify (·.addAttribute var attr)
  | addLabel var => modify (·.addLabel var)
  | addScratch tag => modify (·.addScratch tag)
  | addComputed => modify (·.addComputed)
  | addAggregate kind source => modify (·.addAggregate kind source)
  | setAlias name column => Schema.setAlias name column
  | reduce keep => discard (Schema.reduce keep)

/-- How many computed columns a change makes. -/
def Change.created : Change → Nat
  | addComputed => 1
  | _ => 0

/-- The schemas that changes and merging lead to, with the number of computed columns made on the
way. -/
inductive Reachable : Nat → Schema → Prop where
  | empty : Reachable 0 empty
  | change {n : Nat} {s : Schema} (h : Reachable n s) (c : Change) :
      Reachable (n + c.created) (stateAfter c.run s)
  | append {n m : Nat} {s t : Schema} (h : Reachable n s) (h' : Reachable m t) :
      Reachable n (stateAfter (Schema.append t) s)

/-! ## Failures -/

theorem eq_of_setAlias_eq_error {name : String} {column : Nat} {e : PlanError} {s' : Schema}
    (h : setAlias name column s = .error e s') : s' = s := by
  unfold setAlias at h
  split at h
  · cases h
  · cases h
    rfl

theorem eq_of_reduce_eq_error {keep : List Nat} {e : PlanError} {s' : Schema}
    (h : reduce keep s = .error e s') : s' = s := by
  unfold reduce at h
  split at h
  · cases h
    rfl
  · cases h

theorem eq_of_append_eq_error {e : PlanError} {s' : Schema} (h : append t s = .error e s') :
    s' = s := by
  unfold append at h
  split at h
  · cases h
    rfl
  · cases h

theorem Change.run_reduce (keep : List Nat) (s : Schema) :
    (Change.reduce keep).run s =
      match Schema.reduce keep s with
      | .ok _ s' => .ok () s'
      | .error e s' => .error e s' := by
  show (Functor.discard (Schema.reduce keep) : SchemaM Unit) s = _
  simp only [Functor.discard, Functor.mapConst, EStateM.map, Function.comp_apply]
  cases Schema.reduce keep s <;> rfl

/-- A change that fails leaves the schema as it was. -/
theorem Change.eq_of_run_eq_error {c : Change} {e : PlanError} {s' : Schema}
    (h : c.run s = .error e s') : s' = s := by
  cases c with
  | setAlias name column => exact eq_of_setAlias_eq_error h
  | reduce keep =>
    rw [run_reduce] at h
    cases hr : Schema.reduce keep s with
    | ok remap s'' =>
      rw [hr] at h
      cases h
    | error e' s'' =>
      rw [hr] at h
      cases h
      exact eq_of_reduce_eq_error hr
  | _ => cases h

/-! ## Numbers of computed columns -/

/-- Columns, index and aliases agree, and the numbers of the computed columns are distinct and below
the counter, which counts the computed columns that were made. -/
structure Counted (n : Nat) (s : Schema) : Prop where
  valid : s.Valid
  nodup : (s.contents.filterMap Content.serial?).Nodup
  serial_lt : ∀ m, .computed m ∈ s.contents → m < s.nextSerial
  nextSerial_eq : s.nextSerial = n

theorem Counted.pushAll (hs : s.Counted n) {cs : List Content}
    (hcs : ∀ c ∈ cs, c.serial? = none) : (s.pushAll cs).Counted n where
  valid := hs.valid.pushAll cs
  nodup := by
    have hnone : cs.filterMap Content.serial? = [] := List.filterMap_eq_nil_iff.2 hcs
    rw [contents_pushAll, List.filterMap_append, hnone, List.append_nil]
    exact hs.nodup
  serial_lt := by
    intro m hm
    rw [nextSerial_pushAll]
    rw [contents_pushAll] at hm
    rcases List.mem_append.1 hm with hm | hm
    · exact hs.serial_lt m hm
    · have hserial := hcs _ hm
      cases hserial
  nextSerial_eq := by
    rw [nextSerial_pushAll]
    exact hs.nextSerial_eq

theorem Counted.push (hs : s.Counted n) {c : Content} (hc : c.serial? = none) :
    (s.push c).Counted n := by
  have h : (s.pushAll [c]).Counted n := hs.pushAll (by simpa using hc)
  exact h

theorem Counted.insertAlias (hs : s.Counted n) (name : String) {column : Nat}
    (h : column < s.width) :
    ({ s with aliases := s.aliases.insert name column } : Schema).Counted n :=
  ⟨hs.valid.insertAlias name h, hs.nodup, hs.serial_lt, hs.nextSerial_eq⟩

theorem Counted.addComputed (hs : s.Counted n) : s.addComputed.Counted (n + 1) := by
  have hcontents : s.addComputed.contents = s.contents ++ [.computed s.nextSerial] :=
    contents_push { s with nextSerial := s.nextSerial + 1 } _
  have hnext : s.addComputed.nextSerial = s.nextSerial + 1 := rfl
  refine ⟨hs.valid.addComputed, ?_, ?_, ?_⟩
  · rw [hcontents, List.filterMap_append, List.nodup_append]
    refine ⟨hs.nodup, List.nodup_singleton _, ?_⟩
    intro a ha b hb hab
    have hb : b = s.nextSerial := List.mem_singleton.1 hb
    have hlt := hs.serial_lt a (Content.mem_filterMap_serial?.1 ha)
    omega
  · intro m hm
    rw [hcontents] at hm
    rw [hnext]
    rcases List.mem_append.1 hm with hm | hm
    · have hlt := hs.serial_lt m hm
      omega
    · cases List.mem_singleton.1 hm
      omega
  · rw [hnext, hs.nextSerial_eq]

/-- Distinct numbers determine the positions. -/
theorem eq_of_nodup_serials {cs : List Content} (h : (cs.filterMap Content.serial?).Nodup)
    {i j m : Nat} (hi : cs[i]? = some (.computed m)) (hj : cs[j]? = some (.computed m)) :
    i = j := by
  rw [List.Nodup, List.pairwise_filterMap, List.pairwise_iff_getElem] at h
  obtain ⟨hi, hci⟩ := List.getElem?_eq_some_iff.1 hi
  obtain ⟨hj, hcj⟩ := List.getElem?_eq_some_iff.1 hj
  rcases Nat.lt_trichotomy i j with hlt | heq | hlt
  · exact absurd rfl (h i j hi hj hlt m (by rw [hci]; rfl) m (by rw [hcj]; rfl))
  · exact heq
  · exact absurd rfl (h j i hj hi hlt m (by rw [hcj]; rfl) m (by rw [hci]; rfl))

/-- A computed column that is kept twice is kept once as a computed column. -/
theorem nodup_serials_keepColumns {old : List Column}
    (hold : ((old.map Column.content).filterMap Content.serial?).Nodup)
    (mapping : List (Option Nat)) (position : Nat) (keep : List Nat) :
    (((keepColumns old mapping position keep).1.map Column.content).filterMap
      Content.serial?).Nodup := by
  induction keep generalizing mapping position with
  | nil => exact List.nodup_nil
  | cons p keep ih =>
    rw [keepColumns]
    split
    · exact ih _ _
    · next source hsource =>
      split
      · rw [List.map_cons, List.filterMap_cons]
        split
        · exact ih _ _
        · next m hm =>
          refine List.nodup_cons.2 ⟨?_, ih _ _⟩
          intro hmem
          have hcopy := Content.mem_filterMap_serial?.1 hmem
          obtain ⟨p', source', hfree, hsource', hm'⟩ :=
            exists_of_mem_keepColumns (by simp [Content.role]) hcopy
          have hi : (old.map Column.content)[p]? = some (.computed m) := by
            rw [List.getElem?_map, hsource, Option.map_some, Content.serial?_eq_some.1 hm]
          have hj : (old.map Column.content)[p']? = some (.computed m) := by
            rw [List.getElem?_map, hsource', Option.map_some, hm']
          -- the later copy would come from the same position, which is taken
          rw [eq_of_nodup_serials hold hi hj, List.getElem?_set, if_pos rfl] at hfree
          split at hfree <;> cases hfree
      · rw [List.map_cons, List.filterMap_cons_none rfl]
        exact ih _ _

theorem Counted.reduced (hs : s.Counted n) {keep : List Nat} (h : ∀ p ∈ keep, p < s.width) :
    (s.reduced keep).Counted n where
  valid := valid_reduced h
  nodup := nodup_serials_keepColumns hs.nodup _ _ _
  serial_lt := by
    intro m hm
    exact hs.serial_lt m (mem_contents_of_mem_reduced (by simp [Content.role]) hm)
  nextSerial_eq := hs.nextSerial_eq

/-! ## One change -/

theorem stateAfter_setAlias {name : String} {column : Nat} :
    stateAfter (setAlias name column) s =
      if column < s.width then { s with aliases := s.aliases.insert name column } else s := by
  unfold stateAfter setAlias
  by_cases h : column < s.width
  · simp only [if_pos h]
  · simp only [if_neg h]

/-- Keeping columns leaves the reduced schema, or the schema as it was if a column does not
exist. -/
theorem stateAfter_reduce (s : Schema) (keep : List Nat) :
    stateAfter (reduce keep) s = s.reduced keep ∧ (∀ p ∈ keep, p < s.width) ∨
      stateAfter (reduce keep) s = s := by
  unfold stateAfter reduce
  cases hfind : keep.find? fun p => s.width ≤ p with
  | none =>
    refine Or.inl ⟨rfl, ?_⟩
    intro p hp
    have hnot := List.find?_eq_none.1 hfind p hp
    simp only [decide_eq_true_eq] at hnot
    omega
  | some p => exact Or.inr rfl

/-- Merging appends the columns of the other schema, none of which is computed, or changes
nothing. -/
theorem stateAfter_append (s t : Schema) :
    stateAfter (append t) s = s.pushAll t.contents ∧ (∀ c ∈ t.contents, c.isStructural = true) ∨
      stateAfter (append t) s = s := by
  unfold stateAfter append
  cases hfind : t.columns.find? fun c => !c.content.isStructural with
  | none =>
    refine Or.inl ⟨?_, ?_⟩
    · rw [pushAll, contents, List.foldl_map]
    · intro content hcontent
      obtain ⟨c, hc, rfl⟩ := List.mem_map.1 hcontent
      have hnot := List.find?_eq_none.1 hfind c hc
      simpa using hnot
  | some c => exact Or.inr rfl

theorem counted_empty : empty.Counted 0 where
  valid := valid_empty
  nodup := List.nodup_nil
  serial_lt := by
    intro m hm
    cases hm
  nextSerial_eq := rfl

theorem Counted.change (hs : s.Counted n) (c : Change) :
    (stateAfter c.run s).Counted (n + c.created) := by
  cases c with
  | addVariable | addAttribute | addLabel | addScratch => exact hs.push rfl
  | addComputed => exact hs.addComputed
  | addAggregate kind source =>
    have hpush : (s.push (.aggregate kind source)).Counted n := hs.push rfl
    refine hpush.insertAlias _ ?_
    rw [width_push]
    omega
  | setAlias name column =>
    show (stateAfter (Schema.setAlias name column) s).Counted n
    rw [stateAfter_setAlias]
    by_cases h : column < s.width
    · rw [if_pos h]
      exact hs.insertAlias name h
    · rw [if_neg h]
      exact hs
  | reduce keep =>
    have hafter : stateAfter (Change.reduce keep).run s = stateAfter (Schema.reduce keep) s := by
      unfold stateAfter
      rw [Change.run_reduce]
      cases Schema.reduce keep s <;> rfl
    rw [hafter]
    rcases stateAfter_reduce s keep with ⟨heq, hlt⟩ | heq
    · rw [heq]
      exact hs.reduced hlt
    · rw [heq]
      exact hs

theorem Counted.append (hs : s.Counted n) (t : Schema) : (stateAfter (append t) s).Counted n := by
  rcases stateAfter_append s t with ⟨heq, hstructural⟩ | heq
  · rw [heq]
    exact hs.pushAll fun c hc => Content.serial?_eq_none_of_isStructural (hstructural c hc)
  · rw [heq]
    exact hs

theorem Reachable.counted (h : Reachable n s) : s.Counted n := by
  induction h with
  | empty => exact counted_empty
  | change _ c ih => exact ih.change c
  | append _ _ ih _ => exact ih.append _

/-! ## Consistency -/

/-- What every way of looking at a schema can rely on. -/
structure Consistent (s : Schema) : Prop where
  /-- Every column stands at its position. -/
  position : ∀ (i : Nat) (c : Column), s.columns[i]? = some c → c.position = i
  /-- The index gives the greatest position with a key. -/
  get?_eq_some_iff : ∀ key i, s.keys.get? key = some i ↔
    IsGreatest {j | ∃ c, s.columns[j]? = some c ∧ c.key = key} i
  /-- The index has no entry for a key that no column has, and only then. -/
  get?_eq_none_iff : ∀ key, s.keys.get? key = none ↔ ∀ c ∈ s.columns, c.key ≠ key
  /-- Aliases stand for columns that exist. -/
  alias_lt : ∀ name i, s.aliasColumn? name = some i → i < s.columns.length
  /-- No two computed columns have the same name. -/
  nodup_names : ((s.columns.filter fun c => c.content.role = .computed).map
    fun c => c.content.primary).Nodup

theorem isLast_iff_isGreatest {key : ColumnKey} {i : Nat} :
    IsLast s.contents key i ↔ IsGreatest {j | ∃ c, s.columns[j]? = some c ∧ c.key = key} i := by
  have hmem : ∀ j : Nat, (∃ c : Content, s.contents[j]? = some c ∧ c.key = key) ↔
      ∃ c : Column, s.columns[j]? = some c ∧ c.key = key := by
    intro j
    simp only [contents, List.getElem?_map, Option.map_eq_some_iff]
    constructor
    · rintro ⟨_, ⟨c, hc, rfl⟩, hkey⟩
      exact ⟨c, hc, hkey⟩
    · rintro ⟨c, hc, hkey⟩
      exact ⟨_, ⟨c, hc, rfl⟩, hkey⟩
  constructor
  · rintro ⟨hi, hmax⟩
    refine ⟨(hmem i).1 hi, ?_⟩
    intro j hj
    obtain ⟨c, hc, hkey⟩ := (hmem j).2 hj
    exact hmax j c hc hkey
  · rintro ⟨hi, hmax⟩
    refine ⟨(hmem i).2 hi, ?_⟩
    intro j c hc hkey
    exact hmax ((hmem j).1 ⟨c, hc, hkey⟩)

/-- The computed columns by their numbers. -/
theorem names_eq_map_serials (columns : List Column) :
    ((columns.filter fun c => c.content.role = .computed).map fun c => c.content.primary) =
      ((columns.map Column.content).filterMap Content.serial?).map
        fun m => (Content.computed m).primary := by
  induction columns with
  | nil => rfl
  | cons c columns ih =>
    obtain ⟨position, content⟩ := c
    cases content with
    | computed m =>
      rw [List.filter_cons_of_pos (by simp [Content.role]), List.map_cons, ih]
      rfl
    | _ =>
      rw [List.filter_cons_of_neg (by simp [Content.role]), ih]
      rfl

theorem Counted.consistent (hs : s.Counted n) : s.Consistent where
  position := hs.valid.position
  get?_eq_some_iff := by
    intro key i
    rw [hs.valid.key, isLast_iff_isGreatest]
  get?_eq_none_iff := by
    intro key
    rw [← Option.not_isSome_iff_eq_none, hs.valid.isSome_get?, contents]
    simp [Column.key]
  alias_lt := hs.valid.alias_lt
  nodup_names := by
    rw [names_eq_map_serials]
    refine hs.nodup.map ?_
    intro a b hab
    exact Content.primary_computed_inj.1 hab

/-- Whatever was done to a schema, its parts agree, the counter tells how many computed columns were
made, and a change that fails leaves everything as it was. -/
theorem consistent_of_reachable (h : Reachable n s) :
    s.Consistent ∧ s.nextSerial = n ∧
      (∀ (c : Change) (e : PlanError) (s' : Schema), c.run s = .error e s' → s' = s) ∧
      ∀ (t : Schema) (e : PlanError) (s' : Schema), append t s = .error e s' → s' = s := by
  have hs := h.counted
  refine ⟨hs.consistent, hs.nextSerial_eq, ?_, ?_⟩
  · intro c e s' hrun
    exact Change.eq_of_run_eq_error hrun
  · intro t e s' hrun
    exact eq_of_append_eq_error hrun

/-- A computed column that is kept twice, then a failed change, then columns of another schema. -/
def repeatedColumn : Schema :=
  let other := stateAfter (Change.addLabel "m").run (stateAfter (Change.addVariable "m").run empty)
  let built := stateAfter (Change.setAlias "e" 1).run
    (stateAfter Change.addComputed.run (stateAfter (Change.addVariable "n").run empty))
  stateAfter (append other) (stateAfter (Change.reduce [7]).run
    (stateAfter (Change.reduce [1, 1, 0]).run built))

theorem consistent_of_reachable_of_repeatedColumn :
    Reachable 1 repeatedColumn ∧
      repeatedColumn.contents =
        [.computed 0, .scratch "expr#0", .var "n", .var "m", .label "m"] ∧
      repeatedColumn.Consistent ∧ repeatedColumn.nextSerial = 1 ∧
      (∀ (c : Change) (e : PlanError) (s' : Schema),
        c.run repeatedColumn = .error e s' → s' = repeatedColumn) ∧
      ∀ (t : Schema) (e : PlanError) (s' : Schema),
        append t repeatedColumn = .error e s' → s' = repeatedColumn := by
  have hother := (Reachable.empty.change (.addVariable "m")).change (.addLabel "m")
  have hbuilt := ((Reachable.empty.change (.addVariable "n")).change .addComputed).change
    (.setAlias "e" 1)
  have h : Reachable 1 repeatedColumn :=
    ((hbuilt.change (.reduce [1, 1, 0])).change (.reduce [7])).append hother
  exact ⟨h, rfl, consistent_of_reachable h⟩

end Schema

end GraphPlan
