import GraphPlan.Proofs.Plan.Materialize
import GraphPlan.Proofs.Planner.Derivation
import GraphPlan.Proofs.Planner.Result
import Mathlib.Data.List.Nodup

/-!
# Columns that are looked up by different keys

The index of a schema gives the last column with a key. It gives *the* column with the key if no two
columns share it, scratch columns apart: these are never looked up. `Schema.Sharp` says so, together
with what is needed to keep it: a computed column gets a number that no column has. Every way in
which a plan grows or shrinks keeps it. `Sharp.exact` is what follows for the lookups.
-/

namespace GraphPlan

/-- What columns are looked up by, scratch columns apart. -/
def Content.keysOf (cs : List Content) : List ColumnKey :=
  (cs.filter fun c => c.role ≠ .scratch).map key

namespace Content

variable {cs ds : List Content} {c d : Content}

theorem mem_keysOf {k : ColumnKey} : k ∈ keysOf cs ↔ ∃ c ∈ cs, c.role ≠ .scratch ∧ c.key = k := by
  simp [keysOf, and_assoc]

@[simp]
theorem keysOf_nil : keysOf [] = [] :=
  rfl

@[simp]
theorem keysOf_append : keysOf (cs ++ ds) = keysOf cs ++ keysOf ds := by
  simp [keysOf]

theorem keysOf_cons_of_scratch (h : c.role = .scratch) : keysOf (c :: cs) = keysOf cs := by
  simp [keysOf, h]

theorem keysOf_cons (h : c.role ≠ .scratch) : keysOf (c :: cs) = c.key :: keysOf cs := by
  simp [keysOf, h]

theorem nodup_keysOf (h : (cs.map key).Nodup) : (keysOf cs).Nodup :=
  h.sublist (List.filter_sublist.map key)

/-- Only scratch columns have the key of a scratch column. -/
theorem role_eq_of_key_eq (h : c.key = d.key) : c.role = d.role := by
  cases c <;> cases d <;> simp [key, role] at h ⊢

/-- The key says what a column of a pattern holds. -/
theorem eq_of_key_eq (hc : c.isStructural = true) (h : c.key = d.key) : c = d := by
  cases c <;> cases d <;> simp_all [key, isStructural]

/-- No key is repeated exactly when a key determines the position. -/
theorem nodup_keysOf_iff :
    (keysOf cs).Nodup ↔ ∀ (i j : Nat) (c d : Content), cs[i]? = some c → cs[j]? = some d →
      c.role ≠ .scratch → c.key = d.key → i = j := by
  rw [keysOf, List.Nodup, List.pairwise_map, List.pairwise_filter, List.pairwise_iff_getElem]
  constructor
  · intro h i j c d hc hd hrole hkey
    obtain ⟨hi, rfl⟩ := List.getElem?_eq_some_iff.1 hc
    obtain ⟨hj, rfl⟩ := List.getElem?_eq_some_iff.1 hd
    have hrole' : cs[j].role ≠ .scratch := by rwa [← role_eq_of_key_eq hkey]
    rcases Nat.lt_trichotomy i j with hlt | heq | hlt
    · exact absurd hkey (h i j hi hj hlt (by simpa using hrole) (by simpa using hrole'))
    · exact heq
    · exact absurd hkey.symm (h j i hj hi hlt (by simpa using hrole') (by simpa using hrole))
  · intro h i j hi hj hlt hrole _ hkey
    have heq := h i j _ _ (List.getElem?_eq_getElem hi) (List.getElem?_eq_getElem hj)
      (by simpa using hrole) hkey
    omega

end Content

open Content (keysOf)

namespace Schema

variable {s t : Schema}

/-! ## Lookups -/

/-- No two columns are looked up by the same key, and every lookup gives the column that is looked
for. -/
structure Exact (s : Schema) : Prop where
  /-- The keys are pairwise distinct. -/
  nodup : (keysOf s.contents).Nodup
  varColumn?_eq_some_iff : ∀ x i, s.varColumn? x = some i ↔ s.contents[i]? = some (.var x)
  attrColumn?_eq_some_iff : ∀ x a i,
    s.attrColumn? x a = some i ↔ s.contents[i]? = some (.attr x a)
  labelColumn?_eq_some_iff : ∀ x i, s.labelColumn? x = some i ↔ s.contents[i]? = some (.label x)
  aggregateColumn?_eq_some_iff : ∀ text i, s.aggregateColumn? text = some i ↔
    ∃ kind source, s.contents[i]? = some (.aggregate kind source) ∧
      aggregateText kind source = text

/-- A key that one column has is the key of the column that the index gives. -/
theorem Valid.get?_eq_some_iff (hs : s.Valid) (hnodup : (keysOf s.contents).Nodup)
    {key : ColumnKey} {i : Nat} (hkey : ∀ tag, key ≠ .scratch tag) :
    s.keys.get? key = some i ↔ ∃ c, s.contents[i]? = some c ∧ c.key = key := by
  rw [hs.key]
  constructor
  · exact fun h => h.1
  · rintro ⟨c, hc, rfl⟩
    refine ⟨⟨c, hc, rfl⟩, fun j d hd hdk => ?_⟩
    have hrole : c.role ≠ .scratch := by
      intro hrole
      cases c <;> simp [Content.role] at hrole
      exact hkey _ rfl
    have heq := Content.nodup_keysOf_iff.1 hnodup i j c d hc hd hrole hdk.symm
    omega

/-- Columns with different keys that are found by their keys. -/
structure Sharp (s : Schema) : Prop where
  /-- The parts of the schema agree. -/
  valid : s.Valid
  /-- No key is repeated. -/
  nodup : (keysOf s.contents).Nodup
  /-- The next number is free. -/
  serial_lt : ∀ n, .computed n ∈ s.contents → n < s.nextSerial

theorem Sharp.exact (hs : s.Sharp) : s.Exact where
  nodup := hs.nodup
  varColumn?_eq_some_iff := by
    intro x i
    rw [varColumn?, hs.valid.get?_eq_some_iff hs.nodup (by simp)]
    simp only [Content.key_eq_var, exists_eq_right]
  attrColumn?_eq_some_iff := by
    intro x a i
    rw [attrColumn?, hs.valid.get?_eq_some_iff hs.nodup (by simp)]
    simp only [Content.key_eq_attr, exists_eq_right]
  labelColumn?_eq_some_iff := by
    intro x i
    rw [labelColumn?, hs.valid.get?_eq_some_iff hs.nodup (by simp)]
    simp only [Content.key_eq_label, exists_eq_right]
  aggregateColumn?_eq_some_iff := by
    intro text i
    rw [aggregateColumn?, hs.valid.get?_eq_some_iff hs.nodup (by simp)]
    constructor
    · rintro ⟨c, hc, hkey⟩
      cases c <;> simp only [Content.key, ColumnKey.aggregate.injEq, reduceCtorEq] at hkey
      exact ⟨_, _, hc, hkey⟩
    · rintro ⟨kind, source, hc, rfl⟩
      exact ⟨_, hc, rfl⟩

/-- A variable that is looked up by its key has one column. -/
theorem Sharp.count_var (hs : s.Sharp) (x : String) :
    s.contents.count (.var x) = if s.hasVariable x then 1 else 0 := by
  have hle : s.contents.count (.var x) ≤ 1 := by
    have hkeys : (keysOf s.contents).count (.var x) ≤ 1 :=
      List.nodup_iff_count_le_one.1 hs.nodup _
    have hfilter : s.contents.count (.var x) =
        (s.contents.filter fun c => c.role ≠ .scratch).count (.var x) :=
      (List.count_filter (by simp [Content.role])).symm
    rw [hfilter]
    exact Nat.le_trans (List.count_le_count_map (f := Content.key)) hkeys
  split
  · next h =>
    have hpos := List.count_pos_iff.2 (hs.valid.hasVariable_iff.1 h)
    omega
  · next h => exact List.count_eq_zero.2 (mt hs.valid.hasVariable_iff.2 h)

/-- No variable is listed twice. -/
theorem Sharp.nodup_vars (hs : s.Sharp) : s.vars.Nodup := by
  have hpairs := hs.nodup
  rw [Content.keysOf, contents, List.filter_map, List.map_map, List.Nodup, List.pairwise_map,
    List.pairwise_filter] at hpairs
  rw [vars, List.Nodup, List.pairwise_filterMap]
  refine hpairs.imp fun {c d} hne x hx y hy heq => ?_
  subst heq
  have hc : c.content = .var x := by
    split at hx
    · next hc =>
      cases hx
      exact hc
    · cases hx
  have hd : d.content = .var x := by
    split at hy
    · next hd =>
      cases hy
      exact hd
    · cases hy
  refine hne ?_ ?_ ?_ <;> simp [hc, hd, Content.role]

/-! ## Adding columns -/

theorem sharp_empty : empty.Sharp where
  valid := valid_empty
  nodup := List.nodup_nil
  serial_lt := nofun

/-- The numbers that computed columns get do not depend on other columns. -/
@[simp]
theorem nextSerial_pushAll (s : Schema) (cs : List Content) :
    (s.pushAll cs).nextSerial = s.nextSerial := by
  induction cs generalizing s with
  | nil => rfl
  | cons c cs ih =>
    rw [pushAll_cons, ih]
    rfl

/-- Columns with new keys may be added. -/
theorem Sharp.pushAll (hs : s.Sharp) {cs : List Content} (hcs : (keysOf cs).Nodup)
    (hnew : ∀ c ∈ cs, c.role ≠ .scratch → s.keys.get? c.key = none)
    (hstructural : ∀ c ∈ cs, c.role ≠ .computed) : (s.pushAll cs).Sharp where
  valid := hs.valid.pushAll cs
  nodup := by
    rw [contents_pushAll, Content.keysOf_append, List.nodup_append]
    refine ⟨hs.nodup, hcs, fun k hk l hl heq => ?_⟩
    obtain ⟨d, hd, -, hdk⟩ := Content.mem_keysOf.1 hk
    obtain ⟨c, hc, hrole, hck⟩ := Content.mem_keysOf.1 hl
    have hsome := hs.valid.isSome_get?.2 ⟨d, hd, (hdk.trans heq).trans hck.symm⟩
    rw [hnew c hc hrole] at hsome
    cases hsome
  serial_lt := by
    intro n hn
    rw [nextSerial_pushAll]
    rw [contents_pushAll] at hn
    rcases List.mem_append.1 hn with hn | hn
    · exact hs.serial_lt n hn
    · exact absurd rfl (hstructural _ hn)

theorem Sharp.addScratch (hs : s.Sharp) (tag : String) : (s.addScratch tag).Sharp := by
  have h : (s.pushAll [.scratch tag]).Sharp := by
    refine hs.pushAll List.nodup_nil ?_ ?_
    · simp [Content.role]
    · simp [Content.role]
  exact h

theorem Sharp.addVariable (hs : s.Sharp) {x : String} (hx : s.hasVariable x = false) :
    (s.addVariable x).Sharp := by
  have h : (s.pushAll [.var x]).Sharp := by
    refine hs.pushAll (List.nodup_singleton _) ?_ ?_
    · simpa [Content.key, hasVariable, varColumn?] using fun _ => hx
    · simp [Content.role]
  exact h

/-- A produced variable gets a column under its name only if it has none. -/
theorem Sharp.pushAll_produced (hs : s.Sharp) (xs : List String) :
    (s.pushAll (produced xs s)).Sharp := by
  induction xs generalizing s with
  | nil => exact hs
  | cons x xs ih =>
    rw [produced]
    split
    · exact ih (hs.addScratch x)
    · next hx => exact ih (hs.addVariable (by simpa using hx))

/-- The columns of two patterns without a common variable. -/
theorem Sharp.pushAll_contents (hs : s.Sharp) (ht : t.Sharp) (hs' : s.OfPattern)
    (ht' : t.OfPattern)
    (hdisj : ∀ x, s.hasVariable x = true → t.hasVariable x = false) :
    (s.pushAll t.contents).Sharp := by
  refine hs.pushAll ht.nodup (fun c hc hrole => ?_) fun c hc hrole => ?_
  · by_contra hsome
    obtain ⟨d, hd, hkey⟩ := hs.valid.isSome_get?.1 (Option.isSome_iff_ne_none.2 hsome)
    -- a column with the same key would be about the same variable
    obtain rfl := Content.eq_of_key_eq (hs'.structural d hd) hkey
    have hbound := hdisj _ (hs.valid.hasVariable_iff.2 (hs'.bound d hd))
    rw [ht.valid.hasVariable_iff.2 (ht'.bound d hc)] at hbound
    cases hbound
  · have := ht'.structural c hc
    cases c <;> simp [Content.role, Content.isStructural] at this hrole

/-! ## Values, names and aggregates -/

theorem Sharp.addComputed (hs : s.Sharp) : s.addComputed.Sharp where
  valid := hs.valid.addComputed
  nodup := by
    have hcontents : s.addComputed.contents = s.contents ++ [.computed s.nextSerial] :=
      contents_push { s with nextSerial := s.nextSerial + 1 } _
    rw [hcontents, Content.keysOf_append, List.nodup_append]
    refine ⟨hs.nodup, List.nodup_singleton _, fun k hk l hl heq => ?_⟩
    obtain ⟨d, hd, -, hdk⟩ := Content.mem_keysOf.1 hk
    have hl : l = .computed s.nextSerial := List.mem_singleton.1 hl
    rw [heq, hl] at hdk
    cases d <;> simp only [Content.key, ColumnKey.computed.injEq, reduceCtorEq] at hdk
    subst hdk
    exact Nat.lt_irrefl _ (hs.serial_lt _ hd)
  serial_lt := by
    intro n hn
    have hnext : s.addComputed.nextSerial = s.nextSerial + 1 := rfl
    have hcontents : s.addComputed.contents = s.contents ++ [.computed s.nextSerial] :=
      contents_push { s with nextSerial := s.nextSerial + 1 } _
    rw [hcontents] at hn
    rw [hnext]
    rcases List.mem_append.1 hn with hn | hn
    · exact Nat.lt_succ_of_lt (hs.serial_lt n hn)
    · cases List.mem_singleton.1 hn
      exact Nat.lt_succ_self _

theorem Sharp.insertAlias (hs : s.Sharp) (name : String) {column : Nat} (h : column < s.width) :
    ({ s with aliases := s.aliases.insert name column } : Schema).Sharp :=
  ⟨hs.valid.insertAlias name h, hs.nodup, hs.serial_lt⟩

/-- An aggregate without a column may get one. -/
theorem Sharp.addAggregate (hs : s.Sharp) {kind : AggregateKind} {source : String}
    (hnew : s.aggregateColumn? (aggregateText kind source) = none) :
    (s.addAggregate kind source).Sharp := by
  have h : (s.pushAll [.aggregate kind source]).Sharp := by
    refine hs.pushAll (List.nodup_singleton _) ?_ ?_
    · intro c hc _
      rw [List.mem_singleton.1 hc]
      exact hnew
    · simp [Content.role]
  refine h.insertAlias _ ?_
  rw [width_pushAll]
  exact Nat.lt_succ_self _

theorem aggregateColumn?_addAggregate (s : Schema) (kind : AggregateKind) (source text : String) :
    (s.addAggregate kind source).aggregateColumn? text =
      if text = aggregateText kind source then some s.width else s.aggregateColumn? text := by
  rw [aggregateColumn?, aggregateColumn?]
  simp only [addAggregate, get?_keys_push, Content.key, ColumnKey.aggregate.injEq]

/-- Aggregates with different texts get their columns one after the other. -/
theorem Sharp.withAggregates {aggregates : List AggregateInfo} (hs : s.Sharp)
    (hkeys : (aggregates.map AggregateInfo.key).Nodup)
    (hnew : ∀ a ∈ aggregates, s.aggregateColumn? a.key = none) :
    (s.withAggregates aggregates).Sharp := by
  induction aggregates generalizing s with
  | nil => exact hs
  | cons a as ih =>
    obtain ⟨hfirst, hrest⟩ := List.nodup_cons.1 hkeys
    refine ih (hs.addAggregate (hnew a List.mem_cons_self)) hrest fun b hb => ?_
    rw [aggregateColumn?_addAggregate, if_neg]
    · exact hnew b (.tail a hb)
    · intro heq
      refine hfirst ?_
      rw [← show b.key = a.key from heq]
      exact List.mem_map_of_mem hb

/-! ## Keeping some columns -/

/-- A kept column that is no scratch column is the copy of a column that went nowhere yet. -/
theorem exists_of_mem_keepColumns {old : List Column} {mapping : List (Option Nat)}
    {position : Nat} {keep : List Nat} {c : Content} (hrole : c.role ≠ .scratch)
    (h : c ∈ (keepColumns old mapping position keep).1.map Column.content) :
    ∃ (p : Nat) (source : Column), mapping[p]? = some none ∧ old[p]? = some source ∧
      source.content = c := by
  induction keep generalizing mapping position with
  | nil => cases h
  | cons p keep ih =>
    rw [keepColumns] at h
    split at h
    · exact ih h
    · next source hsource =>
      split at h
      · next hfree =>
        rcases List.mem_cons.1 h with rfl | h
        · exact ⟨p, source, hfree, hsource, rfl⟩
        · obtain ⟨p', source', hfree', hsource'⟩ := ih h
          rw [List.getElem?_set] at hfree'
          split at hfree'
          · split at hfree' <;> cases hfree'
          · exact ⟨p', source', hfree', hsource'⟩
      · rcases List.mem_cons.1 h with rfl | h
        · exact absurd rfl hrole
        · exact ih h

/-- A column that is kept twice is kept once under its key. -/
theorem nodup_keysOf_keepColumns {old : List Column}
    (hold : (keysOf (old.map Column.content)).Nodup) (mapping : List (Option Nat)) (position : Nat)
    (keep : List Nat) :
    (keysOf ((keepColumns old mapping position keep).1.map Column.content)).Nodup := by
  induction keep generalizing mapping position with
  | nil => exact List.nodup_nil
  | cons p keep ih =>
    rw [keepColumns]
    split
    · exact ih _ _
    · next source hsource =>
      split
      · rw [List.map_cons]
        by_cases hrole : source.content.role = .scratch
        · rw [Content.keysOf_cons_of_scratch hrole]
          exact ih _ _
        · rw [Content.keysOf_cons hrole]
          refine List.nodup_cons.2 ⟨fun hmem => ?_, ih _ _⟩
          obtain ⟨c, hc, hrole', hkey⟩ := Content.mem_keysOf.1 hmem
          obtain ⟨p', source', hfree', hsource', rfl⟩ := exists_of_mem_keepColumns hrole' hc
          -- the other copy would come from the same position, which is taken
          have heq : p = p' :=
            Content.nodup_keysOf_iff.1 hold p p' source.content source'.content
              (by rw [List.getElem?_map, hsource]; rfl) (by rw [List.getElem?_map, hsource']; rfl)
              hrole hkey.symm
          rw [heq, List.getElem?_set, if_pos rfl] at hfree'
          split at hfree' <;> cases hfree'
      · rw [List.map_cons, Content.keysOf_cons_of_scratch rfl]
        exact ih _ _

/-- What is left when some columns are kept was there before. -/
theorem mem_contents_of_mem_reduced {keep : List Nat} {c : Content} (hrole : c.role ≠ .scratch)
    (h : c ∈ (s.reduced keep).contents) : c ∈ s.contents := by
  obtain ⟨p, source, -, hsource, rfl⟩ := exists_of_mem_keepColumns hrole h
  exact List.mem_map_of_mem (List.mem_of_getElem? hsource)

theorem Sharp.reduced (hs : s.Sharp) {keep : List Nat} (h : ∀ p ∈ keep, p < s.width) :
    (s.reduced keep).Sharp where
  valid := valid_reduced h
  nodup := nodup_keysOf_keepColumns hs.nodup _ _ _
  serial_lt := fun n hn => hs.serial_lt n (mem_contents_of_mem_reduced nofun hn)

end Schema

/-! ## Plans -/

namespace Plan

variable {config : Config} {p p' : Plan}

theorem Fetch.sharp {scope : String} (h : Fetch scope p p') (hp : p.schema.Sharp) :
    p'.schema.Sharp := by
  cases h with
  | @attributes x column attrs hx hne hnodup hnew =>
    refine hp.pushAll ?_ ?_ ?_
    · refine Content.nodup_keysOf ?_
      rw [List.map_map]
      exact hnodup.map fun a b h => by cases h; rfl
    · intro c hc _
      obtain ⟨a, ha, rfl⟩ := List.mem_map.1 hc
      exact hnew a ha
    · intro c hc
      obtain ⟨a, -, rfl⟩ := List.mem_map.1 hc
      exact nofun
  | @label x column hx hnew =>
    refine hp.pushAll (List.nodup_singleton _) ?_ ?_
    · intro c hc _
      rw [List.mem_singleton.1 hc]
      exact hnew
    · simp [Content.role]

theorem Widen.sharp (h : Widen config p p') (hp : p.schema.Sharp) : p'.schema.Sharp := by
  cases h with
  | fetch h => exact h.sharp hp
  | extend => exact hp.addComputed
  | named h => exact hp.insertAlias _ h

theorem Widens.sharp (h : Widens config p p') (hp : p.schema.Sharp) : p'.schema.Sharp := by
  induction h with
  | refl => exact hp
  | tail _ hstep ih => exact hstep.sharp ih

/-- Widening adds columns for attributes, labels and computed values only. -/
theorem Widen.get?_keys (h : Widen config p p') {key : ColumnKey} (hattr : ∀ x a, key ≠ .attr x a)
    (hlabel : ∀ x, key ≠ .label x) (hcomputed : ∀ n, key ≠ .computed n) :
    p'.schema.keys.get? key = p.schema.keys.get? key := by
  cases h with
  | fetch h =>
    cases h with
    | attributes =>
      refine Schema.get?_keys_pushAll ?_
      intro c hc
      obtain ⟨a, -, rfl⟩ := List.mem_map.1 hc
      exact (hattr _ a).symm
    | @label x _ =>
      refine Schema.get?_keys_pushAll ?_
      intro c hc
      rw [List.mem_singleton.1 hc]
      exact (hlabel x).symm
  | extend =>
    have hkeys : ∀ c ∈ [Content.computed p.schema.nextSerial], c.key ≠ key := by
      intro c hc
      rw [List.mem_singleton.1 hc]
      exact (hcomputed _).symm
    exact Schema.get?_keys_pushAll hkeys
  | named => rfl

theorem Widens.get?_keys (h : Widens config p p') {key : ColumnKey}
    (hattr : ∀ x a, key ≠ .attr x a) (hlabel : ∀ x, key ≠ .label x)
    (hcomputed : ∀ n, key ≠ .computed n) : p'.schema.keys.get? key = p.schema.keys.get? key := by
  induction h with
  | refl => rfl
  | tail _ hstep ih => rw [hstep.get?_keys hattr hlabel hcomputed, ih]

/-- Widening a plan computes no aggregate. -/
theorem Widens.aggregateColumn? (h : Widens config p p') (text : String) :
    p'.schema.aggregateColumn? text = p.schema.aggregateColumn? text :=
  h.get?_keys (by simp) (by simp) (by simp)

/-- Widening a plan binds no variable. -/
theorem Widens.varColumn? (h : Widens config p p') (x : String) :
    p'.schema.varColumn? x = p.schema.varColumn? x :=
  h.get?_keys (by simp) (by simp) (by simp)

/-- Grouping by columns that exist, with aggregates that have different texts. -/
theorem sharp_grouped {columns : List Nat} {aggregates : List AggregateInfo}
    (hp : p.schema.Sharp) (hlt : ∀ i ∈ columns, i < p.schema.width)
    (hkeys : (aggregates.map AggregateInfo.key).Nodup)
    (hnone : ∀ text, p.schema.aggregateColumn? text = none) :
    (p.grouped columns aggregates).schema.Sharp := by
  unfold grouped
  split
  · exact hp
  · refine (hp.reduced hlt).withAggregates hkeys fun a _ => ?_
    by_contra hsome
    obtain ⟨c, hc, hkey⟩ :=
      (Schema.valid_reduced hlt).isSome_get?.1 (Option.isSome_iff_ne_none.2 hsome)
    have hrole : c.role ≠ .scratch := by
      intro hrole
      cases c <;> simp [Content.role, Content.key] at hrole hkey
    have hbefore := hp.valid.isSome_get?.2
      ⟨c, Schema.mem_contents_of_mem_reduced hrole hc, hkey⟩
    rw [← Schema.aggregateColumn?, hnone] at hbefore
    cases hbefore

end Plan

/-- The columns of the plan of a pattern have different keys. -/
theorem PatternPlan.sharp {config : Config} {r : Registry} {conns : List Connection}
    {es : List Expr} {n : Nat} {p : Plan} (h : PatternPlan config r conns es n p) :
    p.schema.Sharp := by
  induction h with
  | scan | seed => exact Schema.sharp_empty.addVariable rfl
  | fetch _ hf ih => exact hf.sharp ih
  | follow _ _ _ ih =>
    rw [Plan.schema_follow]
    exact ih.pushAll_produced _
  | select _ _ ih => exact ih
  | join h h' hdisj _ ih ih' | product h h' hdisj ih ih' =>
    exact ih.pushAll_contents ih' h.ofPattern h'.ofPattern hdisj
  | perm _ _ _ ih => exact ih

end GraphPlan
