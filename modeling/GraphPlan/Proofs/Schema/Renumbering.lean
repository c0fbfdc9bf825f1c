import GraphPlan.Proofs.Schema.Reachable

/-!
# Where columns go when some are kept

`Schema.reduce` may reorder, drop and repeat columns while the index and the aliases are renumbered
with them. Where a column goes is told by the list of positions alone: to the first place at which
its position is listed. `Schema.Renumbers` says what this means for the columns, the aliases and the
lookups, and `Schema.reduce_moves_names` that it is what `reduce` does, which fails only for
positions that do not exist.
-/

namespace GraphPlan

open Content (keysOf)

namespace Schema

variable {s : Schema} {old : List Column} {keep : List Nat}

/-! ## The kept columns -/

/-- A listed column stands at its place: as it was if it went nowhere yet and is listed there first,
and as a scratch column otherwise. -/
theorem getElem?_keepColumns (mapping : List (Option Nat)) (position : Nat)
    (h : ∀ p ∈ keep, p < old.length) {i p : Nat} {source : Column} (hi : keep[i]? = some p)
    (hp : old[p]? = some source) :
    (keepColumns old mapping position keep).1[i]? =
      some ⟨position + i, if mapping[p]? = some none ∧ keep.idxOf? p = some i then source.content
        else .scratch source.content.primary⟩ := by
  induction keep generalizing mapping position i with
  | nil => cases hi
  | cons q keep ih =>
    rw [keepColumns_cons_eq mapping position keep
      (List.getElem?_eq_getElem (h q List.mem_cons_self))]
    cases i with
    | zero =>
      obtain rfl : q = p := Option.some.inj hi
      obtain ⟨hlt, rfl⟩ := List.getElem?_eq_some_iff.1 hp
      simp [List.idxOf?_cons]
    | succ i =>
      rw [List.getElem?_cons_succ] at hi ⊢
      rw [ih _ _ (fun p hp => h p (.tail _ hp)) hi, getElem?_visit, List.idxOf?_cons,
        Nat.add_assoc, Nat.add_comm 1 i]
      by_cases hq : q = p
      · -- the column is listed at the first place, so this is a repetition
        subst hq
        by_cases hfree : mapping[q]? = some none
        · simp [hfree]
        · simp [hfree]
      · simp [hq, Ne.symm hq]

/-- A column that went somewhere stays there. -/
theorem mapping_keepColumns_of_taken (mapping : List (Option Nat)) (position : Nat)
    (h : ∀ p ∈ keep, p < old.length) {q : Nat} (hq : mapping[q]? ≠ some none) :
    (keepColumns old mapping position keep).2[q]? = mapping[q]? := by
  induction keep generalizing mapping position with
  | nil => rfl
  | cons p keep ih =>
    have hvisit : (visit mapping p position)[q]? = mapping[q]? := by
      rw [getElem?_visit, if_neg]
      rintro ⟨rfl, hfree⟩
      exact hq hfree
    rw [keepColumns_cons_eq mapping position keep
      (List.getElem?_eq_getElem (h p List.mem_cons_self))]
    rw [ih _ _ (fun p hp => h p (.tail _ hp)) (by rwa [hvisit]), hvisit]

/-- A column that went nowhere yet goes to the first place at which it is listed. -/
theorem mapping_keepColumns_of_free (mapping : List (Option Nat)) (position : Nat)
    (h : ∀ p ∈ keep, p < old.length) {q : Nat} (hq : mapping[q]? = some none) :
    (keepColumns old mapping position keep).2[q]? =
      some ((keep.idxOf? q).map (position + ·)) := by
  induction keep generalizing mapping position with
  | nil => exact hq
  | cons p keep ih =>
    have hrest : ∀ p ∈ keep, p < old.length := fun p hp => h p (.tail _ hp)
    have hvisit := getElem?_visit mapping p position q
    rw [keepColumns_cons_eq mapping position keep
      (List.getElem?_eq_getElem (h p List.mem_cons_self)), List.idxOf?_cons]
    by_cases hp : p = q
    · subst hp
      rw [if_pos ⟨rfl, hq⟩] at hvisit
      rw [mapping_keepColumns_of_taken _ _ hrest (by simp [hvisit]), hvisit]
      simp
    · rw [if_neg (fun hand => hp hand.1.symm)] at hvisit
      rw [ih _ _ hrest (hvisit.trans hq), if_neg (by simpa using hp), Option.map_map]
      congr 2
      funext i
      simp only [Function.comp_apply]
      omega

/-- The new position of a column is the first place at which it is listed. -/
theorem get?_kept (h : ∀ p ∈ keep, p < s.width) (p : Nat) :
    Remap.get? ⟨(s.kept keep).2⟩ p = keep.idxOf? p := by
  unfold Remap.get? kept
  rcases Nat.lt_or_ge p s.width with hp | hp
  · rw [mapping_keepColumns_of_free _ _ h (by simp [hp])]
    simp
  · rw [mapping_keepColumns_of_taken _ _ h (by simp [hp]),
      List.idxOf?_eq_none_iff.2 fun hmem => Nat.not_lt.2 hp (h p hmem)]
    simp [Nat.not_lt.2 hp]

/-- The column at the first place at which a position is listed is the old one, and those at other
places are scratch columns. -/
theorem getElem?_columns_reduced (h : ∀ p ∈ keep, p < s.width) {i p : Nat} {c : Column}
    (hi : keep[i]? = some p) (hp : s.columns[p]? = some c) :
    (s.reduced keep).columns[i]? =
      some (if keep.idxOf? p = some i then ⟨i, c.content⟩ else ⟨i, .scratch c.content.primary⟩) := by
  have hlt : p < s.width := (List.getElem?_eq_some_iff.1 hp).1
  show (s.kept keep).1[i]? = _
  rw [kept, getElem?_keepColumns _ 0 h hi hp]
  by_cases hfirst : keep.idxOf? p = some i
  · simp [hfirst, hlt]
  · simp [hfirst]

/-! ## Lookups -/

/-- What the columns hold when some are kept. -/
theorem getElem?_contents_reduced (h : ∀ p ∈ keep, p < s.width) {i p : Nat} {c : Content}
    (hi : keep[i]? = some p) (hp : s.contents[p]? = some c) :
    (s.reduced keep).contents[i]? =
      some (if keep.idxOf? p = some i then c else .scratch c.primary) := by
  rw [contents, List.getElem?_map, Option.map_eq_some_iff] at hp
  obtain ⟨column, hcolumn, rfl⟩ := hp
  rw [contents, List.getElem?_map, getElem?_columns_reduced h hi hcolumn]
  split <;> rfl

/-- A key under which one column is found moves with that column. -/
theorem Valid.get?_reduced (hs : s.Valid) (hnodup : (keysOf s.contents).Nodup)
    (h : ∀ p ∈ keep, p < s.width) {key : ColumnKey} (hkey : ∀ tag, key ≠ .scratch tag) :
    (s.reduced keep).keys.get? key = (s.keys.get? key).bind keep.idxOf? := by
  have hnodup' : (keysOf (s.reduced keep).contents).Nodup := nodup_keysOf_keepColumns hnodup _ _ _
  ext j
  rw [(valid_reduced h).get?_eq_some_iff hnodup' hkey, Option.bind_eq_some_iff]
  constructor
  · rintro ⟨c, hc, rfl⟩
    have hj : j < keep.length := by
      rw [← width_reduced h, ← length_contents]
      exact (List.getElem?_eq_some_iff.1 hc).1
    have hp : keep[j] < s.contents.length := by
      rw [length_contents]
      exact h _ (List.getElem_mem hj)
    have hmoved :=
      getElem?_contents_reduced h (List.getElem?_eq_getElem hj) (List.getElem?_eq_getElem hp)
    rw [hc, Option.some.injEq] at hmoved
    split at hmoved
    · next hfirst =>
      refine ⟨keep[j], ?_, hfirst⟩
      rw [hs.get?_eq_some_iff hnodup hkey, hmoved]
      exact ⟨_, List.getElem?_eq_getElem hp, rfl⟩
    · exact absurd (congrArg Content.key hmoved) (hkey _)
  · rintro ⟨p, hp, hfirst⟩
    obtain ⟨c, hc, hck⟩ := (hs.get?_eq_some_iff hnodup hkey).1 hp
    obtain ⟨hj, hjp, -⟩ := List.idxOf?_eq_some_iff.1 hfirst
    have hlisted : keep[j]? = some p := by rw [List.getElem?_eq_getElem hj, hjp]
    refine ⟨c, ?_, hck⟩
    rw [getElem?_contents_reduced h hlisted hc, if_pos hfirst]

/-! ## Renumbering -/

/-- Every name has moved with its column: `s'` has the columns of `s` at the positions `keep`, and
`remap` tells where they went. -/
structure Renumbers (s : Schema) (keep : List Nat) (remap : Remap) (s' : Schema) : Prop where
  /-- There is one column for each position that is listed. -/
  length_columns : s'.columns.length = keep.length
  /-- It is the old column where the position is listed first, and a scratch copy elsewhere. -/
  getElem?_columns : ∀ (i p : Nat) (c : Column), keep[i]? = some p → s.columns[p]? = some c →
    s'.columns[i]? = some (if keep.idxOf? p = some i then ⟨i, c.content⟩
      else ⟨i, .scratch c.content.primary⟩)
  /-- A column goes to the first place at which it is listed, and nowhere if it is not. -/
  get?_remap : ∀ p, remap.get? p = keep.idxOf? p
  /-- An alias stands for the column it stood for, and is gone exactly if that is. -/
  aliasColumn?_eq : ∀ name, s'.aliasColumn? name = (s.aliasColumn? name).bind remap.get?
  /-- If no two columns are looked up by the same key, all lookups give the column they gave. -/
  lookups_eq : (keysOf s.contents).Nodup →
    (∀ x, s'.varColumn? x = (s.varColumn? x).bind remap.get?) ∧
    (∀ x a, s'.attrColumn? x a = (s.attrColumn? x a).bind remap.get?) ∧
    (∀ x, s'.labelColumn? x = (s.labelColumn? x).bind remap.get?) ∧
    ∀ text, s'.aggregateColumn? text = (s.aggregateColumn? text).bind remap.get?

theorem Valid.renumbers_reduced (hs : s.Valid) (h : ∀ p ∈ keep, p < s.width) :
    s.Renumbers keep ⟨(s.kept keep).2⟩ (s.reduced keep) where
  length_columns := width_reduced h
  getElem?_columns := by
    intro i p c hi hp
    exact getElem?_columns_reduced h hi hp
  get?_remap := get?_kept h
  aliasColumn?_eq := by
    intro name
    exact Table.get?_mapValues ..
  lookups_eq := by
    intro hnodup
    have hremap : Remap.get? ⟨(s.kept keep).2⟩ = keep.idxOf? := funext (get?_kept h)
    rw [hremap]
    refine ⟨?_, ?_, ?_, ?_⟩
    · intro x
      exact hs.get?_reduced hnodup h (by simp)
    · intro x a
      exact hs.get?_reduced hnodup h (by simp)
    · intro x
      exact hs.get?_reduced hnodup h (by simp)
    · intro text
      exact hs.get?_reduced hnodup h (by simp)

/-- Keeping columns fails exactly if one of them does not exist. -/
theorem reduce_eq_error_iff :
    (∃ e s', reduce keep s = .error e s') ↔ ∃ p ∈ keep, s.width ≤ p := by
  constructor
  · rintro ⟨e, s', hreduce⟩
    by_contra hnone
    have hlt : ∀ p ∈ keep, p < s.width := by
      intro p hp
      by_contra hge
      exact hnone ⟨p, hp, Nat.not_lt.1 hge⟩
    have hok := eq_ok_of_outcome_eq_ok (outcome_reduce hlt)
    rw [hreduce] at hok
    cases hok
  · rintro ⟨p, hp, hge⟩
    unfold reduce
    cases hfind : keep.find? fun p => s.width ≤ p with
    | none => exact absurd (decide_eq_true hge) (List.find?_eq_none.1 hfind p hp)
    | some q => exact ⟨_, _, rfl⟩

/-- Keeping columns fails exactly if one of them does not exist, and otherwise every name moves with
its column. -/
theorem reduce_moves_names {n : Nat} (hs : Reachable n s) (keep : List Nat) :
    ((∃ e s', reduce keep s = .error e s') ↔ ∃ p ∈ keep, s.width ≤ p) ∧
      ((∀ p ∈ keep, p < s.width) →
        ∃ remap s', reduce keep s = .ok remap s' ∧ s.Renumbers keep remap s') := by
  refine ⟨reduce_eq_error_iff, ?_⟩
  intro h
  exact ⟨_, _, eq_ok_of_outcome_eq_ok (outcome_reduce h), hs.counted.valid.renumbers_reduced h⟩

/-- Two columns change places, one is repeated, and one is dropped with its alias. -/
theorem reduce_moves_names_of_repeated_position :
    let before := stateAfter (Change.setAlias "name" 1).run
      (stateAfter (Change.setAlias "gone" 2).run (stateAfter (Change.addLabel "n").run
        (stateAfter (Change.addAttribute "n" "name").run
          (stateAfter (Change.addVariable "n").run empty))))
    Reachable 0 before ∧ (keysOf before.contents).Nodup ∧
      ((∃ e s', reduce [1, 0, 1] before = .error e s') ↔ ∃ p ∈ [1, 0, 1], before.width ≤ p) ∧
      ∃ remap s', reduce [1, 0, 1] before = .ok remap s' ∧
        before.Renumbers [1, 0, 1] remap s' ∧
        s'.contents = [.attr "n" "name", .var "n", .scratch "n"] ∧
        s'.aliasColumn? "name" = some 0 ∧ s'.aliasColumn? "gone" = none := by
  intro before
  have hreachable : Reachable 0 before :=
    ((((Reachable.empty.change (.addVariable "n")).change (.addAttribute "n" "name")).change
      (.addLabel "n")).change (.setAlias "gone" 2)).change (.setAlias "name" 1)
  have hmoves := reduce_moves_names hreachable [1, 0, 1]
  obtain ⟨remap, s', hreduce, hrenumbers⟩ := hmoves.2 (by decide)
  refine ⟨hreachable, by decide, hmoves.1, remap, s', hreduce, hrenumbers, ?_⟩
  cases hreduce
  exact ⟨rfl, rfl, rfl⟩

end Schema

end GraphPlan
