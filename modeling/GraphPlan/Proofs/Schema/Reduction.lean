import GraphPlan.Proofs.Outcome
import GraphPlan.Proofs.Schema.Index

/-!
# Keeping some columns

`Schema.reduce` keeps the columns at the listed positions. As long as these exist it succeeds, and
what it leaves is a valid schema with one column for each entry of the list.
-/

namespace GraphPlan

namespace Schema

variable {s : Schema} {old : List Column}

/-- Where the columns went after the one at `p` was listed: unless it went somewhere already, it goes
to `position`. -/
def visit (mapping : List (Option Nat)) (p position : Nat) : List (Option Nat) :=
  if mapping[p]? = some none then mapping.set p (some position) else mapping

theorem getElem?_visit (mapping : List (Option Nat)) (p position q : Nat) :
    (visit mapping p position)[q]? =
      if q = p ∧ mapping[p]? = some none then some (some position) else mapping[q]? := by
  unfold visit
  by_cases hfree : mapping[p]? = some none
  · have hp := (List.getElem?_eq_some_iff.1 hfree).1
    rw [if_pos hfree, List.getElem?_set]
    by_cases hq : q = p
    · rw [if_pos hq.symm, if_pos hp, if_pos ⟨hq, hfree⟩]
    · rw [if_neg (Ne.symm hq), if_neg fun hand => hq hand.1]
  · rw [if_neg hfree, if_neg fun hand => hfree hand.2]

/-- One position more: the column itself at the next place if it is listed for the first time, and a
scratch column otherwise. -/
theorem keepColumns_cons_eq (mapping : List (Option Nat)) (position : Nat) {p : Nat}
    (keep : List Nat) {source : Column} (hp : old[p]? = some source) :
    keepColumns old mapping position (p :: keep) =
      (⟨position, if mapping[p]? = some none then source.content
          else .scratch source.content.primary⟩ ::
        (keepColumns old (visit mapping p position) (position + 1) keep).1,
      (keepColumns old (visit mapping p position) (position + 1) keep).2) := by
  unfold visit
  simp only [keepColumns, hp]
  split
  · next hfree => simp only [hfree, if_true]
  · next hfree => simp only [if_neg hfree]

/-- One position more: a column at the next place, and possibly an entry of the mapping. -/
theorem keepColumns_cons (mapping : List (Option Nat)) (position : Nat) {p : Nat} (keep : List Nat)
    (hp : p < old.length) :
    ∃ content mapping',
      keepColumns old mapping position (p :: keep) =
        (⟨position, content⟩ :: (keepColumns old mapping' (position + 1) keep).1,
          (keepColumns old mapping' (position + 1) keep).2) ∧
      (mapping' = mapping ∨ mapping' = mapping.set p (some position)) := by
  refine ⟨_, _, keepColumns_cons_eq mapping position keep (List.getElem?_eq_getElem hp), ?_⟩
  unfold visit
  split
  · exact Or.inr rfl
  · exact Or.inl rfl

theorem length_keepColumns (mapping : List (Option Nat)) (position : Nat) {keep : List Nat}
    (h : ∀ p ∈ keep, p < old.length) :
    (keepColumns old mapping position keep).1.length = keep.length := by
  induction keep generalizing mapping position with
  | nil => rfl
  | cons p keep ih =>
    obtain ⟨content, mapping', heq, -⟩ :=
      keepColumns_cons mapping position keep (h p List.mem_cons_self)
    rw [heq, List.length_cons, List.length_cons, ih _ _ fun p hp => h p (.tail _ hp)]

/-- The kept columns stand at consecutive places. -/
theorem position_keepColumns (mapping : List (Option Nat)) (position : Nat) {keep : List Nat}
    (h : ∀ p ∈ keep, p < old.length) {i : Nat} {c : Column}
    (hc : (keepColumns old mapping position keep).1[i]? = some c) : c.position = position + i := by
  induction keep generalizing mapping position i with
  | nil => simp [keepColumns] at hc
  | cons p keep ih =>
    obtain ⟨content, mapping', heq, -⟩ :=
      keepColumns_cons mapping position keep (h p List.mem_cons_self)
    rw [heq] at hc
    cases i with
    | zero =>
      cases hc
      rfl
    | succ i =>
      rw [List.getElem?_cons_succ] at hc
      rw [ih _ _ (fun p hp => h p (.tail _ hp)) hc]
      omega

/-- A column goes to one of the places that are filled. -/
theorem mapping_keepColumns {mapping : List (Option Nat)} {position : Nat} {keep : List Nat}
    (h : ∀ p ∈ keep, p < old.length) {j v : Nat}
    (hv : (keepColumns old mapping position keep).2[j]? = some (some v)) :
    mapping[j]? = some (some v) ∨ v < position + keep.length := by
  induction keep generalizing mapping position with
  | nil => exact Or.inl hv
  | cons p keep ih =>
    obtain ⟨content, mapping', heq, hmapping⟩ :=
      keepColumns_cons mapping position keep (h p List.mem_cons_self)
    rw [heq] at hv
    rw [List.length_cons]
    rcases ih (fun p hp => h p (.tail _ hp)) hv with hv | hv
    · rcases hmapping with rfl | rfl
      · exact Or.inl hv
      · rw [List.getElem?_set] at hv
        split at hv
        · split at hv
          · cases hv
            right
            omega
          · cases hv
        · exact Or.inl hv
    · right
      omega

/-- An index of columns that stand at their places gives the last column with a key. -/
theorem get?_indexOf {columns : List Column}
    (h : ∀ (i : Nat) (c : Column), columns[i]? = some c → c.position = i) (key : ColumnKey)
    (i : Nat) :
    (indexOf columns).get? key = some i ↔ IsLast (columns.map Column.content) key i := by
  induction columns using List.reverseRecOn generalizing i with
  | nil =>
    simp only [List.map_nil, not_isLast_nil, iff_false]
    intro h
    cases h
  | append_singleton columns c ih =>
    have hc : c.position = columns.length := h _ _ List.getElem?_concat_length
    have hrest : ∀ (i : Nat) (c : Column), columns[i]? = some c → c.position = i := by
      intro i d hd
      refine h i d ?_
      rw [List.getElem?_append_left (List.getElem?_eq_some_iff.1 hd).1, hd]
    have hinsert : indexOf (columns ++ [c]) = (indexOf columns).insert c.key c.position := by
      simp [indexOf]
    rw [hinsert, Table.get?_insert, List.map_append, List.map_singleton, isLast_append_singleton,
      hc, List.length_map, ← ih hrest]
    unfold Column.key
    split <;> simp [eq_comm]

/-- The columns at the listed positions, and where each column went. -/
def kept (s : Schema) (keep : List Nat) : List Column × List (Option Nat) :=
  keepColumns s.columns (List.replicate s.width none) 0 keep

/-- The schema that is left when the listed positions are kept. -/
def reduced (s : Schema) (keep : List Nat) : Schema :=
  { s with
    columns := (s.kept keep).1
    keys := indexOf (s.kept keep).1
    aliases := s.aliases.mapValues (Remap.get? ⟨(s.kept keep).2⟩) }

/-- Columns that exist can be kept. -/
theorem outcome_reduce {keep : List Nat} (h : ∀ p ∈ keep, p < s.width) :
    outcome (reduce keep) s = .ok (⟨(s.kept keep).2⟩, s.reduced keep) := by
  have hfind : (keep.find? fun p => s.width ≤ p) = none := by
    rw [List.find?_eq_none]
    intro p hp
    have := h p hp
    simp only [decide_eq_true_eq]
    omega
  simp only [outcome, reduce, hfind]
  rfl

theorem width_reduced {keep : List Nat} (h : ∀ p ∈ keep, p < s.width) :
    (s.reduced keep).width = keep.length :=
  length_keepColumns _ 0 h

/-- What is left is a valid schema. -/
theorem valid_reduced {keep : List Nat} (h : ∀ p ∈ keep, p < s.width) :
    (s.reduced keep).Valid := by
  have hpos : ∀ (i : Nat) (c : Column), (s.kept keep).1[i]? = some c → c.position = i := by
    intro i c hc
    rw [position_keepColumns _ 0 h hc, Nat.zero_add]
  refine ⟨hpos, get?_indexOf hpos, fun name i hi => ?_⟩
  rw [width_reduced h]
  simp only [reduced, Table.get?_mapValues, Option.bind_eq_some_iff] at hi
  obtain ⟨j, -, hj⟩ := hi
  rw [Remap.get?, Option.join_eq_some_iff] at hj
  rcases mapping_keepColumns h hj with hj | hj
  · simp [List.getElem?_replicate] at hj
  · omega

end Schema

end GraphPlan
