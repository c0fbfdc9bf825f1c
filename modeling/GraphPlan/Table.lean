/-!
# Finite tables

A `Table` is a finite map, kept as a list of entries in which no key occurs twice; the entry written
last stands first.

Main statements: `get?_insert` and `get?_mapValues` say what a change does to every lookup.
-/

namespace GraphPlan

/-- A finite map from keys to values. -/
structure Table (κ α : Type) where
  /-- The keys with their values. -/
  entries : List (κ × α)
  /-- No key has two values. -/
  nodup : (entries.map Prod.fst).Nodup

namespace Table

variable {κ α β : Type}

@[ext]
theorem ext {s t : Table κ α} (h : s.entries = t.entries) : s = t := by
  cases s; cases t; cases h; rfl

/-- The table without entries. -/
def empty : Table κ α :=
  ⟨[], List.nodup_nil⟩

instance : Inhabited (Table κ α) := ⟨empty⟩

variable [DecidableEq κ]

/-- The value of a key. -/
def get? (t : Table κ α) (key : κ) : Option α :=
  t.entries.lookup key

/-- The entries of other keys. -/
def others (entries : List (κ × α)) (key : κ) : List (κ × α) :=
  entries.filter fun e => e.1 ≠ key

theorem others_sublist (entries : List (κ × α)) (key : κ) :
    ((others entries key).map Prod.fst).Sublist (entries.map Prod.fst) :=
  List.Sublist.map _ List.filter_sublist

/-- Gives `key` a value in place of the one that it had. -/
def insert (t : Table κ α) (key : κ) (value : α) : Table κ α :=
  ⟨(key, value) :: others t.entries key, by
    simp only [List.map_cons, List.nodup_cons]
    refine ⟨?_, (others_sublist t.entries key).nodup t.nodup⟩
    simp [others]⟩

/-- Changes every value and drops the entries for which there is no new one. -/
def mapValues (t : Table κ α) (f : α → Option β) : Table κ β :=
  ⟨t.entries.filterMap fun e => (f e.2).map fun b => (e.1, b), by
    have h : (t.entries.filterMap fun e => (f e.2).map fun b => (e.1, b)).map Prod.fst =
        (t.entries.filter fun e => (f e.2).isSome).map Prod.fst := by
      generalize t.entries = es
      induction es with
      | nil => rfl
      | cons e es ih => cases he : f e.2 <;> simp_all
    rw [h]
    exact (List.Sublist.map _ List.filter_sublist).nodup t.nodup⟩

theorem lookup_others (entries : List (κ × α)) {key x : κ} (h : x ≠ key) :
    (others entries key).lookup x = entries.lookup x := by
  induction entries with
  | nil => rfl
  | cons e es ih =>
    obtain ⟨k, v⟩ := e
    by_cases hk : k = key
    · have hx : (x == k) = false := by simpa [hk] using h
      simpa [others, hk, List.lookup_cons, hk ▸ hx] using ih
    · by_cases hx : x = k
      · simp [others, hk, hx]
      · have hb : (x == k) = false := by simpa using hx
        simpa [others, hk, List.lookup_cons, hb] using ih

theorem get?_insert (t : Table κ α) (key x : κ) (value : α) :
    (t.insert key value).get? x = if x = key then some value else t.get? x := by
  by_cases h : x = key
  · simp [insert, get?, h]
  · have hb : (x == key) = false := by simpa using h
    simp [insert, get?, h, List.lookup_cons, hb, lookup_others t.entries h]

theorem lookup_eq_none_of_notMem {entries : List (κ × α)} {x : κ}
    (h : x ∉ entries.map Prod.fst) : entries.lookup x = none := by
  induction entries with
  | nil => rfl
  | cons e es ih =>
    obtain ⟨k, v⟩ := e
    simp only [List.map_cons, List.mem_cons, not_or] at h
    have hb : (x == k) = false := by simpa using h.1
    rw [List.lookup_cons, hb]
    exact ih h.2

theorem get?_mapValues (t : Table κ α) (f : α → Option β) (x : κ) :
    (t.mapValues f).get? x = (t.get? x).bind f := by
  obtain ⟨es, hn⟩ := t
  simp only [mapValues, get?]
  induction es with
  | nil => rfl
  | cons e es ih =>
    obtain ⟨k, v⟩ := e
    simp only [List.map_cons, List.nodup_cons] at hn
    by_cases hx : x = k
    · subst hx
      cases hf : f v with
      | none =>
        have hnone := lookup_eq_none_of_notMem hn.1
        simp [hf, ih hn.2, hnone]
      | some b => simp [hf]
    · have hb : (x == k) = false := by simpa using hx
      cases hf : f v <;> simp [hf, List.lookup_cons, hb, ih hn.2]

end Table

end GraphPlan
