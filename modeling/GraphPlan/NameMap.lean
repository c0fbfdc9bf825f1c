/-!
# Maps and sets of names

A `NameMap` is a finite map from names whose entries are listed in strictly increasing order of the
names, so that two maps with the same entries are equal. Names are compared by code points. A
`NameSet` is a map without values.

Main statements: `get?_alter` says what one change does to every lookup, and `mem_names_alter` what
it does to the names that are present.
-/

namespace GraphPlan

/-- Changes the value at `name`, or adds one, in a list of entries in increasing order. -/
def alterEntries {α : Type} (name : String) (f : Option α → α) :
    List (String × α) → List (String × α)
  | [] => [(name, f none)]
  | (k, v) :: rest =>
    if name < k then (name, f none) :: (k, v) :: rest
    else if k = name then (k, f (some v)) :: rest
    else (k, v) :: alterEntries name f rest

theorem mem_keys_alterEntries {α : Type} {name x : String} {f : Option α → α}
    {entries : List (String × α)} :
    x ∈ (alterEntries name f entries).map Prod.fst ↔ x = name ∨ x ∈ entries.map Prod.fst := by
  induction entries with
  | nil => simp [alterEntries]
  | cons entry rest ih =>
    obtain ⟨k, v⟩ := entry
    by_cases h₁ : name < k
    · simp [alterEntries, h₁]
    · by_cases h₂ : k = name
      · subst h₂
        simp only [alterEntries, h₁, if_false, if_true, List.map_cons, List.mem_cons, or_self_left]
      · simp only [alterEntries, h₁, h₂, if_false, List.map_cons, List.mem_cons, ih]
        constructor <;> (rintro (h | h | h) <;> simp [h])

theorem pairwise_alterEntries {α : Type} {name : String} {f : Option α → α}
    {entries : List (String × α)} (h : (entries.map Prod.fst).Pairwise (· < ·)) :
    ((alterEntries name f entries).map Prod.fst).Pairwise (· < ·) := by
  induction entries with
  | nil => simp [alterEntries]
  | cons entry rest ih =>
    obtain ⟨k, v⟩ := entry
    simp only [List.map_cons, List.pairwise_cons] at h
    by_cases h₁ : name < k
    · simp only [alterEntries, h₁, if_true, List.map_cons, List.pairwise_cons, List.mem_cons]
      refine ⟨?_, h.1, h.2⟩
      rintro x (rfl | hx)
      · exact h₁
      · exact String.lt_trans h₁ (h.1 x hx)
    · by_cases h₂ : k = name
      · subst h₂
        simp only [alterEntries, h₁, if_false, if_true, List.map_cons, List.pairwise_cons]
        exact h
      · simp only [alterEntries, h₁, h₂, if_false, List.map_cons, List.pairwise_cons]
        refine ⟨?_, ih h.2⟩
        intro x hx
        rcases mem_keys_alterEntries.1 hx with rfl | hx
        · exact Std.lt_of_le_of_ne h₁ h₂
        · exact h.1 x hx

/-- A finite map from names, listed in the order of the names. -/
structure NameMap (α : Type) where
  /-- The names with their values. -/
  entries : List (String × α)
  /-- Every name comes before the names after it. -/
  sorted : (entries.map Prod.fst).Pairwise (· < ·)

namespace NameMap

variable {α : Type}

@[ext]
theorem ext {m n : NameMap α} (h : m.entries = n.entries) : m = n := by
  cases m; cases n; cases h; rfl

instance [DecidableEq α] : DecidableEq (NameMap α) := fun m n =>
  if h : m.entries = n.entries then isTrue (ext h) else isFalse fun e => h (e ▸ rfl)

/-- The map without entries. -/
def empty : NameMap α :=
  ⟨[], List.Pairwise.nil⟩

instance : Inhabited (NameMap α) := ⟨empty⟩

/-- The names that have a value, in order. -/
def names (m : NameMap α) : List String :=
  m.entries.map Prod.fst

/-- The value of a name. -/
def get? (m : NameMap α) (name : String) : Option α :=
  m.entries.lookup name

/-- Whether a name has a value. -/
def contains (m : NameMap α) (name : String) : Bool :=
  (m.get? name).isSome

/-- The number of names that have a value. -/
def size (m : NameMap α) : Nat :=
  m.entries.length

/-- Gives `name` a value computed from the one that it had. -/
def alter (m : NameMap α) (name : String) (f : Option α → α) : NameMap α :=
  ⟨alterEntries name f m.entries, pairwise_alterEntries m.sorted⟩

/-- Gives `name` a value. -/
def insert (m : NameMap α) (name : String) (value : α) : NameMap α :=
  m.alter name fun _ => value

theorem mem_names_alter {m : NameMap α} {name x : String} {f : Option α → α} :
    x ∈ (m.alter name f).names ↔ x = name ∨ x ∈ m.names :=
  mem_keys_alterEntries

theorem lookup_eq_none_of_lt {entries : List (String × α)} {name : String}
    (h : ∀ x ∈ entries.map Prod.fst, name < x) : entries.lookup name = none := by
  induction entries with
  | nil => rfl
  | cons entry rest ih =>
    obtain ⟨k, v⟩ := entry
    have hk : (name == k) = false := by
      have hlt := h k (by simp)
      simp only [beq_eq_false_iff_ne, ne_eq]
      rintro rfl
      exact String.lt_irrefl _ hlt
    rw [List.lookup_cons, hk]
    exact ih fun x hx => h x (by simp [List.mem_map] at hx ⊢; exact Or.inr hx)

theorem lookup_alterEntries {name x : String} {f : Option α → α} {entries : List (String × α)}
    (h : (entries.map Prod.fst).Pairwise (· < ·)) :
    (alterEntries name f entries).lookup x =
      if x = name then some (f (entries.lookup name)) else entries.lookup x := by
  induction entries with
  | nil =>
    by_cases hx : x = name
    · simp [alterEntries, hx]
    · have hb : (x == name) = false := by simpa using hx
      simp [alterEntries, List.lookup_cons, hx, hb]
  | cons entry rest ih =>
    obtain ⟨k, v⟩ := entry
    simp only [List.map_cons, List.pairwise_cons] at h
    by_cases h₁ : name < k
    · have hn : ((k, v) :: rest).lookup name = none :=
        lookup_eq_none_of_lt fun y hy => by
          simp only [List.map_cons, List.mem_cons] at hy
          rcases hy with rfl | hy
          · exact h₁
          · exact String.lt_trans h₁ (h.1 y hy)
      by_cases hx : x = name
      · subst hx
        simp [alterEntries, h₁, hn]
      · have hb : (x == name) = false := by simpa using hx
        simp [alterEntries, h₁, hx, List.lookup_cons, hb]
    · by_cases h₂ : k = name
      · subst h₂
        rw [alterEntries, if_neg h₁, if_pos rfl]
        by_cases hx : x = k
        · simp [hx]
        · have hb : (x == k) = false := by simpa using hx
          simp [List.lookup_cons, hx, hb]
      · have hk : (name == k) = false := by simpa using fun e => h₂ e.symm
        by_cases hx : x = k
        · subst hx
          simp [alterEntries, h₁, h₂]
        · have hb : (x == k) = false := by simpa using hx
          simp only [alterEntries, h₁, h₂, if_false, List.lookup_cons, hb, hk, ih h.2]

theorem get?_alter (m : NameMap α) (name x : String) (f : Option α → α) :
    (m.alter name f).get? x = if x = name then some (f (m.get? name)) else m.get? x :=
  lookup_alterEntries m.sorted

end NameMap

/-- A finite set of names, listed in order. -/
abbrev NameSet := NameMap Unit

/-- Adds a name to a set. -/
def NameMap.add (s : NameSet) (name : String) : NameSet :=
  s.insert name ()

end GraphPlan
