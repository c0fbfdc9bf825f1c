/-!
# Taking one element out of a list

`pick?` finds the first element for which a partial function is defined and splits it off; the other
elements stay in order. Planning repeats such choices until none is left, and each of them makes a
list shorter.
-/

namespace GraphPlan

variable {α β : Type}

/-- The first element at which `f` is defined, the value there, and the list without the element. -/
def pick? (f : α → Option β) : List α → Option (α × β × List α)
  | [] => none
  | a :: rest =>
    match f a with
    | some b => some (a, b, rest)
    | none => (pick? f rest).map fun (a', b, rest') => (a', b, a :: rest')

/-- What `pick?` finds stands somewhere in the list, and `f` is undefined at all elements before. -/
theorem pick?_eq_some_iff {f : α → Option β} {l : List α} {a : α} {b : β} {rest : List α} :
    pick? f l = some (a, b, rest) ↔
      ∃ before after, l = before ++ a :: after ∧ rest = before ++ after ∧ f a = some b ∧
        ∀ x ∈ before, f x = none := by
  induction l generalizing rest with
  | nil => simp [pick?]
  | cons x l ih =>
    cases hx : f x with
    | some y =>
      simp only [pick?, hx, Option.some.injEq, Prod.mk.injEq]
      constructor
      · rintro ⟨rfl, rfl, rfl⟩
        exact ⟨[], l, rfl, rfl, hx, by simp⟩
      · rintro ⟨before, after, hl, hrest, hf, hnone⟩
        cases before with
        | nil =>
          simp only [List.nil_append, List.cons.injEq] at hl hrest
          obtain ⟨rfl, rfl⟩ := hl
          simp_all
        | cons z before =>
          simp only [List.cons_append, List.cons.injEq] at hl
          have := hnone z (by simp)
          simp_all
    | none =>
      simp only [pick?, hx, Option.map_eq_some_iff, Prod.exists, Prod.mk.injEq]
      constructor
      · rintro ⟨a', b', rest', h, rfl, rfl, rfl⟩
        obtain ⟨before, after, rfl, rfl, hf, hnone⟩ := ih.1 h
        exact ⟨x :: before, after, rfl, rfl, hf, by simpa [hx] using hnone⟩
      · rintro ⟨before, after, hl, hrest, hf, hnone⟩
        cases before with
        | nil =>
          simp only [List.nil_append, List.cons.injEq] at hl
          rw [hl.1, hf] at hx
          cases hx
        | cons z before =>
          simp only [List.cons_append, List.cons.injEq] at hl hrest
          obtain ⟨rfl, rfl⟩ := hl
          exact ⟨a, b, before ++ after,
            ih.2 ⟨before, after, rfl, rfl, hf, fun y hy => hnone y (by simp [hy])⟩, rfl, rfl,
            hrest.symm⟩

/-- `pick?` finds nothing exactly when `f` is undefined everywhere. -/
theorem pick?_eq_none_iff {f : α → Option β} {l : List α} :
    pick? f l = none ↔ ∀ x ∈ l, f x = none := by
  induction l with
  | nil => simp [pick?]
  | cons x l ih => cases hx : f x <;> simp [pick?, hx, ih]

/-- Picking makes the list shorter by one. -/
theorem length_of_pick? {f : α → Option β} {l : List α} {a : α} {b : β} {rest : List α}
    (h : pick? f l = some (a, b, rest)) : l.length = rest.length + 1 := by
  obtain ⟨before, after, rfl, rfl, -, -⟩ := pick?_eq_some_iff.1 h
  simp only [List.length_append, List.length_cons]
  omega

end GraphPlan
