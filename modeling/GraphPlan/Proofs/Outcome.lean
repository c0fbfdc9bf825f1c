import GraphPlan.Plan.Basic

/-!
# Outcomes of actions that can fail

Every step of planning either gives a result or stops with an error. `Except.Meets` says both halves
at once: what holds of the result, and which errors can arise. A function gets one such statement,
and the functions that call it use the statement only.

`outcome` reads an action with a state as such a step, and `stateAfter` is the state that it leaves
behind, also when it fails. Actions on a plan are read through `PlanM.exec`; the equations of this
module take it apart along the structure of an action.
-/

namespace Except

variable {ε α β : Type}

/-- The result, if there is one, has the property `good`; the error, if there is one, the property
`bad`. -/
def Meets (x : Except ε α) (good : α → Prop) (bad : ε → Prop) : Prop :=
  match x with
  | .ok a => good a
  | .error e => bad e

variable {x : Except ε α} {good good' : α → Prop} {bad bad' : ε → Prop}

@[simp]
theorem meets_ok {a : α} : (Except.ok a : Except ε α).Meets good bad ↔ good a :=
  Iff.rfl

@[simp]
theorem meets_error {e : ε} : (Except.error e : Except ε α).Meets good bad ↔ bad e :=
  Iff.rfl

/-- What a result has, when the outcome is known to be one. -/
theorem Meets.result (h : x.Meets good bad) {a : α} (hx : x = .ok a) : good a := by
  subst hx
  exact h

/-- What an error has, when the outcome is known to be one. -/
theorem Meets.failure (h : x.Meets good bad) {e : ε} (hx : x = .error e) : bad e := by
  subst hx
  exact h

/-- What can have no error has a result. -/
theorem Meets.exists_ok (h : x.Meets good fun _ => False) : ∃ a, x = .ok a := by
  cases x with
  | ok a => exact ⟨a, rfl⟩
  | error e => exact h.elim

/-- Both halves may be weakened. -/
theorem Meets.mono (h : x.Meets good bad) (hgood : ∀ a, good a → good' a)
    (hbad : ∀ e, bad e → bad' e) : x.Meets good' bad' := by
  cases x with
  | ok a => exact hgood a h
  | error e => exact hbad e h

/-- Two statements about one outcome. -/
theorem Meets.and (h : x.Meets good bad) (h' : x.Meets good' bad') :
    x.Meets (fun a => good a ∧ good' a) (fun e => bad e ∧ bad' e) := by
  cases x with
  | ok a => exact ⟨h, h'⟩
  | error e => exact ⟨h, h'⟩

/-- More errors may be allowed. -/
theorem Meets.widen (h : x.Meets good bad) (hbad : ∀ e, bad e → bad' e) : x.Meets good bad' :=
  h.mono (fun _ => id) hbad

/-- A sequence of two steps: the second one starts from what the first one guarantees. -/
theorem Meets.bind {f : α → Except ε β} {next : β → Prop} (h : x.Meets good bad)
    (hf : ∀ a, good a → (f a).Meets next bad) : (x >>= f).Meets next bad := by
  cases x with
  | ok a => exact hf a h
  | error e => exact h

end Except

namespace GraphPlan

@[simp]
theorem ok_bind {ε α β : Type} (a : α) (f : α → Except ε β) : (Except.ok a >>= f) = f a :=
  rfl

/-- The part of a sequence that gives its result. -/
theorem eq_ok_of_bind_eq_ok {ε α β : Type} {x : Except ε α} {f : α → Except ε β} {b : β}
    (h : x >>= f = .ok b) : ∃ a, x = .ok a ∧ f a = .ok b := by
  cases x with
  | ok a => exact ⟨a, rfl, h⟩
  | error e => cases h

/-! ## Actions with a state -/

section Outcome

variable {ε σ α β : Type}

/-- The outcome of an action, without the state that a failing action leaves behind. -/
def outcome (act : EStateM ε σ α) (s : σ) : Except ε (α × σ) :=
  match act s with
  | .ok a s => .ok (a, s)
  | .error e _ => .error e

@[simp]
theorem outcome_pure (a : α) (s : σ) : outcome (pure a : EStateM ε σ α) s = .ok (a, s) :=
  rfl

@[simp]
theorem outcome_get (s : σ) : outcome (get : EStateM ε σ σ) s = .ok (s, s) :=
  rfl

@[simp]
theorem outcome_modify (f : σ → σ) (s : σ) :
    outcome (modify f : EStateM ε σ PUnit) s = .ok ((), f s) :=
  rfl

/-- Running two actions in a row. -/
@[simp]
theorem outcome_bind (act : EStateM ε σ α) (f : α → EStateM ε σ β) (s : σ) :
    outcome (act >>= f) s = outcome act s >>= fun x => outcome (f x.1) x.2 := by
  simp only [outcome, bind, EStateM.bind]
  cases act s <;> rfl

theorem eq_ok_of_outcome_eq_ok {act : EStateM ε σ α} {s s' : σ} {a : α}
    (h : outcome act s = .ok (a, s')) : act s = .ok a s' := by
  unfold outcome at h
  split at h
  · next heq =>
    cases h
    exact heq
  · cases h

theorem exists_eq_error_of_outcome {act : EStateM ε σ α} {s : σ} {e : ε}
    (h : outcome act s = .error e) : ∃ s', act s = .error e s' := by
  unfold outcome at h
  split at h
  · cases h
  · next s' heq =>
    cases h
    exact ⟨s', heq⟩

/-- The state that an action leaves behind, with a result or with an error. -/
def stateAfter (act : EStateM ε σ α) (s : σ) : σ :=
  match act s with
  | .ok _ s' => s'
  | .error _ s' => s'

theorem stateAfter_of_eq_ok {act : EStateM ε σ α} {s s' : σ} {a : α} (h : act s = .ok a s') :
    stateAfter act s = s' := by
  simp only [stateAfter, h]

/-- A sequence of two actions moves the state as both of them do, or only as the first one if that
fails. -/
theorem stateAfter_bind {R : σ → σ → Prop} (htrans : ∀ a b c, R a b → R b c → R a c)
    {act : EStateM ε σ α} {f : α → EStateM ε σ β} {s : σ} (hact : R s (stateAfter act s))
    (hf : ∀ a s', act s = .ok a s' → R s' (stateAfter (f a) s')) :
    R s (stateAfter (act >>= f) s) := by
  cases h : act s with
  | ok a s' =>
    have hrun : stateAfter (act >>= f) s = stateAfter (f a) s' := by
      simp only [stateAfter, bind, EStateM.bind, h]
    rw [stateAfter_of_eq_ok h] at hact
    rw [hrun]
    exact htrans _ _ _ hact (hf a s' h)
  | error e s' =>
    have hrun : stateAfter (act >>= f) s = stateAfter act s := by
      simp only [stateAfter, bind, EStateM.bind, h]
    rw [hrun]
    exact hact

end Outcome

namespace PlanM

variable {α β : Type}

/-- Running an action on a plan is one case of an outcome. -/
theorem exec_eq_outcome (act : PlanM α) (p : Plan) : exec act p = outcome act p := by
  unfold exec outcome
  cases act p <;> rfl

@[simp]
theorem exec_pure (a : α) (p : Plan) : exec (pure a) p = .ok (a, p) :=
  rfl

@[simp]
theorem exec_get (p : Plan) : exec get p = .ok (p, p) :=
  rfl

@[simp]
theorem exec_set (q p : Plan) : exec (set q) p = .ok ((), q) :=
  rfl

@[simp]
theorem exec_modify (f : Plan → Plan) (p : Plan) : exec (modify f) p = .ok ((), f p) :=
  rfl

@[simp]
theorem exec_bind (act : PlanM α) (f : α → PlanM β) (p : Plan) :
    exec (act >>= f) p = exec act p >>= fun x => exec (f x.1) x.2 := by
  simp only [exec_eq_outcome, outcome_bind]

/-- An outcome that is known beforehand leaves the plan as it is. -/
@[simp]
theorem exec_ofExcept (x : Except PlanError α) (p : Plan) :
    exec (ofExcept x) p = x >>= fun a => .ok (a, p) := by
  cases x <;> rfl

/-- A change of the schema leaves the tree as it is. -/
@[simp]
theorem exec_onSchema (act : SchemaM α) (p : Plan) :
    exec (onSchema act) p =
      outcome act p.schema >>= fun x => .ok (x.1, { p with schema := x.2 }) := by
  simp only [exec, onSchema, outcome]
  cases act p.schema <;> rfl

end PlanM

end GraphPlan
