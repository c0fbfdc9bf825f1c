import GraphPlan.Expr.Basic

/-!
# Reading values off a text

A value is legible if its text, with other text after it, can be neither the text of another value
nor cut at another place. What may come after is part of the notion: a number is legible only where
no further digit follows. `Legible` speaks of one value against all others, so that the legibility
of a tree can be proved by induction on it. Tokens, quoted strings, numbers and lists with a
separator are treated here, once for all texts that are made of them.
-/

namespace GraphPlan.Text

variable {α : Type}

/-- The text is at its end or goes on with a character that is not in the class. -/
def Stops (p : Char → Bool) : List Char → Prop
  | [] => True
  | c :: _ => p c = false

@[simp]
theorem stops_nil (p : Char → Bool) : Stops p [] :=
  trivial

@[simp]
theorem stops_cons {p : Char → Bool} {c : Char} {r : List Char} :
    Stops p (c :: r) ↔ p c = false :=
  Iff.rfl

/-- A wider class stops less often. -/
theorem Stops.mono {p q : Char → Bool} {r : List Char} (h : Stops q r)
    (hpq : ∀ c, p c = true → q c = true) : Stops p r := by
  cases r with
  | nil => trivial
  | cons c r =>
    show p c = false
    rw [Bool.eq_false_iff]
    intro hp
    have hq : q c = false := h
    rw [hpq c hp] at hq
    cases hq

/-- Where the text after it is one at which reading can stop, the text of `a` is not the text of
another good value, and it ends at one place only. -/
def Legible (write : α → List Char) (good : α → Prop) (stop : List Char → Prop) (a : α) : Prop :=
  ∀ ⦃b : α⦄ ⦃r s : List Char⦄, good b → stop r → stop s → write a ++ r = write b ++ s →
    a = b ∧ r = s

/-- A text can stand at the end. -/
theorem Legible.eq {write : α → List Char} {good : α → Prop} {stop : List Char → Prop} {a b : α}
    (h : Legible write good stop a) (hb : good b) (hend : stop []) (heq : write a = write b) :
    a = b :=
  (h hb hend hend (by rw [heq])).1

/-! ## Tokens -/

section Token

variable {p : Char → Bool} {a b r s : List Char}

/-- A run of characters of a class is delimited by the first character outside of it. -/
theorem append_inj_of_stops (ha : ∀ c ∈ a, p c = true) (hb : ∀ c ∈ b, p c = true) (hr : Stops p r)
    (hs : Stops p s) (h : a ++ r = b ++ s) : a = b ∧ r = s := by
  induction a generalizing b with
  | nil =>
    cases b with
    | nil => exact ⟨rfl, h⟩
    | cons d b =>
      have hd := hb d List.mem_cons_self
      rw [List.nil_append] at h
      rw [h] at hr
      rw [show p d = false from hr] at hd
      cases hd
  | cons c a ih =>
    have hc := ha c List.mem_cons_self
    cases b with
    | nil =>
      rw [List.nil_append] at h
      rw [← h] at hs
      rw [show p c = false from hs] at hc
      cases hc
    | cons d b =>
      rw [List.cons_append, List.cons_append, List.cons.injEq] at h
      obtain ⟨rfl, h⟩ := h
      obtain ⟨rfl, rfl⟩ := ih (fun c hc => ha c (List.mem_cons_of_mem _ hc))
        (fun c hc => hb c (List.mem_cons_of_mem _ hc)) h
      exact ⟨rfl, rfl⟩

/-- Values whose texts are tokens of a class are legible if the texts tell them apart. -/
theorem legible_of_token {write : α → List Char} {good : α → Prop} {a : α}
    (hclass : ∀ b, good b → ∀ c ∈ write b, p c = true) (ha : good a)
    (hinj : ∀ b, good b → write a = write b → a = b) : Legible write good (Stops p) a := by
  intro b r s hb hr hs h
  obtain ⟨htext, hrest⟩ := append_inj_of_stops (hclass a ha) (hclass b hb) hr hs h
  exact ⟨hinj b hb htext, hrest⟩

end Token

/-! ## Quoted strings -/

/-- The string does not contain the single quote. -/
def QuoteFree (s : String) : Prop :=
  '\'' ∉ s.toList

instance (s : String) : Decidable (QuoteFree s) :=
  inferInstanceAs (Decidable ('\'' ∉ s.toList))

theorem toList_quoted (s : String) : (Expr.quoted s).toList = '\'' :: (s.toList ++ ['\'']) := by
  simp [Expr.quoted]

/-- A quoted string without quotes is legible before any text. -/
theorem legible_quoted {s : String} (hs : QuoteFree s) :
    Legible (fun s => (Expr.quoted s).toList) QuoteFree (fun _ => True) s := by
  intro t r r' ht _ _ h
  have hfree : ∀ {u : String}, QuoteFree u → ∀ c ∈ u.toList, (c != '\'') = true := by
    intro u hu c hc
    rw [bne_iff_ne]
    rintro rfl
    exact hu hc
  simp only [toList_quoted, List.cons_append, List.append_assoc, List.cons.injEq, true_and,
    List.nil_append] at h
  have hstop : ∀ t : List Char, Stops (· != '\'') ('\'' :: t) := fun _ => rfl
  obtain ⟨hst, hrest⟩ := append_inj_of_stops (hfree hs) (hfree ht) (hstop r) (hstop r') h
  exact ⟨String.toList_inj.1 hst, (List.cons.inj hrest).2⟩

/-! ## Words of the language -/

/-- The operator with the given spelling. -/
def operatorOf : List Char → BinaryOp
  | ['+'] => .add
  | ['-'] => .sub
  | ['*'] => .mul
  | ['/'] => .div
  | ['%'] => .mod
  | ['A', 'N', 'D'] => .and
  | ['O', 'R'] => .or
  | ['<', '>'] => .compare .ne
  | ['>'] => .compare .gt
  | ['>', '='] => .compare .ge
  | ['<'] => .compare .lt
  | ['<', '='] => .compare .le
  | _ => .compare .eq

theorem operatorOf_symbol (op : BinaryOp) : operatorOf op.symbol.toList = op := by
  cases op with
  | compare c => cases c <;> rfl
  | _ => rfl

/-- An operator is legible before a blank. -/
theorem legible_symbol (op : BinaryOp) :
    Legible (fun op => op.symbol.toList) (fun _ => True) (Stops (· != ' ')) op := by
  refine legible_of_token (fun op _ => List.all_eq_true.1 ?_) trivial fun op' _ h => ?_
  · cases op with
    | compare c => cases c <;> decide
    | _ => decide
  · rw [← operatorOf_symbol op, h, operatorOf_symbol]

theorem aggregateName_injective {k k' : AggregateKind} (h : k.name.toList = k'.name.toList) :
    k = k' := by
  cases k <;> cases k' <;> simp_all [AggregateKind.name]

/-! ## Numbers -/

theorem repr_injective {m n : Nat} (h : (Nat.repr m).toList = (Nat.repr n).toList) : m = n := by
  rw [Nat.toList_repr, Nat.toList_repr] at h
  rw [← digitsValue_natDigits m, ← digitsValue_natDigits n]
  exact congrArg digitsValue h

theorem isDigit_of_mem_repr {n : Nat} {c : Char} (h : c ∈ (Nat.repr n).toList) :
    c.isDigit = true := by
  rw [Nat.toList_repr] at h
  exact Nat.isDigit_of_mem_toDigits (by omega) (by omega) h

theorem repr_ne_nil (n : Nat) : (Nat.repr n).toList ≠ [] := by
  rw [Nat.toList_repr]
  exact Nat.toDigits_ne_nil

/-- A number is legible where no digit follows. -/
theorem legible_repr (n : Nat) :
    Legible (fun n => (Nat.repr n).toList) (fun _ => True) (Stops Char.isDigit) n :=
  legible_of_token (fun _ _ _ hc => isDigit_of_mem_repr hc) trivial fun _ _ h => repr_injective h

/-- Whether a character was put in front of a text that does not start with it. -/
theorem optional_append_inj {c : Char} {m n : Bool} {r s : List Char} (hr : Stops (· == c) r)
    (hs : Stops (· == c) s)
    (h : (if m then [c] else []) ++ r = (if n then [c] else []) ++ s) : m = n ∧ r = s := by
  cases m <;> cases n
  · exact ⟨rfl, h⟩
  · rw [show r = c :: s from h, stops_cons, beq_self_eq_true] at hr
    cases hr
  · rw [show s = c :: r from h.symm, stops_cons, beq_self_eq_true] at hs
    cases hs
  · exact ⟨rfl, (List.cons.inj h).2⟩

theorem stops_minus_of_digits {digits : List Char} (hne : digits ≠ [])
    (h : ∀ c ∈ digits, c.isDigit = true) (r : List Char) : Stops (· == '-') (digits ++ r) := by
  obtain ⟨d, ds, rfl⟩ := List.exists_cons_of_ne_nil hne
  show (d == '-') = false
  rw [beq_eq_false_iff_ne]
  rintro rfl
  exact absurd (h '-' List.mem_cons_self) (by decide)

theorem toList_intText (i : Int) :
    (intText i).toList =
      (if decide (i < 0) then ['-'] else []) ++ (Nat.repr i.natAbs).toList := by
  unfold intText
  by_cases hi : i < 0 <;> simp [hi]

theorem eq_minus_or_isDigit_of_mem_intText {i : Int} {c : Char} (h : c ∈ (intText i).toList) :
    c = '-' ∨ c.isDigit = true := by
  rw [toList_intText, List.mem_append] at h
  rcases h with h | h
  · split at h
    · exact Or.inl (List.mem_singleton.1 h)
    · cases h
  · exact Or.inr (isDigit_of_mem_repr h)

theorem intText_injective {i j : Int} (h : (intText i).toList = (intText j).toList) : i = j := by
  have hstop : ∀ n : Nat, Stops (· == '-') (Nat.repr n).toList := by
    intro n
    have := stops_minus_of_digits (repr_ne_nil n) (fun _ => isDigit_of_mem_repr) []
    rwa [List.append_nil] at this
  rw [toList_intText, toList_intText] at h
  obtain ⟨hsign, habs⟩ := optional_append_inj (hstop _) (hstop _) h
  have habs := repr_injective habs
  rw [decide_eq_decide] at hsign
  omega

/-! ## Lists -/

section List

variable {write : α → List Char} {good : α → Prop} {stop stopAll : List Char → Prop}
  {separator : List Char}

theorem intercalate_map_cons (a : α) (as : List α) :
    separator.intercalate ((a :: as).map write) =
      write a ++ as.flatMap fun b => separator ++ write b := by
  induction as generalizing a with
  | nil => simp
  | cons b as ih =>
    rw [List.map_cons, List.map_cons, List.intercalate_cons_cons, ← List.map_cons, ih b]
    simp

/-- After an item, reading can stop, whether further items follow or not. -/
theorem stop_flatMap (hseparator : ∀ t, stop (separator ++ t)) (hstop : ∀ t, stopAll t → stop t)
    (as : List α) {r : List Char} (hr : stopAll r) :
    stop ((as.flatMap fun b => separator ++ write b) ++ r) := by
  cases as with
  | nil => exact hstop r hr
  | cons a as =>
    rw [List.flatMap_cons, List.append_assoc, List.append_assoc]
    exact hseparator _

/-- Items that each have a separator in front. -/
theorem legible_flatMap {as : List α} (hseparator : ∀ t, stop (separator ++ t))
    (hstop : ∀ t, stopAll t → stop t) (hmore : ∀ t, ¬stopAll (separator ++ t))
    (h : ∀ a ∈ as, Legible write good stop a) :
    Legible (fun as => as.flatMap fun b => separator ++ write b) (fun as => ∀ a ∈ as, good a)
      stopAll as := by
  induction as with
  | nil =>
    intro bs r s hbs hr hs heq
    cases bs with
    | nil => exact ⟨rfl, heq⟩
    | cons b bs =>
      simp only [List.flatMap_nil, List.nil_append, List.flatMap_cons, List.append_assoc] at heq
      exact absurd (heq ▸ hr) (hmore _)
  | cons a as ih =>
    intro bs r s hbs hr hs heq
    cases bs with
    | nil =>
      simp only [List.flatMap_nil, List.nil_append, List.flatMap_cons, List.append_assoc] at heq
      exact absurd (heq ▸ hs) (hmore _)
    | cons b bs =>
      simp only [List.flatMap_cons, List.append_assoc] at heq
      obtain ⟨rfl, htail⟩ := h a List.mem_cons_self (hbs b List.mem_cons_self)
        (stop_flatMap hseparator hstop as hr) (stop_flatMap hseparator hstop bs hs)
        (List.append_cancel_left heq)
      obtain ⟨rfl, rfl⟩ := ih (fun c hc => h c (List.mem_cons_of_mem _ hc))
        (fun c hc => hbs c (List.mem_cons_of_mem _ hc)) hr hs htail
      exact ⟨rfl, rfl⟩

/-- Legible items make legible lists, provided that what stands after an item tells whether another
one comes: an item stops at a separator and at the end of a list, and neither a separator nor an
item looks like the end of a list. -/
theorem legible_intercalate {as : List α} (hseparator : ∀ t, stop (separator ++ t))
    (hstop : ∀ t, stopAll t → stop t) (hmore : ∀ t, ¬stopAll (separator ++ t))
    (hitem : ∀ b, good b → ∀ t, ¬stopAll (write b ++ t)) (hgood : ∀ a ∈ as, good a)
    (h : ∀ a ∈ as, Legible write good stop a) :
    Legible (fun as => separator.intercalate (as.map write)) (fun as => ∀ a ∈ as, good a) stopAll
      as := by
  intro bs r s hbs hr hs heq
  cases as with
  | nil =>
    cases bs with
    | nil => exact ⟨rfl, heq⟩
    | cons b bs =>
      simp only [intercalate_map_cons, List.map_nil, List.intercalate_nil, List.nil_append,
        List.append_assoc] at heq
      exact absurd (heq ▸ hr) (hitem b (hbs b List.mem_cons_self) _)
  | cons a as =>
    cases bs with
    | nil =>
      simp only [intercalate_map_cons, List.map_nil, List.intercalate_nil, List.nil_append,
        List.append_assoc] at heq
      exact absurd (heq ▸ hs) (hitem a (hgood a List.mem_cons_self) _)
    | cons b bs =>
      simp only [intercalate_map_cons, List.append_assoc] at heq
      obtain ⟨rfl, htail⟩ := h a List.mem_cons_self (hbs b List.mem_cons_self)
        (stop_flatMap hseparator hstop as hr) (stop_flatMap hseparator hstop bs hs) heq
      obtain ⟨rfl, rfl⟩ := legible_flatMap hseparator hstop hmore
        (fun c hc => h c (List.mem_cons_of_mem _ hc)) (fun c hc => hbs c (List.mem_cons_of_mem _ hc))
        hr hs htail
      exact ⟨rfl, rfl⟩

end List

end GraphPlan.Text
