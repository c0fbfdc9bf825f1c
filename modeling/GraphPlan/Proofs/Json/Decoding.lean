import GraphPlan.Json.Reader
import GraphPlan.Proofs.Json.Spelling

/-!
# Values are decoded from their documents

A reader decodes a document as a value wherever it may open as many arrays and objects as the
document nests. The readers of single values, of lists and of options decode what is written for
their values, and a record is read field by field from an object whose field names are distinct.
-/

namespace GraphPlan

/-! ## Integers are in the range of doubles -/

theorem roundHalfEven_le_of_le {n d k : Nat} (hd : 0 < d) (h : n ≤ k * d) :
    roundHalfEven n d ≤ k := by
  have hround := roundHalfEven_le (n := n) hd
  by_contra hlt
  have hnext : d * (k + 1) ≤ d * roundHalfEven n d := Nat.mul_le_mul_left d (by omega)
  rw [Nat.mul_add, Nat.mul_one, Nat.mul_comm d k] at hnext
  omega

namespace Binary64

theorem floorLog2_one {n : Nat} (h : n ≠ 0) : floorLog2 n 1 = n.log2 := by
  have hlog : Nat.log2 1 = 0 := rfl
  unfold floorLog2
  simp only [hlog, Int.natCast_zero, Int.sub_zero, Int.toNat_natCast, Nat.one_mul]
  rw [if_pos]
  calc 2 ^ n.log2 ≤ n := Nat.log2_self_le h
    _ ≤ n * Nat.pow 2 (-(n.log2 : Int)).toNat := Nat.le_mul_of_pos_right n (Nat.pow_pos (by omega))

/-- Scaled to 53 bits, a number stays below `2 ^ 53`. -/
theorem scaled_lt (n : Nat) {q : Int} (h : n.log2 - 52 = q) :
    n * Nat.pow 2 (-q).toNat < 2 ^ 53 * (1 * Nat.pow 2 q.toNat) := by
  have hlt : n < 2 ^ (n.log2 + 1) := Nat.lt_log2_self
  have hexp : n.log2 + 1 + (-q).toNat = 53 + q.toNat := by omega
  have hpos : 0 < 2 ^ (-q).toNat := Nat.pow_pos (by omega)
  calc n * 2 ^ (-q).toNat
      < 2 ^ (n.log2 + 1) * 2 ^ (-q).toNat := Nat.mul_lt_mul_of_pos_right hlt hpos
    _ = 2 ^ 53 * 2 ^ q.toNat := by rw [← Nat.pow_add, hexp, Nat.pow_add]
    _ = 2 ^ 53 * (1 * 2 ^ q.toNat) := by rw [Nat.one_mul]

theorem isSome_ofRatio_one (negative : Bool) {n : Nat} (h : n < 2 ^ 64) :
    (ofRatio negative n 1).isSome := by
  unfold ofRatio
  split
  · rfl
  · next hn =>
    have hlog : n.log2 < 64 := (Nat.log2_lt hn).2 h
    have hq : max (floorLog2 n 1 - 52) (-1074) = n.log2 - 52 := by
      rw [floorLog2_one hn]
      omega
    have hm := roundHalfEven_le_of_le (Nat.mul_pos Nat.one_pos (Nat.pow_pos (by omega)))
      (scaled_lt n rfl).le
    simp only [hq]
    rw [if_pos]
    · rfl
    · have hexp : ((n.log2 : Int) - 52 + 1074).toNat ≤ 1085 := by omega
      calc _ ≤ 1085 * Nat.pow 2 52 + 2 ^ 53 := Nat.add_le_add (Nat.mul_le_mul_right _ hexp) hm
        _ < infinityBits := by decide

end Binary64

/-- An integer of 64 bits, with or without sign, is in the range of doubles. -/
theorem Numeral.isSome_toBinary64?_ofInt {i : Int} (h : i.natAbs < 2 ^ 64) :
    (ofInt i).toBinary64?.isSome := by
  have hread : (ofInt i).toBinary64? = Binary64.ofDecimal (decide (i < 0)) i.natAbs 0 := by
    unfold ofInt toBinary64?
    rw [List.append_nil, digitsValue_natDigits]
    rfl
  rw [hread]
  by_cases hzero : i.natAbs = 0
  · rw [hzero]
    rfl
  · have hwidth : Binary64.decimalWidth i.natAbs ≤ 20 :=
      (Binary64.decimalWidth_le_iff (by omega)).2 (by omega)
    rw [Binary64.ofDecimal_of_top hzero (by omega) (by omega)]
    show (Binary64.ofRatio _ (i.natAbs * 1) 1).isSome
    rw [Nat.mul_one]
    exact Binary64.isSome_ofRatio_one _ h

namespace Json

/-! ## Nesting -/

mutual

/-- The number of arrays and objects that are open at once. -/
def nesting : Json → Nat
  | null | bool _ | num _ | str _ => 0
  | arr items => nestingItems items + 1
  | obj fields => nestingFields fields + 1

/-- The nesting of the deepest item. -/
def nestingItems : List Json → Nat
  | [] => 0
  | item :: items => max item.nesting (nestingItems items)

/-- The nesting of the deepest field. -/
def nestingFields : List (List Char × Json) → Nat
  | [] => 0
  | (_, value) :: fields => max value.nesting (nestingFields fields)

end

variable {depth : Nat}

theorem nestingItems_le_iff {items : List Json} :
    nestingItems items ≤ depth ↔ ∀ item ∈ items, item.nesting ≤ depth := by
  induction items with
  | nil => simp [nestingItems]
  | cons item items ih => rw [nestingItems, Nat.max_le, ih, List.forall_mem_cons]

theorem nestingFields_le_iff {fields : List (List Char × Json)} :
    nestingFields fields ≤ depth ↔ ∀ field ∈ fields, field.2.nesting ≤ depth := by
  induction fields with
  | nil => simp [nestingFields]
  | cons field fields ih => rw [nestingFields, Nat.max_le, ih, List.forall_mem_cons]

/-- An array is opened, and its items are read one level further in. -/
theorem exists_depth_arr {items : List Json} (h : (arr items).nesting ≤ depth) :
    ∃ d, depth = d + 1 ∧ ∀ item ∈ items, item.nesting ≤ d := by
  rw [nesting] at h
  exact ⟨depth - 1, by omega, nestingItems_le_iff.1 (by omega)⟩

theorem nesting_ofFields_le_succ {fields : List (String × Json)} :
    (ofFields fields).nesting ≤ depth + 1 ↔ ∀ field ∈ fields, field.2.nesting ≤ depth := by
  rw [ofFields, nesting, Nat.add_le_add_iff_right, nestingFields_le_iff, List.forall_mem_map]

/-- An object is opened, and its fields are read one level further in. -/
theorem exists_depth_ofFields {fields : List (String × Json)}
    (h : (ofFields fields).nesting ≤ depth) :
    ∃ d, depth = d + 1 ∧ ∀ field ∈ fields, field.2.nesting ≤ d := by
  cases depth with
  | zero => exact absurd h (Nat.not_succ_le_zero _)
  | succ depth => exact ⟨depth, rfl, nesting_ofFields_le_succ.1 h⟩

/-! ## Documents of values -/

attribute [simp] Spelled.null Spelled.bool

@[simp]
theorem spelled_ofString (s : String) : (ofString s).Spelled :=
  .str s.toList

theorem spelled_ofInt {i : Int} (h : i.natAbs < 2 ^ 64) : (ofInt i).Spelled :=
  .num (Numeral.wellFormed_ofInt i) (Numeral.noLeadingZero_ofInt i)
    (Numeral.isSome_toBinary64?_ofInt h)

@[simp]
theorem spelled_int64 (v : Int64) : (ofInt v.toInt).Spelled := by
  have hlower := v.le_toInt
  have hupper := v.toInt_lt
  exact spelled_ofInt (by omega)

@[simp]
theorem spelled_uint64 (v : UInt64) : (ofNat v.toNat).Spelled :=
  spelled_ofInt v.toNat_lt_size

@[simp]
theorem spelled_ofBinary64 (v : Binary64) : (ofBinary64 v).Spelled := by
  unfold ofBinary64
  split
  · next hfinite =>
    refine .num (Layout.wellFormed_numeral _ v) (Layout.noLeadingZero_numeral _ hfinite) ?_
    rw [Layout.toBinary64?_numeral _ hfinite]
    rfl
  · exact .null

theorem spelled_ofFields {fields : List (String × Json)} (h : ∀ field ∈ fields, field.2.Spelled) :
    (ofFields fields).Spelled :=
  .obj (List.forall_mem_map.2 fun field _ => ⟨field.1.toList, rfl⟩) (List.forall_mem_map.2 h)

theorem spelled_arr_map {α : Type} {f : α → Json} {as : List α} (h : ∀ a ∈ as, (f a).Spelled) :
    (arr (as.map f)).Spelled :=
  .arr (List.forall_mem_map.2 h)

theorem spelled_ofOption {α : Type} {f : α → Json} (h : ∀ a, (f a).Spelled) (o : Option α) :
    (ofOption f o).Spelled := by
  cases o with
  | none => exact .null
  | some a => exact h a

theorem readableItems_of_forall {items : List Json}
    (h : ∀ item ∈ items, item.readable depth = true) : readableItems depth items = true := by
  induction items with
  | nil => rfl
  | cons item items ih =>
    obtain ⟨hitem, hitems⟩ := List.forall_mem_cons.1 h
    rw [readableItems, hitem, ih hitems]
    rfl

theorem readableFields_of_forall {fields : List (List Char × Json)}
    (hnames : ∀ field ∈ fields, ∃ text, field.1 = escape text)
    (h : ∀ field ∈ fields, field.2.readable depth = true) : readableFields depth fields = true := by
  induction fields with
  | nil => rfl
  | cons field fields ih =>
    obtain ⟨⟨text, htext⟩, hnames⟩ := List.forall_mem_cons.1 hnames
    obtain ⟨hfield, hfields⟩ := List.forall_mem_cons.1 h
    rw [readableFields, htext, unescape?_escape, hfield, ih hnames hfields]
    rfl

/-- A document that is spelled by the rules is readable up to its nesting. -/
theorem Spelled.readable {j : Json} (h : j.Spelled) (hdepth : j.nesting ≤ depth) :
    j.readable depth = true := by
  induction h generalizing depth with
  | null => rw [Json.readable]
  | bool b => rw [Json.readable]
  | num hwell hlead hrange => rwa [Json.readable]
  | str text =>
    rw [Json.readable, unescape?_escape]
    rfl
  | arr h ih =>
    obtain ⟨depth, rfl, hitems⟩ := exists_depth_arr hdepth
    rw [Json.readable]
    exact readableItems_of_forall fun item hitem => ih item hitem (hitems item hitem)
  | obj hnames hvalues ih =>
    rw [nesting] at hdepth
    obtain ⟨depth, rfl⟩ : ∃ d, depth = d + 1 := ⟨depth - 1, by omega⟩
    have hfields := nestingFields_le_iff.1 (Nat.le_of_succ_le_succ hdepth)
    rw [Json.readable]
    exact readableFields_of_forall hnames fun field hfield => ih field hfield (hfields field hfield)

/-! ## Scalars -/

namespace Reader

@[simp]
theorem text_ofString (depth : Nat) (s : String) : text depth (ofString s) = some s :=
  text?_ofString s

@[simp]
theorem bool_bool (depth : Nat) (b : Bool) : bool depth (.bool b) = some b :=
  rfl

@[simp]
theorem int64_ofInt (depth : Nat) (v : Int64) : int64 depth (ofInt v.toInt) = some v := by
  have hrange : Int64.minValue.toInt ≤ v.toInt ∧ v.toInt ≤ Int64.maxValue.toInt :=
    ⟨v.minValue_le_toInt, v.toInt_le⟩
  rw [ofInt, int64, Numeral.toInt?_ofInt, Option.bind_eq_bind, Option.bind_some, if_pos hrange,
    Int64.ofInt_toInt, Option.pure_def]

@[simp]
theorem uint64_ofNat (depth : Nat) (v : UInt64) : uint64 depth (ofNat v.toNat) = some v := by
  have hrange : 0 ≤ (v.toNat : Int) ∧ (v.toNat : Int) < UInt64.size :=
    ⟨Int.natCast_nonneg _, Int.ofNat_lt.2 v.toNat_lt_size⟩
  rw [ofNat, ofInt, uint64, Numeral.toInt?_ofInt, Option.bind_eq_bind, Option.bind_some,
    if_pos hrange, Int.toNat_natCast, UInt64.ofNat_toNat, Option.pure_def]

theorem binary64_ofBinary64 (depth : Nat) {v : Binary64} (h : v.isFinite = true) :
    binary64 depth (ofBinary64 v) = some v := by
  rw [ofBinary64, if_pos h]
  exact Layout.toBinary64?_numeral _ h

variable {α : Type}

/-- A name is decoded as its entry in the table. -/
@[simp]
theorem oneOfLenient_ofString (table : List (String × α)) (depth : Nat) (name : String) :
    oneOfLenient table depth (ofString name) = table.lookup name := by
  show (ofString name).text?.bind _ = _
  rw [text?_ofString, Option.bind_some]

theorem nullable_ofOption {r : Reader α} {f : α → Json} (hnull : ∀ a, f a ≠ .null) {depth : Nat}
    (h : ∀ a, r depth (f a) = some a) (o : Option α) :
    nullable r depth (ofOption f o) = some o := by
  cases o with
  | none => rfl
  | some a =>
    rw [ofOption, nullable, h]
    · rfl
    · exact hnull a

@[simp]
theorem nullable_text (depth : Nat) (o : Option String) :
    nullable text depth (ofOption ofString o) = some o :=
  nullable_ofOption (fun s h => by cases h) (text_ofString depth) o

@[simp]
theorem nullable_uint64 (depth : Nat) (o : Option UInt64) :
    nullable uint64 depth (ofOption (fun v => ofNat v.toNat) o) = some o :=
  nullable_ofOption (fun v h => by cases h) (uint64_ofNat depth) o

end Reader

/-! ## Lists and records -/

variable {α β : Type}

/-- The reader decodes the document as the value wherever it may open as many arrays and objects as
the document nests. -/
def Decodes (r : Reader α) (j : Json) (a : α) : Prop :=
  ∀ depth, j.nesting ≤ depth → r depth j = some a

theorem mapM_map_eq_some {f : α → β} {read : β → Option α} {as : List α}
    (h : ∀ a ∈ as, read (f a) = some a) : (as.map f).mapM read = some as := by
  induction as with
  | nil => rfl
  | cons a as ih =>
    obtain ⟨ha, has⟩ := List.forall_mem_cons.1 h
    rw [List.map_cons, List.mapM_cons, ha, ih has]
    rfl

theorem decodes_list {r : Reader α} {f : α → Json} {as : List α}
    (h : ∀ a ∈ as, Decodes r (f a) a) : Decodes (.list r) (.arr (as.map f)) as := by
  intro depth hdepth
  obtain ⟨depth, rfl, hitems⟩ := exists_depth_arr hdepth
  exact mapM_map_eq_some fun a ha => h a ha depth (hitems _ (List.mem_map_of_mem ha))

@[simp]
theorem required_some (r : Reader α) (depth : Nat) (j : Json) :
    required r depth (some j) = r depth j :=
  rfl

@[simp]
theorem withDefault_some (default : α) (r : Reader α) (depth : Nat) (j : Json) :
    withDefault default r depth (some j) = r depth j :=
  rfl

theorem namedFields_ofFields (fields : List (String × Json)) :
    namedFields (fields.map fun (name, value) => (escape name.toList, value)) = some fields := by
  refine mapM_map_eq_some fun field _ => ?_
  simp [unescape?_escape]

variable {fields : List (String × Json)}

/-- With distinct names at most one field has the given name. -/
theorem filter_eq_toList_lookup (h : (fields.map Prod.fst).Nodup) (name : String) :
    fields.filter (fun field => field.1 == name) =
      ((fields.lookup name).map (Prod.mk name)).toList := by
  induction fields with
  | nil => rfl
  | cons field fields ih =>
    obtain ⟨hnew, hrest⟩ := List.nodup_cons.1 h
    obtain ⟨other, value⟩ := field
    by_cases hname : other = name
    · subst hname
      have hnone : fields.filter (fun field => field.1 == other) = [] := by
        refine List.filter_eq_nil_iff.2 fun field hfield heq => ?_
        exact hnew (List.mem_map.2 ⟨field, hfield, beq_iff_eq.1 heq⟩)
      rw [List.filter_cons_of_pos (by simp), hnone, List.lookup_cons_self]
      rfl
    · rw [List.filter_cons_of_neg (by simpa using hname), ih hrest, List.lookup_cons,
        beq_eq_false_iff_ne.2 (Ne.symm hname)]

theorem slot_eq_lookup (h : (fields.map Prod.fst).Nodup) (name : String) :
    slot fields name = some (fields.lookup name) := by
  unfold slot
  rw [filter_eq_toList_lookup h]
  cases fields.lookup name <;> rfl

/-- In an object whose names are distinct every field is found, and no other. -/
@[simp]
theorem slots_ofFields (h : (fields.map Prod.fst).Nodup) (names : List String) :
    slots names (ofFields fields) = some (names.map (fields.lookup ·)) := by
  have hslot : slot fields = fun name => pure (fields.lookup name) :=
    funext fun name => slot_eq_lookup h name
  rw [ofFields, slots, namedFields_ofFields, Option.bind_eq_bind, Option.bind_some, hslot,
    List.mapM_pure]
  rfl

end Json

end GraphPlan
