import GraphPlan.Proofs.Algebra.Literals
import GraphPlan.Proofs.Plan.Missing
import GraphPlan.Proofs.Planner.Acceptance

/-!
# Basic filters as scans and as predicates

A filter that compares an attribute with a literal either starts the plan of a component, as a scan,
or is put on top of a plan that binds its variable, as a predicate. Which of the two happens depends
on the other filters. Both compare the same attribute of the same variable by the same operator, and
the texts of the literal stand for the same string, integer or truth value. Decimals are the
exception: the scan has all the digits that reading needs, the predicate has two places.
-/

namespace GraphPlan

theorem Expr.resolve_of_scanValue? {e : Expr} {value : ScanValue} (h : e.scanValue? = some value)
    (scope : Scope) : e.resolve scope = .ok value.scalar := by
  cases e <;> cases h <;> rfl

namespace Constraint

variable {r : Registry} {c : Constraint} {op : BinaryOp} {lhs rhs : Expr}

theorem comparisonScan?_of_scan? {scope : String} {scan : Operator}
    (hexpr : c.expr = .binary op lhs rhs) (h : c.scan? scope = some scan) :
    comparisonScan? scope op lhs rhs = some scan := by
  unfold scan? at h
  rw [hexpr] at h
  split at h
  · split at h
    · cases h
    · dsimp only at h
      split at h
      · exact h
      · cases h
  · cases h

/-- A filter that knows its variables knows the attributes that it looks at. -/
theorem Analyzed.exists_use (hc : c.Analyzed r) (hsupported : c.expr.Supported) {x a : String}
    (hpart : Expr.prop x a ∈ c.expr.parts) :
    ∃ use, c.usage.vars.get? x = some use ∧ a ∈ use.attributes.names := by
  have hrecords := (Expr.records_visit c.expr hsupported .empty hpart).promote r
  have hvars : ((c.expr.analyze .preGroup).usage.promote r).vars = c.usage.vars := hc.symm
  obtain ⟨use, huse, ha⟩ := hrecords
  exact ⟨use, hvars ▸ huse, ha⟩

/-- The only variable of a basic comparison is the one whose attribute is compared. -/
theorem exists_comparison (hc : c.Analyzed r) (hexpr : c.expr = .binary op lhs rhs) {x : String}
    (hx : c.subject? = some x) {scope : String} {scan : Operator} (h : c.scan? scope = some scan) :
    ∃ a cmp value use, c.expr = .binary (.compare cmp) (.prop x a) rhs ∧
      rhs.scanValue? = some value ∧ scan = .scanAttribute scope a cmp value ∧
      c.usage.vars.get? x = some use ∧ a ∈ use.attributes.names := by
  obtain ⟨y, a, cmp, value, rfl, rfl, hvalue, rfl⟩ :=
    comparisonScan?_eq_some (comparisonScan?_of_scan? hexpr h)
  have hsupported : c.expr.Supported := by
    have hscans : (Expr.binary (.compare cmp) (.prop y a) rhs).ScansAs scope y
        (.scanAttribute scope a cmp value) := .comparison y a cmp hvalue
    rw [hexpr]
    exact hscans.supported
  have hpart : Expr.prop y a ∈ c.expr.parts := by
    rw [hexpr, Expr.parts]
    exact List.mem_cons_of_mem _ (List.mem_append_left _ (Expr.self_mem_parts _))
  obtain ⟨use, huse, ha⟩ := hc.exists_use hsupported hpart
  have hy : y ∈ c.usage.vars.names := by
    rw [← NameMap.contains_iff, NameMap.contains, huse]
    rfl
  obtain rfl : y = x := eq_of_subject? hx hy
  exact ⟨a, cmp, value, use, hexpr, hvalue, rfl, huse, ha⟩

/-- On a plan that binds the variable, the predicate of a comparison looks the attribute up in its
own column. -/
theorem exec_apply_comparison {x a : String} {cmp : Comparison} {value : ScanValue}
    (hexpr : c.expr = .binary (.compare cmp) (.prop x a) rhs)
    (hvalue : rhs.scanValue? = some value) (config : Config) {p : Plan} {column : Nat}
    (hcolumn : (p.fetch config.attributeScope c.usage).schema.attrColumn? x a = some column) :
    PlanM.exec (c.apply config) p = .ok ((), (p.fetch config.attributeScope c.usage).wrap
      (.select (.binary (.compare cmp) (.column column) value.scalar))) := by
  have hlhs : (Expr.prop x a).resolve ⟨(p.fetch config.attributeScope c.usage).schema, none⟩ =
      .ok (.column column) := by
    simp only [Expr.resolve, Scope.find?, hcolumn]
    rfl
  rw [exec_apply, hexpr, Expr.resolve, hlhs, Expr.resolve_of_scanValue? hvalue]
  · rfl
  · intro h
    cases h

/-- A basic filter that compares an attribute with a literal can start a plan and can be applied to
every plan that binds its variable. Both ways it compares the same attribute of the variable by the
same operator, and both texts of the literal stand for its value, a decimal to two places in the
predicate. -/
theorem scan_and_predicate_compare_alike (hc : c.Analyzed r) (hbasic : c.isBasic = true)
    (hexpr : c.expr = .binary op lhs rhs) {x : String} (hx : c.subject? = some x) (config : Config)
    {n : Nat} {p : Plan} (hp : Schema.Reachable n p.schema)
    (hbound : p.schema.hasVariable x = true) :
    ∃ a cmp value column,
      c.expr = .binary (.compare cmp) (.prop x a) rhs ∧ rhs.scanValue? = some value ∧
      c.seed? config = some { Plan.seed (.scanAttribute config.attributeScope a cmp value) with
        schema := Schema.empty.addVariable x } ∧
      PlanM.exec (c.apply config) p = .ok ((), (p.fetch config.attributeScope c.usage).wrap
        (.select (.binary (.compare cmp) (.column column) value.scalar))) ∧
      (p.fetch config.attributeScope c.usage).schema.contents[column]? = some (.attr x a) ∧
      value.DenotedBy value.text.toList value.scalar.text.toList := by
  have hsome : (c.scan? config.attributeScope).isSome = true :=
    (isSome_scan? c config.attributeScope).trans hbasic
  obtain ⟨scan, hscan⟩ := Option.isSome_iff_exists.1 hsome
  obtain ⟨a, cmp, value, use, hshape, hvalue, rfl, huse, ha⟩ := exists_comparison hc hexpr hx hscan
  have hoffers : (p.fetch config.attributeScope c.usage).schema.Offers x use :=
    Plan.offers_fetch huse hbound
  obtain ⟨column, hcolumn⟩ := Option.isSome_iff_exists.1 (hoffers.attributes a ha)
  have hvalid := Plan.valid_fetch hp.counted.valid config.attributeScope c.usage
  refine ⟨a, cmp, value, column, hshape, hvalue, ?_, ?_, ?_, value.denotedBy_texts⟩
  · simp only [seed?, hscan, hx]
    rfl
  · exact exec_apply_comparison hshape hvalue config hcolumn
  · exact hvalid.getElem?_of_attrColumn? hcolumn

/-- A tenth is no double, but it is read back from both texts; the plan has another attribute of the
variable already. -/
theorem scan_and_predicate_compare_alike_of_tenth :
    let tenth : Binary64 := ⟨0x3FB999999999999A⟩
    let c : Constraint :=
      ⟨(Expr.binary (.compare .ge) (.prop "n" "rating") (.decimal tenth)).analyze .preGroup, []⟩
    let p : Plan := ⟨.leaf .scanNodes, stateAfter (Schema.Change.addAttribute "n" "name").run
      (stateAfter (Schema.Change.addVariable "n").run .empty)⟩
    c.Analyzed .empty ∧ c.isBasic = true ∧ c.subject? = some "n" ∧ Schema.Reachable 0 p.schema ∧
    p.schema.hasVariable "n" = true ∧
    ∃ a cmp value column,
      c.expr = .binary (.compare cmp) (.prop "n" a) (.decimal tenth) ∧
      (Expr.decimal tenth).scanValue? = some value ∧
      c.seed? .default = some { Plan.seed (.scanAttribute "GLOBAL" a cmp value) with
        schema := Schema.empty.addVariable "n" } ∧
      PlanM.exec (c.apply .default) p = .ok ((), (p.fetch "GLOBAL" c.usage).wrap
        (.select (.binary (.compare cmp) (.column column) value.scalar))) ∧
      (p.fetch "GLOBAL" c.usage).schema.contents[column]? = some (.attr "n" a) ∧
      value.DenotedBy value.text.toList value.scalar.text.toList := by
  intro tenth c p
  have hp : Schema.Reachable 0 p.schema :=
    (Schema.Reachable.empty.change (.addVariable "n")).change (.addAttribute "n" "name")
  have hc : c.Analyzed .empty := rfl
  have hbasic : c.isBasic = true := by decide
  have hx : c.subject? = some "n" := by decide
  have hbound : p.schema.hasVariable "n" = true := by decide
  exact ⟨hc, hbasic, hx, hp, hbound,
    scan_and_predicate_compare_alike hc hbasic rfl hx .default hp hbound⟩

/-- An eighth is written in full in a scan, but as twelve hundredths in a predicate. -/
theorem scan_and_predicate_differ_of_eighth :
    let eighth : Binary64 := ⟨0x3FC0000000000000⟩
    let c : Constraint :=
      ⟨(Expr.binary (.compare .eq) (.prop "n" "rating") (.decimal eighth)).analyze .preGroup, []⟩
    let p : Plan := ⟨.leaf .scanNodes, stateAfter (Schema.Change.addVariable "n").run .empty⟩
    let scanned : ScanValue := .decimal eighth
    let compared : Scalar := .decimal (.finite false 12)
    let m : Numeral := ⟨false, ['0'], ['1', '2', '5'], none⟩
    let n : Numeral := ⟨false, ['0'], ['1', '2'], none⟩
    c.isBasic = true ∧
    c.seed? .default = some { Plan.seed (.scanAttribute "GLOBAL" "rating" .eq scanned) with
      schema := Schema.empty.addVariable "n" } ∧
    PlanM.exec (c.apply .default) p = .ok ((), (p.fetch "GLOBAL" c.usage).wrap
      (.select (.binary (.compare .eq) (.column 1) compared))) ∧
    ReadValue.read? scanned.text.toList = some (.decimal m) ∧ m.value = 1 / 8 ∧
    ReadValue.read? compared.text.toList = some (.decimal n) ∧ n.value = 3 / 25 ∧
    eighth.value = 1 / 8 := by
  intro eighth c p scanned compared m n
  have hcolumn : (p.fetch "GLOBAL" c.usage).schema.attrColumn? "n" "rating" = some 1 := by decide
  have hrounded : eighth.toHundredths = .finite false 12 := by decide +kernel
  have hscalar : scanned.scalar = compared := congrArg Scalar.decimal hrounded
  refine ⟨by decide, rfl, ?_, by decide +kernel, ?_, by decide +kernel, ?_, ?_⟩
  · rw [← hscalar]
    exact exec_apply_comparison rfl rfl .default hcolumn
  · show ((125 : Nat) : ℚ) * 10 ^ ((0 : Int) - (3 : Nat)) = 1 / 8
    norm_num
  · show ((12 : Nat) : ℚ) * 10 ^ ((0 : Int) - (2 : Nat)) = 3 / 25
    norm_num
  · have hnegative : eighth.negative = false := by decide +kernel
    have hsignificand : eighth.significand = 2 ^ 52 := by decide +kernel
    have hexponent : eighth.exponent = -55 := by decide +kernel
    rw [Binary64.value, hnegative, Binary64.magnitude, hsignificand, hexponent]
    norm_num

end Constraint

end GraphPlan
