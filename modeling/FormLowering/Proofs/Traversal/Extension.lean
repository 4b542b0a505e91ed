import FormLowering.Proofs.Traversal.Simulation

/-!
# Tables of more components

Lowering asks tables for the places of components, and fails if there is none.  If other
tables know all these places and agree in everything else, then whatever lowering succeeds
with over the first tables, it succeeds with over the others too.  Nothing is said of what
fails, since a place that was missing may be there.
-/

namespace FormLowering

namespace LowerM

variable {α β : Type}

/-- Whether what one action succeeds with, another one succeeds with too, from the same names
and with the same names recorded. -/
def Extends (left right : LowerM α) : Prop :=
  ∀ names value recorded, left.runWith names = (.ok value, recorded) →
    right.runWith names = (.ok value, recorded)

namespace Extends

theorem refl (action : LowerM α) : Extends action action :=
  fun _ _ _ hRun => hRun

theorem ofExcept {left right : Except Fault α}
    (hValue : ∀ value, left = .ok value → right = .ok value) :
    Extends (LowerM.ofExcept left) (LowerM.ofExcept right) := by
  intro names value recorded hRun
  cases left with
  | error fault => cases hRun
  | ok result =>
      rw [hValue result rfl]
      exact hRun

theorem bind {left right : LowerM α} {next next' : α → LowerM β} (hFirst : Extends left right)
    (hNext : ∀ value, Extends (next value) (next' value)) :
    Extends (left >>= next) (right >>= next') := by
  intro names result recorded hRun
  rw [runWith_bind] at hRun ⊢
  generalize hLeft : left.runWith names = ran at hRun
  obtain ⟨answer, middle⟩ := ran
  cases answer with
  | error error => cases hRun
  | ok value =>
      rw [hFirst names value middle hLeft]
      exact hNext value middle result recorded hRun

theorem within {left right : LowerM α} (hActions : Extends left right) (expr : Expr) :
    Extends (LowerM.within expr left) (LowerM.within expr right) := by
  intro names value recorded hRun
  rw [runWith_within] at hRun ⊢
  generalize hLeft : left.runWith names = ran at hRun
  obtain ⟨answer, middle⟩ := ran
  cases answer with
  | error error => cases hRun
  | ok result =>
      rw [hActions names result middle hLeft]
      exact hRun

end Extends

end LowerM

/-- Whether other tables agree with these ones, but may know the places of more components. -/
structure BasisTables.ExtendedBy (tables extended : BasisTables) : Prop where
  locate : ∀ {element component place}, tables.locate element component = some place →
    extended.locate element component = some place
  argument : extended.argument = tables.argument
  coefficient : extended.coefficient = tables.coefficient

namespace Backend

open LowerM

variable {dialect : Dialect} {tables extended : BasisTables} {dimensions : CellDimensions}

/-- A component that is selected has a place. -/
theorem selected_of_extendedBy (hTables : tables.ExtendedBy extended) {element : Nat}
    {context : LoweringContext} {found : Nat × ComponentPlace}
    (hFound : tables.selected element context = .ok found) :
    extended.selected element context = .ok found := by
  unfold BasisTables.selected at hFound ⊢
  obtain ⟨component, hComponent, hFound⟩ := exists_of_bind_ok hFound
  cases hPlace : tables.locate element component with
  | none =>
      rw [hPlace] at hFound
      cases hFound
  | some place =>
      rw [hPlace] at hFound
      simp only [hComponent, bind, Except.bind, hTables.locate hPlace]
      exact hFound

theorem lowerArgument_extends (hTables : tables.ExtendedBy extended) (argument : Argument)
    (context : LoweringContext) :
    Extends (lowerArgument ⟨dialect, tables, dimensions⟩ argument context)
      (lowerArgument ⟨dialect, extended, dimensions⟩ argument context) := by
  refine (Extends.ofExcept fun _ => selected_of_extendedBy hTables).bind fun found => ?_
  simp only [argumentCode, basisTerms, hTables.argument]
  exact .refl _

theorem lowerCoefficient_extends (hTables : tables.ExtendedBy extended) (coefficient : Coefficient)
    (context : LoweringContext) :
    Extends (lowerCoefficient ⟨dialect, tables, dimensions⟩ coefficient context)
      (lowerCoefficient ⟨dialect, extended, dimensions⟩ coefficient context) := by
  refine (Extends.ofExcept fun _ => selected_of_extendedBy hTables).bind fun found => ?_
  simp only [coefficientCode, basisTerms, hTables.coefficient]
  exact .refl _

/-- Constants have no tables. -/
theorem constant_extends (leaf : Constant) (context : LoweringContext) :
    Extends (lower ⟨dialect, tables, dimensions⟩ leaf.expr context)
      (lower ⟨dialect, extended, dimensions⟩ leaf.expr context) := by
  rw [lower_constant, lower_constant]
  cases leaf <;> exact .refl _

theorem powerOf_extends {left right : Backend} (hDialect : left.dialect = right.dialect)
    (base : Token) (exponent : ExponentForm) {exponentCode exponentCode' : LowerM TensorCode}
    (hExponent : Extends exponentCode exponentCode') :
    Extends (left.powerOf base exponent exponentCode)
      (right.powerOf base exponent exponentCode') := by
  unfold powerOf
  rw [hDialect]
  cases exponent with
  | function => exact hExponent.bind fun _ => .refl _
  | _ => exact .refl _

theorem powerCode_extends {left right : Backend} (hDialect : left.dialect = right.dialect)
    (exponent : ExponentForm) {baseCode baseCode' exponentCode exponentCode' : LowerM TensorCode}
    (hBase : Extends baseCode baseCode') (hExponent : Extends exponentCode exponentCode') :
    Extends (left.powerCode baseCode exponent exponentCode)
      (right.powerCode baseCode' exponent exponentCode') := by
  refine hBase.bind fun code => ?_
  rw [hDialect]
  split
  · exact .refl _
  · exact .refl _
  · exact (powerOf_extends hDialect _ exponent hExponent).bind fun _ => .refl _

theorem lowerAll_extends {left right : Backend} {operands : List Expr} {context : LoweringContext}
    (hOperands : ∀ operand ∈ operands,
      Extends (left.lower operand context) (right.lower operand context)) :
    Extends (left.lowerAll operands context) (right.lowerAll operands context) := by
  induction operands with
  | nil =>
      rw [lowerAll, lowerAll]
      exact .refl _
  | cons operand rest ih =>
      rw [List.forall_mem_cons] at hOperands
      rw [lowerAll, lowerAll]
      exact hOperands.1.bind fun code => (ih hOperands.2).bind fun codes => .refl _

/-- Lowering that succeeds does not depend on components that it does not ask for. -/
theorem lower_extends (hTables : tables.ExtendedBy extended) (expr : Expr)
    (context : LoweringContext) :
    Extends (lower ⟨dialect, tables, dimensions⟩ expr context)
      (lower ⟨dialect, extended, dimensions⟩ expr context) := by
  induction expr using Expr.node_induction generalizing context with
  | operation operation operands ih =>
      rw [lower_operation, lower_operation]
      have hAll := lowerAll_extends fun operand hMem => ih operand hMem context
      exact (hAll.bind fun codes => .refl _).within _
  | power base exponent ihBase ihExponent =>
      rw [lower, lower]
      exact (powerCode_extends rfl _ (ihBase context) (ihExponent context)).within _
  | modifier modifier operand ih =>
      rw [lower_modifier, lower_modifier]
      exact (ih _).within _
  | argument basis =>
      rw [lower, lower]
      exact (lowerArgument_extends hTables basis context).within _
  | coefficient field =>
      rw [lower, lower]
      exact (lowerCoefficient_extends hTables field context).within _
  | constant leaf => exact constant_extends leaf context

theorem run_extends (hTables : tables.ExtendedBy extended) {expr : Expr} {lowered : LoweredExpr}
    (hRun : run ⟨dialect, tables, dimensions⟩ expr = .ok lowered) :
    run ⟨dialect, extended, dimensions⟩ expr = .ok lowered := by
  unfold run at hRun ⊢
  split at hRun
  · rename_i code recorded hLower
    rw [lower_extends hTables expr {} ∅ code recorded hLower]
    exact hRun
  · cases hRun

end Backend

end FormLowering
