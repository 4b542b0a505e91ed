import FormLowering.Proofs.Semantics.Relations
import FormLowering.Proofs.Traversal.Nodes

/-!
# Two runs side by side

Two actions run side by side if from related names they end alike: both succeed
with related values or both fail with the same error, fault and attached
expression included, and the names recorded by then are related again.

If two backends run side by side on the leaves, and their operations and powers
keep them so, they run side by side on every expression
(`Backend.lower_simulates`).
-/

namespace FormLowering

namespace LowerM

variable {α β γ δ : Type}

/-! ### Running the steps of an action -/

theorem runWith_pure (value : α) (names : GeometryNames) :
    (pure value : LowerM α).runWith names = (.ok value, names) :=
  rfl

theorem runWith_throw (error : LoweringError) (names : GeometryNames) :
    (throw error : LowerM α).runWith names = (.error error, names) :=
  rfl

theorem runWith_record (name : Token) (names : GeometryNames) :
    (record name).runWith names = (.ok name, names.insert name) :=
  rfl

theorem runWith_ofExcept (result : Except Fault α) (names : GeometryNames) :
    (ofExcept result).runWith names = (result.mapError fun fault => { fault }, names) := by
  cases result <;> rfl

theorem runWith_within (expr : Expr) (action : LowerM α) (names : GeometryNames) :
    (within expr action).runWith names =
      ((action.runWith names).1.mapError (·.within expr), (action.runWith names).2) := by
  unfold within runWith
  simp only [EStateM.adaptExcept, EStateM.run]
  cases action names <;> rfl

theorem runWith_bind (action : LowerM α) (next : α → LowerM β) (names : GeometryNames) :
    (action >>= next).runWith names =
      match action.runWith names with
      | (.ok value, recorded) => (next value).runWith recorded
      | (.error error, recorded) => (.error error, recorded) := by
  unfold runWith
  simp only [EStateM.run, Bind.bind, EStateM.bind]
  cases action names <;> rfl

/-! ### Actions side by side -/

/-- Whether two actions, run on related names, end alike and record related names. -/
def Simulates (Names : GeometryNames → GeometryNames → Prop) (Related : α → β → Prop)
    (left : LowerM α) (right : LowerM β) : Prop :=
  ∀ names names', Names names names' →
    Agree Related (left.runWith names).1 (right.runWith names').1 ∧
      Names (left.runWith names).2 (right.runWith names').2

namespace Simulates

variable {Names : GeometryNames → GeometryNames → Prop} {R : α → β → Prop} {S : γ → δ → Prop}

theorem pure {a : α} {b : β} (hRelated : R a b) :
    Simulates Names R (Pure.pure a) (Pure.pure b) :=
  fun _ _ hNames => ⟨.ok hRelated, hNames⟩

theorem throw (error : LoweringError) :
    Simulates Names R (MonadExcept.throw error) (MonadExcept.throw error) :=
  fun _ _ hNames => ⟨.error, hNames⟩

theorem record {R : Token → Token → Prop} {name name' : Token} (hRelated : R name name')
    (hInsert : ∀ names names', Names names names' → Names (names.insert name) (names'.insert name')) :
    Simulates Names R (LowerM.record name) (LowerM.record name') :=
  fun names names' hNames => ⟨.ok hRelated, hInsert names names' hNames⟩

theorem ofExcept {left : Except Fault α} {right : Except Fault β} (hAgree : Agree R left right) :
    Simulates Names R (LowerM.ofExcept left) (LowerM.ofExcept right) := by
  intro names names' hNames
  cases hAgree with
  | ok hRelated => exact ⟨.ok hRelated, hNames⟩
  | error => exact ⟨.error, hNames⟩

/-- Both runs attach the same expression to the same error. -/
theorem within {left : LowerM α} {right : LowerM β} (hActions : Simulates Names R left right)
    (expr : Expr) : Simulates Names R (LowerM.within expr left) (LowerM.within expr right) := by
  intro names names' hNames
  obtain ⟨hAgree, hRecorded⟩ := hActions names names' hNames
  rw [runWith_within, runWith_within]
  refine ⟨?_, hRecorded⟩
  generalize (left.runWith names).1 = result at hAgree ⊢
  generalize (right.runWith names').1 = result' at hAgree ⊢
  cases hAgree with
  | ok hRelated => exact .ok hRelated
  | error => exact .error

/-- What comes after a first action only runs if both first actions succeed. -/
theorem bind {left : LowerM α} {right : LowerM β} {next : α → LowerM γ} {next' : β → LowerM δ}
    (hFirst : Simulates Names R left right)
    (hNext : ∀ a b, R a b → Simulates Names S (next a) (next' b)) :
    Simulates Names S (left >>= next) (right >>= next') := by
  intro names names' hNames
  obtain ⟨hAgree, hRecorded⟩ := hFirst names names' hNames
  rw [runWith_bind, runWith_bind]
  generalize left.runWith names = ran at hAgree hRecorded ⊢
  generalize right.runWith names' = ran' at hAgree hRecorded ⊢
  obtain ⟨result, recorded⟩ := ran
  obtain ⟨result', recorded'⟩ := ran'
  cases hAgree with
  | ok hRelated => exact hNext _ _ hRelated recorded recorded' hRecorded
  | error => exact ⟨.error, hRecorded⟩

theorem mapM {lefts : List α} {rights : List β} {change : α → LowerM γ} {change' : β → LowerM δ}
    (hLists : List.Forall₂ R lefts rights)
    (hChange : ∀ a b, R a b → Simulates Names S (change a) (change' b)) :
    Simulates Names (List.Forall₂ S) (lefts.mapM change) (rights.mapM change') := by
  induction hLists with
  | nil => exact pure .nil
  | cons hFirst _ ih =>
      rw [List.mapM_cons, List.mapM_cons]
      refine bind (hChange _ _ hFirst) fun c d hRelated => ?_
      exact bind ih fun cs ds hRest => pure (.cons hRelated hRest)

theorem mono {Weaker : α → β → Prop} {left : LowerM α} {right : LowerM β}
    (hActions : Simulates Names R left right) (hImplies : ∀ a b, R a b → Weaker a b) :
    Simulates Names Weaker left right :=
  fun names names' hNames =>
    ⟨(hActions names names' hNames).1.mono hImplies, (hActions names names' hNames).2⟩

end Simulates

end LowerM

/-! ### Backends side by side -/

open LowerM

variable {Names : GeometryNames → GeometryNames → Prop} {Codes : TensorCode → TensorCode → Prop}
  {Contexts : LoweringContext → LoweringContext → Prop} {Admits : Expr → Prop}
  {left right : Backend}

/-- What two backends have to do alike, in related contexts, to run side by side on
every expression whose subexpressions are admitted. -/
structure Backend.Parallel (Names : GeometryNames → GeometryNames → Prop)
    (Codes : TensorCode → TensorCode → Prop)
    (Contexts : LoweringContext → LoweringContext → Prop) (Admits : Expr → Prop)
    (left right : Backend) : Prop where
  combine : ∀ (operation : Operation) {codes codes'}, List.Forall₂ Codes codes codes' →
    Agree Codes (operation.combine left.dialect codes) (operation.combine right.dialect codes')
  power : ∀ exponent {base base' exponentCode exponentCode'}, Simulates Names Codes base base' →
    Simulates Names Codes exponentCode exponentCode' →
      Simulates Names Codes (left.powerCode base exponent exponentCode)
        (right.powerCode base' exponent exponentCode')
  /-- A modifier keeps contexts related. -/
  modifier : ∀ {modifier : Modifier} {operand context context'}, Admits (Modifier.node modifier operand) →
    Contexts context context' → Contexts (modifier.apply context) (modifier.apply context')
  argument : ∀ argument {context context'}, Contexts context context' →
    Simulates Names Codes (left.lowerArgument argument context)
      (right.lowerArgument argument context')
  coefficient : ∀ coefficient {context context'}, Contexts context context' →
    Simulates Names Codes (left.lowerCoefficient coefficient context)
      (right.lowerCoefficient coefficient context')
  constant : ∀ (leaf : Constant) {context context'}, Admits leaf.expr → Contexts context context' →
    Simulates Names Codes (constantLeaf context (leaf.code left context))
      (constantLeaf context' (leaf.code right context'))

namespace Backend

theorem lowerAll_simulates {context context' : LoweringContext} {operands : List Expr}
    (hOperands : ∀ operand ∈ operands,
      Simulates Names Codes (left.lower operand context) (right.lower operand context')) :
    Simulates Names (List.Forall₂ Codes) (left.lowerAll operands context)
      (right.lowerAll operands context') := by
  induction operands with
  | nil =>
      rw [lowerAll, lowerAll]
      exact .pure .nil
  | cons operand rest ih =>
      rw [List.forall_mem_cons] at hOperands
      rw [lowerAll, lowerAll]
      refine hOperands.1.bind fun code code' hCodes => ?_
      exact (ih hOperands.2).bind fun codes codes' hRest => .pure (.cons hCodes hRest)

/-- Parallel backends run side by side on every expression. -/
theorem lower_simulates (hBackends : Parallel Names Codes Contexts Admits left right)
    {expr : Expr} (hExpr : expr.Every Admits) {context context' : LoweringContext}
    (hContexts : Contexts context context') :
    Simulates Names Codes (left.lower expr context) (right.lower expr context') := by
  induction expr using Expr.node_induction generalizing context context' with
  | operation operation operands ih =>
      rw [Expr.every_operation] at hExpr
      rw [lower_operation, lower_operation]
      have hOperands : Simulates Names (List.Forall₂ Codes) (left.lowerAll operands context)
          (right.lowerAll operands context') :=
        lowerAll_simulates fun operand hMem => ih operand hMem (hExpr.2 operand hMem) hContexts
      refine Simulates.within (hOperands.bind fun codes codes' hCodes => ?_) _
      exact .ofExcept (hBackends.combine operation hCodes)
  | power base exponent ihBase ihExponent =>
      obtain ⟨-, hBase, hExponent⟩ := hExpr
      rw [lower, lower]
      exact (hBackends.power exponent.exponentForm (ihBase hBase hContexts)
        (ihExponent hExponent hContexts)).within _
  | modifier modifier operand ih =>
      rw [Expr.every_modifier] at hExpr
      rw [lower_modifier, lower_modifier]
      exact (ih hExpr.2 (hBackends.modifier hExpr.1 hContexts)).within _
  | argument basis =>
      rw [lower, lower]
      exact (hBackends.argument basis hContexts).within _
  | coefficient field =>
      rw [lower, lower]
      exact (hBackends.coefficient field hContexts).within _
  | constant leaf =>
      rw [Expr.every_constant] at hExpr
      rw [lower_constant, lower_constant]
      exact (hBackends.constant leaf hExpr hContexts).within _

end Backend

end FormLowering
