import FormLowering.Lowering.Expr
import FormLowering.Proofs.Semantics.Conditions

/-!
# Kinds of nodes

Lowering treats the nodes of an expression in six ways.  An *operation* lowers
all of its operands and combines their codes.  A *modifier* is no code: it changes
the context of its operand.  A power looks at the code of its base first.
Arguments and coefficients ask for tables, and *constants* are the leaves whose
derivatives vanish.

`Expr.node_induction` is induction with one case for each of these, and the
equations below say what lowering does in each case.
-/

namespace FormLowering

/-- An operation that combines the codes of all of its operands. -/
inductive Operation where
  | sum
  | product
  | division
  | abs
  | elementary (function : ElementaryFunction)

namespace Operation

/-- The operation applied to operands. -/
def node : Operation → List Expr → Expr
  | .sum, operands => .sum operands
  | .product, operands => .product operands
  | .division, operands => .division operands
  | .abs, operands => .abs operands
  | .elementary function, operands => .elementary function operands

/-- The code of the operation, from the codes of its operands. -/
def combine (dialect : Dialect) : Operation → List TensorCode → Except Fault TensorCode
  | .sum, codes => TensorCode.sum dialect codes
  | .product, codes => TensorCode.product dialect codes
  | .division, codes => TensorCode.division dialect codes
  | .abs, codes => TensorCode.abs dialect codes
  | .elementary function, codes => TensorCode.applyFunction dialect function codes

end Operation

/-- A node that changes the context in which its operand is lowered. -/
inductive Modifier where
  | index (component : List Nat)
  | restrict (restriction : Restriction)
  | differentiate (direction : Nat)

namespace Modifier

/-- The modifier applied to an operand. -/
def node : Modifier → Expr → Expr
  | .index component, operand => .indexed operand component
  | .restrict restriction, operand => .restricted operand restriction
  | .differentiate direction, operand => .derivative operand direction

/-- The context of the operand. -/
def apply : Modifier → LoweringContext → LoweringContext
  | .index component, context => context.select component
  | .restrict restriction, context => context.restrict restriction
  | .differentiate direction, context => context.differentiate direction

end Modifier

/-- A leaf that is constant over the cell. -/
inductive Constant where
  | normal
  | integer (value : Int)
  | real (value : Binary64)
  | zero
  | symbol (name : String)

namespace Constant

/-- The constant as an expression. -/
def expr : Constant → Expr
  | .normal => .facetNormal
  | .integer value => .integer value
  | .real value => .real value
  | .zero => .zero
  | .symbol name => .symbol name

/-- The code of the constant where no derivatives are taken. -/
def code (backend : Backend) (context : LoweringContext) : Constant → LowerM TensorCode
  | .normal => backend.normalCode context
  | .integer value => pure (backend.literalCode (.ofInt value))
  | .real value => pure (backend.literalCode value)
  | .zero => pure (.scalar none)
  | .symbol name => pure (.scalar (some name))

end Constant

namespace Expr

variable {motive : Expr → Prop}

/-- Induction with one case for each way in which lowering treats a node. -/
@[elab_as_elim]
theorem node_induction
    (operation : ∀ operation operands, (∀ operand ∈ operands, motive operand) →
      motive (Operation.node operation operands))
    (power : ∀ base exponent, motive base → motive exponent → motive (.power base exponent))
    (modifier : ∀ modifier operand, motive operand → motive (Modifier.node modifier operand))
    (argument : ∀ basis, motive (.argument basis))
    (coefficient : ∀ field, motive (.coefficient field))
    (constant : ∀ leaf : Constant, motive leaf.expr) (expr : Expr) : motive expr :=
  one expr
where
  /-- The motive holds of an expression. -/
  one : (expr : Expr) → motive expr
    | .sum operands => operation .sum operands (all operands)
    | .product operands => operation .product operands (all operands)
    | .division operands => operation .division operands (all operands)
    | .power base exponent => power base exponent (one base) (one exponent)
    | .abs operands => operation .abs operands (all operands)
    | .elementary function operands => operation (.elementary function) operands (all operands)
    | .indexed operand component => modifier (.index component) operand (one operand)
    | .restricted operand restriction => modifier (.restrict restriction) operand (one operand)
    | .derivative operand direction => modifier (.differentiate direction) operand (one operand)
    | .facetNormal => constant .normal
    | .argument basis => argument basis
    | .coefficient field => coefficient field
    | .integer value => constant (.integer value)
    | .real value => constant (.real value)
    | .zero => constant .zero
    | .symbol name => constant (.symbol name)
  /-- The motive holds of every operand. -/
  all : (operands : List Expr) → ∀ operand ∈ operands, motive operand
    | [], _, hMem => nomatch hMem
    | first :: rest, operand, hMem =>
      match List.mem_cons.mp hMem with
      | .inl hFirst => hFirst ▸ one first
      | .inr hRest => all rest operand hRest

/-! ### Properties of every subexpression -/

variable {property : Expr → Prop}

theorem allEvery_iff {operands : List Expr} :
    AllEvery property operands ↔ ∀ operand ∈ operands, operand.Every property := by
  induction operands with
  | nil => simp [AllEvery]
  | cons operand rest ih => simp [AllEvery, ih]

theorem every_operation {operation : Operation} {operands : List Expr} :
    (operation.node operands).Every property ↔
      property (operation.node operands) ∧ ∀ operand ∈ operands, operand.Every property := by
  rw [← allEvery_iff]
  cases operation <;> exact Iff.rfl

theorem every_modifier {modifier : Modifier} {operand : Expr} :
    (modifier.node operand).Every property ↔
      property (modifier.node operand) ∧ operand.Every property := by
  cases modifier <;> exact Iff.rfl

theorem every_constant {leaf : Constant} : leaf.expr.Every property ↔ property leaf.expr := by
  cases leaf <;> exact Iff.rfl

theorem every_of_forall (hAll : ∀ expr, property expr) (expr : Expr) : expr.Every property := by
  induction expr using node_induction with
  | operation operation operands ih => exact every_operation.mpr ⟨hAll _, ih⟩
  | power base exponent ihBase ihExponent => exact ⟨hAll _, ihBase, ihExponent⟩
  | modifier modifier operand ih => exact every_modifier.mpr ⟨hAll _, ih⟩
  | argument basis => exact hAll _
  | coefficient field => exact hAll _
  | constant leaf => exact every_constant.mpr (hAll _)

end Expr

/-! ### What lowering does with each kind of node -/

namespace Backend

open LowerM

variable (backend : Backend) (context : LoweringContext)

theorem lower_operation (operation : Operation) (operands : List Expr) :
    backend.lower (operation.node operands) context =
      within (operation.node operands) (do
        ofExcept (operation.combine backend.dialect (← backend.lowerAll operands context))) := by
  cases operation <;> simp only [Operation.node, lower] <;> rfl

theorem lower_power (base exponent : Expr) :
    backend.lower (.power base exponent) context =
      within (.power base exponent) (backend.lowerPower base exponent context) := by
  rw [lower]
  rfl

theorem lower_modifier (modifier : Modifier) (operand : Expr) :
    backend.lower (modifier.node operand) context =
      within (modifier.node operand) (backend.lower operand (modifier.apply context)) := by
  cases modifier <;> simp only [Modifier.node, lower] <;> rfl

theorem lower_constant (leaf : Constant) :
    backend.lower leaf.expr context =
      within leaf.expr (constantLeaf context (leaf.code backend context)) := by
  cases leaf <;> simp only [Constant.expr, lower] <;> rfl

end Backend

end FormLowering
