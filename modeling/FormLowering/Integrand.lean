import FormLowering.Lowering.Expr

/-!
# Integrands at a quadrature point

The integrand of a form is the code of its expression, with every component
that is not symbolic zero multiplied by the quadrature weight and the scale
factor of the cell.
-/

namespace FormLowering

/-- The factors that every component of an integrand is multiplied with. -/
structure QuadratureScaling where
  weight : Token
  scaleFactor : Token
deriving DecidableEq

namespace QuadratureScaling

/-- The factors for a quadrature rule with the given number of points. -/
def ofPointCount (count : Nat) : QuadratureScaling where
  weight := "W" ++ toString count ++ "[ip]"
  scaleFactor := "det"

instance : Inhabited QuadratureScaling :=
  ⟨ofPointCount 1⟩

end QuadratureScaling

/-- A value times the quadrature weight and the scale factor. -/
def Dialect.weighted (dialect : Dialect) (scaling : QuadratureScaling) (value : Token) : Token :=
  dialect.multiply [value, scaling.weight, scaling.scaleFactor]

/-- The code of an integrand. -/
structure Integrand where
  /-- The components that are not symbolic zero. -/
  entries : SortedMap Key Token
  /-- The quantities that have to be declared before the quadrature loop. -/
  geometry : GeometryNames
deriving DecidableEq

namespace Integrand

/-- Whether every component is symbolic zero. -/
def isZero (integrand : Integrand) : Bool :=
  integrand.entries.isEmpty

end Integrand

/-- An integrand that could not be lowered. -/
structure IntegrandError where
  expr : Expr
  cause : LoweringError

namespace IntegrandError

/-- The message of the error, without its cause. -/
def message (error : IntegrandError) : String :=
  "failed to generate quadrature code for integrand " ++ error.expr.render

end IntegrandError

/-- How much a notice matters. -/
inductive NoticeLevel where
  | warning
  | debug
deriving DecidableEq

/-- A message about an integrand that was generated. -/
structure Notice where
  level : NoticeLevel
  message : String
deriving DecidableEq

namespace Integrand

/-- The notices about the integrand of an expression. -/
def notices (integrand : Integrand) (expr : Expr) : List Notice :=
  let summary : Notice :=
    ⟨.debug, "Generated " ++ toString integrand.entries.size
      ++ " integrand entries referencing " ++ toString integrand.geometry.size
      ++ " geometric quantities."⟩
  if integrand.isZero then
    [⟨.warning, "All entries of integrand " ++ expr.render ++ " are zero."⟩, summary]
  else [summary]

end Integrand

namespace Backend

/-- The integrand of an expression. -/
def integrand (backend : Backend) (scaling : QuadratureScaling) (expr : Expr) :
    Except IntegrandError Integrand :=
  match backend.run expr with
  | .ok lowered =>
    .ok ⟨lowered.code.nonzero.mapValues (backend.dialect.weighted scaling), lowered.geometry⟩
  | .error cause => .error ⟨expr, cause⟩

/-- The integrands of independent expressions, or the first failure. -/
def integrands (backend : Backend) (scaling : QuadratureScaling) (exprs : List Expr) :
    Except IntegrandError (List Integrand) :=
  exprs.mapM (backend.integrand scaling)

end Backend

end FormLowering
