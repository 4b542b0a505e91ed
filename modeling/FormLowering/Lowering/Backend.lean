import FormLowering.Dialect.Calls
import FormLowering.Lowering.Fault

/-!
# Contexts, backends and lowering actions

A context is what the nodes around an expression say about it.  A backend is
what lowering is parameterised by: a dialect, the tables of the elements and the
dimensions of the cell.

A lowering action may fail, and records the names of the geometric quantities
that its result refers to.  Names recorded before a failure stay recorded.
-/

namespace FormLowering

/-! ### Contexts -/

/-- What the nodes around an expression say about it. -/
structure LoweringContext where
  /-- The side of the facet. -/
  restriction : Restriction := .none
  /-- The active component indices. -/
  component : List Nat := []
  /-- The physical directions of the spatial derivatives, innermost last. -/
  derivatives : List Nat := []
deriving DecidableEq, Inhabited

namespace LoweringContext

/-- The context inside a restriction, which replaces the restrictions around it. -/
def restrict (context : LoweringContext) (restriction : Restriction) :
    LoweringContext :=
  { context with restriction }

/-- The context inside an indexing, which replaces the indices around it. -/
def select (context : LoweringContext) (component : List Nat) : LoweringContext :=
  { context with component }

/-- The context inside a spatial derivative. -/
def differentiate (context : LoweringContext) (direction : Nat) : LoweringContext :=
  { context with derivatives := context.derivatives ++ [direction] }

end LoweringContext

/-! ### Backends -/

/-- The dimensions of a cell. -/
structure CellDimensions where
  geometric : Nat := 2
  topological : Nat := 2
deriving DecidableEq

/-- What lowering is parameterised by. -/
structure Backend where
  dialect : Dialect
  elements : BasisTables
  dimensions : CellDimensions := {}

/-! ### Actions -/

/-- A computation that may fail and records names of geometric quantities. -/
abbrev LowerM :=
  EStateM LoweringError GeometryNames

namespace LowerM

/-- Records a name and hands it back. -/
def record (name : Token) : LowerM Token :=
  fun names => .ok name (names.insert name)

/-- An operation on tensor code, as a step of lowering. -/
def ofExcept {α : Type} : Except Fault α → LowerM α
  | .ok value => pure value
  | .error fault => throw { fault }

/-- The action, with the expression attached to its errors. -/
def within {α : Type} (expr : Expr) (action : LowerM α) : LowerM α :=
  action.adaptExcept fun error => error.within expr

/-- Runs an action on the names recorded so far. -/
def runWith {α : Type} (action : LowerM α) (names : GeometryNames) :
    Except LoweringError α × GeometryNames :=
  match action.run names with
  | .ok value recorded => (.ok value, recorded)
  | .error error recorded => (.error error, recorded)

end LowerM

end FormLowering
