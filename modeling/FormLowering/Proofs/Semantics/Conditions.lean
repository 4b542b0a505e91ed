import FormLowering.Dialect.Calls
import FormLowering.Dialect.Cpp
import FormLowering.Lowering.Expr
import FormLowering.Proofs.Reading.Words
import FormLowering.Proofs.Semantics.Actions

/-!
# Conditions on expressions

What is asked of an expression before its code can be read: symbols are words,
tables are named by words, and no sum brings together more terms than a literal
can count.
-/

namespace FormLowering

namespace Expr

mutual

/-- Whether every subexpression has a property. -/
def Every (property : Expr → Prop) : Expr → Prop
  | .sum operands => property (.sum operands) ∧ AllEvery property operands
  | .product operands => property (.product operands) ∧ AllEvery property operands
  | .division operands => property (.division operands) ∧ AllEvery property operands
  | .power base exponent =>
    property (.power base exponent) ∧ Every property base ∧ Every property exponent
  | .abs operands => property (.abs operands) ∧ AllEvery property operands
  | .elementary function operands =>
    property (.elementary function operands) ∧ AllEvery property operands
  | .indexed operand component => property (.indexed operand component) ∧ Every property operand
  | .restricted operand restriction =>
    property (.restricted operand restriction) ∧ Every property operand
  | .derivative operand direction =>
    property (.derivative operand direction) ∧ Every property operand
  | .facetNormal => property .facetNormal
  | .argument basis => property (.argument basis)
  | .coefficient field => property (.coefficient field)
  | .integer value => property (.integer value)
  | .real value => property (.real value)
  | .zero => property .zero
  | .symbol name => property (.symbol name)

/-- Whether every subexpression of every expression of a list has a property. -/
def AllEvery (property : Expr → Prop) : List Expr → Prop
  | [] => True
  | expr :: rest => Every property expr ∧ AllEvery property rest

end

mutual

theorem Every.mono {property weaker : Expr → Prop} (hImplies : ∀ expr, property expr → weaker expr) :
    (expr : Expr) → expr.Every property → expr.Every weaker
  | .sum operands, hExpr =>
    ⟨hImplies _ hExpr.1, AllEvery.mono hImplies operands hExpr.2⟩
  | .product operands, hExpr =>
    ⟨hImplies _ hExpr.1, AllEvery.mono hImplies operands hExpr.2⟩
  | .division operands, hExpr =>
    ⟨hImplies _ hExpr.1, AllEvery.mono hImplies operands hExpr.2⟩
  | .power base exponent, hExpr =>
    ⟨hImplies _ hExpr.1, Every.mono hImplies base hExpr.2.1,
      Every.mono hImplies exponent hExpr.2.2⟩
  | .abs operands, hExpr =>
    ⟨hImplies _ hExpr.1, AllEvery.mono hImplies operands hExpr.2⟩
  | .elementary _ operands, hExpr =>
    ⟨hImplies _ hExpr.1, AllEvery.mono hImplies operands hExpr.2⟩
  | .indexed operand _, hExpr => ⟨hImplies _ hExpr.1, Every.mono hImplies operand hExpr.2⟩
  | .restricted operand _, hExpr => ⟨hImplies _ hExpr.1, Every.mono hImplies operand hExpr.2⟩
  | .derivative operand _, hExpr => ⟨hImplies _ hExpr.1, Every.mono hImplies operand hExpr.2⟩
  | .facetNormal, hExpr => hImplies _ hExpr
  | .argument _, hExpr => hImplies _ hExpr
  | .coefficient _, hExpr => hImplies _ hExpr
  | .integer _, hExpr => hImplies _ hExpr
  | .real _, hExpr => hImplies _ hExpr
  | .zero, hExpr => hImplies _ hExpr
  | .symbol _, hExpr => hImplies _ hExpr

theorem AllEvery.mono {property weaker : Expr → Prop}
    (hImplies : ∀ expr, property expr → weaker expr) :
    (exprs : List Expr) → AllEvery property exprs → AllEvery weaker exprs
  | [], _ => trivial
  | expr :: rest, hExprs =>
    ⟨Every.mono hImplies expr hExprs.1, AllEvery.mono hImplies rest hExprs.2⟩

end

/-- Whether an expression that is a symbol has a word for its name. -/
def NamedByWord : Expr → Prop
  | .symbol name => IsWord name
  | _ => True

end Expr

/-- Whether every table is named by a word. -/
structure BasisTables.NamedByWords (tables : BasisTables) : Prop where
  argument : ∀ {argument request token},
    (tables.argument argument request).code = some token → IsWord token
  coefficient : ∀ {coefficient request token},
    tables.coefficient coefficient request = some token → IsWord token

/-- The tables of a catalog are named by words. -/
theorem ElementCatalog.namedByWords (catalog : ElementCatalog) :
    catalog.tables.NamedByWords where
  argument := by
    intro argument request token hCode
    simp only [tables] at hCode
    split at hCode
    · contradiction
    · cases hCode
      exact isWord_argumentToken argument request
  coefficient := by
    intro coefficient request token hCode
    simp only [tables] at hCode
    split at hCode
    · contradiction
    · cases hCode
      exact isWord_coefficientToken coefficient request

/-- Lowering to C++ expressions, with literals in their shortest form. -/
def cppBackend (catalog : ElementCatalog) (dimensions : CellDimensions) : Backend :=
  ⟨.cpp none, catalog.tables, dimensions⟩

/-- Lowering to nested calls. -/
def callsBackend (catalog : ElementCatalog) (dimensions : CellDimensions) : Backend :=
  ⟨.calls, catalog.tables, dimensions⟩

/-- Whether under every key an allowed number of terms meets. -/
def TermsMeet {β : Type} (allowed : Nat → Prop) (contributions : List (Key × List β)) : Prop :=
  ∀ entry ∈ (SortedMap.gather contributions).entries, allowed entry.2.length

/-- The number of terms that meet does not depend on what they are. -/
theorem TermsMeet.of_related {β γ : Type} {R : β → γ → Prop} {allowed : Nat → Prop}
    {lefts : List (Key × List β)} {rights : List (Key × List γ)}
    (hEntries : List.Forall₂ (EntryRelated (List.Forall₂ R)) lefts rights) :
    TermsMeet allowed lefts ↔ TermsMeet allowed rights := by
  have hGathered := SortedMap.Related.gather hEntries
  unfold TermsMeet
  unfold SortedMap.Related at hGathered
  generalize (SortedMap.gather lefts).entries = entries at hGathered ⊢
  generalize (SortedMap.gather rights).entries = entries' at hGathered ⊢
  induction hGathered with
  | nil => simp
  | cons hFirst _ ih =>
      rw [List.forall_mem_cons, List.forall_mem_cons, hFirst.2.length_eq]
      exact and_congr_right fun _ => ih

namespace Backend

variable (backend : Backend) (allowed : Nat → Prop)

mutual

/-- Whether every sum of the code of an expression, and every component of a
product, brings together an allowed number of terms. -/
def TermCounts : Expr → LoweringContext → Prop
  | .sum operands, context =>
    AllTermCounts operands context ∧
      ∀ codes, (backend.lowerAll operands context).Returns codes →
        TermsMeet allowed (TensorCode.sumContributions codes)
  | .product operands, context =>
    AllTermCounts operands context ∧
      ∀ codes contributions, (backend.lowerAll operands context).Returns codes →
        TensorCode.productContributions backend.dialect (codes.filter SortedMap.isTensor)
            (codes.filterMap SortedMap.asScalar?) = .ok contributions →
          TermsMeet allowed contributions
  | .division operands, context => AllTermCounts operands context
  | .power base exponent, context => TermCounts base context ∧ TermCounts exponent context
  | .abs operands, context => AllTermCounts operands context
  | .elementary _ operands, context => AllTermCounts operands context
  | .indexed operand component, context => TermCounts operand (context.select component)
  | .restricted operand restriction, context => TermCounts operand (context.restrict restriction)
  | .derivative operand direction, context =>
    TermCounts operand (context.differentiate direction)
  | .facetNormal, _ => True
  | .argument _, _ => True
  | .coefficient _, _ => True
  | .integer _, _ => True
  | .real _, _ => True
  | .zero, _ => True
  | .symbol _, _ => True

/-- Whether every sum of the code of every operand brings together an allowed
number of terms. -/
def AllTermCounts : List Expr → LoweringContext → Prop
  | [], _ => True
  | operand :: rest, context => TermCounts operand context ∧ AllTermCounts rest context

end

end Backend

end FormLowering
