import FormLowering.Proofs.Semantics.Lowering
import FormLowering.Proofs.Semantics.Meaning

/-!
# The meaning of emitted code

Whatever dialect the code is written in, its entries denote the meaning of the
expression: an entry that is a token has the value that the expression means
under its key, and where there is none the expression means zero.
-/

namespace FormLowering

open LowerM

namespace Dialect.Reading

variable {V : Type} [CommSemiring V] [Div V] {dialect : Dialect} {I : Interpretation V}

/-- Whether an entry has the given value.  Symbolic zero is zero. -/
inductive HasValue (reading : dialect.Reading I) : Entry → V → Prop
  | zero : HasValue reading none 0
  | token {token : Token} {value : V} (hToken : reading.Denotes token value) :
      HasValue reading (some token) value

theorem hasValue_of_rel {reading : dialect.Reading I} {entry : Entry} {value : Option V}
    (hEntry : Option.Rel reading.Denotes entry value) :
    reading.HasValue entry (value.getD 0) := by
  cases hEntry with
  | none => exact .zero
  | some hToken => exact .token hToken

/-- The entry under a key has the value under that key. -/
theorem hasValue_valueAt {reading : dialect.Reading I} {code : TensorCode}
    {value : TensorValue V} (hCode : reading.CodeDenotes code value) (key : Key) :
    reading.HasValue ((code.get? key).getD none) (value.valueAt key) := by
  have hEntry := hCode.get? key
  unfold TensorValue.valueAt
  generalize code.get? key = entry at hEntry ⊢
  generalize value.get? key = entryValue at hEntry ⊢
  cases hEntry with
  | none => exact .zero
  | some hEntry => exact hasValue_of_rel hEntry

end Dialect.Reading

/-- Under every key, the code of an expression has the value that the expression
means. -/
theorem Backend.lower_means {F : Type} [Field F] {I : Interpretation F} {dialect : Dialect}
    (reading : dialect.Reading I) (hAbsolute : I.absolute 0 = 0) {catalog : ElementCatalog}
    {dimensions : CellDimensions} (hDimensions : dimensions.Positive) {expr : Expr}
    (hExpr : expr.Every I.Admits) {context : LoweringContext}
    (hCounts : TermCounts ⟨dialect, catalog.tables, dimensions⟩ reading.Exact expr context)
    {names recorded : GeometryNames} {code : TensorCode}
    (hRun : (lower ⟨dialect, catalog.tables, dimensions⟩ expr context).runWith names =
      (.ok code, recorded)) (key : Key) :
    reading.HasValue ((code.get? key).getD none)
      (I.meaning catalog.tables dimensions expr context key) := by
  have hWords : expr.Every Expr.NamedByWord :=
    Expr.Every.mono (fun _ hNode => I.namedByWord_of_admits hNode) expr hExpr
  have hYields : Yields reading.CodeDenotes (lower ⟨dialect, catalog.tables, dimensions⟩ expr context)
      (I.evaluate catalog.tables dimensions expr context) :=
    lower_yields catalog.namedByWords expr context hWords hCounts
  obtain ⟨value, hValue, hCode⟩ := hYields.of_runWith hRun
  obtain ⟨hMeaning, -⟩ :=
    Interpretation.evaluate_meaning hAbsolute hDimensions expr context hExpr value hValue
  rw [hMeaning]
  exact Dialect.Reading.hasValue_valueAt hCode key

/-! ### Languages -/

namespace Language

/-- The dialect in which lowering writes a language, with literals in their
shortest form. -/
def dialect : Language → Dialect
  | .calls => .calls
  | .cpp => .cpp none

/-- Lowering to a language. -/
def backend (language : Language) (catalog : ElementCatalog) (dimensions : CellDimensions) :
    Backend :=
  ⟨language.dialect, catalog.tables, dimensions⟩

variable {F : Type} [Field F]

/-- The interpretation as the language has it: C++ has one power for all exponents. -/
def uniform (language : Language) (I : Interpretation F) : Interpretation F :=
  match language with
  | .calls => I
  | .cpp => { I with generalPower := I.power }

/-- The reading of a language. -/
def reading {I : Interpretation F} (hNatural : I.NaturalLiterals) :
    (language : Language) → language.dialect.Reading (language.uniform I)
  | .calls => Dialect.callsReading hNatural
  | .cpp =>
    have hUniform : (Language.cpp.uniform I).NaturalLiterals := hNatural
    Dialect.cppReading hUniform rfl

end Language

mutual

/-- C++ expressions do not refer to the power of nested calls. -/
theorem CodeTree.value?_uniform {F : Type} [Field F] (I : Interpretation F) :
    (tree : CodeTree) → tree.value? .cpp (Language.cpp.uniform I) = tree.value? .cpp I
  | .word _ => rfl
  | .group inner => by
    rw [value?, value?, value?_uniform I inner]
  | .call callee arguments => by
    rw [value?, value?, values?_uniform I arguments]
    rfl
  | .binary operator left right => by
    rw [value?, value?, value?_uniform I left, value?_uniform I right]

theorem CodeTree.values?_uniform {F : Type} [Field F] (I : Interpretation F) :
    (trees : List CodeTree) → values? .cpp (Language.cpp.uniform I) trees = values? .cpp I trees
  | [] => rfl
  | tree :: rest => by
    rw [values?, values?, value?_uniform I tree, values?_uniform I rest]

end

namespace Language

variable {F : Type} [Field F] {I : Interpretation F}

theorem denotes_uniform (language : Language) {token : Token} {value : F}
    (hToken : language.Denotes (language.uniform I) token value) :
    language.Denotes I token value := by
  cases language with
  | calls => exact hToken
  | cpp =>
      obtain ⟨tree, hTree, hText, hValue⟩ := hToken
      rw [CodeTree.value?_uniform] at hValue
      exact ⟨tree, hTree, hText, hValue⟩

/-- What an entry has for its value in the reading of a language, it denotes. -/
theorem entry_denotes {hNatural : I.NaturalLiterals} {language : Language} {entry : Entry}
    {value : F} (hEntry : (language.reading hNatural).HasValue entry value) :
    entry.Denotes language I value := by
  cases hEntry with
  | zero => exact rfl
  | token hToken =>
      refine denotes_uniform language ?_
      cases language with
      | calls => exact hToken.denotes
      | cpp => exact hToken.denotes

end Language

end FormLowering
