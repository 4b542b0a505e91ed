import FormLowering.Proofs.Semantics.TensorArithmetic

/-!
# The code of basis functions

Every table that is not structurally zero contributes its value times the factors
of pullback and chain rule, and no other table contributes anything.
-/

namespace FormLowering

open LowerM

variable {V : Type} [CommSemiring V] [Div V] {backend : Backend} {I : Interpretation V}
  {reading : backend.dialect.Reading I}

namespace Backend

theorem applyPullback_yields (pullback : Pullback) (component : Nat) (side : Restriction)
    {basis : Token} {value : V} (hBasis : reading.Denotes basis value) :
    Yields reading.Denotes (backend.applyPullback pullback component side basis)
      (.ok (I.pullbackFactor pullback component side * value)) := by
  cases pullback with
  | identity =>
      refine Yields.pure ?_
      rwa [Interpretation.pullbackFactor, one_mul]
  | covariant direction =>
      refine Yields.bind_ok
        (Yields.record (reading.jacobian .inverse direction component side)) fun inverse hInverse => ?_
      refine Yields.pure ?_
      have hProduct := reading.multiply (by simp) (.cons hInverse (.cons hBasis .nil))
      rwa [List.prod_cons, List.prod_singleton] at hProduct
  | contravariant direction =>
      refine Yields.bind_ok (R := fun name _ => name = backend.dialect.determinant side) (b := ())
        (Yields.record rfl) fun determinant hDeterminant => ?_
      refine Yields.bind_ok
        (Yields.record (reading.jacobian .jacobian direction component side))
        fun jacobian hJacobian => ?_
      refine Yields.pure ?_
      subst hDeterminant
      have hProduct := reading.multiply (by simp)
        (.cons (reading.reciprocal side) (.cons hJacobian (.cons hBasis .nil)))
      rwa [List.prod_cons, List.prod_cons, List.prod_singleton, ← mul_assoc] at hProduct

theorem chainRule_yields (directions tuple : List Nat) (side : Restriction) {basis : Token}
    {value : V} (hBasis : reading.Denotes basis value) :
    Yields reading.Denotes (backend.chainRule (some basis) directions tuple side)
      (.ok (I.chainFactor directions tuple side * value)) := by
  have hFactors : Yields (List.Forall₂ reading.Denotes)
      ((directions.zip tuple).mapM fun pair =>
        record (backend.dialect.jacobian .inverse pair.2 pair.1 side))
      (.ok ((directions.zip tuple).map fun pair =>
        I.word (JacobianKind.inverse.entryName pair.2 pair.1 side))) :=
    Yields.mapM_ok fun pair _ => Yields.record (reading.jacobian .inverse pair.2 pair.1 side)
  refine Yields.bind_ok hFactors fun factors hFactors => Yields.pure ?_
  have hAll := List.rel_append hFactors (.cons hBasis .nil)
  have hProduct := reading.multiply (by simp) hAll
  rwa [List.prod_append, List.prod_singleton] at hProduct

theorem basisTerms_yields (place : ComponentPlace) (context : LoweringContext) (tuple : List Nat)
    (contributor : Contributor) {table : Entry}
    (hTable : ∀ token, table = some token → IsWord token) :
    Yields (List.Forall₂ reading.Denotes)
      (backend.basisTerms place context tuple contributor table)
      (.ok (I.basisTerms place context tuple contributor table)) := by
  refine Yields.mapM_ok fun basis hMem => ?_
  have hWord : IsWord basis := hTable basis (Option.mem_toList.mp hMem)
  refine Yields.bind_ok (applyPullback_yields contributor.pullback place.component
    context.restriction (reading.word hWord)) fun pulled hPulled => ?_
  exact chainRule_yields context.derivatives tuple context.restriction hPulled

theorem lowerArgument_yields (hTables : backend.elements.NamedByWords) (argument : Argument)
    (context : LoweringContext) :
    Yields reading.CodeDenotes (backend.lowerArgument argument context)
      (I.argumentValue backend.elements backend.dimensions argument context) := by
  -- Both sides select the same component, or fail to.
  refine Yields.bind (Yields.ofExcept (Agree.refl _)) fun selected _ hSelected => ?_
  subst hSelected
  obtain ⟨component, place⟩ := selected
  refine Yields.bind (Yields.ofExcept (Agree.refl _)) fun contributors _ hContributors => ?_
  subst hContributors
  have hTerms : ∀ pair ∈ tableOrder
        (directionTuples backend.dimensions.topological context.derivatives.length) contributors,
      Yields (EntryRelated (List.Forall₂ reading.Denotes))
        (do
          let table := backend.elements.argument argument
            (backend.dimensions.tableRequest context pair.1 pair.2)
          let terms ← backend.basisTerms place context pair.1 pair.2 table.code
          return (table.key, terms))
        (.ok (I.argumentContribution backend.elements backend.dimensions argument place context
          pair)) := by
    intro pair _
    refine Yields.bind_ok (R := List.Forall₂ reading.Denotes)
      (basisTerms_yields place context pair.1 pair.2 ?_) fun terms hTerms => Yields.pure ⟨rfl, hTerms⟩
    exact fun token hCode => hTables.argument hCode
  refine Yields.bind_ok (Yields.mapM_ok hTerms) fun contributions hContributions => Yields.pure ?_
  exact (SortedMap.Related.gather hContributions).mapValues fun _ _ hTerms =>
    Dialect.Reading.join hTerms

theorem lowerCoefficient_yields (hTables : backend.elements.NamedByWords)
    (coefficient : Coefficient) (context : LoweringContext) :
    Yields reading.CodeDenotes (backend.lowerCoefficient coefficient context)
      (I.coefficientValue backend.elements backend.dimensions coefficient context) := by
  refine Yields.bind (Yields.ofExcept (Agree.refl _)) fun selected _ hSelected => ?_
  subst hSelected
  obtain ⟨component, place⟩ := selected
  unfold coefficientCode
  -- The code of a coefficient is an action of its own inside the leaf.
  simp only [bind_assoc, pure_bind]
  refine Yields.bind (Yields.ofExcept (Agree.refl _)) fun contributors _ hContributors => ?_
  subst hContributors
  have hTerms : ∀ pair ∈ tableOrder
        (directionTuples backend.dimensions.topological context.derivatives.length) contributors,
      Yields (List.Forall₂ reading.Denotes)
        (backend.basisTerms place context pair.1 pair.2
          (backend.elements.coefficient coefficient
            (backend.dimensions.tableRequest context pair.1 pair.2)))
        (.ok (I.coefficientContribution backend.elements backend.dimensions coefficient place context
          pair)) := by
    intro pair _
    exact basisTerms_yields place context pair.1 pair.2 fun token hCode => hTables.coefficient hCode
  refine Yields.bind_ok (Yields.mapM_ok hTerms) fun terms hTerms => Yields.pure ?_
  exact SortedMap.Related.singleton [] (Dialect.Reading.join (List.rel_flatten hTerms))

end Backend

end FormLowering
