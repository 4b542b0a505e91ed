import FormLowering.Proofs.Semantics.Lowering
import FormLowering.Proofs.Traversal.Simulation

/-!
# Backends that write related tokens

Two backends may write different tokens, for sides of a facet that differ, and still
do the same at every node.  What this takes is collected in `Backend.Congruent`:
the same dimensions and places of components, tables with related tokens, and
dialects whose operations keep tokens related.  Such backends are parallel
(`Backend.Congruent.parallel`), so they run side by side on every expression.
-/

namespace FormLowering

open LowerM

/-- Whether two contexts differ in nothing but the side of the facet. -/
structure LoweringContext.Beside (Sides : Restriction → Restriction → Prop)
    (left right : LoweringContext) : Prop where
  component : left.component = right.component
  derivatives : left.derivatives = right.derivatives
  restriction : Sides left.restriction right.restriction

theorem LoweringContext.Beside.refl_eq (context : LoweringContext) :
    LoweringContext.Beside (· = ·) context context :=
  ⟨rfl, rfl, rfl⟩

/-- Whether two requests differ in nothing but the side of the facet. -/
structure TableRequest.Beside (Sides : Restriction → Restriction → Prop)
    (left right : TableRequest) : Prop where
  component : left.component = right.component
  derivatives : left.derivatives = right.derivatives
  restriction : Sides left.restriction right.restriction

/-- Whether two codes have the same keys and related entries. -/
abbrev TensorCode.Related (Tokens : Token → Token → Prop) (left right : TensorCode) : Prop :=
  SortedMap.Related (Option.Rel Tokens) left right

/-- What two backends have in common if they do the same at every node, up to the side
of the facet and a relation of tokens. -/
structure Backend.Congruent (Names : GeometryNames → GeometryNames → Prop)
    (Sides : Restriction → Restriction → Prop) (Tokens : Token → Token → Prop)
    (left right : Backend) : Prop where
  dimensions : left.dimensions = right.dimensions
  locate : left.elements.locate = right.elements.locate
  argument : ∀ argument {request request'}, TableRequest.Beside Sides request request' →
    (left.elements.argument argument request).key =
        (right.elements.argument argument request').key ∧
      Option.Rel Tokens (left.elements.argument argument request).code
        (right.elements.argument argument request').code
  coefficient : ∀ coefficient {request request'}, TableRequest.Beside Sides request request' →
    Option.Rel Tokens (left.elements.coefficient coefficient request)
      (right.elements.coefficient coefficient request')
  combine : ∀ (operation : Operation) {codes codes'},
    List.Forall₂ (TensorCode.Related Tokens) codes codes' →
      Agree (TensorCode.Related Tokens) (operation.combine left.dialect codes)
        (operation.combine right.dialect codes')
  multiply : ∀ {tokens tokens'}, tokens ≠ [] → List.Forall₂ Tokens tokens tokens' →
    Tokens (left.dialect.multiply tokens) (right.dialect.multiply tokens')
  sum : ∀ {tokens tokens'}, tokens ≠ [] → List.Forall₂ Tokens tokens tokens' →
    Tokens (left.dialect.group (left.dialect.add tokens))
      (right.dialect.group (right.dialect.add tokens'))
  power : ∀ (exponent : Int) {base base'}, Tokens base base' →
    Tokens (left.dialect.power base exponent) (right.dialect.power base' exponent)
  generalPower : ∀ {base base' exponent exponent'}, Tokens base base' → Tokens exponent exponent' →
    Tokens (left.dialect.generalPower base exponent) (right.dialect.generalPower base' exponent')
  literal : ∀ value, Tokens (left.dialect.literal value) (right.dialect.literal value)
  jacobian : ∀ kind row column {side side'}, Sides side side' →
    Tokens (left.dialect.jacobian kind row column side)
      (right.dialect.jacobian kind row column side')
  reciprocal : ∀ {side side'}, Sides side side' →
    Tokens (left.dialect.reciprocal (left.dialect.determinant side))
      (right.dialect.reciprocal (right.dialect.determinant side'))
  normal : ∀ component {side side'}, Sides side side' →
    Tokens (left.dialect.normal side component) (right.dialect.normal side' component)
  insert_jacobian : ∀ kind row column {side side' names names'}, Sides side side' →
    Names names names' → Names (names.insert (left.dialect.jacobian kind row column side))
      (names'.insert (right.dialect.jacobian kind row column side'))
  insert_determinant : ∀ {side side' names names'}, Sides side side' → Names names names' →
    Names (names.insert (left.dialect.determinant side))
      (names'.insert (right.dialect.determinant side'))
  insert_normal : ∀ component {side side' names names'}, Sides side side' → Names names names' →
    Names (names.insert (left.dialect.normal side component))
      (names'.insert (right.dialect.normal side' component))

namespace Backend.Congruent

variable {Names : GeometryNames → GeometryNames → Prop} {Sides : Restriction → Restriction → Prop}
  {Tokens : Token → Token → Prop} {left right : Backend} {side side' : Restriction}
  {context context' : LoweringContext}

theorem identity (hBackends : Congruent Names Sides Tokens left right) :
    Tokens left.dialect.identity right.dialect.identity :=
  hBackends.literal .one

theorem join (hBackends : Congruent Names Sides Tokens left right) {terms terms' : List Token}
    (hTerms : List.Forall₂ Tokens terms terms') :
    Option.Rel Tokens (left.dialect.join terms) (right.dialect.join terms') := by
  match terms, terms', hTerms with
  | [], [], .nil => exact .none
  | [_], [_], .cons hTerm .nil => exact .some hTerm
  | _ :: _ :: _, _ :: _ :: _, .cons hFirst (.cons hSecond hRest) =>
    exact .some (hBackends.sum (List.cons_ne_nil _ _) (.cons hFirst (.cons hSecond hRest)))

/-! ### Powers -/

theorem powerOf_simulates (hBackends : Congruent Names Sides Tokens left right)
    (exponent : ExponentForm) {base base' : Token} (hBase : Tokens base base')
    {exponentCode exponentCode' : LowerM TensorCode}
    (hExponent : Simulates Names (TensorCode.Related Tokens) exponentCode exponentCode') :
    Simulates Names Tokens (left.powerOf base exponent exponentCode)
      (right.powerOf base' exponent exponentCode') := by
  cases exponent with
  | integer value => exact .pure (hBackends.power value hBase)
  | real value => exact .pure (hBackends.generalPower hBase (hBackends.literal value))
  | function =>
      refine hExponent.bind fun code code' hCodes => ?_
      have hScalar := hCodes.asScalar?
      generalize code.asScalar? = entry at hScalar ⊢
      generalize code'.asScalar? = entry' at hScalar ⊢
      cases hScalar with
      | none => exact .throw _
      | some hEntry =>
          cases hEntry with
          | none => exact .pure hBackends.identity
          | some hToken => exact .pure (hBackends.generalPower hBase hToken)
  | unsupported => exact .throw _

theorem powerCode_simulates (hBackends : Congruent Names Sides Tokens left right)
    (exponent : ExponentForm) {base base' exponentCode exponentCode' : LowerM TensorCode}
    (hBase : Simulates Names (TensorCode.Related Tokens) base base')
    (hExponent : Simulates Names (TensorCode.Related Tokens) exponentCode exponentCode') :
    Simulates Names (TensorCode.Related Tokens) (left.powerCode base exponent exponentCode)
      (right.powerCode base' exponent exponentCode') := by
  refine hBase.bind fun code code' hCodes => ?_
  have hScalar := hCodes.asScalar?
  generalize code.asScalar? = entry at hScalar ⊢
  generalize code'.asScalar? = entry' at hScalar ⊢
  cases hScalar with
  | none => exact .throw _
  | some hEntry =>
      cases hEntry with
      | none =>
          have hZero := powerOfZero_agrees exponent hBackends.identity
          exact (Simulates.ofExcept hZero).bind fun _ _ hPower =>
            .pure (SortedMap.Related.singleton [] hPower)
      | some hToken =>
          exact (hBackends.powerOf_simulates exponent hToken hExponent).bind fun _ _ hPower =>
            .pure (SortedMap.Related.singleton [] (.some hPower))

/-! ### Basis functions -/

theorem applyPullback_simulates (hBackends : Congruent Names Sides Tokens left right)
    (pullback : Pullback) (component : Nat) (hSides : Sides side side') {basis basis' : Token}
    (hBasis : Tokens basis basis') :
    Simulates Names Tokens (left.applyPullback pullback component side basis)
      (right.applyPullback pullback component side' basis') := by
  cases pullback with
  | identity => exact .pure hBasis
  | covariant direction =>
      have hInverse := hBackends.jacobian .inverse direction component hSides
      refine (Simulates.record hInverse fun _ _ =>
        hBackends.insert_jacobian .inverse direction component hSides).bind fun _ _ hFactor => ?_
      exact .pure (hBackends.multiply (List.cons_ne_nil _ _) (.cons hFactor (.cons hBasis .nil)))
  | contravariant direction =>
      -- The determinant itself need not be related, only its reciprocal is written.
      have hDeterminant : Simulates Names
          (fun token token' => Tokens (left.dialect.reciprocal token)
            (right.dialect.reciprocal token'))
          (record (left.dialect.determinant side)) (record (right.dialect.determinant side')) :=
        .record (hBackends.reciprocal hSides) fun _ _ => hBackends.insert_determinant hSides
      refine hDeterminant.bind fun _ _ hReciprocal => ?_
      have hJacobian := hBackends.jacobian .jacobian direction component hSides
      refine (Simulates.record hJacobian fun _ _ =>
        hBackends.insert_jacobian .jacobian direction component hSides).bind fun _ _ hFactor => ?_
      exact .pure (hBackends.multiply (List.cons_ne_nil _ _)
        (.cons hReciprocal (.cons hFactor (.cons hBasis .nil))))

theorem chainRule_simulates (hBackends : Congruent Names Sides Tokens left right)
    (directions tuple : List Nat) (hSides : Sides side side') {basis basis' : Token}
    (hBasis : Tokens basis basis') :
    Simulates Names Tokens (left.chainRule (some basis) directions tuple side)
      (right.chainRule (some basis') directions tuple side') := by
  have hPairs : List.Forall₂ (· = ·) (directions.zip tuple) (directions.zip tuple) :=
    List.forall₂_refl _
  refine (Simulates.mapM (S := Tokens) hPairs ?_).bind fun factors factors' hFactors => ?_
  · rintro pair _ rfl
    exact .record (hBackends.jacobian .inverse pair.2 pair.1 hSides) fun _ _ =>
      hBackends.insert_jacobian .inverse pair.2 pair.1 hSides
  · exact .pure (hBackends.multiply (by simp) (List.rel_append hFactors (.cons hBasis .nil)))

theorem basisTerms_simulates (hBackends : Congruent Names Sides Tokens left right)
    (hContexts : LoweringContext.Beside Sides context context') (place : ComponentPlace)
    (tuple : List Nat) (contributor : Contributor) {table table' : Entry}
    (hTable : Option.Rel Tokens table table') :
    Simulates Names (List.Forall₂ Tokens) (left.basisTerms place context tuple contributor table)
      (right.basisTerms place context' tuple contributor table') := by
  refine Simulates.mapM (forall₂_toList hTable) fun basis basis' hBasis => ?_
  refine (hBackends.applyPullback_simulates contributor.pullback place.component
    hContexts.restriction hBasis).bind fun pulled pulled' hPulled => ?_
  rw [hContexts.derivatives]
  exact hBackends.chainRule_simulates context'.derivatives tuple hContexts.restriction hPulled

theorem tableRequest_beside (hBackends : Congruent Names Sides Tokens left right)
    (hContexts : LoweringContext.Beside Sides context context') (tuple : List Nat)
    (contributor : Contributor) :
    TableRequest.Beside Sides (left.dimensions.tableRequest context tuple contributor)
      (right.dimensions.tableRequest context' tuple contributor) := by
  rw [hBackends.dimensions]
  exact ⟨rfl, rfl, hContexts.restriction⟩

theorem selected_eq (hBackends : Congruent Names Sides Tokens left right)
    (hContexts : LoweringContext.Beside Sides context context') (element : Nat) :
    left.elements.selected element context = right.elements.selected element context' := by
  unfold BasisTables.selected LoweringContext.selectedComponent
  rw [hBackends.locate, hContexts.component]

theorem argumentCode_simulates (hBackends : Congruent Names Sides Tokens left right)
    (hContexts : LoweringContext.Beside Sides context context') (argument : Argument)
    (component : Nat) (place : ComponentPlace) (tuples : List (List Nat)) :
    Simulates Names (TensorCode.Related Tokens)
      (left.argumentCode argument component place tuples context)
      (right.argumentCode argument component place tuples context') := by
  unfold argumentCode
  rw [hBackends.dimensions]
  refine (Simulates.ofExcept (Agree.refl _)).bind ?_
  rintro contributors _ rfl
  have hPairs : List.Forall₂ (· = ·) (tableOrder tuples contributors)
      (tableOrder tuples contributors) := List.forall₂_refl _
  refine (Simulates.mapM (S := EntryRelated (List.Forall₂ Tokens)) hPairs ?_).bind
    fun contributions contributions' hContributions => ?_
  · rintro pair _ rfl
    have hRequest := hBackends.tableRequest_beside hContexts pair.1 pair.2
    rw [hBackends.dimensions] at hRequest
    obtain ⟨hKey, hTable⟩ := hBackends.argument argument hRequest
    refine (hBackends.basisTerms_simulates hContexts place pair.1 pair.2 hTable).bind
      fun terms terms' hTerms => ?_
    exact .pure ⟨hKey, hTerms⟩
  · exact .pure ((SortedMap.Related.gather hContributions).mapValues fun _ _ => hBackends.join)

theorem coefficientCode_simulates (hBackends : Congruent Names Sides Tokens left right)
    (hContexts : LoweringContext.Beside Sides context context') (coefficient : Coefficient)
    (component : Nat) (place : ComponentPlace) (tuples : List (List Nat)) :
    Simulates Names (Option.Rel Tokens)
      (left.coefficientCode coefficient component place tuples context)
      (right.coefficientCode coefficient component place tuples context') := by
  unfold coefficientCode
  rw [hBackends.dimensions]
  refine (Simulates.ofExcept (Agree.refl _)).bind ?_
  rintro contributors _ rfl
  have hPairs : List.Forall₂ (· = ·) (tableOrder tuples contributors)
      (tableOrder tuples contributors) := List.forall₂_refl _
  refine (Simulates.mapM (S := List.Forall₂ Tokens) hPairs ?_).bind fun terms terms' hTerms =>
    .pure (hBackends.join (List.rel_flatten hTerms))
  rintro pair _ rfl
  have hRequest := hBackends.tableRequest_beside hContexts pair.1 pair.2
  rw [hBackends.dimensions] at hRequest
  exact hBackends.basisTerms_simulates hContexts place pair.1 pair.2
    (hBackends.coefficient coefficient hRequest)

theorem lowerArgument_simulates (hBackends : Congruent Names Sides Tokens left right)
    (hContexts : LoweringContext.Beside Sides context context') (argument : Argument) :
    Simulates Names (TensorCode.Related Tokens) (left.lowerArgument argument context)
      (right.lowerArgument argument context') := by
  unfold lowerArgument
  rw [hBackends.selected_eq hContexts, hBackends.dimensions, hContexts.derivatives]
  refine (Simulates.ofExcept (Agree.refl _)).bind ?_
  rintro ⟨component, place⟩ _ rfl
  exact hBackends.argumentCode_simulates hContexts argument component place _

theorem lowerCoefficient_simulates (hBackends : Congruent Names Sides Tokens left right)
    (hContexts : LoweringContext.Beside Sides context context') (coefficient : Coefficient) :
    Simulates Names (TensorCode.Related Tokens) (left.lowerCoefficient coefficient context)
      (right.lowerCoefficient coefficient context') := by
  unfold lowerCoefficient
  rw [hBackends.selected_eq hContexts, hBackends.dimensions, hContexts.derivatives]
  refine (Simulates.ofExcept (Agree.refl _)).bind ?_
  rintro ⟨component, place⟩ _ rfl
  exact (hBackends.coefficientCode_simulates hContexts coefficient component place _).bind
    fun _ _ hEntries => .pure (SortedMap.Related.singleton [] hEntries)

/-! ### Constants -/

theorem normalCode_simulates (hBackends : Congruent Names Sides Tokens left right)
    (hContexts : LoweringContext.Beside Sides context context') :
    Simulates Names (TensorCode.Related Tokens) (left.normalCode context)
      (right.normalCode context') := by
  unfold normalCode
  rw [hContexts.component]
  match context'.component with
  | [] => exact .throw _
  | [component] =>
    have hNormal := hBackends.normal component hContexts.restriction
    exact (Simulates.record hNormal fun _ _ =>
      hBackends.insert_normal component hContexts.restriction).bind fun _ _ hName =>
        .pure (SortedMap.Related.singleton [] (.some hName))
  | _ :: _ :: _ => exact .throw _

theorem literalCode_related (hBackends : Congruent Names Sides Tokens left right)
    (value : Binary64) :
    TensorCode.Related Tokens (left.literalCode value) (right.literalCode value) := by
  apply SortedMap.Related.singleton
  split
  · exact .none
  · exact .some (hBackends.literal value)

theorem constant_simulates (hBackends : Congruent Names Sides Tokens left right)
    (hContexts : LoweringContext.Beside Sides context context') (leaf : Constant)
    (hSymbol : ∀ name, leaf = .symbol name → Tokens name name) :
    Simulates Names (TensorCode.Related Tokens) (constantLeaf context (leaf.code left context))
      (constantLeaf context' (leaf.code right context')) := by
  unfold constantLeaf
  rw [hContexts.derivatives]
  split
  · cases leaf with
    | normal => exact hBackends.normalCode_simulates hContexts
    | integer value => exact .pure (hBackends.literalCode_related _)
    | real value => exact .pure (hBackends.literalCode_related value)
    | zero => exact .pure (SortedMap.Related.singleton [] .none)
    | symbol name => exact .pure (SortedMap.Related.singleton [] (.some (hSymbol name rfl)))
  · exact .pure (SortedMap.Related.singleton [] .none)

/-- Congruent backends are parallel, if modifiers keep the sides related and the names
of symbols are. -/
theorem parallel (hBackends : Congruent Names Sides Tokens left right) (Admits : Expr → Prop)
    (hSides : ∀ operand side, Admits (.restricted operand side) → Sides side side)
    (hSymbol : ∀ name, Admits (.symbol name) → Tokens name name) :
    Parallel Names (TensorCode.Related Tokens) (LoweringContext.Beside Sides) Admits left right where
  combine := hBackends.combine
  power := hBackends.powerCode_simulates
  modifier := by
    intro modifier operand context context' hAdmits hContexts
    cases modifier with
    | index component => exact ⟨rfl, hContexts.derivatives, hContexts.restriction⟩
    | restrict side =>
        exact ⟨hContexts.component, hContexts.derivatives, hSides operand side hAdmits⟩
    | differentiate direction =>
        refine ⟨hContexts.component, ?_, hContexts.restriction⟩
        show context.derivatives ++ [direction] = context'.derivatives ++ [direction]
        rw [hContexts.derivatives]
  argument argument _ _ hContexts := hBackends.lowerArgument_simulates hContexts argument
  coefficient coefficient _ _ hContexts :=
    hBackends.lowerCoefficient_simulates hContexts coefficient
  constant := by
    intro leaf context context' hAdmits hContexts
    refine hBackends.constant_simulates hContexts leaf ?_
    rintro name rfl
    exact hSymbol name hAdmits

end Backend.Congruent

end FormLowering
