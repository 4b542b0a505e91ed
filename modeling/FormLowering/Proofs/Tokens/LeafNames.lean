import FormLowering.Proofs.Tokens.Mentions
import FormLowering.Proofs.Traversal.Completed

/-!
# Names that leaves record

The code of a basis function or a coefficient is a sum over tables, and a table that is
not structurally zero comes with the factors of its pullback and of the chain rule.  A
facet normal is a name by itself.  `Backend.leafNames` lists the names of all of these.

A leaf that succeeds records exactly these names, and its code mentions exactly these
names.  A leaf that fails records nothing.
-/

namespace FormLowering

open LowerM

/-- The tokens of a code. -/
def TensorCode.tokens (code : TensorCode) : List Token :=
  code.entries.filterMap Prod.snd

theorem TensorCode.mem_tokens {code : TensorCode} {token : Token} :
    token ∈ code.tokens ↔ ∃ key, (key, some token) ∈ code.entries := by
  simp [tokens]

theorem TensorCode.mem_tokens_mapValues {β : Type} {map : SortedMap Key β} {change : β → Entry}
    {token : Token} : token ∈ TensorCode.tokens (map.mapValues change) ↔
      ∃ entry ∈ map.entries, change entry.2 = some token := by
  simp [tokens, SortedMap.mapValues]

theorem TensorCode.tokens_scalar (entry : Entry) :
    (TensorCode.scalar entry).tokens = entry.toList := by
  cases entry <;> rfl

/-! ### Mentioning exactly the names of a list -/

/-- Whether tokens mention the names of a list, together and no others. -/
def MentionExactly (tokens names : List Token) : Prop :=
  ∀ name, (∃ token ∈ tokens, Mentions token name) ↔ name ∈ names

namespace MentionExactly

theorem nil : MentionExactly [] [] := by
  simp [MentionExactly]

theorem append {left right leftNames rightNames : List Token}
    (hLeft : MentionExactly left leftNames) (hRight : MentionExactly right rightNames) :
    MentionExactly (left ++ right) (leftNames ++ rightNames) := by
  intro name
  simp only [List.mem_append, ← hLeft name, ← hRight name, or_and_right, exists_or]

theorem flatten {α : Type} {values : List α} {parts : List (List Token)} {names : α → List Token}
    (hParts : List.Forall₂ (fun value part => MentionExactly part (names value)) values parts) :
    MentionExactly parts.flatten (values.flatMap names) := by
  induction hParts with
  | nil => exact nil
  | cons hFirst _ ih =>
      rw [List.flatten_cons, List.flatMap_cons]
      exact hFirst.append ih

/-- Tokens that each mention names of their own. -/
theorem each {α : Type} {values : List α} {tokens : List Token} {names : α → List Token}
    (hTokens : List.Forall₂ (fun value token => MentionExactly [token] (names value)) values
      tokens) : MentionExactly tokens (values.flatMap names) := by
  have hParts : List.Forall₂ (fun value part => MentionExactly part (names value)) values
      (tokens.map fun token => [token]) := by
    rwa [List.forall₂_map_right_iff]
  have hTokens := flatten hParts
  rwa [← List.flatMap_def, List.flatMap_singleton'] at hTokens

/-- The order of names does not matter. -/
theorem perm {tokens names names' : List Token} (hTokens : MentionExactly tokens names)
    (hPerm : names.Perm names') : MentionExactly tokens names' :=
  fun name => (hTokens name).trans hPerm.mem_iff

theorem singleton_iff {token : Token} {names : List Token} :
    MentionExactly [token] names ↔ ∀ name, Mentions token name ↔ name ∈ names := by
  simp only [MentionExactly, List.mem_singleton, exists_eq_left]

theorem name {name : Token} (hName : IsGeometryName name) : MentionExactly [name] [name] := by
  refine singleton_iff.mpr fun other => ?_
  rw [List.mem_singleton]
  exact mentions_name hName

theorem silent {token : Token} (hToken : ∀ name, ¬Mentions token name) :
    MentionExactly [token] [] :=
  singleton_iff.mpr fun name => iff_of_false (hToken name) List.not_mem_nil

variable {dialect : Dialect} (hAvailable : dialect.Available)

include hAvailable

theorem multiply {tokens names : List Token} (hNonempty : tokens ≠ [])
    (hTokens : MentionExactly tokens names) : MentionExactly [dialect.multiply tokens] names :=
  singleton_iff.mpr fun name => (hAvailable.mentions_multiply hNonempty).trans (hTokens name)

theorem reciprocal {token : Token} {names : List Token} (hToken : MentionExactly [token] names) :
    MentionExactly [dialect.reciprocal token] names :=
  singleton_iff.mpr fun name =>
    hAvailable.mentions_reciprocal.trans (singleton_iff.mp hToken name)

theorem join {terms names : List Token} (hTerms : MentionExactly terms names) :
    MentionExactly (dialect.join terms).toList names :=
  fun name => (hAvailable.mentions_join).trans (hTerms name)

/-- Terms that are gathered and summed key by key mention what they do one by one. -/
theorem gather {contributions : List (Key × List Token)} {names : List Token}
    (hTerms : MentionExactly (contributions.flatMap Prod.snd) names) :
    MentionExactly (TensorCode.tokens ((SortedMap.gather contributions).mapValues dialect.join))
      names := by
  intro name
  rw [← hTerms name]
  constructor
  · rintro ⟨token, hToken, hName⟩
    obtain ⟨entry, hEntry, hJoin⟩ := TensorCode.mem_tokens_mapValues.mp hToken
    obtain ⟨term, hTerm, hName⟩ :=
      hAvailable.mentions_join.mp ⟨token, Option.mem_toList.mpr hJoin, hName⟩
    have hPart := SortedMap.exists_mem_gathered.mp ⟨entry, hEntry, hTerm⟩
    exact ⟨term, List.mem_flatMap.mpr hPart, hName⟩
  · rintro ⟨term, hTerm, hName⟩
    obtain ⟨entry, hEntry, hIn⟩ := SortedMap.exists_mem_gathered.mpr (List.mem_flatMap.mp hTerm)
    obtain ⟨token, hJoin, hName⟩ := hAvailable.mentions_join.mpr ⟨term, hIn, hName⟩
    have hToken := TensorCode.mem_tokens_mapValues.mpr ⟨entry, hEntry, Option.mem_toList.mp hJoin⟩
    exact ⟨token, hToken, hName⟩

end MentionExactly

/-! ### Names of factors -/

/-- Whether an expression is an argument, a coefficient or a facet normal. -/
def Expr.refersToGeometry : Expr → Bool
  | .argument _ | .coefficient _ | .facetNormal => true
  | _ => false

/-- The names in the factor of a pullback. -/
def Pullback.names (component : Nat) (side : Restriction) : Pullback → List Token
  | .identity => []
  | .covariant direction => [JacobianKind.inverse.entryName direction component side]
  | .contravariant direction =>
    [determinantName side, JacobianKind.jacobian.entryName direction component side]

/-- The names in the factors of the chain rule. -/
def chainRuleNames (directions tuple : List Nat) (side : Restriction) : List Token :=
  (directions.zip tuple).map fun pair => JacobianKind.inverse.entryName pair.2 pair.1 side

/-- The names in the factors that a table is multiplied with. -/
def factorNames (place : ComponentPlace) (context : LoweringContext)
    (pair : List Nat × Contributor) : List Token :=
  pair.2.pullback.names place.component context.restriction ++
    chainRuleNames context.derivatives pair.1 context.restriction

namespace Backend

variable {backend : Backend}

/-- The names in the factors of the tables that are asked for, without those tables that
are structurally zero. -/
def tableNames (backend : Backend) (place : ComponentPlace) (context : LoweringContext)
    (table : TableRequest → Entry) (contributors : List Contributor) : List Token :=
  (tableOrder (directionTuples backend.dimensions.topological context.derivatives.length)
    contributors).flatMap fun pair =>
      (table (backend.dimensions.tableRequest context pair.1 pair.2)).toList.flatMap fun _ =>
        factorNames place context pair

/-- The names in the code of an element. -/
def elementNames (backend : Backend) (element : Nat) (table : TableRequest → Entry)
    (context : LoweringContext) : List Token :=
  match backend.elements.selected element context with
  | .error _ => []
  | .ok (component, place) =>
    match backend.dimensions.contributors component place with
    | .error _ => []
    | .ok contributors => backend.tableNames place context table contributors

/-- The names in the code of a leaf that refers to geometric quantities. -/
def leafNames (backend : Backend) (context : LoweringContext) : Expr → List Token
  | .argument basis =>
    backend.elementNames basis.element (fun request => (backend.elements.argument basis request).code)
      context
  | .coefficient field =>
    backend.elementNames field.element (backend.elements.coefficient field) context
  | .facetNormal =>
    match context.derivatives, context.component with
    | [], [component] => [normalName context.restriction component]
    | _, _ => []
  | _ => []

theorem refersToGeometry_of_mem_leafNames {context : LoweringContext} {leaf : Expr} {name : Token}
    (hName : name ∈ backend.leafNames context leaf) : leaf.refersToGeometry = true := by
  cases leaf <;> first | rfl | exact absurd hName List.not_mem_nil

/-! ### Tables -/

section Tables

variable (hAvailable : backend.dialect.Available)

include hAvailable

theorem applyPullback_completes (pullback : Pullback) (component : Nat) (side : Restriction)
    {basis : Token} (hBasis : ∀ name, ¬Mentions basis name) :
    Completes (backend.applyPullback pullback component side basis)
      (fun token => MentionExactly [token] (pullback.names component side))
      (pullback.names component side) := by
  have hSilent : MentionExactly [basis] [] := .silent hBasis
  cases pullback with
  | identity => exact .pure hSilent
  | covariant direction =>
      have hEntry := MentionExactly.name (.entry .inverse direction component side)
      unfold applyPullback
      simp only [hAvailable.jacobian_eq]
      exact .record_bind
        (.pure ((hEntry.append hSilent).multiply hAvailable (List.cons_ne_nil _ _)))
  | contravariant direction =>
      have hDeterminant := MentionExactly.name (.determinant side)
      have hEntry := MentionExactly.name (.entry .jacobian direction component side)
      unfold applyPullback
      simp only [hAvailable.jacobian_eq, hAvailable.determinant_eq]
      have hFactors := (hDeterminant.reciprocal hAvailable).append (hEntry.append hSilent)
      exact .record_bind
        (.record_bind (.pure (hFactors.multiply hAvailable (List.cons_ne_nil _ _))))

theorem chainRule_completes {basis : Token} {names : List Token}
    (hBasis : MentionExactly [basis] names) (directions tuple : List Nat) (side : Restriction) :
    Completes (backend.chainRule (some basis) directions tuple side)
      (fun token => MentionExactly [token] (names ++ chainRuleNames directions tuple side))
      (chainRuleNames directions tuple side) := by
  have hFactors : Completes ((directions.zip tuple).mapM fun pair =>
        LowerM.record (backend.dialect.jacobian .inverse pair.2 pair.1 side))
      (List.Forall₂ (fun pair factor => MentionExactly [factor]
        [JacobianKind.inverse.entryName pair.2 pair.1 side]) (directions.zip tuple))
      (chainRuleNames directions tuple side) := by
    rw [hAvailable.jacobian_eq, chainRuleNames, List.map_eq_flatMap]
    exact .mapM fun pair _ => .record (.name (.entry .inverse pair.2 pair.1 side))
  unfold chainRule
  refine hFactors.bind_pure fun factors hEach => ?_
  have hNames := MentionExactly.each hEach
  rw [← List.map_eq_flatMap] at hNames
  have hNonempty : factors ++ (some basis).toList ≠ [] :=
    List.append_ne_nil_of_right_ne_nil _ (List.cons_ne_nil _ _)
  have hToken := (hNames.append hBasis).multiply hAvailable hNonempty
  exact hToken.perm List.perm_append_comm

/-- A table contributes its factors, or nothing if it is structurally zero. -/
theorem basisTerms_completes (place : ComponentPlace) (context : LoweringContext)
    (tuple : List Nat) (contributor : Contributor) {table : Entry}
    (hTable : ∀ basis, table = some basis → ∀ name, ¬Mentions basis name) :
    let names := table.toList.flatMap fun _ => factorNames place context (tuple, contributor)
    Completes (backend.basisTerms place context tuple contributor table)
      (fun terms => MentionExactly terms names) names := by
  refine (Completes.mapM fun basis hMem => ?_).mono fun terms => MentionExactly.each
  have hBasis := hTable basis (Option.mem_toList.mp hMem)
  refine (applyPullback_completes hAvailable _ _ _ hBasis).bind fun pulled hPulled => ?_
  exact chainRule_completes hAvailable hPulled _ _ _

variable {place : ComponentPlace} {context : LoweringContext} {contributors : List Contributor}

/-- The code of an argument mentions what the factors of its tables do. -/
theorem argumentCode_completes {argument : Argument} {component : Nat}
    (hTables : ∀ request basis, (backend.elements.argument argument request).code = some basis →
      ∀ name, ¬Mentions basis name)
    (hContributors : backend.dimensions.contributors component place = .ok contributors) :
    let names := backend.tableNames place context
      (fun request => (backend.elements.argument argument request).code) contributors
    Completes (backend.argumentCode argument component place
        (directionTuples backend.dimensions.topological context.derivatives.length) context)
      (fun code => MentionExactly code.tokens names) names := by
  intro names
  have hOrder : Completes
      ((tableOrder (directionTuples backend.dimensions.topological context.derivatives.length)
        contributors).mapM fun pair => do
          let table := backend.elements.argument argument
            (backend.dimensions.tableRequest context pair.1 pair.2)
          let terms ← backend.basisTerms place context pair.1 pair.2 table.code
          return (table.key, terms))
      (List.Forall₂ (fun pair contribution => MentionExactly contribution.2
        ((backend.elements.argument argument
          (backend.dimensions.tableRequest context pair.1 pair.2)).code.toList.flatMap fun _ =>
            factorNames place context pair)) _) names :=
    .mapM fun pair _ =>
      (basisTerms_completes hAvailable place context pair.1 pair.2 (hTables _)).bind_pure
        fun _ hTerms => hTerms
  unfold argumentCode
  rw [hContributors]
  refine hOrder.bind_pure fun contributions hEach => ?_
  have hParts := MentionExactly.flatten ((List.forall₂_map_right_iff (f := Prod.snd)).mpr hEach)
  rw [← List.flatMap_def] at hParts
  exact hParts.gather hAvailable

/-- The code of a coefficient does as well. -/
theorem coefficientCode_completes {coefficient : Coefficient} {component : Nat}
    (hTables : ∀ request basis, backend.elements.coefficient coefficient request = some basis →
      ∀ name, ¬Mentions basis name)
    (hContributors : backend.dimensions.contributors component place = .ok contributors) :
    let names := backend.tableNames place context (backend.elements.coefficient coefficient)
      contributors
    Completes (backend.coefficientCode coefficient component place
        (directionTuples backend.dimensions.topological context.derivatives.length) context)
      (fun entry => MentionExactly entry.toList names) names := by
  intro names
  unfold coefficientCode
  rw [hContributors]
  refine Completes.bind_pure (Completes.mapM fun pair _ =>
    basisTerms_completes hAvailable place context pair.1 pair.2 (hTables _)) fun terms hEach => ?_
  exact (MentionExactly.flatten hEach).join hAvailable

end Tables

end Backend

/-! ### Leaves -/

namespace LowerM

/-- Whether an action that succeeds records the names of a list and returns code that
mentions them, no others in either case, and one that fails has no names. -/
def Declares (action : LowerM TensorCode) (names : List Token) : Prop :=
  Completes action (fun code => MentionExactly code.tokens names) names ∨
    Fails action ∧ names = []

namespace Declares

variable {action : LowerM TensorCode} {names : List Token}

theorem within (hAction : Declares action names) (expr : Expr) :
    Declares (LowerM.within expr action) names := by
  rcases hAction with hCompletes | ⟨hFails, hNames⟩
  · exact .inl (hCompletes.within expr)
  · exact .inr ⟨hFails.within expr, hNames⟩

theorem records_iff (hAction : Declares action names) {name : Token} :
    action.Records name ↔ name ∈ names := by
  rcases hAction with hCompletes | ⟨hFails, rfl⟩
  · exact hCompletes.records_iff
  · exact iff_of_false (hFails.not_records name) List.not_mem_nil

theorem mentionExactly (hAction : Declares action names) {code : TensorCode}
    (hReturns : action.Returns code) : MentionExactly code.tokens names := by
  rcases hAction with hCompletes | ⟨hFails, -⟩
  · exact hCompletes.property_of_returns hReturns
  · exact absurd hReturns (hFails.not_returns code)

theorem exists_returns (hAction : Declares action names) {name : Token} (hName : name ∈ names) :
    ∃ code, action.Returns code := by
  rcases hAction with hCompletes | ⟨-, rfl⟩
  · exact hCompletes.exists_returns
  · exact absurd hName List.not_mem_nil

end Declares

end LowerM

namespace Backend

variable {backend : Backend} {context : LoweringContext}

/-- What is done with the place of a component and its contributors. -/
theorem declares_element (backend : Backend) {element : Nat} {table : TableRequest → Entry}
    (next : Nat → ComponentPlace → LowerM TensorCode)
    (hFails : ∀ {component place fault},
      backend.dimensions.contributors component place = .error fault → Fails (next component place))
    (hCompletes : ∀ {component place contributors},
      backend.dimensions.contributors component place = .ok contributors →
        Completes (next component place)
          (fun code => MentionExactly code.tokens
            (backend.tableNames place context table contributors))
          (backend.tableNames place context table contributors)) :
    Declares (do
      let (component, place) ← LowerM.ofExcept (backend.elements.selected element context)
      next component place) (backend.elementNames element table context) := by
  unfold elementNames
  cases backend.elements.selected element context with
  | error fault => exact .inr ⟨(Fails.throw _).bind _, rfl⟩
  | ok found =>
      obtain ⟨component, place⟩ := found
      show Declares (next component place) (match backend.dimensions.contributors component place with
        | .error _ => []
        | .ok contributors => backend.tableNames place context table contributors)
      split
      · exact .inr ⟨hFails ‹_›, rfl⟩
      · exact .inl (hCompletes ‹_›)

/-- A component of the facet normal, which has no derivatives. -/
theorem declares_normal (hAvailable : backend.dialect.Available) :
    Declares (constantLeaf context (backend.normalCode context))
      (backend.leafNames context .facetNormal) := by
  obtain ⟨side, component, derivatives⟩ := context
  cases derivatives with
  | cons direction rest =>
      refine .inl (.pure ?_)
      rw [TensorCode.tokens_scalar]
      exact .nil
  | nil =>
      show Declares (backend.normalCode _) _
      unfold normalCode
      simp only [hAvailable.normal_eq]
      match component with
      | [] => exact .inr ⟨.throw _, rfl⟩
      | [component] =>
        refine .inl (.record_bind (.pure ?_))
        rw [TensorCode.tokens_scalar]
        exact .name (.normal side component)
      | _ :: _ :: _ => exact .inr ⟨.throw _, rfl⟩

variable {dialect : Dialect}

theorem declares_argument (hAvailable : dialect.Available) (catalog : ElementCatalog)
    (dimensions : CellDimensions) (basis : Argument) :
    Declares (lowerArgument ⟨dialect, catalog.tables, dimensions⟩ basis context)
      (leafNames ⟨dialect, catalog.tables, dimensions⟩ context (.argument basis)) := by
  let backend : Backend := ⟨dialect, catalog.tables, dimensions⟩
  let tuples := directionTuples dimensions.topological context.derivatives.length
  refine backend.declares_element
    (fun component place => backend.argumentCode basis component place tuples context)
    ?_ fun hContributors => argumentCode_completes hAvailable
    (fun _ _ hCode _ => catalog.not_mentions_argument hCode) hContributors
  intro component place fault hContributors
  unfold argumentCode
  rw [hContributors]
  exact .bind (.throw _) _

theorem declares_coefficient (hAvailable : dialect.Available) (catalog : ElementCatalog)
    (dimensions : CellDimensions) (field : Coefficient) :
    Declares (lowerCoefficient ⟨dialect, catalog.tables, dimensions⟩ field context)
      (leafNames ⟨dialect, catalog.tables, dimensions⟩ context (.coefficient field)) := by
  let backend : Backend := ⟨dialect, catalog.tables, dimensions⟩
  let tuples := directionTuples dimensions.topological context.derivatives.length
  refine backend.declares_element (fun component place => do
    return .scalar (← backend.coefficientCode field component place tuples context))
    ?_ fun hContributors => ?_
  · intro component place fault hContributors
    refine .bind ?_ _
    unfold coefficientCode
    rw [hContributors]
    exact .bind (.throw _) _
  · refine (coefficientCode_completes hAvailable
      (fun _ _ hCode _ => catalog.not_mentions_coefficient hCode) hContributors).bind_pure
        fun entry hEntry => ?_
    rw [TensorCode.tokens_scalar]
    exact hEntry

/-- The leaves that refer to geometric quantities record the names that their codes
mention. -/
theorem declares_leaf (hAvailable : dialect.Available) (catalog : ElementCatalog)
    (dimensions : CellDimensions) (context : LoweringContext) {leaf : Expr}
    (hLeaf : leaf.refersToGeometry = true) :
    Declares (lower ⟨dialect, catalog.tables, dimensions⟩ leaf context)
      (leafNames ⟨dialect, catalog.tables, dimensions⟩ context leaf) := by
  cases leaf with
  | facetNormal =>
      rw [lower]
      exact (declares_normal hAvailable).within _
  | argument basis =>
      rw [lower]
      exact (declares_argument hAvailable catalog dimensions basis).within _
  | coefficient field =>
      rw [lower]
      exact (declares_coefficient hAvailable catalog dimensions field).within _
  | _ => contradiction

end Backend

end FormLowering
