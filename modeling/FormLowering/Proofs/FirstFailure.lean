import FormLowering.Proofs.Declarations
import FormLowering.Proofs.Traversal.Failures

/-!
# The first failure is the one that is reported

Lowering evaluates the nodes of an expression from left to right, and a node after its
operands.  The first node that fails is at the end of this order: its operands have
succeeded, as has everything to the left of it, and the nodes around it, which are all
that is left, only hand on its error.  So it is the only node that fails although its
operands succeed (`FailsFirstAt.eq_of_evaluated`).

A node is found by its *position*, which lists the indices of the operands on the way
to it.  Equal subexpressions at different positions are different nodes, and may be
lowered in different contexts.
-/

namespace FormLowering

open LowerM

/-! ### Operands and positions -/

namespace Expr

/-- The operands of a node from left to right, with the contexts in which they are lowered. -/
def operandsIn (context : LoweringContext) : Expr → List (Expr × LoweringContext)
  | .sum operands => operands.map fun operand => (operand, context)
  | .product operands => operands.map fun operand => (operand, context)
  | .division operands => operands.map fun operand => (operand, context)
  | .power base exponent => [(base, context), (exponent, context)]
  | .abs operands => operands.map fun operand => (operand, context)
  | .elementary _ operands => operands.map fun operand => (operand, context)
  | .indexed operand component => [(operand, context.select component)]
  | .restricted operand restriction => [(operand, context.restrict restriction)]
  | .derivative operand direction => [(operand, context.differentiate direction)]
  | _ => []

@[simp]
theorem operandsIn_operation (context : LoweringContext) (operation : Operation)
    (operands : List Expr) :
    (operation.node operands).operandsIn context = operands.map fun operand => (operand, context) := by
  cases operation <;> rfl

@[simp]
theorem operandsIn_modifier (context : LoweringContext) (modifier : Modifier) (operand : Expr) :
    (modifier.node operand).operandsIn context = [(operand, modifier.apply context)] := by
  cases modifier <;> rfl

@[simp]
theorem operandsIn_constant (context : LoweringContext) (leaf : Constant) :
    leaf.expr.operandsIn context = [] := by
  cases leaf <;> rfl

/-- Induction from the operands of a node to the node. -/
theorem operand_induction {motive : Expr → Prop}
    (step : ∀ expr, (∀ context, ∀ operand ∈ expr.operandsIn context, motive operand.1) → motive expr)
    (expr : Expr) : motive expr := by
  induction expr using node_induction with
  | operation operation operands ih =>
      refine step _ fun context placed hPlaced => ?_
      rw [operandsIn_operation, List.mem_map] at hPlaced
      obtain ⟨operand, hOperand, rfl⟩ := hPlaced
      exact ih operand hOperand
  | power base exponent ihBase ihExponent =>
      refine step _ fun context => List.forall_mem_cons.mpr ⟨ihBase, ?_⟩
      exact List.forall_mem_singleton.mpr ihExponent
  | modifier modifier operand ih =>
      refine step _ fun context => ?_
      rw [operandsIn_modifier]
      exact List.forall_mem_singleton.mpr ih
  | argument basis => exact step _ fun _ _ hOperand => nomatch hOperand
  | coefficient field => exact step _ fun _ _ hOperand => nomatch hOperand
  | constant leaf =>
      refine step _ fun context => ?_
      rw [operandsIn_constant]
      exact List.forall_mem_nil _

end Expr

/-- Whether the node at a position has been evaluated before the one at another position
is.  Operands come from left to right, and before the node itself. -/
def EndsBefore : List Nat → List Nat → Prop
  | _ :: _, [] => True
  | index :: rest, other :: others => index < other ∨ index = other ∧ EndsBefore rest others
  | [], _ => False

namespace Backend

variable {backend : Backend} {context : LoweringContext} {error : LoweringError}

/-! ### Evaluated operands -/

/-- Whether an expression has code in a context, whatever has been recorded before. -/
def Succeeds (backend : Backend) (expr : Expr) (context : LoweringContext) : Prop :=
  ∃ code, ∀ names, ((backend.lower expr context).runWith names).1 = .ok code

/-- Whether an expression has an error in a context, whatever has been recorded before. -/
def FailsWith (backend : Backend) (expr : Expr) (context : LoweringContext)
    (error : LoweringError) : Prop :=
  ∀ names, ((backend.lower expr context).runWith names).1 = .error error

theorem succeeds_iff {expr : Expr} :
    backend.Succeeds expr context ↔ ∃ code, (backend.lower expr context).Returns code := by
  refine exists_congr fun code => ?_
  rw [(backend.lower_writeOnly expr context).returns_iff]
  refine ⟨fun hRuns => hRuns ∅, fun hRun names => ?_⟩
  rwa [(backend.lower_writeOnly expr context).runWith_eq]

theorem failsWith_iff {expr : Expr} :
    backend.FailsWith expr context error ↔ (backend.lower expr context).Raises error :=
  ⟨fun hRuns => ⟨∅, hRuns ∅⟩, (backend.lower_writeOnly expr context).runWith_of_raises⟩

theorem FailsWith.not_succeeds {expr : Expr} (hFails : backend.FailsWith expr context error) :
    ¬backend.Succeeds expr context := by
  rintro ⟨code, hRuns⟩
  have hRun := hRuns ∅
  rw [hFails ∅] at hRun
  contradiction

/-- Whether the exponent of a power is lowered. -/
def NeedsExponent (backend : Backend) (base exponent : Expr) (context : LoweringContext) : Prop :=
  exponent.exponentForm = .function ∧ ∃ code token, (backend.lower base context).Returns code ∧
    code.asScalar? = some (some token)

/-- The exponent is needed only if the base is a token. -/
theorem NeedsExponent.asScalar? {base exponent : Expr} {baseCode : TensorCode}
    (hNeeds : backend.NeedsExponent base exponent context)
    (hBase : (backend.lower base context).Returns baseCode) :
    ∃ token, baseCode.asScalar? = some (some token) := by
  obtain ⟨-, code, token, hReturns, hToken⟩ := hNeeds
  obtain rfl := (backend.lower_writeOnly base context).returns_unique hBase hReturns
  exact ⟨token, hToken⟩

/-- Whether lowering a node comes to lower an operand of it. -/
structure LowersOperand (backend : Backend) (node : Expr) (context : LoweringContext)
    (index : Nat) (operand : Expr) (inner : LoweringContext) : Prop where
  located : (node.operandsIn context)[index]? = some (operand, inner)
  /-- The operands to the left have succeeded. -/
  earlier : ∀ other ∈ (node.operandsIn context).take index, backend.Succeeds other.1 other.2
  exponent : ∀ base exponent, node = .power base exponent → index = 1 →
    backend.NeedsExponent base exponent context

namespace LowersOperand

variable {node operand : Expr} {inner : LoweringContext} {index : Nat}

theorem mem (hOperand : backend.LowersOperand node context index operand inner) :
    (operand, inner) ∈ node.operandsIn context :=
  List.mem_of_getElem? hOperand.located

/-- The operands to the left of one that is lowered succeed. -/
theorem succeeds_of_lt {other : Expr} {outer : LoweringContext} {left : Nat}
    (hOperand : backend.LowersOperand node context index operand inner)
    (hOther : backend.LowersOperand node context left other outer) (hLeft : left < index) :
    backend.Succeeds other outer := by
  refine hOperand.earlier (other, outer) (List.mem_of_getElem? (i := left) ?_)
  rw [List.getElem?_take_of_lt hLeft, hOther.located]

theorem unique {other : Expr} {outer : LoweringContext}
    (hOperand : backend.LowersOperand node context index operand inner)
    (hOther : backend.LowersOperand node context index other outer) :
    operand = other ∧ inner = outer :=
  Prod.mk.inj (Option.some.inj (hOperand.located.symm.trans hOther.located))

theorem of_split {operation : Operation} {before after : List Expr}
    (hBefore : ∀ earlier ∈ before, ∃ code, (backend.lower earlier context).Returns code) :
    backend.LowersOperand (operation.node (before ++ operand :: after)) context before.length
      operand context where
  located := by simp
  earlier := by
    rw [Expr.operandsIn_operation, List.map_append, List.take_left' (by simp)]
    intro other hOther
    obtain ⟨earlier, hEarlier, rfl⟩ := List.mem_map.mp hOther
    exact succeeds_iff.mpr (hBefore earlier hEarlier)
  exponent base exponent hPower := by cases operation <;> contradiction

theorem of_base (base exponent : Expr) :
    backend.LowersOperand (.power base exponent) context 0 base context where
  located := rfl
  earlier := List.forall_mem_nil _
  exponent _ _ _ hIndex := by contradiction

theorem of_exponent {base exponent : Expr} (hNeeds : backend.NeedsExponent base exponent context) :
    backend.LowersOperand (.power base exponent) context 1 exponent context where
  located := rfl
  earlier := by
    obtain ⟨-, code, -, hBase, -⟩ := hNeeds
    exact List.forall_mem_singleton.mpr (succeeds_iff.mpr ⟨code, hBase⟩)
  exponent _ _ hPower _ := by
    cases hPower
    exact hNeeds

theorem of_modified (modifier : Modifier) (operand : Expr) :
    backend.LowersOperand (modifier.node operand) context 0 operand (modifier.apply context) where
  located := by simp
  earlier := List.forall_mem_nil _
  exponent base exponent hPower := by cases modifier <;> contradiction

/-- The operands of a power are its base, and its exponent if that is needed. -/
theorem cases_power {base exponent : Expr}
    (hOperand : backend.LowersOperand (.power base exponent) context index operand inner) :
    inner = context ∧ (operand = base ∨
      operand = exponent ∧ backend.NeedsExponent base exponent context) := by
  match index, hOperand with
  | 0, hOperand =>
      cases hOperand.located
      exact ⟨rfl, .inl rfl⟩
  | 1, hOperand =>
      cases hOperand.located
      exact ⟨rfl, .inr ⟨rfl, hOperand.exponent _ _ rfl rfl⟩⟩
  | _ + 2, hOperand => exact nomatch hOperand.located

end LowersOperand

/-! ### Success and failure of a node -/

/-- Where a node succeeds, so do the operands that it lowers. -/
theorem Succeeds.operand {node operand : Expr} {inner : LoweringContext} {index : Nat}
    (hNode : backend.Succeeds node context)
    (hOperand : backend.LowersOperand node context index operand inner) :
    backend.Succeeds operand inner := by
  obtain ⟨code, hCode⟩ := succeeds_iff.mp hNode
  have hMem := hOperand.mem
  rw [succeeds_iff]
  cases node using Expr.node_induction with
  | operation operation operands _ =>
      rw [Expr.operandsIn_operation, List.mem_map] at hMem
      obtain ⟨_, hIn, hPlaced⟩ := hMem
      cases hPlaced
      obtain ⟨codes, hCodes, -⟩ := returns_operation.mp hCode
      obtain ⟨operandCode, -, hReturns⟩ := exists_of_mem_left hCodes hIn
      exact ⟨operandCode, hReturns⟩
  | power base exponent _ _ =>
      obtain ⟨baseCode, entry, power, hBase, hEntry, -, hPower⟩ := returns_power hCode
      obtain ⟨rfl, rfl | ⟨rfl, hNeeds⟩⟩ := hOperand.cases_power
      · exact ⟨baseCode, hBase⟩
      · obtain ⟨token, hToken⟩ := hNeeds.asScalar? hBase
        obtain rfl := Option.some.inj (hEntry.symm.trans hToken)
        obtain ⟨result, -, hResult⟩ := hPower
        rw [hNeeds.1] at hResult
        obtain ⟨exponentCode, hExponent, -⟩ := hResult.exists_of_bind
        exact ⟨exponentCode, hExponent⟩
  | modifier modifier other _ =>
      rw [Expr.operandsIn_modifier, List.mem_singleton] at hMem
      cases hMem
      exact ⟨code, returns_modifier.mp hCode⟩
  | argument basis => exact nomatch hMem
  | coefficient field => exact nomatch hMem
  | constant leaf =>
      rw [Expr.operandsIn_constant] at hMem
      exact nomatch hMem

/-- If the base of a power succeeds, and its exponent where it is needed, then so does every
operand that is lowered. -/
theorem succeeds_operand_of_power {base exponent : Expr} {baseCode : TensorCode}
    (hBase : (backend.lower base context).Returns baseCode)
    (hExponent : backend.NeedsExponent base exponent context → backend.Succeeds exponent context)
    (index : Nat) (operand : Expr) (inner : LoweringContext)
    (hOperand : backend.LowersOperand (.power base exponent) context index operand inner) :
    backend.Succeeds operand inner := by
  obtain ⟨rfl, rfl | ⟨rfl, hNeeds⟩⟩ := hOperand.cases_power
  · exact succeeds_iff.mpr ⟨baseCode, hBase⟩
  · exact hExponent hNeeds

/-- Where the error of a node comes from. -/
inductive ErrorOrigin (backend : Backend) (node : Expr) (context : LoweringContext)
    (error : LoweringError) : Prop
  /-- An operand has failed. -/
  | operand {index : Nat} {operand : Expr} {inner : LoweringContext}
    (hOperand : backend.LowersOperand node context index operand inner)
    (hFails : backend.FailsWith operand inner error)
  /-- The operands have succeeded, and the error names the node. -/
  | own (hNames : error.context = some node.render)
    (hOperands : ∀ index operand inner, backend.LowersOperand node context index operand inner →
      backend.Succeeds operand inner)

/-- A power fails with its base, with its exponent where that is needed, or for what their
codes are. -/
theorem errorOrigin_of_power {base exponent : Expr}
    (hRaises : (backend.lower (.power base exponent) context).Raises error) :
    backend.ErrorOrigin (.power base exponent) context error := by
  rcases raises_power hRaises with hBase | ⟨baseCode, inner, hBase, rfl, hCause⟩
  · exact .operand (.of_base base exponent) (failsWith_iff.mpr hBase)
  have hOwn (hContext : inner.context = none) (hExponent :
      backend.NeedsExponent base exponent context → backend.Succeeds exponent context) :
      backend.ErrorOrigin (.power base exponent) context (inner.within (.power base exponent)) :=
    .own (by rw [LoweringError.within_of_no_context hContext])
      (succeeds_operand_of_power hBase hExponent)
  rcases hCause with ⟨hEntry, rfl⟩ | ⟨fault, hEntry, rfl, -⟩ | ⟨token, hEntry, hInner⟩
  · refine hOwn rfl fun hNeeds => ?_
    obtain ⟨token, hToken⟩ := hNeeds.asScalar? hBase
    exact nomatch hEntry.symm.trans hToken
  · refine hOwn rfl fun hNeeds => ?_
    obtain ⟨token, hToken⟩ := hNeeds.asScalar? hBase
    exact nomatch hEntry.symm.trans hToken
  · rcases raises_powerOf hInner with
      ⟨hForm, rfl⟩ | ⟨hForm, hExponent | ⟨code, hExponent, -, rfl⟩⟩
    · exact hOwn rfl fun hNeeds => nomatch hForm.symm.trans hNeeds.1
    · rw [within_of_raises hExponent]
      exact .operand (.of_exponent ⟨hForm, baseCode, token, hBase, hEntry⟩)
        (failsWith_iff.mpr hExponent)
    · exact hOwn rfl fun _ => succeeds_iff.mpr ⟨code, hExponent⟩

/-- A node fails with the error of an operand that it lowers, or else all of these succeed,
and the error names the node. -/
theorem FailsWith.origin {node : Expr} (hNode : backend.FailsWith node context error) :
    backend.ErrorOrigin node context error := by
  have hRaises := failsWith_iff.mp hNode
  cases node using Expr.node_induction with
  | operation operation operands _ =>
      rcases raises_operation hRaises with
        ⟨before, operand, after, rfl, hBefore, hOperand⟩ | ⟨codes, fault, hCodes, -, rfl⟩
      · exact .operand (.of_split hBefore) (failsWith_iff.mpr hOperand)
      · refine .own rfl fun index operand inner hOperand => ?_
        have hMem := hOperand.mem
        rw [Expr.operandsIn_operation, List.mem_map] at hMem
        obtain ⟨_, hIn, hPlaced⟩ := hMem
        cases hPlaced
        obtain ⟨code, -, hReturns⟩ := exists_of_mem_left hCodes hIn
        exact succeeds_iff.mpr ⟨code, hReturns⟩
  | power base exponent _ _ => exact errorOrigin_of_power hRaises
  | modifier modifier operand _ =>
      rw [lower_modified] at hRaises
      exact .operand (.of_modified modifier operand) (failsWith_iff.mpr hRaises)
  | argument basis =>
      rw [lower] at hRaises
      exact .own ((backend.lowerArgument_bare context basis).raises_within hRaises)
        fun _ _ _ hOperand => absurd hOperand.mem List.not_mem_nil
  | coefficient field =>
      rw [lower] at hRaises
      exact .own ((backend.lowerCoefficient_bare context field).raises_within hRaises)
        fun _ _ _ hOperand => absurd hOperand.mem List.not_mem_nil
  | constant leaf =>
      rw [lower_constant] at hRaises
      refine .own ((backend.constantLeaf_bare context leaf).raises_within hRaises) ?_
      intro index operand inner hOperand
      have hMem := hOperand.mem
      rw [Expr.operandsIn_constant] at hMem
      exact absurd hMem List.not_mem_nil

/-! ### Evaluated nodes -/

/-- Whether the node at a position is evaluated, and in which context, when lowering
evaluates an expression in a context. -/
inductive EvaluatesAt (backend : Backend) :
    List Nat → Expr → LoweringContext → Expr → LoweringContext → Prop
  | self (expr : Expr) (context : LoweringContext) : EvaluatesAt backend [] expr context expr context
  | operand {node operand part : Expr} {context middle inner : LoweringContext} {index : Nat}
    {position : List Nat} (hOperand : backend.LowersOperand node context index operand middle)
    (hPart : EvaluatesAt backend position operand middle part inner) :
    EvaluatesAt backend (index :: position) node context part inner

theorem LowersOperand.evaluates {node operand part : Expr} {middle inner : LoweringContext}
    {index : Nat} (hOperand : backend.LowersOperand node context index operand middle)
    (hPart : backend.Evaluates operand middle part inner) :
    backend.Evaluates node context part inner := by
  cases node using Expr.node_induction with
  | operation operation operands _ =>
      have hLocated := hOperand.located
      rw [Expr.operandsIn_operation, List.getElem?_map, Option.map_eq_some_iff] at hLocated
      obtain ⟨_, hLocated, hPlaced⟩ := hLocated
      cases hPlaced
      obtain ⟨hIndex, rfl⟩ := List.getElem?_eq_some_iff.mp hLocated
      rw [← List.take_append_drop index operands, List.drop_eq_getElem_cons hIndex]
      refine .operand (fun earlier hEarlier => succeeds_iff.mp ?_) hPart
      refine hOperand.earlier (earlier, context) ?_
      rw [Expr.operandsIn_operation, ← List.map_take]
      exact List.mem_map_of_mem hEarlier
  | power base exponent _ _ =>
      obtain ⟨rfl, rfl | ⟨rfl, hForm, baseCode, token, hBase, hToken⟩⟩ := hOperand.cases_power
      · exact .base hPart
      · exact .exponent hBase hToken hForm hPart
  | modifier modifier other _ =>
      have hMem := hOperand.mem
      rw [Expr.operandsIn_modifier, List.mem_singleton] at hMem
      cases hMem
      exact .modified hPart
  | argument basis => exact nomatch hOperand.mem
  | coefficient field => exact nomatch hOperand.mem
  | constant leaf =>
      have hMem := hOperand.mem
      rw [Expr.operandsIn_constant] at hMem
      exact nomatch hMem

/-- Where an expression succeeds, so do all nodes that are evaluated. -/
theorem EvaluatesAt.succeeds {expr part : Expr} {inner : LoweringContext} {position : List Nat}
    (hPart : backend.EvaluatesAt position expr context part inner)
    (hExpr : backend.Succeeds expr context) : backend.Succeeds part inner := by
  induction hPart with
  | self expr context => exact hExpr
  | operand hOperand _ ih => exact ih (hExpr.operand hOperand)

/-- What is evaluated below a node is found from that node by the rest of its position. -/
theorem EvaluatesAt.of_append {expr node part : Expr} {outer inner : LoweringContext}
    {position rest : List Nat} (hNode : backend.EvaluatesAt position expr context node outer)
    (hPart : backend.EvaluatesAt (position ++ rest) expr context part inner) :
    backend.EvaluatesAt rest node outer part inner := by
  induction hNode with
  | self expr context => exact hPart
  | operand hOperand _ ih =>
      cases hPart with
      | operand hOther hPart =>
          obtain ⟨rfl, rfl⟩ := hOperand.unique hOther
          exact ih hPart

/-- The positions of a part are those at which it is evaluated. -/
theorem evaluates_iff {expr part : Expr} {inner : LoweringContext} :
    backend.Evaluates expr context part inner ↔
      ∃ position, backend.EvaluatesAt position expr context part inner := by
  constructor
  · intro hPart
    induction hPart with
    | self expr context => exact ⟨[], .self expr context⟩
    | operand hBefore _ ih =>
        obtain ⟨position, hPart⟩ := ih
        exact ⟨_, .operand (.of_split hBefore) hPart⟩
    | @base base exponent part context inner _ ih =>
        obtain ⟨position, hPart⟩ := ih
        exact ⟨_, .operand (.of_base base exponent) hPart⟩
    | exponent hBase hToken hForm _ ih =>
        obtain ⟨position, hPart⟩ := ih
        exact ⟨_, .operand (.of_exponent ⟨hForm, _, _, hBase, hToken⟩) hPart⟩
    | @modified modifier operand part context inner _ ih =>
        obtain ⟨position, hPart⟩ := ih
        exact ⟨_, .operand (.of_modified modifier operand) hPart⟩
  · rintro ⟨position, hPart⟩
    induction hPart with
    | self expr context => exact .self expr context
    | operand hOperand _ ih => exact hOperand.evaluates ih

/-! ### The first failure -/

/-- Whether an error comes from the node at a position, which is the first to fail. -/
structure FailsFirstAt (backend : Backend) (expr : Expr) (context : LoweringContext)
    (error : LoweringError) (position : List Nat) (part : Expr) (inner : LoweringContext) :
    Prop where
  evaluated : backend.EvaluatesAt position expr context part inner
  names_part : error.context = some part.render
  fails : backend.FailsWith part inner error
  operands : ∀ index operand innermost,
    backend.LowersOperand part inner index operand innermost → backend.Succeeds operand innermost
  earlier : ∀ other node outer, backend.EvaluatesAt other expr context node outer →
    EndsBefore other position → backend.Succeeds node outer
  /-- Only the nodes around the first failure come after it. -/
  last : ∀ other node outer, backend.EvaluatesAt other expr context node outer →
    EndsBefore other position ∨ other <+: position ∧ backend.FailsWith node outer error

namespace FailsFirstAt

variable {expr : Expr}

/-- A node whose operands succeed is the first to fail. -/
theorem of_own (hExpr : backend.FailsWith expr context error)
    (hNames : error.context = some expr.render)
    (hOperands : ∀ index operand inner, backend.LowersOperand expr context index operand inner →
      backend.Succeeds operand inner) :
    backend.FailsFirstAt expr context error [] expr context where
  evaluated := .self expr context
  names_part := hNames
  fails := hExpr
  operands := hOperands
  earlier other node outer hNode hBefore := by
    cases hNode with
    | self => exact hBefore.elim
    | operand hOperand hPart => exact hPart.succeeds (hOperands _ _ _ hOperand)
  last other node outer hNode := by
    cases hNode with
    | self => exact .inr ⟨List.nil_prefix, hExpr⟩
    | operand hOperand hPart => exact .inl trivial

/-- The first failure of an operand that fails is that of the node. -/
theorem of_operand {operand part : Expr} {middle inner : LoweringContext} {index : Nat}
    {position : List Nat} (hExpr : backend.FailsWith expr context error)
    (hOperand : backend.LowersOperand expr context index operand middle)
    (hFails : backend.FailsWith operand middle error)
    (hFirst : backend.FailsFirstAt operand middle error position part inner) :
    backend.FailsFirstAt expr context error (index :: position) part inner where
  evaluated := .operand hOperand hFirst.evaluated
  names_part := hFirst.names_part
  fails := hFirst.fails
  operands := hFirst.operands
  earlier other node outer hNode hBefore := by
    cases hNode with
    | self => exact hBefore.elim
    | operand hOther hPart =>
        rcases hBefore with hLeft | ⟨rfl, hBefore⟩
        · exact hPart.succeeds (hOperand.succeeds_of_lt hOther hLeft)
        · obtain ⟨rfl, rfl⟩ := hOperand.unique hOther
          exact hFirst.earlier _ _ _ hPart hBefore
  last other node outer hNode := by
    cases hNode with
    | self => exact .inr ⟨List.nil_prefix, hExpr⟩
    | @operand _ other _ _ outer _ left _ hOther hPart =>
        rcases lt_trichotomy left index with hLeft | rfl | hRight
        · exact .inl (.inl hLeft)
        · obtain ⟨rfl, rfl⟩ := hOperand.unique hOther
          rcases hFirst.last _ _ _ hPart with hBefore | ⟨hPrefix, hAround⟩
          · exact .inl (.inr ⟨rfl, hBefore⟩)
          · exact .inr ⟨List.cons_prefix_cons.mpr ⟨rfl, hPrefix⟩, hAround⟩
        · -- To come to an operand on the right, this one would have had to succeed.
          exact absurd (hOther.succeeds_of_lt hOperand hRight) hFails.not_succeeds

/-- No other node fails although its operands succeed, so that such a node is the first
failure. -/
theorem eq_of_evaluated {part node : Expr} {inner outer : LoweringContext}
    {position other : List Nat}
    (hFirst : backend.FailsFirstAt expr context error position part inner)
    (hNode : backend.EvaluatesAt other expr context node outer)
    (hFails : ¬backend.Succeeds node outer)
    (hOperands : ∀ index operand innermost,
      backend.LowersOperand node outer index operand innermost →
        backend.Succeeds operand innermost) :
    position = other ∧ part = node ∧ inner = outer := by
  rcases hFirst.last other node outer hNode with hBefore | ⟨⟨rest, rfl⟩, -⟩
  · exact absurd (hFirst.earlier other node outer hNode hBefore) hFails
  · have hRest : backend.EvaluatesAt rest node outer part inner := hNode.of_append hFirst.evaluated
    cases hRest with
    | self => exact ⟨List.append_nil other, rfl, rfl⟩
    | operand hOperand hPart =>
        -- Nothing fails inside of the node.
        exact absurd (hPart.succeeds (hOperands _ _ _ hOperand)) hFirst.fails.not_succeeds

end FailsFirstAt

/-- An expression that fails has a first failure, and its error is that of this node. -/
theorem fails_at_innermost (backend : Backend) (expr : Expr) (context : LoweringContext)
    (names recorded : GeometryNames) (error : LoweringError)
    (hRun : (backend.lower expr context).runWith names = (.error error, recorded)) :
    ∃ position part inner, backend.FailsFirstAt expr context error position part inner := by
  have hFails : backend.FailsWith expr context error := failsWith_iff.mpr ⟨names, by rw [hRun]⟩
  clear hRun
  induction expr using Expr.operand_induction generalizing context with
  | step expr ih =>
      rcases hFails.origin with ⟨hOperand, hFailsOperand⟩ | ⟨hNames, hOperands⟩
      · obtain ⟨position, part, inner, hFirst⟩ := ih context _ hOperand.mem _ hFailsOperand
        exact ⟨_, part, inner, .of_operand hFails hOperand hFailsOperand hFirst⟩
      · exact ⟨[], expr, context, .of_own hFails hNames hOperands⟩

/-- Of two divisions by zero the first is reported, the second operand of the sum.  The side
that it is lowered on is known to its context and does not stand in its text. -/
theorem fails_at_innermost_division :
    let backend : Backend := ⟨.cpp none, ElementCatalog.tables ⟨#[], []⟩, {}⟩
    let first : Expr := .division [.indexed .facetNormal [0], .zero]
    let expr : Expr := .restricted (.sum [.symbol "a", first, .division [.symbol "b", .zero]]) .positive
    let error : LoweringError := ⟨.divisionByZero, some "(n[0] / 0)"⟩
    (backend.lower expr {}).runWith ∅ = (.error error, .ofList ["n0_0"]) ∧
      backend.FailsFirstAt expr {} error [0, 1] first { restriction := .positive } := by
  intro backend first expr error
  have hRun : (backend.lower expr {}).runWith ∅ = (.error error, .ofList ["n0_0"]) := by
    decide +kernel
  obtain ⟨position, part, inner, hFirst⟩ := fails_at_innermost backend expr {} ∅ _ error hRun
  let side : LoweringContext := { restriction := .positive }
  let operands : List Expr := [.symbol "a"] ++ first :: [.division [.symbol "b", .zero]]
  have hBefore : ∀ earlier ∈ [Expr.symbol "a"], ∃ code, (backend.lower earlier side).Returns code :=
    List.forall_mem_singleton.mpr ⟨.scalar (some "a"), ∅, ∅, rfl⟩
  have hNode : backend.EvaluatesAt [0, 1] expr {} first side :=
    .operand (.of_modified (.restrict .positive) (Operation.sum.node operands))
      (.operand (.of_split hBefore) (.self first side))
  have hFails : backend.FailsWith first side error := failsWith_iff.mpr ⟨∅, by decide +kernel⟩
  have hOperands : ∀ operand ∈ first.operandsIn side, backend.Succeeds operand.1 operand.2 := by
    refine List.forall_mem_cons.mpr ⟨?_, List.forall_mem_singleton.mpr ?_⟩
    · exact succeeds_iff.mpr ⟨.scalar (some "n0_0"), ∅, _, rfl⟩
    · exact succeeds_iff.mpr ⟨.scalar none, ∅, ∅, rfl⟩
  obtain ⟨rfl, rfl, rfl⟩ := hFirst.eq_of_evaluated hNode hFails.not_succeeds
    fun _ _ _ hOperand => hOperands _ hOperand.mem
  exact ⟨hRun, hFirst⟩

end Backend

end FormLowering
