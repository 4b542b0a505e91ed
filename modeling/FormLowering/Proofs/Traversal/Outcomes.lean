import FormLowering.Proofs.Traversal.WriteOnly

/-!
# What actions return and record

An action *returns* a value if it succeeds with it, and *records* a name if the name
is there when the action has run on its own, also if it failed.  Since lowering is
write-only, both are composed from the steps: what comes second adds to what the
first step recorded, and only if the first step returned.

The equations for the nodes of an expression say which of its operands are lowered.
The operands of an operation are, up to the first that fails.  The exponent of a power
is only if it is a function and the base is not symbolic zero.
-/

namespace FormLowering

namespace LowerM

variable {α β : Type}

/-! ### Returning -/

theorem returns_iff {action : LowerM α} {value : α} :
    action.Returns value ↔ ∃ names, (action.runWith names).1 = .ok value := by
  unfold Returns runWith
  refine exists_congr fun names => ?_
  cases action.run names with
  | ok result recorded =>
      constructor
      · rintro ⟨_, hRun⟩
        cases hRun
        rfl
      · intro hRun
        cases hRun
        exact ⟨recorded, rfl⟩
  | error error recorded =>
      constructor
      · rintro ⟨_, hRun⟩
        cases hRun
      · intro hRun
        cases hRun

/-- A write-only action returns what it returns on its own. -/
theorem WriteOnly.returns_iff {action : LowerM α} (hAction : WriteOnly action) {value : α} :
    action.Returns value ↔ (action.runWith ∅).1 = .ok value := by
  rw [LowerM.returns_iff]
  constructor
  · rintro ⟨names, hRun⟩
    rwa [hAction.runWith_eq names] at hRun
  · exact fun hRun => ⟨∅, hRun⟩

theorem WriteOnly.runWith_of_returns {action : LowerM α} {value : α} (hAction : WriteOnly action)
    (hReturns : action.Returns value) (names : GeometryNames) :
    (action.runWith names).1 = .ok value := by
  rw [hAction.runWith_eq]
  exact hAction.returns_iff.mp hReturns

@[simp]
theorem returns_pure {value result : α} : (pure value : LowerM α).Returns result ↔ value = result := by
  simp [returns_iff, runWith_pure]

@[simp]
theorem not_returns_throw {error : LoweringError} {value : α} :
    ¬(throw error : LowerM α).Returns value := by
  simp [returns_iff, runWith_throw]

@[simp]
theorem returns_ofExcept {result : Except Fault α} {value : α} :
    (ofExcept result).Returns value ↔ result = .ok value := by
  simp only [returns_iff, runWith_ofExcept, exists_const]
  cases result <;> simp [Except.mapError]

@[simp]
theorem returns_within {expr : Expr} {action : LowerM α} {value : α} :
    (within expr action).Returns value ↔ action.Returns value := by
  simp only [returns_iff, runWith_within]
  refine exists_congr fun names => ?_
  cases (action.runWith names).1 <;> simp [Except.mapError]

/-- The steps of an action that returns have returned. -/
theorem Returns.exists_of_bind {action : LowerM α} {next : α → LowerM β} {result : β}
    (hReturns : (action >>= next).Returns result) :
    ∃ value, action.Returns value ∧ (next value).Returns result := by
  obtain ⟨names, hRun⟩ := returns_iff.mp hReturns
  rw [runWith_bind] at hRun
  split at hRun
  · rename_i value recorded hFirst
    exact ⟨value, returns_iff.mpr ⟨names, by rw [hFirst]⟩, returns_iff.mpr ⟨recorded, hRun⟩⟩
  · cases hRun

/-- An action returns if its steps do, one after the other. -/
theorem Returns.bind {action : LowerM α} {next : α → LowerM β} {value : α} {result : β}
    (hFirst : action.Returns value) (hSecond : (next value).Returns result)
    (hAction : WriteOnly action) (hNext : WriteOnly (next value)) :
    (action >>= next).Returns result := by
  rw [hAction.returns_iff] at hFirst
  rw [hNext.returns_iff] at hSecond
  refine LowerM.returns_iff.mpr ⟨∅, ?_⟩
  rw [runWith_bind]
  generalize action.runWith ∅ = ran at hFirst
  obtain ⟨answer, recorded⟩ := ran
  subst hFirst
  show ((next value).runWith recorded).1 = .ok result
  rw [hNext.runWith_eq recorded]
  exact hSecond

theorem WriteOnly.returns_bind {action : LowerM α} {next : α → LowerM β} {result : β}
    (hAction : WriteOnly action) (hNext : ∀ value, WriteOnly (next value)) :
    (action >>= next).Returns result ↔ ∃ value, action.Returns value ∧ (next value).Returns result :=
  ⟨Returns.exists_of_bind, fun ⟨value, hFirst, hSecond⟩ => hFirst.bind hSecond hAction (hNext value)⟩

/-- Lists of values are returned one by one. -/
theorem Returns.forall₂_of_mapM {values : List α} {change : α → LowerM β} {results : List β}
    (hReturns : (values.mapM change).Returns results) :
    List.Forall₂ (fun value result => (change value).Returns result) values results := by
  induction values generalizing results with
  | nil =>
      rw [List.mapM_nil, returns_pure] at hReturns
      subst hReturns
      exact .nil
  | cons value rest ih =>
      rw [List.mapM_cons] at hReturns
      obtain ⟨first, hFirst, hReturns⟩ := hReturns.exists_of_bind
      obtain ⟨others, hOthers, hReturns⟩ := hReturns.exists_of_bind
      obtain rfl := returns_pure.mp hReturns
      exact .cons hFirst (ih hOthers)

/-! ### Recording -/

/-- Whether a name is recorded when an action runs on its own. -/
def Records (action : LowerM α) (name : Token) : Prop :=
  name ∈ (action.runWith ∅).2

/-- The names that are left by an action are those from before and those it records. -/
theorem WriteOnly.mem_runWith {action : LowerM α} (hAction : WriteOnly action)
    {names : GeometryNames} {name : Token} :
    name ∈ (action.runWith names).2 ↔ name ∈ names ∨ action.Records name := by
  rw [hAction.runWith_eq names, SortedSet.mem_union]
  rfl

@[simp]
theorem not_records_pure {value : α} {name : Token} : ¬(pure value : LowerM α).Records name :=
  SortedSet.not_mem_empty

@[simp]
theorem not_records_throw {error : LoweringError} {name : Token} :
    ¬(throw error : LowerM α).Records name :=
  SortedSet.not_mem_empty

@[simp]
theorem not_records_ofExcept {result : Except Fault α} {name : Token} :
    ¬(ofExcept result).Records name := by
  rw [Records, runWith_ofExcept]
  exact SortedSet.not_mem_empty

@[simp]
theorem records_within {expr : Expr} {action : LowerM α} {name : Token} :
    (within expr action).Records name ↔ action.Records name := by
  rw [Records, runWith_within]
  rfl

/-- A second step records only if the first one returns. -/
theorem WriteOnly.records_bind {action : LowerM α} {next : α → LowerM β} {name : Token}
    (hAction : WriteOnly action) (hNext : ∀ value, WriteOnly (next value)) :
    (action >>= next).Records name ↔
      action.Records name ∨ ∃ value, action.Returns value ∧ (next value).Records name := by
  simp only [hAction.returns_iff]
  unfold Records
  rw [runWith_bind]
  generalize action.runWith ∅ = ran
  obtain ⟨answer, recorded⟩ := ran
  cases answer with
  | ok value =>
      show name ∈ ((next value).runWith recorded).2 ↔ _
      rw [(hNext value).runWith_eq recorded, SortedSet.mem_union]
      simp
  | error error => simp

/-- Computing with the value of an action records nothing more. -/
theorem WriteOnly.records_bind_pure {action : LowerM α} {name : Token} (hAction : WriteOnly action)
    (change : α → β) :
    (action >>= fun value => Pure.pure (change value)).Records name ↔ action.Records name := by
  rw [hAction.records_bind fun _ => .pure _]
  simp

end LowerM

open LowerM

/-! ### Nodes -/

namespace Backend

variable {backend : Backend} {context : LoweringContext} {code : TensorCode} {name : Token}

theorem returns_lowerAll {operands : List Expr} {codes : List TensorCode} :
    (backend.lowerAll operands context).Returns codes ↔
      List.Forall₂ (fun operand code => (backend.lower operand context).Returns code) operands
        codes := by
  induction operands generalizing codes with
  | nil => simp [lowerAll, eq_comm]
  | cons operand rest ih =>
      have hRest := backend.lowerAll_writeOnly rest context
      have hPure : ∀ first (others : List TensorCode), WriteOnly (pure (first :: others)) :=
        fun first others => .pure _
      rw [lowerAll, (backend.lower_writeOnly operand context).returns_bind fun first =>
        hRest.bind (hPure first)]
      simp only [hRest.returns_bind (hPure _), returns_pure, ih]
      constructor
      · rintro ⟨first, hFirst, others, hOthers, rfl⟩
        exact .cons hFirst hOthers
      · rintro (_ | ⟨hFirst, hOthers⟩)
        exact ⟨_, hFirst, _, hOthers, rfl⟩

/-- Operands are lowered from left to right, up to the first that fails. -/
theorem records_lowerAll {operands : List Expr} :
    (backend.lowerAll operands context).Records name ↔
      ∃ before operand after, operands = before ++ operand :: after ∧
        (∀ earlier ∈ before, ∃ code, (backend.lower earlier context).Returns code) ∧
          (backend.lower operand context).Records name := by
  induction operands with
  | nil => simp [lowerAll]
  | cons operand rest ih =>
      have hRest := backend.lowerAll_writeOnly rest context
      rw [lowerAll, (backend.lower_writeOnly operand context).records_bind fun first =>
        hRest.bind fun others => .pure (first :: others)]
      simp only [hRest.records_bind_pure, ih]
      constructor
      · rintro (hName | ⟨code, hReturns, before, other, after, rfl, hBefore, hName⟩)
        · exact ⟨[], operand, rest, rfl, by simp, hName⟩
        · exact ⟨operand :: before, other, after, rfl,
            List.forall_mem_cons.mpr ⟨⟨code, hReturns⟩, hBefore⟩, hName⟩
      · rintro ⟨before, other, after, hOperands, hBefore, hName⟩
        cases before with
        | nil =>
            cases hOperands
            exact .inl hName
        | cons first before =>
            cases hOperands
            rw [List.forall_mem_cons] at hBefore
            obtain ⟨⟨code, hReturns⟩, hBefore⟩ := hBefore
            exact .inr ⟨code, hReturns, before, other, after, rfl, hBefore, hName⟩

theorem returns_operation {operation : Operation} {operands : List Expr} :
    (backend.lower (operation.node operands) context).Returns code ↔
      ∃ codes, List.Forall₂ (fun operand code => (backend.lower operand context).Returns code)
          operands codes ∧ operation.combine backend.dialect codes = .ok code := by
  rw [lower_operation, returns_within,
    (backend.lowerAll_writeOnly operands context).returns_bind fun _ => .ofExcept _]
  simp only [returns_lowerAll, returns_ofExcept]

theorem records_operation {operation : Operation} {operands : List Expr} :
    (backend.lower (operation.node operands) context).Records name ↔
      ∃ before operand after, operands = before ++ operand :: after ∧
        (∀ earlier ∈ before, ∃ code, (backend.lower earlier context).Returns code) ∧
          (backend.lower operand context).Records name := by
  rw [lower_operation, records_within,
    (backend.lowerAll_writeOnly operands context).records_bind fun _ => .ofExcept _]
  simp only [not_records_ofExcept, and_false, exists_false, or_false, records_lowerAll]

theorem returns_modifier {modifier : Modifier} {operand : Expr} :
    (backend.lower (modifier.node operand) context).Returns code ↔
      (backend.lower operand (modifier.apply context)).Returns code := by
  rw [lower_modifier, returns_within]

theorem records_modifier {modifier : Modifier} {operand : Expr} :
    (backend.lower (modifier.node operand) context).Records name ↔
      (backend.lower operand (modifier.apply context)).Records name := by
  rw [lower_modifier, records_within]

theorem returns_constant {leaf : Constant} :
    (backend.lower leaf.expr context).Returns code ↔
      if context.derivatives.isEmpty then (leaf.code backend context).Returns code
      else code = .scalar none := by
  rw [lower_constant, returns_within, constantLeaf]
  split
  · rfl
  · rw [returns_pure, eq_comm]

theorem records_constant {leaf : Constant} :
    (backend.lower leaf.expr context).Records name ↔
      context.derivatives.isEmpty ∧ (leaf.code backend context).Records name := by
  rw [lower_constant, records_within, constantLeaf]
  split <;> simp [*]

/-! ### Powers -/

theorem returns_powerOf {base : Token} {exponent : ExponentForm}
    {exponentCode : LowerM TensorCode} {token : Token}
    (hReturns : (backend.powerOf base exponent exponentCode).Returns token) :
    (∃ value, exponent = .integer value ∧ token = backend.dialect.power base value) ∨
      (∃ value, exponent = .real value ∧
        token = backend.dialect.generalPower base (backend.dialect.literal value)) ∨
        exponent = .function ∧ ∃ code entry, exponentCode.Returns code ∧
          code.asScalar? = some entry ∧
            token = (entry.map (backend.dialect.generalPower base)).getD backend.dialect.identity := by
  cases exponent with
  | integer value => exact .inl ⟨value, rfl, (returns_pure.mp hReturns).symm⟩
  | real value => exact .inr (.inl ⟨value, rfl, (returns_pure.mp hReturns).symm⟩)
  | function =>
      obtain ⟨code, hCode, hReturns⟩ := hReturns.exists_of_bind
      split at hReturns
      · rename_i entry hEntry
        exact .inr (.inr ⟨rfl, code, some entry, hCode, hEntry, (returns_pure.mp hReturns).symm⟩)
      · rename_i hEntry
        exact .inr (.inr ⟨rfl, code, none, hCode, hEntry, (returns_pure.mp hReturns).symm⟩)
      · exact absurd hReturns not_returns_throw
  | unsupported => exact absurd hReturns not_returns_throw

theorem powerOf_writeOnly (base : Token) (exponent : ExponentForm)
    {exponentCode : LowerM TensorCode} (hExponent : WriteOnly exponentCode) :
    WriteOnly (backend.powerOf base exponent exponentCode) :=
  fun names => (backend.congruent_self names).powerOf_simulates exponent rfl
    (hExponent.related names)

/-- An exponent is lowered only if it is a function. -/
theorem records_powerOf {base : Token} {exponent : ExponentForm} {exponentCode : LowerM TensorCode}
    (hExponent : WriteOnly exponentCode) :
    (backend.powerOf base exponent exponentCode).Records name ↔
      exponent = .function ∧ exponentCode.Records name := by
  cases exponent with
  | integer value => simp [powerOf]
  | real value => simp [powerOf]
  | unsupported => simp [powerOf]
  | function =>
      unfold powerOf
      rw [hExponent.records_bind]
      · rw [and_iff_right rfl]
        refine or_iff_left ?_
        rintro ⟨code, -, hAfter⟩
        -- What is done with the code of the exponent records nothing.
        split at hAfter <;> simp at hAfter
      · intro code
        split
        · exact .pure _
        · exact .pure _
        · exact .throw _

/-- What is done with the code of a base. -/
theorem returns_power {base exponent : Expr}
    (hReturns : (backend.lower (.power base exponent) context).Returns code) :
    ∃ baseCode entry power, (backend.lower base context).Returns baseCode ∧
      baseCode.asScalar? = some entry ∧ code = .scalar power ∧
        match entry with
        | none => exponent.exponentForm.powerOfZero backend.dialect.identity = .ok power
        | some token => ∃ result, power = some result ∧
            (backend.powerOf token exponent.exponentForm (backend.lower exponent context)).Returns
              result := by
  rw [lower, returns_within] at hReturns
  obtain ⟨baseCode, hBase, hReturns⟩ := hReturns.exists_of_bind
  split at hReturns
  · exact absurd hReturns not_returns_throw
  · rename_i hEntry
    obtain ⟨power, hPower, hReturns⟩ := hReturns.exists_of_bind
    obtain rfl := returns_pure.mp hReturns
    exact ⟨baseCode, none, power, hBase, hEntry, rfl, returns_ofExcept.mp hPower⟩
  · rename_i token hEntry
    obtain ⟨power, hPower, hReturns⟩ := hReturns.exists_of_bind
    obtain rfl := returns_pure.mp hReturns
    exact ⟨baseCode, some token, some power, hBase, hEntry, rfl, power, rfl, hPower⟩

/-- The exponent of a power is lowered only if the base is not symbolic zero. -/
theorem records_power {base exponent : Expr} :
    (backend.lower (.power base exponent) context).Records name ↔
      (backend.lower base context).Records name ∨
        ∃ baseCode token, (backend.lower base context).Returns baseCode ∧
          baseCode.asScalar? = some (some token) ∧ exponent.exponentForm = .function ∧
            (backend.lower exponent context).Records name := by
  have hExponent := backend.lower_writeOnly exponent context
  rw [lower, records_within]
  unfold powerCode
  rw [(backend.lower_writeOnly base context).records_bind]
  · refine or_congr_right ⟨?_, ?_⟩
    · rintro ⟨baseCode, hBase, hName⟩
      split at hName
      · simp at hName
      · rw [(WriteOnly.ofExcept _).records_bind_pure] at hName
        exact absurd hName not_records_ofExcept
      · rename_i token hEntry
        rw [(powerOf_writeOnly token _ hExponent).records_bind_pure,
          records_powerOf hExponent] at hName
        exact ⟨baseCode, token, hBase, hEntry, hName⟩
    · rintro ⟨baseCode, token, hBase, hEntry, hName⟩
      refine ⟨baseCode, hBase, ?_⟩
      rw [hEntry]
      rw [(powerOf_writeOnly token _ hExponent).records_bind_pure, records_powerOf hExponent]
      exact hName
  · intro baseCode
    split
    · exact .throw _
    · exact (WriteOnly.ofExcept _).bind fun _ => .pure _
    · exact (powerOf_writeOnly _ _ hExponent).bind fun _ => .pure _

end Backend

end FormLowering
