import FormLowering.Proofs.Traversal.Congruence

/-!
# Names are only written

No action looks at the names recorded before it: its answer is the answer that it
gives on its own, and it adds the names that it records on its own, also if it
fails.  An action with this property is *write-only*.

Lowering an expression is write-only, and so are the code of a power, of a facet
normal and of basis functions.
-/

namespace FormLowering

/-! ### Equality as a relation -/

theorem TensorCode.Related.eq_of_eq {left right : TensorCode}
    (hCodes : TensorCode.Related (· = ·) left right) : left = right := by
  refine SortedMap.ext ?_
  have hEntries : List.Forall₂ (· = ·) left.entries right.entries := by
    refine hCodes.imp fun entry entry' hEntry => ?_
    obtain ⟨key, value⟩ := entry
    obtain ⟨key', value'⟩ := entry'
    obtain ⟨rfl, hValues⟩ := hEntry
    cases hValues with
    | none => rfl
    | some hTokens => cases hTokens; rfl
  rwa [List.forall₂_eq_eq_eq] at hEntries

theorem TensorCode.Related.refl_eq (code : TensorCode) : TensorCode.Related (· = ·) code code := by
  refine List.forall₂_same.mpr fun entry _ => ⟨rfl, ?_⟩
  cases entry.2 with
  | none => exact .none
  | some token => exact .some rfl

namespace LowerM

variable {α β : Type}

/-! ### Write-only actions -/

/-- Whether an action adds the same names to every set of names, with the same answer. -/
def WriteOnly (action : LowerM α) : Prop :=
  ∀ names, Simulates (fun left right => left = names ∪ right) (· = ·) action action

namespace WriteOnly

theorem pure (value : α) : WriteOnly (Pure.pure value) :=
  fun _ => .pure rfl

theorem throw (error : LoweringError) : WriteOnly (MonadExcept.throw error : LowerM α) :=
  fun _ => .throw error

theorem ofExcept (result : Except Fault α) : WriteOnly (LowerM.ofExcept result) :=
  fun _ => .ofExcept (Agree.refl result)

theorem bind {action : LowerM α} {next : α → LowerM β} (hAction : WriteOnly action)
    (hNext : ∀ value, WriteOnly (next value)) : WriteOnly (action >>= next) := by
  refine fun names => (hAction names).bind ?_
  rintro value _ rfl
  exact hNext value names

/-- A write-only action on any names, in terms of the action on its own. -/
theorem runWith_eq {action : LowerM α} (hAction : WriteOnly action) (names : GeometryNames) :
    action.runWith names = ((action.runWith ∅).1, names ∪ (action.runWith ∅).2) := by
  obtain ⟨hAnswer, hNames⟩ := hAction names names ∅ (SortedSet.union_empty names).symm
  exact Prod.ext hAnswer.eq_of_eq hNames

/-- An action that returns code is write-only if the code is the same entry by entry. -/
theorem of_related {action : LowerM TensorCode}
    (hAction : ∀ names, Simulates (fun left right => left = names ∪ right)
      (TensorCode.Related (· = ·)) action action) : WriteOnly action :=
  fun names => (hAction names).mono fun _ _ => TensorCode.Related.eq_of_eq

theorem related {action : LowerM TensorCode} (hAction : WriteOnly action) (names : GeometryNames) :
    Simulates (fun left right => left = names ∪ right) (TensorCode.Related (· = ·)) action
      action :=
  (hAction names).mono fun code _ hEq => hEq ▸ .refl_eq code

end WriteOnly

end LowerM

open LowerM

namespace Backend

/-- Every backend does the same as itself, whatever has been recorded. -/
theorem congruent_self (backend : Backend) (names : GeometryNames) :
    Congruent (fun left right => left = names ∪ right) (· = ·) (· = ·) backend backend where
  dimensions := rfl
  locate := rfl
  argument := by
    rintro argument ⟨⟩ ⟨⟩ ⟨rfl, rfl, rfl⟩
    exact ⟨rfl, by cases (backend.elements.argument argument _).code <;> constructor; rfl⟩
  coefficient := by
    rintro coefficient ⟨⟩ ⟨⟩ ⟨rfl, rfl, rfl⟩
    cases backend.elements.coefficient coefficient _ <;> constructor
    rfl
  combine := by
    intro operation codes codes' hCodes
    have hEqual : List.Forall₂ (· = ·) codes codes' := hCodes.imp fun _ _ => TensorCode.Related.eq_of_eq
    rw [List.forall₂_eq_eq_eq] at hEqual
    subst hEqual
    exact (Agree.refl _).mono fun code _ hCode => hCode ▸ .refl_eq code
  multiply := by
    intro tokens tokens' _ hTokens
    rw [List.forall₂_eq_eq_eq] at hTokens
    rw [hTokens]
  sum := by
    intro tokens tokens' _ hTokens
    rw [List.forall₂_eq_eq_eq] at hTokens
    rw [hTokens]
  power := by rintro exponent base _ rfl; rfl
  generalPower := by rintro base _ exponent _ rfl rfl; rfl
  literal _ := rfl
  jacobian := by rintro kind row column side _ rfl; rfl
  reciprocal := by rintro side _ rfl; rfl
  normal := by rintro component side _ rfl; rfl
  insert_jacobian := by
    rintro kind row column side _ _ right rfl rfl
    exact (SortedSet.union_insert names right _).symm
  insert_determinant := by
    rintro side _ _ right rfl rfl
    exact (SortedSet.union_insert names right _).symm
  insert_normal := by
    rintro component side _ _ right rfl rfl
    exact (SortedSet.union_insert names right _).symm

variable (backend : Backend)

/-- Lowering an expression is write-only. -/
theorem lower_writeOnly (expr : Expr) (context : LoweringContext) :
    WriteOnly (backend.lower expr context) := by
  refine .of_related fun names => ?_
  have hExpr : expr.Every fun _ => True := Expr.every_of_forall (fun _ => trivial) expr
  have hParallel := (backend.congruent_self names).parallel (fun _ => True)
    (fun _ _ _ => rfl) fun _ _ => rfl
  exact lower_simulates hParallel hExpr (.refl_eq context)

theorem lowerAll_writeOnly (operands : List Expr) (context : LoweringContext) :
    WriteOnly (backend.lowerAll operands context) := by
  induction operands with
  | nil =>
      rw [lowerAll]
      exact .pure []
  | cons operand rest ih =>
      rw [lowerAll]
      exact (backend.lower_writeOnly operand context).bind fun code =>
        ih.bind fun codes => .pure (code :: codes)

theorem powerCode_writeOnly {baseCode exponentCode : LowerM TensorCode} (exponent : ExponentForm)
    (hBase : WriteOnly baseCode) (hExponent : WriteOnly exponentCode) :
    WriteOnly (backend.powerCode baseCode exponent exponentCode) :=
  .of_related fun names => (backend.congruent_self names).powerCode_simulates exponent
    (hBase.related names) (hExponent.related names)

theorem lowerPower_writeOnly (base exponent : Expr) (context : LoweringContext) :
    WriteOnly (backend.lowerPower base exponent context) :=
  backend.powerCode_writeOnly exponent.exponentForm (backend.lower_writeOnly base context)
    (backend.lower_writeOnly exponent context)

theorem normalCode_writeOnly (context : LoweringContext) : WriteOnly (backend.normalCode context) :=
  .of_related fun names => (backend.congruent_self names).normalCode_simulates (.refl_eq context)

theorem argumentCode_writeOnly (argument : Argument) (component : Nat) (place : ComponentPlace)
    (tuples : List (List Nat)) (context : LoweringContext) :
    WriteOnly (backend.argumentCode argument component place tuples context) :=
  .of_related fun names =>
    (backend.congruent_self names).argumentCode_simulates (.refl_eq context) argument component
      place tuples

theorem coefficientCode_writeOnly (coefficient : Coefficient) (component : Nat)
    (place : ComponentPlace) (tuples : List (List Nat)) (context : LoweringContext) :
    WriteOnly (backend.coefficientCode coefficient component place tuples context) := by
  intro names
  refine ((backend.congruent_self names).coefficientCode_simulates (.refl_eq context) coefficient
    component place tuples).mono fun entry entry' hEntries => ?_
  cases hEntries with
  | none => rfl
  | some hTokens => rw [hTokens]

end Backend

end FormLowering
