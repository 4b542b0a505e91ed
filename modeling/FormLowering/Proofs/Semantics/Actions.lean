import FormLowering.Lowering.Backend
import FormLowering.Proofs.Semantics.Relations

/-!
# What lowering actions yield

The names recorded before an action never decide what it computes, nor whether
it fails, and the expression attached to an error is only for the reader.  An
action *yields* a result if it agrees with it whatever has been recorded.
-/

namespace FormLowering

namespace LowerM

variable {α β γ δ : Type}

/-- The value or the fault that an action ends with. -/
def outcome (action : LowerM α) (names : GeometryNames) : Except Fault α :=
  (action.runWith names).1.mapError (·.fault)

/-- The expression that is attached to errors does not change how an action ends. -/
theorem outcome_within (expr : Expr) (action : LowerM α) (names : GeometryNames) :
    (within expr action).outcome names = action.outcome names := by
  unfold outcome runWith within
  simp only [EStateM.adaptExcept, EStateM.run]
  cases action names with
  | ok value recorded => rfl
  | error error recorded =>
      unfold LoweringError.within
      cases hContext : error.context <;> simp [Except.mapError, hContext]

/-- Whether an action ends as the result says, up to a relation of values. -/
def Yields (Related : α → β → Prop) (action : LowerM α) (result : Except Fault β) : Prop :=
  ∀ names, Agree Related (action.outcome names) result

/-- Whether an action, run on some names, succeeds with a value. -/
def Returns (action : LowerM α) (value : α) : Prop :=
  ∃ names recorded, action.run names = .ok value recorded

namespace Yields

variable {R : α → β → Prop} {S : γ → δ → Prop}

theorem pure {a : α} {b : β} (hRelated : R a b) : Yields R (Pure.pure a) (.ok b) :=
  fun _ => .ok hRelated

theorem fault (fault : Fault) {context : Option String} :
    Yields R (throw { fault, context }) (.error fault) :=
  fun _ => .error

theorem record {name : Token} {b : β} {R : Token → β → Prop} (hRelated : R name b) :
    Yields R (LowerM.record name) (.ok b) :=
  fun _ => .ok hRelated

theorem ofExcept {computed : Except Fault α} {result : Except Fault β}
    (hAgree : Agree R computed result) : Yields R (LowerM.ofExcept computed) result := by
  intro names
  cases hAgree with
  | ok hRelated => exact .ok hRelated
  | error => exact .error

theorem within {action : LowerM α} {result : Except Fault β} (hAction : Yields R action result)
    (expr : Expr) : Yields R (LowerM.within expr action) result := by
  intro names
  rw [outcome_within]
  exact hAction names

/-- The rule for one action after another, which may rely on what the first one
returns. -/
theorem bind_returns {action : LowerM α} {result : Except Fault β} {next : α → LowerM γ}
    {next' : β → Except Fault δ} (hAction : Yields R action result)
    (hNext : ∀ a b, action.Returns a → R a b → Yields S (next a) (next' b)) :
    Yields S (action >>= next) (result >>= next') := by
  intro names
  have hOutcome := hAction names
  unfold outcome runWith at hOutcome ⊢
  simp only [EStateM.run, Bind.bind, EStateM.bind] at hOutcome ⊢
  cases hRun : action names with
  | ok a recorded =>
      -- The next action goes on from the names that this one has recorded.
      rw [hRun] at hOutcome
      cases hOutcome with
      | ok hRelated => exact hNext a _ ⟨names, recorded, hRun⟩ hRelated recorded
  | error error recorded =>
      rw [hRun] at hOutcome
      cases hOutcome
      exact .error

theorem bind {action : LowerM α} {result : Except Fault β} {next : α → LowerM γ}
    {next' : β → Except Fault δ} (hAction : Yields R action result)
    (hNext : ∀ a b, R a b → Yields S (next a) (next' b)) :
    Yields S (action >>= next) (result >>= next') :=
  hAction.bind_returns fun a b _ hRelated => hNext a b hRelated

/-- The rule for a first action that is known to succeed. -/
theorem bind_ok {action : LowerM α} {b : β} {next : α → LowerM γ} {result : Except Fault δ}
    (hAction : Yields R action (.ok b)) (hNext : ∀ a, R a b → Yields S (next a) result) :
    Yields S (action >>= next) result := by
  -- The value on the other side is fixed, so the relation may forget it.
  have hExact : Yields (fun a (_ : β) => R a b) action (.ok b) := by
    intro names
    obtain ⟨a, hOutcome, hRelated⟩ := (hAction names).ok_of_ok
    rw [hOutcome]
    exact .ok hRelated
  show Yields S (action >>= next) ((Except.ok b : Except Fault β) >>= fun _ => result)
  exact hExact.bind fun a _ hRelated => hNext a hRelated

/-- Running an action that succeeds on every element of a list yields the list of
values. -/
theorem mapM_ok {elements : List α} {change : α → LowerM γ} {change' : α → δ}
    (hChange : ∀ a ∈ elements, Yields S (change a) (.ok (change' a))) :
    Yields (List.Forall₂ S) (elements.mapM change) (.ok (elements.map change')) := by
  induction elements with
  | nil => exact pure .nil
  | cons first rest ih =>
      rw [List.mapM_cons]
      refine bind_ok (hChange first List.mem_cons_self) fun c hRelated => ?_
      refine bind_ok (ih fun a hMem => hChange a (List.mem_cons_of_mem _ hMem)) fun cs hRest => ?_
      exact pure (.cons hRelated hRest)

/-- What an action that succeeds yields. -/
theorem of_returns {action : LowerM α} {result : Except Fault β} (hAction : Yields R action result)
    {a : α} (hReturns : action.Returns a) : ∃ b, result = .ok b ∧ R a b := by
  obtain ⟨names, recorded, hRun⟩ := hReturns
  have hOutcome := hAction names
  rw [outcome, runWith, hRun] at hOutcome
  exact hOutcome.of_ok

theorem of_runWith {action : LowerM α} {result : Except Fault β} (hAction : Yields R action result)
    {names recorded : GeometryNames} {a : α} (hRun : action.runWith names = (.ok a, recorded)) :
    ∃ b, result = .ok b ∧ R a b := by
  have hOutcome := hAction names
  rw [outcome, hRun] at hOutcome
  exact hOutcome.of_ok

/-- An action that yields a value returns. -/
theorem exists_returns {action : LowerM α} {b : β} (hAction : Yields R action (.ok b)) :
    ∃ a, action.Returns a ∧ R a b := by
  have hOutcome := hAction ∅
  unfold outcome runWith at hOutcome
  cases hRun : action.run ∅ with
  | ok a recorded =>
      rw [hRun] at hOutcome
      cases hOutcome with
      | ok hRelated => exact ⟨a, ⟨∅, recorded, hRun⟩, hRelated⟩
  | error error recorded =>
      rw [hRun] at hOutcome
      cases hOutcome

/-- Actions that yield the same result return together. -/
theorem exists_common {action : LowerM α} {action' : LowerM γ} {result : Except Fault β}
    {S : γ → β → Prop} (hAction : Yields R action result) (hAction' : Yields S action' result)
    {c : γ} (hReturns : action'.Returns c) : ∃ a b, action.Returns a ∧ R a b ∧ S c b := by
  obtain ⟨b, rfl, hRelated'⟩ := hAction'.of_returns hReturns
  obtain ⟨a, hReturns, hRelated⟩ := hAction.exists_returns
  exact ⟨a, b, hReturns, hRelated, hRelated'⟩

end Yields

end LowerM

end FormLowering
