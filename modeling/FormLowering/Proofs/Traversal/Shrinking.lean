import FormLowering.Proofs.Traversal.Failures

/-!
# Runs that lose something

One action *shrinks* to another if the second one does no more than the first, as long as
the first one succeeds.  Started with no more names, it leaves no more names, and it either
succeeds with a value that is related to that of the first or fails with a fault that is
allowed.  Nothing is said of an action that fails: the second one may succeed, and may then
go on to record any names.
-/

namespace FormLowering

namespace LowerM

variable {α β γ δ : Type}

theorem WriteOnly.mapM {values : List α} {change : α → LowerM β}
    (hChange : ∀ value, WriteOnly (change value)) : WriteOnly (values.mapM change) := by
  induction values with
  | nil => exact .pure []
  | cons value rest ih =>
      rw [List.mapM_cons]
      exact (hChange value).bind fun first => ih.bind fun others => .pure _

/-- Whether an answer is a value with a property or a fault that is allowed. -/
def Ends (Allowed : Fault → Prop) (property : β → Prop) : Except LoweringError β → Prop
  | .ok value => property value
  | .error error => Allowed error.fault

/-- Whether the second of two actions does no more than the first one, where that
succeeds. -/
def Shrinks (Allowed : Fault → Prop) (Related : α → β → Prop) (left : LowerM α)
    (right : LowerM β) : Prop :=
  ∀ names names' value recorded, (∀ name ∈ names', name ∈ names) →
    left.runWith names = (.ok value, recorded) →
      (∀ name ∈ (right.runWith names').2, name ∈ recorded) ∧
        Ends Allowed (Related value) (right.runWith names').1

namespace Shrinks

variable {Allowed : Fault → Prop} {R : α → β → Prop} {S : γ → δ → Prop}

theorem pure {a : α} {b : β} (hRelated : R a b) :
    Shrinks Allowed R (Pure.pure a) (Pure.pure b) := by
  intro names names' value recorded hNames hRun
  cases hRun
  exact ⟨hNames, hRelated⟩

/-- Anything may happen in the place of an action that fails. -/
theorem throw (error : LoweringError) (right : LowerM β) :
    Shrinks Allowed R (MonadExcept.throw error) right :=
  fun _ _ _ _ _ hRun => nomatch hRun

theorem ofExcept {left : Except Fault α} {right : Except Fault β}
    (hValue : ∀ a b, left = .ok a → right = .ok b → R a b)
    (hFault : ∀ a fault, left = .ok a → right = .error fault → Allowed fault) :
    Shrinks Allowed R (LowerM.ofExcept left) (LowerM.ofExcept right) := by
  intro names names' value recorded hNames hRun
  cases left with
  | error fault => cases hRun
  | ok a =>
      cases hRun
      cases right with
      | ok b => exact ⟨hNames, hValue value b rfl rfl⟩
      | error fault => exact ⟨hNames, hFault value fault rfl rfl⟩

/-- An action does no more than itself. -/
theorem refl {action : LowerM α} (hAction : WriteOnly action) :
    Shrinks Allowed (· = ·) action action := by
  intro names names' value recorded hNames hRun
  have hOwn := hAction.runWith_eq names
  rw [hRun] at hOwn
  obtain ⟨hValue, rfl⟩ := Prod.mk.inj hOwn
  rw [hAction.runWith_eq names', ← hValue]
  refine ⟨fun name hName => ?_, rfl⟩
  rw [SortedSet.mem_union] at hName ⊢
  exact hName.imp_left (hNames name)

/-- An action can be left out. -/
theorem skip {action : LowerM α} (hAction : WriteOnly action) {b : β} (hRelated : ∀ a, R a b) :
    Shrinks Allowed R action (Pure.pure b) := by
  intro names names' value recorded hNames hRun
  refine ⟨fun name hName => ?_, hRelated value⟩
  have hKept := hAction.mem_runWith.mpr (.inl (hNames name hName))
  rwa [hRun] at hKept

/-- What comes second on the left only adds names, should the first action on the right
fail. -/
theorem bind {left : LowerM α} {right : LowerM β} {next : α → LowerM γ} {next' : β → LowerM δ}
    (hFirst : Shrinks Allowed R left right) (hKeeps : ∀ a, WriteOnly (next a))
    (hNext : ∀ a b, right.Returns b → R a b → Shrinks Allowed S (next a) (next' b)) :
    Shrinks Allowed S (left >>= next) (right >>= next') := by
  intro names names' value recorded hNames hRun
  rw [runWith_bind] at hRun ⊢
  generalize hLeft : left.runWith names = ran at hRun
  obtain ⟨answer, middle⟩ := ran
  cases answer with
  | error error => cases hRun
  | ok a =>
      obtain ⟨hMiddle, hEnds⟩ := hFirst names names' a middle hNames hLeft
      generalize hRight : right.runWith names' = ran' at hMiddle hEnds ⊢
      obtain ⟨answer', middle'⟩ := ran'
      cases answer' with
      | ok b =>
          have hReturns : right.Returns b := returns_iff.mpr ⟨names', by rw [hRight]⟩
          exact hNext a b hReturns hEnds middle middle' value recorded hMiddle hRun
      | error error =>
          refine ⟨fun name hName => ?_, hEnds⟩
          have hKept := (hKeeps a).mem_runWith.mpr (.inl (hMiddle name hName))
          have hRun : (next a).runWith middle = (.ok value, recorded) := hRun
          rwa [hRun] at hKept

theorem mapM {lefts : List α} {rights : List β} {change : α → LowerM γ} {change' : β → LowerM δ}
    (hLists : List.Forall₂ R lefts rights) (hKeeps : ∀ a, WriteOnly (change a))
    (hChange : ∀ a b, R a b → Shrinks Allowed S (change a) (change' b)) :
    Shrinks Allowed (List.Forall₂ S) (lefts.mapM change) (rights.mapM change') := by
  induction hLists with
  | nil => exact pure .nil
  | @cons left right rest others hFirst _ ih =>
      rw [List.mapM_cons, List.mapM_cons]
      have hRest : WriteOnly (rest.mapM change) := .mapM hKeeps
      refine (hChange _ _ hFirst).bind (fun c => hRest.bind fun cs => .pure _) fun c d _ hRelated => ?_
      exact ih.bind (fun cs => .pure _) fun cs ds _ hRest => pure (.cons hRelated hRest)

theorem within {left : LowerM α} {right : LowerM β} (hActions : Shrinks Allowed R left right)
    (expr : Expr) : Shrinks Allowed R (LowerM.within expr left) (LowerM.within expr right) := by
  intro names names' value recorded hNames hRun
  rw [runWith_within] at hRun ⊢
  have hLeft : left.runWith names = (.ok value, recorded) := by
    generalize left.runWith names = ran at hRun ⊢
    obtain ⟨answer, middle⟩ := ran
    cases answer with
    | ok a => exact hRun
    | error error => cases hRun
  obtain ⟨hRecorded, hEnds⟩ := hActions names names' value recorded hNames hLeft
  refine ⟨hRecorded, ?_⟩
  generalize (right.runWith names').1 = answer' at hEnds ⊢
  cases answer' with
  | ok b => exact hEnds
  | error error =>
      show Allowed (error.within expr).fault
      rw [LoweringError.fault_within]
      exact hEnds

theorem mono {AllowedToo : Fault → Prop} {Weaker : α → β → Prop} {left : LowerM α}
    {right : LowerM β} (hActions : Shrinks Allowed R left right)
    (hAllowed : ∀ fault, Allowed fault → AllowedToo fault) (hWeaker : ∀ a b, R a b → Weaker a b) :
    Shrinks AllowedToo Weaker left right := by
  intro names names' value recorded hNames hRun
  obtain ⟨hRecorded, hEnds⟩ := hActions names names' value recorded hNames hRun
  refine ⟨hRecorded, ?_⟩
  cases hRight : (right.runWith names').1 with
  | ok value' =>
      rw [hRight] at hEnds
      exact hWeaker _ _ hEnds
  | error error =>
      rw [hRight] at hEnds
      exact hAllowed _ hEnds

end Shrinks

end LowerM

end FormLowering
