import FormLowering.Proofs.Traversal.Outcomes

/-!
# Actions that always succeed or always fail

Once it is known which reference components contribute, the code of a basis function
cannot fail any more.  An action that *completes* always returns the same value and
adds the same names, and one that *fails* adds none.
-/

namespace FormLowering

namespace LowerM

variable {α β : Type}

/-- Whether an action succeeds, on any names and always with the same value, and adds
exactly the names of a list. -/
def Completes (action : LowerM α) (property : α → Prop) (added : List Token) : Prop :=
  ∃ value, property value ∧ ∀ names, ∃ recorded, action.runWith names = (.ok value, recorded) ∧
    ∀ name, name ∈ recorded ↔ name ∈ names ∨ name ∈ added

namespace Completes

variable {property : α → Prop} {result : β → Prop} {added : List Token}

theorem pure {value : α} (hValue : property value) : Completes (Pure.pure value) property [] :=
  ⟨value, hValue, fun names => ⟨names, runWith_pure value names, by simp⟩⟩

theorem record {name : Token} {property : Token → Prop} (hName : property name) :
    Completes (LowerM.record name) property [name] := by
  refine ⟨name, hName, fun names => ⟨names.insert name, runWith_record name names, fun other => ?_⟩⟩
  rw [SortedSet.mem_insert, List.mem_singleton, or_comm]

theorem bind {action : LowerM α} {next : α → LowerM β} {later : List Token}
    (hAction : Completes action property added)
    (hNext : ∀ value, property value → Completes (next value) result later) :
    Completes (action >>= next) result (added ++ later) := by
  obtain ⟨value, hValue, hAction⟩ := hAction
  obtain ⟨answer, hAnswer, hNext⟩ := hNext value hValue
  refine ⟨answer, hAnswer, fun names => ?_⟩
  obtain ⟨middle, hFirst, hMiddle⟩ := hAction names
  obtain ⟨final, hSecond, hFinal⟩ := hNext middle
  refine ⟨final, ?_, fun name => ?_⟩
  · rw [runWith_bind, hFirst]
    exact hSecond
  · rw [hFinal, hMiddle, List.mem_append, or_assoc]

/-- The next action is given the name that was recorded. -/
theorem record_bind {name : Token} {next : Token → LowerM β} {later : List Token}
    (hNext : Completes (next name) result later) :
    Completes (LowerM.record name >>= next) result (name :: later) := by
  have hRecord : Completes (LowerM.record name) (· = name) [name] := record rfl
  exact hRecord.bind fun other hOther => hOther ▸ hNext

/-- What is computed from the value of an action records nothing more. -/
theorem bind_pure {action : LowerM α} {change : α → β} (hAction : Completes action property added)
    (hChange : ∀ value, property value → result (change value)) :
    Completes (action >>= fun value => Pure.pure (change value)) result added := by
  rw [← List.append_nil added]
  exact hAction.bind fun value hValue => pure (hChange value hValue)

theorem mapM {values : List α} {change : α → LowerM β} {related : α → β → Prop}
    {added : α → List Token}
    (hChange : ∀ value ∈ values, Completes (change value) (related value) (added value)) :
    Completes (values.mapM change) (List.Forall₂ related values) (values.flatMap added) := by
  induction values with
  | nil => exact pure .nil
  | cons value rest ih =>
      rw [List.mapM_cons, List.flatMap_cons]
      refine (hChange value List.mem_cons_self).bind fun first hFirst => ?_
      have hRest := ih fun other hMem => hChange other (List.mem_cons_of_mem _ hMem)
      exact hRest.bind_pure fun others hOthers => .cons hFirst hOthers

theorem within {action : LowerM α} (hAction : Completes action property added) (expr : Expr) :
    Completes (LowerM.within expr action) property added := by
  obtain ⟨value, hValue, hRun⟩ := hAction
  refine ⟨value, hValue, fun names => ?_⟩
  obtain ⟨recorded, hOwn, hRecorded⟩ := hRun names
  exact ⟨recorded, by rw [runWith_within, hOwn]; rfl, hRecorded⟩

theorem mono {action : LowerM α} {weaker : α → Prop} (hAction : Completes action property added)
    (hWeaker : ∀ value, property value → weaker value) : Completes action weaker added := by
  obtain ⟨value, hValue, hRun⟩ := hAction
  exact ⟨value, hWeaker value hValue, hRun⟩

/-- The names of a list of actions, whatever the actions return. -/
theorem mapM_names {values : List α} {change : α → LowerM β} {added : α → List Token}
    (hChange : ∀ value ∈ values, Completes (change value) (fun _ => True) (added value)) :
    Completes (values.mapM change) (fun _ => True) (values.flatMap added) := by
  have hEach : Completes (values.mapM change) (List.Forall₂ (fun _ _ => True) values)
      (values.flatMap added) := mapM hChange
  exact hEach.mono fun _ _ => trivial

theorem exists_returns {action : LowerM α} (hAction : Completes action property added) :
    ∃ value, action.Returns value := by
  obtain ⟨value, -, hRun⟩ := hAction
  obtain ⟨recorded, hRun, -⟩ := hRun ∅
  exact ⟨value, returns_iff.mpr ⟨∅, by rw [hRun]⟩⟩

theorem property_of_returns {action : LowerM α} (hAction : Completes action property added)
    {value : α} (hReturns : action.Returns value) : property value := by
  obtain ⟨answer, hAnswer, hAction⟩ := hAction
  obtain ⟨names, hRun⟩ := returns_iff.mp hReturns
  obtain ⟨recorded, hOwn, -⟩ := hAction names
  rw [hOwn] at hRun
  cases hRun
  exact hAnswer

theorem records_iff {action : LowerM α} (hAction : Completes action property added) {name : Token} :
    action.Records name ↔ name ∈ added := by
  obtain ⟨value, -, hAction⟩ := hAction
  obtain ⟨recorded, hRun, hRecorded⟩ := hAction ∅
  rw [Records, hRun, hRecorded]
  exact or_iff_right SortedSet.not_mem_empty

end Completes

/-- Whether an action fails and records nothing. -/
def Fails (action : LowerM α) : Prop :=
  ∀ names, ∃ error, action.runWith names = (.error error, names)

namespace Fails

theorem throw (error : LoweringError) : Fails (MonadExcept.throw error : LowerM α) :=
  fun names => ⟨error, runWith_throw error names⟩

theorem bind {action : LowerM α} (hAction : Fails action) (next : α → LowerM β) :
    Fails (action >>= next) := by
  intro names
  obtain ⟨error, hRun⟩ := hAction names
  exact ⟨error, by rw [runWith_bind, hRun]⟩

theorem within {action : LowerM α} (hAction : Fails action) (expr : Expr) :
    Fails (LowerM.within expr action) := by
  intro names
  obtain ⟨error, hRun⟩ := hAction names
  exact ⟨error.within expr, by rw [runWith_within, hRun]; rfl⟩

theorem not_returns {action : LowerM α} (hAction : Fails action) (value : α) :
    ¬action.Returns value := by
  intro hReturns
  obtain ⟨names, hRun⟩ := returns_iff.mp hReturns
  obtain ⟨error, hOwn⟩ := hAction names
  rw [hOwn] at hRun
  cases hRun

theorem not_records {action : LowerM α} (hAction : Fails action) (name : Token) :
    ¬action.Records name := by
  obtain ⟨error, hRun⟩ := hAction ∅
  rw [Records, hRun]
  exact SortedSet.not_mem_empty

end Fails

end LowerM

end FormLowering
