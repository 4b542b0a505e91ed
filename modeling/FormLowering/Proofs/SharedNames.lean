import FormLowering.Proofs.Traversal.WriteOnly

/-!
# Requests that share a set of names

Lowering can be asked for the code of an expression, of a power, of a component of
the facet normal and of basis functions.  A caller that lowers a whole form passes
the same set of names to all of its requests, so that every quantity is declared
once.

Such requests do not disturb each other.  Each is answered as it would be on its
own, those that fail included, and the set that is left has the names of every
request, whatever their order.
-/

namespace FormLowering

open LowerM

/-- An answer of lowering: the code of a tensor, or the entry of a coefficient. -/
inductive LoweringAnswer where
  | code (code : TensorCode)
  | entry (entry : Entry)
deriving DecidableEq

/-- What lowering can be asked for. -/
inductive LoweringRequest where
  | expression (expr : Expr) (context : LoweringContext)
  | power (base exponent : Expr) (context : LoweringContext)
  | facetNormal (context : LoweringContext)
  | argument (argument : Argument) (component : Nat) (place : ComponentPlace)
    (tuples : List (List Nat)) (context : LoweringContext)
  | coefficient (coefficient : Coefficient) (component : Nat) (place : ComponentPlace)
    (tuples : List (List Nat)) (context : LoweringContext)

namespace LoweringRequest

/-- How a backend answers a request. -/
def answer (backend : Backend) : LoweringRequest → LowerM LoweringAnswer
  | .expression expr context => return .code (← backend.lower expr context)
  | .power base exponent context => return .code (← backend.lowerPower base exponent context)
  | .facetNormal context => return .code (← backend.normalCode context)
  | .argument basis component place tuples context =>
    return .code (← backend.argumentCode basis component place tuples context)
  | .coefficient field component place tuples context =>
    return .entry (← backend.coefficientCode field component place tuples context)

theorem answer_writeOnly (backend : Backend) (request : LoweringRequest) :
    WriteOnly (request.answer backend) := by
  cases request with
  | expression expr context => exact (backend.lower_writeOnly expr context).bind fun _ => .pure _
  | power base exponent context =>
      exact (backend.lowerPower_writeOnly base exponent context).bind fun _ => .pure _
  | facetNormal context => exact (backend.normalCode_writeOnly context).bind fun _ => .pure _
  | argument basis component place tuples context =>
      exact (backend.argumentCode_writeOnly basis component place tuples context).bind
        fun _ => .pure _
  | coefficient field component place tuples context =>
      exact (backend.coefficientCode_writeOnly field component place tuples context).bind
        fun _ => .pure _

end LoweringRequest

/-- A request, and the backend that is asked. -/
structure LoweringCall where
  backend : Backend
  request : LoweringRequest

namespace LoweringCall

/-- A call as an action. -/
def action (call : LoweringCall) : LowerM LoweringAnswer :=
  call.request.answer call.backend

/-- The answer to a call on its own. -/
def ownAnswer (call : LoweringCall) : Except LoweringError LoweringAnswer :=
  (call.action.runWith ∅).1

/-- The names that a call records on its own. -/
def ownNames (call : LoweringCall) : GeometryNames :=
  (call.action.runWith ∅).2

/-- What a call does to a shared set. -/
theorem runWith_action (call : LoweringCall) (names : GeometryNames) :
    call.action.runWith names = (call.ownAnswer, names ∪ call.ownNames) :=
  (call.request.answer_writeOnly call.backend).runWith_eq names

end LoweringCall

/-- The answers to calls that are made one after the other on one set of names, and
the set that is left.  The calls go on after one that fails. -/
def runCalls : List LoweringCall → GeometryNames →
    List (Except LoweringError LoweringAnswer) × GeometryNames
  | [], names => ([], names)
  | call :: rest, names =>
    let (answer, recorded) := call.action.runWith names
    let (answers, final) := runCalls rest recorded
    (answer :: answers, final)

theorem runCalls_cons (call : LoweringCall) (rest : List LoweringCall) (names : GeometryNames) :
    runCalls (call :: rest) names =
      (call.ownAnswer :: (runCalls rest (names ∪ call.ownNames)).1,
        (runCalls rest (names ∪ call.ownNames)).2) := by
  rw [runCalls, call.runWith_action]

/-- Every call is answered as it would be on its own. -/
theorem runCalls_answers (calls : List LoweringCall) (names : GeometryNames) :
    (runCalls calls names).1 = calls.map LoweringCall.ownAnswer := by
  induction calls generalizing names with
  | nil => rfl
  | cons call rest ih => rw [runCalls_cons, ih, List.map_cons]

/-- The set that is left has the names from before and those of every call. -/
theorem mem_runCalls {calls : List LoweringCall} {names : GeometryNames} {name : Token} :
    name ∈ (runCalls calls names).2 ↔ name ∈ names ∨ ∃ call ∈ calls, name ∈ call.ownNames := by
  induction calls generalizing names with
  | nil => simp [runCalls]
  | cons call rest ih =>
      rw [runCalls_cons, ih, SortedSet.mem_union, or_assoc]
      simp only [List.mem_cons, exists_eq_or_imp]

/-- The set of names is only written: an expression is lowered on every set as on the
empty one, with its names added, and in every sequence of calls each answer is that
of the call on its own, the set only grows, and it ends the same in every order. -/
theorem names_only_written (names : GeometryNames) :
    (∀ (backend : Backend) (expr : Expr) (context : LoweringContext),
      (backend.lower expr context).runWith names =
        (((backend.lower expr context).runWith ∅).1,
          names ∪ ((backend.lower expr context).runWith ∅).2)) ∧
      ∀ calls : List LoweringCall,
        (runCalls calls names).1 = calls.map (fun call => (call.action.runWith ∅).1) ∧
          (∀ later, ∀ name ∈ (runCalls calls names).2,
            name ∈ (runCalls (calls ++ later) names).2) ∧
          ∀ reordered, calls.Perm reordered →
            (runCalls reordered names).2 = (runCalls calls names).2 := by
  refine ⟨fun backend expr context => (backend.lower_writeOnly expr context).runWith_eq names,
    fun calls => ⟨runCalls_answers calls names, ?_, ?_⟩⟩
  · intro later name hMem
    rw [mem_runCalls] at hMem ⊢
    refine hMem.imp_right fun ⟨call, hCall, hName⟩ => ?_
    exact ⟨call, List.mem_append_left later hCall, hName⟩
  · intro reordered hPerm
    apply SortedSet.ext_mem
    intro name
    rw [mem_runCalls, mem_runCalls]
    simp only [hPerm.mem_iff]

/-- A division by zero that fails after its numerator recorded a name, and a facet normal. -/
theorem names_only_written_failing_division :
    let division : LoweringCall :=
      ⟨callsBackend {} {}, .expression (.division [.indexed .facetNormal [0], .zero]) {}⟩
    let normal : LoweringCall := ⟨cppBackend {} {}, .facetNormal { component := [1] }⟩
    (runCalls [normal, division] (.ofList ["K_00"])).2 =
        (runCalls [division, normal] (.ofList ["K_00"])).2 ∧
      (runCalls [division, normal] (.ofList ["K_00"])).2 = .ofList ["K_00", "n_0", "n_1"] ∧
        (runCalls [division, normal] (.ofList ["K_00"])).1 =
          [.error ⟨.divisionByZero, some ((Expr.division [.indexed .facetNormal [0], .zero]).render)⟩,
            .ok (.code (.scalar (some "n_1")))] := by
  intro division normal
  obtain ⟨-, hCalls⟩ := names_only_written (.ofList ["K_00"])
  obtain ⟨hAnswers, -, hOrder⟩ := hCalls [division, normal]
  refine ⟨hOrder [normal, division] (.swap _ _ _), ?_, ?_⟩
  · rfl
  · rw [hAnswers]
    rfl

end FormLowering
