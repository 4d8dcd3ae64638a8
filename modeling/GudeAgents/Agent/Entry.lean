import GudeAgents.Agent.Turn
/-!
# Entry points

`Invoke`, `Resume`, `RecoverExecution` and `ReconcileToolExecution`, and the system in which any
number of workers run them against the two stores.
-/
namespace GudeAgents
open Framework
namespace Engine
variable [Host]
def requireConversationID (a : Agent) (convID : String) : Engine Unit :=
  if a.conversation ∧ convID = "" then Routine.throw .conversationIDRequired else pure ()

def openExecution (a : Agent) (c : Context) (convID : String) (resuming : Bool) :
    Engine Unit := do
  if a.executionStore then
    if resuming then
      match ← loadExecution with
      | .error fault => Routine.throw (.wrap "load running execution" fault.execution)
      | .ok execution =>
        Routine.modify fun r => { r with
          execution := some execution, executionDurable := true, iteration := execution.iteration }
        seedUsage execution.usage
    else
      match ← createRecord
          { id := c.executionID, conversationID := convID, status := .running, phase := .model } with
      | .error fault => Routine.throw (.wrap "create execution" fault.execution)
      | .ok execution =>
        Routine.modify fun r => { r with execution := some execution, executionDurable := true }
  else
    -- an identity-only record that is never persisted
    Routine.modify fun r => { r with
      execution := some { id := c.executionID, status := .running, phase := .model } }

def lifecycle (a : Agent) (c : Context) (convID : String) (resuming : Bool)
    (body : Engine Result) : Engine Result := do
  if c.executionID = "" then Routine.throw (.text "execution ID must not be empty")
  else
    Routine.modify fun r => { r with convID := convID }
    requireConversationID a convID
    openExecution a c convID resuming
    let res ← finishing body
    let r ← Routine.get
    pure { res with executionID := c.executionID, usage := r.usage }

def claimPause (a : Agent) (i : Interrupt) (resp : ResumeResponse) : Engine Interrupt := do
  if i.executionID = "" then Routine.throw (.text "resume: execution ID is required")
  else if a.executionStore = false ∨ a.conversation = false then
    Routine.throw (.wrap ("resume execution " ++ Host.quote i.executionID) .pauseStorageRequired)
  else
    match ← loadExecution with
    | .error fault => Routine.throw (.wrap "load execution for resume" fault.execution)
    | .ok execution =>
      match execution.pause with
      | none =>
        Routine.throw (.wrap ("resume execution " ++ Host.quote i.executionID) .executionConflict)
      | some pause =>
        if execution.status ≠ .paused ∨ execution.version ≠ i.executionVersion then
          Routine.throw (.wrap ("resume execution " ++ Host.quote i.executionID) .executionConflict)
        else
          let canonical := interruptFromExecution execution pause
          (requireConversationID a canonical.conversationID).mapError
            (.wrap ("resume execution " ++ Host.quote execution.id))
          Routine.ofExcept (validateResume canonical resp)
          let next := { execution with status := .running, phase := .tools, pause := none }
          match ← saveExecution (.resumeClaim canonical resp) next with
          | .error fault => Routine.throw (.wrap "claim execution for resume" fault.execution)
          | .ok () => pure { canonical with executionVersion := execution.version + 1 }

def invoke (a : Agent) (c : Context) (input : String) : Engine Result :=
  lifecycle a c c.conversationID false (freshTurn a c input)
def resume (a : Agent) (c : Context) (i : Interrupt) (resp : ResumeResponse) : Engine Result := do
  let canonical ← claimPause a i resp
  let c := { c with executionID := i.executionID, conversationID := canonical.conversationID }
  lifecycle a c canonical.conversationID true (resumeTurn a c canonical resp)

def projectPause (execution : Execution) (pause : ExecutionPause) : Engine Unit := do
  let next := { execution with
    status := .paused, phase := .paused, pause := some pause, pendingPause := none }
  match ← saveExecution .projectPause next with
  | .ok () => pure ()
  | .error fault =>
    Routine.modify fun r => { r with execution := some next }
    Routine.throw (.wrap "recover pending pause" fault.execution)

def restoreToolUses (a : Agent) (batch : ToolBatchExecution) (messages : List Message) :
    Engine (List Message) :=
  if messages = [] then
    match batch.toolUseContent with
    | none => Routine.throw .executionRecoveryUnsupported
    | some content => do
      saveConversation a .toolUse [⟨.assistant,content⟩]
      pure [⟨.assistant,content⟩]
  else pure messages

def recoverToolUses (a : Agent) (messages : List Message) : Engine (List Message) := do
  let r ← Routine.get
  match r.execution.bind (·.toolBatch) with
  | none => Routine.throw .executionRecoveryUnsupported
  | some batch =>
    if batch.allPlanned then
      let messages ← restoreToolUses a batch messages
      let _ ← Routine.ofExcept (activeToolBatch messages batch)
      markToolBatchReady
      pure messages
    else pure messages

def resolutionResult (claim : ToolResolutionClaim) : ToolResultBlock :=
  let isError := claim.outcome == .failed
  let output := if isError && claim.output == "" then claim.errorMessage else claim.output
  let output := if isError && output == "" then "tool execution failed" else output
  { toolUseID := claim.callID, content := output, isError := isError }

def canonicalResult (messages : List Message) (callID : String) : Option ToolResultBlock :=
  ((messages.drop 1).flatMap Message.toolResults).reverse.find? fun r => r.toolUseID == callID

def writeResolution (a : Agent) (claim : ToolResolutionClaim) (results : List String)
    (messages : List Message) : Engine (List Message) :=
  let expected := resolutionResult claim
  if claim.callID ∈ results then
    let actual := (canonicalResult messages claim.callID).getD { toolUseID := "" }
    if actual.content ≠ expected.content ∨ actual.isError ≠ expected.isError then
      Routine.throw .conversationConflict
    else pure messages
  else do
    saveConversation a .resolution (messages ++ [⟨.user,[.toolResult expected]⟩])
    pure (messages ++ [⟨.user,[.toolResult expected]⟩])

def finishResolutionClaim (a : Agent) (messages : List Message) : Engine (List Message) := do
  let r ← Routine.get
  match r.execution.bind (·.toolBatch) with
  | none => Routine.throw .executionRecoveryUnsupported
  | some batch =>
    match batch.resolution with
    | none => Routine.throw .executionRecoveryUnsupported
    | some claim =>
      let (_,results) ← Routine.ofExcept (activeToolBatch messages batch)
      let messages ← writeResolution a claim results messages
      let r ← Routine.get
      persistExecution .finishResolution fun e =>
        e.finishResolution r.revision r.lastSequence claim.callID
      pure messages

def pauseRecoveredExecution (i : Interrupt) : Engine Unit := do
  let r ← Routine.get
  persistExecution .pauseRecovered fun e =>
    .ok { e.withCursor r.revision r.lastSequence with
      status := .paused, phase := .paused
      pause := some (pauseFromInterrupt i), pendingPause := none }

def recoverResolution (a : Agent) (messages : List Message) : Engine (List Message) := do
  let r ← Routine.get
  match r.execution.bind (·.toolBatch) with
  | none => pure messages
  | some batch =>
    if batch.resolution.isSome then finishResolutionClaim a messages else pure messages

def uncertainCall (execution : Execution) (batch : ToolBatchExecution) : Option Error :=
  (batch.calls.find? fun call => call.status == .inFlight && !call.replaySafe).map fun call =>
    .toolExecutionUncertain execution.id call.callID call.name call.idempotencyKey

def recoverResults (messages : List Message) : Engine (Option ToolBatchExecution) := do
  let r ← Routine.get
  match r.execution.bind (·.toolBatch) with
  | none => pure none
  | some batch =>
    let (_,completed) ← Routine.ofExcept (activeToolBatch messages batch)
    completeCanonicalToolResults completed
    let r ← Routine.get
    pure (r.execution.bind (·.toolBatch))

def recoverDispatch (a : Agent) (c : Context) (batch : ToolBatchExecution)
    (messages : List Message) : Engine Unit := do
  let (calls,_) ← Routine.ofExcept (activeToolBatch messages batch)
  let decisions := persistedApprovalDecisions (some batch) calls
  let available ← visibleTools a a.tools
  let coordinated ← coordinateToolBatch a c calls available decisions { canonical := messages }
  match coordinated.interrupt with
  | some i => pauseRecoveredExecution i
  | none => pure ()

def recoverBatch (a : Agent) (c : Context) (execution : Execution) (batch : ToolBatchExecution) :
    Engine Unit := do
  Routine.modify fun r => { r with
    executionDurable := true, convID := execution.conversationID
    iteration := batch.iteration, recovering := true }
  let after := if batch.toolUseLastSequence > 0 then batch.toolUseLastSequence - 1
    else execution.lastSequence
  match ← loadAfter .recovery after with
  | .error fault => Routine.throw (.wrap "load conversation for recovery" fault.conversation)
  | .ok snapshot =>
    adoptSnapshot 0 snapshot
    let messages ← recoverToolUses a snapshot.messages
    let messages ← recoverResolution a messages
    match ← recoverResults messages with
    | none => pure ()
    | some batch =>
      match uncertainCall execution batch with
      | some err => Routine.throw err
      | none => recoverDispatch a c batch messages

def recoverExecution (a : Agent) (c : Context) : Engine Unit := do
  if a.executionStore = false ∨ a.conversation = false then Routine.throw .noExecutionStore
  else
    match ← loadExecution with
    | .error fault => Routine.throw (.wrap "load execution for recovery" fault.execution)
    | .ok execution =>
      Routine.modify fun r => { r with execution := some execution }
      match execution.pendingPause with
      | some pause => projectPause execution pause
      | none =>
        if execution.status = .paused ∧ execution.phase = .paused ∧ execution.pause.isSome then
          pure ()
        else match execution.toolBatch with
          | none => Routine.throw .executionRecoveryUnsupported
          | some batch =>
            if execution.status ≠ .running ∨ execution.phase ≠ .tools ∨
                execution.conversationID = "" then
              Routine.throw .executionRecoveryUnsupported
            else
              recoverBatch a { c with executionID := execution.id } execution batch

def reconcileClaimed (a : Agent) (claimed : Execution) (batch : ToolBatchExecution) :
    Engine Unit := do
  Routine.modify fun r => { r with
    executionDurable := true, convID := claimed.conversationID
    iteration := batch.iteration, recovering := true }
  if batch.toolUseLastSequence = 0 then Routine.throw .executionRecoveryUnsupported
  else
    match ← loadAfter .recovery (batch.toolUseLastSequence - 1) with
    | .error fault => Routine.throw fault.conversation
    | .ok snapshot =>
      adoptSnapshot 0 snapshot
      let _ ← finishResolutionClaim a snapshot.messages

def reconcileToolExecution (a : Agent) (executionID : String) (executionVersion : Nat)
    (callID : String) (resolution : ToolResolution) : Engine Unit := do
  if a.executionStore = false ∨ a.conversation = false then Routine.throw .noExecutionStore
  else if executionID = "" then
    Routine.throw (.text "reconcile tool execution: execution ID is required")
  else
    match ← loadExecution with
    | .error fault => Routine.throw fault.execution
    | .ok execution =>
      Routine.modify fun r => { r with execution := some execution }
      match execution.toolBatch with
      | none => Routine.throw .executionConflict
      | some batch =>
        if execution.version ≠ executionVersion ∨ batch.resolution ≠ none then
          Routine.throw .executionConflict
        else match batch.find? callID with
          | none => Routine.throw .executionConflict
          | some target =>
            if target.status ≠ .inFlight then Routine.throw .executionConflict
            else if resolution.outcome = .retry then
              let next := { execution with toolBatch := some (batch.setFirst callID fun call =>
                { call with status := .ready }) }
              match ← saveExecution (.retry callID) next with
              | .ok () => pure ()
              | .error fault =>
                Routine.modify fun r => { r with execution := none }
                Routine.throw fault.execution
            else
              let claim : ToolResolutionClaim :=
                ⟨callID,resolution.outcome,resolution.output,resolution.errorMessage⟩
              let batch := { batch with resolution := some claim }
              let next := { execution with toolBatch := some batch }
              match ← saveExecution .resolution next with
              | .ok () => reconcileClaimed a next batch
              | .error fault =>
                Routine.modify fun r => { r with execution := some next }
                Routine.throw fault.execution
end Engine
structure Response where
  result : Result := {}
  execution : Option Execution := none
  error : Option Error := none
  deriving DecidableEq, Repr

section
variable [Host]
def resultResponse : Except Error Result × Run → Response
  | (.ok res,_) => { result := res, error := res.error }
  | (.error err,_) => { error := some err }
def executionResponse : Except Error Unit × Run → Response
  | (.ok (),r) => { execution := r.execution }
  | (.error err,r) => { execution := r.execution, error := some err }

def Request.program (a : Agent) (c : Context) : Request → Program effects Response
  | invoke input => (Engine.invoke a c input {}).bind (.done <| resultResponse ·)
  | resume i resp => (Engine.resume a c i resp {}).bind (.done <| resultResponse ·)
  | recover => (Engine.recoverExecution a c {}).bind (.done <| executionResponse ·)
  | reconcile version callID resolution =>
    (Engine.reconcileToolExecution a c.executionID version callID resolution {}).bind
      (.done <| executionResponse ·)

/-- Workers of durable agents on one execution.  Every worker may be configured differently; a
context may be cancelled at any time. -/
def system : System effects World Response where
  Perform := World.Perform
  Spawn w p s s' := ∃ (a : Agent) (c : Context) (request : Request),
    a.conversation = true ∧ a.executionStore = true ∧ p = request.program a c ∧
      s' = s.record (.began w ⟨a,c,request⟩)
  Environment s s' := ∃ w cause, s' = s.record (.cancelled w cause)

/-- The worlds that any number of runs, on any number of workers, reach from a seed. -/
def Reaches (seed : World) (s : World) : Prop :=
  seed.log = [] ∧ ∃ workers, system.Reachable seed ⟨s,workers⟩
end
end GudeAgents
