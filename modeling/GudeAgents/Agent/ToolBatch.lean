import GudeAgents.Agent.Execution
import GudeAgents.Agent.Projection
/-!
# Tool batches

The pure part of the tool boundary in `engine.go`, `tool_exec.go` and `tool_batch.go`.
-/
namespace GudeAgents
inductive ToolOutcomeKind where
  | definitive
  | pendingApproval
  | deferred
  | unknown
  | coordinationFailure
  deriving DecidableEq, Repr

structure ToolOutcome where
  kind : ToolOutcomeKind := .definitive
  result : ToolResultBlock := { toolUseID := "" }
  widgets : List WidgetBlock := []
  humanInput : Option InputInterrupt := none
  err : Option Error := none
  deriving DecidableEq, Repr

def batchOutcomeError (outcomes : List ToolOutcome) : Option Error :=
  outcomes.findSome? (·.err)
def ToolOutcome.resultBlock? (o : ToolOutcome) : Option ToolResultBlock :=
  if o.kind = .definitive ∧ o.result.toolUseID ≠ "" then some o.result else none
def resultBlocks (outcomes : List ToolOutcome) : List ContentBlock :=
  (outcomes.filterMap ToolOutcome.resultBlock?).map .toolResult
def notExecutedForInput : String :=
  "Not executed: the invocation paused for human input. Call the tool again if it is still needed."

def ToolOutcome.overtaken (o : ToolOutcome) (call : ToolCall) : ToolOutcome :=
  if o.kind = .pendingApproval then
    { o with
      kind := .definitive
      result := { o.result with
        toolUseID := call.toolUseID, content := notExecutedForInput, isError := true } }
  else o

/-- The interrupt of a dispatched batch, with the outcomes as the derivation leaves them.  The
first human-input request wins over every pending approval. -/
def pendingInterrupt (outcomes : List ToolOutcome) (calls : List ToolCall) :
    Option Interrupt × List ToolOutcome :=
  match outcomes.findSome? (·.humanInput) with
  | some input =>
    (some { type := .humanInput, input := some input },outcomes.zipWith ToolOutcome.overtaken calls)
  | none =>
    let pending := (outcomes.zip calls).filterMap fun (o,call) =>
      if o.kind = .pendingApproval then
        some { callID := call.toolUseID, name := call.name, input := call.input : ApprovalCall }
      else none
    if pending = [] then (none,outcomes)
    else (some { type := .approval, approval := some ⟨pending⟩ },outcomes)

def toolUseMessage (resp : ModelResponse) : Message :=
  { role := .assistant
    content := (if resp.text ≠ "" then [.text resp.text] else []) ++
      resp.toolCalls.map fun tc => .toolUse ⟨tc.toolUseID,tc.name,tc.input⟩ }

def toolUseMessageWithWidgets (resp : ModelResponse) (outcomes : List ToolOutcome) : Message :=
  { role := .assistant
    content := (if resp.text ≠ "" ∧ resp.toolCalls ≠ [] then [.text resp.text] else []) ++
      (resp.toolCalls.zip outcomes).flatMap fun (tc,o) =>
        .toolUse ⟨tc.toolUseID,tc.name,tc.input⟩ :: o.widgets.map .widget }

def ToolBatchExecution.toolUseContent (batch : ToolBatchExecution) : Option (List ContentBlock) :=
  batch.calls.mapM fun call =>
    call.input.map fun input => .toolUse ⟨call.callID,call.name,input⟩

section Matching
variable [Host]
def useMatches (block : ContentBlock) (call : ToolExecution) : Bool :=
  match block with
  | .toolUse use =>
    match toolInputHash use.input with
    | .ok hash => use.toolUseID == call.callID && use.name == call.name && hash == call.inputHash
    | .error _ => false
  | _ => false

def usesMatch : List ContentBlock → List ToolExecution → Bool
  | [], [] => true
  | block :: blocks, call :: calls => useMatches block call && usesMatch blocks calls
  | _, _ => false
def ToolUseBlock.call (use : ToolUseBlock) : ToolCall := ⟨use.toolUseID,use.name,use.input⟩
def ToolBatchExecution.callIDs (batch : ToolBatchExecution) : List String :=
  batch.calls.map (·.callID)
def Message.isUseOf (message : Message) (batch : ToolBatchExecution) : Bool :=
  message.role == .assistant && usesMatch message.content batch.calls

def collectResults (known : List String) : List String → List ToolResultBlock →
    Except Error (List String)
  | seen, [] => .ok seen
  | seen, result :: rest =>
    if result.toolUseID ∉ known then .error .conversationConflict
    else if result.toolUseID ∈ seen then .error .conversationConflict
    else collectResults known (result.toolUseID :: seen) rest

def collectMessages (known : List String) : List String → List Message →
    Except Error (List String)
  | seen, [] => .ok seen
  | seen, message :: rest =>
    if message.isToolResults then
      match collectResults known seen message.toolResults with
      | .ok seen' => collectMessages known seen' rest
      | .error err => .error err
    else .error .conversationConflict

/-- Validates exactly the assistant turn of the batch and only its later results; returns the
calls and the answered IDs. -/
def activeToolBatch (messages : List Message) (batch : ToolBatchExecution) :
    Except Error (List ToolCall × List String) :=
  match messages with
  | [] => .error .executionRecoveryUnsupported
  | first :: rest =>
    if first.isUseOf batch ∧ batch.callIDs.Nodup then
      match collectMessages batch.callIDs [] rest with
      | .ok results => .ok (first.toolUses.map ToolUseBlock.call,results)
      | .error err => .error err
    else .error .executionRecoveryUnsupported

def fromLastUse (batch : ToolBatchExecution) : List Message → Option (List Message)
  | [] => none
  | message :: rest =>
    match fromLastUse batch rest with
    | some suffix => some suffix
    | none => if message.isUseOf batch then some (message :: rest) else none

def activeToolBatchFromMessages (messages : List Message) (batch : ToolBatchExecution) :
    Except Error (List ToolCall × List String) :=
  match fromLastUse batch messages with
  | some suffix => activeToolBatch suffix batch
  | none => .error .executionRecoveryUnsupported

def requestedMatches (use : ToolUseBlock) (call : ToolCall) : Bool :=
  match toolInputHash use.input, toolInputHash call.input with
  | .ok hash, .ok requestedHash =>
    use.toolUseID == call.toolUseID && use.name == call.name && hash == requestedHash
  | _, _ => false

def afterRequested (requested : List ToolCall) : List Message → Option (List Message)
  | [] => none
  | message :: rest =>
    match afterRequested requested rest with
    | some suffix => some suffix
    | none =>
      if message.role = .assistant ∧ message.toolUses.length = requested.length ∧
          (message.toolUses.zip requested).all (fun (use,call) => requestedMatches use call) then
        some rest
      else none

def filterCompletedToolCalls (messages : List Message) (requested : List ToolCall)
    (decisions : Option (List (Option Decision))) :
    Except Error (List ToolCall × Option (List (Option Decision))) :=
  if requested = [] then .ok (requested,decisions)
  else match afterRequested requested messages with
    | none => .error .executionRecoveryUnsupported
    | some later =>
      let completed := ((later.takeWhile fun m => decide (m.role ≠ .assistant)).filter
        Message.isToolResults).flatMap fun m => m.toolResults.map (·.toolUseID)
      let remaining := (requested.zipIdx).filter fun (call,_) => !completed.contains call.toolUseID
      .ok (remaining.map Prod.fst, decisions.map fun ds => remaining.map fun (_,j) => (ds[j]?).join)
end Matching
def ToolApprovalDecision.decision (a : ToolApprovalDecision) : Decision := ⟨a.allow,a.reason⟩
def ToolBatchExecution.approvalFor (batch : ToolBatchExecution) (callID : String) :
    Option Decision :=
  batch.calls.findSome? fun active =>
    if active.callID = callID then active.approval.map ToolApprovalDecision.decision else none

def persistedApprovalDecisions (batch : Option ToolBatchExecution) (calls : List ToolCall) :
    Option (List (Option Decision)) :=
  match batch with
  | none => none
  | some batch =>
    let decisions := calls.map fun call => batch.approvalFor call.toolUseID
    if decisions.any Option.isSome then some decisions else none

def approvalResumeBatch (messages : List Message) (approval : Option ApprovalInterrupt)
    (resp : ResumeResponse) : Except Error (List ToolCall × List (Option Decision)) :=
  match approval with
  | none => .error (.text "resume approval interrupt has no calls")
  | some approval =>
    if approval.calls = [] then .error (.text "resume approval interrupt has no calls")
    else
      let pending := approval.calls.map (·.callID)
      -- `len(seen) == len(pending)` over maps: every pending ID is among the tool uses
      match messages.reverse.find? fun m =>
          m.role == .assistant && !m.toolUses.isEmpty &&
            pending.all fun id => (m.toolUses.map (·.toolUseID)).contains id with
      | none => .error (.text "resume approval interrupt tool batch not found")
      | some m =>
        let calls := m.toolUses.map fun tu =>
          match approval.calls.reverse.find? fun c => c.callID == tu.toolUseID with
          | some approved => { tu.call with input := approved.input }
          | none => tu.call
        .ok (calls,calls.map fun call =>
          if call.toolUseID ∈ pending then some (resp.decisionFor call.toolUseID) else none)

namespace ToolBatchExecution
def mapCalls (batch : ToolBatchExecution) (f : ToolExecution → ToolExecution) :
    ToolBatchExecution :=
  { batch with calls := batch.calls.map f }
def find? (batch : ToolBatchExecution) (callID : String) : Option ToolExecution :=
  batch.calls.find? fun call => call.callID == callID

def setFirst (batch : ToolBatchExecution) (callID : String) (f : ToolExecution → ToolExecution) :
    ToolBatchExecution :=
  { batch with calls := go batch.calls }
where
  go : List ToolExecution → List ToolExecution
    | [] => []
    | call :: rest => if call.callID = callID then f call :: rest else call :: go rest

def allPlanned (batch : ToolBatchExecution) : Bool := batch.calls.all (·.status == .planned)
def allCompleted (batch : ToolBatchExecution) : Bool := batch.calls.all (·.status == .completed)
def complete (batch : ToolBatchExecution) (completed : List String) : ToolBatchExecution :=
  batch.mapCalls fun call =>
    if call.callID ∈ completed then { call with status := .completed } else call
end ToolBatchExecution
namespace Execution
def withCursor (e : Execution) (revision lastSequence : Nat) : Execution :=
  { e with revision := revision, lastSequence := lastSequence }
def settleBatch (e : Execution) (batch : ToolBatchExecution) : Execution :=
  if batch.allCompleted then { e with toolBatch := none, phase := .model }
  else { e with toolBatch := some batch }

def removeToolCalls (e : Execution) (revision lastSequence : Nat) (completed : List String) :
    Execution :=
  match e.toolBatch with
  | none => e.withCursor revision lastSequence
  | some batch => (e.withCursor revision lastSequence).settleBatch (batch.complete completed)

def markReady (e : Execution) (revision lastSequence : Nat) : Except Error Execution :=
  match e.toolBatch with
  | none => .error .executionRecoveryUnsupported
  | some batch =>
    if batch.allPlanned then
      .ok { e.withCursor revision lastSequence with
        toolBatch := some { batch.mapCalls fun call =>
            { call with status := .ready, input := none } with
          toolUseRevision := revision, toolUseLastSequence := lastSequence } }
    else .error .executionRecoveryUnsupported

def claimTool (e : Execution) (recovering : Bool) (callID toolName : String) :
    Except Error (Execution × String × Bool) :=
  match e.toolBatch with
  | none => .error .executionRecoveryUnsupported
  | some batch =>
    match batch.find? callID with
    | none => .error .executionRecoveryUnsupported
    | some call =>
      match call.status with
      | .ready =>
        .ok ({ e with toolBatch := some (batch.setFirst callID fun call =>
          { call with status := .inFlight }) },call.idempotencyKey,false)
      | .inFlight =>
        if recovering && call.replaySafe then .ok (e,call.idempotencyKey,true)
        else .error (.toolExecutionUncertain e.id callID toolName call.idempotencyKey)
      | _ => .error .executionRecoveryUnsupported

def storeDecisions (e : Execution) (resp : ResumeResponse) : List ApprovalCall → Except Error Execution
  | [] => match e.toolBatch with
    | none => .error .executionRecoveryUnsupported
    | some _ => .ok e
  | requested :: rest => match e.toolBatch with
    | none => .error .executionRecoveryUnsupported
    | some batch =>
      match batch.find? requested.callID with
      | none => .error .executionRecoveryUnsupported
      | some _ =>
        let decision := resp.decisionFor requested.callID
        let batch := batch.setFirst requested.callID fun call =>
          { call with approval := some ⟨decision.allow,decision.reason⟩ }
        storeDecisions { e with toolBatch := some batch } resp rest

def finishResolution (e : Execution) (revision lastSequence : Nat) (callID : String) :
    Except Error Execution :=
  match e.toolBatch with
  | none => .error .executionConflict
  | some batch =>
    match batch.resolution with
    | none => .error .executionConflict
    | some claim =>
      if claim.callID ≠ callID then .error .executionConflict
      else .ok ((e.withCursor revision lastSequence).settleBatch
        { batch.complete [callID] with resolution := none })
end Execution
structure PriorToolUse where
  name : String
  inputHash : String
  deriving DecidableEq, Repr

section Planning
variable [Host]
def priorToolUsesOf : List (String × PriorToolUse) → List ToolUseBlock →
    Except Error (List (String × PriorToolUse))
  | seen, [] => .ok seen
  | seen, use :: rest =>
    match toolInputHash use.input with
    | .error err =>
      .error (.wrap ("canonical prior tool input " ++ Host.quote use.toolUseID) err)
    | .ok hash => priorToolUsesOf ((use.toolUseID,⟨use.name,hash⟩) :: seen) rest

def planCall (executionID : String) (prior : List (String × PriorToolUse))
    (replaySafe : String → Bool) (i : Nat) (seen : List String) (call : ToolCall) :
    Except Error ToolExecution :=
  if call.toolUseID = "" then
    .error (.text ("tool call " ++ toString i ++ " has empty call ID"))
  else if call.toolUseID ∈ seen then
    .error (.text ("tool call " ++ toString i ++ " duplicates call ID " ++
      Host.quote call.toolUseID))
  else match toolInputHash call.input with
    | .error err => .error (.wrap ("tool call " ++ Host.quote call.toolUseID ++ " input") err)
    | .ok inputHash =>
      match prior.lookup call.toolUseID with
      | some previous =>
        if previous.name ≠ call.name ∨ previous.inputHash ≠ inputHash then
          .error (.text ("tool call " ++ toString i ++ " reuses call ID " ++
            Host.quote call.toolUseID ++ " with different name or input"))
        else
          .error (.text ("tool call " ++ toString i ++ " reuses call ID " ++
            Host.quote call.toolUseID ++ " within execution"))
      | none =>
        .ok { callID := call.toolUseID, name := call.name, status := .planned
              idempotencyKey := toolExecutionKey executionID call.toolUseID
              inputHash := inputHash, input := some call.input
              replaySafe := replaySafe call.name }

def planCalls (executionID : String) (prior : List (String × PriorToolUse))
    (replaySafe : String → Bool) : Nat → List String → List ToolCall →
    Except Error (List ToolExecution)
  | _, _, [] => .ok []
  | i, seen, call :: rest =>
    match planCall executionID prior replaySafe i seen call with
    | .error err => .error err
    | .ok planned =>
      match planCalls executionID prior replaySafe (i + 1) (call.toolUseID :: seen) rest with
      | .error err => .error err
      | .ok calls => .ok (planned :: calls)

def Execution.plan (e : Execution) (prior : List (String × PriorToolUse))
    (replaySafe : String → Bool) (calls : List ToolCall)
    (revision lastSequence iteration : Nat) : Except Error Execution :=
  match e.toolBatch with
  | some _ => .error .executionRecoveryUnsupported
  | none =>
    match planCalls e.id prior replaySafe 0 [] calls with
    | .error err => .error err
    | .ok planned =>
      .ok { e.withCursor revision lastSequence with
        phase := .tools, iteration := iteration
        toolBatch := some { iteration := iteration, calls := planned } }
end Planning
end GudeAgents
