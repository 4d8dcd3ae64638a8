import GudeAgents.Agent.Content
/-!
# Durable executions and interrupts

The records of `execution.go` and `interrupt.go`.
-/
namespace GudeAgents
open Host
inductive ExecutionStatus where
  | running
  | paused
  | completed
  | failed
  | canceled
  deriving DecidableEq, Repr

def ExecutionStatus.terminal : ExecutionStatus → Bool
  | .completed | .failed | .canceled => true
  | _ => false

inductive ExecutionPhase where
  | model
  | tools
  | paused
  | done
  deriving DecidableEq, Repr

structure ApprovalCall where
  callID : String
  name : String
  input : RawMessage
  deriving DecidableEq, Repr

structure ApprovalInterrupt where
  calls : List ApprovalCall
  deriving DecidableEq, Repr

structure InputInterrupt where
  reason : String
  question : String
  deriving DecidableEq, Repr

inductive InterruptType where
  | approval
  | humanInput
  deriving DecidableEq, Repr

structure ExecutionPause where
  type : InterruptType
  approval : Option ApprovalInterrupt := none
  input : Option InputInterrupt := none
  deriving DecidableEq, Repr

inductive ToolExecutionStatus where
  | planned
  | ready
  | inFlight
  | completed
  deriving DecidableEq, Repr

structure ToolApprovalDecision where
  allow : Bool
  reason : String
  deriving DecidableEq, Repr

structure ToolExecution where
  callID : String
  name : String
  status : ToolExecutionStatus
  idempotencyKey : String
  inputHash : String
  input : Option RawMessage
  replaySafe : Bool
  approval : Option ToolApprovalDecision := none
  deriving DecidableEq, Repr

inductive ToolResolutionOutcome where
  | succeeded
  | failed
  | retry
  deriving DecidableEq, Repr

structure ToolResolutionClaim where
  callID : String
  outcome : ToolResolutionOutcome
  output : String
  errorMessage : String
  deriving DecidableEq, Repr

structure ToolBatchExecution where
  iteration : Nat
  calls : List ToolExecution
  toolUseRevision : Nat := 0
  toolUseLastSequence : Nat := 0
  resolution : Option ToolResolutionClaim := none
  deriving DecidableEq, Repr

structure ToolResolution where
  outcome : ToolResolutionOutcome
  output : String := ""
  errorMessage : String := ""
  deriving DecidableEq, Repr

structure Execution where
  id : String
  conversationID : String := ""
  revision : Nat := 0
  lastSequence : Nat := 0
  startRevision : Nat := 0
  startLastSequence : Nat := 0
  startCursorPersisted : Bool := false
  status : ExecutionStatus
  phase : ExecutionPhase
  iteration : Nat := 0
  pause : Option ExecutionPause := none
  pendingPause : Option ExecutionPause := none
  toolBatch : Option ToolBatchExecution := none
  usage : TokenUsage := {}
  version : Nat := 0
  deriving DecidableEq, Repr

section Keys
variable [Host]
/-- Length-delimited identity of a call.  `len` counts bytes. -/
def toolExecutionKey (executionID callID : String) : String :=
  "gude/tool/v1/" ++ sha256Hex (toString executionID.utf8ByteSize ++ ":" ++ executionID ++
      toString callID.utf8ByteSize ++ ":" ++ callID)
def toolInputHash (input : RawMessage) : Except Error String :=
  match canonicalJSON input with
  | .error message => .error (.text ("canonical tool input: " ++ message))
  | .ok canonical => .ok (sha256Hex canonical)
end Keys
structure Interrupt where
  executionID : String := ""
  executionVersion : Nat := 0
  type : InterruptType
  conversationID : String := ""
  revision : Nat := 0
  lastSequence : Nat := 0
  approval : Option ApprovalInterrupt := none
  input : Option InputInterrupt := none
  deriving DecidableEq, Repr

def interruptFromExecution (execution : Execution) (pause : ExecutionPause) : Interrupt :=
  { executionID := execution.id
    executionVersion := execution.version
    type := pause.type
    conversationID := execution.conversationID
    revision := execution.revision
    lastSequence := execution.lastSequence
    approval := pause.approval
    input := pause.input }

def pauseFromInterrupt (i : Interrupt) : ExecutionPause :=
  { type := i.type, approval := i.approval, input := i.input }

/-- The human answer to an interrupt: `Approve`/`Deny`, `Decide`, `Respond`, or nothing. -/
inductive ResumeResponse where
  | none
  | all (decision : Decision)
  | decide (decisions : List (String × Decision))
  | respond (text : String)
  deriving DecidableEq, Repr

namespace ResumeResponse
def text : ResumeResponse → String
  | respond text => text
  | _ => ""

/-- A missing key of the decision map yields the zero decision, which denies. -/
def decisionFor (r : ResumeResponse) (callID : String) : Decision :=
  match r with
  | decide decisions => (decisions.lookup callID).getD {}
  | all decision => decision
  | _ => {}
end ResumeResponse
def checkApprovalCalls [Host] (seen : List String) : List ApprovalCall → Except Error Unit
  | [] => .ok ()
  | call :: rest =>
    if call.callID = "" then
      .error (.text ("resume: approval call " ++ quote call.name ++ " has empty call ID"))
    else if call.callID ∈ seen then
      .error (.text ("resume: duplicate call ID " ++ quote call.callID))
    else checkApprovalCalls (call.callID :: seen) rest

def validateResume [Host] (i : Interrupt) (r : ResumeResponse) : Except Error Unit :=
  match i.type with
  | .approval =>
    match i.approval with
    | none => .error (.text "resume: approval interrupt has no calls")
    | some approval =>
      if approval.calls = [] then .error (.text "resume: approval interrupt has no calls")
      else match checkApprovalCalls [] approval.calls with
        | .error err => .error err
        | .ok () =>
          let ids := approval.calls.map (·.callID)
          match r with
          | .all _ => .ok ()
          | .decide decisions =>
            match ids.find? fun id => (decisions.lookup id).isNone with
            | some id => .error (.text ("resume: missing decision for call ID " ++ quote id))
            | none =>
              match (decisions.map Prod.fst).find? fun id => decide (id ∉ ids) with
              | some id =>
                .error (.text ("resume: unexpected decision for call ID " ++ quote id))
              | none => .ok ()
          | .respond _ =>
            .error (.text "resume: Respond is only valid for human_input interrupts")
          | .none => .error (.text "resume: empty response")
  | .humanInput =>
    match r with
    | .respond _ => .ok ()
    | _ => .error (.text "resume: human_input interrupts require Respond")
end GudeAgents
