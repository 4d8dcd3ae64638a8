import GudeAgents.Agent.Execution
import GudeAgents.Agent.Projection
import GudeAgents.Agent.ToolBatch
import GudeAgents.Framework.Runs
/-!
# Agents and requests

The configuration of `agent.go` and `options.go` that the engine reads, and the calls of its
entry points.
-/
namespace GudeAgents
section
structure Tool where
  name : String
  needsApproval : Bool := false
  replaySafe : Bool := false
  guarded : Bool := false
  deriving DecidableEq, Repr

structure Agent where
  tools : List Tool := []
  instructions : String := ""
  maxIterations : Nat := 10
  tokenBudget : Int := 0
  sequentialTools : Bool := false
  /-- Zero means no limit. -/
  maxConcurrentTools : Nat := 0
  /-- A `ConversationStore` is configured; the other flags say the same of their component. -/
  conversation : Bool := true
  executionStore : Bool := true
  contextManager : Bool := false
  retriever : Bool := false
  rateLimiter : Bool := false
  toolVisibility : Bool := false
  inputGuardrails : Nat := 0
  outputGuardrails : Nat := 0
  normDisabled : Bool := false
  normStrategy : Option NormStrategy := none
  deriving DecidableEq, Repr

structure Context where
  conversationID : String
  executionID : String
  images : List ImageBlock := []
  documents : List DocumentBlock := []
  deriving DecidableEq, Repr

inductive RequestKind where
  | invoke
  | resume
  | recover
  | reconcile
  deriving DecidableEq, Repr

inductive Request where
  | invoke (input : String)
  | resume (interrupt : Interrupt) (response : ResumeResponse)
  | recover
  | reconcile (executionVersion : Nat) (callID : String) (resolution : ToolResolution)
  deriving DecidableEq, Repr

def Request.kind : Request → RequestKind
  | invoke _ => .invoke
  | resume .. => .resume
  | recover => .recover
  | reconcile .. => .reconcile

structure Entry where
  agent : Agent
  context : Context
  request : Request
  deriving DecidableEq, Repr
end
/-!
## The world the engine runs against

Both stores are compare-and-swap logs.  The world is one log of events, from which the stored
record, the transcript and a worker's memory are read off.  Labels name the call site.
-/
structure ConversationCursor where
  revision : Nat := 0
  lastSequence : Nat := 0
  deriving DecidableEq, Repr

structure ConversationSnapshot where
  messages : List Message
  cursor : ConversationCursor
  deriving DecidableEq, Repr

inductive SaveLabel where
  | create
  | resumeClaim (interrupt : Interrupt) (response : ResumeResponse)
  | startCursor
  | runtimeProgress
  | pendingPause
  | plan
  | ready
  | beginTool (callID : String)
  | removeToolCalls (completed : List String)
  | approvals
  | pauseRecovered
  | projectPause
  | retry (callID : String)
  | resolution
  | finishResolution
  | pause
  | finalize
  deriving DecidableEq, Repr

inductive ReadLabel where
  | turn
  | recovery
  | priorToolUses
  deriving DecidableEq, Repr

/-- What an append adds: user and assistant text, the tool uses of a batch, results of
dispatched calls, or a manual resolution. -/
inductive AppendLabel where
  | turn
  | toolUse
  | results
  | resolution
  deriving DecidableEq, Repr

/-- How a write ended: accepted and acknowledged, accepted with the acknowledgement lost, or
without effect. -/
inductive Verdict where
  | acked
  | lost
  | refused
  deriving DecidableEq, Repr

def Verdict.committed : Verdict → Bool
  | .refused => false
  | _ => true

structure ModelRequest where
  messages : List Message
  system : String
  tools : List String
  deriving DecidableEq, Repr

/-- What a handler is started with. -/
structure HandlerStart where
  call : ToolCall
  idempotencyKey : String
  recoveryReplay : Bool
  needsApproval : Bool
  deriving DecidableEq, Repr

inductive HandlerResult where
  | returned (text : String) (isError : Bool) (images : List ImageBlock)
      (humanInput : Option InputInterrupt)
  | failed (message : String) (outcomeUnknown : Bool)
  deriving DecidableEq, Repr

structure HandlerReply where
  widgets : List WidgetBlock := []
  result : HandlerResult
  deriving DecidableEq, Repr

inductive Access where
  | allowed
  | deniedByAttributes
  | deniedByRole
  deriving DecidableEq, Repr

inductive Direction where
  | input
  | output
  deriving DecidableEq, Repr

def Direction.name : Direction → String
  | .input => "input"
  | .output => "output"

/-- Application code and configuration the engine consults; the world may answer anything. -/
inductive Query where
  | guardrail (direction : Direction) (index : Nat) (message : String)
  | historyBoundary
  | prepareContext (recent current transient : List Message)
  | retrieve (message : String)
  | inferenceConfig
  | isVisible (tool : String)
  | allowedForPrincipal (tool : String)
  | validateToolInput (tool : String) (input : RawMessage)
  | guard (tool : String) (input : RawMessage)
  | reserveLease
  | releaseLease
  | schedule (candidates : List Nat)
  deriving DecidableEq, Repr

def Query.Answer : Query → Type
  | guardrail .. => Except Error String
  | historyBoundary => Except Error Nat
  | prepareContext .. => Except Error (List Message)
  | retrieve _ => Except Error (Option String)
  | inferenceConfig | reserveLease | releaseLease => Option Error
  | isVisible _ => Bool
  | allowedForPrincipal _ => Access
  | validateToolInput .. => Option String
  | guard .. => Except String Decision
  | schedule _ => Nat

inductive Note where
  | seededUsage (usage : TokenUsage)
  | addedUsage (usage : TokenUsage)
  | testedBudget (cumulative : TokenUsage)
  | dispatched (calls : List ToolCall) (outcomes : List ToolOutcome)
  deriving DecidableEq, Repr

inductive Op where
  | create (execution : Execution)
  | load
  | save (label : SaveLabel) (execution : Execution) (expectedVersion : Nat)
  | loadAfter (label : ReadLabel) (afterSequence : Nat)
  | append (label : AppendLabel) (messages : List Message) (expectedRevision : Nat)
  | contextErr
  | callModel (request : ModelRequest)
  | commitLease (usage : TokenUsage)
  | handler (start : HandlerStart)
  | ask (query : Query)
  | note (note : Note)
  deriving DecidableEq, Repr

def Op.Answer : Op → Type
  | create _ | load | save .. => Except StoreFault Execution
  | loadAfter .. => Except StoreFault ConversationSnapshot
  | append .. => Except StoreFault ConversationCursor
  | contextErr => Option ContextError
  | callModel _ => Except Error ModelResponse
  | commitLease _ => Option Error
  | handler _ => HandlerReply
  | ask query => query.Answer
  | note _ => Unit

def effects : Framework.Effects := ⟨Op,Op.Answer⟩

inductive Event where
  | began (worker : Nat) (entry : Entry)
  | load (worker : Nat) (execution : Execution)
  | save (worker : Nat) (label : SaveLabel) (execution : Execution) (verdict : Verdict)
  | read (worker : Nat) (label : ReadLabel) (afterSequence : Nat) (cursor : ConversationCursor)
  | append (worker : Nat) (label : AppendLabel) (messages : List Message)
      (cursor : ConversationCursor) (verdict : Verdict)
  | called (worker : Nat) (usage : Option TokenUsage)
  | leaseCommit (worker : Nat) (accepted : Bool)
  | handler (worker : Nat) (start : HandlerStart) (reply : HandlerReply)
  | note (worker : Nat) (note : Note)
  | cancelled (worker : Nat) (cause : ContextError)
  deriving DecidableEq, Repr

structure Stored where
  worker : Nat
  label : SaveLabel
  execution : Execution
  deriving DecidableEq, Repr

structure Appended where
  worker : Nat
  label : AppendLabel
  messages : List Message
  deriving DecidableEq, Repr

namespace Event
def worker? : Event → Option Nat
  | began w _ | load w _ | save w _ _ _ | read w _ _ _ | append w _ _ _ _ | called w _
  | leaseCommit w _ | handler w _ _ | note w _ => some w
  | cancelled _ _ => none
def stored? : Event → Option Stored
  | save w label e v => if v.committed then some ⟨w,label,e⟩ else none
  | _ => none
def appended? : Event → Option Appended
  | append w label messages _ v => if v.committed then some ⟨w,label,messages⟩ else none
  | _ => none
def held? : Event → Option Execution
  | load _ e => some e
  | save _ _ e .acked => some e
  | _ => none

def cursor? : Event → Option ConversationCursor
  | read _ .priorToolUses _ _ => none
  | read _ _ _ cursor => some cursor
  | append _ _ _ cursor .acked => some cursor
  | _ => none
end Event
/-- The stores, as the log of what happened to them. -/
structure World where
  seedRevision : Nat := 0
  seedMessages : List Message := []
  log : List Event := []
  deriving DecidableEq, Repr

namespace World
def record (s : World) (event : Event) : World := { s with log := s.log ++ [event] }

/-- Accepted saves; the record at position `k` has version `k + 1`. -/
def stored (s : World) : List Stored := s.log.filterMap Event.stored?
def records (s : World) : List Execution := s.stored.map (·.execution)
def version (s : World) : Nat := s.stored.length
def current? (s : World) : Option Execution := s.records.getLast?
def appended (s : World) : List Appended := s.log.filterMap Event.appended?
def revision (s : World) : Nat := s.seedRevision + s.appended.length
def messages (s : World) : List Message := s.seedMessages ++ s.appended.flatMap (·.messages)
def cursor (s : World) : ConversationCursor := ⟨s.revision,s.messages.length⟩
def messagesAt (s : World) (revision : Nat) : List Message :=
  s.seedMessages ++ (s.appended.take (revision - s.seedRevision)).flatMap (·.messages)
def loadAfter (s : World) (afterSequence : Nat) : ConversationSnapshot :=
  ⟨s.messages.drop afterSequence,s.cursor⟩
def own (s : World) (w : Nat) : List Event := s.log.filter fun ev => ev.worker? == some w
def hand? (s : World) (w : Nat) : Option Execution :=
  ((s.own w).filterMap Event.held?).getLast?
def cursorOf (s : World) (w : Nat) : ConversationCursor :=
  (((s.own w).filterMap Event.cursor?).getLast?).getD {}
def addUsageEvent (usage : TokenUsage) : Event → TokenUsage
  | .note _ (.seededUsage u) => u
  | .note _ (.addedUsage u) => usage + u
  | _ => usage
def usageOf (s : World) (w : Nat) : TokenUsage := (s.own w).foldl addUsageEvent 0
def addIterationEvent (iteration : Nat) : Event → Nat
  | .load _ e => e.iteration
  | .called _ _ => iteration + 1
  | _ => iteration

/-- The iterations of the record the worker opened and the provider calls it has made since. -/
def iterationOf (s : World) (w : Nat) : Nat := (s.own w).foldl addIterationEvent 0
def cancellation? (s : World) (w : Nat) : Option ContextError :=
  s.log.findSome? fun
    | .cancelled w' cause => if w' = w then some cause else none
    | _ => none

def Saves (w : Nat) (label : SaveLabel) (e : Execution) (expected : Nat) (s : World)
    (answer : Except StoreFault Execution) (s' : World) : Prop :=
  ∃ verdict : Verdict, (verdict.committed = true → expected = s.version) ∧
    s' = s.record (.save w label { e with version := expected + 1 } verdict) ∧
    (match verdict with
      | .acked => answer = .ok { e with version := expected + 1 }
      | _ => ∃ fault, answer = .error fault)

def Appends (w : Nat) (label : AppendLabel) (messages : List Message) (expected : Nat)
    (s : World) (answer : Except StoreFault ConversationCursor) (s' : World) : Prop :=
  ∃ verdict : Verdict, (verdict.committed = true → expected = s.revision) ∧
    s' = s.record (.append w label messages
      ⟨expected + 1,s.messages.length + messages.length⟩ verdict) ∧
    (match verdict with
      | .acked => answer = .ok ⟨expected + 1,s.messages.length + messages.length⟩
      | _ => ∃ fault, answer = .error fault)

/-- What one operation of a worker answers and records. -/
def Perform (w : Nat) : (op : Op) → World → op.Answer → World → Prop
  | .create e, s, answer, s' => Saves w .create e 0 s answer s'
  | .load, s, answer, s' =>
    (∃ e, s.current? = some e ∧ answer = .ok e ∧ s' = s.record (.load w e)) ∨
      (∃ fault, answer = .error fault) ∧ s' = s
  | .save label e expected, s, answer, s' => Saves w label e expected s answer s'
  | .loadAfter label after, s, answer, s' =>
    (answer = .ok (s.loadAfter after) ∧ s' = s.record (.read w label after s.cursor)) ∨
      (∃ fault, answer = .error fault) ∧ s' = s
  | .append label messages expected, s, answer, s' =>
    Appends w label messages expected s answer s'
  | .contextErr, s, answer, s' => answer = s.cancellation? w ∧ s' = s
  | .callModel _, s, answer, s' =>
    (∃ resp : ModelResponse, answer = .ok resp ∧ s' = s.record (.called w (some resp.usage))) ∨
      (∃ err, answer = .error err) ∧ s' = s.record (.called w none)
  | .commitLease _, s, answer, s' =>
    s' = s.record (.leaseCommit w (@Option.isNone Error answer))
  | .handler start, s, answer, s' => s' = s.record (.handler w start answer)
  | .ask _, s, _, s' => s' = s
  | .note n, s, _, s' => s' = s.record (.note w n)
end World
end GudeAgents
