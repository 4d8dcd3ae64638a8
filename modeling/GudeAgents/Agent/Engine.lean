import GudeAgents.Agent.World
/-!
# The engine of one run

`run` of `engine.go` as routines over the world's calls, with the tool pipeline of `tool_exec.go` and
the coordinator of `tool_batch.go`.
-/
namespace GudeAgents
open Framework
/-- `run`, together with the usage counter of its invocation runtime. -/
structure Run where
  execution : Option Execution := none
  executionDurable : Bool := false
  convID : String := ""
  revision : Nat := 0
  lastSequence : Nat := 0
  historyBoundary : Nat := 0
  recovering : Bool := false
  iteration : Nat := 0
  persistedCount : Nat := 0
  usage : TokenUsage := {}
  deriving DecidableEq, Repr

abbrev Engine := Routine effects Run Error
def Agent.lookup (a : Agent) (name : String) : Option Tool := a.tools.find? fun t => t.name == name
def Agent.replaySafe (a : Agent) (name : String) : Bool :=
  match a.lookup name with
  | some t => t.replaySafe
  | none => false
def Agent.concurrentLimit (a : Agent) : Nat :=
  if a.sequentialTools then 1 else a.maxConcurrentTools
def Agent.hasConversation (a : Agent) (r : Run) : Bool := a.conversation && r.convID != ""

namespace Engine
def call (op : Op) : Engine op.Answer := @Routine.perform effects Run Error op
def ask (query : Query) : Engine query.Answer := call (.ask query)
def note (n : Note) : Engine Unit := call (.note n)
def contextErr : Engine (Option ContextError) := call .contextErr
def loadExecution : Engine (Except StoreFault Execution) := call .load
def loadAfter (label : ReadLabel) (afterSequence : Nat) :
    Engine (Except StoreFault ConversationSnapshot) := call (.loadAfter label afterSequence)
def createRecord (execution : Execution) : Engine (Except StoreFault Execution) :=
  call (.create execution)
def saveRecord (label : SaveLabel) (execution : Execution) (expectedVersion : Nat) :
    Engine (Except StoreFault Execution) := call (.save label execution expectedVersion)
def appendMessages (label : AppendLabel) (messages : List Message) (expectedRevision : Nat) :
    Engine (Except StoreFault ConversationCursor) := call (.append label messages expectedRevision)
def callModel (request : ModelRequest) : Engine (Except Error ModelResponse) :=
  call (.callModel request)
def commitLease (usage : TokenUsage) : Engine (Option Error) := call (.commitLease usage)
def startHandler (start : HandlerStart) : Engine HandlerReply := call (.handler start)
def checkContext : Engine Unit := do
  match ← contextErr with
  | some cause => Routine.throw (.context cause)
  | none => pure ()

def addUsage (u : TokenUsage) : Engine TokenUsage := do
  note (.addedUsage u)
  Routine.modify fun r => { r with usage := r.usage + u }
  let r ← Routine.get
  pure r.usage

def seedUsage (u : TokenUsage) : Engine Unit := do
  note (.seededUsage u)
  Routine.modify fun r => { r with usage := u }

def saveExecution (label : SaveLabel) (next : Execution) : Engine (Except StoreFault Unit) := do
  match ← saveRecord label next next.version with
  | .ok updated =>
    Routine.modify fun r => { r with execution := some updated }
    pure (.ok ())
  | .error fault => pure (.error fault)

def persistExecution (label : SaveLabel) (change : Execution → Except Error Execution) :
    Engine Unit := do
  let r ← Routine.get
  if r.executionDurable then
    match r.execution with
    | none => Routine.throw .executionRecoveryUnsupported
    | some execution =>
      let next ← Routine.ofExcept (change execution)
      match ← saveExecution label next with
      | .ok () => pure ()
      | .error fault => Routine.throw fault.execution
  else pure ()

def persistRuntimeProgress : Engine Unit := do
  let r ← Routine.get
  persistExecution .runtimeProgress fun e =>
    .ok { e with iteration := r.iteration, usage := r.usage }

def persistPendingPause (interrupt : Interrupt) : Engine Unit := do
  let r ← Routine.get
  persistExecution .pendingPause fun e =>
    .ok { e with
      pendingPause := some (pauseFromInterrupt interrupt)
      iteration := r.iteration, usage := r.usage }

def persistExecutionStartCursor : Engine Unit := do
  let r ← Routine.get
  match r.execution with
  | none => pure ()
  | some execution =>
    if r.executionDurable ∧ execution.startCursorPersisted = false then
      persistExecution .startCursor fun e =>
        .ok { e with
          startRevision := r.revision, startLastSequence := r.lastSequence
          startCursorPersisted := true }
    else pure ()

def saveConversation (a : Agent) (label : AppendLabel) (messages : List Message) :
    Engine Unit := do
  let r ← Routine.get
  if a.hasConversation r then
    if r.persistedCount > messages.length then
      Routine.throw (.text "conversation append: canonical history regressed")
    else if messages.drop r.persistedCount = [] then pure ()
    else
      match ← appendMessages label (messages.drop r.persistedCount) r.revision with
      | .ok cursor => Routine.modify fun r => { r with
          revision := cursor.revision, lastSequence := cursor.lastSequence
          persistedCount := messages.length }
      | .error fault => Routine.throw (.wrap "conversation append" fault.conversation)
  else pure ()

def markToolBatchReady : Engine Unit := do
  let r ← Routine.get
  persistExecution .ready fun e => e.markReady r.revision r.lastSequence
def removeToolCalls (completed : List String) : Engine Unit := do
  let r ← Routine.get
  persistExecution (.removeToolCalls completed) fun e =>
    .ok (e.removeToolCalls r.revision r.lastSequence completed)
def completeCanonicalToolResults (completed : List String) : Engine Unit :=
  if completed = [] then pure () else removeToolCalls completed

def commitToolResults (a : Agent) (messages : List Message) (outcomes : List ToolOutcome) :
    Engine Unit := do
  let r ← Routine.get
  if r.executionDurable then
    let completed := (outcomes.filterMap ToolOutcome.resultBlock?).map (·.toolUseID)
    if completed = [] then pure ()
    else
      saveConversation a .results messages
      removeToolCalls completed
  else pure ()

section
variable [Host]
def priorToolUses (a : Agent) : Engine (List (String × PriorToolUse)) := do
  let r ← Routine.get
  match r.execution with
  | none => Routine.throw .executionRecoveryUnsupported
  | some execution =>
    if a.hasConversation r ∧ execution.startCursorPersisted then
      match ← loadAfter .priorToolUses execution.startLastSequence with
      | .ok snapshot =>
        Routine.ofExcept (priorToolUsesOf [] (snapshot.messages.flatMap Message.toolUses))
      | .error fault => Routine.throw (.wrap "load execution tool history" fault.conversation)
    else Routine.throw .executionRecoveryUnsupported

def planToolBatch (a : Agent) (calls : List ToolCall) : Engine Unit := do
  let r ← Routine.get
  if r.executionDurable then
    match r.execution with
    | none => Routine.throw .executionRecoveryUnsupported
    | some execution =>
      if execution.toolBatch.isSome then Routine.throw .executionRecoveryUnsupported
      else
        persistExecutionStartCursor
        let prior ← priorToolUses a
        persistExecution .plan fun e =>
          e.plan prior a.replaySafe calls r.revision r.lastSequence r.iteration
  else pure ()

def beginToolExecution (callID toolName : String) : Engine (String × Bool) := do
  let r ← Routine.get
  if r.executionDurable then
    match r.execution with
    | none => Routine.throw .executionRecoveryUnsupported
    | some execution =>
      let (_,key,replay) ← Routine.ofExcept (execution.claimTool r.recovering callID toolName)
      persistExecution (.beginTool callID) fun e =>
        (e.claimTool r.recovering callID toolName).map Prod.fst
      pure (key,replay)
  else pure ("",false)

structure Job where
  call : ToolCall
  tool : Option Tool
  decision : Option Decision
  deriving DecidableEq, Repr

def failed (call : ToolCall) (content : String) : ToolOutcome :=
  { result := { toolUseID := call.toolUseID, content := content, isError := true } }
def denialResultJSON (toolName reason : String) : String :=
  "\x7b\"error\":\"tool_call_denied\",\"tool\":" ++ Host.jsonString toolName ++
    ",\"reason\":" ++ Host.jsonString reason ++ "\x7d"
def toolErrorText (toolName cause : String) : String :=
  "tool " ++ Host.quote toolName ++ " error: " ++ cause

def guardCall (t : Tool) (input : RawMessage) : Engine Decision := do
  if t.guarded then
    match ← ask (.guard t.name input) with
    | .ok d => pure d
    | .error message => pure { allow := false, reason := message }
  else pure { allow := true }

/-- Lookup, denial, RBAC, schema, guard and approval gate: the tool if the call may claim its
handler, or the outcome that ends it. -/
def gateCall (job : Job) : Engine (Except ToolOutcome Tool) := do
  match job.tool with
  | none => pure (.error (failed job.call ("unknown tool: " ++ job.call.name)))
  | some t =>
    if job.decision.any fun d => !d.allow then
      let reason := (job.decision.map (·.reason)).getD ""
      let reason := if reason = "" then "request denied by human reviewer" else reason
      pure (.error (failed job.call (denialResultJSON job.call.name reason)))
    else match ← ask (.allowedForPrincipal t.name) with
      | .deniedByAttributes =>
        pure (.error (failed job.call (denialResultJSON job.call.name
          "caller does not satisfy the required tool attributes")))
      | .deniedByRole =>
        pure (.error (failed job.call (denialResultJSON job.call.name
          "caller does not have the required principal or role")))
      | .allowed =>
        match ← ask (.validateToolInput t.name job.call.input) with
        | some message => pure (.error (failed job.call (toolErrorText job.call.name message)))
        | none =>
          let verdict ← guardCall t job.call.input
          if verdict.allow then
            if t.needsApproval && job.decision.isNone then
              pure (.error { kind := .pendingApproval
                             result := { toolUseID := job.call.toolUseID } })
            else pure (.ok t)
          else pure (.error (failed job.call (denialResultJSON job.call.name verdict.reason)))

structure ClaimedCall where
  tool : Tool
  idempotencyKey : String
  recoveryReplay : Bool
  deriving DecidableEq, Repr

/-- The pipeline up to the claim.  A lost claim is a coordination failure, never a result. -/
def claimCall (job : Job) : Engine (Except ToolOutcome ClaimedCall) := do
  match ← gateCall job with
  | .error outcome => pure (.error outcome)
  | .ok t =>
    match ← (beginToolExecution job.call.toolUseID job.call.name).attempt with
    | .ok (key,replay) => pure (.ok ⟨t,key,replay⟩)
    | .error err =>
      pure (.error { kind := if err.isUncertain then .unknown else .coordinationFailure
                     result := { toolUseID := job.call.toolUseID }
                     err := some err })

def handlerOutcome (executionID : String) (call : ToolCall) (key : String) (reply : HandlerReply) :
    ToolOutcome :=
  match reply.result with
  | .returned text isError images humanInput =>
    { result := { toolUseID := call.toolUseID, content := text, isError := isError
                  images := images }
      widgets := reply.widgets, humanInput := humanInput }
  | .failed message false =>
    { failed call (toolErrorText call.name message) with widgets := reply.widgets }
  | .failed _ true =>
    { kind := .unknown, result := { toolUseID := call.toolUseID }, widgets := reply.widgets
      err := some (.toolExecutionUncertain executionID call.toolUseID call.name key) }

def runHandler (c : Context) (job : Job) (claimed : ClaimedCall) : Engine ToolOutcome := do
  let reply ← startHandler
    { call := job.call, idempotencyKey := claimed.idempotencyKey
      recoveryReplay := claimed.recoveryReplay, needsApproval := claimed.tool.needsApproval }
  pure (handlerOutcome c.executionID job.call claimed.idempotencyKey reply)

def executeCall (c : Context) (job : Job) : Engine ToolOutcome := do
  match ← claimCall job with
  | .error outcome => pure outcome
  | .ok claimed => runHandler c job claimed

inductive Thread where
  | waiting (job : Job)
  | claimed (job : Job) (call : ClaimedCall)
  | finished (outcome : ToolOutcome)
  deriving DecidableEq, Repr

def Thread.outcome? : Thread → Option ToolOutcome
  | .finished outcome => some outcome
  | _ => none

def advance (c : Context) : Thread → Engine Thread
  | .waiting job => do
    match ← claimCall job with
    | .error outcome => pure (.finished outcome)
    | .ok claimed => pure (.claimed job claimed)
  | .claimed job call => do
    let outcome ← runHandler c job call
    pure (.finished outcome)
  | .finished outcome => pure (.finished outcome)

def activeThreads (limit : Nat) (threads : List Thread) : List Nat :=
  let unfinished := (threads.zipIdx.filter fun (t,_) => t.outcome?.isNone).map Prod.snd
  if limit = 0 then unfinished else unfinished.take limit

/-- Any interleaving of the calls of a batch.  Every turn moves one call, and two turns finish it,
so `2 * n` turns finish them all. -/
def runThreads (c : Context) (limit : Nat) : Nat → List Thread → Engine (List Thread)
  | 0, threads => pure threads
  | fuel + 1, threads => do
    let active := activeThreads limit threads
    if active = [] then pure threads
    else
      let pick : Nat ← ask (.schedule active)
      let i := active.getD (pick % active.length) 0
      match threads[i]? with
      | none => pure threads
      | some thread =>
        let thread ← advance c thread
        runThreads c limit fuel (threads.set i thread)

def runParallel (c : Context) (limit : Nat) (jobs : List Job) : Engine (List ToolOutcome) := do
  let threads ← runThreads c limit (2 * jobs.length) (jobs.map .waiting)
  pure (threads.map fun t => t.outcome?.getD { kind := .coordinationFailure })

def runSequential (c : Context) : List Job → Engine (List ToolOutcome)
  | [] => pure []
  | job :: rest => do
    let outcome ← match ← contextErr with
      | some cause => pure (failed job.call ("not executed: " ++ cause.message))
      | none => executeCall c job
    let outcomes ← runSequential c rest
    pure (outcome :: outcomes)

def runJobs (a : Agent) (c : Context) (jobs : List Job) : Engine (List ToolOutcome) :=
  if a.concurrentLimit ≠ 1 ∧ jobs.length > 1 then runParallel c a.concurrentLimit jobs
  else runSequential c jobs
def interleave {α : Type} : List Bool → List α → List α → List α
  | true :: flags, x :: xs, ys => x :: interleave flags xs ys
  | false :: flags, xs, y :: ys => y :: interleave flags xs ys
  | _, _, _ => []

def executeBatch (a : Agent) (c : Context) (calls : List ToolCall) (available : List Tool)
    (decisions : Option (List (Option Decision))) : Engine (List ToolOutcome) := do
  let resolve := fun (call : ToolCall) => available.find? fun t => t.name == call.name
  match decisions with
  | some decisions =>
    runJobs a c (calls.zipIdx.map fun (call,i) => ⟨call,resolve call,(decisions[i]?).join⟩)
  | none =>
    -- calls that need approval pass the pipeline before any sibling handler may run
    let jobs : List Job := calls.map fun call => ⟨call,resolve call,none⟩
    let gated := jobs.map fun job => job.tool.any (·.needsApproval)
    let approvals := jobs.filter fun job => job.tool.any (·.needsApproval)
    let remaining := jobs.filter fun job => !job.tool.any (·.needsApproval)
    if approvals = [] then runJobs a c jobs
    else
      let first ← runJobs a c approvals
      if first.any fun o => o.kind == .pendingApproval then
        pure (interleave gated first (remaining.map fun _ => { kind := .deferred }))
      else
        let second ← runJobs a c remaining
        pure (interleave gated first second)

def prepareToolBatch (messages : List Message) (requested : List ToolCall)
    (decisions : Option (List (Option Decision))) :
    Engine (List ToolCall × Option (List (Option Decision))) := do
  let r ← Routine.get
  if r.executionDurable then
    match r.execution.bind (·.toolBatch) with
    | none => Routine.throw .executionRecoveryUnsupported
    | some batch =>
      let (calls,canonicalResults) ← Routine.ofExcept (activeToolBatchFromMessages messages batch)
      if requested ≠ [] ∧ (requested.map fun c => (c.toolUseID,c.name)) ≠
          (calls.map fun c => (c.toolUseID,c.name)) then
        Routine.throw .executionRecoveryUnsupported
      else
        completeCanonicalToolResults canonicalResults
        let r ← Routine.get
        match r.execution.bind (·.toolBatch) with
        | none => pure ([],none)
        | some batch =>
          let decisionFor := fun (id : String) =>
            ((requested.zip (decisions.getD [])).reverse.findSome? fun (c,d) =>
              if c.toolUseID = id then d else none)
          let remaining := ((calls.zip batch.calls).filter fun (_,stored) =>
            stored.status != .completed).map Prod.fst
          match persistedApprovalDecisions (some batch) remaining with
          | some persisted => pure (remaining,some persisted)
          | none => match decisions with
            | none => pure (remaining,none)
            | some _ => pure (remaining,some (remaining.map fun c => decisionFor c.toolUseID))
  else Routine.ofExcept (filterCompletedToolCalls messages requested decisions)

structure CoordinatedToolBatch where
  outcomes : List ToolOutcome := []
  interrupt : Option Interrupt := none
  messages : TurnMessages
  deriving DecidableEq, Repr

def appendDefinitive (messages : TurnMessages) (outcomes : List ToolOutcome) : TurnMessages :=
  match resultBlocks outcomes with
  | [] => messages
  | definitive => messages.appendCanonical ⟨.user,definitive⟩

def coordinateToolBatch (a : Agent) (c : Context) (calls : List ToolCall) (available : List Tool)
    (decisions : Option (List (Option Decision))) (messages : TurnMessages) :
    Engine CoordinatedToolBatch := do
  let (calls,decisions) ← prepareToolBatch messages.canonical calls decisions
  if calls = [] then pure { messages := messages }
  else
    let outcomes ← executeBatch a c calls available decisions
    note (.dispatched calls outcomes)
    -- another worker owns the boundary: append nothing, not even definitive siblings
    match outcomes.find? fun o => o.kind == .coordinationFailure with
    | some o => Routine.throw (o.err.getD .executionRecoveryUnsupported)
    | none =>
      match batchOutcomeError outcomes with
      | some err =>
        let messages := appendDefinitive messages outcomes
        match ← (commitToolResults a messages.canonical outcomes).attempt with
        | .ok () => Routine.throw err
        | .error commitErr => Routine.throw (.join err commitErr)
      | none =>
        match pendingInterrupt outcomes calls with
        | (some interrupt,outcomes) =>
          -- the pause payload is stored before results can clear the active batch
          persistPendingPause interrupt
          let messages := appendDefinitive messages outcomes
          commitToolResults a messages.canonical outcomes
          pure { outcomes := outcomes, interrupt := some interrupt, messages := messages }
        | (none,outcomes) =>
          let messages := appendDefinitive messages outcomes
          commitToolResults a messages.canonical outcomes
          pure { outcomes := outcomes, messages := messages }
end
end Engine
end GudeAgents
