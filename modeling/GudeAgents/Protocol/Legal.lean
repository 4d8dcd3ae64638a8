import GudeAgents.Agent.Entry
/-!
# The durable execution protocol

What one event of a worker may do, as facts about the history before it.  The program that took the
step is not mentioned.
-/
namespace GudeAgents
open Event
def Message.IsText (m : Message) : Prop := m.toolUses=[] ∧ m.toolResults=[]

/-- Saves after which a run writes nothing more. -/
def SaveLabel.closing : SaveLabel → Bool
  | pauseRecovered | projectPause | retry _ | pause | finalize => true
  | _ => false

namespace Event
def response? : Event → Option TokenUsage
  | called _ u => u
  | _ => none
def addedUsage? : Event → Option TokenUsage
  | note _ (.addedUsage u) => some u
  | _ => none
def dispatched? : Event → Option (List ToolCall×List ToolOutcome)
  | note _ (.dispatched calls outcomes) => some (calls,outcomes)
  | _ => none
def begins (callID : String) : Event → Bool
  | save _ (.beginTool id) _ .acked => id == callID
  | _ => false
def starts (callID : String) : Event → Bool
  | handler _ start _ => start.call.toolUseID == callID
  | _ => false
end Event
namespace World
variable (s : World) (w : Nat)
def upto (log : List Event) : World := { s with log := log }
def Entered (entry : Entry) : Prop := began w entry∈s.log
def IsKind (kind : RequestKind) : Prop := ∃ entry, s.Entered w entry ∧ entry.request.kind=kind
def Open : Prop := ∀ label e v, save w label e v∈s.log → label.closing=false
def Unpaused : Prop := ∀ e v, save w .pendingPause e v∉s.log
def Unplanned : Prop := ∀ e v, save w .plan e v∉s.log
def Synced : Prop :=
  (∀ label e, save w label e .lost∉s.log) ∧
    ∀ label messages c, append w label messages c .lost∉s.log
def responses : List TokenUsage := (s.own w).filterMap response?
def addedUsages : List TokenUsage := (s.own w).filterMap addedUsage?
def Balanced : Prop := s.responses w=s.addedUsages w
def Claimed (i : Interrupt) (resp : ResumeResponse) : Prop :=
  ∃ e, save w (.resumeClaim i resp) e .acked∈s.log
def OnlyClaimed : Prop :=
  ∀ label e v, save w label e v∈s.log → ∃ i resp, label=.resumeClaim i resp

/-- The run has a record to work on.  A resume has taken over the usage of its record; a recovery
only works on a running record that it found without a pending pause. -/
inductive Started (e : Execution) : Prop where
  | invoke (e0 : Execution) (kind : s.IsKind w .invoke) (created : save w .create e0 .acked∈s.log)
  | resume (i : Interrupt) (resp : ResumeResponse) (kind : s.IsKind w .resume)
      (claimed : s.Claimed w i resp) (seeded : ∃ u, note w (.seededUsage u)∈s.log)
  | recover (e0 : Execution) (kind : s.IsKind w .recover) (running : e.status=.running)
      (loaded : load w e0∈s.log) (unpaused : e0.pendingPause=none)
  | reconcile (e0 : Execution) (kind : s.IsKind w .reconcile)
      (claimed : save w .resolution e0 .acked∈s.log)

def IsTurn : Prop := s.IsKind w .invoke ∨ s.IsKind w .resume
def Blind : Prop := ∀ ev∈s.own w, ev.cursor?=none

structure Genuine (c : ConversationCursor) : Prop where
  seed_le : s.seedRevision≤c.revision
  le : c.revision ≤ s.revision
  lastSequence : c.lastSequence=(s.messagesAt c.revision).length

/-- The conversation cursor in memory is not behind the one of an active batch. -/
def Ahead (e : Execution) : Prop :=
  e.toolBatch≠none → e.lastSequence≤(s.cursorOf w).lastSequence

/-- The revision from which a worker that made this save may extend the turn: the start of the
execution, a human answer, or a completed batch. -/
def textBase? (label : SaveLabel) (e : Execution) : Option Nat :=
  match label with
  | .startCursor => some e.startRevision
  | .resumeClaim i _ => if i.type=.humanInput then some e.revision else none
  | .removeToolCalls _ => if e.toolBatch=none then some e.revision else none
  | _ => none

/-- Everything appended from an own base up to revision `R` is own text. -/
def TextBase (R : Nat) : Prop :=
  ∃ label e ρ, save w label e .acked∈s.log ∧ textBase? label e=some ρ ∧ s.seedRevision≤ρ ∧ ρ≤R ∧
    ∀ k, ρ ≤ s.seedRevision+k → s.seedRevision+k<R →
      ∃ messages, s.appended[k]?=some ⟨w,.turn,messages⟩

/-- An own acknowledged event that fixed the cursor at revision `R`: the append that reached it, or
the save that completed a batch there. -/
def anchors (R : Nat) : Event → Prop
  | .append w' _ _ c .acked => w'=w ∧ c.revision=R
  | .save w' (.removeToolCalls _) e .acked => w'=w ∧ e.toolBatch=none ∧ e.revision=R
  | _ => False

/-- Since the cursor was fixed at `R`, only this worker has stored records up to version `v`. -/
def Quiet (R v : Nat) : Prop :=
  ∃ before event, before++[event] <+: s.log ∧ anchors w R event ∧
    ∀ k st, (s.upto (before++[event])).version≤k → k<v → s.stored[k]?=some st → st.worker=w
def toolUseIDs (messages : List Message) : List String :=
  messages.flatMap fun m => m.toolUses.map (·.toolUseID)

/-- The IDs were unused in the execution's own range when the worker already held `e`. -/
def Unused (e : Execution) (ids : List String) : Prop :=
  ∃ before, before <+: s.log ∧ (s.upto before).hand? w=some e ∧
    ∀ id∈ids, id∉toolUseIDs ((s.upto before).messages.drop e.startLastSequence)
def begins (callID : String) : Nat := (s.own w).countP (Event.begins callID)
def starts (callID : String) : Nat := (s.own w).countP (Event.starts callID)
def lastDispatch? : Option (List ToolCall×List ToolOutcome) :=
  ((s.own w).filterMap Event.dispatched?).getLast?
end World
def ToolBatchExecution.Launched (b : ToolBatchExecution) : Prop :=
  ∃ call∈b.calls, call.status≠.planned
def Execution.Unresolved (e : Execution) : Prop := ∀ b, e.toolBatch=some b → b.resolution=none

/-- A batch that may be dispatched: it is launched, or an approval of its calls was answered. -/
def World.Dispatchable (s : World) (w : Nat) (b : ToolBatchExecution) : Prop :=
  b.Launched ∨ ∃ i resp approval, s.Claimed w i resp ∧ i.approval=some approval ∧
    approval.calls≠[] ∧ ∀ c∈approval.calls, c.callID∈b.callIDs

section
variable [Host]
/-- The transcript ends with the batch's tool uses and results for exactly `answered`. -/
def Boundary (messages : List Message) (b : ToolBatchExecution) (answered : List String) : Prop :=
  ∃ before suffix calls, messages=before++suffix ∧ activeToolBatch suffix b=.ok (calls,answered)

/-- The call belongs to the stored batch with the same canonical input. -/
def ToolBatchExecution.Holds (b : ToolBatchExecution) (call : ToolCall) : Prop :=
  ∃ stored∈b.calls, stored.callID=call.toolUseID ∧ stored.name=call.name ∧
    toolInputHash call.input=.ok stored.inputHash

/-- The outcomes as they are committed: an interrupt overtakes pending approvals unless some
outcome is an error. -/
def committedOutcomes (calls : List ToolCall) (outcomes : List ToolOutcome) : List ToolOutcome :=
  match batchOutcomeError outcomes with
  | some _ => outcomes
  | none => (pendingInterrupt outcomes calls).2

/-- What a run that works on record `e` may store next, before the store sets the version. -/
inductive LegalBody (s : World) (w : Nat) (e : Execution) : SaveLabel → Execution → Prop where
  | startCursor (unset : e.startCursorPersisted=false) (idle : e.toolBatch=none)
      (genuine : s.Genuine (s.cursorOf w)) :
      LegalBody s w e .startCursor { e with
        startRevision := (s.cursorOf w).revision
        startLastSequence := (s.cursorOf w).lastSequence, startCursorPersisted := true }
  | runtimeProgress (iteration : Nat) (turn : s.IsTurn w) (balanced : s.Balanced w)
      (unpaused : s.Unpaused w) (counted : s.iterationOf w ≤ iteration) :
      LegalBody s w e .runtimeProgress { e with iteration := iteration, usage := s.usageOf w }
  | plan {prior : List (String×PriorToolUse)} {replaySafe : String → Bool}
      {calls : List ToolCall} {iteration : Nat} {next : Execution}
      (planned : e.plan prior replaySafe calls (s.cursorOf w).revision (s.cursorOf w).lastSequence
        iteration=.ok next)
      (nonempty : calls≠[]) (start : e.startCursorPersisted=true)
      (unused : s.Unused w e (calls.map (·.toolUseID)))
      (genuine : s.Genuine (s.cursorOf w))
      (after : e.startLastSequence≤(s.cursorOf w).lastSequence)
      (base : s.TextBase w (s.cursorOf w).revision)
      (quiet : s.Quiet w (s.cursorOf w).revision e.version) (turn : s.IsTurn w)
      (synced : s.Synced w) (unpaused : s.Unpaused w) (counted : s.iterationOf w ≤ iteration) :
      LegalBody s w e .plan next
  | ready {b : ToolBatchExecution} {next : Execution} {calls : List ToolCall}
      {answered : List String} (batch : e.toolBatch=some b)
      (marked : e.markReady (s.cursorOf w).revision (s.cursorOf w).lastSequence=.ok next)
      (genuine : s.Genuine (s.cursorOf w))
      (ahead : s.Ahead w e)
      (canonical : activeToolBatch ((s.messagesAt (s.cursorOf w).revision).drop e.lastSequence) b =
        .ok (calls,answered)) :
      LegalBody s w e .ready next
  | beginTool {recovering : Bool} {callID toolName key : String} {replay : Bool} {next : Execution}
      (claimed : e.claimTool recovering callID toolName=.ok (next,key,replay))
      (kind : recovering=true → s.IsKind w .recover) :
      LegalBody s w e (.beginTool callID) next
  | pendingPause {b : ToolBatchExecution} {calls : List ToolCall} {outcomes outcomes' : List ToolOutcome}
      {i : Interrupt} {answered : List String} (iteration : Nat) (batch : e.toolBatch=some b)
      (dispatchable : s.Dispatchable w b)
      (dispatched : s.lastDispatch? w=some (calls,outcomes))
      (noError : batchOutcomeError outcomes=none)
      (interrupts : pendingInterrupt outcomes calls=(some i,outcomes'))
      (holds : ∀ call∈calls, b.Holds call)
      (genuine : s.Genuine (s.cursorOf w))
      (ahead : s.Ahead w e)
      (boundary : Boundary (s.messagesAt (s.cursorOf w).revision) b answered)
      (current : answered≠[] → e.revision=(s.cursorOf w).revision)
      (synced : s.Synced w) (balanced : s.Balanced w) (unpaused : s.Unpaused w)
      (counted : s.IsTurn w ∧ s.iterationOf w ≤ iteration ∨
        s.IsKind w .recover ∧ iteration=b.iteration) :
      LegalBody s w e .pendingPause { e with
        pendingPause := some (pauseFromInterrupt i), iteration := iteration
        usage := s.usageOf w }
  | removeToolCalls {b : ToolBatchExecution} {completed answered : List String}
      (batch : e.toolBatch=some b) (dispatchable : s.Dispatchable w b)
      (genuine : s.Genuine (s.cursorOf w))
      (ahead : s.Ahead w e)
      (boundary : Boundary (s.messagesAt (s.cursorOf w).revision) b answered)
      (answers : ∀ id∈completed, id∈answered)
      (settled : s.IsTurn w ∨ e.Unresolved) :
      LegalBody s w e (.removeToolCalls completed) (e.removeToolCalls (s.cursorOf w).revision
        (s.cursorOf w).lastSequence completed)
  | approvals {i : Interrupt} {resp : ResumeResponse} {approval : ApprovalInterrupt}
      {next : Execution} (claimed : s.Claimed w i resp) (calls : i.approval=some approval)
      (stores : e.storeDecisions resp approval.calls=.ok next) :
      LegalBody s w e .approvals next
  | pauseRecovered {p : ExecutionPause} (kind : s.IsKind w .recover)
      (pending : e.pendingPause=some p) (genuine : s.Genuine (s.cursorOf w))
      (ahead : s.Ahead w e) (active : ∀ b, e.toolBatch=some b → s.Dispatchable w b) :
      LegalBody s w e .pauseRecovered { e.withCursor (s.cursorOf w).revision
          (s.cursorOf w).lastSequence with
        status := .paused, phase := .paused, pause := some p, pendingPause := none }
  | finishResolution {b : ToolBatchExecution} {claim : ToolResolutionClaim} {next : Execution}
      {answered : List String} (batch : e.toolBatch=some b) (launched : b.Launched)
      (resolution : b.resolution=some claim) (genuine : s.Genuine (s.cursorOf w))
      (ahead : s.Ahead w e)
      (boundary : Boundary (s.messagesAt (s.cursorOf w).revision) b answered)
      (answers : claim.callID∈answered)
      (finished : e.finishResolution (s.cursorOf w).revision (s.cursorOf w).lastSequence
        claim.callID=.ok next) :
      LegalBody s w e .finishResolution next
  | pause {p : ExecutionPause} (iteration : Nat) (turn : s.IsTurn w)
      (pending : e.pendingPause=some p) (genuine : s.Genuine (s.cursorOf w))
      (ahead : s.Ahead w e) (active : ∀ b, e.toolBatch=some b → s.Dispatchable w b)
      (balanced : s.Balanced w) (counted : s.iterationOf w ≤ iteration) :
      LegalBody s w e .pause { e.withCursor (s.cursorOf w).revision (s.cursorOf w).lastSequence with
        status := .paused, phase := .paused, iteration := iteration, usage := s.usageOf w
        pause := some p, pendingPause := none }
  -- a run that refused the transcript it read still has the zero cursor
  | finalize {status : ExecutionStatus} {c : ConversationCursor} (iteration : Nat)
      (turn : s.IsTurn w) (terminal : status.terminal=true) (idle : e.toolBatch=none)
      (balanced : s.Balanced w ∨ leaseCommit w false∈s.log)
      (cursor : c=s.cursorOf w ∨ c={}) (counted : s.iterationOf w ≤ iteration) :
      LegalBody s w e .finalize { e.withCursor c.revision c.lastSequence with
        status := status, phase := .done, iteration := iteration, usage := s.usageOf w
        pause := none }

/-- What a worker may send to the execution store, accepted or not. -/
inductive LegalSave (s : World) (w : Nat) : SaveLabel → Execution → Prop where
  | create (id conversationID : String) (kind : s.IsKind w .invoke)
      (fresh : s.hand? w=none) (named : conversationID≠"") :
      LegalSave s w .create
        { id := id, conversationID := conversationID, status := .running, phase := .model
          version := 1 }
  | resumeClaim {e : Execution} {p : ExecutionPause} {resp : ResumeResponse}
      (kind : s.IsKind w .resume) (hand : s.hand? w=some e) (paused : e.status=.paused)
      (pause : e.pause=some p)
      (valid : validateResume (interruptFromExecution e p) resp=.ok ())
      (first : ∀ label e v, save w label e v∉s.log)
      (observed : ∃ entry i, s.Entered w entry ∧ entry.request=.resume i resp ∧
        i.executionVersion=e.version) :
      LegalSave s w (.resumeClaim (interruptFromExecution e p) resp)
        { e with status := .running, phase := .tools, pause := none, version := e.version + 1 }
  | projectPause {e : Execution} {p : ExecutionPause} (kind : s.IsKind w .recover)
      (hand : s.hand? w=some e) (pending : e.pendingPause=some p)
      (first : ∀ label e v, save w label e v∉s.log) :
      LegalSave s w .projectPause
        { e with
          status := .paused, phase := .paused, pause := some p, pendingPause := none
          version := e.version+1 }
  | retry {e : Execution} {b : ToolBatchExecution} {callID : String} {target : ToolExecution}
      (kind : s.IsKind w .reconcile) (hand : s.hand? w=some e) (batch : e.toolBatch=some b)
      (free : b.resolution=none) (found : b.find? callID=some target)
      (inFlight : target.status=.inFlight)
      (first : ∀ label e v, save w label e v∉s.log) :
      LegalSave s w (.retry callID)
        { e with
          toolBatch := some (b.setFirst callID fun call => { call with status := .ready })
          version := e.version+1 }
  | resolution {e : Execution} {b : ToolBatchExecution} {claim : ToolResolutionClaim}
      {target : ToolExecution} (kind : s.IsKind w .reconcile) (hand : s.hand? w=some e)
      (batch : e.toolBatch=some b) (free : b.resolution=none)
      (found : b.find? claim.callID=some target) (inFlight : target.status=.inFlight)
      (first : ∀ label e v, save w label e v∉s.log) :
      LegalSave s w .resolution
        { e with
          toolBatch := some { b with resolution := some claim }, version := e.version + 1 }
  | body {e next : Execution} {label : SaveLabel} (hand : s.hand? w=some e)
      (started : s.Started w e) (opened : s.Open w) (guarded : LegalBody s w e label next) :
      LegalSave s w label { next with version := e.version + 1 }

/-- What a worker that works on record `e` may append when the conversation store accepts it. -/
inductive LegalAppend (s : World) (w : Nat) (e : Execution) : AppendLabel → List Message → Prop where
  | turn {messages : List Message} (nonempty : messages≠[]) (text : ∀ m∈messages, m.IsText)
      (base : s.TextBase w s.revision) (idle : e.toolBatch=none ∨ s.Unplanned w)
      (unpaused : s.Unpaused w) (turn : s.IsTurn w) :
      LegalAppend s w e .turn messages
  | toolUse {b : ToolBatchExecution} {m : Message} (batch : e.toolBatch=some b)
      (planned : b.allPlanned=true) (uses : m.isUseOf b=true) (nodup : b.callIDs.Nodup)
      (behind : s.messages.length≤e.lastSequence) :
      LegalAppend s w e .toolUse [m]
  | results {b : ToolBatchExecution} {calls : List ToolCall} {outcomes : List ToolOutcome}
      {answered : List String} (batch : e.toolBatch=some b)
      (dispatchable : s.Dispatchable w b)
      (dispatched : s.lastDispatch? w=some (calls,outcomes))
      (nonempty : resultBlocks (committedOutcomes calls outcomes)≠[])
      (pending : batchOutcomeError outcomes=none → ∀ i, (pendingInterrupt outcomes calls).1=some i →
          e.pendingPause=some (pauseFromInterrupt i))
      (boundary : Boundary s.messages b answered)
      (nodup : ((committedOutcomes calls outcomes).filterMap fun o =>
        o.resultBlock?.map (·.toolUseID)).Nodup)
      (unanswered : ∀ id∈(committedOutcomes calls outcomes).filterMap fun o =>
        o.resultBlock?.map (·.toolUseID), id∈b.callIDs ∧ id∉answered) :
      LegalAppend s w e .results [⟨.user,resultBlocks (committedOutcomes calls outcomes)⟩]
  | resolution {b : ToolBatchExecution} {claim : ToolResolutionClaim} {answered : List String}
      (batch : e.toolBatch=some b) (launched : b.Launched)
      (resolution : b.resolution=some claim) (boundary : Boundary s.messages b answered)
      (known : claim.callID∈b.callIDs) (unanswered : claim.callID∉answered) :
      LegalAppend s w e .resolution [⟨.user,[.toolResult (Engine.resolutionResult claim)]⟩]

structure LegalHandler (s : World) (w : Nat) (start : HandlerStart) : Prop where
  held : ∃ e b stored, s.hand? w=some e ∧ e.toolBatch=some b ∧
    b.find? start.call.toolUseID=some stored ∧ stored.status=.inFlight ∧
    toolInputHash start.call.input=.ok stored.inputHash ∧
    start.idempotencyKey=stored.idempotencyKey ∧
    (start.needsApproval=true → ∃ a, stored.approval=some a ∧ a.allow=true)
  opened : s.Open w
  claimed : s.starts w start.call.toolUseID<s.begins w start.call.toolUseID

/-- One event after the history of `s`. -/
def Legal (s : World) : Event → Prop
  | .began w _ => s.own w=[]
  | .load w e => s.current?=some e ∧ s.Blind w ∧ s.OnlyClaimed w ∧
      ∃ kind, s.IsKind w kind ∧ kind≠.invoke
  | .save w label e v => (v.committed=true → e.version=s.version+1) ∧ LegalSave s w label e
  | .read _ _ _ c => c=s.cursor
  | .append w label messages c v => v.committed=true → (s.cursorOf w).revision=s.revision ∧
      c=⟨s.revision+1,s.messages.length+messages.length⟩ ∧
      s.Synced w ∧ s.Open w ∧
      ∃ e, s.hand? w=some e ∧ s.Started w e ∧ LegalAppend s w e label messages
  | .called w _ => s.IsTurn w ∧ s.Open w ∧ s.Unpaused w ∧ s.Balanced w ∧ s.Synced w ∧
      (∃ entry, s.Entered w entry ∧ s.iterationOf w<entry.agent.maxIterations) ∧
      (∃ R, s.TextBase w R) ∧
      ∃ e, s.hand? w=some e ∧ s.Started w e ∧ (e.toolBatch=none ∨ s.Unplanned w)
  | .leaseCommit _ _ => True
  | .handler w start _ => LegalHandler s w start
  | .note w (.seededUsage u) => s.IsKind w .resume ∧ (∃ i resp, s.Claimed w i resp) ∧
      (∃ e, s.hand? w=some e ∧ u=e.usage) ∧ s.responses w=[] ∧ s.addedUsages w=[] ∧
      ∀ u', note w (.seededUsage u')∉s.log
  | .note w (.addedUsage u) => s.responses w=s.addedUsages w++[u]
  | .note w (.testedBudget c) => c=s.usageOf w ∧ s.Balanced w ∧ s.IsTurn w
  | .note _ (.dispatched _ _) => True
  | .cancelled _ _ => True

/-- Histories of the protocol. -/
inductive Valid : World → Prop where
  | start {s : World} (empty : s.log=[]) : Valid s
  | step {s : World} {ev : Event} (valid : Valid s) (legal : Legal s ev) : Valid (s.record ev)
end
end GudeAgents
