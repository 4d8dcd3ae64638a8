import Mathlib.Data.Multiset.Replicate
/-!
# The event stream

Model of `eventSink` and `runParallel` (`event.go`), `stream` (`engine.go`), and the events of
`executeBatch` and `executeCall` (`tool_exec.go`). The consumer may stop at any event.
-/
namespace GudeAgents.Events
inductive EngineKind where
  | text
  | thinking
  | interrupt
  | custom
  | iterationStart
  | iterationEnd
  | modelStart
  | modelEnd
  | maxIterations
  deriving DecidableEq

/-- The events that hooks, guards and handlers of a tool call emit: `EmitWidget` and `EmitEvent`. -/
inductive CallKind where
  | widget
  | custom
  deriving DecidableEq

inductive Event (P : Type) where
  | start
  | engine (kind : EngineKind) (payload : P)
  | toolStart (call : Nat) (payload : P)
  | tool (call : Nat) (kind : CallKind) (payload : P)
  | toolEnd (call : Nat) (payload : P)
  | ended (result : P)
  deriving DecidableEq

variable {P : Type}
def Event.origin : Event P → Option Nat
  | .toolStart call _ | .tool call _ _ | .toolEnd call _ => some call
  | _ => none
def Event.isStart (call : Nat) : Event P → Bool
  | .toolStart call' _ => call'=call
  | _ => false
def Event.isEnded : Event P → Bool
  | .ended _ => true
  | _ => false

inductive Exit where
  | unknownTool
  | deniedByHuman
  | accessDenied
  | invalidInput
  | guardDenied
  | pendingApproval
  | claimFailed
  | outcomeUnknown
  | handlerError
  | handled
  deriving DecidableEq

def Exit.ranHandler : Exit → Bool
  | .outcomeUnknown | .handlerError | .handled => true
  | _ => false

/-- A run of `executeCall`: where it returns, and what is emitted before the handler, by it, and by
the hooks after it. -/
structure Call (P : Type) where
  exit : Exit
  before : List (CallKind×P)
  handler : List (CallKind×P)
  after : List (CallKind×P)
  toolStart : P
  toolEnd : P

structure Emitter (P : Type) where
  started : Bool
  events : List (Event P)

def toolEvents (call : Nat) (events : List (CallKind×P)) : List (Event P) :=
  events.map fun ev => .tool call ev.1 ev.2

namespace Emitter
def emitAll (e : Emitter P) (call : Nat) (events : List (CallKind×P)) : Emitter P :=
  { e with events := e.events++toolEvents call events }
def emitStart (e : Emitter P) (call : Nat) (payload : P) : Emitter P :=
  ⟨true,e.events++[.toolStart call payload]⟩

/-- `emitEnd` emits the start first where the handler did not run. -/
def emitEnd (e : Emitter P) (call : Nat) (startPayload payload : P) : Emitter P :=
  let e := if e.started then e else e.emitStart call startPayload
  { e with events := e.events++[.toolEnd call payload] }
end Emitter
def executeCall (call : Nat) (c : Call P) : List (Event P) :=
  let e := (⟨false,[]⟩ : Emitter P).emitAll call c.before
  if c.exit=.pendingApproval then (e.emitAll call c.after).events
  else
    let e := if c.exit.ranHandler then (e.emitStart call c.toolStart).emitAll call c.handler else e
    ((e.emitAll call c.after).emitEnd call c.toolStart c.toolEnd).events

theorem executeCall_shape (n : Nat) (c : Call P) :
    (∃ events, executeCall n c=toolEvents n events) ∨ ∃ before during, executeCall n c =
        toolEvents n before++.toolStart n c.toolStart ::
          (toolEvents n during++[.toolEnd n c.toolEnd]) := by
  rw [executeCall]
  by_cases hpending : c.exit=.pendingApproval
  · rw [if_pos hpending]
    exact Or.inl ⟨c.before++c.after,by simp [Emitter.emitAll,toolEvents]⟩
  · rw [if_neg hpending]
    cases c.exit.ranHandler with
    | true =>
      exact Or.inr ⟨c.before,c.handler++c.after,
        by simp [Emitter.emitAll,Emitter.emitStart,Emitter.emitEnd,toolEvents]⟩
    | false =>
      exact Or.inr ⟨c.before++c.after,[],
        by simp [Emitter.emitAll,Emitter.emitStart,Emitter.emitEnd,toolEvents]⟩

/-- The events of the calls of a batch, from a number on. A call that is skipped because the context
is done emits none. -/
def batchEvents : Nat → List (Option (Call P)) → List (List (Event P))
  | _, [] => []
  | n, call::rest => call.elim [] (executeCall n)::batchEvents (n+1) rest

structure Sink (P : Type) where
  yielded : List (Event P)
  stopped : Bool
  closed : Bool
  queue : List (Event P)
  wake : Bool

namespace Sink
def new : Sink P := ⟨[],false,false,[],false⟩
def emit (s : Sink P) (ev : Event P) (goesOn : Bool) : Sink P :=
  if s.stopped || s.closed then s
  else { s with yielded := s.yielded++[ev], stopped := !goesOn }
def finish (s : Sink P) (ev : Event P) : Sink P :=
  let s := if !s.stopped && !s.closed then { s with yielded := s.yielded++[ev] } else s
  { s with closed := true }
def close (s : Sink P) : Sink P := { s with closed := true }

variable {s : Sink P}
theorem stopped_emit (h : s.stopped=false) (ev : Event P) : (s.emit ev true).stopped=false := by
  rw [emit]
  split
  · exact h
  · rfl

@[simp] theorem stopped_finish (s : Sink P) (ev : Event P) : (s.finish ev).stopped=s.stopped := by
  rw [finish]
  split <;> rfl

@[simp] theorem queue_emit (s : Sink P) (ev : Event P) (goesOn : Bool) :
    (s.emit ev goesOn).queue=s.queue := by
  rw [emit]
  split <;> rfl

@[simp] theorem queue_finish (s : Sink P) (ev : Event P) : (s.finish ev).queue=s.queue := by
  rw [finish]
  split <;> rfl

theorem emit_of_stopped (h : s.stopped=true) (ev : Event P) (goesOn : Bool) :
    s.emit ev goesOn=s := by
  rw [emit,h,Bool.true_or,if_pos rfl]

theorem emit_of_going (h : s.stopped=false) (hclosed : s.closed=false) (ev : Event P)
    (goesOn : Bool) :
    s.emit ev goesOn={ s with yielded := s.yielded++[ev], stopped := !goesOn } := by
  rw [emit,if_neg]
  rw [h,hclosed]
  decide

theorem finish_of_stopped (h : s.stopped=true) (ev : Event P) : s.finish ev=s.close := by
  rw [finish,if_neg]
  · rfl
  · rw [h,Bool.not_true,Bool.false_and]
    decide

theorem finish_of_going (h : s.stopped=false) (hclosed : s.closed=false) (ev : Event P) :
    s.finish ev={ s with yielded := s.yielded++[ev], closed := true } := by
  rw [finish,if_pos]
  rw [h,hclosed]
  decide

def enqueue (s : Sink P) (ev : Event P) : Sink P := { s with queue := s.queue++[ev] }
def signal (s : Sink P) : Sink P := { s with wake := true }
def take (s : Sink P) : Sink P := { s with queue := [] }
def wakened (s : Sink P) : Sink P := { s with wake := false }
end Sink
/-- What the engine does next: emit an event, or run some tool calls under a limit. -/
inductive Segment (P : Type) where
  | emit (kind : EngineKind) (payload : P)
  | calls (limit : Int) (calls : List (Option (Call P)))

/-- A goroutine of `runParallel`. One that has taken an index may wait before it calls `fn`. -/
inductive Worker where
  | fetching
  | took (i : Nat)
  | running (i : Nat)
  | signalling (i : Nat)
  deriving DecidableEq

/-- A call of `runParallel`: what is left of each `fn(i)`, the counter, the workers that have not
returned, and whether `done` is closed. -/
structure Batch (P : Type) where
  first : Nat
  calls : List (List (Event P))
  next : Nat
  workers : Multiset Worker
  done : Bool

namespace Batch
def none : Batch P := ⟨0,[],0,0,true⟩
def workerCount (n : Nat) (limit : Int) : Nat :=
  if 0<limit ∧ limit<n then limit.toNat else n
def new (first : Nat) (calls : List (List (Event P))) (limit : Int) : Batch P :=
  ⟨first,calls,0,Multiset.replicate (workerCount calls.length limit) .fetching,false⟩
def become (b : Batch P) (rest : Multiset Worker) (w : Worker) : Batch P :=
  { b with workers := w ::ₘ rest }
end Batch
inductive After (P : Type) where
  | select (rest : List (Segment P))
  | leave (rest : List (Segment P))
  | finish

inductive Engine (P : Type) where
  | starting (rest : List (Segment P))
  | executing (rest : List (Segment P))
  | calling (events : List (Event P)) (rest : List (Segment P))
  | selecting (rest : List (Segment P))
  /-- In `drain`, with the events it has taken. -/
  | draining (batch : List (Event P)) (after : After P)
  /-- With what it has not run, if the consumer stopped at the start. -/
  | returned (unrun : List (Segment P))

/-- A run of `stream`. `calls` is the number of tool calls so far, and `log` records every call of
`emit` and `enqueue` but for the start and the end. -/
structure State (P : Type) where
  sink : Sink P
  engine : Engine P
  batch : Batch P
  calls : Nat
  log : List (Event P)

namespace State
def emit (st : State P) (ev : Event P) (goesOn : Bool) (engine : Engine P) : State P :=
  { st with sink := st.sink.emit ev goesOn, engine := engine, log := st.log++[ev] }
def goTo (st : State P) (engine : Engine P) : State P := { st with engine := engine }
def work (st : State P) (batch : Batch P) : State P := { st with batch := batch }
end State
/-- The steps of the engine, of the workers, and of the goroutine that waits for them. The run ends
with the result `result`. -/
inductive Step (result : P) : State P → State P → Prop where
  | start {st : State P} {rest : List (Segment P)} (h : st.engine=.starting rest) :
      Step result st { st with sink := st.sink.emit .start true, engine := .executing rest }
  | startStops {st : State P} {rest : List (Segment P)} (h : st.engine=.starting rest) :
      Step result st { st with sink := (st.sink.emit .start false).close, engine := .returned rest }
  | emit {st : State P} {kind : EngineKind} {payload : P} {rest : List (Segment P)} (goesOn : Bool)
      (h : st.engine=.executing (.emit kind payload::rest)) :
      Step result st (st.emit (.engine kind payload) goesOn (.executing rest))
  | sequential {st : State P} {limit : Int} {calls : List (Option (Call P))}
      {rest : List (Segment P)} (h : st.engine=.executing (.calls limit calls::rest))
      (hlimit : limit=1 ∨ calls.length≤1) :
      Step result st { st with
        engine := .calling (batchEvents st.calls calls).flatten rest
        calls := st.calls+calls.length }
  | call {st : State P} {ev : Event P} {events : List (Event P)} {rest : List (Segment P)}
      (goesOn : Bool) (h : st.engine=.calling (ev::events) rest) :
      Step result st (st.emit ev goesOn (.calling events rest))
  | called {st : State P} {rest : List (Segment P)} (h : st.engine=.calling [] rest) :
      Step result st (st.goTo (.executing rest))
  | parallel {st : State P} {limit : Int} {calls : List (Option (Call P))}
      {rest : List (Segment P)} (h : st.engine=.executing (.calls limit calls::rest))
      (hlimit : limit≠1) (hcalls : 1<calls.length) :
      Step result st { st with
        engine := .selecting rest
        batch := .new st.calls (batchEvents st.calls calls) limit
        calls := st.calls+calls.length }
  | fetch {st : State P} {others : Multiset Worker} (h : st.batch.workers=.fetching ::ₘ others)
      (hnext : st.batch.next<st.batch.calls.length) :
      Step result st (st.work { st.batch with
        next := st.batch.next+1, workers := .took st.batch.next ::ₘ others })
  | enter {st : State P} {others : Multiset Worker} {i : Nat}
      (h : st.batch.workers=.took i ::ₘ others) :
      Step result st (st.work (st.batch.become others (.running i)))
  | exit {st : State P} {others : Multiset Worker} (h : st.batch.workers=.fetching ::ₘ others)
      (hnext : st.batch.calls.length ≤ st.batch.next) :
      Step result st (st.work { st.batch with next := st.batch.next + 1, workers := others })
  | enqueue {st : State P} {others : Multiset Worker} {i : Nat} {ev : Event P}
      {events : List (Event P)} (h : st.batch.workers=.running i ::ₘ others)
      (hcall : st.batch.calls[i]?=some (ev::events)) :
      Step result st { st with
        sink := st.sink.enqueue ev
        batch := { st.batch with
          calls := st.batch.calls.set i events, workers := .signalling i ::ₘ others }
        log := st.log++[ev] }
  | signal {st : State P} {others : Multiset Worker} {i : Nat}
      (h : st.batch.workers=.signalling i ::ₘ others) :
      Step result st { st with
        sink := st.sink.signal, batch := st.batch.become others (.running i) }
  | returns {st : State P} {others : Multiset Worker} {i : Nat}
      (h : st.batch.workers=.running i ::ₘ others) (hcall : st.batch.calls[i]?=some []) :
      Step result st (st.work (st.batch.become others .fetching))
  | closeDone {st : State P} (h : st.batch.workers=0) (hopen : st.batch.done=false) :
      Step result st (st.work { st.batch with done := true })
  | selectWake {st : State P} {rest : List (Segment P)} (h : st.engine=.selecting rest)
      (hwake : st.sink.wake=true) :
      Step result st { st with sink := st.sink.wakened, engine := .draining [] (.select rest) }
  | selectDone {st : State P} {rest : List (Segment P)} (h : st.engine=.selecting rest)
      (hdone : st.batch.done=true) : Step result st (st.goTo (.draining [] (.leave rest)))
  | take {st : State P} {after : After P} (h : st.engine=.draining [] after)
      (hqueue : st.sink.queue≠[]) :
      Step result st { st with
        sink := st.sink.take, engine := .draining st.sink.queue after }
  | drain {st : State P} {ev : Event P} {batch : List (Event P)} {after : After P} (goesOn : Bool)
      (h : st.engine=.draining (ev::batch) after) :
      Step result st { st with
        sink := st.sink.emit ev goesOn, engine := .draining batch after }
  | drainedSelect {st : State P} {rest : List (Segment P)}
      (h : st.engine=.draining [] (.select rest)) (hqueue : st.sink.queue=[]) :
      Step result st (st.goTo (.selecting rest))
  | drainedLeave {st : State P} {rest : List (Segment P)}
      (h : st.engine=.draining [] (.leave rest)) (hqueue : st.sink.queue=[]) :
      Step result st (st.goTo (.executing rest))
  | executed {st : State P} (h : st.engine=.executing []) :
      Step result st (st.goTo (.draining [] .finish))
  | finish {st : State P} (h : st.engine=.draining [] .finish) (hqueue : st.sink.queue=[]) :
      Step result st { st with sink := st.sink.finish (.ended result), engine := .returned [] }

def State.new (script : List (Segment P)) : State P :=
  ⟨.new,.starting script,.none,0,[]⟩
def Reachable (script : List (Segment P)) (result : P) (st : State P) : Prop :=
  Relation.ReflTransGen (Step result) (.new script) st
end GudeAgents.Events
