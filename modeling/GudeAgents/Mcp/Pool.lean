import Mathlib.Data.Multiset.Range
import GudeAgents.Framework.Monitor
/-!
# The MCP connection pool

Model of `mcp/pool.go`, with the watcher goroutines that wake the callers of a cancelled context.
Every section under the lock is one act. Sessions and contexts are opaque.
-/
namespace GudeAgents.Mcp
open Framework
/-- The pool: `sessions` is the channel of idle sessions, with room for `maxSize`. -/
structure Pool (S : Type) where
  maxSize : Int
  size : Int
  sessions : List S
  closed : Bool

inductive Turn (S : Type) where
  | poolClosed
  | lease (session : S)
  | reserve
  | cancelled
  | wait

namespace Pool
variable {S : Type}
def new (maxSize : Int) (session : S) : Pool S := ⟨maxSize,1,[session],false⟩
def keep (p : Pool S) (rest : List S) : Pool S := { p with sessions := rest }
def reserve (p : Pool S) : Pool S := { p with size := p.size + 1 }

/-- One turn of the loop of `acquire`, up to the unlock or the wait. -/
def acquire (p : Pool S) (ctxErr : Bool) : Pool S×Turn S :=
  if p.closed then (p,.poolClosed)
  else
    match p.sessions with
    | session::rest => (p.keep rest,.lease session)
    | [] =>
      if p.size<p.maxSize then (p.reserve,.reserve)
      else if ctxErr then (p,.cancelled)
      else (p,.wait)

/-- A slot is given back: after a failed connect, in `discard`, and once the pool is closed. -/
def giveBack (p : Pool S) : Pool S := { p with size := p.size - 1 }
def send (p : Pool S) (session : S) : Option (Pool S) :=
  if p.sessions.length<p.maxSize then some (p.keep (p.sessions++[session]))
  else none
def drain : List S → Int → List S → Int×List S
  | [], size, idle => (size,idle)
  | session::rest, size, idle => drain rest (size-1) (idle++[session])

theorem drain_eq (sessions : List S) (size : Int) (idle : List S) :
    drain sessions size idle=(size-sessions.length,idle++sessions) := by
  induction sessions generalizing size idle with
  | nil => simp [drain]
  | cons session rest ih =>
    rw [drain,ih,List.append_assoc,List.singleton_append,List.length_cons]
    congr 1
    omega

def close (p : Pool S) : Pool S×List S :=
  let (size,idle) := drain p.sessions p.size []
  ({ p with size := size, sessions := [], closed := true },idle)

theorem close_eq (p : Pool S) :
    p.close=({ p with size := p.size - p.sessions.length, sessions := [], closed := true },
      p.sessions) := by
  simp only [close,drain_eq,List.nil_append]
end Pool
inductive Thread (S C : Type) where
  /-- Before the lock of `acquire`. -/
  | acquire (ctx : C)
  /-- In the wait of `acquire`; it runs once its wake-up is pending. -/
  | waiting (ctx : C) (cancelled : Nat)
  /-- In `connect`, with a slot. -/
  | connecting
  /-- Behind `connect`, before the lock. -/
  | connected (session : S)
  | connectFailed
  /-- With a lease that it is to return. -/
  | leased (session : S)
  /-- Before the lock of `Close`. -/
  | close
  /-- With sessions that it is to close, without the lock. -/
  | closing (sessions : List S)
  /-- The watcher in its `select`. -/
  | watching (ctx : C) (cancelled : Nat)
  /-- The watcher before the lock of its broadcast. -/
  | broadcasting (ctx : C) (cancelled : Nat)
  deriving DecidableEq

/-- What the threads share: the pool, the contexts that are done and the `cancelled` channels, which
are numbered as they are made. `connections` and `closes` record every session that was opened and
every call of its `Close`. -/
structure World (S C : Type) where
  pool : Pool S
  done : C → Bool
  channels : Nat
  closedChannels : Multiset Nat
  connections : Multiset S
  closes : Multiset S

variable {S C : Type}
namespace World
def goOn (w : World S C) (running : Multiset (Thread S C)) : Outcome (World S C) (Thread S C) :=
  ⟨w,.none,running,0⟩
def giveBack (w : World S C) (running : Multiset (Thread S C)) :
    Outcome (World S C) (Thread S C) :=
  ⟨{ w with pool := w.pool.giveBack },.all,running,0⟩

/-- A turn of `acquire`. To wait it makes a channel and starts the watcher; the lock is held until
the caller is parked. -/
def turn (w : World S C) (ctx : C) : Outcome (World S C) (Thread S C) :=
  match w.pool.acquire (w.done ctx) with
  | (pool,.poolClosed) => goOn { w with pool } 0
  | (pool,.lease session) => goOn { w with pool } {.leased session}
  | (pool,.reserve) => goOn { w with pool } {.connecting}
  | (pool,.cancelled) => goOn { w with pool } 0
  | (pool,.wait) =>
    ⟨{ w with pool, channels := w.channels + 1 },.none,{.watching ctx w.channels},
      {.waiting ctx w.channels}⟩
end World
inductive Acts : Thread S C → World S C → Outcome (World S C) (Thread S C) → Prop where
  | acquire {w : World S C} (ctx : C) : Acts (.acquire ctx) w (w.turn ctx)
  | awake {w : World S C} (ctx : C) (cancelled : Nat) : Acts (.waiting ctx cancelled) w
        ({ w with closedChannels := cancelled ::ₘ w.closedChannels }.turn ctx)
  | connects {w : World S C} {session : S} (hnew : session∉w.connections) : Acts .connecting w
        (World.goOn { w with connections := session ::ₘ w.connections } {.connected session})
  | fails {w : World S C} : Acts .connecting w (w.goOn {.connectFailed})
  | failed {w : World S C} : Acts .connectFailed w (w.giveBack 0)
  | connectedOpen {w : World S C} {session : S} (h : w.pool.closed=false) :
      Acts (.connected session) w (w.goOn {.leased session})
  | connectedClosed {w : World S C} {session : S} (h : w.pool.closed=true) :
      Acts (.connected session) w (w.giveBack {.closing [session]})
  | releaseOpen {w : World S C} {session : S} {pool : Pool S} (h : w.pool.closed=false)
      (hsend : w.pool.send session=some pool) :
      Acts (.leased session) w ⟨{ w with pool },.one,0,0⟩
  | releaseClosed {w : World S C} {session : S} (h : w.pool.closed=true) :
      Acts (.leased session) w (w.giveBack {.closing [session]})
  | discard {w : World S C} {session : S} :
      Acts (.leased session) w (w.giveBack {.closing [session]})
  | close {w : World S C} (h : w.pool.closed=false) :
      Acts .close w ⟨{ w with pool := w.pool.close.1 },.all,{.closing w.pool.close.2},0⟩
  | closeAgain {w : World S C} (h : w.pool.closed=true) : Acts .close w (w.goOn 0)
  | closes {w : World S C} {session : S} {rest : List S} : Acts (.closing (session::rest)) w
        (World.goOn { w with closes := session ::ₘ w.closes } {.closing rest})
  | closedAll {w : World S C} : Acts (.closing []) w (w.goOn 0)
  | contextDone {w : World S C} {ctx : C} {cancelled : Nat} (h : w.done ctx=true) :
      Acts (.watching ctx cancelled) w (w.goOn {.broadcasting ctx cancelled})
  | channelClosed {w : World S C} {ctx : C} {cancelled : Nat}
      (h : cancelled∈w.closedChannels) : Acts (.watching ctx cancelled) w (w.goOn 0)
  | broadcast {w : World S C} {ctx : C} {cancelled : Nat} :
      Acts (.broadcasting ctx cancelled) w ⟨w,.all,0,0⟩

inductive Enters : Thread S C → Prop where
  | acquire (ctx : C) : Enters (.acquire ctx)
  | close : Enters .close

inductive Cancels : World S C → World S C → Prop where
  | cancel {w : World S C} (done : C → Bool) (h : ∀ ctx, w.done ctx=true → done ctx=true) :
      Cancels w { w with done := done }

def poolMonitor (S C : Type) : Monitor (World S C) (Thread S C) := ⟨Acts,Enters,Cancels⟩
def World.new (maxSize : Int) (session : S) (done : C → Bool) : World S C :=
  ⟨.new maxSize session,done,0,0,{session},0⟩

inductive Turns (w : World S C) (ctx : C) : Outcome (World S C) (Thread S C) → Prop where
  | poolClosed (h : w.pool.closed=true) : Turns w ctx (w.goOn 0)
  | lease {session : S} {rest : List S} (hopen : w.pool.closed=false)
      (h : w.pool.sessions=session::rest) :
      Turns w ctx (World.goOn { w with pool := w.pool.keep rest } {.leased session})
  | reserve (hopen : w.pool.closed=false) (hidle : w.pool.sessions=[])
      (h : w.pool.size<w.pool.maxSize) :
      Turns w ctx (World.goOn { w with pool := w.pool.reserve } {.connecting})
  | cancelled (hidle : w.pool.sessions=[]) (h : w.done ctx=true) : Turns w ctx (w.goOn 0)
  | wait (hopen : w.pool.closed=false) (hidle : w.pool.sessions=[])
      (h : ¬ w.pool.size<w.pool.maxSize) (hctx : w.done ctx=false) :
      Turns w ctx ⟨{ w with channels := w.channels + 1 },.none,{.watching ctx w.channels},
          {.waiting ctx w.channels}⟩

theorem turn_turns (w : World S C) (ctx : C) : Turns w ctx (w.turn ctx) := by
  rw [World.turn,Pool.acquire]
  by_cases hclosed : w.pool.closed=true
  · rw [if_pos hclosed]
    exact .poolClosed hclosed
  · rw [if_neg hclosed]
    have hopen : w.pool.closed=false := Bool.not_eq_true _ ▸ hclosed
    cases hidle : w.pool.sessions with
    | cons session rest => exact .lease hopen hidle
    | nil =>
      by_cases hsize : w.pool.size<w.pool.maxSize
      · simp only [if_pos hsize]
        exact .reserve hopen hidle hsize
      · simp only [if_neg hsize]
        cases hctx : w.done ctx with
        | true => exact .cancelled hidle hctx
        | false => exact .wait hopen hidle hsize hctx
end GudeAgents.Mcp
