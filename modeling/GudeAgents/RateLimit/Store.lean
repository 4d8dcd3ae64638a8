import GudeAgents.Framework.Lists
import GudeAgents.Framework.FiniteMap
import GudeAgents.Framework.MachineInt
/-!
# The in-memory rate-limit store

`MemoryStore` of `agent/ratelimit/store.go`. Times are in nanoseconds; sums in an `int` wrap around.
Each operation takes the clock and the order in which Go's map iteration visits the leases.
-/
namespace GudeAgents.RateLimit
open Framework
inductive WindowStrategy where
  | slidingWindow
  | fixedWindow
  deriving DecidableEq, Repr

structure RequestCounter where
  key : String
  limit : Int
  window : Int
  strategy : WindowStrategy
  deriving DecidableEq, Repr

structure TokenReservation where
  key : String
  limit : Int
  window : Int
  strategy : WindowStrategy
  amount : Int
  deriving DecidableEq, Repr

structure Reservation where
  id : String
  requests : List RequestCounter
  tokens : List TokenReservation
  deriving DecidableEq, Repr

structure StoreConfig where
  pendingTTL : Int := 0
  terminalTTL : Int := 0
  pendingConfigured : Bool := false
  terminalConfigured : Bool := false
  deriving DecidableEq, Repr

inductive StoreOption where
  | pendingLeaseTTL (ttl : Int)
  | terminalLeaseTTL (ttl : Int)
  deriving DecidableEq, Repr

def StoreOption.set (c : StoreConfig) : StoreOption → StoreConfig
  | .pendingLeaseTTL ttl => { c with pendingTTL := ttl, pendingConfigured := true }
  | .terminalLeaseTTL ttl => { c with terminalTTL := ttl, terminalConfigured := true }

inductive ContextError where
  | canceled
  | deadlineExceeded
  deriving DecidableEq, Repr

inductive StoreError where
  | context (cause : ContextError)
  | leaseUnknown
  | leaseTerminal
  | leaseCrossTerminal
  | leaseExpired
  | other (message : String)
  deriving DecidableEq, Repr

inductive LeaseState where
  | pending
  | committed
  | released
  | expired
  deriving DecidableEq, Repr

structure MemoryLease where
  state : LeaseState
  tokens : List TokenReservation
  window : Int
  pendingUntil : Int
  terminalUntil : Int
  deriving DecidableEq, Repr

def MemoryLease.closed (lease : MemoryLease) (state : LeaseState) (terminalUntil : Int) :
    MemoryLease :=
  { lease with state := state, terminalUntil := terminalUntil }

structure TokenEvent where
  time : Int
  tokens : Int
  deriving DecidableEq, Repr

structure MemoryCounter where
  strategy : WindowStrategy
  window : Int
  requests : List Int := []
  tokens : List TokenEvent := []
  reserved : Int := 0
  fixedStart : Int := 0
  fixedRequests : Int := 0
  fixedTokens : Int := 0
  deriving DecidableEq, Repr

def pruneTimes (events : List Int) (cutoff : Int) : List Int :=
  dropUntil (fun t => !decide (t<cutoff)) events
def pruneTokenEvents (events : List TokenEvent) (cutoff : Int) : List TokenEvent :=
  dropUntil (fun e => !decide (e.time<cutoff)) events

namespace MemoryCounter
/-- The fixed window is over; a start that was never set is Go's zero time. -/
def Due (c : MemoryCounter) (now : Int) : Prop :=
  c.fixedStart=0 ∨ c.window≤now-c.fixedStart

instance (c : MemoryCounter) (now : Int) : Decidable (c.Due now) :=
  inferInstanceAs (Decidable (_ ∨ _))

def prune (c : MemoryCounter) (now : Int) : MemoryCounter :=
  if c.strategy=.fixedWindow then
    if c.Due now then
      { c with fixedStart := now, fixedRequests := 0, fixedTokens := 0, reserved := 0 }
    else c
  else
    let cutoff := now-c.window
    { c with
      requests := pruneTimes c.requests cutoff
      tokens := pruneTokenEvents c.tokens cutoff }

def requestCount (c : MemoryCounter) : Int :=
  if c.strategy=.fixedWindow then c.fixedRequests else c.requests.length
def tokenCount (c : MemoryCounter) : Int :=
  if c.strategy=.fixedWindow then c.fixedTokens
  else c.tokens.foldl (fun total e => wrap64 (total+e.tokens)) 0
def addRequest (c : MemoryCounter) (now : Int) : MemoryCounter :=
  if c.strategy=.fixedWindow then { c with fixedRequests := wrap64 (c.fixedRequests + 1) }
  else { c with requests := c.requests++[now] }
def addTokens (c : MemoryCounter) (now : Int) (n : Int) : MemoryCounter :=
  if n≤0 then c
  else if c.strategy=.fixedWindow then { c with fixedTokens := wrap64 (c.fixedTokens + n) }
  else { c with tokens := c.tokens++[⟨now,n⟩] }
def reserve (c : MemoryCounter) (amount : Int) : MemoryCounter :=
  { c with reserved := wrap64 (c.reserved + amount) }
def unreserve (c : MemoryCounter) (amount : Int) : MemoryCounter :=
  let reserved := wrap64 (c.reserved-amount)
  { c with reserved := if reserved<0 then 0 else reserved }
end MemoryCounter
def chargeOf (amount actual : Int) : Int := if actual<0 then amount else actual
def MemoryCounter.settle (c : MemoryCounter) (now : Int) (amount actual : Int) : MemoryCounter :=
  ((c.prune now).unreserve amount).addTokens now (chargeOf amount actual)

structure Slot where
  name : String
  strategy : WindowStrategy
  window : Int

def Slot.fresh (slot : Slot) : MemoryCounter :=
  { strategy := slot.strategy, window := slot.window }
def RequestCounter.slot (r : RequestCounter) : Slot := ⟨"r:"++r.key,r.strategy,r.window⟩
def TokenReservation.slot (r : TokenReservation) : Slot := ⟨"t:"++r.key,r.strategy,r.window⟩
def Reservation.slots (r : Reservation) : List Slot :=
  r.requests.map RequestCounter.slot++r.tokens.map TokenReservation.slot

/-- What happened to leases; no operation of the store reads it. -/
inductive Entry where
  | admitted (time : Int) (reservation : Reservation)
  | settled (time : Int) (id : String) (state : LeaseState) (tokens : List TokenReservation)
      (actual : Int)
  | dropped (time : Int) (id : String)
  deriving DecidableEq, Repr

structure MemoryStore where
  leases : FiniteMap String MemoryLease
  counters : FiniteMap String MemoryCounter
  config : StoreConfig
  journal : List Entry

def MemoryStore.new (config : StoreConfig) : MemoryStore :=
  { leases := ∅, counters := ∅, config := config, journal := [] }

def newMemoryStore (opts : List StoreOption) : Except StoreError MemoryStore :=
  let c := opts.foldl StoreOption.set {}
  if c.pendingConfigured && decide (c.pendingTTL≤0) ||
      c.terminalConfigured && decide (c.terminalTTL≤0) then
    .error (.other "lease TTLs must be positive when configured")
  else .ok (.new c)

def terminalError (state requested : LeaseState) : StoreError :=
  if state=.expired then .leaseExpired
  else if state=requested then .leaseTerminal
  else .leaseCrossTerminal
def reservationWindow (r : Reservation) : Int :=
  let w := r.requests.foldl (fun w c => if w<c.window then c.window else w) 0
  r.tokens.foldl (fun w c => if w<c.window then c.window else w) w

def validateReservation (r : Reservation) : Option StoreError :=
  if r.requests.any fun c => decide (c.limit≤0 ∨ c.window≤0) then
    some (.other "invalid request counter")
  else if r.tokens.any fun c => decide (c.limit≤0 ∨ c.window≤0 ∨ c.amount<0) then
    some (.other "invalid token counter")
  else none

def requestFull (c : MemoryCounter) (r : RequestCounter) : Bool :=
  decide (r.limit≤c.requestCount)
def tokenFull (c : MemoryCounter) (r : TokenReservation) : Bool :=
  decide (r.limit<wrap64 (wrap64 (c.tokenCount+c.reserved)+r.amount))

namespace MemoryStore
/-- At least twice the window; the doubling is done in 64 bits. -/
def pendingTTL (s : MemoryStore) (window : Int) : Int :=
  let ttl := wrap64 (2*window)
  if ttl<s.config.pendingTTL then s.config.pendingTTL else ttl
def terminalTTL (s : MemoryStore) (window : Int) : Int :=
  if window<s.config.terminalTTL then s.config.terminalTTL else window
def counter (s : MemoryStore) (slot : Slot) : MemoryCounter :=
  (s.counters.lookup slot.name).getD slot.fresh
def update (s : MemoryStore) (slot : Slot) (f : MemoryCounter → MemoryCounter) : MemoryStore :=
  { s with counters := s.counters.insert slot.name (f (s.counter slot)) }
def updateAll {ρ : Type} (s : MemoryStore) (slot : ρ → Slot)
    (f : ρ → MemoryCounter → MemoryCounter) (l : List ρ) : MemoryStore :=
  l.foldl (fun s r => s.update (slot r) (f r)) s
def settle (s : MemoryStore) (now : Int) (tokens : List TokenReservation) (actual : Int) :
    MemoryStore :=
  s.updateAll TokenReservation.slot (fun r c => c.settle now r.amount actual) tokens

def close (s : MemoryStore) (now : Int) (id : String) (lease : MemoryLease) (state : LeaseState)
    (actual : Int) : MemoryStore :=
  let s := s.settle now lease.tokens actual
  { s with
    leases := s.leases.insert id (lease.closed state (now+s.terminalTTL lease.window))
    journal := s.journal++[.settled now id state lease.tokens actual] }

def drop (s : MemoryStore) (now : Int) (id : String) : MemoryStore :=
  { s with leases := s.leases.erase id, journal := s.journal++[.dropped now id] }

def expire (s : MemoryStore) (now : Int) (id : String) : MemoryStore :=
  match s.leases.lookup id with
  | some l =>
    if l.state=.pending ∧ l.pendingUntil≤now then s.close now id l .expired (-1) else s
  | none => s

def forget (s : MemoryStore) (now : Int) (id : String) : MemoryStore :=
  match s.leases.lookup id with
  | some l => if l.state≠.pending ∧ l.terminalUntil≤now then s.drop now id else s
  | none => s
def cleanup (s : MemoryStore) (now : Int) (order : List String) : MemoryStore :=
  order.foldl (fun s id => (s.expire now id).forget now id) s

def checkAll {ρ : Type} (now : Int) (slot : ρ → Slot) (full : MemoryCounter → ρ → Bool) :
    MemoryStore → List ρ → MemoryStore×Bool
  | s, [] => (s,true)
  | s, r::rest =>
    let s := s.update (slot r) (·.prune now)
    if full (s.counter (slot r)) r then (s,false) else checkAll now slot full s rest

def addCounts (s : MemoryStore) (now : Int) (r : Reservation) : MemoryStore :=
  let s := s.updateAll RequestCounter.slot (fun _ c => c.addRequest now) r.requests
  s.updateAll TokenReservation.slot (fun r c => c.reserve r.amount) r.tokens

def newLease (s : MemoryStore) (now : Int) (r : Reservation) : MemoryLease :=
  let window := reservationWindow r
  { state := .pending
    tokens := r.tokens
    window := window
    pendingUntil := now+s.pendingTTL window
    terminalUntil := now+s.terminalTTL window }

def grant (s : MemoryStore) (now : Int) (r : Reservation) : MemoryStore :=
  let s := s.addCounts now r
  { s with
    leases := s.leases.insert r.id (s.newLease now r)
    journal := s.journal++[.admitted now r] }

def tryAdmit (s : MemoryStore) (now : Int) (r : Reservation) : MemoryStore×Bool :=
  match checkAll now RequestCounter.slot requestFull s r.requests with
  | (s,false) => (s,false)
  | (s,true) =>
    match checkAll now TokenReservation.slot tokenFull s r.tokens with
    | (s,false) => (s,false)
    | (s,true) => (s.grant now r,true)

def reserve (s : MemoryStore) (ctx : Option ContextError) (now : Int) (order : List String)
    (r : Reservation) : MemoryStore×Except StoreError Bool :=
  match ctx with
  | some cause => (s,.error (.context cause))
  | none =>
    if r.id="" then (s,.error (.other "rate limit reservation requires an ID"))
    else
      match validateReservation r with
      | some err => (s,.error err)
      | none =>
        let s := s.cleanup now order
        if (s.leases.lookup r.id).isSome then (s,.ok true)
        else
          let (s,admitted) := s.tryAdmit now r
          (s,.ok admitted)

def terminate (s : MemoryStore) (now : Int) (order : List String) (id : String)
    (requested : LeaseState) (actual : Int) : MemoryStore×Option StoreError :=
  let s := s.cleanup now order
  match s.leases.lookup id with
  | none => (s,some .leaseUnknown)
  | some lease =>
    if lease.state≠.pending then (s,some (terminalError lease.state requested))
    else (s.close now id lease requested actual,none)

def commit (s : MemoryStore) (ctx : Option ContextError) (now : Int) (order : List String)
    (id : String) (actual : Int) : MemoryStore×Option StoreError :=
  match ctx with
  | some cause => (s,some (.context cause))
  | none => s.terminate now order id .committed (if actual<0 then 0 else actual)

def release (s : MemoryStore) (ctx : Option ContextError) (now : Int) (order : List String)
    (id : String) : MemoryStore×Option StoreError :=
  match ctx with
  | some cause => (s,some (.context cause))
  | none => s.terminate now order id .released (-1)
end MemoryStore
inductive Call where
  | reserve (reservation : Reservation)
  | commit (id : String) (actual : Int)
  | release (id : String)
  deriving DecidableEq, Repr

def MemoryStore.after (s : MemoryStore) (ctx : Option ContextError) (now : Int)
    (order : List String) : Call → MemoryStore
  | .reserve r => (s.reserve ctx now order r).1
  | .commit id actual => (s.commit ctx now order id actual).1
  | .release id => (s.release ctx now order id).1
end GudeAgents.RateLimit
