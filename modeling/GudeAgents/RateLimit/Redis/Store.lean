import GudeAgents.Framework.Expiring
import GudeAgents.RateLimit.Accounts
/-!
# The Redis rate-limit store

The scripts and calls of `agent/ratelimit/redis`. Scripts are atomic and take the server's time in
milliseconds. Every key expires on its own. A script computes with doubles, which what it reads and
what it adds up is rounded to; `INCRBY` is exact.
-/
namespace GudeAgents.RateLimit.Redis
open Framework TokenReservation
def milliseconds (d : Int) : Int := d.tdiv 1000000

structure Config where
  leaseTTLs : Option (Int×Int) := none
  deriving DecidableEq, Repr

def Config.pendingTTL (config : Config) : Int := (config.leaseTTLs.map Prod.fst).getD 0
def Config.terminalTTL (config : Config) : Int := (config.leaseTTLs.map Prod.snd).getD 0
def Config.effectivePending (config : Config) (window : Int) : Int :=
  let ttl := wrap64 (2*window)
  if ttl<config.pendingTTL then config.pendingTTL else ttl
def Config.effectiveTerminal (config : Config) (window : Int) : Int :=
  if window<config.terminalTTL then config.terminalTTL else window
def validTTL (d : Int) : Bool := decide (0<d) && decide (0 < milliseconds d)
def upTo (set : FiniteMap String Int) (cutoff : Int) : List String :=
  (set.entries.filter fun e => decide (e.2≤cutoff)).map Sigma.fst

/-- A request counter. `active` is history: the time of the last admission. -/
structure RequestKey where
  members : Expiring (FiniteMap String Int) := none
  active : Option Int := none

namespace RequestKey
def prune (x : RequestKey) (now window : Int) : RequestKey :=
  { x with
    members := (upTo (x.members.entries now) (now-window-1)).foldl
      (fun members m => members.remove now m) x.members }
def card (x : RequestKey) (now : Int) : Int := (x.members.entries now).entries.length
def enter (x : RequestKey) (now window : Int) (id : String) : RequestKey :=
  { members := (x.members.put now ((x.members.entries now).insert id now)).expireAt now
      (now+window)
    active := some now }
end RequestKey
/-- A token counter. `active` is history: the time of the last admission or settlement. -/
structure TokenKeys where
  members : Expiring (FiniteMap String Int) := none
  amounts : Expiring (FiniteMap String Int) := none
  total : Expiring Int := none
  active : Option Int := none

namespace TokenKeys
def sum (x : TokenKeys) (now : Int) : Int := (x.total.get now).getD 0
def amount (x : TokenKeys) (now : Int) (id : String) : Int :=
  ((x.amounts.entries now).lookup id).getD 0

/-- One round of the pruning loop: the member's amount is taken off the sum. -/
def pruneMember (now : Int) (x : TokenKeys×Int) (m : String) : TokenKeys×Int :=
  ({ x.1 with amounts := x.1.amounts.remove now m, members := x.1.members.remove now m },
    toFloat64 (x.2-x.1.amount now m))

/-- The total is written back without an expiry. -/
def prune (x : TokenKeys) (now window : Int) : TokenKeys :=
  let cutoff := now-window
  let (x,sum) :=
    (upTo (x.members.entries now) (cutoff-1)).foldl (pruneMember now) (x,toFloat64 (x.sum now))
  { x with total := .set (if sum<0 then 0 else sum) }

def enter (x : TokenKeys) (now window : Int) (id : String) (amount : Int) : TokenKeys :=
  { members := (x.members.put now ((x.members.entries now).insert id now)).expireAt now
      (now+window)
    amounts := (x.amounts.put now ((x.amounts.entries now).insert id amount)).expireAt now
      (now+window)
    total := (x.total.put now (x.sum now+amount)).expireAt now (now+window)
    active := some now }

/-- A negative `actual` charges what the hash has for the lease. -/
def settle (x : TokenKeys) (now window : Int) (id : String) (actual : Int) : TokenKeys :=
  let old := x.amount now id
  let n := if actual<0 then old else actual
  let sum := toFloat64 (toFloat64 (toFloat64 (x.sum now)-old)+n)
  { members := (x.members.put now ((x.members.entries now).insert id now)).expireAt now
      (now+window)
    amounts := (x.amounts.put now ((x.amounts.entries now).insert id n)).expireAt now (now+window)
    total := (Expiring.set (if sum<0 then 0 else sum)).expireAt now (now+window)
    active := some now }
end TokenKeys
/-- A lease's ledger. Of the counters the code stores the keys and the windows; their amounts and
the time of admission are history. -/
structure Ledger where
  state : LeaseState
  expires : Int
  terminalTTL : Int
  tokens : List TokenReservation
  entered : Int
  deriving DecidableEq, Repr

structure Database where
  requests : String → RequestKey
  tokens : String → TokenKeys
  ledgers : String → Expiring Ledger

def Database.empty : Database := ⟨fun _ => {},fun _ => {},fun _ => none⟩

namespace Database
def checkRequests (db : Database) (now : Int) (counters : List RequestCounter) :
    Database×Bool :=
  let (requests,free) := checkEach RequestCounter.key
    (fun c x => x.prune now (milliseconds c.window)) (fun c x => decide (c.limit≤x.card now))
    counters db.requests
  ({ db with requests := requests },free)

def checkTokens (db : Database) (now : Int) (counters : List TokenReservation) :
    Database×Bool :=
  let (tokens,free) := checkEach key (fun c x => x.prune now (milliseconds c.window))
    (fun c x => decide (toFloat64 c.limit<toFloat64 (x.sum now+toFloat64 c.amount))) counters
    db.tokens
  ({ db with tokens := tokens },free)

def enter (db : Database) (now : Int) (r : Reservation) (pendingTTL terminalTTL : Int) :
    Database :=
  { requests := updateEach RequestCounter.key
      (fun c x => x.enter now (milliseconds c.window) r.id) r.requests db.requests
    tokens := updateEach key
      (fun c x => x.enter now (milliseconds c.window) r.id (toFloat64 c.amount)) r.tokens db.tokens
    ledgers := Function.update db.ledgers r.id
      (((db.ledgers r.id).put now ⟨.pending,now+pendingTTL,terminalTTL,r.tokens,now⟩).expireAt
        now (now+(pendingTTL+terminalTTL))) }

def reserveScript (db : Database) (now : Int) (r : Reservation) (pendingTTL terminalTTL : Int) :
    Database×Bool :=
  if ((db.ledgers r.id).get now).isSome then (db,true)
  else
    match db.checkRequests now r.requests with
    | (db,false) => (db,false)
    | (db,true) =>
      match db.checkTokens now r.tokens with
      | (db,false) => (db,false)
      | (db,true) => (db.enter now r pendingTTL terminalTTL,true)

def settle (db : Database) (now : Int) (id : String) (actual : Int)
    (counters : List TokenReservation) : Database :=
  { db with
    tokens := updateEach key
      (fun c x => x.settle now (milliseconds c.window) id actual) counters db.tokens }

def close (db : Database) (now : Int) (id : String) (ledger : Ledger) (state : LeaseState) :
    Database :=
  { db with
    ledgers := Function.update db.ledgers id
      (((db.ledgers id).put now { ledger with state := state }).expireAt now
        (now+ledger.terminalTTL)) }

/-- A lease past its deadline is settled as expired, for its reserved amounts. -/
def terminalScript (db : Database) (now : Int) (id : String) (action : LeaseState) (actual : Int)
    (counters : List TokenReservation) : Database×Option StoreError :=
  match (db.ledgers id).get now with
  | none => (db,some .leaseUnknown)
  | some ledger =>
    if ledger.state≠.pending then (db,some (terminalError ledger.state action))
    else if ledger.expires≤now then
      ((db.settle now id (-1) counters).close now id ledger .expired,some .leaseExpired)
    else ((db.settle now id (toFloat64 actual) counters).close now id ledger action,none)
end Database
def validateReservation (config : Config) (r : Reservation) : Option StoreError :=
  if config.leaseTTLs.isSome ∧ (config.pendingTTL≤0 ∨ config.terminalTTL≤0) then
    some (.other "redis lease TTLs must be positive when configured")
  else if r.id="" then some (.other "rate limit reservation requires an ID")
  else if r.requests.any fun c =>
      decide (c.strategy≠.slidingWindow ∨ c.limit≤0) || !validTTL c.window then
    some (.other "redis requires valid sliding request counters")
  else if r.tokens.any fun c =>
      decide (c.strategy≠.slidingWindow ∨ c.limit≤0 ∨ c.amount<0) || !validTTL c.window then
    some (.other "redis requires valid sliding token counters")
  else if reservationWindow r=0 then some (.other "rate limit reservation has no counters")
  else none

namespace Database
def reserve (db : Database) (config : Config) (now : Int) (r : Reservation) :
    Database×Except StoreError Bool :=
  match validateReservation config r with
  | some err => (db,.error err)
  | none =>
    let window := reservationWindow r
    let (db,admitted) := db.reserveScript now r (milliseconds (config.effectivePending window))
      (milliseconds (config.effectiveTerminal window))
    (db,.ok admitted)

/-- The ledger is read at `readAt`, the script runs at `now`. -/
def terminal (db : Database) (readAt now : Int) (id : String) (action : LeaseState)
    (actual : Int) : Database×Option StoreError :=
  match (db.ledgers id).get readAt with
  | none => (db,some .leaseUnknown)
  | some ledger =>
    if ledger.state≠.pending then (db,some (terminalError ledger.state action))
    else db.terminalScript now id action actual ledger.tokens

def commit (db : Database) (readAt now : Int) (id : String) (actual : Int) :
    Database×Option StoreError :=
  db.terminal readAt now id .committed (if actual<0 then 0 else actual)
def release (db : Database) (readAt now : Int) (id : String) : Database×Option StoreError :=
  db.terminal readAt now id .released (-1)
def after (db : Database) (config : Config) (readAt now : Int) : Call → Database
  | .reserve r => (db.reserve config now r).1
  | .commit id actual => (db.commit readAt now id actual).1
  | .release id => (db.release readAt now id).1
end Database
def amounts : Call → List Int
  | .reserve r => r.tokens.map amount
  | .commit _ actual => [actual]
  | .release _ => []

/-- No total reaches 2 ^ 53, also with what the call adds: below it doubles are exact. -/
def Database.Exact (db : Database) (now : Int) (call : Call) : Prop :=
  ∀ key, ∀ n∈0::amounts call, (db.tokens key).sum now+n<2^53

/-- Calls at non-decreasing times, each exact and made in a state and at a time that meet `ok`. -/
inductive Run (config : Config) (p : Policy) (ok : Database → Int → Prop) :
    Int → Database → Prop
  | start (now : Int) : Run config p ok now .empty
  | call {last readAt now : Int} {db : Database} {call : Call} (before : Run config p ok last db)
      (read : last≤readAt) (clock : readAt≤now) (follows : MemoryStore.FollowingCall p call)
      (exact : db.Exact now call) (allowed : ok db now) :
      Run config p ok now (db.after config readAt now call)
end GudeAgents.RateLimit.Redis
