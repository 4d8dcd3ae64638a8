import GudeAgents.Framework.Program
import GudeAgents.RateLimit.Store
/-!
# The rate limiter

`RateLimiter` of `agent/ratelimit/limiter.go` and its use by `callProvider`. The store, the slots,
the clock and the provider answer the calls of these routines.
-/
namespace GudeAgents.RateLimit
open Framework
inductive OverflowBehavior where
  | block
  | failFast
  deriving DecidableEq, Repr

structure RateConfig where
  count : Int
  windowSeconds : Int
  deriving DecidableEq, Repr

def RateConfig.window (c : RateConfig) : Int := wrap64 (c.windowSeconds*1000000000)
def RateConfig.Fits (c : RateConfig) : Prop :=
  c.count<2^63 ∧ 2*(c.windowSeconds*1000000000)<2^63

instance (c : RateConfig) : Decidable c.Fits := inferInstanceAs (Decidable (_ ∧ _))

abbrev TokenEstimator (ρ : Type) : Type := ρ → Except String Int

structure RateLimitRequest (ρ : Type) where
  key : String
  request : ρ
  maxTokens : Option Int := none

structure RateLimiter (ρ : Type) where
  windowStrategy : WindowStrategy := .slidingWindow
  overflowBehavior : OverflowBehavior := .failFast
  requestRateLimit : Option RateConfig := none
  tokenRateLimit : Option RateConfig := none
  globalRequestLimit : Option RateConfig := none
  globalTokenLimit : Option RateConfig := none
  maxConcurrent : Int := 0
  maxConcurrentSet : Bool := false
  tokenEstimator : Option (TokenEstimator ρ) := none
  tokenReservationDisabled : Bool := false
  outputReservationFallback : Int := 0

inductive RateLimiterOption (ρ : Type) where
  | fixedWindow
  | slidingWindow
  | failFast
  | block
  | requestRateLimit (count windowSeconds : Int)
  | tokenRateLimit (count windowSeconds : Int)
  | maxConcurrent (n : Int)
  | globalRequestLimit (count windowSeconds : Int)
  | globalTokenLimit (count windowSeconds : Int)
  | tokenEstimator (estimator : Option (TokenEstimator ρ))
  | withoutTokenReservation
  | outputReservationFallback (tokens : Int)

namespace RateLimiterOption
variable {ρ : Type}
def rpm (count : Int) : RateLimiterOption ρ := .requestRateLimit count 60
def tpm (count : Int) : RateLimiterOption ρ := .tokenRateLimit count 60
def globalRPM (count : Int) : RateLimiterOption ρ := .globalRequestLimit count 60
def globalTPM (count : Int) : RateLimiterOption ρ := .globalTokenLimit count 60

def set (charEstimator : TokenEstimator ρ) (r : RateLimiter ρ) : RateLimiterOption ρ → RateLimiter ρ
  | .fixedWindow => { r with windowStrategy := .fixedWindow }
  | .slidingWindow => { r with windowStrategy := .slidingWindow }
  | .failFast => { r with overflowBehavior := .failFast }
  | .block => { r with overflowBehavior := .block }
  | .requestRateLimit count seconds => { r with requestRateLimit := some ⟨count,seconds⟩ }
  | .tokenRateLimit count seconds => { r with tokenRateLimit := some ⟨count,seconds⟩ }
  | .maxConcurrent n => { r with maxConcurrent := n, maxConcurrentSet := true }
  | .globalRequestLimit count seconds => { r with globalRequestLimit := some ⟨count,seconds⟩ }
  | .globalTokenLimit count seconds => { r with globalTokenLimit := some ⟨count,seconds⟩ }
  | .tokenEstimator estimator => { r with tokenEstimator := some (estimator.getD charEstimator) }
  | .withoutTokenReservation => { r with tokenReservationDisabled := true, tokenEstimator := none }
  | .outputReservationFallback tokens => { r with outputReservationFallback := tokens }
end RateLimiterOption
inductive LimitKind where
  | request
  | token
  | globalRequest
  | globalToken
  deriving DecidableEq, Repr

def LimitKind.all : List LimitKind := [.request,.token,.globalRequest,.globalToken]

theorem LimitKind.mem_all (kind : LimitKind) : kind∈LimitKind.all := by
  cases kind <;> decide

def LimitKind.name : LimitKind → String
  | .request => "request"
  | .token => "token"
  | .globalRequest => "global request"
  | .globalToken => "global token"

namespace RateLimiter
variable {ρ : Type}
def limit (r : RateLimiter ρ) : LimitKind → Option RateConfig
  | .request => r.requestRateLimit
  | .token => r.tokenRateLimit
  | .globalRequest => r.globalRequestLimit
  | .globalToken => r.globalTokenLimit

def unusable (r : RateLimiter ρ) (kind : LimitKind) : Bool :=
  match r.limit kind with
  | some c => decide (c.count≤0 ∨ c.windowSeconds≤0)
  | none => false
def hasTokenLimit (r : RateLimiter ρ) : Bool :=
  r.tokenRateLimit.isSome || r.globalTokenLimit.isSome
end RateLimiter
/-- The limits are checked in the order of a map iteration, which only decides whose name the
error carries. -/
def newRateLimiter {ρ : Type} (charEstimator : TokenEstimator ρ) (order : List LimitKind)
    (opts : List (RateLimiterOption ρ)) : Except String (RateLimiter ρ) :=
  let r : RateLimiter ρ := opts.foldl (RateLimiterOption.set charEstimator) {}
  match order.find? r.unusable with
  | some kind => .error (kind.name++" rate limit count and window must be > 0")
  | none =>
    if r.maxConcurrentSet && decide (r.maxConcurrent≤0) then
      .error "MaxConcurrent must be > 0"
    else if r.outputReservationFallback<0 then
      .error "output reservation fallback must be >= 0"
    else if r.requestRateLimit.isNone && r.tokenRateLimit.isNone && r.globalRequestLimit.isNone &&
        r.globalTokenLimit.isNone && decide (r.maxConcurrent=0) then
      .error "at least one rate limit option must be provided"
    else if !r.tokenReservationDisabled && r.hasTokenLimit && r.tokenEstimator.isNone then
      .ok { r with tokenEstimator := some charEstimator }
    else .ok r

def storeGlobalKey : String := "global"
def storeKey (key : String) : String := "key:"++key

namespace RateLimiter
variable {ρ : Type}
def estimated (r : RateLimiter ρ) (request : ρ) : Int :=
  match r.tokenEstimator with
  | some estimator =>
    if !r.tokenReservationDisabled && r.hasTokenLimit then
      match estimator request with
      | .ok n => if 0<n then n else 0
      | .error _ => 0
    else 0
  | none => 0

def bounded (maxTokens : Option Int) : Int :=
  match maxTokens with
  | some n => if 0<n then n else 0
  | none => 0
def estimate (r : RateLimiter ρ) (request : RateLimitRequest ρ) : Int :=
  wrap64 (wrap64 (r.outputReservationFallback+r.estimated request.request) +
    bounded request.maxTokens)
def requestCounter (r : RateLimiter ρ) (key : String) (c : RateConfig) : RequestCounter :=
  ⟨key,c.count,c.window,r.windowStrategy⟩
def tokenCounter (r : RateLimiter ρ) (key : String) (amount : Int) (c : RateConfig) :
    TokenReservation :=
  ⟨key,c.count,c.window,r.windowStrategy,amount⟩

def reservation (r : RateLimiter ρ) (id : String) (request : RateLimitRequest ρ) : Reservation :=
  let estimate := r.estimate request
  { id := id
    requests := (r.requestRateLimit.map (r.requestCounter (storeKey request.key))).toList ++
      (r.globalRequestLimit.map (r.requestCounter storeGlobalKey)).toList
    tokens := (r.tokenRateLimit.map (r.tokenCounter (storeKey request.key) estimate)).toList ++
      (r.globalTokenLimit.map (r.tokenCounter storeGlobalKey estimate)).toList }
end RateLimiter
inductive LimiterOp where
  | contextErr
  | leaseID
  | tryTake (key : String)
  | take (key : String)
  | free (key : String)
  | storeReserve (reservation : Reservation)
  | storeCommit (id : String) (actual : Int)
  | storeRelease (id : String)
  | wait
  | polls
  | forever
  | stream

inductive LimiterError where
  | context (cause : ContextError)
  | leaseID (message : String)
  | rateLimitExceeded
  | store (cause : StoreError)
  | provider (message : String)
  | join (cause settlement : LimiterError)
  deriving DecidableEq, Repr

def LimiterOp.Ans : LimiterOp → Type
  | .contextErr | .take _ | .wait => Option ContextError
  | .leaseID => Except String String
  | .tryTake _ => Bool
  | .free _ | .forever => Unit
  | .storeReserve _ => Except StoreError Bool
  | .storeCommit _ _ | .storeRelease _ => Option StoreError
  | .polls => Nat
  | .stream => Except String Int

abbrev LimiterEffects : Effects := ⟨LimiterOp,LimiterOp.Ans⟩

structure Once where
  done : Bool := false
  deriving DecidableEq, Repr

abbrev Limiting (α : Type) : Type := Routine LimiterEffects Once LimiterError α

structure Lease where
  id : String
  slot : Option String
  deriving DecidableEq, Repr

namespace Limiting
def call (op : LimiterOp) : Limiting op.Ans := Routine.perform (E := LimiterEffects) op
def contextErr : Limiting (Option ContextError) := call .contextErr
def leaseID : Limiting (Except String String) := call .leaseID
def tryTake (key : String) : Limiting Bool := call (.tryTake key)
def take (key : String) : Limiting (Option ContextError) := call (.take key)
def free (key : String) : Limiting Unit := call (.free key)
def storeReserve (reservation : Reservation) : Limiting (Except StoreError Bool) :=
  call (.storeReserve reservation)
def storeCommit (id : String) (actual : Int) : Limiting (Option StoreError) :=
  call (.storeCommit id actual)
def storeRelease (id : String) : Limiting (Option StoreError) :=
  call (.storeRelease id)
def wait : Limiting (Option ContextError) := call .wait
def polls : Limiting Nat := call .polls
def forever : Limiting Unit := call .forever
def stream : Limiting (Except String Int) := call .stream
end Limiting
open Limiting
def Lease.release (lease : Lease) : Limiting Unit :=
  match lease.slot with
  | none => pure ()
  | some key => do
    let once ← Routine.get
    if once.done then pure ()
    else do
      Routine.modify fun once => { once with done := true }
      free key

def isTerminal (err : StoreError) : Bool :=
  err=.leaseTerminal || err=.leaseCrossTerminal || err=.leaseExpired

namespace RateLimiter
variable {ρ : Type}
def takeSlot (r : RateLimiter ρ) (key : String) : Limiting Unit := do
  match ← contextErr with
  | some cause => Routine.throw (.context cause)
  | none =>
    match r.overflowBehavior with
    | .failFast => do
      if ← tryTake key then pure () else Routine.throw .rateLimitExceeded
    | .block => do
      match ← take key with
      | some cause => Routine.throw (.context cause)
      | none =>
        match ← contextErr with
        | some cause => do
          free key
          Routine.throw (.context cause)
        | none => pure ()

def pollStore (r : RateLimiter ρ) (lease : Lease) (reservation : Reservation) :
    Nat → Limiting Lease
  | 0 => do
    forever
    Routine.throw .rateLimitExceeded
  | n+1 => do
    match ← storeReserve reservation with
    | .error err => do
      lease.release
      Routine.throw (.store err)
    | .ok true => pure lease
    | .ok false =>
      match r.overflowBehavior with
      | .failFast => do
        lease.release
        Routine.throw .rateLimitExceeded
      | .block => do
        match ← wait with
        | some cause => do
          lease.release
          Routine.throw (.context cause)
        | none => r.pollStore lease reservation n

def reserve (r : RateLimiter ρ) (request : RateLimitRequest ρ) : Limiting Lease := do
  match ← contextErr with
  | some cause => Routine.throw (.context cause)
  | none =>
    match ← leaseID with
    | .error message => Routine.throw (.leaseID message)
    | .ok id =>
      let rounds ← polls
      if 0<r.maxConcurrent then do
        r.takeSlot request.key
        r.pollStore ⟨id,some request.key⟩ (r.reservation id request) (rounds+1)
      else r.pollStore ⟨id,none⟩ (r.reservation id request) (rounds+1)

def settled (lease : Lease) (err : Option StoreError) : Limiting (Option StoreError) :=
  match err with
  | none => do
    lease.release
    pure none
  | some err =>
    if isTerminal err then do
      lease.release
      pure (some err)
    else pure (some err)

def commit (lease : Lease) (usage : Int) : Limiting (Option StoreError) := do
  settled lease (← storeCommit lease.id (max usage 0))
def release (lease : Lease) : Limiting (Option StoreError) := do
  settled lease (← storeRelease lease.id)

def callProvider (r : RateLimiter ρ) (request : RateLimitRequest ρ) : Limiting Int := do
  let lease ← r.reserve request
  match ← stream with
  | .ok usage =>
    match ← commit lease usage with
    | some err => Routine.throw (.store err)
    | none => pure usage
  | .error message =>
    match ← release lease with
    | some err => Routine.throw (.join (.provider message) (.store err))
    | none => Routine.throw (.provider message)
end RateLimiter
end GudeAgents.RateLimit
