import Mathlib.Data.List.Basic
/-!
# Fallback providers

Model of `provider/fallback/fallback.go`: a failed provider is followed by the next one of the chain
only if the caller has seen no event of it.
-/
namespace GudeAgents.Provider
open List
variable {Event Response Error : Type}
/-- What one call of `Stream` did so far: the events it passed to `emit`, and the pair it returned.
A call that has not returned has no result. -/
structure Attempt (Event Response Error : Type) where
  events : List Event
  result : Option (Option Response×Option Error)

/-- A provider may behave differently when it gets no `emit`, which it then cannot call. -/
abbrev Streamer (Event Response Error : Type) : Type := Bool → Attempt Event Response Error

def emitted (provider : Streamer Event Response Error) (emit : Bool) : List Event :=
  if emit then (provider emit).events else []

structure ChainError (Error : Type) where
  heading : String
  cause : Option Error

structure Fallback (Event Response Error : Type) where
  chain : List (Streamer Event Response Error)

def Fallback.new (primary : Streamer Event Response Error)
    (fallbacks : List (Streamer Event Response Error)) : Fallback Event Response Error :=
  ⟨primary::fallbacks⟩

/-- What the caller sees of a call: the positions tried, the events with the position they came
from, and the pair returned. -/
structure Call (Event Response Error : Type) where
  tried : List Nat
  events : List (Nat×Event)
  result : Option (Option Response×Option (ChainError Error))

def Call.after (i : Nat) (events : List Event) (call : Call Event Response Error) :
    Call Event Response Error :=
  { call with tried := i::call.tried, events := events.map (i, ·)++call.events }

def tryFrom (emit : Bool) (i : Nat) (lastErr : ChainError Error) :
    List (Streamer Event Response Error) → Call Event Response Error
  | [] => ⟨[],[],some (none,some ⟨"all providers failed: "++lastErr.heading,lastErr.cause⟩)⟩
  | provider::rest =>
    let events := emitted provider emit
    match (provider emit).result with
    | none => Call.after i events ⟨[],[],none⟩
    | some (resp,none) => Call.after i events ⟨[],[],some (resp,none)⟩
    | some (_,some err) =>
      let lastErr := ⟨s!"provider[{i}]: ",some err⟩
      if events=[] then Call.after i events (tryFrom emit (i+1) lastErr rest)
      else Call.after i events ⟨[],[],some (none,some lastErr)⟩

def Fallback.stream (p : Fallback Event Response Error) (emit : Bool) :
    Call Event Response Error :=
  tryFrom emit 0 ⟨"%!w(<nil>)",none⟩ p.chain
def Passed (provider : Streamer Event Response Error) (emit : Bool) : Prop :=
  emitted provider emit=[] ∧ ∃ resp err, (provider emit).result=some (resp,some err)

/-- The call that started at position `i` ended with the provider at place `k` of the chain: those
before it were passed over, and what the caller got is that provider's. -/
structure EndsWith (chain : List (Streamer Event Response Error)) (emit : Bool) (i k : Nat)
    (provider : Streamer Event Response Error) (call : Call Event Response Error) : Prop where
  at_place : chain[k]?=some provider
  tried : call.tried=range' i (k+1)
  events : call.events=(emitted provider emit).map (i+k, ·)
  passed : ∀ q∈chain.take k, Passed q emit
  response : ∀ resp, call.result=some (resp,none) → (provider emit).result=some (resp,none)
  failure : ∀ resp err, call.result=some (resp,some err) → resp=none ∧
    ∃ dropped cause, (provider emit).result=some (dropped,some cause) ∧ err.cause=some cause

section
variable {chain : List (Streamer Event Response Error)} {emit : Bool} {i k : Nat}
  {provider last : Streamer Event Response Error} {call : Call Event Response Error}
theorem endsWith_first {result : Option (Option Response×Option (ChainError Error))}
    (hresponse : ∀ resp, result=some (resp,none) → (provider emit).result=some (resp,none))
    (hfailure : ∀ resp err, result=some (resp,some err) → resp=none ∧ ∃ dropped cause,
      (provider emit).result=some (dropped,some cause) ∧ err.cause=some cause) :
    EndsWith (provider::chain) emit i 0 provider
      (.after i (emitted provider emit) ⟨[],[],result⟩) where
  at_place := rfl
  tried := rfl
  events := by simp [Call.after]
  passed := by simp
  response := hresponse
  failure := hfailure

theorem EndsWith.next (h : EndsWith chain emit (i+1) k last call)
    (hpassed : Passed provider emit) :
    EndsWith (provider::chain) emit i (k+1) last (call.after i (emitted provider emit)) where
  at_place := h.at_place
  tried := by simp [Call.after,h.tried,range'_succ]
  events := by simp [Call.after,hpassed.1,h.events,Nat.add_right_comm,Nat.add_assoc]
  passed := by
    intro q hq
    rcases mem_cons.mp hq with rfl | hq
    · exact hpassed
    · exact h.passed q hq
  response := h.response
  failure := h.failure

section
variable (rest : List (Streamer Event Response Error)) (lastErr : ChainError Error)
include rest lastErr
theorem tryFrom_stops (h : ¬Passed provider emit) : EndsWith (provider::rest) emit i 0 provider
      (tryFrom emit i lastErr (provider::rest)) := by
  rw [tryFrom]
  split
  next hresult => exact endsWith_first (by simp) (by simp)
  next resp hresult => exact endsWith_first (by simp [hresult]) (by simp)
  next resp err hresult =>
    rw [if_neg fun hsilent => h ⟨hsilent,resp,err,hresult⟩]
    exact endsWith_first (by simp) (by simp [hresult])

theorem tryFrom_endsWith : ∃ k last, EndsWith (provider::rest) emit i k last
      (tryFrom emit i lastErr (provider::rest)) := by
  induction rest generalizing provider i lastErr with
  | nil =>
    refine ⟨0,provider,?_⟩
    by_cases h : Passed provider emit
    · obtain ⟨hsilent,resp,err,hresult⟩ := h
      simp only [tryFrom,hresult,if_pos hsilent]
      exact endsWith_first (by simp) (by simp [hresult])
    · exact tryFrom_stops [] lastErr h
  | cons next rest ih =>
    by_cases h : Passed provider emit
    · obtain ⟨hsilent,resp,err,hresult⟩ := id h
      obtain ⟨k,last,hlast⟩ := @ih (i + 1) next ⟨s!"provider[{i}]: ",some err⟩
      rw [tryFrom,hresult]
      simp only [if_pos hsilent]
      exact ⟨k+1,last,hlast.next h⟩
    · exact ⟨0,provider,tryFrom_stops _ lastErr h⟩
end
end
/-- Whatever the providers do, the caller of a chain sees the events and the result of one provider
only, the last one tried. -/
theorem stream_endsWith (primary : Streamer Event Response Error)
    (fallbacks : List (Streamer Event Response Error)) (emit : Bool) :
    ∃ k provider, EndsWith (primary::fallbacks) emit 0 k provider
      ((Fallback.new primary fallbacks).stream emit) :=
  tryFrom_endsWith fallbacks _
end GudeAgents.Provider
