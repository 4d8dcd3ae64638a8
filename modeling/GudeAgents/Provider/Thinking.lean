import GudeAgents.Framework.MachineInt
/-!
# Thinking budgets

How the Anthropic and the Bedrock adapter choose `max_tokens` of a request with a thinking budget.
-/
namespace GudeAgents.Provider
open Framework
inductive Effort where
  | minimal
  | low
  | medium
  | high
  | unlisted

def thinkingBudgets : Effort → Int
  | .minimal => 1024
  | .low => 2048
  | .medium => 8192
  | .high => 16384
  | .unlisted => 0

structure Thinking where
  budget : Int := 0
  effort : Option Effort := none

/-- `resolveThinkingBudget`, without the check of the model's style. -/
def Thinking.resolve (t : Thinking) : Int :=
  if 0<t.budget then t.budget else (t.effort.map thinkingBudgets).getD 0

structure Anthropic where
  maxTokens : Option Int := none
  ceiling : Int := 0
  thinking : Thinking := {}

structure Limits where
  maxTokens : Option Int
  thinking : Option Int

def Anthropic.buildParams (p : Anthropic) (perCall : Option Int) : Limits :=
  let usesCapabilityDefault := p.maxTokens=none ∧ 0<p.ceiling ∧ p.ceiling≤128000
  let maxTokens := if usesCapabilityDefault then p.ceiling else 128000
  let maxTokens := perCall.getD (p.maxTokens.getD maxTokens)
  if 0<p.thinking.resolve then
    { maxTokens := some (if usesCapabilityDefault ∧ perCall=none then p.ceiling
        else wrap64 (maxTokens+p.thinking.resolve))
      thinking := some p.thinking.resolve }
  else { maxTokens := some maxTokens, thinking := none }

def int32 (x : Int) : Int := x.bmod (2^32)

structure Bedrock where
  maxTokens : Option Int := none
  claude : Bool := true
  thinking : Thinking := {}

def Bedrock.withMaxTokens (n : Int) (p : Bedrock) : Bedrock :=
  { p with maxTokens := some (int32 n) }
def Bedrock.resolveThinkingBudget (p : Bedrock) : Int := if p.claude then p.thinking.resolve else 0

def Bedrock.buildInferenceConfiguration (p : Bedrock) (perCall : Option Int) : Limits :=
  let maxTokens := (perCall.map int32).or p.maxTokens
  let budget := p.resolveThinkingBudget
  if 0<budget then
    { maxTokens := some (int32 (maxTokens.getD (int32 8192)+int32 budget))
      thinking := some budget }
  else { maxTokens := maxTokens, thinking := none }

/-- Whenever thinking is enabled, the limit is positive and greater than the budget. -/
def Limits.LeaveRoom (limits : Limits) : Prop :=
  ∀ b, limits.thinking=some b → ∃ n, limits.maxTokens=some n ∧ 0<n ∧ b<n

theorem int32_room_iff (n : Int) {budget : Int} (hbudget : 0<budget) :
    0 < int32 (int32 n+int32 budget) ∧ budget < int32 (int32 n+int32 budget) ↔
      0 < int32 n ∧ int32 n+budget<2^31 := by
  have hlow : -2^31 ≤ int32 n := Int.le_bmod (by decide)
  have hhigh : int32 n<2^31 := Int.bmod_lt (by decide)
  have hsum : int32 (int32 n+int32 budget)=(int32 n+budget).bmod (2^32) := Int.add_bmod_bmod
  have hsmall : (int32 n+budget).bmod (2^32)<2^31 := Int.bmod_lt (by decide)
  rw [hsum]
  by_cases hfits : int32 n+budget<2^31
  · rw [Int.bmod_eq_of_le (by omega) hfits]
    omega
  · refine iff_of_false ?_ fun h => hfits h.2
    rintro ⟨-,hroom⟩
    have hlt : budget<2^31 := Int.lt_trans hroom hsmall
    rw [Int.bmod] at hroom
    split at hroom <;> omega

/-- What is sent leaves room exactly if the budget is below a ceiling used as the limit, the sum of
limit and budget fits its integer type, and the limit is positive as a 32-bit integer. -/
theorem leaveRoom_iff (limit perCall : Option Int) (ceiling : Int) (thinking : Thinking)
    (hlimit : ∀ n∈limit, 0<n ∧ n<2^63) (hcall : ∀ n∈perCall, 0<n ∧ n<2^63)
    (hthinking : 0<thinking.resolve ∧ thinking.resolve<2^63) :
    ((Anthropic.buildParams ⟨limit,ceiling,thinking⟩ perCall).LeaveRoom ↔
      if limit=none ∧ perCall=none ∧ 0<ceiling ∧ ceiling≤128000
        then thinking.resolve<ceiling
        else perCall.getD (limit.getD 128000)+thinking.resolve<2^63) ∧
    ((Bedrock.buildInferenceConfiguration ⟨limit.map int32,true,thinking⟩ perCall).LeaveRoom ↔
      0 < int32 (perCall.getD (limit.getD 8192)) ∧
        int32 (perCall.getD (limit.getD 8192))+thinking.resolve<2^31) := by
  obtain ⟨hpos,hfits⟩ := hthinking
  constructor
  · have hwrap : ∀ n, 0<n ∧ n<2^63 → (0<wrap64 (n+thinking.resolve) ∧
        thinking.resolve<wrap64 (n+thinking.resolve) ↔ n+thinking.resolve<2^63) := by
      intro n hn
      by_cases h : n+thinking.resolve<2^63
      · rw [Fits64.wrap64_eq ⟨by omega,h⟩]
        omega
      · rw [wrap64_of_ge (by omega) (by omega)]
        omega
    cases perCall with
    | some n => simp [Anthropic.buildParams,Limits.LeaveRoom,hpos,hwrap n (hcall n rfl)]
    | none =>
      cases limit with
      | some n => simp [Anthropic.buildParams,Limits.LeaveRoom,hpos,hwrap n (hlimit n rfl)]
      | none =>
        by_cases hc : 0<ceiling ∧ ceiling≤128000
        · simp [Anthropic.buildParams,Limits.LeaveRoom,hpos,hc]
        · simp [Anthropic.buildParams,Limits.LeaveRoom,hpos,hc,hwrap 128000]
  · have hbase : ((perCall.map int32).or (limit.map int32)).getD (int32 8192) =
        int32 (perCall.getD (limit.getD 8192)) := by
      cases perCall <;> cases limit <;> rfl
    simp [Bedrock.buildInferenceConfiguration,Bedrock.resolveThinkingBudget,Limits.LeaveRoom,hpos,
      hbase,int32_room_iff]

theorem thinking_leaves_no_room :
    ¬(Anthropic.buildParams { ceiling := 8192, thinking := { budget := 10000 } } none).LeaveRoom ∧
    ¬(Bedrock.buildInferenceConfiguration
      (Bedrock.withMaxTokens (2^31-1) { thinking := { budget := 1 } }) none).LeaveRoom := by
  constructor
  · intro h
    obtain ⟨n,hn,-,hlt⟩ := h 10000 rfl
    cases hn
    exact absurd hlt (by decide)
  · intro h
    obtain ⟨n,hn,hpos,-⟩ := h 1 rfl
    cases hn
    exact absurd hpos (by decide)

theorem leaveRoom_default : (Anthropic.buildParams ⟨none,64000,⟨0,some .high⟩⟩ none).LeaveRoom ∧
    (Bedrock.buildInferenceConfiguration ⟨none,true,⟨0,some .high⟩⟩ none).LeaveRoom := by
  have h := leaveRoom_iff none none 64000 ⟨0,some .high⟩ (by simp) (by simp) (by decide)
  exact ⟨h.1.mpr (by decide),h.2.mpr (by decide)⟩
end GudeAgents.Provider
