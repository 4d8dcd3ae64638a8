import GudeAgents.RateLimit.Store
/-!
# Single counters
-/
namespace GudeAgents.RateLimit
open Framework List
theorem dropUntil_cutoff {α : Type} (time : α → Int) {events : List α}
    (h : events.Pairwise fun e e' => time e≤time e') (cutoff : Int) :
    dropUntil (fun e => !decide (time e<cutoff)) events =
      events.filter fun e => decide (cutoff≤time e) := by
  have hkeep : (fun e => !decide (time e<cutoff))=fun e => decide (cutoff≤time e) := by
    funext e
    rw [← decide_not]
    exact decide_eq_decide.mpr Int.not_lt
  rw [hkeep,dropUntil_eq_filter]
  apply h.imp
  intro e e' hle he
  rw [decide_eq_true_iff] at he ⊢
  exact Int.le_trans he hle

theorem pruneTimes_eq_filter {events : List Int} (h : events.Pairwise (· ≤ ·)) (cutoff : Int) :
    pruneTimes events cutoff=events.filter fun t => decide (cutoff≤t) :=
  dropUntil_cutoff id h cutoff
theorem pruneTokenEvents_eq_filter {events : List TokenEvent}
    (h : events.Pairwise fun e e' => e.time≤e'.time) (cutoff : Int) :
    pruneTokenEvents events cutoff=events.filter fun e => decide (cutoff≤e.time) :=
  dropUntil_cutoff TokenEvent.time h cutoff

namespace MemoryCounter
variable {c : MemoryCounter} {now : Int}
@[simp] theorem prune_strategy : (c.prune now).strategy=c.strategy := by
  unfold prune
  split
  · split
    · rfl
    · rfl
  · rfl

@[simp] theorem prune_window : (c.prune now).window=c.window := by
  unfold prune
  split
  · split
    · rfl
    · rfl
  · rfl

@[simp] theorem addRequest_strategy : (c.addRequest now).strategy=c.strategy := by
  unfold addRequest
  split
  · rfl
  · rfl

@[simp] theorem addRequest_window : (c.addRequest now).window=c.window := by
  unfold addRequest
  split
  · rfl
  · rfl

@[simp] theorem addTokens_strategy (n : Int) : (c.addTokens now n).strategy=c.strategy := by
  unfold addTokens
  split
  · rfl
  · split
    · rfl
    · rfl

@[simp] theorem addTokens_window (n : Int) : (c.addTokens now n).window=c.window := by
  unfold addTokens
  split
  · rfl
  · split
    · rfl
    · rfl

@[simp] theorem addTokens_reserved (n : Int) : (c.addTokens now n).reserved=c.reserved := by
  unfold addTokens
  split
  · rfl
  · split
    · rfl
    · rfl

@[simp] theorem addTokens_fixedStart (n : Int) : (c.addTokens now n).fixedStart=c.fixedStart := by
  unfold addTokens
  split
  · rfl
  · split
    · rfl
    · rfl

@[simp] theorem settle_strategy (amount actual : Int) :
    (c.settle now amount actual).strategy=c.strategy := by
  rw [settle,addTokens_strategy]
  exact prune_strategy

@[simp] theorem settle_window (amount actual : Int) :
    (c.settle now amount actual).window=c.window := by
  rw [settle,addTokens_window]
  exact prune_window

structure Ordered (last : Int) (c : MemoryCounter) : Prop where
  requests : c.requests.Pairwise (· ≤ ·)
  requests_le : ∀ t∈c.requests, t≤last
  tokens : c.tokens.Pairwise fun e e' => e.time≤e'.time
  tokens_le : ∀ e∈c.tokens, e.time≤last

theorem ordered_fresh (slot : Slot) (last : Int) : slot.fresh.Ordered last where
  requests := List.Pairwise.nil
  requests_le _ h := by cases h
  tokens := List.Pairwise.nil
  tokens_le _ h := by cases h

namespace Ordered
theorem mono {last : Int} (h : c.Ordered last) (hle : last≤now) : c.Ordered now where
  requests := h.requests
  requests_le t ht := Int.le_trans (h.requests_le t ht) hle
  tokens := h.tokens
  tokens_le e he := Int.le_trans (h.tokens_le e he) hle

theorem prune {last : Int} (h : c.Ordered last) : (c.prune now).Ordered last := by
  unfold MemoryCounter.prune
  split
  · split
    · exact ⟨h.requests,h.requests_le,h.tokens,h.tokens_le⟩
    · exact h
  · exact {
      requests := h.requests.sublist (drop_sublist _ _)
      requests_le := fun t ht => h.requests_le t (mem_of_mem_drop ht)
      tokens := h.tokens.sublist (drop_sublist _ _)
      tokens_le := fun e he => h.tokens_le e (mem_of_mem_drop he) }

theorem addRequest (h : c.Ordered now) : (c.addRequest now).Ordered now := by
  unfold MemoryCounter.addRequest
  split
  · exact ⟨h.requests,h.requests_le,h.tokens,h.tokens_le⟩
  · refine ⟨?_,?_,h.tokens,h.tokens_le⟩
    · rw [pairwise_append]
      refine ⟨h.requests,pairwise_singleton _ _,?_⟩
      intro t ht t' ht'
      rw [mem_singleton] at ht'
      rw [ht']
      exact h.requests_le t ht
    · intro t ht
      rcases mem_append.mp ht with hold | hnew
      · exact h.requests_le t hold
      · exact Int.le_of_eq (mem_singleton.mp hnew)

theorem addTokens (h : c.Ordered now) (n : Int) : (c.addTokens now n).Ordered now := by
  unfold MemoryCounter.addTokens
  split
  · exact h
  · split
    · exact ⟨h.requests,h.requests_le,h.tokens,h.tokens_le⟩
    · refine ⟨h.requests,h.requests_le,?_,?_⟩
      · rw [pairwise_append]
        refine ⟨h.tokens,pairwise_singleton _ _,?_⟩
        intro e he e' he'
        rw [mem_singleton] at he'
        rw [he']
        exact h.tokens_le e he
      · intro e he
        rcases mem_append.mp he with hold | hnew
        · exact h.tokens_le e hold
        · rw [mem_singleton.mp hnew]

theorem settle (h : c.Ordered now) (amount actual : Int) :
    (c.settle now amount actual).Ordered now := by
  have hpruned : (c.prune now).Ordered now := h.prune
  apply addTokens
  exact ⟨hpruned.requests,hpruned.requests_le,hpruned.tokens,hpruned.tokens_le⟩

theorem reserve {last : Int} (h : c.Ordered last) (amount : Int) :
    (c.reserve amount).Ordered last :=
  ⟨h.requests,h.requests_le,h.tokens,h.tokens_le⟩
end Ordered
theorem prune_sliding (hstrategy : c.strategy≠.fixedWindow) (h : c.Ordered now) (at_ : Int) :
    c.prune at_={ c with
      requests := c.requests.filter fun t => decide (at_-c.window≤t)
      tokens := c.tokens.filter fun e => decide (at_-c.window≤e.time) } := by
  rw [prune,if_neg hstrategy]
  dsimp only
  rw [pruneTimes_eq_filter h.requests,pruneTokenEvents_eq_filter h.tokens]

theorem prune_prune (h : c.Ordered now) : (c.prune now).prune now=c.prune now := by
  by_cases hstrategy : c.strategy=.fixedWindow
  · unfold prune
    rw [if_pos hstrategy]
    by_cases hdue : c.Due now
    · -- what a rollover has reset stays as it is when it is reset again
      rw [if_pos hdue,if_pos hstrategy]
      split
      · rfl
      · rfl
    · rw [if_neg hdue,if_pos hstrategy,if_neg hdue]
  · have hagain : (c.prune now).strategy≠.fixedWindow := by rwa [prune_strategy]
    rw [prune_sliding hagain h.prune,prune_sliding hstrategy h]
    simp only [filter_filter,Bool.and_self]

theorem unreserve_reserved {amount : Int} (hnonneg : 0≤c.reserved-amount)
    (hsmall : c.reserved-amount<2^63) :
    (c.unreserve amount).reserved=c.reserved-amount := by
  have hfits : Fits64 (c.reserved-amount) := ⟨by omega,hsmall⟩
  rw [unreserve]
  rw [hfits.wrap64_eq,if_neg (by omega)]

theorem unreserve_of_zero {amount : Int} (hzero : c.reserved=0) (hnonneg : 0≤amount)
    (hsmall : amount<2^63) : (c.unreserve amount).reserved=0 := by
  have hfits : Fits64 (c.reserved-amount) := ⟨by omega,by omega⟩
  rw [unreserve]
  dsimp only
  rw [hfits.wrap64_eq]
  by_cases hneg : c.reserved-amount<0
  · rw [if_pos hneg]
  · rw [if_neg hneg]
    omega

theorem prune_of_due (hstrategy : c.strategy=.fixedWindow) (hdue : c.Due now) : c.prune now =
      { c with fixedStart := now, fixedRequests := 0, fixedTokens := 0, reserved := 0 } := by
  rw [prune,if_pos hstrategy,if_pos hdue]
theorem prune_of_current (hstrategy : c.strategy=.fixedWindow) (hcurrent : ¬c.Due now) :
    c.prune now=c := by
  rw [prune,if_pos hstrategy,if_neg hcurrent]
theorem settle_fixedStart (amount actual : Int) :
    (c.settle now amount actual).fixedStart=(c.prune now).fixedStart := by
  rw [settle,addTokens_fixedStart]
  rfl

theorem settle_fixedTokens (hstrategy : c.strategy=.fixedWindow) (amount actual : Int) :
    (c.settle now amount actual).fixedTokens =
      if 0<chargeOf amount actual then
        wrap64 ((c.prune now).fixedTokens+chargeOf amount actual)
      else (c.prune now).fixedTokens := by
  have hfixed : ((c.prune now).unreserve amount).strategy=.fixedWindow := by
    rw [unreserve]
    simpa using hstrategy
  rw [settle,addTokens]
  by_cases hpos : 0<chargeOf amount actual
  · rw [if_neg (by omega),if_pos hfixed,if_pos hpos]
    rfl
  · rw [if_pos (by omega),if_neg hpos]
    rfl

def tokenTotal (c : MemoryCounter) : Int := (c.tokens.map TokenEvent.tokens).sum

theorem foldl_wrap64 (events : List TokenEvent) (total : Int) :
    events.foldl (fun total e => wrap64 (total+e.tokens)) (wrap64 total) =
      wrap64 (total+(events.map TokenEvent.tokens).sum) := by
  induction events generalizing total with
  | nil => simp
  | cons e rest ih =>
    rw [foldl_cons,wrap64_add_wrap64_left,ih,map_cons,sum_cons,Int.add_assoc]

theorem tokenCount_sliding (hstrategy : c.strategy≠.fixedWindow) :
    c.tokenCount=wrap64 c.tokenTotal := by
  rw [tokenCount,if_neg hstrategy,tokenTotal,← Int.zero_add (List.sum _),← foldl_wrap64]
  rfl
theorem requestCount_sliding (hstrategy : c.strategy≠.fixedWindow) :
    c.requestCount=c.requests.length := by
  rw [requestCount,if_neg hstrategy]
end MemoryCounter
variable {c : MemoryCounter}
theorem requestFull_eq_false {r : RequestCounter} :
    requestFull c r=false ↔ c.requestCount<r.limit := by
  rw [requestFull,decide_eq_false_iff_not,Int.not_le]
theorem tokenFull_eq_false {r : TokenReservation} :
    tokenFull c r=false ↔ wrap64 (c.tokenCount+c.reserved+r.amount)≤r.limit := by
  rw [tokenFull,decide_eq_false_iff_not,Int.not_lt,wrap64_add_wrap64_left]
theorem wrap64_tokenTotal_add (hstrategy : c.strategy≠.fixedWindow) (x y : Int) :
    wrap64 (c.tokenCount+x+y)=wrap64 (c.tokenTotal+x+y) := by
  rw [MemoryCounter.tokenCount_sliding hstrategy,Int.add_assoc,wrap64_add_wrap64_left,
    ← Int.add_assoc]
end GudeAgents.RateLimit
