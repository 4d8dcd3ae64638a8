import GudeAgents.Framework.Runs
import GudeAgents.RateLimit.Decisions
import GudeAgents.RateLimit.Limiter
/-!
# Admissions of the limiter

A rate limiter on its in-memory store: which requests `Reserve` admits, compared with the cost
model of the documentation.
-/
namespace GudeAgents.RateLimit
open Framework List RateConfig LimitKind
structure Backend where
  store : MemoryStore
  occupied : String → Nat

/-- What the surroundings of a call fix: the fresh lease identifier, the reading of the clock and
the order of the store's map iteration. The context of the call is alive. -/
structure Moment where
  id : String
  now : Int
  order : List String

def Backend.setSlots (b : Backend) (key : String) (n : Nat) : Backend :=
  { b with occupied := Function.update b.occupied key n }

def Backend.answer (slots : Int) (m : Moment) : (op : LimiterOp) → Backend → op.Ans×Backend
  | .contextErr, b => (none,b)
  | .leaseID, b => (.ok m.id,b)
  | .tryTake key, b =>
    if (b.occupied key : Int)<slots then (true,b.setSlots key (b.occupied key+1))
    else (false,b)
  | .take key, b =>
    if (b.occupied key : Int)<slots then (none,b.setSlots key (b.occupied key+1))
    else (some .deadlineExceeded,b)
  | .free key, b => ((),b.setSlots key (b.occupied key-1))
  | .storeReserve r, b =>
    let (store,answer) := b.store.reserve none m.now m.order r
    (answer,{ b with store := store })
  | .storeCommit id actual, b =>
    let (store,answer) := b.store.commit none m.now m.order id actual
    (answer,{ b with store := store })
  | .storeRelease id, b =>
    let (store,answer) := b.store.release none m.now m.order id
    (answer,{ b with store := store })
  | .wait, b => (some .deadlineExceeded,b)
  | .polls, b => ((0 : Nat),b)
  | .forever, b => ((),b)
  | .stream, b => (.ok 0,b)

namespace RateLimiter
variable {ρ : Type}
def Admits (r : RateLimiter ρ) (m : Moment) (b : Backend) (request : RateLimitRequest ρ) : Prop :=
  ∃ lease, ((r.reserve request {}).eval (Backend.answer r.maxConcurrent m) b).1.1=.ok lease

section evaluation
variable {r : RateLimiter ρ} {m : Moment} {b : Backend} {request : RateLimitRequest ρ}
theorem eval_release_throw (lease : Lease) (err : LimiterError) (once : Once) :
    (((do lease.release; Routine.throw err) : Limiting Lease) once |>.eval
      (Backend.answer r.maxConcurrent m) b).1.1=.error err := by
  obtain ⟨id,slot⟩ := lease
  obtain ⟨done⟩ := once
  cases slot with
  | none => rfl
  | some key =>
    cases done with
    | false | true => rfl

theorem eval_storeReserve (reservation : Reservation)
    (next : Except StoreError Bool → Limiting Lease) (once : Once) :
    ((Limiting.storeReserve reservation >>= next) once).eval (Backend.answer r.maxConcurrent m) b =
      (next (b.store.reserve none m.now m.order reservation).2 once).eval
        (Backend.answer r.maxConcurrent m)
        { b with store := (b.store.reserve none m.now m.order reservation).1 } := rfl

section
variable (hfast : r.overflowBehavior=.failFast)
include hfast
theorem eval_pollStore (lease : Lease) (reservation : Reservation) (once : Once) :
    (∃ l, ((r.pollStore lease reservation 1 once).eval
      (Backend.answer r.maxConcurrent m) b).1.1=.ok l) ↔
        (b.store.reserve none m.now m.order reservation).2=.ok true := by
  rw [pollStore,eval_storeReserve]
  cases (b.store.reserve none m.now m.order reservation).2 with
  | error err =>
    rw [eval_release_throw]
    simp
  | ok admitted =>
    cases admitted with
    | true => exact ⟨fun _ => rfl,fun _ => ⟨lease,rfl⟩⟩
    | false =>
      rw [hfast]
      rw [eval_release_throw]
      simp

theorem eval_takeSlot (hfree : (b.occupied request.key : Int)<r.maxConcurrent)
    (next : Limiting Lease) :
    ((r.takeSlot request.key >>= fun _ => next) {}).eval (Backend.answer r.maxConcurrent m) b =
      (next {}).eval (Backend.answer r.maxConcurrent m)
        (b.setSlots request.key (b.occupied request.key+1)) := by
  unfold takeSlot
  rw [hfast]
  simp only [Bind.bind,Routine.bind,Limiting.contextErr,Limiting.tryTake,Limiting.call,
    Routine.perform,Program.bind,Program.eval,Backend.answer,if_pos hfree]
  rfl

theorem admits_iff (hfree : 0<r.maxConcurrent → (b.occupied request.key : Int)<r.maxConcurrent) :
    r.Admits m b request ↔
      (b.store.reserve none m.now m.order (r.reservation m.id request)).2=.ok true := by
  have hreserve : (r.reserve request {}).eval (Backend.answer r.maxConcurrent m) b =
      ((if 0<r.maxConcurrent then do
        r.takeSlot request.key
        r.pollStore ⟨m.id,some request.key⟩ (r.reservation m.id request) 1
      else r.pollStore ⟨m.id,none⟩ (r.reservation m.id request) 1 : Limiting Lease) {}).eval
        (Backend.answer r.maxConcurrent m) b := rfl
  unfold Admits
  rw [hreserve]
  by_cases hslots : 0<r.maxConcurrent
  · have hstore : b.store=(b.setSlots request.key (b.occupied request.key+1)).store := rfl
    rw [if_pos hslots,hstore,← eval_pollStore hfast ⟨m.id,some request.key⟩ _ {},
      eval_takeSlot hfast (hfree hslots)]
  · rw [if_neg hslots]
    exact eval_pollStore hfast ⟨m.id,none⟩ _ {}
end
end evaluation
/-- The limits are positive and the deadlines computed from them fit into 64 bits. -/
def Representable (r : RateLimiter ρ) : Prop :=
  ∀ kind c, r.limit kind=some c → 0<c.count ∧ c.count<2^63 ∧ 0<c.window ∧ 2*c.window<2^63
def requestLimits (r : RateLimiter ρ) (request : RateLimitRequest ρ) : List (String×RateConfig) :=
  (r.requestRateLimit.map fun c => (storeKey request.key,c)).toList ++
    (r.globalRequestLimit.map fun c => (storeGlobalKey,c)).toList
def tokenLimits (r : RateLimiter ρ) (request : RateLimitRequest ρ) : List (String×RateConfig) :=
  (r.tokenRateLimit.map fun c => (storeKey request.key,c)).toList ++
    (r.globalTokenLimit.map fun c => (storeGlobalKey,c)).toList

theorem reservation_requests (r : RateLimiter ρ) (id : String) (request : RateLimitRequest ρ) :
    (r.reservation id request).requests =
      (r.requestLimits request).map fun x => r.requestCounter x.1 x.2 := by
  unfold reservation requestLimits
  cases r.requestRateLimit <;> cases r.globalRequestLimit <;> rfl

theorem reservation_tokens (r : RateLimiter ρ) (id : String) (request : RateLimitRequest ρ) :
    (r.reservation id request).tokens =
      (r.tokenLimits request).map fun x => r.tokenCounter x.1 (r.estimate request) x.2 := by
  unfold reservation tokenLimits
  cases r.tokenRateLimit <;> cases r.globalTokenLimit <;> rfl

theorem storeKey_ne_global (key : String) : storeKey key≠storeGlobalKey := by
  intro h
  have hchars := congrArg String.toList h
  simp [storeKey,storeGlobalKey] at hchars

/-- A value of a limit, for the global counter or that of a key; one for a limit that is not set. -/
def setting (value : RateConfig → Int) (ofKey ofGlobal : Option RateConfig) (key : String) : Int :=
  ((if key=storeGlobalKey then ofGlobal else ofKey).map value).getD 1

variable {ofGlobal : Option RateConfig}
theorem setting_pos {value : RateConfig → Int} {ofKey : Option RateConfig}
    (hkey : ∀ c, ofKey=some c → 0<value c) (hglobal : ∀ c, ofGlobal=some c → 0<value c)
    (key : String) : 0<setting value ofKey ofGlobal key := by
  unfold setting
  split
  · cases ofGlobal with
    | none => exact Int.one_pos
    | some c => exact hglobal c rfl
  · cases ofKey with
    | none => exact Int.one_pos
    | some c => exact hkey c rfl

def policy (r : RateLimiter ρ) (h : r.Representable) : Policy where
  requestLimit := setting count r.requestRateLimit r.globalRequestLimit
  requestWindow := setting window r.requestRateLimit r.globalRequestLimit
  requestStrategy := r.windowStrategy
  tokenLimit := setting count r.tokenRateLimit r.globalTokenLimit
  tokenWindow := setting window r.tokenRateLimit r.globalTokenLimit
  tokenStrategy := r.windowStrategy
  requestLimit_pos := setting_pos (fun c hc => (h .request c hc).1)
    fun c hc => (h .globalRequest c hc).1
  requestWindow_pos := setting_pos (fun c hc => (h .request c hc).2.2.1)
    fun c hc => (h .globalRequest c hc).2.2.1
  tokenLimit_pos := setting_pos (fun c hc => (h .token c hc).1) fun c hc => (h .globalToken c hc).1
  tokenWindow_pos := setting_pos (fun c hc => (h .token c hc).2.2.1)
    fun c hc => (h .globalToken c hc).2.2.1

variable {x : String×RateConfig}
section policy
variable {r : RateLimiter ρ} {request : RateLimitRequest ρ}
theorem setting_eq (value : RateConfig → Int) {ofKey : Option RateConfig} {key : String}
    (hx : x∈(ofKey.map fun c => (storeKey key,c)).toList ++
      (ofGlobal.map fun c => (storeGlobalKey,c)).toList) :
    setting value ofKey ofGlobal x.1=value x.2 := by
  simp only [mem_append,Option.mem_toList,Option.map_eq_some_iff] at hx
  unfold setting
  rcases hx with ⟨c,hc,rfl⟩ | ⟨c,hc,rfl⟩
  · rw [if_neg (storeKey_ne_global key),hc]
    rfl
  · rw [if_pos rfl,hc]
    rfl

theorem nodup_keys (ofKey ofGlobal : Option RateConfig) (key : String) :
    (((ofKey.map fun c => (storeKey key,c)).toList ++
      (ofGlobal.map fun c => (storeGlobalKey,c)).toList).map Prod.fst).Nodup := by
  cases ofKey with
  | none => cases ofGlobal <;> simp
  | some c => cases ofGlobal <;> simp [storeKey_ne_global]

theorem follows_policy (h : r.Representable) (id : String) :
    (r.policy h).Follows (r.reservation id request) where
  requestSlot c hc := by
    rw [reservation_requests] at hc
    obtain ⟨x,hx,rfl⟩ := mem_map.mp hc
    exact congrArg (Slot.mk ("r:"++x.1) r.windowStrategy) (setting_eq window hx).symm
  requestLimit c hc := by
    rw [reservation_requests] at hc
    obtain ⟨x,hx,rfl⟩ := mem_map.mp hc
    exact (setting_eq count hx).symm
  distinct := by
    rw [reservation_requests,map_map]
    exact nodup_keys _ _ _
  tokens := {
    slot := fun c hc => by
      rw [reservation_tokens] at hc
      obtain ⟨x,hx,rfl⟩ := mem_map.mp hc
      exact congrArg (Slot.mk ("t:"++x.1) r.windowStrategy) (setting_eq window hx).symm
    limit := fun c hc => by
      rw [reservation_tokens] at hc
      obtain ⟨x,hx,rfl⟩ := mem_map.mp hc
      exact (setting_eq count hx).symm
    distinct := by
      rw [reservation_tokens,map_map]
      exact nodup_keys _ _ _ }
end policy
/-- The cost of a request by the documentation: the estimator's value, which is zero on an error
or without token reservation, and the request's `MaxTokens` or else the output fallback. -/
def documentedCost (r : RateLimiter ρ) (request : RateLimitRequest ρ) : Int :=
  let input :=
    if r.tokenReservationDisabled then 0
    else
      match r.tokenEstimator with
      | some estimator => (estimator request.request).toOption.getD 0
      | none => 0
  input+request.maxTokens.getD r.outputReservationFallback

def Documented (r : RateLimiter ρ) (s : MemoryStore) (now : Int) (request : RateLimitRequest ρ) :
    Prop :=
  (∀ x∈r.requestLimits request,
    (requestsWithin (now-x.2.window) now (admissions x.1 s.journal) : Int)<x.2.count) ∧
  ∀ x∈r.tokenLimits request,
    tokensWithin (now-x.2.window) now (charges x.1 s.journal)+s.pendingOn x.1 +
      r.documentedCost request≤x.2.count

instance (r : RateLimiter ρ) (s : MemoryStore) (now : Int) (request : RateLimitRequest ρ) :
    Decidable (r.Documented s now request) :=
  inferInstanceAs (Decidable ((∀ x∈_, _) ∧ ∀ x∈_, _))

/-- `Reserve` decides about the request as documented, in every store and at every time, as long
as the sums it forms do not overflow. -/
def DecidesAsDocumented (r : RateLimiter ρ) (h : r.Representable) (config : StoreConfig)
    (request : RateLimitRequest ρ) : Prop :=
  ∀ last b, MemoryStore.Run config (MemoryStore.RecordedCall (r.policy h)) last b.store →
    ∀ m : Moment, last ≤ m.now → b.store.Visits m.order → m.id≠"" → b.store.leases.lookup m.id=none →
      (0<r.maxConcurrent → (b.occupied request.key : Int)<r.maxConcurrent) →
      (∀ key, b.store.used (r.policy h) key m.now+r.estimate request<2^63) →
        (r.Admits m b request ↔ r.Documented b.store m.now request)

/-- The cases in which the amount that is reserved and the documented cost lead to the same
decisions: no token limit, equal amounts, a limit that neither of them fits, or limits that
nothing exceeds. -/
def CostsAgree (r : RateLimiter ρ) (request : RateLimitRequest ρ) : Prop :=
  r.tokenLimits request=[] ∨ r.estimate request=r.documentedCost request ∨
    (∃ x∈r.tokenLimits request, x.2.count < min (r.estimate request) (r.documentedCost request)) ∨
    r.documentedCost request<r.estimate request ∧ ∀ x∈r.tokenLimits request, x.2.count=2^63-1

section decision
variable {r : RateLimiter ρ} {h : r.Representable} {config : StoreConfig}
  {request : RateLimitRequest ρ}
theorem used_eq (hx : x∈r.tokenLimits request) (s : MemoryStore) (now : Int) :
    s.used (r.policy h) x.1 now =
      tokensWithin (now-x.2.window) now (charges x.1 s.journal)+s.pendingOn x.1 := by
  have hwindow : (r.policy h).tokenWindow x.1=x.2.window := setting_eq window hx
  rw [MemoryStore.used,hwindow]

theorem mem_limits (hx : x∈r.requestLimits request ∨ x∈r.tokenLimits request) :
    ∃ kind, r.limit kind=some x.2 := by
  simp only [requestLimits,tokenLimits,mem_append,Option.mem_toList,Option.map_eq_some_iff] at hx
  rcases hx with (⟨c,hc,rfl⟩ | ⟨c,hc,rfl⟩) | ⟨c,hc,rfl⟩ | ⟨c,hc,rfl⟩
  · exact ⟨.request,hc⟩
  · exact ⟨.globalRequest,hc⟩
  · exact ⟨.token,hc⟩
  · exact ⟨.globalToken,hc⟩

theorem valid_reservation (h : r.Representable) (hcost : 0≤r.estimate request) (id : String) :
    validateReservation (r.reservation id request)=none := by
  have hrequests : ¬(r.reservation id request).requests.any
      (fun c => decide (c.limit≤0 ∨ c.window≤0))=true := by
    rw [reservation_requests,any_map,any_eq_true]
    rintro ⟨x,hx,hbad⟩
    obtain ⟨kind,hkind⟩ := mem_limits (.inl hx)
    obtain ⟨hcount,-,hwindow,-⟩ := h kind x.2 hkind
    have hbad' : x.2.count≤0 ∨ x.2.window≤0 := of_decide_eq_true hbad
    omega
  have htokens : ¬(r.reservation id request).tokens.any
      (fun c => decide (c.limit≤0 ∨ c.window≤0 ∨ c.amount<0))=true := by
    rw [reservation_tokens,any_map,any_eq_true]
    rintro ⟨x,hx,hbad⟩
    obtain ⟨kind,hkind⟩ := mem_limits (.inr hx)
    obtain ⟨hcount,-,hwindow,-⟩ := h kind x.2 hkind
    have hbad' : x.2.count≤0 ∨ x.2.window≤0 ∨ r.estimate request<0 :=
      of_decide_eq_true hbad
    omega
  rw [validateReservation,if_neg hrequests,if_neg htokens]

theorem admits_iff_estimate (hsliding : r.windowStrategy=.slidingWindow)
    (hfast : r.overflowBehavior=.failFast) (hcost : 0≤r.estimate request) {last : Int}
    {b : Backend}
    (hrun : MemoryStore.Run config (MemoryStore.RecordedCall (r.policy h)) last b.store)
    {m : Moment} (hclock : last ≤ m.now) (hvisits : b.store.Visits m.order) (hid : m.id≠"")
    (hnew : b.store.leases.lookup m.id=none)
    (hfree : 0<r.maxConcurrent → (b.occupied request.key : Int)<r.maxConcurrent)
    (hfits : ∀ key, b.store.used (r.policy h) key m.now+r.estimate request<2^63) :
    r.Admits m b request ↔ (∀ x∈r.requestLimits request, (requestsWithin (m.now-x.2.window) m.now
        (admissions x.1 b.store.journal) : Int)<x.2.count) ∧
      ∀ x∈r.tokenLimits request,
        b.store.used (r.policy h) x.1 m.now+r.estimate request≤x.2.count := by
  have hkept := (hrun.kept hsliding hsliding).mono hclock
  rw [admits_iff hfast hfree,hkept.reserve_iff hvisits (follows_policy h m.id) hid hnew
    (valid_reservation h hcost m.id),reservation_requests,reservation_tokens]
  · simp only [forall_mem_map]
    rfl
  · intro c hc
    rw [reservation_tokens] at hc
    obtain ⟨x,hx,rfl⟩ := mem_map.mp hc
    have hlt := hfits x.1
    have hused := hkept.used_nonneg x.1
    constructor
    · show -2^63≤b.store.used (r.policy h) x.1 m.now+r.estimate request
      omega
    · exact hlt

theorem CostsAgree.decision (hagree : r.CostsAgree request) {used : String → Int}
    (hnonneg : ∀ key, 0≤used key) (hfits : ∀ key, used key+r.estimate request<2^63) :
    (∀ x∈r.tokenLimits request, used x.1+r.estimate request≤x.2.count) ↔
      ∀ x∈r.tokenLimits request, used x.1+r.documentedCost request≤x.2.count := by
  rcases hagree with hnone | heq | ⟨x,hx,hlt⟩ | ⟨hlt,hmax⟩
  · rw [hnone]
    simp
  · rw [heq]
  · have hpos := hnonneg x.1
    constructor
    · intro hroom
      have hle := hroom x hx
      omega
    · intro hroom
      have hle := hroom x hx
      omega
  · constructor
    · intro hroom x hx
      have hle := hroom x hx
      omega
    · intro _ x hx
      have hle := hfits x.1
      rw [hmax x hx]
      omega

theorem count_eq_of_key {y : String×RateConfig} (hx : x∈r.tokenLimits request)
    (hy : y∈r.tokenLimits request) (hkey : y.1=x.1) : y.2.count=x.2.count := by
  rw [← setting_eq count hx,← setting_eq count hy,hkey]

/-- A cost fits the token limits, with some amount in use on one of them and nothing on others. -/
def RoomBeside (r : RateLimiter ρ) (request : RateLimitRequest ρ) (x : String×RateConfig)
    (amount cost : Int) : Prop :=
  amount+cost≤x.2.count ∧ ∀ y∈r.tokenLimits request, y.1≠x.1 → cost≤y.2.count

theorem roomBeside_iff (hx : x∈r.tokenLimits request) {u : String → Int} {amount : Int}
    (hu : u x.1=amount) (hothers : ∀ key, key≠x.1 → u key=0) (cost : Int) :
    (∀ y∈r.tokenLimits request, u y.1+cost≤y.2.count) ↔ r.RoomBeside request x amount cost := by
  constructor
  · intro hall
    refine ⟨hu ▸ hall x hx,fun y hy hne => ?_⟩
    have hle := hall y hy
    rw [hothers y.1 hne] at hle
    omega
  · intro hroom y hy
    by_cases hkey : y.1=x.1
    · rw [hkey,hu,count_eq_of_key hx hy hkey]
      exact hroom.1
    · rw [hothers y.1 hkey,Int.zero_add]
      exact hroom.2 y hy hkey

section
variable (hdecides : r.DecidesAsDocumented h config request)
  (hsliding : r.windowStrategy=.slidingWindow) (hfast : r.overflowBehavior=.failFast)
  (hcost : 0≤r.estimate request)
include hdecides hsliding hfast hcost
theorem DecidesAsDocumented.decision (hx : x∈r.tokenLimits request) {amount : Int}
    (hamount : 0≤amount) (hfits : amount+r.estimate request<2^63) :
    r.RoomBeside request x amount (r.estimate request) ↔
      r.RoomBeside request x amount (r.documentedCost request) := by
  obtain ⟨kind,hkind⟩ := mem_limits (.inr hx)
  have hwindow : (r.policy h).tokenWindow x.1=x.2.window := setting_eq window hx
  have hrepresentable : 2*(r.policy h).tokenWindow x.1<2^63 := by
    rw [hwindow]
    exact (h kind x.2 hkind).2.2.2
  obtain ⟨s,hrun,hnew,hadmissions,hspent,hunspent⟩ :=
    MemoryStore.exists_spent hsliding hsliding config hrepresentable hamount
  have hroom : ∀ cost, (∀ y∈r.tokenLimits request,
      s.used (r.policy h) y.1 0+cost≤y.2.count) ↔ r.RoomBeside request x amount cost :=
    fun cost => roomBeside_iff hx hspent hunspent cost
  have hid : "next"≠"" := by decide
  have hfree : 0<r.maxConcurrent → ((0 : Nat) : Int)<r.maxConcurrent := id
  have hsums : ∀ key, s.used (r.policy h) key 0+r.estimate request<2^63 := by
    intro key
    by_cases hkey : key=x.1
    · rw [hkey,hspent]
      exact hfits
    · rw [hunspent key hkey]
      omega
  have hrequests : ∀ y∈r.requestLimits request,
      (requestsWithin (0-y.2.window) 0 (admissions y.1 s.journal) : Int)<y.2.count := by
    intro y hy
    obtain ⟨kind,hkind⟩ := mem_limits (.inl hy)
    rw [hadmissions]
    exact (h kind y.2 hkind).1
  have hdocumented := hdecides 0 ⟨s,fun _ => 0⟩ hrun ⟨"next",0,s.leases.keys⟩ (Int.le_refl 0)
    (List.Perm.refl _) hid hnew hfree hsums
  have hestimate := admits_iff_estimate (b := ⟨s,fun _ => 0⟩) hsliding hfast hcost hrun
    (m := ⟨"next",0,s.leases.keys⟩) (Int.le_refl 0)
    (List.Perm.refl _) hid hnew hfree hsums
  rw [hestimate,hroom] at hdocumented
  have hcosts : r.Documented s 0 request ↔ r.RoomBeside request x amount (r.documentedCost request) := by
    rw [← hroom,Documented]
    constructor
    · intro hboth y hy
      rw [used_eq hy]
      exact hboth.2 y hy
    · intro hall
      refine ⟨hrequests,fun y hy => ?_⟩
      rw [← used_eq hy]
      exact hall y hy
  rw [← hcosts,← hdocumented]
  exact ⟨fun hbeside => ⟨hrequests,hbeside⟩,fun hboth => hboth.2⟩

theorem DecidesAsDocumented.costsAgree (hcost' : r.estimate request<2^63) :
    r.CostsAgree request := by
  have hcount : ∀ x∈r.tokenLimits request, x.2.count<2^63 := by
    intro x hx
    obtain ⟨kind,hkind⟩ := mem_limits (.inr hx)
    exact (h kind x.2 hkind).2.1
  by_contra hdisagree
  simp only [CostsAgree,not_or,not_exists,not_and,not_forall,Int.not_lt] at hdisagree
  obtain ⟨hlimited,hne,hroom,hbounded⟩ := hdisagree
  rcases Int.lt_or_gt_of_ne hne with hlt | hgt
  · -- the reserved amount just fits, the documented cost does not
    obtain ⟨x,hx⟩ := exists_mem_of_ne_nil _ hlimited
    have hx' := hroom x hx
    have hx'' := hcount x hx
    have hamount : 0≤x.2.count-r.estimate request := by omega
    have hfits : x.2.count-r.estimate request+r.estimate request<2^63 := by omega
    have hiff := hdecides.decision hsliding hfast hcost hx hamount hfits
    have hestimate : r.RoomBeside request x (x.2.count-r.estimate request)
        (r.estimate request) := by
      refine ⟨by omega,fun y hy _ => ?_⟩
      have hy' := hroom y hy
      omega
    have hle := (hiff.mp hestimate).1
    omega
  · -- the documented cost fits, the reserved amount exceeds the limit
    obtain ⟨x,hx,hsmall⟩ := hbounded hgt
    have hx' := hroom x hx
    have hx'' := hcount x hx
    have hfits : max 0 (x.2.count+1-r.estimate request)+r.estimate request<2^63 := by
      omega
    have hiff := hdecides.decision hsliding hfast hcost hx (Int.le_max_left _ _) hfits
    have hdocumented : r.RoomBeside request x (max 0 (x.2.count+1-r.estimate request))
        (r.documentedCost request) := by
      refine ⟨by omega,fun y hy _ => ?_⟩
      have hy' := hroom y hy
      omega
    have hle := (hiff.mpr hdocumented).1
    omega
end
end decision
section accepted
variable {charEstimator : TokenEstimator ρ} {order : List LimitKind}
  {opts : List (RateLimiterOption ρ)} {r : RateLimiter ρ}
theorem accepted (h : newRateLimiter charEstimator order opts=.ok r) :
    (∀ kind∈order, r.unusable kind=false) ∧ 0≤r.outputReservationFallback := by
  unfold newRateLimiter at h
  dsimp only at h
  split at h
  · cases h
  · rename_i hnone
    rw [List.find?_eq_none] at hnone
    split at h
    · cases h
    · split at h
      · cases h
      · rename_i hfallback
        have husable : ∀ kind∈order,
            (opts.foldl (RateLimiterOption.set charEstimator) {}).unusable kind=false :=
          fun kind hkind => Bool.eq_false_iff.mpr (hnone kind hkind)
        split at h
        · cases h
        · split at h
          · cases h
            exact ⟨husable,Int.not_lt.mp hfallback⟩
          · cases h
            exact ⟨husable,Int.not_lt.mp hfallback⟩

theorem accepted_representable (h : newRateLimiter charEstimator order opts=.ok r)
    (horder : ∀ kind, kind∈order) (hfits : ∀ kind c, r.limit kind=some c → c.Fits) :
    r.Representable := by
  intro kind c hc
  have husable := (accepted h).1 kind (horder kind)
  rw [unusable,hc,decide_eq_false_iff_not] at husable
  obtain ⟨hcount,hwindow⟩ := hfits kind c hc
  have hexact : c.window=c.windowSeconds*1000000000 := Fits64.wrap64_eq ⟨by omega,by omega⟩
  omega

theorem estimated_nonneg (request : ρ) : 0≤r.estimated request := by
  unfold estimated
  split
  · split
    · split
      · split <;> omega
      · exact Int.le_refl 0
    · exact Int.le_refl 0
  · exact Int.le_refl 0

theorem bounded_nonneg (maxTokens : Option Int) : 0≤bounded maxTokens := by
  unfold bounded
  split
  · split <;> omega
  · exact Int.le_refl 0

theorem estimate_eq (hfallback : 0≤r.outputReservationFallback) {request : RateLimitRequest ρ}
    (hfits : r.outputReservationFallback+r.estimated request.request +
      bounded request.maxTokens<2^63) :
    0≤r.estimate request ∧ r.estimate request =
      r.outputReservationFallback+r.estimated request.request+bounded request.maxTokens := by
  have hinput := estimated_nonneg (r := r) request.request
  have houtput := bounded_nonneg request.maxTokens
  unfold estimate
  rw [wrap64_add_wrap64_left,Fits64.wrap64_eq ⟨by omega,hfits⟩]
  exact ⟨by omega,rfl⟩

/-- `Reserve` decides as documented exactly if the amount that it reserves and the documented
cost lead to the same decisions. -/
theorem documented_admission (h : newRateLimiter charEstimator order opts=.ok r)
    (horder : ∀ kind, kind∈order) (hlimits : ∀ kind c, r.limit kind=some c → c.Fits)
    (hsliding : r.windowStrategy=.slidingWindow) (hfast : r.overflowBehavior=.failFast)
    (config : StoreConfig) (request : RateLimitRequest ρ)
    (hfits : r.outputReservationFallback+r.estimated request.request +
      bounded request.maxTokens<2^63) :
    r.DecidesAsDocumented (accepted_representable h horder hlimits) config request ↔
      r.CostsAgree request := by
  obtain ⟨hcost,heq⟩ := estimate_eq (accepted h).2 hfits
  constructor
  · intro hdecides
    exact hdecides.costsAgree hsliding hfast hcost (heq ▸ hfits)
  · intro hagree last b hrun m hclock hvisits hid hnew hfree hsums
    have hkept := (hrun.kept hsliding hsliding).mono hclock
    rw [admits_iff_estimate hsliding hfast hcost hrun hclock hvisits hid hnew hfree hsums,
      hagree.decision hkept.used_nonneg hsums,Documented]
    apply and_congr_right
    intro _
    apply forall₂_congr
    intro x hx
    rw [used_eq hx]
end accepted
theorem documented_admission_fallback :
    let r : RateLimiter Unit :=
      { tokenRateLimit := some ⟨10,60⟩, outputReservationFallback := 6
        tokenEstimator := some fun _ => .ok 2 }
    newRateLimiter (fun _ => .ok 2) all [.tpm 10,.outputReservationFallback 6]=.ok r ∧
      r.estimate ⟨"key",(),none⟩=8 ∧
      ∃ h : r.Representable, r.DecidesAsDocumented h {} ⟨"key",(),none⟩ := by
  intro r
  have haccepted : newRateLimiter (fun _ => .ok 2) all
      [.tpm 10,.outputReservationFallback 6]=.ok r := rfl
  have hlimits : ∀ kind c, r.limit kind=some c → c.Fits := by
    intro kind c hc
    cases kind with
    | token =>
      cases hc
      decide
    | request | globalRequest | globalToken => cases hc
  have hagree : r.CostsAgree ⟨"key",(),none⟩ := .inr (.inl (by decide))
  refine ⟨haccepted,by decide,accepted_representable haccepted mem_all hlimits,?_⟩
  exact (documented_admission haccepted mem_all hlimits rfl rfl {} ⟨"key",(),none⟩
    (by decide)).mpr hagree

/-- The fallback is reserved even if the request bounds its output: a request of the documented
cost 7 is refused under a limit of 10 tokens, in a store that has seen no request at all. -/
theorem fallback_reserved_twice :
    let r : RateLimiter Unit :=
      { tokenRateLimit := some ⟨10,60⟩, outputReservationFallback := 6
        tokenEstimator := some fun _ => .ok 2 }
    let request : RateLimitRequest Unit := ⟨"key",(),some 5⟩
    newRateLimiter (fun _ => .ok 2) all [.tpm 10,.outputReservationFallback 6]=.ok r ∧
      r.documentedCost request=7 ∧ r.estimate request=13 ∧
      r.Documented (.new {}) 0 request ∧
      ((r.reserve request {}).eval (Backend.answer r.maxConcurrent ⟨"lease",0,[]⟩)
        ⟨.new {},fun _ => 0⟩).1.1=.error .rateLimitExceeded := by
  intro r request
  refine ⟨rfl,by decide,by decide,by decide,?_⟩
  decide +kernel
end RateLimiter
end GudeAgents.RateLimit
