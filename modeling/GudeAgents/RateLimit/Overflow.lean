import GudeAgents.RateLimit.Admission
import GudeAgents.RateLimit.Fixed
/-!
# Admissions and machine integers

What a limiter reserves and what its store compares are sums in 64 bits, which wrap around.
-/
namespace GudeAgents.RateLimit.RateLimiter
open Framework List MemoryStore
variable {ρ : Type}
/-- The amount that `reservation` sums up, without a bound. -/
def cost (r : RateLimiter ρ) (request : RateLimitRequest ρ) : Int :=
  r.outputReservationFallback+r.estimated request.request+bounded request.maxTokens

/-- The tokens settled in the window of a key and the amounts of its pending leases, without a
bound. -/
def inUse (p : Policy) (s : MemoryStore) (key : String) (now : Int) : Int :=
  let start := match p.tokenStrategy with
    | .slidingWindow => now-p.tokenWindow key
    | .fixedWindow => (s.counter (p.tokenSlot key)).fixedStart
  tokensWithin start now (charges key s.journal)+s.pendingOn key

/-- A call of the limiter's store: a reservation whose cost and whose sums fit into 64 bits, or any
commit or release. With fixed windows it carries no pending lease across a rollover. -/
def ExactCall (r : RateLimiter ρ) (h : r.Representable) (s : MemoryStore) (now : Int)
    (call : Call) : Prop :=
  (∀ reservation, call=.reserve reservation →
    (∃ id request, reservation=r.reservation id request ∧ r.cost request<2^63) ∧
      ∀ c∈reservation.tokens, inUse (r.policy h) s c.key now+c.amount<2^63) ∧
  (r.windowStrategy=.fixedWindow → 0<now ∧ CarriesNothing (r.policy h) s now call)

section exact
variable {r : RateLimiter ρ} {h : r.Representable} {config : StoreConfig} {last now : Int}
  {s : MemoryStore} {order : List String} {id : String} {request : RateLimitRequest ρ}
theorem ExactCall.following {call : Call} (hcall : r.ExactCall h s now call) :
    FollowingCall (r.policy h) call := by
  cases call with
  | reserve reservation =>
    obtain ⟨⟨id,request,rfl,-⟩,-⟩ := hcall.1 reservation rfl
    exact follows_policy h id
  | commit _ _ | release _ => exact trivial

theorem pendingOn_le_inUse (p : Policy) (key : String) : s.pendingOn key ≤ inUse p s key now :=
  Int.le_add_of_nonneg_left tokensWithin_nonneg

theorem ExactCall.fits {call : Call} (hcall : r.ExactCall h s now call) (reservation : Reservation)
    (hreserve : call=.reserve reservation) :
    ∀ c∈reservation.tokens, s.pendingOn c.key+c.amount<2^63 := by
  intro c hc
  have hlt := (hcall.1 reservation hreserve).2 c hc
  have hle : s.pendingOn c.key ≤ inUse (r.policy h) s c.key now := pendingOn_le_inUse _ _
  omega

/-- What an admitted request reserves fits beside what is in use, whatever was settled before. -/
theorem inUse_le (hrun : MemoryStore.Run config (r.ExactCall h) last s) (hclock : last≤now)
    (horder : s.Visits order) (hcall : r.ExactCall h s now (.reserve (r.reservation id request)))
    (hnew : s.leases.lookup id=none)
    (hadmitted : (s.reserve none now order (r.reservation id request)).2=.ok true)
    {c : TokenReservation} (hc : c∈(r.reservation id request).tokens) :
    inUse (r.policy h) (s.reserve none now order (r.reservation id request)).1 c.key now ≤
      c.limit := by
  have hr : (r.policy h).Follows (r.reservation id request) := follows_policy h id
  obtain ⟨-,hid,hvalid,hlease⟩ := reserve_granted horder hnew hadmitted
  have hfits := (hcall.1 _ rfl).2
  have hpolicy : (r.policy h).tokenStrategy=r.windowStrategy := rfl
  unfold inUse at hfits ⊢
  rw [hpolicy] at hfits ⊢
  cases hstrategy : r.windowStrategy with
  | slidingWindow =>
    rw [hstrategy] at hfits
    have hrecorded : MemoryStore.Run config (RecordedCall (r.policy h)) last s :=
      hrun.mono fun _ _ _ hok => ⟨hok.following,hok.fits⟩
    have hkept := (hrecorded.kept hstrategy hstrategy).mono hclock
    refine (hkept.used_reserve horder hr hid hnew hvalid hadmitted hc).trans_le ?_
    apply ((hkept.reserve_iff horder hr hid hnew hvalid _).mp hadmitted).2 c hc
    intro c hc
    have hpos := (validateReservation_tokens hvalid c hc).2.2
    have hused := hkept.used_nonneg c.key
    exact ⟨by omega,hfits c hc⟩
  | fixedWindow =>
    rw [hstrategy] at hfits
    have hfixed : MemoryStore.Run config (FixedCall (r.policy h)) last s :=
      hrun.mono fun _ _ _ hok => ⟨(hok.2 hstrategy).1,hok.following,hok.fits,(hok.2 hstrategy).2⟩
    obtain ⟨hfollow,haccounted⟩ := hfixed.accounted hstrategy
    obtain ⟨hpast,hcarries⟩ := hcall.2 hstrategy
    have hperforms : Performs now _ s (s.after none now order (.reserve (r.reservation id request))) :=
      after_performs horder (hrun.ordered.mono hclock)
    rw [hr.tokens.limit c hc]
    exact hperforms.load_le hcall.following hpast hfollow hcarries rfl hnew hlease rfl hc (hfits c hc)
      ((haccounted c.key).mono hclock)

/-- In a run whose sums all fit into 64 bits, an admitted request reserves its cost, and the settled
tokens and the pending amounts, its own among them, stay within each limit. -/
theorem admitted_within_limits (hfallback : 0≤r.outputReservationFallback)
    (hrun : MemoryStore.Run config (r.ExactCall h) last s) (hclock : last≤now)
    (horder : s.Visits order) (hcall : r.ExactCall h s now (.reserve (r.reservation id request)))
    (hcost : r.cost request<2^63) (hnew : s.leases.lookup id=none)
    (hadmitted : (s.reserve none now order (r.reservation id request)).2=.ok true) :
    let s' := (s.reserve none now order (r.reservation id request)).1
    (∃ lease, s'.leases.lookup id=some lease ∧ lease.state=.pending ∧
      lease.tokens=(r.tokenLimits request).map fun x => r.tokenCounter x.1 (r.cost request) x.2) ∧
    ∀ x∈r.tokenLimits request, inUse (r.policy h) s' x.1 now≤x.2.count := by
  intro s'
  constructor
  · obtain ⟨-,-,-,hlease⟩ := reserve_granted horder hnew hadmitted
    refine ⟨_,hlease,rfl,?_⟩
    show (r.reservation id request).tokens=_
    rw [reservation_tokens,(estimate_eq hfallback hcost).2]
    rfl
  · intro x hx
    have hc : r.tokenCounter x.1 (r.estimate request) x.2∈(r.reservation id request).tokens := by
      rw [reservation_tokens]
      exact mem_map_of_mem hx
    have hle : inUse (r.policy h) s' (r.tokenCounter x.1 (r.estimate request) x.2).key now ≤
        (r.tokenCounter x.1 (r.estimate request) x.2).limit :=
      inUse_le hrun hclock horder hcall hnew hadmitted hc
    exact hle
end exact
theorem admitted_within_limits_first :
    let r : RateLimiter Unit := { tokenRateLimit := some ⟨10,60⟩ }
    let request : RateLimitRequest Unit := ⟨"key",(),some 7⟩
    let result := (new {}).reserve none 100 [] (r.reservation "lease" request)
    result.2=.ok true ∧ r.cost request=7 ∧ ∃ h : r.Representable,
      ∀ x∈r.tokenLimits request, inUse (r.policy h) result.1 x.1 100≤x.2.count := by
  intro r request result
  have h : r.Representable := by
    intro kind c hc
    cases kind with
    | token =>
      cases hc
      decide
    | request | globalRequest | globalToken => cases hc
  have hcall : r.ExactCall h (new {}) 100 (.reserve (r.reservation "lease" request)) := by
    refine ⟨?_,fun hfixed => by cases hfixed⟩
    intro reservation hreserve
    cases hreserve
    refine ⟨⟨"lease",request,rfl,by decide⟩,?_⟩
    intro c hc
    cases mem_singleton.mp hc
    exact (by decide : (0 : Int)+0+7<2^63)
  have hadmitted : result.2=.ok true := by decide +kernel
  exact ⟨hadmitted,by decide,h,(admitted_within_limits (by decide) (.start 100) (Int.le_refl _)
    (by decide) hcall (by decide) rfl hadmitted).2⟩

theorem overflow_admitted :
    let r : RateLimiter Unit :=
      { tokenRateLimit := some ⟨10,60⟩, outputReservationFallback := 2^63-1
        tokenEstimator := some fun _ => .ok (2^63-1) }
    let request : RateLimitRequest Unit := ⟨"key",(),some 2⟩
    newRateLimiter (fun _ => .ok (2^63-1)) LimitKind.all
        [.tpm 10,.outputReservationFallback (2^63-1)]=.ok r ∧
      r.cost request=2^64 ∧ r.estimate request=0 ∧
      ((new {}).reserve none 100 [] (r.reservation "lease" request)).2=.ok true := by
  intro r request
  exact ⟨rfl,by decide,by decide,by decide +kernel⟩
end GudeAgents.RateLimit.RateLimiter
