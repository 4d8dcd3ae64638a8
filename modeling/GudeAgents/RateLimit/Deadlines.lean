import GudeAgents.RateLimit.Admission
/-!
# Settling in time
-/
namespace GudeAgents.RateLimit
open Framework Logic AList MemoryStore LimitKind
def Call.id : Call → String
  | .reserve r => r.id
  | .commit id _ => id
  | .release id => id

variable {order : List String}
namespace MemoryStore
variable {s s' : MemoryStore} {now : Int} {call : Call} {id : String}
def Undisturbed (s : MemoryStore) (now : Int) (id : String) : Prop :=
  ∀ lease, s.leases.lookup id=some lease → lease.state=.pending ∧ now<lease.pendingUntil

theorem Move.lookup_eq {final : Bool} (hm : Move now call s final s') (hother : call.id≠id)
    (h : s.Undisturbed now id) : s'.leases.lookup id=s.leases.lookup id := by
  cases hm with
  | prune hreserve hvalid hslot => rfl
  | @expire id' lease hlease hpending hdue =>
    have hne : id≠id' := by
      rintro rfl
      exact Int.not_le.mpr (h lease hlease).2 hdue
    rw [close_leases,lookup_insert_ne hne]
  | @drop id' lease hlease hterminal hdue =>
    have hne : id≠id' := by
      rintro rfl
      exact hterminal (h lease hlease).1
    exact lookup_erase_ne hne
  | close hlease hpending hopen hcloses =>
    rw [close_leases,lookup_insert_ne]
    rintro rfl
    cases hcloses with
    | committed hcall | released hcall => exact hother (by rw [hcall]; rfl)
  | @grant r hreserve hvalid hnew hrequests htokens =>
    have hne : id≠r.id := by
      rintro rfl
      exact hother (by rw [hreserve]; rfl)
    rw [MemoryStore.grant]
    rw [lookup_insert_ne hne,addCounts_leases]

theorem after_lookup_eq {ctx : Option ContextError} (hs : s.Ordered now) (horder : s.Visits order)
    (hother : call.id≠id) (h : s.Undisturbed now id) :
    (s.after ctx now order call).leases.lookup id=s.leases.lookup id := by
  have htidies : ∀ u, Tidies now call s u → u.leases.lookup id=s.leases.lookup id := by
    intro u hm
    induction hm with
    | refl => rfl
    | tail _ hstep ih =>
      rw [hstep.lookup_eq hother _,ih]
      intro lease hlease
      exact h lease (ih ▸ hlease)
  obtain ⟨u,htidy,⟨hu,-⟩ | ⟨-,hlast⟩⟩ := after_performs horder hs
  · rw [hu]
    exact htidies u htidy
  · rw [hlast.lookup_eq hother _,htidies u htidy]
    intro lease hlease
    exact h lease (htidies u htidy ▸ hlease)

private theorem terminate_of_overdue (horder : s.Visits order) {lease : MemoryLease}
    (hlease : s.leases.lookup id=some lease) (hpending : lease.state=.pending)
    (hdue : lease.pendingUntil≤now) (requested : LeaseState) (actual : Int) :
    (s.terminate now order id requested actual).2≠none := by
  have hlookup : (s.cleanup now order).leases.lookup id=s.tidied now lease := by
    rw [cleanup_lookup horder,hlease]
    rfl
  unfold terminate
  dsimp only
  cases hclosed : s.tidied now lease with
  | none =>
    rw [hlookup,hclosed]
    exact Option.some_ne_none _
  | some closed =>
    have hterminal : closed.state≠.pending := by
      have hboth : lease.state=.pending ∧ lease.pendingUntil≤now := ⟨hpending,hdue⟩
      unfold tidied at hclosed
      rw [if_pos hboth] at hclosed
      obtain ⟨-,heq⟩ := Option.ite_none_left_eq_some.mp hclosed
      cases heq
      exact LeaseState.noConfusion
    rw [hlookup,hclosed]
    dsimp only
    rw [if_pos hterminal]
    exact Option.some_ne_none _
end MemoryStore
structure Situation where
  store : MemoryStore
  clock : Int

inductive Interferes (id : String) (w : Situation) : Situation → Prop where
  | call {ctx : Option ContextError} {now : Int} {order : List String} {call : Call}
      (clock : w.clock≤now) (visits : w.store.Visits order) (other : call.id≠id) :
      Interferes id w ⟨w.store.after ctx now order call,now⟩

abbrev Meantime (id : String) : Situation → Situation → Prop :=
  Relation.ReflTransGen (Interferes id)

/-- The answers a limiter may get. The lease identifier is the given one; contexts, slots and
pauses may turn out in any way. -/
inductive Answered (id : String) (w : Situation) :
    (op : LimiterOp) → op.Ans → Situation → Prop where
  | contextErr (answer : Option ContextError) : Answered id w .contextErr answer w
  | leaseID : Answered id w .leaseID (.ok id) w
  | noLeaseID (message : String) : Answered id w .leaseID (.error message) w
  | tryTake (key : String) (answer : Bool) : Answered id w (.tryTake key) answer w
  | take (key : String) (answer : Option ContextError) : Answered id w (.take key) answer w
  | free (key : String) : Answered id w (.free key) () w
  | storeReserve {r : Reservation} {ctx : Option ContextError} {now : Int} {order : List String}
      (clock : w.clock≤now) (visits : w.store.Visits order) :
      Answered id w (.storeReserve r) (w.store.reserve ctx now order r).2
        ⟨(w.store.reserve ctx now order r).1,now⟩
  | wait (answer : Option ContextError) : Answered id w .wait answer w
  | polls (n : Nat) : Answered id w .polls n w
  | stream (answer : Except String Int) : Answered id w .stream answer w

/-- The answer to an operation, after anything the other callers do. -/
def Situation.Answers (id : String) (op : LimiterEffects.Op) (w : Situation)
    (answer : LimiterEffects.Ans op) (w' : Situation) : Prop :=
  ∃ u, Meantime id w u ∧ Answered id u op answer w'

section meantime
variable {config : StoreConfig} {id : String} {w w' : Situation}
def Situation.Reached (config : StoreConfig) (w : Situation) : Prop :=
  MemoryStore.Run config (fun _ _ _ => True) w.clock w.store

theorem Situation.Reached.after (h : w.Reached config) (ctx : Option ContextError) {now : Int}
    (clock : w.clock≤now) (visits : w.store.Visits order) (call : Call) :
    Situation.Reached config ⟨w.store.after ctx now order call,now⟩ := by
  exact .call h clock visits trivial

theorem Situation.Reached.meantime (h : w.Reached config) (hm : Meantime id w w') :
    w'.Reached config := by
  induction hm with
  | refl => exact h
  | tail _ hstep ih =>
    cases hstep with
    | call clock visits other => exact ih.after _ clock visits _

private theorem meantime_clock (hm : Meantime id w w') : w.clock≤w'.clock := by
  induction hm with
  | refl => exact Int.le_refl _
  | tail _ hstep ih =>
    cases hstep with
    | call clock visits other => exact Int.le_trans ih clock

private theorem meantime_lookup (h : w.Reached config) (hm : Meantime id w w')
    (hopen : w.store.Undisturbed w'.clock id) :
    w'.store.leases.lookup id=w.store.leases.lookup id := by
  induction hm with
  | refl => rfl
  | tail hbefore hstep ih =>
    have hreached := h.meantime hbefore
    cases hstep with
    | call clock visits other =>
      have hsame := ih fun lease hlease =>
        ⟨(hopen lease hlease).1,Int.lt_of_le_of_lt clock (hopen lease hlease).2⟩
      rw [after_lookup_eq (hreached.ordered.mono clock) visits other _,hsame]
      intro lease hlease
      exact hopen lease (hsame ▸ hlease)

structure Situation.Unleased (config : StoreConfig) (id : String) (w : Situation) : Prop where
  reached : w.Reached config
  lookup : w.store.leases.lookup id=none

theorem Situation.Unleased.meantime (h : w.Unleased config id) (hm : Meantime id w w') :
    w'.Unleased config id where
  reached := h.reached.meantime hm
  lookup := by
    rw [meantime_lookup h.reached hm,h.lookup]
    intro lease hlease
    rw [h.lookup] at hlease
    cases hlease

structure Situation.Granted (config : StoreConfig) (r : Reservation) (w : Situation) : Prop where
  reached : w.Reached config
  valid : validateReservation r=none
  lookup : w.store.leases.lookup r.id=some ((new config).newLease w.clock r)
end meantime
namespace RateLimiter
variable {ρ α : Type} {config : StoreConfig} {id : String} {w : Situation} {once : Once}
abbrev Among (id : String) : Logic LimiterEffects Situation :=
  Logic.always (Situation.Answers id) fun _ _ => True

private theorem wp_call {op : LimiterOp} {Q : op.Ans → Once → Situation → Prop}
    {X : LimiterError → Once → Situation → Prop} (h : w.Unleased config id)
    (hq : ∀ u answer w', u.Unleased config id → Answered id u op answer w' → Q answer once w') :
    (Among id).wp (Limiting.call op) once w Q X := by
  refine ⟨trivial,?_⟩
  rintro answer w' ⟨u,hm,hanswer⟩
  exact hq u answer w' (h.meantime hm) hanswer

abbrev Yields (id : String) (m : Limiting α) (once : Once) (w : Situation)
    (Q : α → Situation → Prop) : Prop :=
  (Among id).wp m once w (fun value _ w' => Q value w') fun _ _ _ => True

theorem yields_release_throw (lease : Lease) (err : LimiterError) (Q : α → Situation → Prop) :
    Yields id (do lease.release; Routine.throw err) once w Q := by
  rw [Yields,wp_bind,Lease.release]
  cases lease.slot with
  | none => exact trivial
  | some key =>
    rw [wp_bind,wp_get]
    split
    · exact trivial
    · rw [wp_bind,wp_modify]
      exact ⟨trivial,fun _ _ _ => trivial⟩

section
variable (h : w.Unleased config id) (r : RateLimiter ρ)
include h r
private theorem yields_takeSlot (key : String) :
    Yields id (r.takeSlot key) once w fun _ w' => w'.Unleased config id := by
  rw [Yields,takeSlot,wp_bind]
  apply wp_call h
  rintro u answer _ hu ⟨⟩
  cases answer with
  | some cause => exact trivial
  | none =>
    cases r.overflowBehavior with
    | failFast =>
      rw [wp_bind]
      apply wp_call hu
      rintro u1 answer _ hu1 ⟨⟩
      cases answer with
      | true => exact hu1
      | false => exact trivial
    | block =>
      rw [wp_bind]
      apply wp_call hu
      rintro u1 answer _ hu1 ⟨⟩
      cases answer with
      | some cause => exact trivial
      | none =>
        rw [wp_bind]
        apply wp_call hu1
        rintro u2 answer _ hu2 ⟨⟩
        cases answer with
        | some cause =>
          rw [wp_bind]
          apply wp_call hu2
          intro u3 answer w' _ _
          exact trivial
        | none => exact hu2

private theorem yields_pollStore (slot : Option String) {reservation : Reservation}
    (hid : reservation.id=id) (n : Nat) :
    Yields id (r.pollStore ⟨id,slot⟩ reservation n) once w fun lease w' =>
      lease.id=id ∧ w'.Granted config reservation := by
  induction n generalizing w with
  | zero =>
    rw [Yields,pollStore,wp_bind]
    apply wp_call h
    rintro u answer _ hu ⟨⟩
  | succ n ih =>
    rw [Yields,pollStore,wp_bind]
    apply wp_call h
    intro u answer w' hu hanswer
    cases hanswer with
    | @storeReserve _ ctx now order clock visits =>
      have hnew : u.store.leases.lookup reservation.id=none := hid ▸ hu.lookup
      have hreached := hu.reached.after ctx clock visits (.reserve reservation)
      cases hresult : (u.store.reserve ctx now order reservation).2 with
      | error err => exact yields_release_throw _ _ _
      | ok admitted =>
        cases admitted with
        | true =>
          obtain ⟨-,-,hvalid,hlease⟩ := reserve_granted visits hnew hresult
          have hconfig : u.store.config=(new config).config :=
            hu.reached.chronicled.config_eq
          rw [newLease_congr hconfig] at hlease
          exact ⟨rfl,hreached,hvalid,hlease⟩
        | false =>
          have hnone : Situation.Unleased config id
              ⟨u.store.after ctx now order (.reserve reservation),now⟩ := by
            refine ⟨hreached,?_⟩
            have hleases := (reserve_rejected hresult).1
            show (u.store.reserve ctx now order reservation).1.leases.lookup id=none
            rw [hleases,cleanup_lookup visits,hu.lookup]
            rfl
          cases r.overflowBehavior with
          | failFast => exact yields_release_throw _ _ _
          | block =>
            rw [wp_bind]
            apply wp_call hnone
            rintro u1 answer _ hu1 ⟨⟩
            cases answer with
            | some cause => exact yields_release_throw _ _ _
            | none => exact ih hu1

private theorem yields_reserve (request : RateLimitRequest ρ) :
    Yields id (r.reserve request) once w fun lease w' =>
      lease.id=id ∧ w'.Granted config (r.reservation id request) := by
  rw [Yields,reserve,wp_bind]
  apply wp_call h
  rintro u answer _ hu ⟨⟩
  cases answer with
  | some cause => exact trivial
  | none =>
    rw [wp_bind]
    apply wp_call hu
    rintro u1 answer w1 hu1 hanswer
    cases hanswer with
    | noLeaseID message => exact trivial
    | leaseID =>
      rw [wp_bind]
      apply wp_call hu1
      rintro u2 rounds _ hu2 ⟨⟩
      split
      · rw [wp_bind]
        apply wp_mono (yields_takeSlot hu2 r request.key)
        · intro _ once' w' hw'
          exact yields_pollStore hw' r _ rfl _
        · intro _ _ _ _
          exact trivial
      · exact yields_pollStore hu2 r _ rfl _
end
def configuredWindow (limit : Option RateConfig) : Int :=
  (limit.map fun c => c.windowSeconds*1000000000).getD 0
def largestWindow (r : RateLimiter ρ) : Int :=
  (all.map fun kind => configuredWindow (r.limit kind)).foldr max 0

/-- A reading of the clock less than twice the largest window after an admission; any reading if
no window is configured. -/
def InTime (r : RateLimiter ρ) (admission now : Int) : Prop :=
  (∃ kind c, r.limit kind=some c) → now<admission+2*r.largestWindow

private theorem largestWindow_eq (r : RateLimiter ρ) : r.largestWindow =
    max (configuredWindow r.requestRateLimit) (max (configuredWindow r.tokenRateLimit)
      (max (configuredWindow r.globalRequestLimit)
        (max (configuredWindow r.globalTokenLimit) 0))) := rfl

private theorem configuredWindow_le (r : RateLimiter ρ) (kind : LimitKind) :
    configuredWindow (r.limit kind)≤r.largestWindow := by
  rw [largestWindow_eq]
  cases kind with
  | request => exact Int.le_max_left _ _
  | token =>
    show configuredWindow r.tokenRateLimit≤_
    omega
  | globalRequest =>
    show configuredWindow r.globalRequestLimit≤_
    omega
  | globalToken =>
    show configuredWindow r.globalTokenLimit≤_
    omega

private theorem foldl_window {κ : Type} (window : κ → Int) (ofKey ofGlobal : RateConfig → κ)
    {key global : Option RateConfig}
    (hkey : ∀ c, key=some c → window (ofKey c)=c.windowSeconds*1000000000)
    (hglobal : ∀ c, global=some c → window (ofGlobal c)=c.windowSeconds*1000000000) {w : Int}
    (hw : 0≤w) :
    ((key.map ofKey).toList++(global.map ofGlobal).toList).foldl
      (fun w c => if w<window c then window c else w) w =
        max w (max (configuredWindow key) (configuredWindow global)) := by
  cases key with
  | none =>
    cases global with
    | none =>
      show w=max w (max 0 0)
      omega
    | some c =>
      show (if w<window (ofGlobal c) then window (ofGlobal c) else w) =
        max w (max 0 (c.windowSeconds*1000000000))
      rw [hglobal c rfl]
      omega
  | some c =>
    cases global with
    | none =>
      show (if w<window (ofKey c) then window (ofKey c) else w) =
        max w (max (c.windowSeconds*1000000000) 0)
      rw [hkey c rfl]
      omega
    | some c' =>
      show (if (if w<window (ofKey c) then window (ofKey c) else w)<window (ofGlobal c') then
          window (ofGlobal c') else if w<window (ofKey c) then window (ofKey c) else w) =
        max w (max (c.windowSeconds*1000000000) (c'.windowSeconds*1000000000))
      rw [hkey c rfl,hglobal c' rfl]
      omega

private theorem reservationWindow_eq {r : RateLimiter ρ}
    (hexact : ∀ kind c, r.limit kind=some c → c.window=c.windowSeconds*1000000000)
    (request : RateLimitRequest ρ) :
    reservationWindow (r.reservation id request)=r.largestWindow := by
  unfold reservationWindow reservation
  rw [foldl_window RequestCounter.window _ _ (hexact .request) (hexact .globalRequest)
    (Int.le_refl 0),foldl_window TokenReservation.window _ _ (hexact .token) (hexact .globalToken)
    (Int.le_max_left _ _),largestWindow_eq]
  omega

section
variable (slots : Int) (m : Moment) (b : Backend) (lease : Lease)
include slots m b lease
private theorem eval_settled (err : Option StoreError) :
    ((settled lease err once).eval (Backend.answer slots m) b).1.1=.ok err := by
  have hrelease : ∀ answer : Option StoreError,
      (((do lease.release; pure answer) : Limiting (Option StoreError)) once |>.eval
        (Backend.answer slots m) b).1.1=.ok answer := by
    intro answer
    obtain ⟨id,slot⟩ := lease
    obtain ⟨done⟩ := once
    cases slot with
    | none => rfl
    | some key =>
      cases done with
      | false | true => rfl
  unfold settled
  cases err with
  | none => exact hrelease none
  | some err =>
    dsimp only
    split
    · exact hrelease (some err)
    · rfl

private theorem eval_commit (usage : Int) :
    ((commit lease usage once).eval (Backend.answer slots m) b).1.1 =
      .ok (b.store.commit none m.now m.order lease.id (max usage 0)).2 :=
  eval_settled slots m _ lease _
private theorem eval_release : ((release lease once).eval (Backend.answer slots m) b).1.1 =
      .ok (b.store.release none m.now m.order lease.id).2 :=
  eval_settled slots m _ lease _
end
/-- The first `Commit` or `Release` of the lease returns no error, as long as it comes in time. -/
def SettlesInTime (r : RateLimiter ρ) (w : Situation) (lease : Lease) (once : Once) : Prop :=
  ∀ w', Meantime lease.id w w' → ∀ (m : Moment) (b : Backend), b.store=w'.store →
    w'.clock ≤ m.now → w'.store.Visits m.order → r.InTime w.clock m.now →
      (∀ usage, ((commit lease usage once).eval (Backend.answer r.maxConcurrent m) b).1.1 =
        .ok none) ∧
      ((release lease once).eval (Backend.answer r.maxConcurrent m) b).1.1=.ok none

section settlement
variable {r : RateLimiter ρ} {reservation : Reservation} {slot : Option String}
private theorem settles_before (hgranted : w.Granted config reservation) (hid : reservation.id=id)
    (hdeadline : ∀ now, w.clock≤now → r.InTime w.clock now →
      now<w.clock+(new config).pendingTTL (reservationWindow reservation)) :
    r.SettlesInTime w ⟨id,slot⟩ once := by
  intro w' hm m b hb hclock hvisits htime
  subst hid
  have hopen := hdeadline m.now (Int.le_trans (meantime_clock hm) hclock) htime
  have hlease : w'.store.leases.lookup reservation.id =
      some ((new config).newLease w.clock reservation) := by
    rw [meantime_lookup hgranted.reached hm,hgranted.lookup]
    intro lease hlease
    rw [hgranted.lookup] at hlease
    cases hlease
    exact ⟨rfl,Int.lt_of_le_of_lt hclock hopen⟩
  have hterminate := terminate_of_open hvisits hlease rfl hopen
  constructor
  · intro usage
    rw [eval_commit,hb,commit_eq_terminate,hterminate]
  · rw [eval_release,hb,MemoryStore.release,hterminate]

theorem fails_at_deadline (hgranted : w.Granted config reservation) (hid : reservation.id=id)
    (hpositive : 0≤(new config).pendingTTL (reservationWindow reservation))
    (h : r.SettlesInTime w ⟨id,slot⟩ once) : ¬r.InTime w.clock
      (w.clock+(new config).pendingTTL (reservationWindow reservation)) := by
  intro htime
  subst hid
  have hreleased := (h w .refl ⟨"",_,w.store.leases.keys⟩ ⟨w.store,fun _ => 0⟩ rfl
    (by dsimp only; omega) (List.Perm.refl _) htime).2
  rw [eval_release,Except.ok.injEq] at hreleased
  exact terminate_of_overdue (List.Perm.refl _) hgranted.lookup rfl (Int.le_refl _) _ _ hreleased

private theorem pendingTTL_fits (window : Int) :
    0≤(new {}).pendingTTL window ∧ (new {}).pendingTTL window<2^63 := by
  have hfits := (wrap64_fits (2*window)).2
  show 0≤(if wrap64 (2*window)<0 then 0 else wrap64 (2*window)) ∧
    (if wrap64 (2*window)<0 then 0 else wrap64 (2*window))<2^63
  split
  · decide
  · exact ⟨Int.not_lt.mp ‹_›,hfits⟩

/-- On the default store every lease that `Reserve` returns can be settled for twice the largest
window exactly if a window is configured and its double fits into 64 bits. -/
theorem settles_in_time_iff {charEstimator : TokenEstimator ρ} {order : List LimitKind}
    {opts : List (RateLimiterOption ρ)} (h : newRateLimiter charEstimator order opts=.ok r)
    (horder : ∀ kind, kind∈order) {request : RateLimitRequest ρ} {w0 : Situation}
    (hstart : w0.Unleased {} id) {lease : Lease}
    (hreserve : (r.reserve request {}).Runs (Situation.Answers id) w0 (.done (.ok lease,once)) w) :
    r.SettlesInTime w lease once ↔ (∃ kind c, r.limit kind=some c) ∧ 2*r.largestWindow<2^63 := by
  obtain ⟨hid,hgranted⟩ : lease.id=id ∧ w.Granted {} (r.reservation id request) :=
    Logic.Safe.runs (yields_reserve hstart r request) hreserve
  have hdeadline := pendingTTL_fits (reservationWindow (r.reservation id request))
  cases hid
  constructor
  · intro hsettles
    have hlate := fails_at_deadline hgranted rfl hdeadline.1 hsettles
    have hwindow : ∃ kind c, r.limit kind=some c := by
      by_contra hnone
      exact hlate fun hsome => absurd hsome hnone
    refine ⟨hwindow,?_⟩
    by_contra hlarge
    apply hlate
    intro _
    omega
  · rintro ⟨hwindow,hsmall⟩
    have hexact : ∀ kind c, r.limit kind=some c → c.window=c.windowSeconds*1000000000 := by
      intro kind c hc
      have husable := (accepted h).1 kind (horder kind)
      have hle := r.configuredWindow_le kind
      rw [unusable,hc,decide_eq_false_iff_not] at husable
      rw [hc] at hle
      have hle' : c.windowSeconds*1000000000≤r.largestWindow := hle
      exact Fits64.wrap64_eq ⟨by omega,by omega⟩
    have hnonneg : 0≤r.largestWindow := by
      rw [largestWindow_eq]
      omega
    apply settles_before hgranted rfl
    intro now _ htime
    have hle : 2*r.largestWindow≤(new {}).pendingTTL r.largestWindow :=
      le_pendingTTL hnonneg hsmall
    have hlt := htime hwindow
    rw [reservationWindow_eq hexact]
    omega
end settlement
theorem settles_in_time_rpm :
    let r : RateLimiter Unit := { requestRateLimit := some ⟨3,60⟩ }
    let reservation := r.reservation "lease" ⟨"key",(),none⟩
    newRateLimiter (fun _ => .ok 0) all [.rpm 3]=.ok r ∧
      r.SettlesInTime ⟨((new {}).reserve none 5 [] reservation).1,5⟩ ⟨"lease",none⟩ {} := by
  intro r reservation
  have haccepted : newRateLimiter (fun _ => .ok 0) all [.rpm 3]=.ok r := rfl
  have hstart : Situation.Unleased {} "lease" ⟨new {},0⟩ :=
    ⟨MemoryStore.Run.start 0,rfl⟩
  have hanswer : Answered "lease" ⟨new {},0⟩ (.storeReserve reservation)
      ((new {}).reserve none 5 [] reservation).2
      ⟨((new {}).reserve none 5 [] reservation).1,5⟩ :=
    .storeReserve (by decide) (List.Perm.refl _)
  have hreserve : (r.reserve ⟨"key",(),none⟩ {}).Runs (Situation.Answers "lease")
      ⟨new {},0⟩ (.done (.ok ⟨"lease",none⟩,{}))
      ⟨((new {}).reserve none 5 [] reservation).1,5⟩ :=
    .call ⟨_,.refl,.contextErr none⟩ (.call ⟨_,.refl,.leaseID⟩
      (.call ⟨_,.refl,.polls 0⟩ (.call ⟨_,.refl,hanswer⟩ (.refl _ _))))
  refine ⟨haccepted,(settles_in_time_iff haccepted mem_all hstart hreserve).mpr ?_⟩
  exact ⟨⟨.request,_,rfl⟩,by decide⟩

theorem concurrency_lease_forgotten :
    let r : RateLimiter Unit := { maxConcurrent := 1, maxConcurrentSet := true }
    let m : Moment := ⟨"lease",5,[]⟩
    let reserved := (r.reserve ⟨"key",(),none⟩ {}).eval (Backend.answer r.maxConcurrent m)
      ⟨.new {},fun _ => 0⟩
    newRateLimiter (fun _ => .ok 0) all [.maxConcurrent 1]=.ok r ∧
      reserved.1.1=.ok ⟨"lease",some "key"⟩ ∧
      ((commit ⟨"lease",some "key"⟩ 7 reserved.1.2).eval
        (Backend.answer r.maxConcurrent ⟨"",5,["lease"]⟩) reserved.2).1.1 =
          .ok (some .leaseUnknown) := by
  intro r m reserved
  refine ⟨rfl,by decide +kernel,by decide +kernel⟩
end RateLimiter
end GudeAgents.RateLimit
