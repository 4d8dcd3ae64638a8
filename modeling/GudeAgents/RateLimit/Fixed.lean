import GudeAgents.RateLimit.Accounts
/-!
# Fixed windows and pending leases

The accounts of a key stay right as long as no pending lease is carried across a rollover.
-/
namespace GudeAgents.RateLimit
open Framework MemoryCounter List
variable {r : Reservation}
variable {tokens : List TokenReservation} {actual : Int}
namespace MemoryCounter
/-- A fixed counter of this window tallies the charges since the start of its window, in 64 bits. -/
structure Tallies (c : MemoryCounter) (window : Int) (charged : List TokenEvent) (last : Int) :
    Prop where
  strategy : c.strategy=.fixedWindow
  window_eq : c.window=window
  start_le : c.fixedStart≤last ∨ c.fixedStart=0
  times : ∀ e∈charged, e.time≤last ∧ e.time<c.fixedStart+window
  unset : c.fixedStart=0 → charged=[]
  total : c.fixedTokens=wrap64 (tokensWithin c.fixedStart last charged)

namespace Tallies
variable {c : MemoryCounter} {window : Int} {charged : List TokenEvent} {last now : Int}
private theorem tokensWithin_mono (h : c.Tallies window charged last) (hle : last≤now) :
    tokensWithin c.fixedStart now charged=tokensWithin c.fixedStart last charged := by
  rw [tokensWithin,tokensWithin,weightWithin_eq_of_le fun e he => (h.times e he).1,
    weightWithin_eq_of_le fun e he => Int.le_trans (h.times e he).1 hle]

theorem mono (h : c.Tallies window charged last) (hle : last≤now) :
    c.Tallies window charged now where
  strategy := h.strategy
  window_eq := h.window_eq
  start_le := by
    rcases h.start_le with hstart | hstart
    · exact Or.inl (Int.le_trans hstart hle)
    · exact Or.inr hstart
  times e he := ⟨Int.le_trans (h.times e he).1 hle,(h.times e he).2⟩
  unset := h.unset
  total := by rw [h.total,h.tokensWithin_mono hle]

section
variable (h : c.Tallies window charged now) (hclock : 0<now) (hwindow : 0<window)
include h hclock hwindow
private theorem not_due_of_start (hstart : c.fixedStart=now) : ¬c.Due now := by
  have heq := h.window_eq
  unfold Due
  omega

theorem prune (hpos : ∀ e∈charged, 0<e.tokens) :
    (c.prune now).Tallies window charged now ∧ ¬(c.prune now).Due now ∧
      tokensWithin (c.prune now).fixedStart now charged≤tokensWithin c.fixedStart now charged := by
  by_cases hdue : c.Due now
  · -- no charge was made in the window that starts now
    have hbefore : ∀ e∈charged, e.time<now := by
      intro e he
      rcases hdue with hzero | hover
      · rw [h.unset hzero] at he
        cases he
      · have htime := (h.times e he).2
        rw [h.window_eq] at hover
        omega
    have hnone : tokensWithin now now charged=0 := by
      apply weightWithin_eq_zero
      intro e he hin
      exact Int.not_le.mpr (hbefore e he) hin.1
    have hpruned : (c.prune now).Tallies window charged now := by
      rw [prune_of_due h.strategy hdue]
      refine ⟨h.strategy,h.window_eq,Or.inl (Int.le_refl now),?_,?_,?_⟩
      · intro e he
        have htime := hbefore e he
        show e.time≤now ∧ e.time<now+window
        omega
      · intro hzero
        exact absurd hzero (Int.ne_of_gt hclock)
      · rw [hnone]
        rfl
    have hstart : (c.prune now).fixedStart=now := by rw [prune_of_due h.strategy hdue]
    refine ⟨hpruned,hpruned.not_due_of_start hclock hwindow hstart,?_⟩
    rw [hstart,hnone]
    exact weightWithin_nonneg fun e he => Int.le_of_lt (hpos e he)
  · rw [prune_of_current h.strategy hdue]
    exact ⟨h,hdue,Int.le_refl _⟩

theorem settle (hpos : ∀ e∈charged, 0<e.tokens) (amount actual : Int) :
    let charged' := charged ++
      ([⟨now,chargeOf amount actual⟩] : List TokenEvent).filter fun e => 0<e.tokens
    (c.settle now amount actual).Tallies window charged' now ∧
      tokensWithin (c.settle now amount actual).fixedStart now charged' ≤
        tokensWithin c.fixedStart now charged+max (chargeOf amount actual) 0 := by
  intro charged'
  obtain ⟨hpruned,hcurrent,hless⟩ := h.prune hclock hwindow hpos
  have hstart : (c.prune now).fixedStart≠0 ∧ now<(c.prune now).fixedStart+window := by
    unfold Due at hcurrent
    rw [hpruned.window_eq] at hcurrent
    omega
  have hbegun : (c.prune now).fixedStart≤now := by
    rcases hpruned.start_le with hle | hzero
    · exact hle
    · exact absurd hzero hstart.1
  have hwithin : tokensWithin (c.prune now).fixedStart now charged' =
      tokensWithin (c.prune now).fixedStart now charged+max (chargeOf amount actual) 0 := by
    rw [tokensWithin,weightWithin_append]
    exact congrArg _ (tokensWithin_latest hbegun _)
  rw [settle_fixedStart,hwithin]
  refine ⟨⟨?_,?_,?_,?_,?_,?_⟩,Int.add_le_add_right hless _⟩
  · rw [settle_strategy]
    exact h.strategy
  · rw [settle_window]
    exact h.window_eq
  · rw [settle_fixedStart]
    exact Or.inl hbegun
  · intro e he
    rw [settle_fixedStart]
    rcases mem_append.mp he with hold | hnew
    · exact hpruned.times e hold
    · rw [mem_singleton.mp (mem_of_mem_filter hnew)]
      exact ⟨Int.le_refl now,hstart.2⟩
  · rw [settle_fixedStart]
    intro hzero
    exact absurd hzero hstart.1
  · rw [settle_fixedTokens h.strategy,settle_fixedStart,hwithin,hpruned.total]
    split
    · rename_i hcharge
      rw [wrap64_add_wrap64_left,Int.max_eq_left (Int.le_of_lt hcharge)]
    · rename_i hcharge
      rw [Int.max_eq_right (Int.not_lt.mp hcharge),Int.add_zero]
end
end Tallies
end MemoryCounter
namespace MemoryStore
/-- The call at `now` looks at the counter of a key, for a reservation whose ID is not known, or for
a lease it ends. -/
def Touches (s : MemoryStore) (now : Int) (call : Call) (key : String) : Prop :=
  (∃ r, call=.reserve r ∧ r.id≠"" ∧ validateReservation r=none ∧
      (s.leases.lookup r.id).bind (s.tidied now)=none ∧ key∈r.tokens.map TokenReservation.key) ∨
    ∃ id lease, s.leases.lookup id=some lease ∧ lease.state=.pending ∧
      Ends now call id lease ∧ key∈lease.tokens.map TokenReservation.key

/-- Where the call looks at a counter whose window is over, it ends every lease that is pending
there. -/
def CarriesNothing (p : Policy) (s : MemoryStore) (now : Int) (call : Call) : Prop :=
  ∀ key, (s.counter (p.tokenSlot key)).Due now → s.Touches now call key → ∀ id lease,
    s.leases.lookup id=some lease → ¬Ends now call id lease → lease.pendingOn key=0

def Tallied (p : Policy) (key : String) (last : Int) (s : MemoryStore) : Prop :=
  (s.counter (p.tokenSlot key)).Tallies (p.tokenWindow key) (charges key s.journal) last

/-- The tokens settled in the current window of a key and the amounts of its pending leases. -/
def load (p : Policy) (s : MemoryStore) (key : String) (now : Int) : Int :=
  tokensWithin (s.counter (p.tokenSlot key)).fixedStart now (charges key s.journal) +
    s.pendingOn key

/-- The counter of a key in the middle of a call that began with `s0`: either its window is still
the old one and the pending amounts are reserved, or the window was rolled over and no
reservation is left. -/
structure Tracked (p : Policy) (key : String) (now : Int) (s0 s : MemoryStore) : Prop where
  tallies : Tallied p key now s
  window_before : (s0.counter (p.tokenSlot key)).window=p.tokenWindow key
  small : s0.pendingOn key<2^63
  pending_le : s.pendingOn key ≤ s0.pendingOn key
  phase : ((s.counter (p.tokenSlot key)).fixedStart=(s0.counter (p.tokenSlot key)).fixedStart ∧
      (s.counter (p.tokenSlot key)).reserved=s.pendingOn key) ∨
    ((s0.counter (p.tokenSlot key)).Due now ∧ (s.counter (p.tokenSlot key)).fixedStart=now ∧
      (s.counter (p.tokenSlot key)).reserved=0)

section eases
variable {p : Policy} {key : String} {now : Int} {s0 s s' : MemoryStore}
theorem Tallied.eases (h : Tallied p key now s) (hclock : 0<now)
    (he : Eases p key now tokens actual s s') : Tallied p key now s' ∧
      ((∀ c∈tokens, chargeOf c.amount actual≤c.amount) → s'.load p key now ≤ s.load p key now) := by
  have hwindow := p.tokenWindow_pos key
  have hpos : ∀ e∈charges key s.journal, 0<e.tokens := fun e he => charges_pos e he
  unfold load Tallied
  cases he with
  | kept _ hcounter hcharges hpending =>
    rw [hcounter,hcharges,hpending]
    exact ⟨h,fun _ => Int.le_refl _⟩
  | pruned _ hcounter hcharges hpending =>
    obtain ⟨htallies,-,htokens⟩ := h.prune hclock hwindow hpos
    rw [hcounter,hcharges,hpending]
    exact ⟨htallies,fun _ => Int.add_le_add_right htokens _⟩
  | settled c hc _ hnonneg _ hcounter hcharges hpending =>
    obtain ⟨htallies,htokens⟩ := h.settle hclock hwindow hpos c.amount actual
    rw [hcounter,hcharges,hpending]
    refine ⟨htallies,fun hcharge => ?_⟩
    have hle := hcharge c hc
    omega

section
variable (h : Tracked p key now s0 s)
include h
theorem Tracked.due_before
    (hstart : (s.counter (p.tokenSlot key)).fixedStart=(s0.counter (p.tokenSlot key)).fixedStart)
    (hdue : (s.counter (p.tokenSlot key)).Due now) : (s0.counter (p.tokenSlot key)).Due now := by
  unfold MemoryCounter.Due at hdue ⊢
  rwa [hstart,h.tallies.window_eq,← h.window_before] at hdue

theorem Tracked.pruned (hclock : 0<now) {amount : Int} {f : MemoryCounter → MemoryCounter}
    (hstart : ∀ c, (f c).fixedStart=c.fixedStart) (htallies : Tallied p key now s')
    (hpending : s'.pendingOn key=s.pendingOn key-amount) (hnonneg : 0≤amount)
    (hexact : ∀ c : MemoryCounter, c.reserved=s.pendingOn key →
      (f c).reserved=s.pendingOn key-amount)
    (hzero : ∀ c : MemoryCounter, c.reserved=0 → (f c).reserved=0)
    (hcounter : s'.counter (p.tokenSlot key)=f ((s.counter (p.tokenSlot key)).prune now)) :
    Tracked p key now s0 s' := by
  have hle := h.pending_le
  refine ⟨htallies,h.window_before,h.small,by omega,?_⟩
  rw [hcounter,hstart,hpending]
  rcases h.phase with ⟨hold,hreserved⟩ | ⟨hdue,hnow,hreserved⟩
  · by_cases hover : (s.counter (p.tokenSlot key)).Due now
    · right
      rw [prune_of_due h.tallies.strategy hover]
      exact ⟨h.due_before hold hover,rfl,hzero _ rfl⟩
    · left
      rw [prune_of_current h.tallies.strategy hover]
      exact ⟨hold,hexact _ hreserved⟩
  · right
    have hcurrent := h.tallies.not_due_of_start hclock (p.tokenWindow_pos key) hnow
    rw [prune_of_current h.tallies.strategy hcurrent]
    exact ⟨hdue,hnow,hzero _ hreserved⟩

theorem Tracked.eases (hclock : 0<now) (he : Eases p key now tokens actual s s') :
    Tracked p key now s0 s' := by
  have htallies := (h.tallies.eases hclock he).1
  cases he with
  | kept _ hcounter _ hpending =>
    refine ⟨htallies,h.window_before,h.small,hpending ▸ h.pending_le,?_⟩
    rw [hcounter,hpending]
    exact h.phase
  | pruned _ hcounter _ hpending =>
    rw [← Int.sub_zero (s.pendingOn key)] at hpending
    refine h.pruned hclock (f := id) (fun _ => rfl) htallies hpending (Int.le_refl 0) ?_
      (fun _ hx => hx) hcounter
    intro x hx
    rw [Int.sub_zero]
    exact hx
  | settled c _ _ hpos hle hcounter _ hpending =>
    have hsmall := h.small
    have hless := h.pending_le
    refine h.pruned hclock (f := fun x => (x.unreserve c.amount).addTokens now
      (chargeOf c.amount actual)) ?_ htallies hpending hpos ?_ ?_ hcounter
    · intro x
      rw [addTokens_fixedStart]
      rfl
    · intro x hx
      rw [addTokens_reserved,unreserve_reserved,hx]
      · omega
      · omega
    · intro x hx
      rw [addTokens_reserved,unreserve_of_zero hx hpos (by omega)]
end
end eases
/-- The reserved amount of a key is what is pending. -/
structure Accounted (p : Policy) (key : String) (last : Int) (s : MemoryStore) : Prop where
  tallies : Tallied p key last s
  small : s.pendingOn key<2^63
  reserved : (s.counter (p.tokenSlot key)).reserved=s.pendingOn key

section calls
variable {p : Policy} {key : String} {last now : Int} {s0 s s' : MemoryStore} {call : Call}
theorem Accounted.mono (h : Accounted p key last s) (hle : last≤now) : Accounted p key now s where
  tallies := h.tallies.mono hle
  small := h.small
  reserved := h.reserved

theorem Accounted.load_mono (h : Accounted p key last s) (hle : last≤now) :
    s.load p key now=s.load p key last := by
  rw [load,load,h.tallies.tokensWithin_mono hle]

theorem Tidies.tracked (hcall : FollowingCall p call) (hclock : 0<now)
    (hfollow : s0.LeasesFollow p) (hm : Tidies now call s0 s) (h : Accounted p key now s0) :
    Tracked p key now s0 s ∧ s.load p key now ≤ s0.load p key now := by
  induction hm with
  | refl =>
    exact ⟨⟨h.tallies,h.tallies.window_eq,h.small,Int.le_refl _,Or.inl ⟨rfl,h.reserved⟩⟩,Int.le_refl _⟩
  | tail hm hstep ih =>
    obtain ⟨tokens,heases⟩ := hstep.eases key hcall (Tidies.leasesFollow hcall hm hfollow)
    refine ⟨ih.1.eases hclock heases,Int.le_trans ?_ ih.2⟩
    exact (ih.1.tallies.eases hclock heases).2 fun c _ => Int.le_refl _

/-- Settling a lease that the call ends changes only counters that the call looks at. -/
theorem LeasesFollow.close_touches (hfollow : s.LeasesFollow p) {id : String} {lease : MemoryLease}
    (hlease : s.leases.lookup id=some lease) (hbefore : s0.leases.lookup id=some lease)
    (hpending : lease.state=.pending) (hends : Ends now call id lease) (state : LeaseState)
    (actual : Int) : (s.close now id lease state actual).counter (p.tokenSlot key) =
      s.counter (p.tokenSlot key) ∨ s0.Touches now call key := by
  by_cases hkey : key∈lease.tokens.map TokenReservation.key
  · exact .inr (.inr ⟨id,lease,hbefore,hpending,hends,hkey⟩)
  · exact .inl (updateTokens_tokenSlot_of_notMem (hfollow id lease hlease).1 hkey)

/-- Ending overdue leases one by one changes nothing about which lease of an ID is kept. -/
theorem Tidies.tidied_eq (hm : Tidies now call s0 s) (id : String) :
    (s.leases.lookup id).bind (s.tidied now)=(s0.leases.lookup id).bind (s0.tidied now) := by
  induction hm with
  | refl => rfl
  | tail hm hstep ih =>
    rw [← ih]
    cases hstep with
    | prune hreserve hvalid hslot => rfl
    | @expire other lease hlease hpending hdue =>
      rw [tidied_congr (close_config _ _),close_leases]
      by_cases hid : id=other
      · subst hid
        rw [AList.lookup_insert,hlease]
        simp [tidied,MemoryLease.closed,hpending,hdue]
      · rw [AList.lookup_insert_ne hid]
    | @drop other lease hlease hterminal hdue =>
      by_cases hid : id=other
      · subst hid
        rw [hlease]
        simp [MemoryStore.drop,tidied,hterminal,hdue]
      · rw [MemoryStore.drop,AList.lookup_erase_ne hid]
        rfl

theorem Tidies.touches (hcall : FollowingCall p call) (hfollow : s0.LeasesFollow p)
    (hm : Tidies now call s0 s) :
    s.counter (p.tokenSlot key)=s0.counter (p.tokenSlot key) ∨ s0.Touches now call key := by
  induction hm with
  | refl => exact .inl rfl
  | tail hm hstep ih =>
    refine ih.elim (fun heq => ?_) .inr
    rw [← heq]
    cases hstep with
    | @prune r slot hreserve hvalid hslot hid hnew =>
      by_cases hname : slot.name=(p.tokenSlot key).name
      · rcases mem_append.mp hslot with hmem | hmem
        · obtain ⟨c,-,rfl⟩ := mem_map.mp hmem
          exact absurd hname (request_name_ne_token _ _)
        · obtain ⟨c,hc,rfl⟩ := mem_map.mp hmem
          have hkey : c.key=key := Policy.tokenSlot_name_inj (p := p) hname
          have hgone := Tidies.tidied_eq hm r.id
          rw [hnew] at hgone
          exact .inr (.inl ⟨r,hreserve,hid,hvalid,hgone.symm,hkey ▸ mem_map_of_mem hc⟩)
      · exact .inl (counter_update_of_ne hname)
    | expire hlease hpending hdue =>
      exact LeasesFollow.close_touches (Tidies.leasesFollow hcall hm hfollow) hlease
        (Tidies.pending_before hm hlease hpending) hpending (.inl hdue) _ _
    | drop hlease hterminal hdue => exact .inl rfl

theorem CarriesNothing.pendingOn_eq_zero (h : CarriesNothing p s0 now call)
    (hdue : (s0.counter (p.tokenSlot key)).Due now) (htouches : s0.Touches now call key)
    (hkept : ∀ id lease, s.leases.lookup id=some lease → lease.state=.pending →
      s0.leases.lookup id=some lease ∧ ¬Ends now call id lease) : s.pendingOn key=0 := by
  apply FiniteMap.total_eq_zero
  intro id lease hlease
  by_cases hpending : lease.state=.pending
  · obtain ⟨hbefore,hopen⟩ := hkept id lease hlease hpending
    exact h key hdue htouches id lease hbefore hopen
  · exact if_neg hpending

theorem Tracked.accounted (h : Tracked p key now s0 s) (hclock : 0<now)
    (hzero : (s0.counter (p.tokenSlot key)).Due now →
      s.counter (p.tokenSlot key)≠s0.counter (p.tokenSlot key) → s.pendingOn key=0) :
    Accounted p key now s where
  tallies := h.tallies
  small := Int.lt_of_le_of_lt h.pending_le h.small
  reserved := by
    rcases h.phase with ⟨-,hreserved⟩ | ⟨hdue,hnow,hreserved⟩
    · exact hreserved
    · rw [hreserved,hzero hdue]
      intro heq
      exact h.tallies.not_due_of_start hclock (p.tokenWindow_pos key) hnow (heq ▸ hdue)

theorem Performs.leasesFollow (hcall : FollowingCall p call) (hfollow : s.LeasesFollow p)
    (h : Performs now call s s') : s'.LeasesFollow p := by
  obtain ⟨u,hm,⟨rfl,-⟩ | ⟨-,hmove⟩⟩ := h
  · exact hm.leasesFollow hcall hfollow
  · exact hmove.leasesFollow hcall (hm.leasesFollow hcall hfollow)

theorem Accounted.enters (h : Accounted p key now s) (hnonneg : 0 ≤ s.pendingOn key)
    (hamounts : ∀ c∈r.tokens, 0≤c.amount)
    (hfits : ∀ c∈r.tokens, c.key=key → s.pendingOn key+c.amount<2^63)
    (he : Enters p key r s s') : Accounted p key now s' := by
  cases he with
  | kept hcounter hcharges hafter =>
    refine ⟨?_,hafter ▸ h.small,?_⟩
    · rw [Tallied,hcounter,hcharges]
      exact h.tallies
    · rw [hcounter,hafter]
      exact h.reserved
  | reserved c hc hkey hcounter hcharges hafter =>
    have hpos := hamounts c hc
    have hsum : Fits64 (s.pendingOn key+c.amount) := ⟨by omega,hfits c hc hkey⟩
    refine ⟨?_,hafter ▸ hsum.2,?_⟩
    · rw [Tallied,hcounter,hcharges]
      exact ⟨h.tallies.strategy,h.tallies.window_eq,h.tallies.start_le,h.tallies.times,
        h.tallies.unset,h.tallies.total⟩
    · rw [hcounter,hafter,MemoryCounter.reserve,h.reserved]
      exact hsum.wrap64_eq

private theorem pendingOn_le_load : s.pendingOn key ≤ s.load p key now := by
  have hwithin : 0≤tokensWithin (s.counter (p.tokenSlot key)).fixedStart now
      (charges key s.journal) := tokensWithin_nonneg
  unfold load
  omega

theorem load_grant (hr : p.Follows r) (hnew : s.leases.lookup r.id=none) {c : TokenReservation}
    (hc : c∈r.tokens) :
    (s.grant now r).load p c.key now=s.load p c.key now+c.amount := by
  have hcounter : (s.grant now r).counter (p.tokenSlot c.key) =
      (s.counter (p.tokenSlot c.key)).reserve c.amount := addCounts_tokenSlot_of_mem hr hc
  rw [load,load,hcounter,charges_grant,pendingOn_grant hnew,amountOn_of_mem hr.tokens.distinct hc,
    ← Int.add_assoc]
  rfl

/-- The comparison at admission is one of the unbounded sums as long as these fit. -/
theorem Accounted.room (h : Accounted p key now s) (hnonneg : 0 ≤ s.pendingOn key)
    {c : TokenReservation} (hpos : 0≤c.amount) (hfits : s.load p key now+c.amount<2^63)
    (hroom : tokenFull (s.counter (p.tokenSlot key)) c=false) :
    s.load p key now+c.amount≤c.limit := by
  have hle : s.pendingOn key ≤ s.load p key now := pendingOn_le_load
  have hsum : Fits64 (s.load p key now+c.amount) := ⟨by omega,hfits⟩
  rw [tokenFull_eq_false,h.reserved,tokenCount,if_pos h.tallies.strategy,
    h.tallies.total,Int.add_assoc,wrap64_add_wrap64_left,← Int.add_assoc] at hroom
  rw [← hsum.wrap64_eq]
  exact hroom

section call
variable (hcall : FollowingCall p call) (hclock : 0<now) (hfollow : s.LeasesFollow p)
  (hcarries : CarriesNothing p s now call)
include hcall hclock hfollow hcarries
theorem Tidies.accounted {u : MemoryStore} (hm : Tidies now call s u)
    (hopen : u=s ∨ ∀ id lease, u.leases.lookup id=some lease → lease.state=.pending →
      ¬Ends now call id lease) (h : Accounted p key now s) : Accounted p key now u := by
  apply (hm.tracked hcall hclock hfollow h).1.accounted hclock
  intro hdue hne
  rcases hopen with rfl | hopen
  · exact absurd rfl hne
  · apply hcarries.pendingOn_eq_zero hdue ((hm.touches hcall hfollow).resolve_left hne)
    intro id lease hlease hpending
    exact ⟨hm.pending_before hlease hpending,hopen id lease hlease hpending⟩

theorem Tidies.accounted_reserve (hm : Tidies now call s s') (hreserve : call=.reserve r)
    (hcurrent : Current now s'.leases) (h : Accounted p key now s) : Accounted p key now s' := by
  apply hm.accounted hcall hclock hfollow hcarries (.inr ?_) h
  rintro id lease hlease hpending (hdue | hconcludes)
  · exact Int.not_le.mpr (hcurrent id lease hlease hpending) hdue
  · rw [hreserve] at hconcludes
    exact hconcludes

theorem Performs.accounted
    (hfits : ∀ r, call=.reserve r → ∀ c∈r.tokens, s.pendingOn c.key+c.amount<2^63)
    (hperforms : Performs now call s s') (h : Accounted p key now s) : Accounted p key now s' := by
  obtain ⟨u,hm,⟨rfl,hopen⟩ | ⟨hcurrent,hmove⟩⟩ := hperforms
  · exact hm.accounted hcall hclock hfollow hcarries hopen h
  have hfollowing := hm.leasesFollow hcall hfollow
  have htracked := (hm.tracked hcall hclock hfollow h).1
  cases hmove with
  | @close id lease state actual hlease hpending _ hcloses =>
    have hends : Ends now call id lease := .inr (hcloses.concludes_iff.mpr rfl)
    have heases := hfollowing.eases now key hlease hpending hcloses.ne_pending actual
    apply (htracked.eases hclock heases).accounted hclock
    intro hdue hne
    have htouches : s.Touches now call key := by
      rcases hm.touches hcall hfollow with heq | htouches
      · refine (hfollowing.close_touches hlease (hm.pending_before hlease hpending) hpending hends
          state actual).resolve_left ?_
        rwa [heq]
      · exact htouches
    apply hcarries.pendingOn_eq_zero hdue htouches
    intro other l hl hstays
    have hold := pending_before_close hcloses.ne_pending hl hstays
    refine ⟨hm.pending_before hold hstays,?_⟩
    rintro (hover | hconcludes)
    · exact Int.not_le.mpr (hcurrent other l hold hstays) hover
    · rw [← hcloses.concludes_iff.mp hconcludes,close_leases,AList.lookup_insert] at hl
      cases hl
      exact hcloses.ne_pending hstays
  | @grant r hreserve hvalid hnew _ htokens =>
    have haccounted := hm.accounted_reserve hcall hclock hfollow hcarries hreserve hcurrent h
    have hlt := hfits r hreserve
    subst hreserve
    refine haccounted.enters (hfollowing.nonneg key)
      (fun c hc => (validateReservation_tokens hvalid c hc).2.2) ?_ (grant_enters now key hcall hnew)
    rintro c hc rfl
    exact Int.lt_of_le_of_lt (Int.add_le_add_right htracked.pending_le _) (hlt c hc)

/-- A grant leaves what is in use within the limit, whatever was settled before. -/
theorem Tidies.load_grant_le {c : TokenReservation} (hm : Tidies now call s s')
    (hreserve : call=.reserve r) (hcurrent : Current now s'.leases)
    (hvalid : validateReservation r=none) (hnew : s'.leases.lookup r.id=none)
    (hc : c∈r.tokens) (hroom : tokenFull (s'.counter c.slot) c=false)
    (hfits : s.load p c.key now+c.amount<2^63) (h : Accounted p c.key now s) :
    (s'.grant now r).load p c.key now<2^63 ∧
      (s'.grant now r).load p c.key now≤p.tokenLimit c.key := by
  have hload := (hm.tracked hcall hclock hfollow h).2
  have hfollowing := hm.leasesFollow hcall hfollow
  have haccounted := hm.accounted_reserve hcall hclock hfollow hcarries hreserve hcurrent h
  subst hreserve
  rw [hcall.tokens.slot c hc] at hroom
  have hpos := (validateReservation_tokens hvalid c hc).2.2
  rw [load_grant hcall hnew hc,← hcall.tokens.limit c hc]
  exact ⟨by omega,haccounted.room (hfollowing.nonneg c.key) hpos (by omega) hroom⟩

theorem Performs.load_le {lease : MemoryLease} {c : TokenReservation} (hreserve : call=.reserve r)
    (hnew : s.leases.lookup r.id=none) (hlease : s'.leases.lookup r.id=some lease)
    (hpending : lease.state=.pending) (hc : c∈r.tokens)
    (hfits : s.load p c.key now+c.amount<2^63) (hperforms : Performs now call s s')
    (h : Accounted p c.key now s) : s'.load p c.key now≤p.tokenLimit c.key := by
  obtain ⟨u,hm,⟨rfl,-⟩ | ⟨hcurrent,hmove⟩⟩ := hperforms
  · have hbefore := hm.pending_before hlease hpending
    rw [hnew] at hbefore
    cases hbefore
  · cases hmove with
    | close _ _ _ hcloses =>
      cases hcloses with
      | committed hcommit | released hcommit => cases hreserve.symm.trans hcommit
    | grant hcalled hvalid hunknown _ htokens =>
      cases hreserve.symm.trans hcalled
      exact (hm.load_grant_le hcall hclock hfollow hcarries hreserve hcurrent hvalid hunknown hc
        (htokens c hc).1 hfits h).2
end call
end calls
/-- What holds of the tokens in use of a key while commits report at most what was reserved. -/
structure WithinLimit (p : Policy) (key : String) (last : Int) (s : MemoryStore) : Prop where
  small : s.load p key last<2^63
  limit : s.load p key last≤p.tokenLimit key

theorem Performs.withinLimit {p : Policy} {key : String} {now : Int} {s s' : MemoryStore}
    {call : Call} (hcall : FollowingCall p call) (hclock : 0<now) (hfollow : s.LeasesFollow p)
    (hcarries : CarriesNothing p s now call)
    (hfits : ∀ r, call=.reserve r → ∀ c∈r.tokens, s.load p c.key now+c.amount<2^63)
    (hbounded : ∀ id actual lease, call=.commit id actual → s.leases.lookup id=some lease →
      ∀ c∈lease.tokens, actual≤c.amount) (hperforms : Performs now call s s')
    (haccounted : Accounted p key now s) (h : WithinLimit p key now s) :
    WithinLimit p key now s' := by
  have hless : s'.load p key now ≤ s.load p key now → WithinLimit p key now s' := fun hle =>
    ⟨Int.lt_of_le_of_lt hle h.small,Int.le_trans hle h.limit⟩
  obtain ⟨u,hm,⟨rfl,-⟩ | ⟨hcurrent,hmove⟩⟩ := hperforms
  · exact hless (hm.tracked hcall hclock hfollow haccounted).2
  have hfollowing := hm.leasesFollow hcall hfollow
  obtain ⟨htracked,hload⟩ := hm.tracked hcall hclock hfollow haccounted
  cases hmove with
  | @close id lease state actual hlease hpending _ hcloses =>
    have heases := hfollowing.eases now key hlease hpending hcloses.ne_pending actual
    refine hless (Int.le_trans ((htracked.tallies.eases hclock heases).2 ?_) hload)
    exact hcloses.charge_le (fun _ n hcommit hid => hbounded _ n lease hcommit
      (hid ▸ hm.pending_before hlease hpending)) (hfollowing _ _ hlease).2
  | @grant r hreserve hvalid hnew _ htokens =>
    by_cases hkey : key∈r.tokens.map TokenReservation.key
    · obtain ⟨c,hc,rfl⟩ := mem_map.mp hkey
      obtain ⟨hsmall,hlimit⟩ := hm.load_grant_le hcall hclock hfollow hcarries hreserve hcurrent
        hvalid hnew hc (htokens c hc).1 (hfits r hreserve c hc) haccounted
      exact ⟨hsmall,hlimit⟩
    · subst hreserve
      apply hless
      rw [load,charges_grant,pendingOn_grant hnew,amountOn_of_notMem hkey,Int.add_zero]
      rw [show (u.grant now r).counter (p.tokenSlot key)=u.counter (p.tokenSlot key) from
        addCounts_tokenSlot_of_notMem hcall hkey]
      exact hload

/-- A call that follows the policy, whose reservation the reserved amount can hold, and that
carries no pending lease across a rollover. -/
def FixedCall (p : Policy) (s : MemoryStore) (now : Int) (call : Call) : Prop :=
  0<now ∧ FollowingCall p call ∧
    (∀ r, call=.reserve r → ∀ c∈r.tokens, s.pendingOn c.key+c.amount<2^63) ∧
    CarriesNothing p s now call

/-- A call of this kind that does not overflow the counter either, and whose report does not
exceed the reservation. -/
def BoundedFixedCall (p : Policy) (s : MemoryStore) (now : Int) (call : Call) : Prop :=
  FixedCall p s now call ∧ (∀ r, call=.reserve r → ∀ c∈r.tokens, s.load p c.key now+c.amount<2^63) ∧
    ∀ id actual lease, call=.commit id actual → s.leases.lookup id=some lease →
      ∀ c∈lease.tokens, actual≤c.amount

section runs
variable {p : Policy} {config : StoreConfig} {last : Int} {s : MemoryStore}
section
variable (hp : p.tokenStrategy=.fixedWindow)
include hp
private theorem accounted_new (key : String) (now : Int) : Accounted p key now (new config) where
  tallies := {
    strategy := hp
    window_eq := rfl
    start_le := Or.inr rfl
    times := fun e he => by cases he
    unset := fun _ => rfl
    total := rfl }
  small := by
    show (0 : Int)<2^63
    decide
  reserved := rfl

theorem Run.accounted (h : Run config (FixedCall p) last s) :
    s.LeasesFollow p ∧ ∀ key, Accounted p key last s := by
  induction h with
  | start now => exact ⟨leasesFollow_new p config,fun key => accounted_new hp key now⟩
  | @call last now s ctx order call before clock visits allowed ih =>
    obtain ⟨hclock,hcall,hfits,hcarries⟩ := allowed
    have hperforms : Performs now call s (s.after ctx now order call) :=
      after_performs visits (before.ordered.mono clock)
    refine ⟨hperforms.leasesFollow hcall ih.1,fun key => ?_⟩
    exact hperforms.accounted hcall hclock ih.1 hcarries hfits ((ih.2 key).mono clock)

theorem Run.withinLimit (h : Run config (BoundedFixedCall p) last s) (key : String) :
    WithinLimit p key last s := by
  induction h with
  | start now => exact ⟨by show (0 : Int)<2^63; decide,Int.le_of_lt (p.tokenLimit_pos key)⟩
  | @call last now s ctx order call before clock visits allowed ih =>
    obtain ⟨⟨hclock,hcall,-,hcarries⟩,hfits,hbounded⟩ := allowed
    have hfixed : Run config (FixedCall p) last s := before.mono fun _ _ _ hok => hok.1
    obtain ⟨hfollow,haccounted⟩ := hfixed.accounted hp
    have hload := (haccounted key).load_mono clock
    exact (after_performs visits (before.ordered.mono clock)).withinLimit hcall hclock hfollow
      hcarries hfits hbounded ((haccounted key).mono clock) ⟨hload ▸ ih.small,hload ▸ ih.limit⟩
end
end runs
theorem Accounted.fixedTokens_eq {p : Policy} {key : String} {last : Int} {s : MemoryStore}
    (h : Accounted p key last s) (hfollow : s.LeasesFollow p) (hsmall : s.load p key last<2^63) :
    (s.counter (p.tokenSlot key)).fixedTokens =
      tokensWithin (s.counter (p.tokenSlot key)).fixedStart last (charges key s.journal) := by
  have hwithin : 0≤tokensWithin (s.counter (p.tokenSlot key)).fixedStart last
      (charges key s.journal) := tokensWithin_nonneg
  have hnonneg := hfollow.nonneg key
  unfold load at hsmall
  rw [h.tallies.total,Fits64.wrap64_eq ⟨by omega,by omega⟩]

/-- Where no pending lease is carried across a rollover, the reserved amount is what is pending, and while
commits report no more than that, the use of the window stays within the limit. -/
theorem fixed_accounts (p : Policy) (config : StoreConfig) (hfixed : p.tokenStrategy=.fixedWindow) :
    (∀ last s, Run config (FixedCall p) last s → ∀ key,
      (s.counter (p.tokenSlot key)).reserved=s.pendingOn key) ∧
    ∀ last s, Run config (BoundedFixedCall p) last s → ∀ key,
      (s.counter (p.tokenSlot key)).fixedTokens =
        tokensWithin (s.counter (p.tokenSlot key)).fixedStart last (charges key s.journal) ∧
      (s.counter (p.tokenSlot key)).fixedTokens+s.pendingOn key≤p.tokenLimit key := by
  constructor
  · intro last s hrun key
    exact ((hrun.accounted hfixed).2 key).reserved
  · intro last s hrun key
    have haccounted := ((hrun.mono fun _ _ _ hok => hok.1).accounted hfixed).2 key
    have hwithin := hrun.withinLimit hfixed key
    have hsettled := haccounted.fixedTokens_eq ((hrun.mono fun _ _ _ hok => hok.1).accounted hfixed).1
      hwithin.small
    refine ⟨hsettled,?_⟩
    rw [hsettled]
    exact hwithin.limit

theorem fixed_accounts_first_lease :
    let p := Policy.uniform .fixedWindow 10 100 60 (by decide) (by decide) (by decide)
    let s := (new {}).after none 100 [] (.reserve (p.reservation "first" "key" 80))
    Run {} (BoundedFixedCall p) 100 s ∧ s.pendingOn "key"=80 ∧
      (s.counter (p.tokenSlot "key")).reserved=s.pendingOn "key" ∧
      (s.counter (p.tokenSlot "key")).fixedTokens+s.pendingOn "key"≤100 := by
  intro p s
  have hcall : BoundedFixedCall p (new {}) 100 (.reserve (p.reservation "first" "key" 80)) := by
    refine ⟨⟨by decide,p.follows_reservation _ _ _,?_,?_⟩,?_,?_⟩
    · intro r hr c hc
      cases hr
      rw [mem_singleton.mp hc]
      decide +kernel
    · intro key _ _ id lease hlease
      cases hlease
    · intro r hr c hc
      cases hr
      rw [mem_singleton.mp hc]
      decide +kernel
    · intro id actual lease hcommit
      cases hcommit
  have hrun : Run {} (BoundedFixedCall p) 100 s :=
    .call (.start 100) (by decide) (by decide) hcall
  have haccounts := fixed_accounts p {} rfl
  refine ⟨hrun,by decide +kernel,?_,?_⟩
  · exact haccounts.1 100 s (hrun.mono fun _ _ _ hok => hok.1) "key"
  · exact (haccounts.2 100 s hrun "key").2

/-- A lease of eighty tokens is pending when the window rolls over, and the next reservation of
eighty is admitted although the limit is a hundred. -/
theorem fixed_rollover_forgets :
    let p := Policy.uniform .fixedWindow 10 100 60 (by decide) (by decide) (by decide)
    let first := (new {}).after none 100 [] (.reserve (p.reservation "first" "key" 80))
    let second := first.after none 170 ["first"] (.reserve (p.reservation "second" "key" 80))
    Run {} (fun _ now call => 0<now ∧ FollowingCall p call) 170 second ∧
      (second.counter (p.tokenSlot "key")).reserved=80 ∧ second.pendingOn "key"=160 ∧
      p.tokenLimit "key" <
        (second.counter (p.tokenSlot "key")).fixedTokens+second.pendingOn "key" := by
  intro p first second
  refine ⟨?_,by decide +kernel,by decide +kernel,by decide +kernel⟩
  exact .call (.call (.start 100) (by decide) (by decide)
    ⟨by decide,p.follows_reservation _ _ _⟩) (by decide) (by decide +kernel)
    ⟨by decide,p.follows_reservation _ _ _⟩
end MemoryStore
end GudeAgents.RateLimit
