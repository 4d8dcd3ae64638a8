import GudeAgents.RateLimit.Accounts
/-!
# Sliding windows hold

A sliding counter keeps the events of the journal from the cutoff of its last pruning on.
-/
namespace GudeAgents.RateLimit
open Framework List MemoryCounter
namespace MemoryCounter
variable {c : MemoryCounter} {now : Int}
theorem settle_tokens_sliding (hstrategy : c.strategy≠.fixedWindow) (h : c.Ordered now)
    (amount actual : Int) : (c.settle now amount actual).tokens =
      (c.tokens.filter fun e => now-c.window≤e.time) ++
        ([⟨now,chargeOf amount actual⟩] : List TokenEvent).filter fun e => 0<e.tokens := by
  have hpruned : ((c.prune now).unreserve amount).tokens =
      c.tokens.filter fun e => now-c.window≤e.time := by
    rw [unreserve,prune_sliding hstrategy h]
  have hsliding : ((c.prune now).unreserve amount).strategy≠.fixedWindow := by
    rw [unreserve]
    simpa using hstrategy
  rw [settle,addTokens]
  by_cases hn : chargeOf amount actual≤0
  · rw [if_pos hn,hpruned,filter_cons_of_neg (by simpa using hn),filter_nil,append_nil]
  · rw [if_neg hn,if_neg hsliding,filter_cons_of_pos (by simpa using hn),filter_nil]
    rw [hpruned]

theorem settle_reserved_sliding (hstrategy : c.strategy≠.fixedWindow) (amount actual : Int) :
    (c.settle now amount actual).reserved=(c.unreserve amount).reserved := by
  rw [settle,addTokens_reserved,unreserve,unreserve,prune,if_neg hstrategy]
end MemoryCounter
namespace MemoryStore
structure RequestsKept (p : Policy) (key : String) (last : Int) (s : MemoryStore) : Prop where
  strategy : (s.counter (p.requestSlot key)).strategy≠.fixedWindow
  window : (s.counter (p.requestSlot key)).window=p.requestWindow key
  le_last : ∀ t∈admissions key s.journal, t≤last
  kept : Keeps id (last-p.requestWindow key) (admissions key s.journal)
    (s.counter (p.requestSlot key)).requests
  limit : ∀ lo, (requestsWithin lo (lo+p.requestWindow key) (admissions key s.journal) : Int) ≤
    p.requestLimit key

namespace RequestsKept
variable {p : Policy} {key : String} {last now : Int} {s s' : MemoryStore}
theorem mono (h : RequestsKept p key last s) (hle : last≤now) : RequestsKept p key now s where
  strategy := h.strategy
  window := h.window
  le_last t ht := Int.le_trans (h.le_last t ht) hle
  kept := h.kept.mono (by omega)
  limit := h.limit

section
variable (h : RequestsKept p key now s)
include h
theorem unchanged (hcounter : s'.counter (p.requestSlot key)=s.counter (p.requestSlot key))
    (hjournal : admissions key s'.journal=admissions key s.journal) :
    RequestsKept p key now s' where
  strategy := hcounter ▸ h.strategy
  window := hcounter ▸ h.window
  le_last := hjournal ▸ h.le_last
  kept := by
    rw [hcounter,hjournal]
    exact h.kept
  limit := hjournal ▸ h.limit

theorem pruned (hordered : s.Ordered now)
    (hcounter : s'.counter (p.requestSlot key)=(s.counter (p.requestSlot key)).prune now)
    (hjournal : s'.journal=s.journal) : RequestsKept p key now s' where
  strategy := by
    rw [hcounter,prune_strategy]
    exact h.strategy
  window := by
    rw [hcounter,prune_window]
    exact h.window
  le_last := hjournal ▸ h.le_last
  kept := by
    have horder := hordered.counter (ordered_fresh (p.requestSlot key) now)
    rw [hcounter,hjournal,prune_sliding h.strategy horder,h.window]
    exact h.kept.prune
  limit := hjournal ▸ h.limit

theorem admitted (hordered : s.Ordered now)
    (hpruned : (s.counter (p.requestSlot key)).prune now=s.counter (p.requestSlot key))
    (hroom : ((s.counter (p.requestSlot key)).requests.length : Int)<p.requestLimit key)
    (hcounter : s'.counter (p.requestSlot key)=(s.counter (p.requestSlot key)).addRequest now)
    (hjournal : admissions key s'.journal=admissions key s.journal++[now]) :
    RequestsKept p key now s' := by
  have hwindow := p.requestWindow_pos key
  have horder := hordered.counter (ordered_fresh (p.requestSlot key) now)
  have hrequests : (s'.counter (p.requestSlot key)).requests =
      (s.counter (p.requestSlot key)).requests++[now] := by
    rw [hcounter,addRequest,if_neg h.strategy]
  -- the counter holds the admissions of the window that ends now
  have hlog : (s.counter (p.requestSlot key)).requests =
      (admissions key s.journal).filter fun t => now-p.requestWindow key≤t := by
    have hfilter : (s.counter (p.requestSlot key)).requests =
        (s.counter (p.requestSlot key)).requests.filter fun t => now-p.requestWindow key≤t := by
      conv_lhs => rw [← hpruned,prune_sliding h.strategy horder,h.window]
    rw [hfilter]
    exact h.kept.filter_eq (Int.le_refl _)
  refine ⟨?_,?_,?_,?_,?_⟩
  · rw [hcounter,addRequest_strategy]
    exact h.strategy
  · rw [hcounter,addRequest_window]
    exact h.window
  · intro t ht
    rw [hjournal] at ht
    rcases mem_append.mp ht with hold | hnew
    · exact h.le_last t hold
    · exact Int.le_of_eq (mem_singleton.mp hnew)
  · rw [hrequests,hjournal]
    apply h.kept.append
    intro t ht
    rw [mem_singleton.mp ht]
    show now-p.requestWindow key≤now
    omega
  · intro lo
    rw [hjournal,requestsWithin,filter_append,length_append]
    by_cases hin : lo≤now ∧ now≤lo+p.requestWindow key
    · have hold : ((admissions key s.journal).filter
          fun t => lo≤t ∧ t≤lo+p.requestWindow key).length ≤
            (s.counter (p.requestSlot key)).requests.length := by
        rw [hlog]
        apply List.Sublist.length_le
        apply monotone_filter_right
        intro t ht
        rw [decide_eq_true_iff] at ht ⊢
        omega
      rw [filter_cons_of_pos (by simpa using hin)]
      simp only [filter_nil,length_singleton]
      omega
    · rw [filter_cons_of_neg (by simpa using hin)]
      exact h.limit lo
end
end RequestsKept
theorem requestsKept_new (p : Policy) (hp : p.requestStrategy=.slidingWindow) (key : String)
    (config : StoreConfig) (now : Int) : RequestsKept p key now (new config) where
  strategy := by
    show p.requestStrategy≠_
    rw [hp]
    decide
  window := rfl
  le_last t ht := by cases ht
  kept := Keeps.nil _
  limit lo := Int.le_of_lt (p.requestLimit_pos key)

section requests
variable {p : Policy} {key : String} {now : Int} {s s' : MemoryStore} {call : Call} {final : Bool}
theorem Move.requestsKept (hcall : FollowingCall p call) (hordered : s.Ordered now)
    (hm : Move now call s final s') (h : RequestsKept p key now s) : RequestsKept p key now s' := by
  cases hm with
  | prune hreserve hvalid hslot =>
    subst hreserve
    have hname := (Policy.slot_eq_of_name hcall hslot key).1
    rcases counter_update_cases (·.prune now) hname with hsame | hpruned
    · exact h.unchanged hsame rfl
    · exact h.pruned hordered hpruned rfl
  | expire hlease hpending hdue | close hlease hpending hopen hcloses =>
    apply h.unchanged
    · exact updateTokens_requestSlot key
    · rw [close_journal,admissions_append]
      exact append_nil _
  | drop hlease hterminal hdue =>
    apply h.unchanged
    · rfl
    · rw [drop_journal,admissions_append]
      exact append_nil _
  | @grant r hreserve hvalid hnew hrequests htokens =>
    subst hreserve
    by_cases hkey : key∈r.requests.map RequestCounter.key
    · obtain ⟨c,hc,rfl⟩ := mem_map.mp hkey
      obtain ⟨hroom,hpruned⟩ := hrequests c hc
      rw [hcall.requestSlot c hc] at hroom hpruned
      rw [requestFull_eq_false,requestCount_sliding h.strategy, hcall.requestLimit c hc] at hroom
      apply h.admitted hordered hpruned hroom
      · exact addCounts_requestSlot_of_mem hcall hc
      · rw [grant_journal,admissions_append,Entry.admissions,filter_key_of_mem hcall.distinct hc]
        rfl
    · apply h.unchanged
      · exact addCounts_requestSlot_of_notMem hcall hkey
      · rw [grant_journal,admissions_append,Entry.admissions,filter_key_of_notMem hkey]
        exact append_nil _
end requests
/-- The tokens settled in the window that ends now and the amounts of the pending leases. -/
def used (p : Policy) (s : MemoryStore) (key : String) (now : Int) : Int :=
  tokensWithin (now-p.tokenWindow key) now (charges key s.journal)+s.pendingOn key

structure TokensKept (p : Policy) (key : String) (last : Int) (s : MemoryStore) : Prop where
  strategy : (s.counter (p.tokenSlot key)).strategy≠.fixedWindow
  window : (s.counter (p.tokenSlot key)).window=p.tokenWindow key
  le_last : ∀ e∈charges key s.journal, e.time≤last
  kept : Keeps TokenEvent.time (last-p.tokenWindow key) (charges key s.journal)
    (s.counter (p.tokenSlot key)).tokens
  reserved : (s.counter (p.tokenSlot key)).reserved=s.pendingOn key
  small : s.pendingOn key<2^63

variable {tokens : List TokenReservation} {actual : Int}
namespace TokensKept
variable {p : Policy} {key : String} {last now : Int} {s s' : MemoryStore}
theorem mono (h : TokensKept p key last s) (hle : last≤now) : TokensKept p key now s where
  strategy := h.strategy
  window := h.window
  le_last e he := Int.le_trans (h.le_last e he) hle
  kept := h.kept.mono (by omega)
  reserved := h.reserved
  small := h.small

theorem used_mono (h : TokensKept p key last s) (hle : last≤now) :
    s.used p key now ≤ s.used p key last := by
  apply Int.add_le_add_right
  apply weightWithin_mono
  · intro e he
    exact Int.le_of_lt (charges_pos e he)
  · intro e he hlo _
    have hlast := h.le_last e he
    omega

section
variable (h : TokensKept p key now s)
include h
theorem unchanged (hcounter : s'.counter (p.tokenSlot key)=s.counter (p.tokenSlot key))
    (hcharges : charges key s'.journal=charges key s.journal)
    (hpending : s'.pendingOn key=s.pendingOn key) : TokensKept p key now s' := by
  constructor
  · exact hcounter ▸ h.strategy
  · exact hcounter ▸ h.window
  · exact hcharges ▸ h.le_last
  · rw [hcounter,hcharges]
    exact h.kept
  · rw [hcounter,hpending]
    exact h.reserved
  · exact hpending ▸ h.small

theorem pruned (hordered : s.Ordered now)
    (hcounter : s'.counter (p.tokenSlot key)=(s.counter (p.tokenSlot key)).prune now)
    (hcharges : charges key s'.journal=charges key s.journal)
    (hpending : s'.pendingOn key=s.pendingOn key) : TokensKept p key now s' := by
  have horder := hordered.counter (ordered_fresh (p.tokenSlot key) now)
  have hsliding := prune_sliding h.strategy horder now
  constructor
  · rw [hcounter,prune_strategy]
    exact h.strategy
  · rw [hcounter,prune_window]
    exact h.window
  · exact hcharges ▸ h.le_last
  · rw [hcounter,hcharges,hsliding,h.window]
    exact h.kept.prune
  · rw [hcounter,hsliding,hpending]
    exact h.reserved
  · exact hpending ▸ h.small

theorem settled (hordered : s.Ordered now) {amount : Int} (hamount : amount ≤ s.pendingOn key)
    (hnonneg : 0≤amount) (hcounter : s'.counter (p.tokenSlot key) =
      (s.counter (p.tokenSlot key)).settle now amount actual)
    (hcharges : charges key s'.journal=charges key s.journal ++
      ([⟨now,chargeOf amount actual⟩] : List TokenEvent).filter fun e => 0<e.tokens)
    (hpending : s'.pendingOn key=s.pendingOn key-amount) : TokensKept p key now s' := by
  have horder := hordered.counter (ordered_fresh (p.tokenSlot key) now)
  have hwindow := p.tokenWindow_pos key
  have hsmall := h.small
  have hnew : ∀ e∈([⟨now,chargeOf amount actual⟩] : List TokenEvent).filter
      fun e => 0<e.tokens, e.time=now := by
    intro e he
    rw [mem_singleton.mp (mem_of_mem_filter he)]
  constructor
  · rw [hcounter,settle_strategy]
    exact h.strategy
  · rw [hcounter,settle_window]
    exact h.window
  · intro e he
    rw [hcharges] at he
    rcases mem_append.mp he with hold | hlatest
    · exact h.le_last e hold
    · exact Int.le_of_eq (hnew e hlatest)
  · rw [hcounter,hcharges,settle_tokens_sliding h.strategy horder,h.window]
    apply h.kept.prune.append
    intro e he
    rw [hnew e he]
    omega
  · have hexact : ((s.counter (p.tokenSlot key)).unreserve amount).reserved =
        (s.counter (p.tokenSlot key)).reserved-amount := by
      apply unreserve_reserved
      · rw [h.reserved]
        omega
      · rw [h.reserved]
        omega
    rw [hcounter,settle_reserved_sliding h.strategy,hexact,h.reserved,hpending]
  · omega

theorem admitted {amount : Int} (hfits : Fits64 (s.pendingOn key+amount))
    (hcounter : s'.counter (p.tokenSlot key)=(s.counter (p.tokenSlot key)).reserve amount)
    (hcharges : charges key s'.journal=charges key s.journal)
    (hpending : s'.pendingOn key=s.pendingOn key+amount) : TokensKept p key now s' := by
  constructor
  · rw [hcounter]
    exact h.strategy
  · rw [hcounter]
    exact h.window
  · exact hcharges ▸ h.le_last
  · rw [hcounter,hcharges]
    exact h.kept
  · rw [hcounter,MemoryCounter.reserve,h.reserved,hpending]
    exact hfits.wrap64_eq
  · rw [hpending]
    exact hfits.2

theorem eases (hordered : s.Ordered now) (he : Eases p key now tokens actual s s') :
    TokensKept p key now s' := by
  cases he with
  | kept _ hcounter hcharges hpending => exact h.unchanged hcounter hcharges hpending
  | pruned _ hcounter hcharges hpending => exact h.pruned hordered hcounter hcharges hpending
  | settled c _ _ hpos hle hcounter hcharges hpending =>
    exact h.settled hordered hle hpos hcounter hcharges hpending

theorem wrap64_pruned (hordered : s.Ordered now) (amount : Int) :
    wrap64 (((s.counter (p.tokenSlot key)).prune now).tokenCount +
      ((s.counter (p.tokenSlot key)).prune now).reserved+amount) =
        wrap64 (s.used p key now+amount) := by
  have horder := hordered.counter (ordered_fresh (p.tokenSlot key) now)
  have hstrategy : ((s.counter (p.tokenSlot key)).prune now).strategy≠.fixedWindow := by
    rw [prune_strategy]
    exact h.strategy
  have htotal : ((s.counter (p.tokenSlot key)).prune now).tokenTotal =
      tokensWithin (now-p.tokenWindow key) now (charges key s.journal) := by
    rw [prune_sliding h.strategy horder,h.window,tokensWithin,
      weightWithin_eq_of_le h.le_last,← h.kept.filter_eq (Int.le_refl _)]
    rfl
  have hreserved : ((s.counter (p.tokenSlot key)).prune now).reserved=s.pendingOn key := by
    rw [prune_sliding h.strategy horder]
    exact h.reserved
  rw [wrap64_tokenTotal_add hstrategy,htotal,hreserved]
  rfl
end
end TokensKept
theorem tokensKept_new (p : Policy) (hp : p.tokenStrategy=.slidingWindow) (key : String)
    (config : StoreConfig) (now : Int) : TokensKept p key now (new config) where
  strategy := by
    show p.tokenStrategy≠_
    rw [hp]
    decide
  window := rfl
  le_last e he := by cases he
  kept := Keeps.nil _
  reserved := rfl
  small := by
    show (0 : Int)<2^63
    decide

section tokens
variable {p : Policy} {key : String} {now : Int} {s s' : MemoryStore} {call : Call} {final : Bool}
theorem Move.tokensKept (hcall : FollowingCall p call) (hfollow : s.LeasesFollow p)
    (hordered : s.Ordered now)
    (hsmall : ∀ r, call=.reserve r → ∀ c∈r.tokens, s.pendingOn c.key+c.amount<2^63)
    (hm : Move now call s final s') (h : TokensKept p key now s) : TokensKept p key now s' := by
  cases final with
  | false =>
    obtain ⟨tokens,heases⟩ := hm.eases key hcall hfollow
    exact h.eases hordered heases
  | true =>
    cases hm with
    | close hlease hpending hopen hcloses =>
      exact h.eases hordered (hfollow.eases now key hlease hpending hcloses.ne_pending _)
    | @grant r hreserve hvalid hnew hrequests htokens =>
      have hlt := hsmall r hreserve
      subst hreserve
      cases grant_enters now key hcall hnew with
      | kept hcounter hcharges hafter => exact h.unchanged hcounter hcharges hafter
      | reserved c hc hkey hcounter hcharges hafter =>
        subst hkey
        have hpos := (validateReservation_tokens hvalid c hc).2.2
        have hnonneg := hfollow.nonneg c.key
        exact h.admitted ⟨by omega,hlt c hc⟩ hcounter hcharges hafter

theorem Eases.used (he : Eases p key now tokens actual s s') :
    s'.used p key now=s.used p key now ∧ key∉tokens.map TokenReservation.key ∨
      ∃ c∈tokens, c.key=key ∧ 0≤c.amount ∧ s'.used p key now =
        s.used p key now-c.amount+max (chargeOf c.amount actual) 0 := by
  have hwindow := p.tokenWindow_pos key
  cases he with
  | kept habsent _ hcharges hpending | pruned habsent _ hcharges hpending =>
    exact .inl ⟨by rw [MemoryStore.used,hcharges,hpending,MemoryStore.used],habsent⟩
  | settled c hc hkey hpos _ _ hcharges hpending =>
    refine .inr ⟨c,hc,hkey,hpos,?_⟩
    have hlatest := tokensWithin_latest (show now-p.tokenWindow key≤now by omega)
      (chargeOf c.amount actual)
    rw [MemoryStore.used,hcharges,hpending,tokensWithin,weightWithin_append,MemoryStore.used]
    unfold tokensWithin at hlatest ⊢
    omega

theorem Move.used_eq (hcall : FollowingCall p call) (hfollow : s.LeasesFollow p)
    (hm : Move now call s false s') : s'.used p key now=s.used p key now := by
  obtain ⟨tokens,heases⟩ := hm.eases key hcall hfollow
  rcases heases.used with ⟨hsame,-⟩ | ⟨c,-,-,hpos,hused⟩
  · exact hsame
  · have hcharge : chargeOf c.amount (-1)=c.amount := rfl
    omega

theorem Tidies.used_eq (hcall : FollowingCall p call) (hfollow : s.LeasesFollow p)
    (hm : Tidies now call s s') : s'.used p key now=s.used p key now := by
  induction hm with
  | refl => rfl
  | tail hm hstep ih => exact (hstep.used_eq hcall (Tidies.leasesFollow hcall hm hfollow)).trans ih

theorem pendingOn_le_used : s.pendingOn key ≤ s.used p key now := by
  have hwithin : 0≤tokensWithin (now-p.tokenWindow key) now (charges key s.journal) :=
    tokensWithin_nonneg
  unfold used
  omega

theorem Move.used_le (hcall : FollowingCall p call) (hfollow : s.LeasesFollow p)
    (hordered : s.Ordered now) (hkept : TokensKept p key now s)
    (hfits : ∀ r, call=.reserve r → ∀ c∈r.tokens, Fits64 (s.used p c.key now+c.amount))
    (hbounded : ∀ id actual lease, call=.commit id actual → s.leases.lookup id=some lease →
      lease.state=.pending → ∀ c∈lease.tokens, actual≤c.amount)
    (hm : Move now call s final s') (h : s.used p key now≤p.tokenLimit key) :
    s'.used p key now≤p.tokenLimit key := by
  cases final with
  | false => exact (hm.used_eq hcall hfollow).trans_le h
  | true =>
    cases hm with
    | @close id lease state actual hlease hpending hopen hcloses =>
      have hcharge := hcloses.charge_le (fun _ n hcommit hid => hbounded _ n lease hcommit
        (hid ▸ hlease) hpending) (hfollow _ _ hlease).2
      have heases := hfollow.eases now key hlease hpending hcloses.ne_pending actual
      rcases heases.used with ⟨hsame,-⟩ | ⟨c,hc,-,hpos,hused⟩
      · exact hsame.trans_le h
      · have hle := hcharge c hc
        omega
    | @grant r hreserve hvalid hnew hrequests htokens =>
      have hfitting := hfits r hreserve
      subst hreserve
      cases grant_enters now key hcall hnew with
      | kept _ hcharges hafter =>
        rw [used,hcharges,hafter]
        exact h
      | reserved c hc hkey _ hcharges hafter =>
        subst hkey
        obtain ⟨hroom,hpruned⟩ := htokens c hc
        rw [hcall.tokens.slot c hc] at hroom hpruned
        rw [tokenFull_eq_false,hcall.tokens.limit c hc,← hpruned,hkept.wrap64_pruned hordered,
          (hfitting c hc).wrap64_eq] at hroom
        rw [used,hcharges,hafter,← Int.add_assoc]
        exact hroom
end tokens
/-- A call that follows the policy, with an amount that does not overflow the sum of its counter
and a report that does not exceed the reservation. -/
def BoundedCall (p : Policy) (s : MemoryStore) (now : Int) (call : Call) : Prop :=
  FollowingCall p call ∧
    (∀ r, call=.reserve r → ∀ c∈r.tokens, Fits64 (s.used p c.key now+c.amount)) ∧
    ∀ id actual lease, call=.commit id actual → s.leases.lookup id=some lease →
      ∀ c∈lease.tokens, actual≤c.amount

theorem Run.requestsKept {p : Policy} (hp : p.requestStrategy=.slidingWindow)
    {config : StoreConfig} {last : Int} {s : MemoryStore}
    (h : Run config (fun _ _ call => FollowingCall p call) last s) (key : String) :
    RequestsKept p key last s := by
  apply h.invariant
  · intro now
    exact requestsKept_new p hp key config now
  · intro last now s hle hkept
    exact hkept.mono hle
  · intro now call s0 s final s' hcall _ _ hordered hmove hkept
    exact hmove.requestsKept hcall hordered hkept

def RecordedCall (p : Policy) (s : MemoryStore) (_ : Int) (call : Call) : Prop :=
  FollowingCall p call ∧ ∀ r, call=.reserve r → ∀ c∈r.tokens, s.pendingOn c.key+c.amount<2^63

theorem Tidies.pendingOn_le {p : Policy} {now : Int} {call : Call} {s s' : MemoryStore}
    (hcall : FollowingCall p call) (hfollow : s.LeasesFollow p) (hm : Tidies now call s s')
    (key : String) : s'.pendingOn key ≤ s.pendingOn key := by
  induction hm with
  | refl => exact Int.le_refl _
  | tail hm hstep ih =>
    refine Int.le_trans ?_ ih
    obtain ⟨tokens,heases⟩ := hstep.eases key hcall (Tidies.leasesFollow hcall hm hfollow)
    cases heases with
    | kept _ _ _ hpending | pruned _ _ _ hpending => exact Int.le_of_eq hpending
    | settled c _ _ hpos _ _ _ hpending => omega

section runs
variable {p : Policy} {config : StoreConfig} {last now : Int} {s s0 s' : MemoryStore} {call : Call}
  {final : Bool}
theorem RecordedCall.tokensKept (hcall : RecordedCall p s0 now call) (hstart : s0.LeasesFollow p)
    (htidies : Tidies now call s0 s) (hordered : s.Ordered now) (hmove : Move now call s final s')
    (hs : s.LeasesFollow p ∧ ∀ key, TokensKept p key now s) :
    s'.LeasesFollow p ∧ ∀ key, TokensKept p key now s' := by
  obtain ⟨hfollowing,hfits⟩ := hcall
  refine ⟨hmove.leasesFollow hfollowing hs.1,fun key => ?_⟩
  apply hmove.tokensKept hfollowing hs.1 hordered _ (hs.2 key)
  intro r hreserve c hc
  have hlt := hfits r hreserve c hc
  have hle := htidies.pendingOn_le hfollowing hstart c.key
  omega

theorem Run.tokensKept (hp : p.tokenStrategy=.slidingWindow)
    (h : Run config (RecordedCall p) last s) :
    s.LeasesFollow p ∧ ∀ key, TokensKept p key last s := by
  apply h.invariant (I := fun last s => s.LeasesFollow p ∧ ∀ key, TokensKept p key last s)
  · intro now
    exact ⟨leasesFollow_new p config,fun key => tokensKept_new p hp key config now⟩
  · intro last now s hle hkept
    exact ⟨hkept.1,fun key => (hkept.2 key).mono hle⟩
  · intro now call s0 s final s' hcall hstart htidies hordered hmove hkept
    exact hcall.tokensKept hstart.1 htidies hordered hmove hkept

theorem BoundedCall.recorded (h : BoundedCall p s now call) : RecordedCall p s now call := by
  refine ⟨h.1,fun r hreserve c hc => ?_⟩
  have hlt := (h.2.1 r hreserve c hc).2
  have hle : s.pendingOn c.key ≤ s.used p c.key now := pendingOn_le_used
  omega

theorem Run.used_le (hp : p.tokenStrategy=.slidingWindow) (h : Run config (BoundedCall p) last s)
    (key : String) : s.used p key last≤p.tokenLimit key := by
  refine (h.invariant (I := fun last s => (s.LeasesFollow p ∧ ∀ key, TokensKept p key last s) ∧
    ∀ key, s.used p key last≤p.tokenLimit key) ?_ ?_ ?_).2 key
  · intro now
    exact ⟨⟨leasesFollow_new p config,fun key => tokensKept_new p hp key config now⟩,
      fun key => Int.le_of_lt (p.tokenLimit_pos key)⟩
  · intro last now s hle hs
    exact ⟨⟨hs.1.1,fun key => (hs.1.2 key).mono hle⟩,
      fun key => Int.le_trans ((hs.1.2 key).used_mono hle) (hs.2 key)⟩
  · intro now call s0 s final s' hcall hstart htidies hordered hmove hs
    refine ⟨hcall.recorded.tokensKept hstart.1.1 htidies hordered hmove hs.1,fun key => ?_⟩
    obtain ⟨hfollowing,hfits,hbounded⟩ := hcall
    apply hmove.used_le hfollowing hs.1.1 hordered (hs.1.2 key) _ _ (hs.2 key)
    · intro r hreserve c hc
      rw [htidies.used_eq hfollowing hstart.1.1]
      exact hfits r hreserve c hc
    · intro id actual lease hcommit hlease hpending
      exact hbounded id actual lease hcommit (htidies.pending_before hlease hpending)
end runs
/-- No closed interval as long as a key's window has more admitted requests than the limit, and while
commits report no more than was reserved, the tokens in use stay within the limit at any moment. -/
theorem sliding_limits (p : Policy) (config : StoreConfig)
    (hrequests : p.requestStrategy=.slidingWindow) (htokens : p.tokenStrategy=.slidingWindow) :
    (∀ last s, Run config (fun _ _ call => FollowingCall p call) last s → ∀ key lo,
      (requestsWithin lo (lo+p.requestWindow key) (admissions key s.journal) : Int) ≤
        p.requestLimit key) ∧
    ∀ last s, Run config (BoundedCall p) last s → ∀ key now, last≤now →
      tokensWithin (now-p.tokenWindow key) now (charges key s.journal)+s.pendingOn key ≤
        p.tokenLimit key := by
  constructor
  · intro last s hrun key lo
    exact (hrun.requestsKept hrequests key).limit lo
  · intro last s hrun key now hle
    have hkept := (hrun.mono fun _ _ _ hcall => hcall.recorded).tokensKept htokens
    exact Int.le_trans ((hkept.2 key).used_mono hle) (hrun.used_le htokens key)

theorem sliding_limits_one_lease :
    let p := Policy.uniform .slidingWindow 2 10 60 (by decide) (by decide) (by decide)
    let reserved := (new {}).after none 100 [] (.reserve (p.reservation "lease" "key" 5))
    let settled := reserved.after none 130 ["lease"] (.commit "lease" 3)
    Run {} (BoundedCall p) 130 settled ∧ admissions "key" settled.journal=[100] ∧
      (requestsWithin 70 130 (admissions "key" settled.journal) : Int)≤2 ∧
      tokensWithin (150-60) 150 (charges "key" settled.journal)+settled.pendingOn "key"≤10 := by
  intro p reserved settled
  have hfollowing : Run {} (fun _ _ call => FollowingCall p call) 130 settled :=
    .call (.call (.start 100) (by decide) (by decide) (p.follows_reservation _ _ _))
      (by decide) (by decide +kernel) trivial
  have hbounded : Run {} (BoundedCall p) 130 settled := by
    refine .call (.call (.start 100) (by decide) (by decide) ?_) (by decide) (by decide +kernel) ?_
    · refine ⟨p.follows_reservation _ _ _,?_,?_⟩
      · intro r hr c hc
        cases hr
        rw [mem_singleton.mp hc]
        decide +kernel
      · intro id actual lease hcall
        cases hcall
    · refine ⟨trivial,?_,?_⟩
      · intro r hr
        cases hr
      · intro id actual lease hcall hlease c hc
        cases hcall
        have hall : (reserved.leases.lookup "lease").all
            (fun l => l.tokens.all fun c => decide (3≤c.amount))=true := by decide +kernel
        rw [hlease,Option.all_some,all_eq_true] at hall
        exact of_decide_eq_true (hall c hc)
  have hlimits := sliding_limits p {} rfl rfl
  refine ⟨hbounded,by decide +kernel,?_,?_⟩
  · exact hlimits.1 130 settled hfollowing "key" 70
  · exact hlimits.2 130 settled hbounded "key" 150 (by decide)
end MemoryStore
end GudeAgents.RateLimit
