import GudeAgents.RateLimit.Lifecycle
import GudeAgents.RateLimit.Sliding
/-!
# What decides an admission

When a reservation on sliding windows is admitted.
-/
namespace GudeAgents.RateLimit
open Framework List MemoryCounter
namespace Policy
variable (p : Policy) (key : String)
def emptyReservation : Reservation where
  id := "spending"
  requests := []
  tokens := [⟨key,p.tokenLimit key,p.tokenWindow key,p.tokenStrategy,0⟩]

private theorem follows_emptyReservation : p.Follows (p.emptyReservation key) where
  requestSlot c hc := by cases hc
  requestLimit c hc := by cases hc
  distinct := nodup_nil
  tokens := {
    slot := fun c hc => by
      rw [mem_singleton.mp hc]
      rfl
    limit := fun c hc => by rw [mem_singleton.mp hc]
    distinct := nodup_singleton key }

private theorem valid_emptyReservation : validateReservation (p.emptyReservation key)=none := by
  have hlimit := p.tokenLimit_pos key
  have hwindow := p.tokenWindow_pos key
  simp [validateReservation,emptyReservation,hlimit,hwindow]
end Policy
namespace MemoryStore
section checks
variable {ρ : Type} {slot : ρ → Slot} {full : MemoryCounter → ρ → Bool} {s : MemoryStore}
  {now : Int}
theorem counter_update_prune {x y : Slot} (hname : x.name=y.name → x=y) (hs : s.Ordered now) :
    ((s.update x (·.prune now)).counter y).prune now=(s.counter y).prune now := by
  rcases counter_update_cases (·.prune now) hname with hsame | hpruned
  · rw [hsame]
  · rw [hpruned]
    exact prune_prune (hs.counter (ordered_fresh y now))

private theorem checkAll_iff {l : List ρ} (hs : s.Ordered now)
    (hnames : ∀ x∈l, ∀ y∈l, (slot x).name=(slot y).name → slot x=slot y) :
    (checkAll now slot full s l).2=true ↔ ∀ x∈l, full ((s.counter (slot x)).prune now) x=false := by
  induction l generalizing s with
  | nil =>
    constructor
    · intro _ x hx
      cases hx
    · intro _
      rfl
  | cons y rest ih =>
    have hupdated : (s.update (slot y) (·.prune now)).Ordered now :=
      AllCounters.update hs (hs.counter (ordered_fresh (slot y) now)).prune
    have hrest := ih hupdated fun x hx z hz =>
      hnames x (mem_cons_of_mem y hx) z (mem_cons_of_mem y hz)
    have hsame : ∀ x∈rest, ((s.update (slot y) (·.prune now)).counter (slot x)).prune now =
        (s.counter (slot x)).prune now := fun x hx =>
      counter_update_prune (hnames y mem_cons_self x (mem_cons_of_mem y hx)) hs
    rw [forall_mem_cons]
    unfold checkAll
    dsimp only
    rw [counter_update_self]
    cases hfull : full ((s.counter (slot y)).prune now) y with
    | true => simp
    | false =>
      rw [if_neg Bool.false_ne_true,hrest]
      constructor
      · intro h
        exact ⟨rfl,fun x hx => hsame x hx ▸ h x hx⟩
      · intro h x hx
        rw [hsame x hx]
        exact h.2 x hx
end checks
section decisions
variable {p : Policy} {s : MemoryStore} {now : Int} {r : Reservation}
private theorem tokenSlot_of_name (h : p.FollowsTokens r.tokens) :
    ∀ x∈r.tokens, ∀ y∈r.tokens, x.slot.name=y.slot.name → x.slot=y.slot := by
  intro x hx y hy heq
  rw [h.slot x hx,h.slot y hy] at heq ⊢
  rw [Policy.tokenSlot_name_inj heq]

private theorem requestSlot_of_name (h : p.Follows r) :
    ∀ x∈r.requests, ∀ y∈r.requests, x.slot.name=y.slot.name → x.slot=y.slot := by
  intro x hx y hy heq
  rw [h.requestSlot x hx,h.requestSlot y hy] at heq ⊢
  rw [Policy.requestSlot_name_inj heq]

private theorem checkRequests_tokenSlot (x : TokenReservation) :
    (s.checkRequests now r).1.counter x.slot=s.counter x.slot := by
  have hkeep : ∀ (l : List RequestCounter) (s : MemoryStore),
      (checkAll now RequestCounter.slot requestFull s l).1.counter x.slot=s.counter x.slot := by
    intro l
    induction l with
    | nil =>
      intro s
      rfl
    | cons y rest ih =>
      intro s
      have hname : y.slot.name≠x.slot.name := request_name_ne_token _ _
      unfold checkAll
      dsimp only
      split
      · exact counter_update_of_ne hname
      · rw [ih,counter_update_of_ne hname]
  exact hkeep r.requests s

theorem tryAdmit_iff (hr : p.Follows r) (hs : s.Ordered now) :
    (s.tryAdmit now r).2=true ↔
      (∀ c∈r.requests, requestFull ((s.counter c.slot).prune now) c=false) ∧
        ∀ c∈r.tokens, tokenFull ((s.counter c.slot).prune now) c=false := by
  have hrequests : (s.checkRequests now r).2=true ↔ _ :=
    checkAll_iff hs (requestSlot_of_name hr)
  have htokens : (s.checkTokens now r).2=true ↔ _ :=
    checkAll_iff (checkAll_ordered hs) (tokenSlot_of_name hr.tokens)
  simp only [checkRequests_tokenSlot] at htokens
  rw [tryAdmit_eq,← hrequests,← htokens]
  cases (s.checkRequests now r).2 with
  | false => simp
  | true =>
    cases (s.checkTokens now r).2 with
    | false | true => simp

private theorem tryAdmit_granted (h : (s.tryAdmit now r).2=true) :
    (s.tryAdmit now r).1.journal=s.journal++[.admitted now r] ∧
      (s.tryAdmit now r).1.leases=s.leases.insert r.id (s.newLease now r) := by
  rw [tryAdmit_eq] at h ⊢
  split at h
  · rename_i hrequests
    split at h
    · rename_i htokens
      rw [if_pos hrequests,if_pos htokens]
      constructor
      · rw [grant_journal,checkAll_journal,checkAll_journal]
      · have hconfig : ((s.checkTokens now r).1.addCounts now r).config=s.config := by
          rw [addCounts_config,checkAll_config,checkAll_config]
        rw [grant]
        rw [newLease_congr hconfig,addCounts_leases,checkAll_leases,checkAll_leases]
    · cases h
  · cases h

private theorem reserve_of_new {order : List String} (horder : s.Visits order) (hid : r.id≠"")
    (hnew : s.leases.lookup r.id=none) (hvalid : validateReservation r=none) :
    s.reserve none now order r =
      (((s.cleanup now order).tryAdmit now r).1,.ok ((s.cleanup now order).tryAdmit now r).2) := by
  have hl : (s.cleanup now order).leases.lookup r.id=none := by
    rw [cleanup_lookup horder,hnew]
    rfl
  unfold reserve
  dsimp only
  rw [if_neg hid,hvalid]
  rw [hl]
  rfl

theorem reserve_granted {ctx : Option ContextError} {order : List String} (horder : s.Visits order)
    (hnew : s.leases.lookup r.id=none) (h : (s.reserve ctx now order r).2=.ok true) :
    ctx=none ∧ r.id≠"" ∧ validateReservation r=none ∧
      (s.reserve ctx now order r).1.leases.lookup r.id=some (s.newLease now r) := by
  have hvalid : ctx=none ∧ r.id≠"" ∧ validateReservation r=none := by
    unfold reserve at h
    cases ctx with
    | some cause => cases h
    | none =>
      dsimp only at h
      split at h
      · cases h
      · rename_i hid
        cases hvalid : validateReservation r with
        | some err =>
          rw [hvalid] at h
          cases h
        | none => exact ⟨rfl,hid,rfl⟩
  obtain ⟨rfl,hid,hvalid⟩ := hvalid
  rw [reserve_of_new horder hid hnew hvalid] at h ⊢
  refine ⟨rfl,hid,hvalid,?_⟩
  rw [(tryAdmit_granted (Except.ok.inj h)).2,AList.lookup_insert,newLease_congr (cleanup_config order)]
end decisions
theorem Tidies.admissions_eq {s s' : MemoryStore} {now : Int} {call : Call}
    (hm : Tidies now call s s') (key : String) :
    admissions key s'.journal=admissions key s.journal := by
  induction hm with
  | refl => rfl
  | tail _ hstep ih =>
    cases hstep with
    | prune hreserve hvalid hslot => exact ih
    | expire hlease hpending hdue =>
      rw [close_journal,admissions_append,ih]
      exact append_nil _
    | drop hlease hterminal hdue =>
      rw [drop_journal,admissions_append,ih]
      exact append_nil _

structure Kept (p : Policy) (last : Int) (s : MemoryStore) : Prop where
  ordered : s.Ordered last
  follow : s.LeasesFollow p
  requests : ∀ key, RequestsKept p key last s
  tokens : ∀ key, TokensKept p key last s

section kept
variable {p : Policy} {s s' : MemoryStore} {last now : Int} {order : List String}
theorem Run.kept {config : StoreConfig} (hrequests : p.requestStrategy=.slidingWindow)
    (htokens : p.tokenStrategy=.slidingWindow) (h : Run config (RecordedCall p) last s) :
    Kept p last s where
  ordered := h.ordered
  follow := (h.tokensKept htokens).1
  requests := (h.mono fun _ _ _ hcall => hcall.1).requestsKept hrequests
  tokens := (h.tokensKept htokens).2

namespace Kept
theorem mono (h : Kept p last s) (hle : last≤now) : Kept p now s where
  ordered := h.ordered.mono hle
  follow := h.follow
  requests key := (h.requests key).mono hle
  tokens key := (h.tokens key).mono hle

section
variable (h : Kept p now s)
include h
theorem tidied {id : String} (hm : Tidies now (.release id) s s') : Kept p now s' := by
  have hcall : FollowingCall p (.release id) := trivial
  induction hm with
  | refl => exact h
  | tail _ hstep ih =>
    constructor
    · exact hstep.ordered ih.ordered
    · exact hstep.leasesFollow hcall ih.follow
    · intro key
      exact hstep.requestsKept hcall ih.ordered (ih.requests key)
    · intro key
      apply hstep.tokensKept hcall ih.follow ih.ordered _ (ih.tokens key)
      intro r hr
      cases hr

theorem cleanup : Kept p now (s.cleanup now order) := by
  have htidies : Tidies now (.release "") s (s.cleanup now order) := cleanup_tidies order
  exact h.tidied htidies
theorem used_cleanup (key : String) : (s.cleanup now order).used p key now=s.used p key now := by
  have hcall : FollowingCall p (.release "") := trivial
  have htidies : Tidies now (.release "") s (s.cleanup now order) := cleanup_tidies order
  exact htidies.used_eq hcall h.follow
theorem used_nonneg (key : String) : 0 ≤ s.used p key now :=
  Int.le_trans (h.follow.nonneg key) pendingOn_le_used

private theorem requestCount_prune (key : String) :
    ((s.counter (p.requestSlot key)).prune now).requestCount =
      requestsWithin (now-p.requestWindow key) now (admissions key s.journal) := by
  have hkept := h.requests key
  have horder := h.ordered.counter (ordered_fresh (p.requestSlot key) now)
  have hstrategy : ((s.counter (p.requestSlot key)).prune now).strategy≠.fixedWindow := by
    rw [prune_strategy]
    exact hkept.strategy
  rw [requestCount_sliding hstrategy,prune_sliding hkept.strategy horder,hkept.window,
    requestsWithin]
  have hfilter := hkept.kept.filter_eq (Int.le_refl _)
  have hall : (admissions key s.journal).filter (fun t => now-p.requestWindow key≤t ∧ t≤now) =
        (admissions key s.journal).filter fun t => now-p.requestWindow key≤t := by
    apply filter_congr
    intro t ht
    have hle := hkept.le_last t ht
    rw [decide_eq_decide]
    omega
  rw [hall]
  exact congrArg (fun l : List Int => (l.length : Int)) hfilter
end
variable {r : Reservation}
private theorem requestFull_iff (h : Kept p now s) (hr : p.Follows r) {c : RequestCounter}
    (hc : c∈r.requests) :
    requestFull (((s.cleanup now order).counter c.slot).prune now) c=false ↔
      (requestsWithin (now-c.window) now (admissions c.key s.journal) : Int)<c.limit := by
  have htidies : Tidies now (.release "") s (s.cleanup now order) := cleanup_tidies order
  have hslot := hr.requestSlot c hc
  have hwindow : c.window=p.requestWindow c.key := congrArg Slot.window hslot
  rw [requestFull_eq_false,hslot,h.cleanup.requestCount_prune,htidies.admissions_eq,hwindow]

private theorem tokenFull_iff (h : Kept p now s) (hr : p.Follows r) {c : TokenReservation}
    (hc : c∈r.tokens) (hfits : Fits64 (s.used p c.key now+c.amount)) :
    tokenFull (((s.cleanup now order).counter c.slot).prune now) c=false ↔
      s.used p c.key now+c.amount≤c.limit := by
  rw [tokenFull_eq_false,hr.tokens.slot c hc,
    (h.cleanup.tokens c.key).wrap64_pruned h.cleanup.ordered,h.used_cleanup,hfits.wrap64_eq]

theorem reserve_iff (h : Kept p now s) (horder : s.Visits order) (hr : p.Follows r)
    (hid : r.id≠"") (hnew : s.leases.lookup r.id=none) (hvalid : validateReservation r=none)
    (hfits : ∀ c∈r.tokens, Fits64 (s.used p c.key now+c.amount)) :
    (s.reserve none now order r).2=.ok true ↔ (∀ c∈r.requests,
        (requestsWithin (now-c.window) now (admissions c.key s.journal) : Int)<c.limit) ∧
      ∀ c∈r.tokens, s.used p c.key now+c.amount≤c.limit := by
  rw [reserve_of_new horder hid hnew hvalid,Except.ok.injEq,
    tryAdmit_iff hr h.cleanup.ordered]
  constructor
  · intro hroom
    exact ⟨fun c hc => (h.requestFull_iff hr hc).mp (hroom.1 c hc),
      fun c hc => (h.tokenFull_iff hr hc (hfits c hc)).mp (hroom.2 c hc)⟩
  · intro hroom
    exact ⟨fun c hc => (h.requestFull_iff hr hc).mpr (hroom.1 c hc),
      fun c hc => (h.tokenFull_iff hr hc (hfits c hc)).mpr (hroom.2 c hc)⟩

theorem used_reserve (h : Kept p now s) (horder : s.Visits order) (hr : p.Follows r)
    (hid : r.id≠"") (hnew : s.leases.lookup r.id=none) (hvalid : validateReservation r=none)
    (hadmitted : (s.reserve none now order r).2=.ok true) {c : TokenReservation}
    (hc : c∈r.tokens) : (s.reserve none now order r).1.used p c.key now =
      s.used p c.key now+c.amount := by
  have hl : (s.cleanup now order).leases.lookup r.id=none := by
    rw [cleanup_lookup horder,hnew]
    rfl
  rw [reserve_of_new horder hid hnew hvalid] at hadmitted ⊢
  obtain ⟨hjournal,hleases⟩ := tryAdmit_granted (Except.ok.inj hadmitted)
  have hcleanup : (s.cleanup now order).used p c.key now=s.used p c.key now := h.used_cleanup c.key
  rw [← hcleanup,used,used,hjournal,charges_append,pendingOn,hleases,
    FiniteMap.total_insert_new _ hl,← amountOn_of_mem hr.tokens.distinct hc,← Int.add_assoc]
  exact congrArg (· + _ + _) (congrArg _ (append_nil _))
end Kept
end kept
theorem le_pendingTTL {s : MemoryStore} {window : Int} (hnonneg : 0≤window)
    (hfits : 2*window<2^63) : 2*window ≤ s.pendingTTL window := by
  have hwrap : wrap64 (2*window)=2*window := Fits64.wrap64_eq ⟨by omega,hfits⟩
  unfold pendingTTL
  rw [hwrap]
  dsimp only
  split
  · omega
  · exact Int.le_refl _

section spending
variable {p : Policy} {key : String} (hrequests : p.requestStrategy=.slidingWindow)
  (htokens : p.tokenStrategy=.slidingWindow) (config : StoreConfig)
include hrequests htokens
private theorem exists_empty_lease : ∃ s, Run config (RecordedCall p) 0 s ∧
    s.journal=[.admitted 0 (p.emptyReservation key)] ∧
    s.leases=(∅ : FiniteMap String MemoryLease).insert "spending"
      ((new config).newLease 0 (p.emptyReservation key)) := by
  have hstart : Run config (RecordedCall p) 0 (new config) := .start 0
  have hvisits : (new config).Visits [] := List.Perm.refl []
  have hid : (p.emptyReservation key).id≠"" := by
    show "spending"≠""
    decide
  have hadmitted : ((new config).reserve none 0 [] (p.emptyReservation key)).2=.ok true := by
    have hused : (new config).used p key 0+0=0 := rfl
    apply ((hstart.kept hrequests htokens).reserve_iff hvisits (p.follows_emptyReservation key)
      hid rfl (p.valid_emptyReservation key) _).mpr
    · constructor
      · intro c hc
        cases hc
      · intro c hc
        rw [mem_singleton.mp hc,hused]
        exact Int.le_of_lt (p.tokenLimit_pos key)
    · intro c hc
      rw [mem_singleton.mp hc,hused]
      decide
  rw [reserve_of_new hvisits hid rfl (p.valid_emptyReservation key),Except.ok.injEq] at hadmitted
  obtain ⟨hjournal,hleases⟩ := tryAdmit_granted hadmitted
  have hrun : Run config (RecordedCall p) 0
      ((new config).after none 0 [] (.reserve (p.emptyReservation key))) := by
    apply Run.call hstart (Int.le_refl 0) hvisits
    refine ⟨p.follows_emptyReservation key,fun r hr c hc => ?_⟩
    cases hr
    rw [mem_singleton.mp hc]
    show (0 : Int)+0<2^63
    decide
  refine ⟨_,hrun,?_⟩
  rw [after,reserve_of_new hvisits hid rfl (p.valid_emptyReservation key)]
  exact ⟨hjournal,hleases⟩

omit hrequests htokens in
theorem amountOn_emptyReservation (k : String) : amountOn k (p.emptyReservation key).tokens=0 := by
  by_cases hk : key=k
  · simp [amountOn,Policy.emptyReservation,hk]
  · simp [amountOn,Policy.emptyReservation,hk]

theorem exists_spent (hwindow : 2*p.tokenWindow key<2^63) {amount : Int}
    (hamount : 0≤amount) : ∃ s, Run config (RecordedCall p) 0 s ∧
      s.leases.lookup "next"=none ∧ (∀ k, admissions k s.journal=[]) ∧
      s.used p key 0=amount ∧ ∀ k, k≠key → s.used p k 0=0 := by
  obtain ⟨s,hrun,hjournal,hleases⟩ := exists_empty_lease hrequests htokens config
  have hpos := p.tokenWindow_pos key
  have hvisits : s.Visits s.leases.keys := List.Perm.refl _
  have hkept := hrun.kept hrequests htokens
  have hclean : Kept p 0 (s.cleanup 0 s.leases.keys) := hkept.cleanup
  have hlease : s.leases.lookup "spending" =
      some ((new config).newLease 0 (p.emptyReservation key)) := by
    rw [hleases,AList.lookup_insert]
  have hopen : 0<((new config).newLease 0 (p.emptyReservation key)).pendingUntil := by
    have hle : 2*p.tokenWindow key≤(new config).pendingTTL (p.tokenWindow key) :=
      le_pendingTTL (Int.le_of_lt hpos) hwindow
    have hlongest : reservationWindow (p.emptyReservation key)=p.tokenWindow key := if_pos hpos
    rw [newLease,hlongest]
    show 0<0+(new config).pendingTTL (p.tokenWindow key)
    omega
  have hcleanLease : (s.cleanup 0 s.leases.keys).leases.lookup "spending" =
      some ((new config).newLease 0 (p.emptyReservation key)) := by
    rw [cleanup_lookup hvisits,hlease]
    exact tidied_of_open rfl hopen
  have hunused : ∀ k, (s.cleanup 0 s.leases.keys).used p k 0=0 := by
    intro k
    rw [hkept.used_cleanup,used,hjournal,pendingOn,hleases,FiniteMap.total_insert_new _ rfl]
    show 0+(0+amountOn k (p.emptyReservation key).tokens)=0
    rw [amountOn_emptyReservation]
    rfl
  have hafter : s.after none 0 s.leases.keys (.commit "spending" amount) =
      (s.cleanup 0 s.leases.keys).close 0 "spending"
        ((new config).newLease 0 (p.emptyReservation key)) .committed amount := by
    rw [after,commit_eq_terminate,terminate_of_open hvisits hlease rfl hopen,max_eq_left hamount]
  have hrun' : Run config (RecordedCall p) 0
      (s.after none 0 s.leases.keys (.commit "spending" amount)) := by
    apply Run.call hrun (Int.le_refl 0) hvisits
    exact ⟨trivial,fun r hr => by cases hr⟩
  rw [hafter] at hrun'
  have htidies : Tidies 0 (.release "") s (s.cleanup 0 s.leases.keys) := cleanup_tidies _
  have hcommitted : LeaseState.committed≠.pending := by decide
  refine ⟨_,hrun',?_,?_,?_,?_⟩
  · rw [close_leases,AList.lookup_insert_ne (by decide),cleanup_lookup hvisits,hleases,
      AList.lookup_insert_ne (by decide)]
    rfl
  · intro k
    rw [close_journal,admissions_append,htidies.admissions_eq,hjournal]
    rfl
  · rcases (hclean.follow.eases 0 key hcleanLease rfl hcommitted amount).used with
      ⟨-,hkey⟩ | ⟨c,hc,-,-,hused⟩
    · exact absurd (mem_singleton.mpr rfl) hkey
    · rw [hused,hunused,mem_singleton.mp hc]
      show 0-0+max (if amount<0 then 0 else amount) 0=amount
      omega
  · intro k hk
    rcases (hclean.follow.eases 0 k hcleanLease rfl hcommitted amount).used with
      ⟨hsame,-⟩ | ⟨c,hc,hkey,-,-⟩
    · exact hsame.trans (hunused k)
    · rw [mem_singleton.mp hc] at hkey
      exact absurd hkey.symm hk
end spending
end MemoryStore
end GudeAgents.RateLimit
