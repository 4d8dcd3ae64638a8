import GudeAgents.Framework.EventLog
import GudeAgents.RateLimit.Moves
/-!
# What the journal and the leases say about a key
-/
namespace GudeAgents.RateLimit
open Framework List FiniteMap
def Entry.admissions (key : String) : Entry → List Int
  | .admitted time r => (r.requests.filter fun c => c.key=key).map fun _ => time
  | _ => []
/-- The times of a key's admitted requests. -/
def admissions (key : String) (journal : List Entry) : List Int :=
  journal.flatMap (Entry.admissions key)
def chargesOf (key : String) (time : Int) (tokens : List TokenReservation) (actual : Int) :
    List TokenEvent :=
  ((tokens.filter fun r => r.key=key).map fun r => ⟨time,chargeOf r.amount actual⟩).filter
    fun e => 0<e.tokens
def Entry.charges (key : String) : Entry → List TokenEvent
  | .settled time _ _ tokens actual => chargesOf key time tokens actual
  | _ => []
/-- The settled tokens of a key. -/
def charges (key : String) (journal : List Entry) : List TokenEvent :=
  journal.flatMap (Entry.charges key)
def tokensWithin (lo hi : Int) (events : List TokenEvent) : Int :=
  weightWithin TokenEvent.time TokenEvent.tokens lo hi events
def requestsWithin (lo hi : Int) (times : List Int) : Nat :=
  (times.filter fun t => lo≤t ∧ t≤hi).length

theorem admissions_append (key : String) (journal : List Entry) (e : Entry) :
    admissions key (journal++[e])=admissions key journal++e.admissions key := by
  simp [admissions]
theorem charges_append (key : String) (journal : List Entry) (e : Entry) :
    charges key (journal++[e])=charges key journal++e.charges key := by
  simp [charges]

theorem tokensWithin_latest {lo now : Int} (hle : lo≤now) (n : Int) :
    tokensWithin lo now (([⟨now,n⟩] : List TokenEvent).filter fun e => 0<e.tokens) = max n 0 := by
  by_cases hpos : 0<n
  · rw [filter_cons_of_pos (by simpa using hpos),filter_nil,tokensWithin,weightWithin,
      filter_cons_of_pos (by simpa using hle)]
    show n+0=max n 0
    omega
  · rw [filter_cons_of_neg (by simpa using hpos)]
    show 0=max n 0
    omega

def amountOn (key : String) (tokens : List TokenReservation) : Int :=
  ((tokens.filter fun r => r.key=key).map TokenReservation.amount).sum
def MemoryLease.pendingOn (key : String) (lease : MemoryLease) : Int :=
  if lease.state=.pending then amountOn key lease.tokens else 0
/-- The amounts of a key's pending leases. -/
def MemoryStore.pendingOn (s : MemoryStore) (key : String) : Int :=
  s.leases.total fun _ lease => lease.pendingOn key

variable {key : String}
theorem filter_key_of_notMem {ρ : Type} {name : ρ → String} {l : List ρ} (h : key∉l.map name) :
    (l.filter fun r => name r=key)=[] := by
  rw [filter_eq_nil_iff]
  intro r hr heq
  rw [decide_eq_true_iff] at heq
  exact h (heq ▸ mem_map_of_mem hr)

theorem filter_key_of_mem {ρ : Type} {name : ρ → String} {l : List ρ} {r : ρ}
    (hnodup : (l.map name).Nodup) (hr : r∈l) : (l.filter fun x => name x=name r)=[r] := by
  induction l with
  | nil => cases hr
  | cons head rest ih =>
    rw [map_cons,nodup_cons] at hnodup
    rcases mem_cons.mp hr with rfl | hrest
    · rw [filter_cons_of_pos (by simp),filter_key_of_notMem hnodup.1]
    · have hne : name head≠name r := by
        intro heq
        exact hnodup.1 (heq ▸ mem_map_of_mem hrest)
      rw [filter_cons_of_neg (by simpa using hne),ih hnodup.2 hrest]

variable {tokens : List TokenReservation}
theorem amountOn_of_mem {r : TokenReservation} (hnodup : (tokens.map TokenReservation.key).Nodup)
    (hr : r∈tokens) : amountOn r.key tokens=r.amount := by
  rw [amountOn,filter_key_of_mem hnodup hr]
  simp
theorem amountOn_of_notMem (h : key∉tokens.map TokenReservation.key) : amountOn key tokens=0 := by
  rw [amountOn,filter_key_of_notMem h]
  rfl

theorem amountOn_nonneg (h : ∀ r∈tokens, 0≤r.amount) (key : String) : 0≤amountOn key tokens := by
  apply sum_nonneg
  intro x hx
  obtain ⟨r,hr,rfl⟩ := mem_map.mp hx
  exact h r (mem_of_mem_filter hr)

theorem request_name_ne_token (key key' : String) : "r:"++key≠"t:"++key' := by
  intro h
  have hchars := congrArg String.toList h
  simp at hchars

theorem chargesOf_of_mem {r : TokenReservation} (hnodup : (tokens.map TokenReservation.key).Nodup)
    (hr : r∈tokens) (time actual : Int) :
    chargesOf r.key time tokens actual =
      ([⟨time,chargeOf r.amount actual⟩] : List TokenEvent).filter fun e => 0<e.tokens := by
  rw [chargesOf,filter_key_of_mem hnodup hr]
  rfl

theorem chargesOf_of_notMem (h : key∉tokens.map TokenReservation.key) (time actual : Int) :
    chargesOf key time tokens actual=[] := by
  rw [chargesOf,filter_key_of_notMem h]
  rfl

theorem charges_pos {journal : List Entry} : ∀ e∈charges key journal, 0<e.tokens := by
  intro e he
  obtain ⟨entry,-,hmem⟩ := mem_flatMap.mp he
  cases entry with
  | admitted time r | dropped time id => cases hmem
  | settled time id state tokens actual =>
    exact of_decide_eq_true (mem_filter.mp hmem).2

theorem tokensWithin_nonneg {lo hi : Int} {journal : List Entry} :
    0≤tokensWithin lo hi (charges key journal) :=
  weightWithin_nonneg fun e he => Int.le_of_lt (charges_pos e he)

variable {r : Reservation}
theorem validateReservation_tokens (h : validateReservation r=none) :
    ∀ c∈r.tokens, 0<c.limit ∧ 0<c.window ∧ 0≤c.amount := by
  intro c hc
  unfold validateReservation at h
  split at h
  · cases h
  · split at h
    · cases h
    · rename_i hany
      rw [any_eq_true] at hany
      have hnot : ¬(c.limit≤0 ∨ c.window≤0 ∨ c.amount<0) :=
        fun hbad => hany ⟨c,hc,decide_eq_true hbad⟩
      omega

/-- One limit, window and strategy for every counter key. -/
structure Policy where
  requestLimit : String → Int
  requestWindow : String → Int
  requestStrategy : WindowStrategy
  tokenLimit : String → Int
  tokenWindow : String → Int
  tokenStrategy : WindowStrategy
  requestLimit_pos : ∀ key, 0<requestLimit key
  requestWindow_pos : ∀ key, 0<requestWindow key
  tokenLimit_pos : ∀ key, 0<tokenLimit key
  tokenWindow_pos : ∀ key, 0<tokenWindow key

namespace Policy
variable (p : Policy)
def requestSlot (key : String) : Slot := ⟨"r:"++key,p.requestStrategy,p.requestWindow key⟩
def tokenSlot (key : String) : Slot := ⟨"t:"++key,p.tokenStrategy,p.tokenWindow key⟩

structure FollowsTokens (tokens : List TokenReservation) : Prop where
  slot : ∀ c∈tokens, c.slot=p.tokenSlot c.key
  limit : ∀ c∈tokens, c.limit=p.tokenLimit c.key
  distinct : (tokens.map TokenReservation.key).Nodup

structure Follows (r : Reservation) : Prop where
  requestSlot : ∀ c∈r.requests, c.slot=p.requestSlot c.key
  requestLimit : ∀ c∈r.requests, c.limit=p.requestLimit c.key
  distinct : (r.requests.map RequestCounter.key).Nodup
  tokens : p.FollowsTokens r.tokens

variable {p}
theorem requestSlot_name_inj {key' : String}
    (h : (p.requestSlot key).name=(p.requestSlot key').name) : key=key' := by
  simpa [requestSlot] using h
theorem tokenSlot_name_inj {key' : String} (h : (p.tokenSlot key).name=(p.tokenSlot key').name) :
    key=key' := by
  simpa [tokenSlot] using h
theorem requestSlot_ne_tokenSlot (key key' : String) :
    (p.requestSlot key).name≠(p.tokenSlot key').name :=
  request_name_ne_token key key'

theorem slot_eq_of_name (h : p.Follows r) {slot : Slot} (hslot : slot∈r.slots) (key : String) :
    (slot.name=(p.requestSlot key).name → slot=p.requestSlot key) ∧
      (slot.name=(p.tokenSlot key).name → slot=p.tokenSlot key) := by
  rcases mem_append.mp hslot with hreq | htok
  · obtain ⟨c,hc,rfl⟩ := mem_map.mp hreq
    rw [h.requestSlot c hc]
    constructor
    · intro heq
      rw [requestSlot_name_inj heq]
    · intro heq
      exact absurd heq (requestSlot_ne_tokenSlot _ _)
  · obtain ⟨c,hc,rfl⟩ := mem_map.mp htok
    rw [h.tokens.slot c hc]
    constructor
    · intro heq
      exact absurd heq.symm (requestSlot_ne_tokenSlot _ _)
    · intro heq
      rw [tokenSlot_name_inj heq]

def reservation (p : Policy) (id key : String) (amount : Int) : Reservation where
  id := id
  requests := [⟨key,p.requestLimit key,p.requestWindow key,p.requestStrategy⟩]
  tokens := [⟨key,p.tokenLimit key,p.tokenWindow key,p.tokenStrategy,amount⟩]

theorem follows_reservation (p : Policy) (id key : String) (amount : Int) :
    p.Follows (p.reservation id key amount) where
  requestSlot c hc := by
    rw [mem_singleton.mp hc]
    rfl
  requestLimit c hc := by rw [mem_singleton.mp hc]
  distinct := nodup_singleton key
  tokens := {
    slot := fun c hc => by
      rw [mem_singleton.mp hc]
      rfl
    limit := fun c hc => by rw [mem_singleton.mp hc]
    distinct := nodup_singleton key }

def uniform (strategy : WindowStrategy) (requests tokens window : Int) (hrequests : 0<requests)
    (htokens : 0<tokens) (hwindow : 0<window) : Policy where
  requestLimit _ := requests
  requestWindow _ := window
  requestStrategy := strategy
  tokenLimit _ := tokens
  tokenWindow _ := window
  tokenStrategy := strategy
  requestLimit_pos _ := hrequests
  requestWindow_pos _ := hwindow
  tokenLimit_pos _ := htokens
  tokenWindow_pos _ := hwindow
end Policy
namespace MemoryStore
variable {p : Policy} {s : MemoryStore} {now : Int}
variable {s' : MemoryStore}
theorem counter_congr {slot : Slot} (h : s'.counters.lookup slot.name=s.counters.lookup slot.name) :
    s'.counter slot=s.counter slot := by
  rw [counter,counter,h]

theorem counter_update_cases {slot x : Slot} (f : MemoryCounter → MemoryCounter)
    (hname : slot.name=x.name → slot=x) :
    (s.update slot f).counter x=s.counter x ∨ (s.update slot f).counter x=f (s.counter x) := by
  by_cases heq : slot.name=x.name
  · right
    rw [hname heq]
    exact counter_update_self
  · left
    exact counter_update_of_ne heq

section families
variable {ρ : Type} {slots : ρ → Slot} {name : ρ → String} {family : String → Slot} {l : List ρ}
  {g : ρ → MemoryCounter → MemoryCounter}
section
variable (h : ∀ r∈l, slots r=family (name r))
  (hinj : ∀ key key', (family key).name=(family key').name → key=key')
include h hinj
theorem counter_updateAll_of_notMem (hkey : key∉l.map name) :
    (s.updateAll slots g l).counter (family key)=s.counter (family key) := by
  apply counter_congr
  apply lookup_updateAll_of_notMem
  intro r hr heq
  rw [h r hr] at heq
  exact hkey (hinj _ _ heq ▸ mem_map_of_mem hr)

theorem counter_updateAll_of_mem (hdistinct : (l.map name).Nodup) {r : ρ} (hr : r∈l) :
    (s.updateAll slots g l).counter (family (name r))=g r (s.counter (family (name r))) := by
  have hnames : (l.map fun r => (slots r).name)=(l.map name).map fun key => (family key).name := by
    rw [map_map]
    apply map_congr_left
    intro c hc
    rw [Function.comp_apply,h c hc]
  have hnodup : (l.map fun r => (slots r).name).Nodup := by
    rw [hnames]
    exact hdistinct.map fun key key' => hinj key key'
  rw [← h r hr]
  exact counter_eq_of_lookup (lookup_updateAll_of_mem hnodup hr)
end
end families
section updates
variable {tokens : List TokenReservation} {g : TokenReservation → MemoryCounter → MemoryCounter}
  {requests : List RequestCounter} {f : RequestCounter → MemoryCounter → MemoryCounter}
theorem updateTokens_requestSlot (key : String) :
    (s.updateAll TokenReservation.slot g tokens).counter (p.requestSlot key) =
      s.counter (p.requestSlot key) := by
  apply counter_congr
  apply lookup_updateAll_of_notMem
  intro r hr heq
  exact request_name_ne_token _ _ heq.symm

theorem updateTokens_tokenSlot_of_notMem (h : p.FollowsTokens tokens)
    (hkey : key∉tokens.map TokenReservation.key) :
    (s.updateAll TokenReservation.slot g tokens).counter (p.tokenSlot key) =
      s.counter (p.tokenSlot key) :=
  counter_updateAll_of_notMem h.slot (fun _ _ => Policy.tokenSlot_name_inj) hkey

theorem updateTokens_tokenSlot_of_mem (h : p.FollowsTokens tokens) {r : TokenReservation}
    (hr : r∈tokens) : (s.updateAll TokenReservation.slot g tokens).counter (p.tokenSlot r.key) =
      g r (s.counter (p.tokenSlot r.key)) :=
  counter_updateAll_of_mem h.slot (fun _ _ => Policy.tokenSlot_name_inj) h.distinct hr

theorem updateRequests_tokenSlot (key : String) :
    (s.updateAll RequestCounter.slot f requests).counter (p.tokenSlot key) =
      s.counter (p.tokenSlot key) := by
  apply counter_congr
  apply lookup_updateAll_of_notMem
  intro r hr heq
  exact request_name_ne_token _ _ heq
end updates
variable {state : LeaseState}
variable {lease : MemoryLease} {id : String} {actual : Int}
theorem close_journal : (s.close now id lease state actual).journal =
      s.journal++[.settled now id state lease.tokens actual] := by
  simp [close]
theorem drop_journal (id : String) : (s.drop now id).journal=s.journal++[.dropped now id] := rfl
theorem charges_drop (id : String) : charges key (s.drop now id).journal=charges key s.journal := by
  rw [drop_journal,charges_append]
  exact append_nil _
theorem grant_journal (r : Reservation) : (s.grant now r).journal=s.journal++[.admitted now r] := by
  simp [grant]
theorem charges_grant (r : Reservation) :
    charges key (s.grant now r).journal=charges key s.journal := by
  rw [grant_journal,charges_append]
  exact append_nil _

section addCounts
variable {r : Reservation} (h : p.Follows r)
include h
theorem addCounts_requestSlot_of_mem {c : RequestCounter} (hc : c∈r.requests) :
    (s.addCounts now r).counter (p.requestSlot c.key) =
      (s.counter (p.requestSlot c.key)).addRequest now := by
  rw [addCounts,updateTokens_requestSlot,counter_updateAll_of_mem h.requestSlot
    (fun _ _ => Policy.requestSlot_name_inj) h.distinct hc]

theorem addCounts_requestSlot_of_notMem (hkey : key∉r.requests.map RequestCounter.key) :
    (s.addCounts now r).counter (p.requestSlot key)=s.counter (p.requestSlot key) := by
  rw [addCounts,updateTokens_requestSlot,counter_updateAll_of_notMem h.requestSlot
    (fun _ _ => Policy.requestSlot_name_inj) hkey]
theorem addCounts_tokenSlot_of_mem {c : TokenReservation} (hc : c∈r.tokens) :
    (s.addCounts now r).counter (p.tokenSlot c.key) =
      (s.counter (p.tokenSlot c.key)).reserve c.amount := by
  rw [addCounts,updateTokens_tokenSlot_of_mem h.tokens hc,updateRequests_tokenSlot]
theorem addCounts_tokenSlot_of_notMem (hkey : key∉r.tokens.map TokenReservation.key) :
    (s.addCounts now r).counter (p.tokenSlot key)=s.counter (p.tokenSlot key) := by
  rw [addCounts,updateTokens_tokenSlot_of_notMem h.tokens hkey,updateRequests_tokenSlot]
end addCounts
section pending
variable {id : String} {lease : MemoryLease} {key : String}
theorem pendingOn_close (hlease : s.leases.lookup id=some lease)
    (hpending : lease.state=.pending) (hstate : state≠.pending) (actual : Int) :
    (s.close now id lease state actual).pendingOn key =
      s.pendingOn key-amountOn key lease.tokens := by
  rw [pendingOn,close_leases,total_replace _ hlease,MemoryLease.pendingOn,MemoryLease.pendingOn,
    if_pos hpending,MemoryLease.closed,if_neg hstate,Int.add_zero]
  rfl

theorem pendingOn_drop (hlease : s.leases.lookup id=some lease)
    (hterminal : lease.state≠.pending) : (s.drop now id).pendingOn key=s.pendingOn key := by
  rw [pendingOn,drop,total_erase _ hlease,MemoryLease.pendingOn,if_neg hterminal,Int.sub_zero]
  rfl

theorem pendingOn_grant (hnew : s.leases.lookup r.id=none) :
    (s.grant now r).pendingOn key=s.pendingOn key+amountOn key r.tokens := by
  rw [pendingOn,grant]
  rw [addCounts_leases,total_insert_new _ hnew]
  rfl
end pending
def LeasesFollow (p : Policy) (s : MemoryStore) : Prop :=
  ∀ id lease, s.leases.lookup id=some lease →
    p.FollowsTokens lease.tokens ∧ ∀ c∈lease.tokens, 0≤c.amount
/-- Reservations use the limits and windows of the policy. -/
def FollowingCall (p : Policy) : Call → Prop
  | .reserve r => p.Follows r
  | .commit _ _ => True
  | .release _ => True

theorem leasesFollow_new (p : Policy) (config : StoreConfig) : (new config).LeasesFollow p := by
  intro id lease hl
  cases hl

theorem LeasesFollow.insert {leases : FiniteMap String MemoryLease} (h : s.LeasesFollow p)
    (hleases : leases=s.leases.insert id lease)
    (hlease : p.FollowsTokens lease.tokens ∧ ∀ c∈lease.tokens, 0≤c.amount) :
    ∀ id' lease', leases.lookup id'=some lease' →
      p.FollowsTokens lease'.tokens ∧ ∀ c∈lease'.tokens, 0≤c.amount := by
  intro id' lease' hl
  rw [hleases] at hl
  rcases of_lookup_insert hl with ⟨-,rfl⟩ | ⟨-,hold⟩
  · exact hlease
  · exact h id' lease' hold

theorem LeasesFollow.close (h : s.LeasesFollow p) (hlease : s.leases.lookup id=some lease)
    (state : LeaseState) (actual : Int) : (s.close now id lease state actual).LeasesFollow p := by
  have hfollows := h id lease hlease
  exact h.insert (close_leases state actual) hfollows

theorem Move.leasesFollow {call : Call} {final : Bool} (hcall : FollowingCall p call)
    (hm : Move now call s final s') (h : s.LeasesFollow p) : s'.LeasesFollow p := by
  cases hm with
  | prune hreserve hvalid hslot => exact h
  | expire hlease hpending hdue | close hlease hpending hopen hcloses => exact h.close hlease _ _
  | drop hlease hterminal hdue =>
    intro id' lease' hl
    exact h id' lease' (of_lookup_erase hl).2
  | @grant r hreserve hvalid hnew hrequests htokens =>
    subst hreserve
    apply h.insert (congrArg _ (addCounts_leases r))
    exact ⟨hcall.tokens,fun c hc => (validateReservation_tokens hvalid c hc).2.2⟩

theorem Tidies.leasesFollow {call : Call} (hcall : FollowingCall p call) (hm : Tidies now call s s')
    (h : s.LeasesFollow p) : s'.LeasesFollow p := by
  induction hm with
  | refl => exact h
  | tail _ hstep ih => exact hstep.leasesFollow hcall ih

theorem LeasesFollow.pendingOn_nonneg (h : s.LeasesFollow p) (key : String) :
    ∀ id lease, s.leases.lookup id=some lease → 0≤lease.pendingOn key := by
  intro id lease hl
  unfold MemoryLease.pendingOn
  split
  · exact amountOn_nonneg (h id lease hl).2 key
  · exact Int.le_refl 0

theorem LeasesFollow.nonneg (h : s.LeasesFollow p) (key : String) : 0 ≤ s.pendingOn key :=
  total_nonneg (h.pendingOn_nonneg key)

theorem LeasesFollow.le_pendingOn (h : s.LeasesFollow p) (hlease : s.leases.lookup id=some lease)
    (hpending : lease.state=.pending) (key : String) :
    amountOn key lease.tokens ≤ s.pendingOn key := by
  have hle := le_total (h.pendingOn_nonneg key) hlease
  rwa [MemoryLease.pendingOn,if_pos hpending] at hle

theorem pending_before_close {other : String} {old : MemoryLease} (hstate : state≠.pending)
    (hlease : (s.close now other old state actual).leases.lookup id=some lease)
    (hpending : lease.state=.pending) : s.leases.lookup id=some lease := by
  rw [close_leases] at hlease
  rcases of_lookup_insert hlease with ⟨-,rfl⟩ | ⟨-,hold⟩
  · exact absurd hpending hstate
  · exact hold

theorem Tidies.pending_before {call : Call} (hm : Tidies now call s s')
    (hlease : s'.leases.lookup id=some lease) (hpending : lease.state=.pending) :
    s.leases.lookup id=some lease := by
  induction hm with
  | refl => exact hlease
  | tail _ hstep ih =>
    apply ih
    cases hstep with
    | prune hreserve hvalid hslot => exact hlease
    | expire hold holdPending hdue => exact pending_before_close (by decide) hlease hpending
    | drop hold hterminal hdue => exact (of_lookup_erase hlease).2

theorem Closes.charge_le {call : Call} (h : Closes call id state actual)
    (hbounded : ∀ id' n, call=.commit id' n → id'=id → ∀ c∈tokens, n≤c.amount)
    (hnonneg : ∀ c∈tokens, 0≤c.amount) : ∀ c∈tokens, chargeOf c.amount actual≤c.amount := by
  intro c hc
  cases h with
  | committed hcommit =>
    have hle := hbounded _ _ hcommit rfl c hc
    have hpos := hnonneg c hc
    rw [chargeOf,if_neg (by omega)]
    omega
  | released _ => exact Int.le_refl _

/-- What a settlement of `tokens`, or a move that only tidies up, does to the account of a key. -/
inductive Eases (p : Policy) (key : String) (now : Int) (tokens : List TokenReservation)
    (actual : Int) (s s' : MemoryStore) : Prop where
  | kept (absent : key∉tokens.map TokenReservation.key)
      (counter : s'.counter (p.tokenSlot key)=s.counter (p.tokenSlot key))
      (charged : charges key s'.journal=charges key s.journal)
      (pending : s'.pendingOn key=s.pendingOn key)
  | pruned (absent : key∉tokens.map TokenReservation.key)
      (counter : s'.counter (p.tokenSlot key)=(s.counter (p.tokenSlot key)).prune now)
      (charged : charges key s'.journal=charges key s.journal)
      (pending : s'.pendingOn key=s.pendingOn key)
  | settled (c : TokenReservation) (mem : c∈tokens) (here : c.key=key)
      (nonneg : 0≤c.amount) (le : c.amount ≤ s.pendingOn key)
      (counter : s'.counter (p.tokenSlot key) =
        (s.counter (p.tokenSlot key)).settle now c.amount actual)
      (charged : charges key s'.journal=charges key s.journal ++
        ([⟨now,chargeOf c.amount actual⟩] : List TokenEvent).filter fun e => 0<e.tokens)
      (pending : s'.pendingOn key=s.pendingOn key-c.amount)

inductive Enters (p : Policy) (key : String) (r : Reservation) (s s' : MemoryStore) : Prop where
  | kept (counter : s'.counter (p.tokenSlot key)=s.counter (p.tokenSlot key))
      (charged : charges key s'.journal=charges key s.journal)
      (pending : s'.pendingOn key=s.pendingOn key)
  | reserved (c : TokenReservation) (mem : c∈r.tokens) (here : c.key=key)
      (counter : s'.counter (p.tokenSlot key)=(s.counter (p.tokenSlot key)).reserve c.amount)
      (charged : charges key s'.journal=charges key s.journal)
      (pending : s'.pendingOn key=s.pendingOn key+c.amount)

section accounts
variable {call : Call} (key : String)
variable (now) in
theorem LeasesFollow.eases (h : s.LeasesFollow p) (hlease : s.leases.lookup id=some lease)
    (hpending : lease.state=.pending) (hstate : state≠.pending) (actual : Int) :
    Eases p key now lease.tokens actual s (s.close now id lease state actual) := by
  obtain ⟨hfollows,hnonneg⟩ := h id lease hlease
  have hle := h.le_pendingOn hlease hpending key
  have hafter : (s.close now id lease state actual).pendingOn key =
      s.pendingOn key-amountOn key lease.tokens := pendingOn_close hlease hpending hstate actual
  have hcharges : charges key (s.close now id lease state actual).journal =
      charges key s.journal++chargesOf key now lease.tokens actual := by
    rw [close_journal,charges_append]
    rfl
  by_cases hkey : key∈lease.tokens.map TokenReservation.key
  · obtain ⟨c,hc,rfl⟩ := mem_map.mp hkey
    rw [amountOn_of_mem hfollows.distinct hc] at hle hafter
    rw [chargesOf_of_mem hfollows.distinct hc] at hcharges
    exact .settled c hc rfl (hnonneg c hc) hle (updateTokens_tokenSlot_of_mem hfollows hc)
      hcharges hafter
  · rw [amountOn_of_notMem hkey,Int.sub_zero] at hafter
    rw [chargesOf_of_notMem hkey,append_nil] at hcharges
    exact .kept hkey (updateTokens_tokenSlot_of_notMem hfollows hkey) hcharges hafter

theorem Move.eases (hcall : FollowingCall p call) (hfollow : s.LeasesFollow p)
    (hm : Move now call s false s') : ∃ tokens, Eases p key now tokens (-1) s s' := by
  cases hm with
  | prune hreserve hvalid hslot =>
    subst hreserve
    have hname := (Policy.slot_eq_of_name hcall hslot key).2
    rcases counter_update_cases (·.prune now) hname with hsame | hpruned
    · exact ⟨[],.kept not_mem_nil hsame rfl rfl⟩
    · exact ⟨[],.pruned not_mem_nil hpruned rfl rfl⟩
  | expire hlease hpending hdue => exact ⟨_,hfollow.eases now key hlease hpending (by decide) _⟩
  | drop hlease hterminal hdue =>
    exact ⟨[],.kept not_mem_nil rfl (charges_drop _) (pendingOn_drop hlease hterminal)⟩

variable (now) in
theorem grant_enters (hr : p.Follows r) (hnew : s.leases.lookup r.id=none) :
    Enters p key r s (s.grant now r) := by
  have hafter : (s.grant now r).pendingOn key=s.pendingOn key+amountOn key r.tokens :=
    pendingOn_grant hnew
  by_cases hkey : key∈r.tokens.map TokenReservation.key
  · obtain ⟨c,hc,rfl⟩ := mem_map.mp hkey
    rw [amountOn_of_mem hr.tokens.distinct hc] at hafter
    exact .reserved c hc rfl (addCounts_tokenSlot_of_mem hr hc) (charges_grant r) hafter
  · rw [amountOn_of_notMem hkey,Int.add_zero] at hafter
    exact .kept (addCounts_tokenSlot_of_notMem hr hkey) (charges_grant r) hafter
end accounts
end MemoryStore
end GudeAgents.RateLimit
