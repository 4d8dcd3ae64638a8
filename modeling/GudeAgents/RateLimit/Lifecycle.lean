import GudeAgents.RateLimit.Accounts
/-!
# The life of a lease
-/
namespace GudeAgents.RateLimit
open Framework List AList Entry MemoryStore
def Entry.id : Entry → String
  | .admitted _ r => r.id
  | .settled _ id _ _ _ => id
  | .dropped _ id => id

/-- How and when a lease may be settled, and with which amount: a negative amount stands for the
reserved one. -/
inductive Settles (time : Int) (lease : MemoryLease) : LeaseState → Int → Prop where
  | committed {actual : Int} (hopen : time<lease.pendingUntil) (hactual : 0≤actual) :
      Settles time lease .committed actual
  | released (hopen : time<lease.pendingUntil) : Settles time lease .released (-1)
  | expired (hdue : lease.pendingUntil≤time) : Settles time lease .expired (-1)

/-- The journal of an identifier, and the lease it leaves in a store of this configuration. -/
inductive Lifecycle (config : StoreConfig) (id : String) :
    List Entry → Option MemoryLease → Prop where
  | nil : Lifecycle config id [] none
  | other {journal : List Entry} {lease : Option MemoryLease} {e : Entry} (he : e.id≠id)
      (before : Lifecycle config id journal lease) : Lifecycle config id (journal++[e]) lease
  | admitted {journal : List Entry} {time : Int} {r : Reservation} (hid : r.id=id)
      (before : Lifecycle config id journal none) :
      Lifecycle config id (journal++[.admitted time r]) (some ((new config).newLease time r))
  | settled {journal : List Entry} {time : Int} {lease : MemoryLease} {state : LeaseState}
      {actual : Int} (hpending : lease.state=.pending)
      (hsettles : Settles time lease state actual)
      (before : Lifecycle config id journal (some lease)) :
      Lifecycle config id (journal++[.settled time id state lease.tokens actual])
        (some (lease.closed state (time+(new config).terminalTTL lease.window)))
  | dropped {journal : List Entry} {time : Int} {lease : MemoryLease}
      (hterminal : lease.state≠.pending) (hdue : lease.terminalUntil≤time)
      (before : Lifecycle config id journal (some lease)) :
      Lifecycle config id (journal++[.dropped time id]) none

def Entry.isAdmitted (id : String) : Entry → Bool
  | .admitted _ r => r.id=id
  | _ => false
def Entry.isSettled (id : String) : Entry → Bool
  | .settled _ id' _ _ _ => id'=id
  | _ => false
def openLeases : Option MemoryLease → Nat
  | some lease => if lease.state=.pending then 1 else 0
  | none => 0

variable {id : String}
theorem Lifecycle.settled_once {config : StoreConfig} {journal : List Entry}
    {lease : Option MemoryLease} (h : Lifecycle config id journal lease) :
    journal.countP (isAdmitted id) = journal.countP (isSettled id)+openLeases lease := by
  induction h with
  | nil => rfl
  | @other journal lease e he before ih =>
    rw [countP_append,countP_append,ih]
    cases e with
    | admitted time r =>
      have hne : r.id≠id := he
      simp [isAdmitted,isSettled,hne]
    | settled time id' state tokens actual =>
      have hne : id'≠id := he
      simp [isAdmitted,isSettled,hne]
    | dropped time id' => simp [isAdmitted,isSettled]
  | admitted hid before ih =>
    rw [countP_append,countP_append,ih]
    simp [isAdmitted,isSettled,openLeases,newLease,hid]
  | @settled journal time lease state actual hpending hsettles before ih =>
    have hclosed : ∀ until_, openLeases (some (lease.closed state until_))=0 := by
      intro until_
      cases hsettles with
      | committed _ _ | released _ | expired _ => rfl
    rw [countP_append,countP_append,ih,hclosed]
    simp [isAdmitted,isSettled,openLeases,hpending]
  | dropped hterminal hdue before ih =>
    rw [countP_append,countP_append,ih]
    simp [isAdmitted,isSettled,openLeases,hterminal]

variable {ok : MemoryStore → Int → Call → Prop}
variable {lease : MemoryLease}
namespace MemoryStore
variable {config : StoreConfig} {s s' : MemoryStore} {now : Int} {call : Call} {final : Bool}
private theorem terminalTTL_congr (h : s.config=s'.config) : s.terminalTTL=s'.terminalTTL := by
  funext w
  rw [terminalTTL,terminalTTL,h]
theorem newLease_congr (h : s.config=s'.config) (now : Int) (r : Reservation) :
    s.newLease now r=s'.newLease now r := by
  unfold newLease pendingTTL terminalTTL
  rw [h]

/-- What the journal says about every identifier agrees with the leases of the store. -/
structure Chronicled (config : StoreConfig) (s : MemoryStore) : Prop where
  config_eq : s.config=config
  lifecycle : ∀ id, Lifecycle config id s.journal (s.leases.lookup id)

private theorem chronicled_new (config : StoreConfig) : Chronicled config (new config) where
  config_eq := rfl
  lifecycle _ := .nil

theorem Chronicled.close (h : Chronicled config s) (hlease : s.leases.lookup id=some lease)
    (hpending : lease.state=.pending) {state : LeaseState} {actual : Int}
    (hsettles : Settles now lease state actual) :
    Chronicled config (s.close now id lease state actual) where
  config_eq := by
    rw [close_config]
    exact h.config_eq
  lifecycle id' := by
    have hbefore := h.lifecycle id'
    rw [close_journal,close_leases]
    by_cases heq : id'=id
    · subst heq
      rw [hlease] at hbefore
      have httl : s.terminalTTL=(new config).terminalTTL := terminalTTL_congr h.config_eq
      rw [lookup_insert,httl]
      exact .settled hpending hsettles hbefore
    · rw [lookup_insert_ne heq]
      exact .other (Ne.symm heq) hbefore

theorem Move.chronicled (hm : Move now call s final s') (h : Chronicled config s) :
    Chronicled config s' := by
  cases hm with
  | prune hreserve hvalid hslot => exact ⟨h.config_eq,h.lifecycle⟩
  | expire hlease hpending hdue => exact h.close hlease hpending (.expired hdue)
  | @drop id lease hlease hterminal hdue =>
    refine ⟨h.config_eq,fun id' => ?_⟩
    have hbefore := h.lifecycle id'
    by_cases heq : id'=id
    · subst heq
      rw [hlease] at hbefore
      rw [MemoryStore.drop,lookup_erase]
      exact .dropped hterminal hdue hbefore
    · rw [MemoryStore.drop,lookup_erase_ne heq]
      exact .other (Ne.symm heq) hbefore
  | close hlease hpending hopen hcloses =>
    cases hcloses with
    | committed hcommit => exact h.close hlease hpending (.committed hopen (by omega))
    | released hrelease => exact h.close hlease hpending (.released hopen)
  | @grant r hreserve hvalid hnew hrequests htokens =>
    refine ⟨?_,fun id' => ?_⟩
    · show (s.addCounts now r).config=config
      rw [addCounts_config]
      exact h.config_eq
    · have hbefore := h.lifecycle id'
      have hleases : (s.grant now r).leases =
          s.leases.insert r.id ((new config).newLease now r) := by
        have hconfig : (s.addCounts now r).config=(new config).config :=
          (addCounts_config r).trans h.config_eq
        rw [MemoryStore.grant]
        rw [addCounts_leases,newLease_congr hconfig]
      rw [grant_journal,hleases]
      by_cases heq : id'=r.id
      · subst heq
        rw [hnew] at hbefore
        rw [lookup_insert]
        exact .admitted rfl hbefore
      · rw [lookup_insert_ne heq]
        exact .other (Ne.symm heq) hbefore

theorem Run.chronicled {last : Int} (h : Run config ok last s) : Chronicled config s := by
  apply h.invariant (I := fun _ s => Chronicled config s)
  · intro now
    exact chronicled_new config
  · intro last now s _ hs
    exact hs
  · intro now call s0 s final s' _ _ _ _ hmove hs
    exact hmove.chronicled hs
end MemoryStore
/-- A token counter holds the end of a list of charges: the part since its last pruning or
rollover. -/
def MemoryCounter.Holds (c : MemoryCounter) (charged : List TokenEvent) : Prop :=
  ∃ old new, charged=old++new ∧ (c.strategy≠.fixedWindow → c.tokens=new) ∧
    (c.strategy=.fixedWindow → c.fixedTokens=wrap64 (new.map TokenEvent.tokens).sum)

namespace MemoryCounter
variable {c : MemoryCounter} {charged : List TokenEvent} {now : Int}
private theorem holds_fresh (slot : Slot) : slot.fresh.Holds [] :=
  ⟨[],[],rfl,fun _ => rfl,fun _ => rfl⟩

theorem Holds.prune (h : c.Holds charged) : (c.prune now).Holds charged := by
  obtain ⟨old,new,hcharged,hsliding,hfixed⟩ := h
  unfold MemoryCounter.prune
  by_cases hstrategy : c.strategy=.fixedWindow
  · rw [if_pos hstrategy]
    split
    · exact ⟨charged,[],(append_nil _).symm,fun hne => absurd hstrategy hne,fun _ => rfl⟩
    · exact ⟨old,new,hcharged,hsliding,hfixed⟩
  · rw [if_neg hstrategy]
    obtain ⟨k,hk⟩ : ∃ k, pruneTokenEvents c.tokens (now - c.window)=c.tokens.drop k :=
      ⟨_,rfl⟩
    refine ⟨old++new.take k,new.drop k,?_,fun _ => ?_,fun heq => absurd heq hstrategy⟩
    · rw [append_assoc,take_append_drop]
      exact hcharged
    · rw [← hsliding hstrategy]
      exact hk

theorem Holds.addTokens (h : c.Holds charged) (n : Int) : (c.addTokens now n).Holds
    (charged++([⟨now,n⟩] : List TokenEvent).filter fun e => 0<e.tokens) := by
  obtain ⟨old,new,hcharged,hsliding,hfixed⟩ := h
  unfold MemoryCounter.addTokens
  by_cases hn : n≤0
  · rw [if_pos hn,filter_cons_of_neg (by simpa using hn),filter_nil,append_nil]
    exact ⟨old,new,hcharged,hsliding,hfixed⟩
  · rw [if_neg hn,filter_cons_of_pos (by simpa using hn),filter_nil,hcharged,append_assoc]
    refine ⟨old,new++[⟨now,n⟩],rfl,?_,?_⟩
    · intro hstrategy
      by_cases heq : c.strategy=.fixedWindow
      · rw [if_pos heq] at hstrategy
        exact absurd heq hstrategy
      · rw [if_neg heq]
        rw [hsliding heq]
    · intro hstrategy
      by_cases heq : c.strategy=.fixedWindow
      · rw [if_pos heq]
        rw [hfixed heq,wrap64_add_wrap64_left]
        simp
      · rw [if_neg heq] at hstrategy
        exact absurd hstrategy heq

theorem settle_eq (c : MemoryCounter) (now amount actual : Int) :
    let c' := c.prune now
    let charge := if actual<0 then amount else actual
    c.settle now amount actual={ c' with
      reserved := max 0 (wrap64 (c'.reserved-amount))
      tokens := if c'.strategy≠.fixedWindow ∧ 0<charge then c'.tokens++[⟨now,charge⟩]
        else c'.tokens
      fixedTokens := if c'.strategy=.fixedWindow ∧ 0<charge then
        wrap64 (c'.fixedTokens+charge) else c'.fixedTokens } := by
  have hmax : ∀ x : Int, (if x<0 then 0 else x)=max 0 x := by omega
  simp only [settle,unreserve,addTokens,chargeOf,hmax]
  split_ifs <;> simp_all <;> omega

theorem Holds.settle (h : c.Holds charged) (amount actual : Int) :
    (c.settle now amount actual).Holds (charged ++
      ([⟨now,chargeOf amount actual⟩] : List TokenEvent).filter fun e => 0<e.tokens) := by
  have hpruned : (c.prune now).Holds charged := h.prune
  obtain ⟨old,new,hcharged,hsliding,hfixed⟩ := hpruned
  apply Holds.addTokens
  exact ⟨old,new,hcharged,hsliding,hfixed⟩
end MemoryCounter
variable {r : Reservation}
namespace MemoryStore
variable {config : StoreConfig} {s s' : MemoryStore} {now : Int} {call : Call} {final : Bool}
/-- The token counters hold the given charges of their keys; a missing counter was never
charged. -/
def HoldsCharges (charged : String → List TokenEvent) (s : MemoryStore) : Prop :=
  ∀ key, match s.counters.lookup ("t:"++key) with
    | some c => c.Holds (charged key)
    | none => charged key=[]

variable {charged : String → List TokenEvent}
variable {charged' : String → List TokenEvent}
section
variable (h : s.HoldsCharges charged)
include h
theorem HoldsCharges.congr (hcounters : s'.counters=s.counters)
    (hcharged : ∀ key, charged' key=charged key) : s'.HoldsCharges charged' := by
  intro key
  rw [hcounters,hcharged]
  exact h key

theorem HoldsCharges.counter (r : TokenReservation) : (s.counter r.slot).Holds (charged r.key) := by
  have hkey := h r.key
  have hname : r.slot.name="t:"++r.key := rfl
  rw [MemoryStore.counter,hname]
  cases hc : s.counters.lookup ("t:"++r.key) with
  | none =>
    rw [hc] at hkey
    have hnone : charged r.key=[] := hkey
    rw [hnone]
    exact MemoryCounter.holds_fresh _
  | some c =>
    rw [hc] at hkey
    exact hkey

theorem HoldsCharges.update (r : TokenReservation) {f : MemoryCounter → MemoryCounter}
    (hf : (f (s.counter r.slot)).Holds (charged' r.key))
    (hother : ∀ key, key≠r.key → charged' key=charged key) :
    (s.update r.slot f).HoldsCharges charged' := by
  intro key
  have hname : r.slot.name="t:"++r.key := rfl
  rw [lookup_update,hname]
  by_cases heq : "t:"++r.key="t:"++key
  · have hkey : key=r.key := by
      have := (String.append_right_inj "t:").mp heq
      exact this.symm
    rw [if_pos heq,hkey]
    exact hf
  · rw [if_neg heq,hother key (fun hkey => heq (by rw [hkey]))]
    exact h key

theorem HoldsCharges.updateRequest (r : RequestCounter) (f : MemoryCounter → MemoryCounter) :
    (s.update r.slot f).HoldsCharges charged := by
  intro key
  have hname : r.slot.name≠"t:"++key := request_name_ne_token _ _
  rw [lookup_update,if_neg hname]
  exact h key
end
private theorem chargesOf_cons (key : String) (time : Int) (r : TokenReservation)
    (rest : List TokenReservation) (actual : Int) : chargesOf key time (r::rest) actual =
      chargesOf key time [r] actual++chargesOf key time rest actual := by
  rw [chargesOf,chargesOf,chargesOf,← filter_append,← map_append,← filter_append]
  rfl

theorem HoldsCharges.settle (h : s.HoldsCharges charged) (tokens : List TokenReservation)
    (actual : Int) : (s.settle now tokens actual).HoldsCharges
      fun key => charged key++chargesOf key now tokens actual := by
  induction tokens generalizing s charged with
  | nil => exact h.congr rfl fun key => append_nil _
  | cons r rest ih =>
    have hfirst : (s.update r.slot (·.settle now r.amount actual)).HoldsCharges
        fun key => charged key++chargesOf key now [r] actual := by
      apply h.update r
      · have hnodup : ([r].map TokenReservation.key).Nodup := nodup_singleton _
        rw [chargesOf_of_mem hnodup (mem_singleton_self r)]
        exact (h.counter r).settle _ _
      · intro key hkey
        rw [chargesOf_of_notMem (by simpa using hkey),append_nil]
    refine (ih hfirst).congr rfl fun key => ?_
    rw [append_assoc,← chargesOf_cons]

theorem HoldsCharges.addCounts (h : s.HoldsCharges charged) (r : Reservation) :
    (s.addCounts now r).HoldsCharges charged := by
  refine updateAll_keeps ?_ (updateAll_keeps ?_ h)
  · intro s x _ hs
    exact hs.update x (hs.counter x) fun _ _ => rfl
  · intro s x _ hs
    exact hs.updateRequest x _

theorem HoldsCharges.close {state : LeaseState} {actual : Int}
    (h : s.HoldsCharges fun key => charges key s.journal) :
    (s.close now id lease state actual).HoldsCharges
      fun key => charges key (s.close now id lease state actual).journal := by
  refine (h.settle lease.tokens actual).congr rfl fun key => ?_
  rw [close_journal,charges_append]
  rfl

theorem HoldsCharges.prune (h : s.HoldsCharges charged) {slot : Slot} (hslot : slot∈r.slots) :
    (s.update slot (·.prune now)).HoldsCharges charged := by
  rcases mem_append.mp hslot with hreq | htok
  · obtain ⟨c,-,rfl⟩ := mem_map.mp hreq
    exact h.updateRequest c _
  · obtain ⟨c,-,rfl⟩ := mem_map.mp htok
    exact h.update c (h.counter c).prune fun _ _ => rfl

theorem Move.holdsCharges (hm : Move now call s final s')
    (h : s.HoldsCharges fun key => charges key s.journal) :
    s'.HoldsCharges fun key => charges key s'.journal := by
  cases hm with
  | prune hreserve hvalid hslot => exact h.prune hslot
  | expire hlease hpending hdue | close hlease hpending hopen hcloses => exact h.close
  | drop hlease hterminal hdue => exact h.congr rfl fun key => charges_drop _
  | @grant r hreserve hvalid hnew hrequests htokens =>
    exact (h.addCounts r).congr rfl fun key => charges_grant r

theorem Run.holdsCharges {last : Int} (h : Run config ok last s) :
    s.HoldsCharges fun key => charges key s.journal := by
  apply h.invariant (I := fun _ s => s.HoldsCharges fun key => charges key s.journal)
  · intro now key
    rfl
  · intro last now s _ hs
    exact hs
  · intro now call s0 s final s' _ _ _ _ hmove hs
    exact hmove.holdsCharges hs
end MemoryStore
/-- The second counter records nothing that the first did not: it keeps the end of each list of
events, and every total either stays or restarts from zero. -/
structure MemoryCounter.Forgets (c c' : MemoryCounter) : Prop where
  requests : c'.requests <:+ c.requests
  tokens : c'.tokens <:+ c.tokens
  reserved : c'.reserved=c.reserved ∨ c'.reserved=0
  fixedRequests : c'.fixedRequests=c.fixedRequests ∨ c'.fixedRequests=0
  fixedTokens : c'.fixedTokens=c.fixedTokens ∨ c'.fixedTokens=0

namespace MemoryCounter
theorem Forgets.refl (c : MemoryCounter) : c.Forgets c :=
  ⟨suffix_rfl,suffix_rfl,Or.inl rfl,Or.inl rfl,Or.inl rfl⟩

theorem Forgets.trans {c c' c'' : MemoryCounter} (h : c.Forgets c') (h' : c'.Forgets c'') :
    c.Forgets c'' := by
  have htotal : ∀ {x y z : Int}, (y=x ∨ y=0) → (z=y ∨ z=0) → z=x ∨ z=0 := by
    intro x y z hxy hyz
    omega
  exact ⟨h'.requests.trans h.requests,h'.tokens.trans h.tokens,htotal h.reserved h'.reserved,
    htotal h.fixedRequests h'.fixedRequests,htotal h.fixedTokens h'.fixedTokens⟩

private theorem prune_forgets (c : MemoryCounter) (now : Int) : c.Forgets (c.prune now) := by
  unfold prune
  split
  · split
    · exact ⟨suffix_rfl,suffix_rfl,Or.inr rfl,Or.inr rfl,Or.inr rfl⟩
    · exact Forgets.refl c
  · exact ⟨drop_suffix _ _,drop_suffix _ _,Or.inl rfl,Or.inl rfl,Or.inl rfl⟩
end MemoryCounter
namespace MemoryStore
variable {config : StoreConfig} {s s' : MemoryStore} {now : Int}
def recorded (s : MemoryStore) (name : String) : MemoryCounter :=
  (s.counters.lookup name).getD { strategy := .slidingWindow, window := 0 }

private theorem prune_recorded (s : MemoryStore) (slot : Slot) (now : Int) (name : String) :
    (s.recorded name).Forgets ((s.update slot (·.prune now)).recorded name) := by
  unfold recorded
  rw [lookup_update]
  by_cases hname : slot.name=name
  · rw [if_pos hname,counter,hname]
    cases s.counters.lookup name with
    | some c => exact c.prune_forgets now
    | none =>
      have hfresh := slot.fresh.prune_forgets now
      exact ⟨hfresh.requests,hfresh.tokens,hfresh.reserved,hfresh.fixedRequests,hfresh.fixedTokens⟩
  · rw [if_neg hname]
    exact MemoryCounter.Forgets.refl _

private theorem checkAll_recorded {ρ : Type} {slot : ρ → Slot} {full : MemoryCounter → ρ → Bool}
    (l : List ρ) (name : String) :
    (s.recorded name).Forgets ((checkAll now slot full s l).1.recorded name) := by
  refine checkAll_keeps (P := fun u => (s.recorded name).Forgets (u.recorded name)) ?_
    (MemoryCounter.Forgets.refl _)
  intro u x _ h
  exact h.trans (prune_recorded u (slot x) now name)

private theorem tryAdmit_rejected (h : (s.tryAdmit now r).2=false) :
    (s.tryAdmit now r).1.leases=s.leases ∧ (s.tryAdmit now r).1.journal=s.journal ∧
      ∀ name, (s.recorded name).Forgets ((s.tryAdmit now r).1.recorded name) := by
  rw [tryAdmit_eq] at h ⊢
  split at h
  · rename_i hrequests
    split at h
    · cases h
    · rename_i htokens
      rw [if_pos hrequests,if_neg htokens]
      refine ⟨?_,?_,fun name => ?_⟩
      · rw [checkAll_leases,checkAll_leases]
      · rw [checkAll_journal,checkAll_journal]
      · exact (checkAll_recorded r.requests name).trans (checkAll_recorded r.tokens name)
  · rename_i hrequests
    rw [if_neg hrequests]
    refine ⟨?_,?_,fun name => ?_⟩
    · rw [checkAll_leases]
    · rw [checkAll_journal]
    · exact checkAll_recorded r.requests name

variable {order : List String}
theorem reserve_rejected {ctx : Option ContextError} (h : (s.reserve ctx now order r).2=.ok false) :
    (s.reserve ctx now order r).1.leases=(s.cleanup now order).leases ∧
      (s.reserve ctx now order r).1.journal=(s.cleanup now order).journal ∧
      ∀ name, ((s.cleanup now order).recorded name).Forgets
        ((s.reserve ctx now order r).1.recorded name) := by
  unfold reserve at h ⊢
  cases ctx with
  | some cause => cases h
  | none =>
    dsimp only at h ⊢
    split at h
    · cases h
    · rename_i hid
      rw [if_neg hid]
      cases hvalid : validateReservation r with
      | some err =>
        rw [hvalid] at h
        cases h
      | none =>
        rw [hvalid] at h
        dsimp only at h ⊢
        split at h
        · cases h
        · rename_i hnew
          rw [if_neg hnew]
          exact tryAdmit_rejected (Except.ok.inj h)

section operations
variable {id : String} {lease : MemoryLease} {order : List String}
theorem tidied_of_open (hpending : lease.state=.pending) (hopen : now<lease.pendingUntil) :
    s.tidied now lease=some lease := by
  have hnot : ¬(lease.state=.pending ∧ lease.pendingUntil≤now) := by omega
  unfold tidied
  rw [if_neg hnot]
  exact if_neg fun h => h.1 hpending

theorem terminate_of_open (horder : s.Visits order) (hlease : s.leases.lookup id=some lease)
    (hpending : lease.state=.pending) (hopen : now<lease.pendingUntil) (requested : LeaseState)
    (actual : Int) : s.terminate now order id requested actual =
      ((s.cleanup now order).close now id lease requested actual,none) := by
  have hl : (s.cleanup now order).leases.lookup id=some lease := by
    rw [cleanup_lookup horder,hlease]
    exact tidied_of_open hpending hopen
  rw [terminate,hl]
  exact if_neg (not_not_intro hpending)

private theorem terminate_of_closed (horder : s.Visits order) {closed : MemoryLease}
    (hlease : s.leases.lookup id=some lease) (htidied : s.tidied now lease=some closed)
    (hterminal : closed.state≠.pending) (requested : LeaseState) (actual : Int) :
    s.terminate now order id requested actual =
      (s.cleanup now order,some (terminalError closed.state requested)) := by
  have hl : (s.cleanup now order).leases.lookup id=some closed := by
    rw [cleanup_lookup horder,hlease]
    exact htidied
  rw [terminate,hl]
  exact if_pos hterminal

theorem commit_eq_terminate (s : MemoryStore) (now : Int) (order : List String) (id : String)
    (actual : Int) : s.commit none now order id actual =
      s.terminate now order id .committed (max actual 0) := by
  have hmax : (if actual<0 then 0 else actual)=max actual 0 := by omega
  rw [commit,hmax]

private theorem reserve_of_known (horder : s.Visits order) (hlease : s.leases.lookup id=some lease)
    {closed : MemoryLease} (htidied : s.tidied now lease=some closed) (hid : r.id=id)
    (hne : id≠"") (hvalid : validateReservation r=none) :
    s.reserve none now order r=(s.cleanup now order,.ok true) := by
  have hl : (s.cleanup now order).leases.lookup r.id=some closed := by
    rw [cleanup_lookup horder,hid,hlease]
    exact htidied
  unfold reserve
  dsimp only
  rw [if_neg (hid ▸ hne),hvalid]
  rw [hl]
  rfl

private theorem cleanup_counters_of_quiet (order : List String)
    (hquiet : ∀ id lease, s.leases.lookup id=some lease → lease.state=.pending →
      now<lease.pendingUntil) : (s.cleanup now order).counters=s.counters := by
  induction order generalizing s with
  | nil => rfl
  | cons head rest ih =>
    have hexpire : s.expire now head=s := by
      rcases expire_cases s now head with heq | ⟨l,hl,hpending,hdue,-⟩
      · exact heq
      · have hopen := hquiet head l hl hpending
        omega
    show (((s.expire now head).forget now head).cleanup now rest).counters=s.counters
    rw [hexpire]
    rcases forget_cases s now head with heq | ⟨l,-,-,-,heq⟩
    · rw [heq]
      exact ih hquiet
    · rw [heq,ih]
      · rfl
      · intro id lease hlease
        exact hquiet id lease (FiniteMap.of_lookup_erase hlease).2
end operations
theorem Move.mem_journal {call : Call} {final : Bool} (hm : Move now call s final s') {e : Entry}
    (he : e∈s.journal) : e∈s'.journal := by
  cases hm with
  | prune hreserve hvalid hslot => exact he
  | expire hlease hpending hdue | close hlease hpending hopen hcloses =>
    rw [close_journal]
    exact mem_append_left _ he
  | drop hlease hterminal hdue => exact mem_append_left _ he
  | grant hreserve hvalid hnew hrequests htokens =>
    rw [grant_journal]
    exact mem_append_left _ he

theorem Tidies.mem_journal {call : Call} (hm : Tidies now call s s') {e : Entry}
    (he : e∈s.journal) : e∈s'.journal := by
  induction hm with
  | refl => exact he
  | tail _ hstep ih => exact hstep.mem_journal ih

private theorem cleanup_expires (hid : id∈order) (hlease : s.leases.lookup id=some lease)
    (hpending : lease.state=.pending) (hdue : lease.pendingUntil≤now) :
    settled now id .expired lease.tokens (-1)∈(s.cleanup now order).journal := by
  induction order generalizing s with
  | nil => cases hid
  | cons head rest ih =>
    by_cases heq : id=head
    · subst heq
      have hexpire : settled now id .expired lease.tokens (-1) ∈ (s.expire now id).journal := by
        rw [expire,hlease]
        dsimp only
        rw [if_pos ⟨hpending,hdue⟩,close_journal]
        exact mem_append_right _ (mem_singleton_self _)
      have hrest : Tidies now (.release id) (s.expire now id)
          (((s.expire now id).forget now id).cleanup now rest) :=
        (forget_tidies id).trans (cleanup_tidies rest)
      exact hrest.mem_journal hexpire
    · apply ih
      · exact (mem_cons.mp hid).resolve_left heq
      · rw [visit_lookup_of_ne heq]
        exact hlease

private theorem mem_of_visits (horder : s.Visits order) (hlease : s.leases.lookup id=some lease) :
    id∈order := by
  rw [horder.mem_iff,← AList.mem_keys,← AList.lookup_isSome,hlease]
  rfl

/-- The terminal record the store has for an identifier at a time: of a lease settled before, or
of one whose deadline has passed by then. -/
def HasRecord (s : MemoryStore) (now : Int) (id : String) (record : MemoryLease) : Prop :=
  (s.leases.lookup id).bind (s.tidied now)=some record ∧ record.state≠.pending

structure LeaseRules (config : StoreConfig) (last : Int) (s : MemoryStore) : Prop where
  /-- Every lease is admitted, settled and dropped in this order, at its times and amounts. -/
  history : ∀ id, Lifecycle config id s.journal (s.leases.lookup id)
  /-- Every admission has exactly one settlement, or is still pending. -/
  once : ∀ id, s.journal.countP (isAdmitted id) =
    s.journal.countP (isSettled id)+openLeases (s.leases.lookup id)
  /-- The token counters hold charges of settlements, and nothing else. -/
  charged : s.HoldsCharges fun key => charges key s.journal
  /-- Before its deadline a commit settles a lease with the report, a release with the
  reservation. -/
  settles : ∀ now order id lease, last≤now → s.Visits order →
    s.leases.lookup id=some lease → lease.state=.pending → now<lease.pendingUntil →
    (∀ actual, s.commit none now order id actual =
      ((s.cleanup now order).close now id lease .committed (max actual 0),none)) ∧
    s.release none now order id=((s.cleanup now order).close now id lease .released (-1),none)
  /-- The settlement of a lease settles its reservations one after the other: each gives its amount
  back and charges the reported one, or its own if none is reported, at the time of settlement. -/
  accounts : ∀ now id lease state actual,
    (s.close now id lease state actual).counters=(s.settle now lease.tokens actual).counters ∧
    ∀ (front : List TokenReservation) (r : TokenReservation),
      let c := ((s.settle now front actual).counter r.slot).prune now
      let charge := if actual<0 then r.amount else actual
      (s.settle now (front++[r]) actual).counter r.slot={ c with
        reserved := max 0 (wrap64 (c.reserved-r.amount))
        tokens := if c.strategy≠.fixedWindow ∧ 0<charge then c.tokens++[⟨now,charge⟩]
          else c.tokens
        fixedTokens := if c.strategy=.fixedWindow ∧ 0<charge then
          wrap64 (c.fixedTokens+charge) else c.fixedTokens } ∧
      ∀ slot, slot.name≠r.slot.name → (s.settle now (front++[r]) actual).counter slot =
        (s.settle now front actual).counter slot
  /-- At the deadline the first operation of any kind settles it with the reservation. -/
  expires : ∀ now order id lease, last≤now → s.Visits order →
    s.leases.lookup id=some lease → lease.state=.pending → lease.pendingUntil≤now →
    settled now id .expired lease.tokens (-1)∈(s.cleanup now order).journal
  /-- Operations on a lease with a terminal record report its state and change nothing. -/
  terminal : ∀ now order id record, last≤now → s.Visits order → s.HasRecord now id record →
    (∀ actual, s.commit none now order id actual=(s.cleanup now order,
      some (if record.state=.expired then .leaseExpired
        else if record.state=.committed then .leaseTerminal else .leaseCrossTerminal))) ∧
    s.release none now order id=(s.cleanup now order,
      some (if record.state=.expired then .leaseExpired
        else if record.state=.released then .leaseTerminal else .leaseCrossTerminal)) ∧
    ∀ r, r.id=id → id≠"" → validateReservation r=none →
      s.reserve none now order r=(s.cleanup now order,.ok true)
  /-- The cleanup before every operation changes a counter only where a lease expires. -/
  quiet : ∀ now order, last≤now →
    (∀ id lease, s.leases.lookup id=some lease → lease.state=.pending →
      now<lease.pendingUntil) → (s.cleanup now order).counters=s.counters
  /-- A rejected reservation adds no lease, and counters only forget what has run out. -/
  rejected : ∀ now order r, last≤now → s.Visits order → (s.reserve none now order r).2=.ok false →
    (s.reserve none now order r).1.leases=(s.cleanup now order).leases ∧
      (s.reserve none now order r).1.journal=(s.cleanup now order).journal ∧
      ∀ name, ((s.cleanup now order).recorded name).Forgets
        ((s.reserve none now order r).1.recorded name)

private theorem terminate_of_record {now : Int} {record : MemoryLease} (horder : s.Visits order)
    (h : s.HasRecord now id record) (requested : LeaseState) (actual : Int) :
    s.terminate now order id requested actual =
      (s.cleanup now order,some (terminalError record.state requested)) := by
  obtain ⟨hrecord,hterminal⟩ := h
  obtain ⟨lease,hlease,htidied⟩ := Option.bind_eq_some_iff.mp hrecord
  exact terminate_of_closed horder hlease htidied hterminal requested actual

end MemoryStore
end GudeAgents.RateLimit
