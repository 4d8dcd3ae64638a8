import GudeAgents.RateLimit.Redis.Counters
namespace GudeAgents.RateLimit.Redis
open Framework List AList Function Database Expiring
variable {r : Reservation}
variable {c : TokenReservation}
section windows
theorem milliseconds_le {d d' : Int} (h : d≤d') : milliseconds d ≤ milliseconds d' :=
  Int.tdiv_le_tdiv (by decide) h

def span (p : Policy) (key : String) : Int := milliseconds (p.tokenWindow key)

theorem milliseconds_window {p : Policy} {tokens : List TokenReservation}
    (h : p.FollowsTokens tokens) (hc : c∈tokens) : milliseconds c.window=span p c.key := by
  have hslot := congrArg Slot.window (h.slot c hc)
  exact congrArg milliseconds hslot

theorem le_foldl_window {ρ : Type} (window : ρ → Int) (l : List ρ) (w : Int) :
    w≤l.foldl (fun w c => if w<window c then window c else w) w ∧
      ∀ c∈l, window c≤l.foldl (fun w c => if w<window c then window c else w) w := by
  induction l generalizing w with
  | nil => exact ⟨Int.le_refl w,fun c hc => by cases hc⟩
  | cons c rest ih =>
    obtain ⟨hle,hrest⟩ := ih (if w<window c then window c else w)
    have hboth : w≤(if w<window c then window c else w) ∧
        window c≤(if w<window c then window c else w) := by
      split <;> omega
    refine ⟨Int.le_trans hboth.1 hle,?_⟩
    intro c' hc'
    rcases mem_cons.mp hc' with rfl | hc'
    · exact Int.le_trans hboth.2 hle
    · exact hrest c' hc'

theorem le_reservationWindow (hc : c∈r.tokens) : c.window≤reservationWindow r :=
  (le_foldl_window TokenReservation.window r.tokens _).2 c hc

theorem le_effectiveTerminal (config : Config) (window : Int) :
    window≤config.effectiveTerminal window := by
  unfold Config.effectiveTerminal
  split
  · omega
  · exact Int.le_refl _

structure Valid (config : Config) (r : Reservation) : Prop where
  pendingTTL : 0≤config.pendingTTL
  tokens : ∀ c∈r.tokens, 0≤c.amount ∧ 0 < milliseconds c.window
  limits : ∀ c∈r.requests, 0<c.limit

theorem valid_of_validateReservation {config : Config} (h : validateReservation config r=none) :
    Valid config r := by
  unfold validateReservation at h
  split at h
  · cases h
  rename_i hconfig
  split at h
  · cases h
  split at h
  · cases h
  rename_i hrequests
  split at h
  · cases h
  rename_i htokens
  constructor
  · cases httl : config.leaseTTLs with
    | none => simp [Config.pendingTTL,httl]
    | some ttls =>
      simp only [httl,Option.isSome_some,true_and,not_or,not_le] at hconfig
      exact Int.le_of_lt hconfig.1
  · intro c hc
    simp only [any_eq_true,not_exists,not_and,Bool.or_eq_true,decide_eq_true_eq,not_or,
      Bool.not_eq_true',validTTL] at htokens
    have hc' := htokens c hc
    simp at hc'
    omega
  · intro c hc
    simp only [any_eq_true,not_exists,not_and,Bool.or_eq_true,decide_eq_true_eq,not_or,
      Bool.not_eq_true'] at hrequests
    have hc' := hrequests c hc
    omega

theorem Valid.effectivePending_nonneg {config : Config} (h : Valid config r) (window : Int) :
    0 ≤ milliseconds (config.effectivePending window) := by
  have hpending := h.pendingTTL
  have hnonneg : 0≤config.effectivePending window := by
    unfold Config.effectivePending
    dsimp only
    split
    · exact hpending
    · omega
  exact Int.tdiv_nonneg hnonneg (by decide)
end windows
/-- What a call changes: a refused reservation may prune, an admitted one enters its counters, a
settlement writes them again. -/
inductive Change (p : Policy) (db : Database) (now : Int) : Database → Prop
  | checked {db' : Database} (requests : ∀ key, db'.requests key=db.requests key ∨
        ∃ window, db'.requests key=(db.requests key).prune now window)
      (tokens : ∀ key, db'.tokens key=db.tokens key ∨
        db'.tokens key=(db.tokens key).prune now (span p key))
      (ledgers : db'.ledgers=db.ledgers) : Change p db now db'
  | entered {db' : Database} {r : Reservation} {pendingTTL terminalTTL : Int}
      (fresh : (db.ledgers r.id).get now=none) (follows : p.Follows r)
      (nonneg : 0≤pendingTTL)
      (counters : ∀ c∈r.tokens, 0≤c.amount ∧ 0<span p c.key ∧ span p c.key≤terminalTTL)
      (requests : ∀ key, db'.requests key=db.requests key ∨
        ∃ window, db'.requests key=((db.requests key).prune now window).enter now window r.id)
      (tokens : ∀ c∈r.tokens, db'.tokens c.key =
        ((db.tokens c.key).prune now (span p c.key)).enter now (span p c.key) r.id c.amount)
      (others : ∀ key, key∉r.tokens.map TokenReservation.key → db'.tokens key=db.tokens key)
      (ledgers : db'.ledgers=Function.update db.ledgers r.id
        (some ⟨⟨.pending,now+pendingTTL,terminalTTL,r.tokens,now⟩,
          some (now+(pendingTTL+terminalTTL))⟩)) : Change p db now db'
  | settled {id : String} {l : Ledger} {state : LeaseState} {actual : Int}
      (held : (db.ledgers id).get now=some l) (closed : state≠.pending)
      (fits : ∀ key, (db.tokens key).sum now+actual<2^53) :
      Change p db now ((db.settle now id actual l.tokens).close now id l state)

theorem Database.Exact.sum_lt {db : Database} {now : Int} {call : Call} (h : db.Exact now call)
    (key : String) : (db.tokens key).sum now<2^53 := by
  simpa using h key 0 mem_cons_self

namespace Change
variable {p : Policy} {config : Config} {db : Database} {now : Int}
theorem same : Change p db now db :=
  .checked (fun _ => Or.inl rfl) (fun _ => Or.inl rfl) rfl

theorem checkRequests_requests (db : Database) (now : Int) (hfollows : p.Follows r) (key : String) :
    (db.checkRequests now r.requests).1.requests key=db.requests key ∨
      ∃ window, (db.checkRequests now r.requests).1.requests key =
        (db.requests key).prune now window := by
  rcases checkEach_apply db.requests hfollows.distinct key with h | ⟨c,_,_,h⟩
  · exact Or.inl h
  · exact Or.inr ⟨_,h⟩

theorem checkTokens_tokens (db : Database) (now : Int) (hfollows : p.Follows r) (key : String) :
    (db.checkTokens now r.tokens).1.tokens key=db.tokens key ∨
      (db.checkTokens now r.tokens).1.tokens key=(db.tokens key).prune now (span p key) := by
  rcases checkEach_apply db.tokens hfollows.tokens.distinct key with h | ⟨c,hc,rfl,h⟩
  · exact Or.inl h
  · right
    rw [← milliseconds_window hfollows.tokens hc]
    exact h

theorem reserveScript {pendingTTL terminalTTL : Int} (hfollows : p.Follows r)
    (hnonneg : 0≤pendingTTL)
    (hcounters : ∀ c∈r.tokens, 0≤c.amount ∧ 0<span p c.key ∧ span p c.key≤terminalTTL)
    (hamounts : ∀ c∈r.tokens, c.amount<2^53) :
    Change p db now (db.reserveScript now r pendingTTL terminalTTL).1 := by
  have hrequests := checkRequests_requests db now hfollows
  unfold Database.reserveScript
  split
  · exact same
  · next hknown =>
    split
    · next db1 hreq =>
      obtain rfl : _ = db1 := congrArg Prod.fst hreq
      exact .checked hrequests (fun _ => .inl rfl) rfl
    · next db1 hreq =>
      obtain rfl : _ = db1 := congrArg Prod.fst hreq
      split
      · next db2 htok =>
        obtain rfl : _ = db2 := congrArg Prod.fst htok
        exact .checked hrequests (checkTokens_tokens _ now hfollows) rfl
      · next db2 htok =>
        obtain rfl : _ = db2 := congrArg Prod.fst htok
        have hreq' := checkEach_of_true db.requests (congrArg Prod.snd hreq)
        have htok' := checkEach_of_true db.tokens (congrArg Prod.snd htok)
        refine .entered (by simpa using hknown) hfollows hnonneg hcounters ?_ ?_ ?_ ?_
        · intro key
          simp only [enter,checkTokens,checkRequests,hreq']
          by_cases hkey : key∈r.requests.map RequestCounter.key
          · obtain ⟨c,hc,rfl⟩ := mem_map.mp hkey
            rw [updateEach_of_mem _ hfollows.distinct hc,updateEach_of_mem _ hfollows.distinct hc]
            exact .inr ⟨_,rfl⟩
          · rw [updateEach_of_notMem _ hkey,updateEach_of_notMem _ hkey]
            exact .inl rfl
        · intro c hc
          have hround : toFloat64 c.amount=c.amount :=
            toFloat64_eq (by have := hcounters c hc; have := hamounts c hc; omega)
          simp only [enter,checkTokens,checkRequests,htok']
          rw [updateEach_of_mem _ hfollows.tokens.distinct hc,
            updateEach_of_mem _ hfollows.tokens.distinct hc,milliseconds_window hfollows.tokens hc,
            hround]
        · intro key hkey
          simp only [enter,checkTokens,checkRequests,htok']
          rw [updateEach_of_notMem _ hkey,updateEach_of_notMem _ hkey]
        · show Function.update db.ledgers _ _ = _
          rw [expireAt_put]

theorem reserve (hfollows : p.Follows r) (hamounts : ∀ c∈r.tokens, c.amount<2^53) :
    Change p db now (db.reserve config now r).1 := by
  unfold Database.reserve
  cases hvalid : validateReservation config r with
  | some err => exact same
  | none =>
    have hr := valid_of_validateReservation hvalid
    refine reserveScript hfollows (hr.effectivePending_nonneg _) ?_ hamounts
    intro c hc
    obtain ⟨hamount,hwindow⟩ := hr.tokens c hc
    rw [← milliseconds_window hfollows.tokens hc]
    refine ⟨hamount,hwindow,?_⟩
    apply milliseconds_le
    exact Int.le_trans (le_reservationWindow hc) (le_effectiveTerminal config _)

theorem terminal {readAt : Int} (hle : readAt≤now) (id : String) {action : LeaseState}
    (haction : action≠.pending) {actual : Int}
    (hfits : ∀ key, ∀ n∈[-1,toFloat64 actual], (db.tokens key).sum now+n<2^53) :
    Change p db now (db.terminal readAt now id action actual).1 := by
  unfold Database.terminal
  cases hread : (db.ledgers id).get readAt with
  | none => exact same
  | some l =>
    dsimp only
    split
    · exact same
    · unfold terminalScript
      cases hnow : (db.ledgers id).get now with
      | none => exact same
      | some l' =>
        have hsame := get_of_le hle hnow
        rw [hread] at hsame
        cases hsame
        dsimp only
        split
        · exact same
        · split
          · exact .settled hnow (by decide) fun key => hfits key _ (by simp)
          · exact .settled hnow haction fun key => hfits key _ (by simp)
end Change
namespace TokenKeys
/-- The counter has the lease's amount since its admission, or lost it after one window. -/
def Holds (x : TokenKeys) (window last : Int) (id : String) (amount entered : Int) : Prop :=
  ((x.members.entries last).lookup id=some entered ∧
      (x.amounts.entries last).lookup id=some amount) ∨
    ((x.members.entries last).lookup id=none ∧ entered+window<last)

variable {x : TokenKeys} {window last now : Int} {id : String} {amount entered : Int}
theorem Holds.later (h : x.Holds window last id amount entered) (hkept : x.Kept window last)
    (hle : last≤now) : x.Holds window now id amount entered := by
  have hmembers := hkept.members now hle
  have hamounts := hkept.amounts now hle
  unfold Holds
  by_cases hidle : x.Idle window now
  · rw [if_pos hidle] at hmembers
    right
    refine ⟨by rw [hmembers]; rfl,?_⟩
    rcases h with ⟨hm,_⟩ | ⟨_,hlt⟩
    · obtain ⟨t,ht,hscore⟩ := hkept.scores id entered hm
      have hlt := hidle t ht
      omega
    · omega
  · rw [if_neg hidle] at hmembers hamounts
    rw [hmembers,hamounts]
    rcases h with hin | ⟨hm,hlt⟩
    · exact Or.inl hin
    · exact Or.inr ⟨hm,by omega⟩

theorem Holds.prune (h : x.Holds window now id amount entered) :
    (x.prune now window).Holds window now id amount entered := by
  unfold Holds
  rw [prune_members_lookup,prune_amounts_lookup]
  rcases h with ⟨hm,ha⟩ | ⟨hm,hlt⟩
  · by_cases hdue : id∈x.due now window
    · obtain ⟨score,hscore,hlt⟩ := mem_due.mp hdue
      rw [hm] at hscore
      cases hscore
      right
      exact ⟨if_pos hdue,hlt⟩
    · left
      rw [if_neg hdue,if_neg hdue]
      exact ⟨hm,ha⟩
  · right
    rw [hm,ite_self]
    exact ⟨rfl,hlt⟩

theorem Holds.record {id' : String} {amount' total : Int} (h : x.Holds window now id amount entered)
    (hwindow : 0≤window) (hne : id≠id') :
    (x.record now window id' amount' total).Holds window now id amount entered := by
  unfold Holds
  rw [record_members hwindow,record_amounts hwindow,lookup_insert_ne hne,lookup_insert_ne hne]
  exact h

theorem holds_record {total : Int} (hwindow : 0≤window) :
    (x.record now window id amount total).Holds window now id amount now := by
  left
  rw [record_members hwindow,record_amounts hwindow,lookup_insert,lookup_insert]
  exact ⟨rfl,rfl⟩
end TokenKeys
structure Sound (p : Policy) (last : Int) (db : Database) : Prop where
  counters : ∀ key, (db.tokens key).Kept (span p key) last
  requests : ∀ key, (db.requests key).Kept last
  ledgers : ∀ id l, (db.ledgers id).get last=some l → p.FollowsTokens l.tokens ∧
    ∀ c∈l.tokens, 0<span p c.key ∧ span p c.key≤l.terminalTTL
  recorded : ∀ key m score, ((db.tokens key).members.entries last).lookup m=some score →
    ∀ now, last≤now → now ≤ score+span p key →
      ∃ l, (db.ledgers m).get now=some l ∧ key∈l.tokens.map TokenReservation.key
  pending : ∀ id l, (db.ledgers id).get last=some l → l.state=.pending →
    ∀ c∈l.tokens, (db.tokens c.key).Holds (span p c.key) last id c.amount l.entered

namespace Sound
variable {p : Policy} {db db' : Database} {last now : Int}
theorem empty (p : Policy) (now : Int) : Sound p now .empty where
  counters key := {
    members := fun _ _ => (ite_self _).symm
    amounts := fun _ _ => (ite_self _).symm
    paired := fun _ _ => rfl
    nonneg := fun m a hm => by cases hm
    scores := fun m score hm => by cases hm
    dated := fun c hc => by cases hc
    past := fun t ht => by cases ht
    covers := Int.le_refl 0 }
  requests key := {
    scores := fun _ _ m score hm => by cases hm
    past := fun t ht => by cases ht }
  ledgers id l hl := by cases hl
  recorded key m score hm := by cases hm
  pending id l hl := by cases hl

theorem later (h : Sound p last db) (hle : last≤now) : Sound p now db where
  counters key := (h.counters key).later hle
  requests key := (h.requests key).later hle
  ledgers id l hl := h.ledgers id l (get_of_le hle hl)
  recorded key m score hm later hlater := by
    rw [(h.counters key).members now hle] at hm
    split at hm
    · cases hm
    · exact h.recorded key m score hm later (Int.le_trans hle hlater)
  pending id l hl hpending c hc :=
    (h.pending id l (get_of_le hle hl) hpending c hc).later (h.counters c.key) hle

section
variable (h : Sound p now db)
include h
theorem sum_nonneg (key : String) : 0≤(db.tokens key).sum now :=
  Int.le_trans (h.counters key).used_nonneg (h.counters key).covers

theorem after {config : Config} {readAt : Int} (hle : readAt≤now) {call : Call}
    (hfollows : MemoryStore.FollowingCall p call) (hexact : db.Exact now call) :
    Change p db now (db.after config readAt now call) := by
  have hsum := h.sum_nonneg
  cases call with
  | reserve r =>
    refine .reserve hfollows fun c hc => ?_
    have hfits := hexact c.key c.amount (by simp [amounts,mem_map_of_mem hc])
    have := hsum c.key
    omega
  | commit id actual =>
    refine .terminal hle id (by decide) fun key n hn => ?_
    have hzero := hexact.sum_lt key
    have hfits := hexact key actual (by simp [amounts])
    have := hsum key
    rw [toFloat64_eq (by split <;> omega)] at hn
    simp only [mem_cons,not_mem_nil,or_false] at hn
    split at hn <;> omega
  | release id =>
    refine .terminal hle id (by decide) fun key n hn => ?_
    have hzero := hexact.sum_lt key
    rw [toFloat64_eq (by decide)] at hn
    simp only [mem_cons,not_mem_nil,or_false] at hn
    omega

theorem settle_tokens {id : String} {l : Ledger} {actual : Int}
    (hl : (db.ledgers id).get now=some l) (hexact : ∀ key, (db.tokens key).sum now<2^53)
    (hfits : ∀ key, (db.tokens key).sum now+actual<2^53) (hc : c∈l.tokens) :
    (db.settle now id actual l.tokens).tokens c.key=(db.tokens c.key).record now (span p c.key) id
      ((db.tokens c.key).charge now id actual) ((db.tokens c.key).sum now -
        (db.tokens c.key).amount now id+(db.tokens c.key).charge now id actual) := by
  obtain ⟨hfollows,-⟩ := h.ledgers id l hl
  simp only [settle]
  rw [updateEach_of_mem _ hfollows.distinct hc,milliseconds_window hfollows hc,
    (h.counters c.key).settle_eq (hexact c.key) (hfits c.key)]

theorem checked (hexact : ∀ key, (db.tokens key).sum now<2^53) (hrequests : ∀ key, db'.requests key=db.requests key ∨
      ∃ window, db'.requests key=(db.requests key).prune now window)
    (htokens : ∀ key, db'.tokens key=db.tokens key ∨
      db'.tokens key=(db.tokens key).prune now (span p key))
    (hledgers : db'.ledgers=db.ledgers) : Sound p now db' where
  counters key := by
    rcases htokens key with heq | heq
    · rw [heq]
      exact h.counters key
    · rw [heq]
      exact (h.counters key).prune (hexact key)
  requests key := by
    rcases hrequests key with heq | ⟨window,heq⟩
    · rw [heq]
      exact h.requests key
    · rw [heq]
      exact (h.requests key).prune
  ledgers := by
    rw [hledgers]
    exact h.ledgers
  recorded key m score hm := by
    rw [hledgers]
    rcases htokens key with heq | heq
    · rw [heq] at hm
      exact h.recorded key m score hm
    · rw [heq,TokenKeys.prune_members_lookup] at hm
      split at hm
      · cases hm
      · exact h.recorded key m score hm
  pending id l hl hpending c hc := by
    rw [hledgers] at hl
    rcases htokens c.key with heq | heq
    · rw [heq]
      exact h.pending id l hl hpending c hc
    · rw [heq]
      exact (h.pending id l hl hpending c hc).prune

theorem lookup_fresh {id : String} (hfresh : (db.ledgers id).get now=none) (key : String) :
    (((db.tokens key).prune now (span p key)).members.entries now).lookup id=none := by
  rw [TokenKeys.prune_members_lookup]
  cases hm : ((db.tokens key).members.entries now).lookup id with
  | none => exact ite_self _
  | some score =>
    apply if_pos
    apply TokenKeys.mem_due.mpr
    refine ⟨score,hm,?_⟩
    by_contra hin
    obtain ⟨l,hl,_⟩ := h.recorded key id score hm now (Int.le_refl now) (by omega)
    rw [hfresh] at hl
    cases hl

theorem written {id : String} {new : Ledger} {deadline : Int}
    (hledgers : db'.ledgers=Function.update db.ledgers id (some ⟨new,some deadline⟩))
    (hfollows : p.FollowsTokens new.tokens)
    (hspans : ∀ c∈new.tokens, 0<span p c.key ∧ span p c.key≤new.terminalTTL)
    (hdeadline : now+new.terminalTTL≤deadline)
    (htokens : ∀ c∈new.tokens, ∃ amount total, 0≤amount ∧
      (db.tokens c.key).sum now-(db.tokens c.key).amount now id+amount≤total ∧
      (new.state=.pending → amount=c.amount ∧ new.entered=now) ∧
      db'.tokens c.key=(db.tokens c.key).record now (span p c.key) id amount total)
    (hothers : ∀ key, key∉new.tokens.map TokenReservation.key → db'.tokens key=db.tokens key)
    (hstale : ∀ key score, key∉new.tokens.map TokenReservation.key →
      ((db.tokens key).members.entries now).lookup id=some score → score+span p key<now)
    (hrequests : ∀ key, (db'.requests key).Kept now) : Sound p now db' where
  counters key := by
    by_cases hkey : key∈new.tokens.map TokenReservation.key
    · obtain ⟨c,hc,rfl⟩ := mem_map.mp hkey
      obtain ⟨amount,total,hamount,htotal,_,heq⟩ := htokens c hc
      rw [heq]
      exact (h.counters c.key).record (Int.le_of_lt (hspans c hc).1) hamount htotal
    · rw [hothers key hkey]
      exact h.counters key
  requests := hrequests
  ledgers id' l hl := by
    rw [hledgers] at hl
    by_cases hid : id'=id
    · subst hid
      rw [update_self,get_dated] at hl
      split at hl
      · cases hl
        exact ⟨hfollows,hspans⟩
      · cases hl
    · rw [update_of_ne hid] at hl
      exact h.ledgers id' l hl
  recorded key m score hm later hlater hin := by
    rw [hledgers]
    by_cases hid : m=id
    · subst hid
      rw [update_self,get_dated]
      by_cases hkey : key∈new.tokens.map TokenReservation.key
      · obtain ⟨c,hc,rfl⟩ := mem_map.mp hkey
        obtain ⟨amount,total,_,_,_,heq⟩ := htokens c hc
        obtain ⟨hpos,hspan⟩ := hspans c hc
        rw [heq,TokenKeys.record_members (Int.le_of_lt hpos),lookup_insert] at hm
        cases hm
        rw [if_pos (by omega)]
        exact ⟨new,rfl,hkey⟩
      · rw [hothers key hkey] at hm
        have hlt := hstale key score hkey hm
        omega
    · rw [update_of_ne hid]
      by_cases hkey : key∈new.tokens.map TokenReservation.key
      · obtain ⟨c,hc,rfl⟩ := mem_map.mp hkey
        obtain ⟨amount,total,_,_,_,heq⟩ := htokens c hc
        rw [heq,TokenKeys.record_members (Int.le_of_lt (hspans c hc).1),lookup_insert_ne hid] at hm
        exact h.recorded c.key m score hm later hlater hin
      · rw [hothers key hkey] at hm
        exact h.recorded key m score hm later hlater hin
  pending id' l hl hpending c hc := by
    rw [hledgers] at hl
    by_cases hid : id'=id
    · subst hid
      rw [update_self,get_dated] at hl
      split at hl
      · cases hl
        obtain ⟨amount,total,_,_,hstate,heq⟩ := htokens c hc
        obtain ⟨hamount,hentered⟩ := hstate hpending
        rw [heq,hentered,← hamount]
        exact TokenKeys.holds_record (Int.le_of_lt (hspans c hc).1)
      · cases hl
    · rw [update_of_ne hid] at hl
      have hholds := h.pending id' l hl hpending c hc
      by_cases hkey : c.key∈new.tokens.map TokenReservation.key
      · obtain ⟨c',hc',hsame⟩ := mem_map.mp hkey
        obtain ⟨amount,total,_,_,_,heq⟩ := htokens c' hc'
        rw [← hsame] at hholds ⊢
        rw [heq]
        exact hholds.record (Int.le_of_lt (hspans c' hc').1) hid
      · rw [hothers c.key hkey]
        exact hholds

theorem change (hexact : ∀ key, (db.tokens key).sum now<2^53)
    (hchange : Change p db now db') : Sound p now db' := by
  cases hchange with
  | checked requests tokens ledgers => exact h.checked hexact requests tokens ledgers
  | @entered _ r pendingTTL terminalTTL fresh follows nonneg counters requests tokens others
      ledgers =>
      -- the counters of the reservation are pruned before they are written
      let pruned : Database := { db with
        tokens := fun key => if key∈r.tokens.map TokenReservation.key then
          (db.tokens key).prune now (span p key) else db.tokens key }
      have hpruned : Sound p now pruned := by
        apply h.checked hexact
        · exact fun _ => Or.inl rfl
        · intro key
          by_cases hkey : key∈r.tokens.map TokenReservation.key
          · exact Or.inr (if_pos hkey)
          · exact Or.inl (if_neg hkey)
        · rfl
      have hmem : ∀ c∈r.tokens, pruned.tokens c.key = (db.tokens c.key).prune now (span p c.key) :=
        fun c hc => if_pos (mem_map_of_mem hc)
      have hother : ∀ key, key∉r.tokens.map TokenReservation.key →
          pruned.tokens key=db.tokens key := fun key hkey => if_neg hkey
      apply hpruned.written ledgers follows.tokens fun c hc => (counters c hc).2
      · show now+terminalTTL≤_
        omega
      · intro c hc
        obtain ⟨hamount,hspan,_⟩ := counters c hc
        refine ⟨c.amount,(pruned.tokens c.key).sum now+c.amount,hamount,?_,fun _ => ⟨rfl,rfl⟩,?_⟩
        · have hold := (hpruned.counters c.key).amount_le_used r.id
          omega
        · rw [tokens c hc,TokenKeys.enter_eq,hmem c hc]
      · intro key hkey
        rw [others key hkey,hother key hkey]
      · intro key score hkey hm
        rw [hother key hkey] at hm
        by_contra hin
        obtain ⟨l,hl,_⟩ := h.recorded key r.id score hm now (Int.le_refl now) (by omega)
        rw [fresh] at hl
        cases hl
      · intro key
        rcases requests key with heq | ⟨window,heq⟩
        · rw [heq]
          exact h.requests key
        · rw [heq]
          exact (h.requests key).prune.enter r.id
  | @settled id l state actual held closed fits =>
    obtain ⟨hfollows,hspans⟩ := h.ledgers id l held
    have hledgers : ((db.settle now id actual l.tokens).close now id l state).ledgers =
        Function.update db.ledgers id
          (some ⟨{ l with state := state },some (now + l.terminalTTL)⟩) := by
      rw [close,expireAt_put]
      rfl
    apply h.written hledgers hfollows hspans (Int.le_refl _)
    · intro c hc
      exact ⟨_,_,(h.counters c.key).charge_nonneg actual,Int.le_refl _,
        fun hpending => absurd hpending closed,h.settle_tokens held hexact fits hc⟩
    · intro key hkey
      simp only [close,settle]
      exact updateEach_of_notMem db.tokens hkey
    · intro key score hkey hm
      by_contra hin
      obtain ⟨l',hl',hmem⟩ := h.recorded key id score hm now (Int.le_refl now) (by omega)
      rw [held] at hl'
      cases hl'
      exact hkey hmem
    · exact h.requests
end
end Sound
variable {config : Config} {p : Policy} {ok : Database → Int → Prop} {last : Int} {db : Database}
theorem Run.sound (h : Run config p ok last db) : Sound p last db := by
  induction h with
  | start now => exact Sound.empty p now
  | call _ read clock follows exact _ ih =>
    have h := ih.later (Int.le_trans read clock)
    exact h.change exact.sum_lt (h.after clock follows exact)
end GudeAgents.RateLimit.Redis
