import GudeAgents.RateLimit.Redis.Ledgers
namespace GudeAgents.RateLimit.Redis
open Database
section
open Framework
variable {config : Config} {p : Policy} {db db' : Database} {last now : Int}
/-- The stored totals agree with the entries of their counters. -/
def Database.Consistent (db : Database) (now : Int) : Prop :=
  ∀ key, (db.tokens key).sum now=(db.tokens key).used now
def Database.IdleFor (db : Database) (now : Int) (r : Reservation) : Prop :=
  (∀ c∈r.requests, (db.requests c.key).Idle (milliseconds c.window) now) ∧
    ∀ c∈r.tokens, (db.tokens c.key).Idle (milliseconds c.window) now

instance (db : Database) (now : Int) (r : Reservation) : Decidable (db.IdleFor now r) :=
  inferInstanceAs (Decidable (_ ∧ _))

/-- After an idle window, what is within the limits is admitted. -/
def Recovers (config : Config) (p : Policy) (db : Database) (now : Int) : Prop :=
  ∀ r, p.Follows r → validateReservation config r=none → db.IdleFor now r →
    (∀ c∈r.tokens, c.amount≤c.limit ∧ c.limit<2^53) → (db.reserve config now r).2=.ok true

/-- No counter has been left alone for a window with a total that a refused reservation wrote. -/
def Tended (p : Policy) (db : Database) (now : Int) : Prop :=
  ∀ key, ¬(db.tokens key).Overdue (span p key) now

theorem Change.balanced (hchange : Change p db now db') (hsound : Sound p now db)
    (hexact : ∀ key, (db.tokens key).sum now<2^53) (htended : Tended p db now) (h : ∀ key, (db.tokens key).Balanced (span p key) now)
    (key : String) : (db'.tokens key).Balanced (span p key) now := by
  have hsum : (db.tokens key).sum now=(db.tokens key).used now :=
    h key now (Int.le_refl now) (htended key)
  have hkept := hsound.counters key
  cases hchange with
  | checked _ tokens _ =>
    rcases tokens key with heq | heq
    · rw [heq]
      exact h key
    · rw [heq]
      exact (h key).prune hkept (hexact key) (htended key)
  | @entered _ r _ _ fresh _ _ counters _ tokens others _ =>
    by_cases hkey : key∈r.tokens.map TokenReservation.key
    · obtain ⟨c,hc,rfl⟩ := List.mem_map.mp hkey
      obtain ⟨hamount,hspan,_⟩ := counters c hc
      -- a lease without a ledger has no amount in the pruned counter
      have hkept' := hkept.prune (hexact c.key)
      have hnone := hkept'.paired r.id (hsound.lookup_fresh fresh c.key)
      have hold : ((db.tokens c.key).prune now (span p c.key)).amount now r.id=0 := by
        rw [TokenKeys.amount,hnone]
        rfl
      have hpruned : ((db.tokens c.key).prune now (span p c.key)).sum now =
          ((db.tokens c.key).prune now (span p c.key)).used now := by
        rw [hkept.prune_sum (hexact c.key)]
        omega
      have hbalanced : (TokenKeys.record _ now (span p c.key) r.id c.amount _).Balanced _ now :=
        hkept'.balanced_record (Int.le_of_lt hspan) hpruned hamount
      rw [hold,Int.sub_zero] at hbalanced
      rw [tokens c hc,TokenKeys.enter_eq]
      exact hbalanced
    · rw [others key hkey]
      exact h key
  | @settled id l _ actual held _ fits =>
    by_cases hkey : key∈l.tokens.map TokenReservation.key
    · obtain ⟨c,hc,rfl⟩ := List.mem_map.mp hkey
      have htokens := hsound.settle_tokens held hexact fits hc
      have hspan := Int.le_of_lt ((hsound.ledgers id l held).2 c hc).1
      simp only [close,htokens]
      exact hkept.balanced_record hspan hsum (hkept.charge_nonneg actual)
    · simp only [close,settle]
      rw [updateEach_of_notMem _ hkey]
      exact h key

theorem Run.balanced (h : Run config p (Tended p) last db) (key : String) :
    (db.tokens key).Balanced (span p key) last := by
  induction h generalizing key with
  | start now =>
    intro now _ _
    rfl
  | call before read clock follows exact allowed ih =>
    have hle := Int.le_trans read clock
    have hsound := before.sound.later hle
    exact (hsound.after clock follows exact).balanced hsound exact.sum_lt allowed
      (fun key => (ih key).later hle) key

theorem reserveScript_admits {r : Reservation} {pendingTTL terminalTTL : Int}
    (hfollows : p.Follows r) (hrequests : ∀ c∈r.requests,
      ((db.requests c.key).prune now (milliseconds c.window)).card now<c.limit)
    (htokens : ∀ c∈r.tokens,
      toFloat64 (((db.tokens c.key).prune now (milliseconds c.window)).sum now +
        toFloat64 c.amount)≤toFloat64 c.limit) :
    (db.reserveScript now r pendingTTL terminalTTL).2=true := by
  have hreq : (db.checkRequests now r.requests).2=true := by
    apply (checkEach_iff db.requests hfollows.distinct).mpr
    intro c hc
    exact decide_eq_false (Int.not_le.mpr (hrequests c hc))
  have htok : ((db.checkRequests now r.requests).1.checkTokens now r.tokens).2=true := by
    apply (checkEach_iff db.tokens hfollows.tokens.distinct).mpr
    intro c hc
    exact decide_eq_false (Int.not_lt.mpr (htokens c hc))
  unfold reserveScript
  split
  · rfl
  · cases h1 : db.checkRequests now r.requests with
    | mk db1 free1 =>
      rw [h1] at hreq htok
      cases hreq
      dsimp only
      cases h2 : db1.checkTokens now r.tokens with
      | mk db2 free2 =>
        rw [h2] at htok
        cases htok
        rfl

theorem recovers_of_tended (h : Run config p (Tended p) last db) (hle : last≤now)
    (htended : Tended p db now) : Recovers config p db now := by
  intro r hfollows hvalid hidle hamounts
  have hsound := h.sound.later hle
  have valid := valid_of_validateReservation hvalid
  have hadmits : (db.reserveScript now r
      (milliseconds (config.effectivePending (reservationWindow r)))
      (milliseconds (config.effectiveTerminal (reservationWindow r)))).2=true := by
    apply reserveScript_admits hfollows
    · intro c hc
      rw [(hsound.requests c.key).card_prune_of_idle (hidle.1 c hc)]
      exact valid.limits c hc
    · intro c hc
      have hidle' := hidle.2 c hc
      rw [milliseconds_window hfollows.tokens hc] at hidle' ⊢
      rw [(hsound.counters c.key).sum_prune_of_idle ((h.balanced c.key).later hle) hidle'
        (htended c.key),Int.zero_add]
      obtain ⟨hamount,hlimit⟩ := hamounts c hc
      have hnonneg := (valid.tokens c hc).1
      rw [toFloat64_eq (n := c.amount) (by omega),toFloat64_eq (by omega),toFloat64_eq (by omega)]
      exact hamount
  rw [reserve,hvalid]
  exact congrArg Except.ok hadmits

/-- As long as the counters are tended, and no longer, the totals are consistent and idle counters
admit again. -/
theorem totals_consistent_iff (h : Run config p (Tended p) last db) (hle : last≤now) :
    db.Consistent now ∧ Recovers config p db now ↔ Tended p db now := by
  constructor
  · rintro ⟨hconsistent,_⟩ key ⟨hidle,c,hc,hdeadline,hpos⟩
    have hused := ((h.sound.counters key).used_eq hle)
    rw [if_pos hidle,← hconsistent key] at hused
    obtain ⟨value,deadline⟩ := c
    cases hdeadline
    have hsum : (db.tokens key).sum now=value := by
      rw [TokenKeys.sum,hc]
      rfl
    dsimp only at hpos
    omega
  · intro htended
    refine ⟨?_,recovers_of_tended h hle htended⟩
    intro key
    exact h.balanced key now hle (htended key)

def tenth : Policy :=
  .uniform .slidingWindow 10 10 100000000 (by decide) (by decide) (by decide)
def allReserved : Database := empty.after {} 0 0 (.reserve (tenth.reservation "a" "k" 10))

theorem allReserved_tokens {key : String} (hkey : key≠"k") : allReserved.tokens key={} :=
  (Function.update_of_ne hkey _ _).trans (Function.update_of_ne hkey _ _)

theorem allReserved_exact (now : Int) {call : Call} (h : ∀ n∈amounts call, n≤10) :
    allReserved.Exact now call := by
  intro key n hn
  have hsum : (allReserved.tokens key).sum now≤10 := by
    by_cases hkey : key="k"
    · have htotal : (allReserved.tokens "k").total=some ⟨10,some 100⟩ := rfl
      rw [hkey,TokenKeys.sum,htotal,Expiring.get_dated]
      split <;> decide
    · rw [allReserved_tokens hkey]
      exact (by decide : (0 : Int)≤10)
  rcases List.mem_cons.mp hn with rfl | hn
  · omega
  · have := h n hn
    omega

theorem run_allReserved {ok : Database → Int → Prop} (h : ok .empty 0) :
    Run {} tenth ok 0 allReserved := by
  refine .call (.start 0) (Int.le_refl 0) (Int.le_refl 0) (tenth.follows_reservation "a" "k" 10) ?_ h
  exact fun _ => (by decide : ∀ n∈[0,10], (0 : Int)+n<2^53)

theorem tended_allReserved : Tended tenth allReserved 151 := by
  rintro key ⟨_,c,hc,hdeadline,_⟩
  by_cases hkey : key="k"
  · subst hkey
    cases hc
    cases hdeadline
  · rw [allReserved_tokens hkey] at hc
    cases hc

theorem totals_consistent_after_window :
    allReserved.Consistent 151 ∧ Recovers {} tenth allReserved 151 :=
  (totals_consistent_iff (run_allReserved fun _ h => by cases h.2.choose_spec.1) (by decide)).mpr
    tended_allReserved

theorem total_outlives_counter : ∃ db, Run {} tenth (fun _ _ => True) 50 db ∧
    (db.tokens "k").sum 151=10 ∧ (db.tokens "k").used 151=0 ∧
    db.IdleFor 151 (tenth.reservation "c" "k" 1) ∧
    (db.reserve {} 151 (tenth.reservation "c" "k" 1)).2=.ok false := by
  refine ⟨allReserved.after {} 50 50 (.reserve (tenth.reservation "b" "k" 1)),?_,?_⟩
  · exact .call (run_allReserved trivial) (by decide) (by decide)
      (tenth.follows_reservation "b" "k" 1) (allReserved_exact 50 (by decide)) trivial
  · decide
end
open Framework
variable {config : Config} {p : Policy} {ok : Database → Int → Prop} {db : Database}
variable {last readAt now : Int} {id : String} {l : Ledger} {c : TokenReservation}
/-- A reservation at `now` finds the lease's amount in the counter, and compares its own with a
total that covers the amounts it finds. -/
structure Counts (x : TokenKeys) (now window : Int) (id : String) (amount : Int) : Prop where
  amount : (x.prune now window).amount now id=amount
  covered : (x.prune now window).used now≤(x.prune now window).sum now

/-- The counter has the amount as usage of the time `now`, covered by its total. -/
structure Charged (x : TokenKeys) (now : Int) (id : String) (amount : Int) : Prop where
  score : (x.members.entries now).lookup id=some now
  amount : x.amount now id=amount
  covered : x.used now≤x.sum now

namespace TokenKeys
variable {x : TokenKeys} {window entered amount : Int}
section
variable (h : x.Holds window now id amount entered) (hpaired : x.Paired now)
include h hpaired
theorem Holds.amount_eq (hin : now≤entered+window ∨ amount=0) : x.amount now id=amount := by
  rw [TokenKeys.amount]
  rcases h with ⟨_,ha⟩ | ⟨hm,hlt⟩
  · rw [ha]
    rfl
  · rw [hpaired.paired id hm]
    rcases hin with hin | hzero
    · omega
    · exact hzero.symm

theorem Holds.amount_prune :
    (x.prune now window).amount now id=if now≤entered+window then amount else 0 := by
  by_cases hin : now≤entered+window
  · rw [if_pos hin]
    exact h.prune.amount_eq hpaired.prune (Or.inl hin)
  · rw [if_neg hin]
    rcases h.prune with ⟨hm,_⟩ | ⟨hm,_⟩
    · rw [prune_members_lookup] at hm
      split at hm
      · cases hm
      · rename_i hdue
        exact absurd (mem_due.mpr ⟨entered,hm,by omega⟩) hdue
    · rw [TokenKeys.amount,hpaired.prune.paired id hm]
      rfl
end
end TokenKeys
theorem release_eq (hclock : readAt≤now) (hl : (db.ledgers id).get now=some l)
    (hpending : l.state=.pending) (hbefore : now<l.expires) :
    db.release readAt now id =
      ((db.settle now id (-1) l.tokens).close now id l .released,none) := by
  have hread := Expiring.get_of_le hclock hl
  rw [release,terminal,hread]
  dsimp only
  rw [if_neg (not_not.mpr hpending),terminalScript,hl]
  dsimp only
  rw [if_neg (not_not.mpr hpending),if_neg (Int.not_le.mpr hbefore),toFloat64_eq (by decide)]

theorem Sound.charged_release (h : Sound p now db)
    (hexact : ∀ key, (db.tokens key).sum now<2^53) (hclock : readAt≤now)
    (hl : (db.ledgers id).get now=some l) (hpending : l.state=.pending)
    (hbefore : now<l.expires) (hc : c∈l.tokens) :
    Charged ((db.release readAt now id).1.tokens c.key) now id
      ((db.tokens c.key).amount now id) := by
  have hspan := Int.le_of_lt ((h.ledgers id l hl).2 c hc).1
  have hkept := h.counters c.key
  rw [release_eq hclock hl hpending hbefore]
  simp only [close]
  rw [h.settle_tokens hl hexact (fun key => by have := hexact key; omega) hc]
  refine ⟨?_,?_,(hkept.record hspan (hkept.charge_nonneg _) (Int.le_refl _)).covers⟩
  · rw [TokenKeys.record_members hspan,AList.lookup_insert]
  · rw [TokenKeys.amount,TokenKeys.record_amounts hspan,AList.lookup_insert]
    rfl

/-- A pending lease's amount counts, and a release charges it in full, for one window after the
admission and no longer. -/
theorem pending_counts_iff (h : Run config p (fun _ _ => True) last db) (hread : last≤readAt)
    (hclock : readAt≤now) (hexact : db.Exact now (.release id))
    (hl : (db.ledgers id).get now=some l) (hpending : l.state=.pending)
    (hbefore : now<l.expires) (hc : c∈l.tokens) :
    (Counts (db.tokens c.key) now (milliseconds c.window) id c.amount ∧
        (db.release readAt now id).2=none ∧
        Charged ((db.release readAt now id).1.tokens c.key) now id c.amount) ↔
      now≤l.entered+milliseconds c.window ∨ c.amount=0 := by
  have hsound := h.sound.later (Int.le_trans hread hclock)
  have hkept := hsound.counters c.key
  have hholds := hsound.pending id l hl hpending c hc
  have hcounted := hholds.amount_prune hkept.toPaired
  have hcharged := hsound.charged_release hexact.sum_lt hclock hl hpending hbefore hc
  rw [milliseconds_window (hsound.ledgers id l hl).1 hc]
  constructor
  · rintro ⟨hcounts,_⟩
    by_cases hin : now≤l.entered+span p c.key
    · exact Or.inl hin
    · rw [if_neg hin,hcounts.amount] at hcounted
      exact Or.inr hcounted
  · intro hin
    have hamount := hholds.amount_eq hkept.toPaired hin
    rw [hamount] at hcharged
    refine ⟨⟨?_,(hkept.prune (hexact.sum_lt c.key)).covers⟩,?_,hcharged⟩
    · rw [hcounted]
      rcases hin with hin | hzero
      · exact if_pos hin
      · rw [hzero,ite_self]
    · rw [release_eq hclock hl hpending hbefore]

def allReservedLedger : Ledger := ⟨.pending,200,100,(tenth.reservation "a" "k" 10).tokens,0⟩

theorem pending_counts_in_window : (Counts (allReserved.tokens "k") 100 100 "a" 10 ∧
      (allReserved.release 100 100 "a").2=none ∧
      Charged ((allReserved.release 100 100 "a").1.tokens "k") 100 "a" 10) :=
  (pending_counts_iff (l := allReservedLedger) (c := ⟨"k",10,100000000,.slidingWindow,10⟩)
    (run_allReserved trivial) (by decide) (by decide) (allReserved_exact 100 (by decide))
    (by decide) rfl (by decide) List.mem_cons_self).mpr (Or.inl (by decide))

theorem pending_amount_given_away : Run {} tenth (fun _ _ => True) 0 allReserved ∧
      (allReserved.ledgers "a").get 150=some allReservedLedger ∧
      ((allReserved.tokens "k").prune 150 100).amount 150 "a"=0 ∧
      (allReserved.reserve {} 150 (tenth.reservation "b" "k" 10)).2=.ok true ∧
      ((allReserved.reserve {} 150 (tenth.reservation "b" "k" 10)).1.release 160 160 "a").2=none ∧
      (((allReserved.reserve {} 150 (tenth.reservation "b" "k" 10)).1.release 160 160 "a").1.tokens
        "k").amount 160 "a"=0 := by
  refine ⟨run_allReserved trivial,?_⟩
  decide
end GudeAgents.RateLimit.Redis
