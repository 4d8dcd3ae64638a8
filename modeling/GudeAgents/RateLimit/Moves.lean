import GudeAgents.RateLimit.Counters
/-!
# What an operation of the store can do

Every operation is a sequence of four moves, and invariants are proved move by move.
-/
namespace GudeAgents.RateLimit
open Framework List MemoryCounter AList
namespace MemoryStore
section updates
variable {ρ : Type} {s : MemoryStore} {slot : Slot} {f : MemoryCounter → MemoryCounter}
@[simp] theorem update_leases : (s.update slot f).leases=s.leases := rfl
@[simp] theorem update_config : (s.update slot f).config=s.config := rfl
@[simp] theorem update_journal : (s.update slot f).journal=s.journal := rfl

theorem lookup_update (name : String) : (s.update slot f).counters.lookup name =
    if slot.name=name then some (f (s.counter slot)) else s.counters.lookup name := by
  by_cases h : slot.name=name
  · rw [if_pos h,← h]
    exact lookup_insert _
  · rw [if_neg h]
    exact lookup_insert_ne (Ne.symm h)

@[simp] theorem counter_update_self : (s.update slot f).counter slot=f (s.counter slot) := by
  rw [counter,lookup_update,if_pos rfl]
  rfl

theorem counter_update_of_ne {other : Slot} (h : slot.name≠other.name) :
    (s.update slot f).counter other=s.counter other := by
  rw [counter,lookup_update,if_neg h]
  rfl

variable {slots : ρ → Slot} {g : ρ → MemoryCounter → MemoryCounter} {l : List ρ}
@[simp] theorem updateAll_nil : s.updateAll slots g []=s := rfl

@[simp] theorem updateAll_cons (r : ρ) :
    s.updateAll slots g (r::l)=(s.update (slots r) (g r)).updateAll slots g l := rfl

theorem updateAll_keeps {P : MemoryStore → Prop}
    (hupdate : ∀ s, ∀ r∈l, P s → P (s.update (slots r) (g r))) (h : P s) :
    P (s.updateAll slots g l) := by
  induction l generalizing s with
  | nil => exact h
  | cons r rest ih =>
    exact ih (fun s r' hr' => hupdate s r' (mem_cons_of_mem r hr')) (hupdate s r mem_cons_self h)

private theorem updateAll_same {α : Type} {part : MemoryStore → α}
    (hpart : ∀ s slot f, part (update s slot f)=part s) : part (s.updateAll slots g l)=part s :=
  updateAll_keeps (P := fun u => part u=part s) (fun _ _ _ h => (hpart _ _ _).trans h) rfl
@[simp] theorem updateAll_leases : (s.updateAll slots g l).leases=s.leases :=
  updateAll_same fun _ _ _ => rfl

@[simp] theorem updateAll_config : (s.updateAll slots g l).config=s.config :=
  updateAll_same fun _ _ _ => rfl

@[simp] theorem updateAll_journal : (s.updateAll slots g l).journal=s.journal :=
  updateAll_same fun _ _ _ => rfl

theorem lookup_updateAll_of_notMem {name : String} (h : ∀ r∈l, (slots r).name≠name) :
    (s.updateAll slots g l).counters.lookup name=s.counters.lookup name := by
  induction l generalizing s with
  | nil => rfl
  | cons r rest ih =>
    rw [updateAll_cons,ih fun r' hr' => h r' (mem_cons_of_mem r hr'),lookup_update,
      if_neg (h r mem_cons_self)]

theorem lookup_updateAll_of_mem {r : ρ} (hnodup : (l.map fun r => (slots r).name).Nodup)
    (hr : r∈l) : (s.updateAll slots g l).counters.lookup (slots r).name =
      some (g r (s.counter (slots r))) := by
  induction l generalizing s with
  | nil => cases hr
  | cons head rest ih =>
    rw [map_cons,nodup_cons] at hnodup
    rw [updateAll_cons]
    rcases mem_cons.mp hr with rfl | hmem
    · rw [lookup_updateAll_of_notMem,lookup_update,if_pos rfl]
      intro r' hr' heq
      exact hnodup.1 (mem_map.mpr ⟨r',hr',heq⟩)
    · rw [ih hnodup.2 hmem,counter_update_of_ne]
      intro heq
      exact hnodup.1 (mem_map.mpr ⟨r,hmem,heq.symm⟩)
end updates
def AllCounters (P : String → MemoryCounter → Prop) (s : MemoryStore) : Prop :=
  ∀ name c, s.counters.lookup name=some c → P name c

namespace AllCounters
variable {P : String → MemoryCounter → Prop} {s : MemoryStore}
theorem counter (h : s.AllCounters P) {slot : Slot} (hfresh : P slot.name slot.fresh) :
    P slot.name (s.counter slot) := by
  rw [MemoryStore.counter]
  cases hc : s.counters.lookup slot.name with
  | none => exact hfresh
  | some c => exact h slot.name c hc

theorem update (h : s.AllCounters P) {slot : Slot} {f : MemoryCounter → MemoryCounter}
    (hf : P slot.name (f (s.counter slot))) : (s.update slot f).AllCounters P := by
  intro name c hc
  rw [lookup_update] at hc
  by_cases hname : slot.name=name
  · rw [if_pos hname] at hc
    rw [← Option.some.inj hc,← hname]
    exact hf
  · rw [if_neg hname] at hc
    exact h name c hc

theorem updateAll (h : s.AllCounters P) {ρ : Type} {slots : ρ → Slot}
    {g : ρ → MemoryCounter → MemoryCounter} {l : List ρ}
    (hfresh : ∀ r∈l, P (slots r).name (slots r).fresh)
    (hg : ∀ r∈l, ∀ c, P (slots r).name c → P (slots r).name (g r c)) :
    (s.updateAll slots g l).AllCounters P := by
  refine updateAll_keeps ?_ h
  intro s r hr h
  exact h.update (hg r hr _ (h.counter (hfresh r hr)))
end AllCounters
section leases
variable {s : MemoryStore} {now : Int} {id : String} {lease : MemoryLease}
section
variable (tokens : List TokenReservation) (actual : Int)
include tokens actual
@[simp] theorem settle_leases : (s.settle now tokens actual).leases=s.leases := updateAll_leases
@[simp] theorem settle_config : (s.settle now tokens actual).config=s.config := updateAll_config

@[simp] theorem settle_journal : (s.settle now tokens actual).journal=s.journal := updateAll_journal
end
@[simp] theorem addCounts_leases (r : Reservation) : (s.addCounts now r).leases=s.leases := by
  rw [addCounts,updateAll_leases,updateAll_leases]

@[simp] theorem addCounts_config (r : Reservation) : (s.addCounts now r).config=s.config := by
  rw [addCounts,updateAll_config,updateAll_config]

@[simp] theorem addCounts_journal (r : Reservation) : (s.addCounts now r).journal=s.journal := by
  rw [addCounts,updateAll_journal,updateAll_journal]
end leases
variable {order : List String}
section cleanup
variable {s : MemoryStore} {now : Int} {id : String} {lease : MemoryLease}
def tidied (s : MemoryStore) (now : Int) (lease : MemoryLease) : Option MemoryLease :=
  let lease :=
    if lease.state=.pending ∧ lease.pendingUntil≤now then
      lease.closed .expired (now+s.terminalTTL lease.window)
    else lease
  if lease.state≠.pending ∧ lease.terminalUntil≤now then none else some lease

@[simp] theorem close_leases (state : LeaseState) (actual : Int) :
    (s.close now id lease state actual).leases =
      s.leases.insert id (lease.closed state (now+s.terminalTTL lease.window)) := by
  simp [close,terminalTTL]

@[simp] theorem close_config (state : LeaseState) (actual : Int) :
    (s.close now id lease state actual).config=s.config := by
  simp [close]

theorem expire_cases (s : MemoryStore) (now : Int) (id : String) : s.expire now id=s ∨
    ∃ l, s.leases.lookup id=some l ∧ l.state=.pending ∧ l.pendingUntil≤now ∧
      s.expire now id=s.close now id l .expired (-1) := by
  unfold expire
  cases hl : s.leases.lookup id with
  | none => exact .inl rfl
  | some l =>
    dsimp only
    split
    · rename_i hdue
      exact .inr ⟨l,rfl,hdue.1,hdue.2,rfl⟩
    · exact .inl rfl

theorem forget_cases (s : MemoryStore) (now : Int) (id : String) : s.forget now id=s ∨
    ∃ l, s.leases.lookup id=some l ∧ l.state≠.pending ∧ l.terminalUntil≤now ∧
      s.forget now id=s.drop now id := by
  unfold forget
  cases hl : s.leases.lookup id with
  | none => exact .inl rfl
  | some l =>
    dsimp only
    split
    · rename_i hdue
      exact .inr ⟨l,rfl,hdue.1,hdue.2,rfl⟩
    · exact .inl rfl

@[simp] theorem expire_config : (s.expire now id).config=s.config := by
  rcases expire_cases s now id with heq | ⟨l,-,-,-,heq⟩
  · rw [heq]
  · rw [heq,close_config]

@[simp] theorem forget_config : (s.forget now id).config=s.config := by
  rcases forget_cases s now id with heq | ⟨l,-,-,-,heq⟩
  · rw [heq]
  · rw [heq]
    rfl

private theorem visit_lookup_self : ((s.expire now id).forget now id).leases.lookup id =
    (s.leases.lookup id).bind (s.tidied now) := by
  unfold expire
  cases hl : s.leases.lookup id with
  | none =>
    rw [forget,hl]
    exact hl
  | some l =>
    dsimp only [Option.bind_some,tidied]
    by_cases hdue : l.state=.pending ∧ l.pendingUntil≤now
    · rw [if_pos hdue,if_pos hdue,forget,close_leases,lookup_insert]
      dsimp only
      split
      · exact lookup_erase _ _
      · rw [close_leases,lookup_insert]
    · rw [if_neg hdue,if_neg hdue,forget,hl]
      dsimp only
      split
      · exact lookup_erase _ _
      · exact hl

theorem visit_lookup_of_ne {other : String} (h : other≠id) :
    ((s.expire now id).forget now id).leases.lookup other=s.leases.lookup other := by
  have hexpire : (s.expire now id).leases.lookup other=s.leases.lookup other := by
    rcases expire_cases s now id with heq | ⟨l,-,-,-,heq⟩
    · rw [heq]
    · rw [heq,close_leases,lookup_insert_ne h]
  rw [← hexpire]
  rcases forget_cases (s.expire now id) now id with heq | ⟨l,-,-,-,heq⟩
  · rw [heq]
  · rw [heq]
    exact lookup_erase_ne h

@[simp] theorem cleanup_config (order : List String) : (s.cleanup now order).config=s.config := by
  induction order generalizing s with
  | nil => rfl
  | cons id rest ih =>
    show (((s.expire now id).forget now id).cleanup now rest).config=s.config
    rw [ih,forget_config,expire_config]

theorem tidied_congr {s' : MemoryStore} (h : s.config=s'.config) : s.tidied now=s'.tidied now := by
  have httl : s.terminalTTL=s'.terminalTTL := by
    funext w
    rw [terminalTTL,terminalTTL,h]
  funext l
  rw [tidied,tidied,httl]

private theorem cleanup_lookup_of_notMem (hid : id∉order) :
    (s.cleanup now order).leases.lookup id=s.leases.lookup id := by
  induction order generalizing s with
  | nil => rfl
  | cons head rest ih =>
    rw [mem_cons,not_or] at hid
    show (((s.expire now head).forget now head).cleanup now rest).leases.lookup id=_
    rw [ih hid.2,visit_lookup_of_ne hid.1]

private theorem cleanup_lookup_of_mem (hnodup : order.Nodup) (hid : id∈order) :
    (s.cleanup now order).leases.lookup id=(s.leases.lookup id).bind (s.tidied now) := by
  induction order generalizing s with
  | nil => cases hid
  | cons head rest ih =>
    rw [nodup_cons] at hnodup
    show (((s.expire now head).forget now head).cleanup now rest).leases.lookup id=_
    rcases mem_cons.mp hid with rfl | hrest
    · rw [cleanup_lookup_of_notMem hnodup.1,visit_lookup_self]
    · have hne : id≠head := by
        intro heq
        exact hnodup.1 (heq ▸ hrest)
      have hconfig : ((s.expire now head).forget now head).config=s.config := by
        rw [forget_config,expire_config]
      rw [ih hnodup.2 hrest,visit_lookup_of_ne hne,tidied_congr hconfig]

/-- An iteration order of the map of leases. -/
def Visits (s : MemoryStore) (order : List String) : Prop := order.Perm s.leases.keys

instance (s : MemoryStore) (order : List String) : Decidable (s.Visits order) :=
  inferInstanceAs (Decidable (order.Perm _))

theorem cleanup_lookup (horder : s.Visits order) (id : String) :
    (s.cleanup now order).leases.lookup id=(s.leases.lookup id).bind (s.tidied now) := by
  by_cases hid : id∈order
  · exact cleanup_lookup_of_mem (horder.nodup_iff.mpr s.leases.keys_nodup) hid
  · have hnone : s.leases.lookup id=none := by
      rw [AList.lookup_eq_none,AList.mem_keys,← horder.mem_iff]
      exact hid
    rw [cleanup_lookup_of_notMem hid,hnone]
    rfl

private theorem cleanup_current (horder : s.Visits order)
    (hl : (s.cleanup now order).leases.lookup id=some lease) :
    (lease.state=.pending → now<lease.pendingUntil) ∧
      (lease.state≠.pending → now<lease.terminalUntil) := by
  rw [cleanup_lookup horder,Option.bind_eq_some_iff] at hl
  obtain ⟨l,-,htidy⟩ := hl
  unfold tidied at htidy
  by_cases hdue : l.state=.pending ∧ l.pendingUntil≤now
  · rw [if_pos hdue] at htidy
    obtain ⟨hkeep,heq⟩ := Option.ite_none_left_eq_some.mp htidy
    cases heq
    constructor
    · intro h
      cases h
    · intro h
      by_contra hle
      exact hkeep ⟨h,Int.not_lt.mp hle⟩
  · rw [if_neg hdue] at htidy
    obtain ⟨hkeep,heq⟩ := Option.ite_none_left_eq_some.mp htidy
    cases heq
    constructor
    · intro h
      by_contra hle
      exact hdue ⟨h,Int.not_lt.mp hle⟩
    · intro h
      by_contra hle
      exact hkeep ⟨h,Int.not_lt.mp hle⟩
end cleanup
/-- How a call settles a pending lease before its deadline. -/
inductive Closes (call : Call) (id : String) : LeaseState → Int → Prop where
  | committed {actual : Int} (hcall : call=.commit id actual) :
      Closes call id .committed (max actual 0)
  | released (hcall : call=.release id) : Closes call id .released (-1)

def Concludes (call : Call) (id : String) : Prop :=
  match call with
  | .reserve _ => False
  | .commit id' _ | .release id' => id'=id

theorem Closes.concludes_iff {call : Call} {id id' : String} {state : LeaseState} {actual : Int}
    (h : Closes call id state actual) : Concludes call id' ↔ id=id' := by
  cases h with
  | committed hcall | released hcall =>
    subst hcall
    rfl

/-- A call at `now` ends a pending lease when the lease is overdue or the call settles it. -/
def Ends (now : Int) (call : Call) (id : String) (lease : MemoryLease) : Prop :=
  lease.pendingUntil≤now ∨ Concludes call id

def Current (now : Int) (leases : FiniteMap String MemoryLease) : Prop :=
  ∀ id lease, leases.lookup id=some lease → lease.state=.pending → now<lease.pendingUntil

theorem Closes.ne_pending {call : Call} {id : String} {state : LeaseState} {actual : Int}
    (h : Closes call id state actual) : state≠.pending := by
  cases h with
  | committed _ | released _ => decide

/-- One move of the store at time `now`, on behalf of a call. The flag tells the moves that only
tidy up from the one that does what the call asks for. -/
inductive Move (now : Int) (call : Call) (s : MemoryStore) : Bool → MemoryStore → Prop where
  | prune {r : Reservation} {slot : Slot} (hcall : call=.reserve r)
      (hvalid : validateReservation r=none) (hslot : slot∈r.slots) (hid : r.id≠"")
      (hnew : s.leases.lookup r.id=none) :
      Move now call s false (s.update slot (·.prune now))
  | expire {id : String} {lease : MemoryLease} (hlease : s.leases.lookup id=some lease)
      (hpending : lease.state=.pending) (hdue : lease.pendingUntil≤now) :
      Move now call s false (s.close now id lease .expired (-1))
  | drop {id : String} {lease : MemoryLease} (hlease : s.leases.lookup id=some lease)
      (hterminal : lease.state≠.pending) (hdue : lease.terminalUntil≤now) :
      Move now call s false (s.drop now id)
  | close {id : String} {lease : MemoryLease} {state : LeaseState} {actual : Int}
      (hlease : s.leases.lookup id=some lease) (hpending : lease.state=.pending)
      (hopen : now<lease.pendingUntil) (hcloses : Closes call id state actual) :
      Move now call s true (s.close now id lease state actual)
  | grant {r : Reservation} (hcall : call=.reserve r) (hvalid : validateReservation r=none)
      (hnew : s.leases.lookup r.id=none)
      (hrequests : ∀ c∈r.requests, requestFull (s.counter c.slot) c=false ∧
        (s.counter c.slot).prune now=s.counter c.slot)
      (htokens : ∀ c∈r.tokens, tokenFull (s.counter c.slot) c=false ∧
        (s.counter c.slot).prune now=s.counter c.slot) :
      Move now call s true (s.grant now r)

abbrev Tidies (now : Int) (call : Call) : MemoryStore → MemoryStore → Prop :=
  Relation.ReflTransGen fun s s' => Move now call s false s'

/-- A call does nothing, or ends what is overdue and then what it settles, or admits. -/
def Performs (now : Int) (call : Call) (s s' : MemoryStore) : Prop :=
  ∃ u, Tidies now call s u ∧ (s'=u ∧ (u=s ∨ ∀ id lease, u.leases.lookup id=some lease →
      lease.state=.pending → ¬Ends now call id lease) ∨
    Current now u.leases ∧ Move now call u true s')

def Ordered (last : Int) (s : MemoryStore) : Prop :=
  s.AllCounters fun _ c => c.Ordered last

private theorem ordered_new (config : StoreConfig) (last : Int) : (new config).Ordered last := by
  intro name c hc
  cases hc
theorem Ordered.mono {s : MemoryStore} {last now : Int} (h : s.Ordered last) (hle : last≤now) :
    s.Ordered now :=
  fun name c hc => (h name c hc).mono hle

section moves
variable {s s' : MemoryStore} {now : Int} {call : Call}
theorem Ordered.settle (h : s.Ordered now) (tokens : List TokenReservation) (actual : Int) :
    (s.settle now tokens actual).Ordered now := by
  apply AllCounters.updateAll h
  · intro r _
    exact ordered_fresh _ _
  · intro r _ c hc
    exact hc.settle _ _

theorem Move.ordered {final : Bool} (hm : Move now call s final s') (h : s.Ordered now) :
    s'.Ordered now := by
  cases hm with
  | prune hcall hvalid hslot =>
    apply AllCounters.update h
    exact (h.counter (ordered_fresh _ _)).prune
  | expire hlease hpending hdue | close hlease hpending hopen hcloses => exact h.settle _ _
  | drop hlease hterminal hdue => exact h
  | grant hcall hvalid hnew hrequests htokens =>
    apply AllCounters.updateAll
    · apply AllCounters.updateAll h
      · intro r _
        exact ordered_fresh _ _
      · intro r _ c hc
        exact hc.addRequest
    · intro r _
      exact ordered_fresh _ _
    · intro r _ c hc
      exact hc.reserve _

theorem Tidies.ordered (hm : Tidies now call s s') (h : s.Ordered now) : s'.Ordered now := by
  induction hm with
  | refl => exact h
  | tail _ hstep ih => exact hstep.ordered ih
private theorem performs_refl : Performs now call s s := ⟨s,.refl,Or.inl ⟨rfl,Or.inl rfl⟩⟩

theorem Tidies.performs (h : Tidies now call s s') (hcurrent : Current now s'.leases)
    (hopen : ∀ id lease, s'.leases.lookup id=some lease → lease.state=.pending →
      ¬Concludes call id) : Performs now call s s' := by
  refine ⟨s',h,Or.inl ⟨rfl,Or.inr ?_⟩⟩
  rintro id lease hlease hpending (hdue | hconcludes)
  · exact Int.not_le.mpr (hcurrent id lease hlease hpending) hdue
  · exact hopen id lease hlease hpending hconcludes

private theorem expire_tidies (id : String) : Tidies now call s (s.expire now id) := by
  rcases expire_cases s now id with heq | ⟨l,hl,hpending,hdue,heq⟩
  · rw [heq]
  · rw [heq]
    exact Relation.ReflTransGen.single (.expire hl hpending hdue)

theorem forget_tidies (id : String) : Tidies now call s (s.forget now id) := by
  rcases forget_cases s now id with heq | ⟨l,hl,hterminal,hdue,heq⟩
  · rw [heq]
  · rw [heq]
    exact Relation.ReflTransGen.single (.drop hl hterminal hdue)

theorem cleanup_tidies (order : List String) : Tidies now call s (s.cleanup now order) := by
  induction order generalizing s with
  | nil => exact Relation.ReflTransGen.refl
  | cons id rest ih =>
    exact (expire_tidies id).trans ((forget_tidies id).trans ih)

variable {r : Reservation}
section checks
variable {ρ : Type} {slot : ρ → Slot} {full : MemoryCounter → ρ → Bool}
variable {l : List ρ}
theorem checkAll_keeps {P : MemoryStore → Prop}
    (hprune : ∀ s, ∀ x∈l, P s → P (s.update (slot x) (·.prune now))) (h : P s) :
    P (checkAll now slot full s l).1 := by
  induction l generalizing s with
  | nil => exact h
  | cons x rest ih =>
    have hfirst := hprune s x mem_cons_self h
    unfold checkAll
    dsimp only
    split
    · exact hfirst
    · exact ih (fun s y hy => hprune s y (mem_cons_of_mem x hy)) hfirst

private theorem checkAll_same {α : Type} {part : MemoryStore → α}
    (hpart : ∀ s slot f, part (update s slot f)=part s) (l : List ρ) :
    part (checkAll now slot full s l).1=part s :=
  checkAll_keeps (P := fun u => part u=part s) (fun _ _ _ h => (hpart _ _ _).trans h) rfl
@[simp] theorem checkAll_leases (l : List ρ) :
    (checkAll now slot full s l).1.leases=s.leases := checkAll_same (fun _ _ _ => rfl) l

@[simp] theorem checkAll_journal (l : List ρ) :
    (checkAll now slot full s l).1.journal=s.journal := checkAll_same (fun _ _ _ => rfl) l

@[simp] theorem checkAll_config (l : List ρ) :
    (checkAll now slot full s l).1.config=s.config := checkAll_same (fun _ _ _ => rfl) l

private theorem checkAll_tidies (hcall : call=.reserve r) (hvalid : validateReservation r=none)
    (hid : r.id≠"") (hnew : s.leases.lookup r.id=none) (hl : ∀ x∈l, slot x∈r.slots) :
    Tidies now call s (checkAll now slot full s l).1 := by
  refine (checkAll_keeps (P := fun u => Tidies now call s u ∧ u.leases=s.leases) ?_ ⟨.refl,rfl⟩).1
  rintro u x hx ⟨h,hleases⟩
  exact ⟨h.tail (.prune hcall hvalid (hl x hx) hid (hleases ▸ hnew)),hleases⟩

theorem checkAll_ordered (h : s.Ordered now) : (checkAll now slot full s l).1.Ordered now :=
  checkAll_keeps (fun _ _ _ hu => AllCounters.update hu (hu.counter (ordered_fresh _ now)).prune) h

private theorem checkAll_lookup_of_pruned {name : String} {c : MemoryCounter}
    (hc : s.counters.lookup name=some c) (hpruned : c.prune now=c) :
    (checkAll now slot full s l).1.counters.lookup name=some c := by
  refine checkAll_keeps (P := fun u => u.counters.lookup name=some c) ?_ hc
  intro s x _ hc
  rw [lookup_update]
  by_cases hname : (slot x).name=name
  · rw [if_pos hname,counter,hname,hc]
    exact congrArg some hpruned
  · rw [if_neg hname]
    exact hc

theorem checkAll_passed (h : s.Ordered now) (hok : (checkAll now slot full s l).2=true) : ∀ x∈l,
      ∃ c, (checkAll now slot full s l).1.counters.lookup (slot x).name=some c ∧
        full c x=false ∧ c.prune now=c := by
  induction l generalizing s with
  | nil =>
    intro x hx
    cases hx
  | cons y rest ih =>
    have hordered := h.counter (ordered_fresh (slot y) now)
    have hpruned := prune_prune hordered
    unfold checkAll at hok ⊢
    dsimp only at hok ⊢
    rw [counter_update_self] at hok ⊢
    split at hok
    · cases hok
    · rename_i hfull
      rw [if_neg hfull]
      intro x hx
      rcases mem_cons.mp hx with rfl | hrest
      · refine ⟨_,checkAll_lookup_of_pruned ?_ hpruned,Bool.eq_false_of_not_eq_true hfull,hpruned⟩
        rw [lookup_update,if_pos rfl]
      · exact ih (AllCounters.update h hordered.prune) hok x hrest
end checks
theorem counter_eq_of_lookup {slot : Slot} {c : MemoryCounter}
    (h : s.counters.lookup slot.name=some c) : s.counter slot=c := by
  rw [counter,h]
  rfl

abbrev checkRequests (s : MemoryStore) (now : Int) (r : Reservation) : MemoryStore×Bool :=
  checkAll now RequestCounter.slot requestFull s r.requests
abbrev checkTokens (s : MemoryStore) (now : Int) (r : Reservation) : MemoryStore×Bool :=
  checkAll now TokenReservation.slot tokenFull (s.checkRequests now r).1 r.tokens

theorem tryAdmit_eq (now : Int) (r : Reservation) : s.tryAdmit now r =
    if (s.checkRequests now r).2 then
      if (s.checkTokens now r).2 then ((s.checkTokens now r).1.grant now r,true)
      else ((s.checkTokens now r).1,false)
    else ((s.checkRequests now r).1,false) := by
  unfold tryAdmit checkTokens checkRequests
  rcases checkAll now RequestCounter.slot requestFull s r.requests with ⟨s1,_ | _⟩
  · rfl
  · dsimp only
    rcases checkAll now TokenReservation.slot tokenFull s1 r.tokens with ⟨s2,_ | _⟩
    · rfl
    · rfl

section
variable (hcall : call=.reserve r) (hvalid : validateReservation r=none) (hid : r.id≠"")
  (hnew : s.leases.lookup r.id=none)
include hcall hvalid hid hnew
private theorem checkRequests_tidies : Tidies now call s (s.checkRequests now r).1 := by
  apply checkAll_tidies hcall hvalid hid hnew
  intro x hx
  exact mem_append_left _ (mem_map_of_mem hx)

private theorem checkTokens_tidies : Tidies now call s (s.checkTokens now r).1 := by
  apply (checkRequests_tidies hcall hvalid hid hnew).trans
  apply checkAll_tidies hcall hvalid hid (by rwa [checkAll_leases])
  intro x hx
  exact mem_append_right _ (mem_map_of_mem hx)
end
private theorem checkRequests_passed (h : s.Ordered now) (hok : (s.checkRequests now r).2=true) :
    ∀ c∈r.requests, requestFull ((s.checkTokens now r).1.counter c.slot) c=false ∧
        ((s.checkTokens now r).1.counter c.slot).prune now =
          (s.checkTokens now r).1.counter c.slot := by
  intro c hc
  obtain ⟨counter,hlookup,hfull,hpruned⟩ := checkAll_passed h hok c hc
  -- the token counters checked afterwards do not touch it
  rw [counter_eq_of_lookup (checkAll_lookup_of_pruned hlookup hpruned)]
  exact ⟨hfull,hpruned⟩

private theorem checkTokens_passed (h : (s.checkRequests now r).1.Ordered now)
    (hok : (s.checkTokens now r).2=true) : ∀ c∈r.tokens,
      tokenFull ((s.checkTokens now r).1.counter c.slot) c=false ∧
        ((s.checkTokens now r).1.counter c.slot).prune now =
          (s.checkTokens now r).1.counter c.slot := by
  intro c hc
  obtain ⟨counter,hlookup,hfull,hpruned⟩ := checkAll_passed h hok c hc
  rw [counter_eq_of_lookup hlookup]
  exact ⟨hfull,hpruned⟩

private theorem tryAdmit_performs (hcall : call=.reserve r) (hvalid : validateReservation r=none)
    (hid : r.id≠"") (hnew : s.leases.lookup r.id=none) (h : s.Ordered now)
    (hcurrent : Current now s.leases) {s0 : MemoryStore} (htidy : Tidies now call s0 s) :
    Performs now call s0 (s.tryAdmit now r).1 := by
  have hrequests : Tidies now call s (s.checkRequests now r).1 :=
    checkRequests_tidies hcall hvalid hid hnew
  have htokens : Tidies now call s0 (s.checkTokens now r).1 :=
    htidy.trans (checkTokens_tidies hcall hvalid hid hnew)
  have hopen : ∀ id, ¬Concludes call id := fun _ => hcall ▸ id
  have hleases : (s.checkTokens now r).1.leases=s.leases := by
    rw [checkAll_leases,checkAll_leases]
  rw [tryAdmit_eq]
  split
  · rename_i hokRequests
    split
    · rename_i hokTokens
      refine ⟨_,htokens,Or.inr ⟨hleases ▸ hcurrent,?_⟩⟩
      apply Move.grant hcall hvalid
      · rw [hleases]
        exact hnew
      · exact checkRequests_passed h hokRequests
      · exact checkTokens_passed (checkAll_ordered h) hokTokens
    · exact htokens.performs (hleases ▸ hcurrent) fun id _ _ _ => hopen id
  · exact Tidies.performs (htidy.trans hrequests) (by rwa [checkAll_leases]) fun id _ _ _ => hopen id

private theorem terminate_performs {id : String} {state : LeaseState} {actual : Int}
    (hcloses : Closes call id state actual) (horder : s.Visits order) :
    Performs now call s (s.terminate now order id state actual).1 := by
  have hcleanup : Tidies now call s (s.cleanup now order) := cleanup_tidies order
  have hcurrent : Current now (s.cleanup now order).leases := fun _ _ hl => (cleanup_current horder hl).1
  unfold terminate
  dsimp only
  cases hl : (s.cleanup now order).leases.lookup id with
  | none =>
    apply hcleanup.performs hcurrent
    intro id' lease hlease _ hconcludes
    rw [← hcloses.concludes_iff.mp hconcludes,hl] at hlease
    cases hlease
  | some lease =>
    dsimp only
    by_cases hpending : lease.state=.pending
    · rw [if_neg (not_not_intro hpending)]
      exact ⟨_,hcleanup,Or.inr ⟨hcurrent,.close hl hpending (hcurrent id lease hl hpending) hcloses⟩⟩
    · rw [if_pos hpending]
      apply hcleanup.performs hcurrent
      intro id' lease' hlease hpending' hconcludes
      rw [← hcloses.concludes_iff.mp hconcludes,hl] at hlease
      cases hlease
      exact hpending hpending'

theorem reserve_performs {ctx : Option ContextError} (horder : s.Visits order) (h : s.Ordered now) :
    Performs now (.reserve r) s (s.reserve ctx now order r).1 := by
  unfold reserve
  cases ctx with
  | some cause => exact performs_refl
  | none =>
    dsimp only
    split
    · exact performs_refl
    · rename_i hid
      cases hvalid : validateReservation r with
      | some err => exact performs_refl
      | none =>
        have hcurrent : Current now (s.cleanup now order).leases :=
          fun _ _ hl => (cleanup_current horder hl).1
        have hcleanup : Tidies now (.reserve r) s (s.cleanup now order) :=
          cleanup_tidies order
        dsimp only
        split
        · exact hcleanup.performs hcurrent fun _ _ _ _ => id
        · rename_i hnew
          rw [Option.not_isSome_iff_eq_none] at hnew
          exact tryAdmit_performs rfl hvalid hid hnew (hcleanup.ordered h) hcurrent hcleanup

theorem after_performs {ctx : Option ContextError} (horder : s.Visits order) (h : s.Ordered now) :
    Performs now call s (s.after ctx now order call) := by
  cases call with
  | reserve r => exact reserve_performs horder h
  | commit id actual =>
    show Performs now _ s (s.commit ctx now order id actual).1
    cases ctx with
    | some cause => exact performs_refl
    | none =>
      have hmax : (if actual<0 then 0 else actual)=max actual 0 := by omega
      rw [commit,hmax]
      exact terminate_performs (.committed rfl) horder
  | release id =>
    cases ctx with
    | some cause => exact performs_refl
    | none => exact terminate_performs (.released rfl) horder
end moves
/-- The states a store reaches, with the last reading of the clock, when every call satisfies
`ok`. -/
inductive Run (config : StoreConfig) (ok : MemoryStore → Int → Call → Prop) :
    Int → MemoryStore → Prop where
  | start (now : Int) : Run config ok now (new config)
  | call {last now : Int} {s : MemoryStore} {ctx : Option ContextError} {order : List String}
      {call : Call} (before : Run config ok last s) (clock : last≤now)
      (visits : s.Visits order) (allowed : ok s now call) :
      Run config ok now (s.after ctx now order call)

namespace Run
variable {config : StoreConfig} {ok : MemoryStore → Int → Call → Prop} {last : Int}
  {s : MemoryStore}
theorem mono {ok' : MemoryStore → Int → Call → Prop}
    (hok : ∀ s now call, ok s now call → ok' s now call) (h : Run config ok last s) :
    Run config ok' last s := by
  induction h with
  | start now => exact .start now
  | call before clock visits allowed ih => exact .call ih clock visits (hok _ _ _ allowed)

theorem ordered (h : Run config ok last s) : s.Ordered last := by
  induction h with
  | start now => exact ordered_new config now
  | call before clock visits allowed ih =>
    have hmono := ih.mono clock
    obtain ⟨u,htidy,⟨rfl,-⟩ | ⟨-,hlast⟩⟩ := after_performs visits hmono
    · exact htidy.ordered hmono
    · exact hlast.ordered (htidy.ordered hmono)

theorem invariant {I : Int → MemoryStore → Prop} (hstart : ∀ now, I now (new config))
    (hmono : ∀ last now s, last≤now → I last s → I now s)
    (hmove : ∀ now call s0 s final s', ok s0 now call → I now s0 → Tidies now call s0 s →
      s.Ordered now → Move now call s final s' → I now s → I now s') (h : Run config ok last s) :
    I last s := by
  induction h with
  | start now => exact hstart now
  | @call last now s0 ctx order call before clock visits allowed ih =>
    have hordered := before.ordered.mono clock
    have hfirst := hmono _ _ _ clock ih
    have htidies : ∀ u, Tidies now call s0 u → I now u := by
      intro u htidy
      induction htidy with
      | refl => exact hfirst
      | tail hprev hstep ih' =>
        exact hmove now call s0 _ _ _ allowed hfirst hprev (Tidies.ordered hprev hordered) hstep ih'
    obtain ⟨u,htidy,⟨hu,-⟩ | ⟨-,hlast⟩⟩ := after_performs visits hordered
    · rw [hu]
      exact htidies u htidy
    · exact hmove now call s0 u _ _ allowed hfirst htidy (htidy.ordered hordered) hlast
        (htidies u htidy)
end Run
end MemoryStore
end GudeAgents.RateLimit
