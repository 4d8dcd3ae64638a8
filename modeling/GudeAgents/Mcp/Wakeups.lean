import GudeAgents.Mcp.Accounting
/-!
# Wake-ups of the connection pool

While callers are parked the pool is open and full.
-/
namespace GudeAgents.Mcp
open Framework Multiset Thread
variable {S C : Type}
def Thread.channel : Thread S C → Multiset Nat
  | .waiting _ cancelled => {cancelled}
  | _ => 0

variable {o : Outcome (World S C) (Thread S C)}
variable {w : World S C} {ctx : C}
theorem turn_channels (h : Turns w ctx o) {others : Multiset Nat}
    (hw : Multiset.range w.channels=w.closedChannels+others) :
    Multiset.range o.shared.channels=o.shared.closedChannels+(o.total channel+others) := by
  cases h with
  | wait _ _ _ _ =>
    simp only [Outcome.total,map_add,map_singleton,sum_add,sum_singleton,channel,zero_add,
      range_succ,hw,← singleton_add]
    ac_rfl
  | _ => simpa [Outcome.total,World.goOn,channel] using hw

variable {t : Thread S C}
theorem acts_channels (others : Multiset Nat) (h : Acts t w o)
    (hw : Multiset.range w.channels=w.closedChannels+(t.channel+others)) :
    Multiset.range o.shared.channels=o.shared.closedChannels+(o.total channel+others) := by
  cases h with
  | acquire ctx =>
    simp only [channel,zero_add] at hw
    exact turn_channels (turn_turns w ctx) hw
  | awake ctx cancelled =>
    apply turn_channels (turn_turns _ ctx)
    rw [hw,channel,← singleton_add]
    ac_rfl
  | _ => simpa [Outcome.total,World.goOn,World.giveBack,channel] using hw

theorem Reachable.channels_eq {maxSize : Int} {first : S} {done : C → Bool}
    {c : Crowd (World S C) (Thread S C)} (h : Reachable maxSize first done c) :
    Multiset.range c.shared.channels=c.shared.closedChannels+c.total channel :=
  Monitor.Reachable.balance h (fun w => Multiset.range w.channels) (fun w => w.closedChannels)
    channel rfl (fun others hact hw => acts_channels others hact hw)
    (fun henter => by cases henter <;> rfl) (fun henv => by cases henv; exact ⟨rfl,rfl⟩)

/-- A caller that waits for a session or a slot. -/
def Thread.isWaiting : Thread S C → Bool
  | .waiting _ _ => true
  | _ => false
def awake (running : Multiset (Thread S C)) : Nat := running.countP fun t => t.isWaiting
@[simp] theorem awake_zero : awake (0 : Multiset (Thread S C))=0 := rfl

@[simp] theorem awake_add (running running' : Multiset (Thread S C)) :
    awake (running+running')=awake running+awake running' :=
  countP_add _ _ _

@[simp] theorem awake_cons (t : Thread S C) (running : Multiset (Thread S C)) :
    awake (t ::ₘ running)=awake running+if t.isWaiting then 1 else 0 :=
  countP_cons _ t running

/-- The watcher of a channel is in its `select` or before its broadcast. -/
def Watched (running : Multiset (Thread S C)) (ctx : C) (cancelled : Nat) : Prop :=
  .watching ctx cancelled∈running ∨ .broadcasting ctx cancelled∈running

variable {running : Multiset (Thread S C)}
theorem Watched.add_right {cancelled : Nat} (h : Watched running ctx cancelled)
    (others : Multiset (Thread S C)) : Watched (others+running) ctx cancelled :=
  h.imp (fun hmem => mem_add.mpr (Or.inr hmem)) (fun hmem => mem_add.mpr (Or.inr hmem))

/-- What holds while callers are parked, up to some spare idle sessions. -/
structure Parked (w : World S C) (running parked : Multiset (Thread S C)) (spare : Nat) :
    Prop where
  waiting : ∀ t∈parked, t.isWaiting
  full : parked≠0 → w.pool.closed=false ∧ w.pool.maxSize≤w.pool.size
  pending : parked≠0 → w.pool.sessions.length≤awake running+spare
  watched : ∀ ctx cancelled, .waiting ctx cancelled∈parked →
    cancelled∉w.closedChannels ∧ Watched running ctx cancelled

namespace Parked
theorem nobody (w : World S C) (running : Multiset (Thread S C)) (spare : Nat) :
    Parked w running 0 spare :=
  ⟨fun _ ht => absurd ht (notMem_zero _),fun h => absurd rfl h,fun h => absurd rfl h,
    fun _ _ h => absurd h (notMem_zero _)⟩

variable {w w' : World S C} {t : Thread S C} {rest next parked : Multiset (Thread S C)}
theorem watched_rest (h : Parked w (t ::ₘ rest) parked 0)
    (ht : ∀ ctx cancelled, t≠.watching ctx cancelled ∧ t≠.broadcasting ctx cancelled) (ctx : C)
    (cancelled : Nat) (hparked : .waiting ctx cancelled∈parked) :
    cancelled∉w.closedChannels ∧ Watched rest ctx cancelled := by
  obtain ⟨hclosed,hwatched⟩ := h.watched ctx cancelled hparked
  refine ⟨hclosed,hwatched.imp ?_ ?_⟩
  · intro hmem
    exact (mem_cons.mp hmem).resolve_left fun heq => (ht ctx cancelled).1 heq.symm
  · intro hmem
    exact (mem_cons.mp hmem).resolve_left fun heq => (ht ctx cancelled).2 heq.symm

theorem goOn (h : Parked w (t ::ₘ rest) parked 0) (hpool : w'.pool=w.pool)
    (hchannels : w'.closedChannels=w.closedChannels) (ht : t.isWaiting=false)
    (hwatch : ∀ ctx cancelled, cancelled∉w.closedChannels →
      t=.watching ctx cancelled ∨ t=.broadcasting ctx cancelled →
        Watched next ctx cancelled) : Parked w' (next+0+rest) (0+parked) 0 := by
  rw [zero_add,add_zero]
  refine ⟨h.waiting,hpool ▸ h.full,?_,?_⟩
  · intro hparked
    have hpending := h.pending hparked
    rw [awake_cons,ht] at hpending
    rw [hpool,awake_add]
    simp only [Bool.false_eq_true,if_false] at hpending
    omega
  · intro ctx cancelled hparked
    obtain ⟨hclosed,hwatched⟩ := h.watched ctx cancelled hparked
    refine ⟨hchannels ▸ hclosed,?_⟩
    by_cases hself : t=.watching ctx cancelled ∨ t=.broadcasting ctx cancelled
    · exact (hwatch ctx cancelled hclosed hself).imp (fun hmem => mem_add.mpr (Or.inl hmem))
        (fun hmem => mem_add.mpr (Or.inl hmem))
    · rw [not_or] at hself
      apply Watched.add_right
      exact hwatched.imp (fun hmem => (mem_cons.mp hmem).resolve_left fun heq => hself.1 heq.symm)
        (fun hmem => (mem_cons.mp hmem).resolve_left fun heq => hself.2 heq.symm)
end Parked
theorem turn_parked {rest parked : Multiset (Thread S C)} (h : Turns w ctx o)
    (hw : Parked w rest parked 1) (hfresh : w.channels∉w.closedChannels) :
    o.wake=.none ∧ Parked o.shared (o.running+0+rest) (o.parked+parked) 0 := by
  have hempty : parked≠0 → w.pool.sessions=[] → w.pool.sessions.length≤awake rest+0 := by
    intro _ hidle
    rw [hidle]
    exact Nat.zero_le _
  cases h with
  | poolClosed hclosed =>
    refine ⟨rfl,?_⟩
    simp only [World.goOn,zero_add]
    refine ⟨hw.waiting,hw.full,?_,hw.watched⟩
    intro hparked
    exact absurd ((hw.full hparked).1.symm.trans hclosed) Bool.false_ne_true
  | lease hopen hidle =>
    refine ⟨rfl,?_⟩
    simp only [World.goOn,zero_add,add_zero]
    refine ⟨hw.waiting,hw.full,?_,?_⟩
    · intro hparked
      have hpending := hw.pending hparked
      rw [hidle,List.length_cons] at hpending
      rw [awake_add]
      simp only [Pool.keep]
      omega
    · intro ctx' cancelled hmem
      obtain ⟨hclosed,hwatched⟩ := hw.watched ctx' cancelled hmem
      exact ⟨hclosed,hwatched.add_right _⟩
  | reserve hopen hidle hroom =>
    -- With room in the pool nobody is parked.
    have hnobody : parked=0 := by
      by_contra hparked
      have hfull := (hw.full hparked).2
      omega
    subst hnobody
    exact ⟨rfl,Parked.nobody _ _ _⟩
  | cancelled hidle _ =>
    refine ⟨rfl,?_⟩
    simp only [World.goOn,zero_add]
    exact ⟨hw.waiting,hw.full,fun hparked => hempty hparked hidle,hw.watched⟩
  | wait hopen hidle hfull _ =>
    refine ⟨rfl,?_⟩
    refine ⟨?_,fun _ => ⟨hopen,not_lt.mp hfull⟩,?_,?_⟩
    · intro t ht
      rcases mem_add.mp ht with ht | ht
      · rw [mem_singleton.mp ht]
        rfl
      · exact hw.waiting t ht
    · intro _
      rw [hidle]
      exact Nat.zero_le _
    · intro ctx' cancelled hmem
      rcases mem_add.mp hmem with hmem | hmem
      · cases mem_singleton.mp hmem
        exact ⟨hfresh,Or.inl (mem_add.mpr (Or.inl (mem_singleton_self _)))⟩
      · obtain ⟨hclosed,hwatched⟩ := hw.watched ctx' cancelled hmem
        exact ⟨hclosed,hwatched.add_right _⟩

variable {woken left : Multiset (Thread S C)}
theorem Parked.of_all {parked : Multiset (Thread S C)} (hwake : Wakes .all parked woken left) :
    Parked w running (0+left) 0 := by
  rw [hwake.left_of_all]
  exact Parked.nobody w running 0

theorem Parked.released {w' : World S C} {session : S} {rest parked : Multiset (Thread S C)}
    (h : Parked w (.leased session ::ₘ rest) parked 0) (hwake : Wakes .one parked woken left)
    (hsessions : w'.pool.sessions.length=w.pool.sessions.length+1)
    (hclosed : w'.pool.closed=w.pool.closed)
    (hfull : w'.pool.maxSize≤w'.pool.size ↔ w.pool.maxSize≤w.pool.size)
    (hchannels : w'.closedChannels=w.closedChannels) :
    Parked w' (0+woken+rest) (0+left) 0 := by
  rw [zero_add,zero_add]
  have hparked : left≠0 → parked≠0 := by
    intro hleft hnobody
    obtain ⟨t,ht⟩ := exists_mem_of_ne_zero hleft
    exact absurd (hwake.mem_parked ht) (hnobody ▸ notMem_zero t)
  refine ⟨fun t ht => h.waiting t (hwake.mem_parked ht),?_,?_,?_⟩
  · intro hleft
    rw [hclosed,hfull]
    exact h.full (hparked hleft)
  · intro hleft
    have hpending := h.pending (hparked hleft)
    have hwoken : awake woken=1 := by
      rw [← hwake.card_of_one hleft,awake,countP_eq_card]
      intro t ht
      exact h.waiting t (hwake.add_eq ▸ mem_add.mpr (Or.inl ht))
    have hleased : awake (.leased session ::ₘ rest)=awake rest := awake_cons _ _
    rw [hsessions,awake_add,hwoken]
    omega
  · intro ctx cancelled hleft
    obtain ⟨hopen,hwatched⟩ :=
      h.watched_rest (fun _ _ => ⟨nofun,nofun⟩) ctx cancelled (hwake.mem_parked hleft)
    exact ⟨hchannels ▸ hopen,hwatched.add_right woken⟩

theorem channel_ne {rest parked : Multiset (Thread S C)} {ctx' : C} {cancelled cancelled' : Nat}
    (hchannels : Multiset.range w.channels=w.closedChannels +
      (⟨w,.waiting ctx cancelled ::ₘ rest,parked⟩ : Crowd (World S C) (Thread S C)).total
        channel) (hparked : .waiting ctx' cancelled'∈parked) : cancelled'≠cancelled := by
  have hnodup := hchannels ▸ nodup_range w.channels
  have hlive := (nodup_add.mp hnodup).2.1
  rw [Crowd.total_of_running rfl] at hlive
  have hdisjoint := (nodup_add.mp hlive).2.2
  obtain ⟨others,hothers⟩ := exists_cons_of_mem hparked
  have hmem : cancelled'∈((rest+parked).map channel).sum := by
    rw [hothers,add_cons,map_cons,sum_cons]
    exact mem_add.mpr (Or.inl (mem_singleton_self _))
  intro heq
  exact disjoint_left.mp hdisjoint (mem_singleton.mpr heq) hmem

theorem acts_parked {rest parked : Multiset (Thread S C)} (h : Acts t w o)
    (hwake : Wakes o.wake parked woken left) (hchannels : Multiset.range w.channels =
      w.closedChannels+(⟨w,t ::ₘ rest,parked⟩ : Crowd _ _).total channel)
    (hw : Parked w (t ::ₘ rest) parked 0) :
    Parked o.shared (o.running+woken+rest) (o.parked+left) 0 := by
  have hfresh : ∀ {cancelled}, cancelled∈Multiset.range w.channels → w.channels≠cancelled := by
    intro cancelled hmem heq
    exact absurd (mem_range.mp hmem) (heq ▸ Nat.lt_irrefl _)
  cases h with
  | acquire ctx =>
    have hawake : awake (.acquire ctx ::ₘ rest)=awake rest := awake_cons _ _
    have hspare : Parked w rest parked 1 := by
      refine ⟨hw.waiting,hw.full,?_,hw.watched_rest fun _ _ => ⟨nofun,nofun⟩⟩
      intro hparked
      exact Nat.le_succ_of_le (hawake ▸ hw.pending hparked)
    have hnew : w.channels∉w.closedChannels := fun hmem =>
      hfresh (hchannels ▸ mem_add.mpr (Or.inl hmem)) rfl
    obtain ⟨hnone,hparked⟩ := turn_parked (turn_turns w ctx) hspare hnew
    rw [hnone] at hwake
    cases hwake
    exact hparked
  | awake ctx cancelled =>
    have hawake : awake (.waiting ctx cancelled ::ₘ rest)=awake rest+1 := awake_cons _ _
    have hspare : Parked { w with closedChannels := cancelled ::ₘ w.closedChannels } rest parked
        1 := by
      refine ⟨hw.waiting,hw.full,fun hparked => hawake ▸ hw.pending hparked,?_⟩
      intro ctx' cancelled' hparked
      obtain ⟨hclosed,hwatched⟩ := hw.watched_rest (fun _ _ => ⟨nofun,nofun⟩) _ _ hparked
      refine ⟨?_,hwatched⟩
      rw [mem_cons,not_or]
      exact ⟨channel_ne hchannels hparked,hclosed⟩
    have hnew : w.channels∉cancelled ::ₘ w.closedChannels := by
      rw [mem_cons,not_or]
      refine ⟨hfresh ?_,fun hmem => hfresh (hchannels ▸ mem_add.mpr (Or.inl hmem)) rfl⟩
      rw [hchannels,Crowd.total_of_running rfl]
      exact mem_add.mpr (Or.inr (mem_add.mpr (Or.inl (mem_singleton_self _))))
    obtain ⟨hnone,hparked⟩ := turn_parked (turn_turns _ ctx) hspare hnew
    rw [hnone] at hwake
    cases hwake
    exact hparked
  | releaseOpen hopen hsend =>
    rw [Pool.send] at hsend
    split at hsend
    · cases hsend
      exact hw.released hwake (by simp [Pool.keep]) rfl Iff.rfl rfl
    · cases hsend
  | failed | connectedClosed _ | releaseClosed _ | discard | close _ | broadcast =>
    exact Parked.of_all hwake
  | contextDone _ =>
    cases hwake
    apply hw.goOn rfl rfl rfl
    rintro ctx cancelled _ (heq | heq)
    · cases heq
      exact Or.inr (mem_singleton_self _)
    · cases heq
  | channelClosed hclosed =>
    cases hwake
    apply hw.goOn rfl rfl rfl
    rintro ctx cancelled hopen (heq | heq)
    · cases heq
      exact absurd hclosed hopen
    · cases heq
  | _ =>
    cases hwake
    exact hw.goOn rfl rfl rfl fun _ _ _ hself => by rcases hself with heq | heq <;> cases heq

section Runs
variable {maxSize : Int} {first : S} {done : C → Bool} {c : Crowd (World S C) (Thread S C)}
theorem Enters.isWaiting_eq (h : Enters t) : t.isWaiting=false := by
  cases h <;> rfl

theorem Reachable.parked (h : Reachable maxSize first done c) :
    Parked c.shared c.running c.parked 0 := by
  refine Monitor.Reachable.keeps h (P := fun c => Parked c.shared c.running c.parked 0) ?_ ?_
  · exact Parked.nobody _ _ _
  · intro c c' hreach hw hstep
    cases hstep with
    | act hact hwake =>
      exact acts_parked hact hwake (Reachable.channels_eq hreach) hw
    | enter henter =>
      refine ⟨hw.waiting,hw.full,?_,?_⟩
      · intro hparked
        rw [awake_cons,henter.isWaiting_eq]
        exact hw.pending hparked
      · intro ctx cancelled hparked
        obtain ⟨hopen,hwatched⟩ := hw.watched ctx cancelled hparked
        exact ⟨hopen,hwatched.imp mem_cons_of_mem mem_cons_of_mem⟩
    | environment henv =>
      cases henv
      exact ⟨hw.waiting,hw.full,hw.pending,hw.watched⟩

/-- The broadcast for a cancelled context is still to come: its watcher is before the lock, or in
its `select` with the channel open. -/
def BroadcastToCome (c : Crowd (World S C) (Thread S C)) (ctx : C) (cancelled : Nat) : Prop :=
  .broadcasting ctx cancelled∈c.running ∨
    .watching ctx cancelled∈c.running ∧ cancelled∉c.shared.closedChannels

/-- No wake-up is lost. -/
theorem parked_without_wakeup (hmax : 1 ≤ maxSize) (h : Reachable maxSize first done c) {ctx : C}
    {cancelled : Nat} (hparked : .waiting ctx cancelled∈c.parked)
    (hpending : ∀ t∈c.running, t.isWaiting=false) :
    c.shared.pool.closed=false ∧ c.shared.pool.sessions=[] ∧ c.shared.pool.size=maxSize ∧
      (c.shared.done ctx=false ∨ BroadcastToCome c ctx cancelled) := by
  have hw := h.parked
  have hbounded := h.bounded hmax
  have hsome : c.parked≠0 := by
    intro hnobody
    rw [hnobody] at hparked
    exact notMem_zero _ hparked
  obtain ⟨hopen,hfull⟩ := hw.full hsome
  refine ⟨hopen,?_,?_,?_⟩
  · have hnone : awake c.running=0 := by
      rw [awake,countP_eq_zero]
      intro t ht hwaiting
      exact Bool.false_ne_true ((hpending t ht).symm.trans hwaiting)
    have hidle := hw.pending hsome
    rw [hnone] at hidle
    exact List.length_eq_zero_iff.mp (Nat.le_zero.mp hidle)
  · rw [hbounded.maxSize_eq] at hfull
    exact le_antisymm hbounded.size_le hfull
  · obtain ⟨hchannel,hwatched⟩ := hw.watched ctx cancelled hparked
    rcases hwatched with hwatching | hbroadcasting
    · exact Or.inr (Or.inr ⟨hwatching,hchannel⟩)
    · exact Or.inr (Or.inl hbroadcasting)
end Runs
theorem parked_without_wakeup_cancelled : ∃ c : Crowd (World Nat Unit) (Thread Nat Unit),
      Reachable 1 0 (fun _ => false) c ∧ .waiting () 0∈c.parked ∧ c.shared.done ()=true ∧
        c.shared.pool.size=1 ∧ BroadcastToCome c () 0 := by
  have h : (poolMonitor Nat Unit).Reachable (.new 1 0 fun _ => false) ⟨_,0,0⟩ := .refl
  have h := h.enter _ (.acquire ())
  have h := h.act (.acquire ()) 0 (by decide) (.acquire ()) (.none _)
  have h := h.enter _ (.acquire ())
  have h := h.act (.acquire ()) {.leased 0} (by decide) (.acquire ()) (.none _)
  have h := h.tail (.environment (.cancel (fun _ => true) fun _ _ => rfl))
  have hparked := @parked_without_wakeup Nat Unit 1 0 (fun _ => false) _ (by decide) h () 0
    (by decide) (by decide)
  exact ⟨_,h,by decide,rfl,hparked.2.2.1,hparked.2.2.2.resolve_left (by decide)⟩
end GudeAgents.Mcp
