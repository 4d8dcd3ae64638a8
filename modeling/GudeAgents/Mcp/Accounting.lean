import Mathlib.Algebra.Order.Ring.Nat
import Mathlib.Algebra.Ring.Int.Defs
import Mathlib.Data.Nat.Cast.Basic
import GudeAgents.Mcp.Pool
/-!
# Accounting of the connection pool

`size` counts the idle sessions, the leases and the connections being opened.
-/
namespace GudeAgents.Mcp
open Framework Multiset Outcome Pool
variable {S C : Type}
namespace Thread
def lease : Thread S C → Multiset S
  | .leased session => {session}
  | _ => 0
def opening : Thread S C → Nat
  | .connecting | .connected _ | .connectFailed => 1
  | _ => 0
def toClose : Thread S C → Multiset S
  | .closing sessions => sessions
  | _ => 0
def opened : Thread S C → Multiset S
  | .connected session => {session}
  | _ => 0
def held (t : Thread S C) : Multiset S := t.lease+(t.opened+t.toClose)
def slots (t : Thread S C) : Nat := Multiset.card t.lease+t.opening
end Thread
def leases (c : Crowd (World S C) (Thread S C)) : Multiset S := c.total Thread.lease
def opening (c : Crowd (World S C) (Thread S C)) : Nat := c.total Thread.opening
def toClose (c : Crowd (World S C) (Thread S C)) : Multiset S := c.total Thread.toClose

variable {o : Outcome (World S C) (Thread S C)} {w : World S C}
theorem turn_slots {ctx : C} (h : Turns w ctx o) {others : Int}
    (hw : w.pool.size=w.pool.sessions.length+others) :
    o.shared.pool.size =
      o.shared.pool.sessions.length+(o.total (fun t => (t.slots : Int))+others) := by
  cases h with
  | poolClosed _ | cancelled _ _ => simpa [total,World.goOn] using hw
  | lease _ hidle =>
    simp only [hidle,List.length_cons] at hw
    simp [total,World.goOn,keep,Thread.slots,Thread.lease,Thread.opening]
    omega
  | reserve _ hidle _ =>
    simp only [hidle,List.length_nil] at hw
    simp [total,World.goOn,reserve,hidle,Thread.slots,Thread.lease,Thread.opening]
    omega
  | wait _ hidle _ _ =>
    simpa [total,Thread.slots,Thread.lease,Thread.opening] using hw

variable {t : Thread S C}
theorem acts_slots (others : Int) (h : Acts t w o)
    (hw : w.pool.size=w.pool.sessions.length+((t.slots : Int)+others)) :
    o.shared.pool.size =
      o.shared.pool.sessions.length+(o.total (fun t => (t.slots : Int))+others) := by
  cases h with
  | acquire ctx =>
    simp [Thread.slots,Thread.lease,Thread.opening] at hw
    exact turn_slots (turn_turns w ctx) hw
  | awake ctx cancelled =>
    simp [Thread.slots,Thread.lease,Thread.opening] at hw
    exact turn_slots (turn_turns _ ctx) hw
  | releaseOpen hopen hsend =>
    rw [send] at hsend
    split at hsend
    · cases hsend
      simp [Thread.slots,Thread.lease,Thread.opening] at hw
      simp [total,keep]
      omega
    · cases hsend
  | close hopen =>
    simp [Thread.slots,Thread.lease,Thread.opening] at hw
    simp [total,close_eq,Thread.slots,Thread.lease,Thread.opening]
    omega
  | _ =>
    simp [Thread.slots,Thread.lease,Thread.opening] at hw
    simp [total,World.goOn,World.giveBack,giveBack,Thread.slots,Thread.lease, Thread.opening]
    omega

theorem turn_held {ctx : C} (h : Turns w ctx o) {others : Multiset S}
    (hw : w.connections=(w.pool.sessions : Multiset S)+w.closes+others) :
    o.shared.connections =
      (o.shared.pool.sessions : Multiset S)+o.shared.closes+(o.total Thread.held+others) := by
  cases h with
  | poolClosed _ | cancelled _ _ => simpa [total,World.goOn] using hw
  | lease _ hidle =>
    rw [hidle,← cons_coe] at hw
    rw [hw,← singleton_add]
    ac_rfl
  | reserve _ hidle _ =>
    simpa [total,World.goOn,reserve,Thread.held,Thread.lease,Thread.opened, Thread.toClose] using hw
  | wait _ hidle _ _ =>
    simpa [total,Thread.held,Thread.lease,Thread.opened,Thread.toClose] using hw

theorem acts_held (others : Multiset S) (h : Acts t w o)
    (hw : w.connections=(w.pool.sessions : Multiset S)+w.closes+(t.held+others)) :
    o.shared.connections =
      (o.shared.pool.sessions : Multiset S)+o.shared.closes+(o.total Thread.held+others) := by
  cases h with
  | acquire ctx =>
    simp only [Thread.held,Thread.lease,Thread.opened,Thread.toClose,zero_add] at hw
    exact turn_held (turn_turns w ctx) hw
  | awake ctx cancelled =>
    simp only [Thread.held,Thread.lease,Thread.opened,Thread.toClose,zero_add] at hw
    exact turn_held (turn_turns _ ctx) hw
  | connects hnew =>
    simp only [total,World.goOn,add_zero,map_singleton,sum_singleton,Thread.held,
      Thread.lease,Thread.opened,Thread.toClose,zero_add,hw,← singleton_add]
    ac_rfl
  | releaseOpen hopen hsend =>
    rw [send] at hsend
    split at hsend
    · cases hsend
      simp only [Thread.held,Thread.lease,Thread.opened,Thread.toClose,add_zero] at hw
      simp only [total,keep,add_zero,map_zero,sum_zero,← coe_add,coe_singleton, zero_add,hw]
      ac_rfl
    · cases hsend
  | close hopen =>
    simp only [total,close_eq,add_zero,map_singleton,sum_singleton,Thread.held,
      Thread.lease,Thread.opened,Thread.toClose,coe_nil,zero_add,hw]
    ac_rfl
  | @closes session rest =>
    simp only [Thread.held,Thread.lease,Thread.opened,Thread.toClose,zero_add,← cons_coe,
      ← singleton_add] at hw
    simp only [total,World.goOn,add_zero,map_singleton,sum_singleton,Thread.held,
      Thread.lease,Thread.opened,Thread.toClose,zero_add,← singleton_add,hw]
    ac_rfl
  | _ =>
    simpa [total,World.goOn,World.giveBack,giveBack,Thread.held,Thread.lease,
      Thread.opened,Thread.toClose] using hw

structure Bounded (maxSize : Int) (w : World S C) : Prop where
  maxSize_eq : w.pool.maxSize=maxSize
  size_le : w.pool.size ≤ maxSize
  drained : w.pool.closed=true → w.pool.sessions=[]
  connections_nodup : w.connections.Nodup

variable {maxSize : Int}
theorem turn_bounded {ctx : C} (h : Turns w ctx o) (hw : Bounded maxSize w) :
    Bounded maxSize o.shared := by
  have hmax := hw.maxSize_eq
  cases h with
  | poolClosed _ | cancelled _ _ => exact hw
  | lease hopen _ =>
    exact ⟨hmax,hw.size_le,fun hclosed => absurd (hopen.symm.trans hclosed) (by decide),
      hw.connections_nodup⟩
  | reserve hopen _ hroom =>
    exact ⟨hmax,by show w.pool.size+1 ≤ maxSize; omega,
      fun hclosed => absurd (hopen.symm.trans hclosed) (by decide),hw.connections_nodup⟩
  | wait _ _ _ _ => exact ⟨hmax,hw.size_le,hw.drained,hw.connections_nodup⟩

theorem Bounded.giveBack (hw : Bounded maxSize w) (running : Multiset (Thread S C)) :
    Bounded maxSize (w.giveBack running).shared := by
  have hle := hw.size_le
  exact ⟨hw.maxSize_eq,by show w.pool.size-1 ≤ maxSize; omega,hw.drained,hw.connections_nodup⟩

theorem acts_bounded (h : Acts t w o) (hw : Bounded maxSize w) : Bounded maxSize o.shared := by
  have hle := hw.size_le
  cases h with
  | acquire ctx => exact turn_bounded (turn_turns w ctx) hw
  | awake ctx cancelled =>
    exact turn_bounded (turn_turns _ ctx) ⟨hw.maxSize_eq,hw.size_le,hw.drained,hw.connections_nodup⟩
  | connects hnew =>
    exact ⟨hw.maxSize_eq,hle,hw.drained,nodup_cons.mpr ⟨hnew,hw.connections_nodup⟩⟩
  | fails | connectedOpen _ | closeAgain _ | closedAll | contextDone _ | channelClosed _
  | broadcast => exact hw
  | failed => exact hw.giveBack 0
  | connectedClosed _ | releaseClosed _ | discard => exact hw.giveBack _
  | releaseOpen hopen hsend =>
    rw [send] at hsend
    split at hsend
    · cases hsend
      exact ⟨hw.maxSize_eq,hle,fun hclosed => absurd (hopen.symm.trans hclosed) (by decide),
        hw.connections_nodup⟩
    · cases hsend
  | close _ =>
    rw [close_eq]
    exact ⟨hw.maxSize_eq,by show w.pool.size-w.pool.sessions.length ≤ maxSize; omega,fun _ => rfl,
      hw.connections_nodup⟩
  | closes => exact ⟨hw.maxSize_eq,hle,hw.drained,hw.connections_nodup⟩

section Runs
variable {maxSize : Int} {first : S} {done : C → Bool} {c : Crowd (World S C) (Thread S C)}
def Reachable (maxSize : Int) (first : S) (done : C → Bool) (c : Crowd (World S C) (Thread S C)) :
    Prop :=
  (poolMonitor S C).Reachable (.new maxSize first done) c

theorem Enters.slots_eq (h : Enters t) : t.slots=0 := by
  cases h <;> rfl
theorem Enters.held_eq (h : Enters t) : t.held=0 := by
  cases h <;> rfl

section
variable (h : Reachable maxSize first done c)
include h
theorem Reachable.bounded (hmax : 1 ≤ maxSize) : Bounded maxSize c.shared := by
  refine Monitor.Reachable.shared h (P := Bounded maxSize) ?_ (fun hact => acts_bounded hact) ?_
  · exact ⟨rfl,hmax,fun hclosed => absurd hclosed Bool.false_ne_true,nodup_singleton first⟩
  · intro w w' hcancel hw
    cases hcancel
    exact ⟨hw.maxSize_eq,hw.size_le,hw.drained,hw.connections_nodup⟩

theorem Reachable.size_eq :
    c.shared.pool.size=c.shared.pool.sessions.length+Multiset.card (leases c)+opening c := by
  have hbalance := Monitor.Reachable.balance h (fun w => w.pool.size)
    (fun w => (w.pool.sessions.length : Int)) (fun t => (t.slots : Int)) rfl
    (fun others hact hw => acts_slots others hact hw)
    (fun henter => by rw [henter.slots_eq]; rfl)
    (fun henv => by cases henv; exact ⟨rfl,rfl⟩)
  have hslots : c.total (fun t => (t.slots : Int))=Multiset.card (leases c)+opening c := by
    have hcast := (Crowd.map_total (Nat.castAddMonoidHom Int) c Thread.slots).symm
    have hcard := Crowd.map_total Multiset.cardHom c Thread.lease
    have hsum : c.total Thread.slots=Multiset.card (leases c)+opening c :=
      (c.total_add _ _).trans (congrArg (· + opening c) hcard.symm)
    rw [hsum] at hcast
    exact hcast.trans (Nat.cast_add _ _)
  rw [hbalance,hslots,← add_assoc]

theorem Reachable.connections_eq :
    c.shared.connections=(c.shared.pool.sessions : Multiset S)+c.shared.closes +
      (leases c+(c.total Thread.opened+toClose c)) := by
  have hbalance := Monitor.Reachable.balance h (fun w => w.connections)
    (fun w => (w.pool.sessions : Multiset S)+w.closes) Thread.held rfl
    (fun others hact hw => acts_held others hact hw) (fun henter => henter.held_eq)
    (fun henv => by cases henv; exact ⟨rfl,rfl⟩)
  have hheld : c.total Thread.held=leases c+(c.total Thread.opened+toClose c) :=
    (c.total_add _ _).trans (congrArg (leases c + ·) (c.total_add _ _))
  rw [hbalance,hheld]
end
theorem mem_leases {session : S} (h : .leased session∈c.running) : session∈leases c := by
  obtain ⟨rest,hrest⟩ := exists_cons_of_mem h
  rw [leases,Crowd.total_of_running hrest]
  exact mem_add.mpr (Or.inl (mem_singleton_self session))

theorem opened_eq_zero (h : opening c=0) : c.total Thread.opened=0 := by
  have hcard := Crowd.map_total Multiset.cardHom c Thread.opened
  have hle : c.total (fun t => Multiset.card t.opened)≤opening c := by
    apply Crowd.total_mono
    intro t
    cases t <;> simp [Thread.opened,Thread.opening]
  rw [h,Nat.le_zero] at hle
  exact card_eq_zero.mp (hcard.trans hle)

/-- What the size of the pool counts, and which sessions are leased and closed. -/
structure Accounted (maxSize : Int) (c : Crowd (World S C) (Thread S C)) : Prop where
  size_eq : c.shared.pool.size =
    c.shared.pool.sessions.length+Multiset.card (leases c)+opening c
  size_nonneg : 0≤c.shared.pool.size
  size_le : c.shared.pool.size ≤ maxSize
  leases_nodup : (leases c).Nodup
  closes_nodup : c.shared.closes.Nodup
  leased_open : ∀ session∈leases c, session∉c.shared.closes
  sends : c.shared.pool.closed=false → ∀ session, .leased session∈c.running →
    (c.shared.pool.send session).isSome
  /-- After `Close`, without leases and without connections being opened. -/
  size_zero : c.shared.pool.closed=true → leases c=0 → opening c=0 → c.shared.pool.size=0
  /-- If moreover no call is still to close a session, all of them are closed. -/
  closes_eq : c.shared.pool.closed=true → leases c=0 → opening c=0 → toClose c=0 →
    c.shared.closes=c.shared.connections

/-- The pool's books are right in every interleaving of its callers. -/
theorem reachable_accounted (hmax : 1 ≤ maxSize) (h : Reachable maxSize first done c) :
    Accounted maxSize c := by
  have hbounded := h.bounded hmax
  have hsize := h.size_eq
  have hconnections := h.connections_eq
  have hnodup := hbounded.connections_nodup
  rw [hconnections] at hnodup
  obtain ⟨hstock,hheld,hdisjoint⟩ := nodup_add.mp hnodup
  refine ⟨hsize,by omega,hbounded.size_le,(nodup_add.mp hheld).1,(nodup_add.mp hstock).2.1,?_,?_,?_,
    ?_⟩
  · intro session hleased hclosed
    exact disjoint_left.mp hdisjoint (mem_add.mpr (Or.inr hclosed)) (mem_add.mpr (Or.inl hleased))
  · intro _ session hleased
    have hpos : 0<Multiset.card (leases c) :=
      card_pos_iff_exists_mem.mpr ⟨session,mem_leases hleased⟩
    have hroom : (c.shared.pool.sessions.length : Int)<c.shared.pool.maxSize := by
      rw [hbounded.maxSize_eq]
      have hle := hbounded.size_le
      omega
    rw [send,if_pos hroom]
    rfl
  · intro hclosed hleases hopening
    rw [hsize,hbounded.drained hclosed,hleases,hopening]
    rfl
  · intro hclosed hleases hopening htoClose
    rw [hconnections,hbounded.drained hclosed,hleases,opened_eq_zero hopening,htoClose]
    simp
end Runs
theorem reachable_accounted_closed : ∃ c : Crowd (World Nat Unit) (Thread Nat Unit),
      Reachable 2 0 (fun _ => false) c ∧ c.shared.pool.closed=true ∧ leases c=0 ∧
        opening c=0 ∧ toClose c=0 ∧ c.shared.closes={0} ∧ Accounted 2 c := by
  have h : (poolMonitor Nat Unit).Reachable (.new 2 0 fun _ => false) ⟨_,0,0⟩ := .refl
  have h := h.enter _ (.acquire ())
  have h := h.act (.acquire ()) 0 (by decide) (.acquire ()) (.none _)
  have h := h.enter _ .close
  have h := h.act .close {.leased 0} (by decide) (.close rfl) (.all _)
  have h := h.act (.leased 0) {.closing []} (by decide) (.releaseClosed rfl) (.all _)
  have h := h.act (.closing [0]) {.closing []} (by decide) .closes (.none _)
  exact ⟨_,h,by decide,by decide,by decide,by decide,by decide,reachable_accounted (by decide) h⟩

theorem slot_taken_after_close : ∃ c : Crowd (World Nat Unit) (Thread Nat Unit),
      Reachable 2 0 (fun _ => false) c ∧ c.shared.pool.closed=true ∧ leases c=0 ∧
        toClose c=0 ∧ c.shared.pool.size=1 := by
  have h : (poolMonitor Nat Unit).Reachable (.new 2 0 fun _ => false) ⟨_,0,0⟩ := .refl
  have h := h.enter _ (.acquire ())
  have h := h.act (.acquire ()) 0 (by decide) (.acquire ()) (.none _)
  have h := h.enter _ (.acquire ())
  have h := h.act (.acquire ()) {.leased 0} (by decide) (.acquire ()) (.none _)
  have h := h.enter _ .close
  have h := h.act .close {.connecting, .leased 0} (by decide) (.close rfl) (.all _)
  have h := h.act (.leased 0) {.closing [], .connecting} (by decide) (.releaseClosed rfl) (.all _)
  have h := h.act (.closing [0]) {.closing [], .connecting} (by decide) .closes (.none _)
  exact ⟨_,h,by decide⟩
end GudeAgents.Mcp
