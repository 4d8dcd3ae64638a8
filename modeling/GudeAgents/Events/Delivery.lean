import GudeAgents.Events.Stream
/-!
# Delivery of events

What was yielded, what a drain has taken and what is queued are the emitted events in their order,
until the consumer stops.
-/
namespace GudeAgents.Events
open List Multiset Sink
variable {P : Type}
def scriptEvents : Nat → List (Segment P) → List (Event P)
  | _, [] => []
  | n, .emit kind payload::rest => .engine kind payload::scriptEvents n rest
  | n, .calls _ calls::rest => (batchEvents n calls).flatten++scriptEvents (n+calls.length) rest
def ofOrigin (o : Option Nat) (events : List (Event P)) : List (Event P) :=
  events.filter fun ev => ev.origin=o

@[simp] theorem ofOrigin_nil (o : Option Nat) : ofOrigin o ([] : List (Event P))=[] := rfl

@[simp] theorem ofOrigin_append (o : Option Nat) (events events' : List (Event P)) :
    ofOrigin o (events++events')=ofOrigin o events++ofOrigin o events' :=
  filter_append _ _

theorem ofOrigin_cons (o : Option Nat) (ev : Event P) (events : List (Event P)) :
    ofOrigin o (ev::events)=ofOrigin o [ev]++ofOrigin o events :=
  ofOrigin_append o [ev] events

theorem executeCall_origin (n : Nat) (c : Call P) : ∀ ev∈executeCall n c, ev.origin=some n := by
  have htools : ∀ events, ∀ ev∈toolEvents (P := P) n events, ev.origin=some n := by
    intro events ev hev
    obtain ⟨_,_,rfl⟩ := mem_map.mp hev
    rfl
  intro ev hev
  rcases executeCall_shape n c with ⟨events,hshape⟩ | ⟨before,during,hshape⟩
  · exact htools events ev (hshape ▸ hev)
  · rw [hshape,List.mem_append,List.mem_cons,List.mem_append,List.mem_singleton] at hev
    rcases hev with hev | rfl | hev | rfl
    · exact htools before ev hev
    · rfl
    · exact htools during ev hev
    · rfl

theorem length_batchEvents (n : Nat) (calls : List (Option (Call P))) :
    (batchEvents n calls).length=calls.length := by
  induction calls generalizing n with
  | nil => rfl
  | cons call rest ih => rw [batchEvents,length_cons,length_cons,ih]

variable {events : List (Event P)} {i : Nat}
variable {calls : List (Option (Call P))}
theorem batchEvents_origin {n : Nat} (h : (batchEvents n calls)[i]?=some events) :
    ∀ ev∈events, ev.origin=some (n+i) := by
  induction calls generalizing n i with
  | nil => cases h
  | cons call rest ih =>
    cases i with
    | zero =>
      rw [batchEvents,List.getElem?_cons_zero,Option.some.injEq] at h
      subst h
      cases call with
      | none => exact fun ev hev => absurd hev not_mem_nil
      | some c => exact executeCall_origin n c
    | succ i =>
      rw [← Nat.succ_add_eq_add_succ]
      exact ih h

def Worker.index : Worker → Option Nat
  | .fetching => none
  | .took i | .running i | .signalling i => some i

structure Batch.Valid (b : Batch P) : Prop where
  tagged : ∀ i events, b.calls[i]?=some events → ∀ ev∈events, ev.origin=some (b.first+i)
  inRange : ∀ w∈b.workers, ∀ i, w.index=some i → i<b.calls.length
  /-- A call that was taken is run by a worker, or finished. -/
  fetched : ∀ i<b.next, ∀ events, b.calls[i]?=some events →
    events=[] ∨ ∃ w∈b.workers, w.index=some i
  exhausted : b.workers=0 → b.calls.length≤b.next
  finished : b.done=true → b.workers=0

variable {others : Multiset Worker} {w : Worker}
variable {ev : Event P}
namespace Batch.Valid
variable {b : Batch P}
theorem flatten_eq (h : b.Valid) (hworkers : b.workers=0) : b.calls.flatten=[] := by
  rw [flatten_eq_nil_iff]
  intro events hevents
  obtain ⟨i,hi,hget⟩ := getElem_of_mem hevents
  have hcall : b.calls[i]?=some events := by rw [List.getElem?_eq_getElem hi,hget]
  rcases h.fetched i (Nat.lt_of_lt_of_le hi (h.exhausted hworkers)) events hcall with hnil | hbusy
  · exact hnil
  · obtain ⟨w,hw,_⟩ := hbusy
    rw [hworkers] at hw
    exact absurd hw (notMem_zero w)

theorem none : (Batch.none : Batch P).Valid :=
  ⟨fun _ _ h => absurd h (by simp [Batch.none]),fun w hw => absurd hw (notMem_zero w),
    fun _ hi => absurd hi (Nat.not_lt_zero _),fun _ => Nat.le_refl 0,fun _ => rfl⟩

theorem new {n : Nat} (limit : Int) (hcalls : 1<calls.length) :
    (Batch.new n (batchEvents n calls) limit).Valid := by
  have hcount : 0<Batch.workerCount (batchEvents n calls).length limit := by
    rw [Batch.workerCount,length_batchEvents]
    split <;> omega
  refine ⟨fun i events h => batchEvents_origin h,?_,fun i hi => absurd hi (Nat.not_lt_zero i),?_,
    fun h => absurd h Bool.false_ne_true⟩
  · intro w hw i hi
    rw [Multiset.eq_of_mem_replicate hw] at hi
    cases hi
  · intro hworkers
    have hcard := congrArg Multiset.card hworkers
    rw [Batch.new,card_replicate,card_zero] at hcard
    omega

theorem busy_of_ne (hworkers : b.workers=w ::ₘ others) (hne : w.index≠some i)
    (h : ∃ v∈b.workers, v.index=some i) : ∃ v∈others, v.index=some i := by
  obtain ⟨v,hv,hvi⟩ := h
  rw [hworkers] at hv
  rcases mem_cons.mp hv with rfl | hv
  · exact absurd hvi hne
  · exact ⟨v,hv,hvi⟩

section
variable (h : b.Valid)
include h
section
variable (hworkers : b.workers=w ::ₘ others)
include hworkers
theorem not_done : b.done≠true := by
  intro hdone
  exact absurd (hworkers.symm.trans (h.finished hdone)) cons_ne_zero

theorem inRange_cons {w' : Worker} (hw' : ∀ i, w'.index=some i → i<b.calls.length) :
    ∀ v∈w' ::ₘ others, ∀ i, v.index=some i → i<b.calls.length := by
  intro v hv
  rcases mem_cons.mp hv with rfl | hv
  · exact hw'
  · exact h.inRange v (hworkers ▸ mem_cons_of_mem hv)

theorem become {w' : Worker} (hindex : w'.index=w.index) : (b.become others w').Valid := by
  refine ⟨h.tagged,h.inRange_cons hworkers ?_,?_,fun hnone => absurd hnone cons_ne_zero,
    fun hdone => absurd hdone (h.not_done hworkers)⟩
  · rw [hindex]
    exact h.inRange w (hworkers ▸ mem_cons_self w others)
  · intro i hi events hcall
    refine (h.fetched i hi events hcall).imp_right ?_
    rintro ⟨v,hv,hvi⟩
    rw [hworkers] at hv
    rcases mem_cons.mp hv with rfl | hv
    · exact ⟨w',mem_cons_self w' others,hindex.trans hvi⟩
    · exact ⟨v,mem_cons_of_mem hv,hvi⟩
end
theorem fetch (hworkers : b.workers=.fetching ::ₘ others) (hnext : b.next<b.calls.length) :
    ({ b with next := b.next + 1, workers := .took b.next ::ₘ others } : Batch P).Valid := by
  refine ⟨h.tagged,h.inRange_cons hworkers ?_,?_,fun hnone => absurd hnone cons_ne_zero,
    fun hdone => absurd hdone (h.not_done hworkers)⟩
  · rintro i ⟨⟩
    exact hnext
  · intro i hi events hcall
    rcases Nat.lt_succ_iff_lt_or_eq.mp hi with hlt | rfl
    · refine (h.fetched i hlt events hcall).imp_right fun hbusy => ?_
      obtain ⟨v,hv,hvi⟩ := busy_of_ne hworkers (nofun) hbusy
      exact ⟨v,mem_cons_of_mem hv,hvi⟩
    · exact Or.inr ⟨.took b.next,mem_cons_self _ _,rfl⟩

theorem exit (hworkers : b.workers=.fetching ::ₘ others) (hnext : b.calls.length≤b.next) :
    ({ b with next := b.next + 1, workers := others } : Batch P).Valid := by
  refine ⟨h.tagged,?_,?_,fun _ => Nat.le_succ_of_le hnext,
    fun hdone => absurd hdone (h.not_done hworkers)⟩
  · intro v hv
    exact h.inRange v (hworkers ▸ mem_cons_of_mem hv)
  · intro i _ events hcall
    obtain ⟨hlt,_⟩ := List.getElem?_eq_some_iff.mp hcall
    exact (h.fetched i (Nat.lt_of_lt_of_le hlt hnext) events hcall).imp_right
      (busy_of_ne hworkers nofun)

theorem enqueue (hworkers : b.workers=.running i ::ₘ others)
    (hcall : b.calls[i]?=some (ev::events)) :
    ({ b with calls := b.calls.set i events, workers := .signalling i ::ₘ others } :
      Batch P).Valid := by
  have hvalid : (b.become others (.signalling i)).Valid := h.become hworkers rfl
  obtain ⟨hi,_⟩ := List.getElem?_eq_some_iff.mp hcall
  refine ⟨?_,?_,?_,fun hnone => absurd hnone cons_ne_zero,hvalid.finished⟩
  · intro j events' hget
    by_cases hj : i=j
    · subst hj
      rw [List.getElem?_set_self hi] at hget
      cases hget
      exact fun ev' hev' => h.tagged i _ hcall ev' (mem_cons_of_mem ev hev')
    · rw [List.getElem?_set_ne hj] at hget
      exact h.tagged j events' hget
  · intro v hv j hvj
    rw [length_set]
    exact hvalid.inRange v hv j hvj
  · intro j hj events' hget
    by_cases hij : i=j
    · subst hij
      exact Or.inr ⟨.signalling i,mem_cons_self _ _,rfl⟩
    · rw [List.getElem?_set_ne hij] at hget
      exact hvalid.fetched j hj events' hget

theorem returns (hworkers : b.workers=.running i ::ₘ others) (hcall : b.calls[i]?=some []) :
    (b.become others .fetching).Valid := by
  refine ⟨h.tagged,h.inRange_cons hworkers nofun,?_,fun hnone => absurd hnone cons_ne_zero,
    fun hdone => absurd hdone (h.not_done hworkers)⟩
  intro j hj events hget
  by_cases hij : i=j
  · subst hij
    exact Or.inl (Option.some.inj (hget.symm.trans hcall))
  · refine (h.fetched j hj events hget).imp_right fun hbusy => ?_
    obtain ⟨v,hv,hvj⟩ := busy_of_ne hworkers (fun heq => hij (Option.some.inj heq)) hbusy
    exact ⟨v,mem_cons_of_mem hv,hvj⟩

theorem closeDone (hworkers : b.workers=0) : ({ b with done := true } : Batch P).Valid :=
  ⟨h.tagged,h.inRange,h.fetched,h.exhausted,fun _ => hworkers⟩

theorem ofOrigin_set (hcall : b.calls[i]?=some (ev::events)) (o : Option Nat) :
    ofOrigin o b.calls.flatten=ofOrigin o [ev]++ofOrigin o (b.calls.set i events).flatten := by
  obtain ⟨hi,hget⟩ := List.getElem?_eq_some_iff.mp hcall
  have hset : ∀ events', (b.calls.set i events').flatten =
      (b.calls.take i).flatten++(events'++(b.calls.drop (i+1)).flatten) := by
    intro events'
    rw [set_eq_take_append_cons_drop,if_pos hi,flatten_append,flatten_cons]
  have hwhole : b.calls.set i (ev::events)=b.calls := by
    rw [← hget,set_getElem_self]
  have hcalls := hset (ev::events)
  rw [hwhole] at hcalls
  rw [hcalls,hset]
  simp only [ofOrigin_append]
  rw [ofOrigin_cons]
  by_cases ho : ev.origin=o
  · -- The calls before it have other numbers.
    have hbefore : ofOrigin o (b.calls.take i).flatten=[] := by
      rw [ofOrigin,filter_eq_nil_iff]
      intro ev' hev'
      obtain ⟨events',hevents',hev'⟩ := mem_flatten.mp hev'
      obtain ⟨j,hj,hget'⟩ := getElem_of_mem hevents'
      rw [length_take] at hj
      rw [getElem_take] at hget'
      have htag := h.tagged j events' (List.getElem?_eq_some_iff.mpr ⟨by omega,hget'⟩) ev' hev'
      have htag' := h.tagged i _ hcall ev mem_cons_self
      rw [decide_eq_true_iff,htag,← ho,htag',Option.some.injEq]
      omega
    rw [hbefore,nil_append,nil_append,append_assoc]
  · have hev : ofOrigin o [ev]=[] := by
      rw [ofOrigin,List.filter_singleton,decide_eq_false ho]
      rfl
    rw [hev,nil_append,nil_append]
end
end Batch.Valid
/-- What was yielded is a beginning of what was emitted. Until the consumer stops the rest has been
taken by a drain or is in the queue. -/
structure Sink.Delivers (s : Sink P) (taken log : List (Event P)) : Prop where
  notClosed : s.closed=false
  front : s.yielded <+: .start::log
  started : s.yielded≠[]
  complete : s.stopped=false → s.yielded++(taken++s.queue)=.start::log

namespace Sink.Delivers
variable {s : Sink P} {taken log : List (Event P)} {ev : Event P}
theorem front_append (h : s.Delivers taken log) (events : List (Event P)) :
    s.yielded <+: .start::(log++events) :=
  h.front.trans (prefix_append (.start::log) events)

theorem drain (h : s.Delivers (ev::taken) log) (goesOn : Bool) :
    (s.emit ev goesOn).Delivers taken log := by
  cases hstopped : s.stopped with
  | true =>
    rw [emit_of_stopped hstopped]
    exact ⟨h.notClosed,h.front,h.started,
      fun hgoing => absurd (hgoing.symm.trans hstopped) Bool.false_ne_true⟩
  | false =>
    have hcomplete : (s.yielded++[ev])++(taken++s.queue)=.start::log := by
      rw [← h.complete hstopped,append_assoc]
      rfl
    rw [emit_of_going hstopped h.notClosed]
    exact ⟨h.notClosed,⟨_,hcomplete⟩,append_ne_nil_of_right_ne_nil _ (cons_ne_nil _ _),
      fun _ => hcomplete⟩

theorem enqueue (h : s.Delivers taken log) (ev : Event P) :
    (s.enqueue ev).Delivers taken (log++[ev]) := by
  refine ⟨h.notClosed,h.front_append [ev],h.started,fun hstopped => ?_⟩
  show s.yielded++(taken++(s.queue++[ev]))=.start::log++[ev]
  rw [← h.complete hstopped]
  simp only [append_assoc]

theorem emit (h : s.Delivers [] log) (hqueue : s.queue=[]) (ev : Event P) (goesOn : Bool) :
    (s.emit ev goesOn).Delivers [] (log++[ev]) := by
  cases hstopped : s.stopped with
  | true =>
    rw [emit_of_stopped hstopped]
    exact ⟨h.notClosed,h.front_append [ev],h.started,
      fun hgoing => absurd (hgoing.symm.trans hstopped) Bool.false_ne_true⟩
  | false =>
    have hcomplete : s.yielded++[ev]=.start::(log++[ev]) := by
      have hall := h.complete hstopped
      rw [hqueue,append_nil,append_nil] at hall
      rw [hall]
      rfl
    rw [emit_of_going hstopped h.notClosed]
    refine ⟨h.notClosed,⟨[],?_⟩,append_ne_nil_of_right_ne_nil _ (cons_ne_nil _ _),fun _ => ?_⟩
    · rw [append_nil]
      exact hcomplete
    · show s.yielded++[ev]++([]++s.queue)=_
      rw [hqueue,append_nil,append_nil,hcomplete]

theorem take (h : s.Delivers [] log) : s.take.Delivers s.queue log := by
  refine ⟨h.notClosed,h.front,h.started,fun hstopped => ?_⟩
  show s.yielded++(s.queue++[])=_
  rw [← h.complete hstopped,append_nil]
  rfl
end Sink.Delivers
structure Sink.Returned (s : Sink P) (result : P) (log : List (Event P)) : Prop where
  front : s.stopped=true → s.yielded <+: .start::log
  started : s.yielded≠[]
  complete : s.stopped=false → s.yielded=.start::(log++[.ended result])

theorem Sink.Delivers.finish {s : Sink P} {log : List (Event P)} (h : s.Delivers [] log)
    (hqueue : s.queue=[]) (result : P) : (s.finish (.ended result)).Returned result log := by
  cases hstopped : s.stopped with
  | true =>
    rw [finish_of_stopped hstopped]
    exact ⟨fun _ => h.front,h.started,
      fun hgoing => absurd (hgoing.symm.trans hstopped) Bool.false_ne_true⟩
  | false =>
    have hall := h.complete hstopped
    rw [hqueue,append_nil,append_nil] at hall
    rw [finish_of_going hstopped h.notClosed]
    refine ⟨fun hstop => absurd (hstopped.symm.trans hstop) Bool.false_ne_true,
      append_ne_nil_of_right_ne_nil _ (cons_ne_nil _ _),fun _ => ?_⟩
    rw [hall]
    rfl

def After.rest : After P → List (Segment P)
  | .select rest | .leave rest => rest
  | .finish => []

namespace Engine
def rest : Engine P → List (Segment P)
  | .starting rest | .executing rest | .calling _ rest | .selecting rest | .returned rest => rest
  | .draining _ after => after.rest
def current : Engine P → List (Event P)
  | .calling events _ => events
  | _ => []
def inBatch : Engine P → Bool
  | .selecting _ | .draining _ (.select _) | .draining _ (.leave _) => true
  | _ => false

def Delivers (result : P) (s : Sink P) (log : List (Event P)) : Engine P → Prop
  | .starting _ => s=.new ∧ log=[]
  | .returned unrun => s.Returned result log ∧ (s.stopped=false → unrun=[])
  | .draining taken _ => s.Delivers taken log
  | _ => s.Delivers [] log
end Engine
variable {engine : Engine P}
namespace Engine
theorem inBatch_draining (taken taken' : List (Event P)) (after : After P) :
    (draining taken after).inBatch=(draining taken' after).inBatch := by
  cases after <;> rfl

theorem delivers_of_inBatch (h : engine.inBatch=true) (result : P) :
    engine.current=[] ∧ ∃ taken, ∀ s log, engine.Delivers result s log ↔ s.Delivers taken log := by
  cases engine with
  | selecting rest => exact ⟨rfl,[],fun _ _ => Iff.rfl⟩
  | draining taken after => exact ⟨rfl,taken,fun _ _ => Iff.rfl⟩
  | _ => cases h
end Engine
structure State.Valid (script : List (Segment P)) (result : P) (st : State P) : Prop where
  /-- What was emitted and what is still to come are, for every tool call, its events. -/
  accounted : ∀ o, ofOrigin o (st.log++(st.engine.current++(st.batch.calls.flatten ++
    scriptEvents st.calls st.engine.rest)))=ofOrigin o (scriptEvents 0 script)
  batch : st.batch.Valid
  quiet : st.engine.inBatch=false → st.batch.workers=0 ∧ st.sink.queue=[]
  leaving : ∀ taken rest, st.engine=.draining taken (.leave rest) → st.batch.workers=0
  delivers : st.engine.Delivers result st.sink st.log

namespace State.Valid
variable {script : List (Segment P)} {result : P} {st : State P}
theorem new (script : List (Segment P)) (result : P) : (State.new script).Valid script result :=
  ⟨fun _ => rfl,Batch.Valid.none,fun _ => ⟨rfl,rfl⟩,nofun,rfl,rfl⟩

section
variable (h : st.Valid script result)
include h
theorem flatten_eq (hengine : st.engine.inBatch=false) : st.batch.calls.flatten=[] :=
  h.batch.flatten_eq (h.quiet hengine).1

section
variable (hworkers : st.batch.workers=w ::ₘ others)
include hworkers
theorem inBatch : st.engine.inBatch=true := by
  by_contra hout
  have hzero := (h.quiet (Bool.eq_false_iff.mpr hout)).1
  exact absurd (hworkers.symm.trans hzero) cons_ne_zero
theorem not_leaving {taken : List (Event P)} {rest : List (Segment P)} :
    st.engine≠.draining taken (.leave rest) := by
  intro hengine
  exact absurd (hworkers.symm.trans (h.leaving taken rest hengine)) cons_ne_zero

theorem work {batch : Batch P} (hbatch : batch.Valid) (hcalls : batch.calls=st.batch.calls) :
    (st.work batch).Valid script result := by
  have hin := h.inBatch hworkers
  refine ⟨fun o => ?_,hbatch,fun hout => absurd (hout.symm.trans hin) Bool.false_ne_true,
    fun _ _ hengine => absurd hengine (h.not_leaving hworkers),h.delivers⟩
  show ofOrigin o (st.log++(st.engine.current++(batch.calls.flatten++_)))=_
  rw [hcalls]
  exact h.accounted o
end
theorem enqueue (hworkers : st.batch.workers=.running i ::ₘ others)
    (hcall : st.batch.calls[i]?=some (ev::events)) :
    State.Valid script result { st with
      sink := st.sink.enqueue ev
      batch := { st.batch with
        calls := st.batch.calls.set i events, workers := .signalling i ::ₘ others }
      log := st.log++[ev] } := by
  have hin := h.inBatch hworkers
  obtain ⟨hcurrent,taken,hdelivers⟩ := Engine.delivers_of_inBatch hin result
  refine ⟨fun o => ?_,h.batch.enqueue hworkers hcall,
    fun hout => absurd (hout.symm.trans hin) Bool.false_ne_true,
    fun _ _ hengine => absurd hengine (h.not_leaving hworkers),?_⟩
  · have haccounted := h.accounted o
    simp only [hcurrent,ofOrigin_append,nil_append,h.batch.ofOrigin_set hcall o] at haccounted ⊢
    simpa only [append_assoc] using haccounted
  · exact (hdelivers _ _).mpr (((hdelivers _ _).mp h.delivers).enqueue ev)

theorem advance {sink : Sink P} {log : List (Event P)}
    (haccounted : log++(engine.current++(st.batch.calls.flatten ++
      scriptEvents st.calls engine.rest))=st.log++(st.engine.current ++
        (st.batch.calls.flatten++scriptEvents st.calls st.engine.rest)))
    (hquiet : engine.inBatch=false → st.batch.workers=0 ∧ sink.queue=[])
    (hleaving : ∀ taken rest, engine=.draining taken (.leave rest) → st.batch.workers=0)
    (hdelivers : engine.Delivers result sink log) :
    State.Valid script result { st with sink := sink, engine := engine, log := log } :=
  ⟨fun o => (congrArg (ofOrigin o) haccounted).trans (h.accounted o),h.batch,hquiet,hleaving,
    hdelivers⟩

theorem emits (goesOn : Bool) (hbefore : st.engine.inBatch=false)
    (hafter : engine.inBatch=false) (hsink : st.sink.Delivers [] st.log)
    (hengine : ∀ {s : Sink P} {log}, s.Delivers [] log → engine.Delivers result s log)
    (haccounted : ev::(engine.current++scriptEvents st.calls engine.rest) =
      st.engine.current++scriptEvents st.calls st.engine.rest) :
    (st.emit ev goesOn engine).Valid script result := by
  obtain ⟨hworkers,hqueue⟩ := h.quiet hbefore
  refine h.advance ?_ (fun _ => ⟨hworkers,?_⟩) ?_ (hengine (hsink.emit hqueue ev goesOn))
  · rw [h.flatten_eq hbefore,nil_append,nil_append,← haccounted,append_assoc]
    rfl
  · rw [queue_emit,hqueue]
  · intro taken rest heq
    rw [heq] at hafter
    cases hafter

theorem begins {limit : Int} {rest : List (Segment P)}
    (hengine : st.engine=.executing (.calls limit calls::rest)) (o : Option Nat) :
    ofOrigin o (st.log++((batchEvents st.calls calls).flatten ++
      scriptEvents (st.calls+calls.length) rest))=ofOrigin o (scriptEvents 0 script) := by
  have haccounted := h.accounted o
  rw [h.flatten_eq (by rw [hengine]; rfl),hengine] at haccounted
  exact haccounted

theorem step {st' : State P} (hstep : Step result st st') : st'.Valid script result := by
  have hdelivers := h.delivers
  cases hstep with
  | start hengine =>
    rw [hengine] at hdelivers
    obtain ⟨hsink,hlog⟩ := hdelivers
    have hquiet := h.quiet (by rw [hengine]; rfl)
    refine h.advance (by rw [hengine]; rfl) (fun _ => ?_) nofun ?_
    · rw [queue_emit]
      exact hquiet
    · rw [hsink,hlog]
      exact ⟨rfl,prefix_rfl,cons_ne_nil _ _,fun _ => rfl⟩
  | startStops hengine =>
    rw [hengine] at hdelivers
    obtain ⟨hsink,hlog⟩ := hdelivers
    have hquiet := h.quiet (by rw [hengine]; rfl)
    refine h.advance (by rw [hengine]; rfl) (fun _ => ?_) nofun ?_
    · show _ ∧ (st.sink.emit .start false).queue=[]
      rw [queue_emit]
      exact hquiet
    · rw [hsink,hlog]
      exact ⟨⟨fun _ => prefix_rfl,cons_ne_nil _ _,nofun⟩,nofun⟩
  | emit goesOn hengine | call goesOn hengine =>
    rw [hengine] at hdelivers
    exact h.emits goesOn (by rw [hengine]; rfl) rfl hdelivers id (by rw [hengine]; rfl)
  | sequential hengine hlimit =>
    have hquiet := h.quiet (by rw [hengine]; rfl)
    have hflatten := h.flatten_eq (by rw [hengine]; rfl)
    rw [hengine] at hdelivers
    refine ⟨fun o => ?_,h.batch,fun _ => hquiet,nofun,hdelivers⟩
    rw [hflatten]
    exact h.begins hengine o
  | called hengine | executed hengine =>
    have hquiet := h.quiet (by rw [hengine]; rfl)
    rw [hengine] at hdelivers
    exact h.advance (by rw [hengine]; rfl) (fun _ => hquiet) nofun hdelivers
  | @parallel limit _ _ hengine hlimit hcalls =>
    rw [hengine] at hdelivers
    exact ⟨fun o => h.begins hengine o,Batch.Valid.new limit hcalls,nofun,nofun,hdelivers⟩
  | fetch hworkers hnext => exact h.work hworkers (h.batch.fetch hworkers hnext) rfl
  | enter hworkers => exact h.work hworkers (h.batch.become hworkers rfl) rfl
  | exit hworkers hnext => exact h.work hworkers (h.batch.exit hworkers hnext) rfl
  | enqueue hworkers hcall => exact h.enqueue hworkers hcall
  | @signal others i hworkers =>
    have hbatch : (st.batch.become others (.running i)).Valid := h.batch.become hworkers rfl
    have hworked := h.work hworkers hbatch rfl
    obtain ⟨_,taken,hsink⟩ := Engine.delivers_of_inBatch (h.inBatch hworkers) result
    have hbefore := (hsink _ _).mp hdelivers
    exact ⟨hworked.accounted,hworked.batch,hworked.quiet,hworked.leaving,(hsink _ _).mpr
      ⟨hbefore.notClosed,hbefore.front,hbefore.started,hbefore.complete⟩⟩
  | returns hworkers hcall => exact h.work hworkers (h.batch.returns hworkers hcall) rfl
  | closeDone hworkers hopen =>
    exact ⟨h.accounted,h.batch.closeDone hworkers,h.quiet,h.leaving,h.delivers⟩
  | selectWake hengine hwake =>
    rw [hengine] at hdelivers
    refine h.advance (by rw [hengine]; rfl) nofun nofun ?_
    exact ⟨hdelivers.notClosed,hdelivers.front,hdelivers.started,hdelivers.complete⟩
  | selectDone hengine hdone =>
    rw [hengine] at hdelivers
    exact h.advance (by rw [hengine]; rfl) nofun (fun _ _ _ => h.batch.finished hdone) hdelivers
  | @take after hengine hqueue =>
    rw [hengine] at hdelivers
    refine h.advance (by rw [hengine]; rfl) (fun hout => ?_) (fun _ rest heq => ?_)
      (Sink.Delivers.take hdelivers)
    · rw [Engine.inBatch_draining _ [],← hengine] at hout
      exact absurd (h.quiet hout).2 hqueue
    · cases heq
      exact h.leaving _ rest hengine
  | drain goesOn hengine =>
    rw [hengine] at hdelivers
    refine h.advance (by rw [hengine]; rfl) (fun hout => ?_) (fun _ rest heq => ?_)
      (Sink.Delivers.drain hdelivers goesOn)
    · rw [Engine.inBatch_draining,← hengine] at hout
      rw [queue_emit]
      exact h.quiet hout
    · cases heq
      exact h.leaving _ rest hengine
  | drainedSelect hengine hqueue =>
    rw [hengine] at hdelivers
    exact h.advance (by rw [hengine]; rfl) nofun nofun hdelivers
  | drainedLeave hengine hqueue =>
    have hworkers := h.leaving _ _ hengine
    rw [hengine] at hdelivers
    exact h.advance (by rw [hengine]; rfl) (fun _ => ⟨hworkers,hqueue⟩) nofun hdelivers
  | finish hengine hqueue =>
    have hquiet := h.quiet (by rw [hengine]; rfl)
    rw [hengine] at hdelivers
    refine h.advance (by rw [hengine]; rfl) (fun _ => ⟨hquiet.1,?_⟩) nofun
      ⟨hdelivers.finish hqueue result,fun _ => rfl⟩
    rw [queue_finish,hqueue]
end
end State.Valid
theorem Reachable.valid {script : List (Segment P)} {result : P} {st : State P}
    (h : Reachable script result st) : st.Valid script result := by
  induction h with
  | refl => exact State.Valid.new script result
  | tail _ hstep ih => exact ih.step hstep
end GudeAgents.Events
