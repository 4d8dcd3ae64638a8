import Mathlib.Algebra.BigOperators.Group.Multiset.Basic
import GudeAgents.Events.Delivery
/-!
# Runs of the event stream
-/
namespace GudeAgents.Events
open List Multiset Sink Event
variable {P : Type}
def Worker.weight : Worker → Nat
  | .fetching => 2
  | .took _ => 4
  | .running _ => 3
  | .signalling _ => 7
def Sink.weight (s : Sink P) : Nat := 2*s.queue.length+3*s.wake.toNat
def Batch.weight (b : Batch P) : Nat :=
  8*b.calls.flatten.length+3*(b.calls.length-b.next)+(b.workers.map Worker.weight).sum +
    (!b.done).toNat

def scriptWeight : Nat → List (Segment P) → Nat
  | _, [] => 4
  | n, .emit _ _ :: rest => scriptWeight n rest+1
  | n, .calls _ calls::rest =>
    8*(batchEvents n calls).flatten.length+5*calls.length + scriptWeight (n+calls.length) rest+10

def Engine.weight (n : Nat) : Engine P → Nat
  | .starting rest => scriptWeight n rest+1
  | .executing rest => scriptWeight n rest
  | .calling events rest => events.length+scriptWeight n rest+1
  | .selecting rest => scriptWeight n rest+5
  | .draining taken (.select rest) => taken.length+scriptWeight n rest+6
  | .draining taken (.leave rest) => taken.length+scriptWeight n rest+3
  | .draining taken .finish => taken.length+2
  | .returned _ => 0

def State.weight (st : State P) : Nat :=
  st.sink.weight+st.batch.weight+st.engine.weight st.calls

@[simp] theorem Sink.weight_emit (s : Sink P) (ev : Event P) (goesOn : Bool) :
    (s.emit ev goesOn).weight=s.weight := by
  rw [emit]
  split <;> rfl

@[simp] theorem Sink.weight_finish (s : Sink P) (ev : Event P) : (s.finish ev).weight=s.weight := by
  rw [finish]
  split <;> rfl

theorem Batch.weight_of_cons {b : Batch P} {w : Worker} {others : Multiset Worker}
    (h : b.workers=w ::ₘ others) :
    b.weight=8*b.calls.flatten.length+3*(b.calls.length-b.next) +
      (w.weight+(others.map Worker.weight).sum)+(!b.done).toNat := by
  rw [weight,h,Multiset.map_cons,Multiset.sum_cons]

theorem Batch.weight_new (n : Nat) (calls : List (List (Event P))) (limit : Int) :
    (Batch.new n calls limit).weight≤8*calls.flatten.length+5*calls.length+1 := by
  have hcount : workerCount calls.length limit≤calls.length := by
    rw [workerCount]
    split <;> omega
  simp [weight,new,Worker.weight]
  omega

private theorem length_flatten_set {calls : List (List (Event P))} {i : Nat} {ev : Event P}
    {events : List (Event P)} (h : calls[i]?=some (ev::events)) :
    calls.flatten.length=(calls.set i events).flatten.length+1 := by
  induction calls generalizing i with
  | nil => cases h
  | cons call rest ih =>
    cases i with
    | zero =>
      cases h
      simp only [set_cons_zero,flatten_cons,length_append,length_cons]
      omega
    | succ i =>
      simp only [set_cons_succ,flatten_cons,length_append,ih h]
      omega

variable {st : State P} {result : P}
variable {st' : State P}
theorem Step.weight_lt (h : Step result st st') : st'.weight<st.weight := by
  cases h with
  | start hengine =>
    simp only [State.weight,weight_emit,hengine,Engine.weight]
    omega
  | startStops hengine =>
    have hclose : ((st.sink.emit .start false).close).weight=st.sink.weight :=
      weight_emit _ _ _
    simp only [State.weight,hclose,hengine,Engine.weight]
    omega
  | emit goesOn hengine =>
    simp only [State.weight,State.emit,weight_emit,hengine,Engine.weight,scriptWeight]
    omega
  | sequential hengine hlimit =>
    simp only [State.weight,hengine,Engine.weight,scriptWeight]
    omega
  | call goesOn hengine =>
    simp only [State.weight,State.emit,weight_emit,hengine,Engine.weight,length_cons]
    omega
  | called hengine | selectDone hengine hdone | drainedSelect hengine hqueue
  | drainedLeave hengine hqueue =>
    simp only [State.weight,State.goTo,hengine,Engine.weight,length_nil]
    omega
  | @parallel limit calls rest hengine hlimit hcalls =>
    have hbatch := Batch.weight_new st.calls (batchEvents st.calls calls) limit
    rw [length_batchEvents] at hbatch
    simp only [State.weight,hengine,Engine.weight,scriptWeight]
    omega
  | fetch hworkers hnext =>
    simp only [State.weight,State.work,Batch.weight_of_cons hworkers,Worker.weight]
    simp only [Batch.weight,Multiset.map_cons,Multiset.sum_cons,Worker.weight]
    omega
  | exit hworkers hnext =>
    simp only [State.weight,State.work,Batch.weight_of_cons hworkers,Worker.weight]
    simp only [Batch.weight]
    omega
  | enqueue hworkers hcall =>
    have hflatten := length_flatten_set hcall
    simp only [State.weight,Batch.weight_of_cons hworkers,Worker.weight,Sink.weight,Sink.enqueue,
      length_append,length_singleton]
    simp only [Batch.weight,Multiset.map_cons,Multiset.sum_cons,Worker.weight,List.length_set]
    omega
  | signal hworkers =>
    simp only [State.weight,Batch.weight_of_cons hworkers,Worker.weight,Sink.weight,Sink.signal,
      Bool.toNat_true]
    simp only [Batch.weight,Batch.become,Multiset.map_cons,Multiset.sum_cons,Worker.weight]
    omega
  | enter hworkers | returns hworkers hcall =>
    simp only [State.weight,State.work,Batch.weight_of_cons hworkers,Worker.weight]
    simp only [Batch.weight,Batch.become,Multiset.map_cons,Multiset.sum_cons,Worker.weight]
    omega
  | closeDone hworkers hopen =>
    simp [State.weight,State.work,Batch.weight,hopen]
  | selectWake hengine hwake =>
    simp [State.weight,Sink.weight,wakened,hwake,hengine,Engine.weight]
    omega
  | @take after hengine hqueue =>
    have hpos := length_pos_iff.mpr hqueue
    cases after <;>
    · simp only [State.weight,Sink.weight,Sink.take,hengine,Engine.weight,length_nil]
      omega
  | @drain _ _ after goesOn hengine =>
    cases after <;>
    · simp only [State.weight,weight_emit,hengine,Engine.weight,length_cons]
      omega
  | executed hengine =>
    simp only [State.weight,State.goTo,hengine,Engine.weight,scriptWeight,length_nil]
    omega
  | finish hengine hqueue =>
    simp only [State.weight,weight_finish,hengine,Engine.weight,length_nil]
    omega

theorem step_wellFounded (result : P) : WellFounded fun st' st : State P => Step result st st' :=
  Subrelation.wf (fun h => Step.weight_lt h) (measure State.weight).wf

section
variable (result : P) (h : ∀ w∈st.batch.workers, ∀ i, w.index=some i → i<st.batch.calls.length)
include h
private theorem worker_progress {w : Worker} {others : Multiset Worker}
    (hworkers : st.batch.workers=w ::ₘ others) :
    ∃ st', Step result st st' ∧ st'.sink.stopped=st.sink.stopped := by
  have hrange := h w (hworkers ▸ mem_cons_self w others)
  cases w with
  | fetching =>
    by_cases hnext : st.batch.next<st.batch.calls.length
    · exact ⟨_,.fetch hworkers hnext,rfl⟩
    · exact ⟨_,.exit hworkers (Nat.le_of_not_lt hnext),rfl⟩
  | took i => exact ⟨_,.enter hworkers,rfl⟩
  | running i =>
    have hi := hrange i rfl
    cases hcall : st.batch.calls[i]? with
    | none =>
      rw [List.getElem?_eq_none_iff] at hcall
      omega
    | some events =>
      cases events with
      | nil => exact ⟨_,.returns hworkers hcall,rfl⟩
      | cons ev events => exact ⟨_,.enqueue hworkers hcall,rfl⟩
  | signalling i => exact ⟨_,.signal hworkers,rfl⟩

theorem inBatch_progress (hin : st.engine.inBatch=true) :
    ∃ st', Step result st st' ∧ (st.sink.stopped=false → st'.sink.stopped=false) := by
  cases hengine : st.engine with
  | selecting rest =>
    by_cases hworkers : st.batch.workers=0
    · cases hdone : st.batch.done with
      | true => exact ⟨_,.selectDone hengine hdone,id⟩
      | false => exact ⟨_,.closeDone hworkers hdone,id⟩
    · obtain ⟨w,hw⟩ := exists_mem_of_ne_zero hworkers
      obtain ⟨others,hothers⟩ := exists_cons_of_mem hw
      obtain ⟨st',hstep,hstopped⟩ := worker_progress result h hothers
      exact ⟨st',hstep,fun hgoing => hstopped.trans hgoing⟩
  | draining taken after =>
    cases taken with
    | cons ev taken => exact ⟨_,.drain true hengine,fun hgoing => stopped_emit hgoing _⟩
    | nil =>
      by_cases hqueue : st.sink.queue=[]
      · cases after with
        | select rest => exact ⟨_,.drainedSelect hengine hqueue,id⟩
        | leave rest => exact ⟨_,.drainedLeave hengine hqueue,id⟩
        | finish =>
          rw [hengine] at hin
          cases hin
      · exact ⟨_,.take hengine hqueue,id⟩
  | _ =>
    rw [hengine] at hin
    cases hin
end
variable {script : List (Segment P)}
theorem State.Valid.progress (h : st.Valid script result) : (∃ unrun, st.engine=.returned unrun) ∨
      ∃ st', Step result st st' ∧ (st.sink.stopped=false → st'.sink.stopped=false) := by
  cases hengine : st.engine with
  | returned unrun => exact Or.inl ⟨unrun,rfl⟩
  | starting rest => exact Or.inr ⟨_,.start hengine,fun hgoing => stopped_emit hgoing _⟩
  | executing rest =>
    refine Or.inr ?_
    cases rest with
    | nil => exact ⟨_,.executed hengine,id⟩
    | cons segment rest =>
      cases segment with
      | emit kind payload => exact ⟨_,.emit true hengine,fun hgoing => stopped_emit hgoing _⟩
      | calls limit calls =>
        by_cases hlimit : limit=1 ∨ calls.length≤1
        · exact ⟨_,.sequential hengine hlimit,id⟩
        · rw [not_or,Nat.not_le] at hlimit
          exact ⟨_,.parallel hengine hlimit.1 hlimit.2,id⟩
  | calling events rest =>
    refine Or.inr ?_
    cases events with
    | nil => exact ⟨_,.called hengine,id⟩
    | cons ev events => exact ⟨_,.call true hengine,fun hgoing => stopped_emit hgoing _⟩
  | selecting rest => exact Or.inr (inBatch_progress result h.batch.inRange (hengine ▸ rfl))
  | draining taken after =>
    cases after with
    | select rest | leave rest =>
      exact Or.inr (inBatch_progress result h.batch.inRange (hengine ▸ rfl))
    | finish =>
      refine Or.inr ?_
      have hqueue := (h.quiet (hengine ▸ rfl)).2
      cases taken with
      | cons ev taken => exact ⟨_,.drain true hengine,fun hgoing => stopped_emit hgoing _⟩
      | nil =>
        exact ⟨_,.finish hengine hqueue,fun hgoing => (stopped_finish _ _).trans hgoing⟩

theorem Reachable.exists_returned (h : Reachable script result st)
    (hgoing : st.sink.stopped=false) :
    ∃ st' unrun, Reachable script result st' ∧ st'.engine=.returned unrun ∧
      st'.sink.stopped=false := by
  induction st using (step_wellFounded result).induction with
  | _ st ih =>
    rcases h.valid.progress with ⟨unrun,hreturned⟩ | ⟨st',hstep,hstopped⟩
    · exact ⟨st,unrun,h,hreturned,hgoing⟩
    · exact ih st' hstep (h.tail hstep) (hstopped hgoing)

theorem Step.silent (h : Step result st st') (hstopped : st.sink.stopped=true) :
    st'.sink.stopped=true ∧ st'.sink.yielded=st.sink.yielded := by
  cases h with
  | start _ | emit _ _ | call _ _ | drain _ _ =>
    simp [State.emit,emit_of_stopped hstopped,hstopped]
  | startStops _ => simp [emit_of_stopped hstopped,close,hstopped]
  | finish _ _ => simp [finish_of_stopped hstopped,close,hstopped]
  | _ => exact ⟨hstopped,rfl⟩

theorem silent (h : Relation.ReflTransGen (Step result) st st') (hstopped : st.sink.stopped=true) :
    st'.sink.stopped=true ∧ st'.sink.yielded=st.sink.yielded := by
  induction h with
  | refl => exact ⟨hstopped,rfl⟩
  | tail _ hstep ih =>
    obtain ⟨hstill,hyielded⟩ := hstep.silent ih.1
    exact ⟨hstill,hyielded.trans ih.2⟩

def scriptCalls : List (Segment P) → List (Option (Call P))
  | [] => []
  | .emit _ _ :: rest => scriptCalls rest
  | .calls _ calls::rest => calls++scriptCalls rest
def callEvents (n : Nat) (calls : List (Option (Call P))) (call : Nat) : List (Event P) :=
  if n≤call then (calls[call-n]?.join).elim [] (executeCall call) else []

private theorem ofOrigin_executeCall (n : Nat) (c : Call P) (call : Nat) :
    ofOrigin (some call) (executeCall n c)=if n=call then executeCall n c else [] := by
  by_cases hcall : n=call
  · rw [if_pos hcall,ofOrigin,filter_eq_self]
    intro ev hev
    rw [executeCall_origin n c ev hev,hcall]
    exact decide_eq_true rfl
  · rw [if_neg hcall,ofOrigin,filter_eq_nil_iff]
    intro ev hev
    rw [executeCall_origin n c ev hev,decide_eq_true_iff,Option.some.injEq]
    exact hcall

private theorem callEvents_cons (n : Nat) (c : Option (Call P)) (calls : List (Option (Call P)))
    (call : Nat) :
    callEvents n (c::calls) call =
      ofOrigin (some call) (c.elim [] (executeCall n))++callEvents (n+1) calls call := by
  have hhead : ofOrigin (some call) (c.elim [] (executeCall n)) =
      if n=call then c.elim [] (executeCall n) else [] := by
    cases c with
    | none => simp
    | some c => exact ofOrigin_executeCall n c call
  rw [hhead,callEvents,callEvents]
  rcases Nat.lt_trichotomy call n with hlt | rfl | hgt
  · rw [if_neg (by omega),if_neg (by omega),if_neg (by omega)]
    rfl
  · rw [if_pos (Nat.le_refl _),if_pos rfl,if_neg (by omega),Nat.sub_self,append_nil]
    rfl
  · have hindex : call-n=call-(n+1)+1 := by omega
    rw [if_pos (by omega),if_neg (by omega),if_pos (by omega),hindex,List.getElem?_cons_succ,
      nil_append]

private theorem ofOrigin_batchEvents (n : Nat) (calls rest : List (Option (Call P))) (call : Nat) :
    callEvents n (calls++rest) call=ofOrigin (some call) (batchEvents n calls).flatten ++
        callEvents (n+calls.length) rest call := by
  induction calls generalizing n with
  | nil => simp [batchEvents]
  | cons c calls ih =>
    rw [cons_append,callEvents_cons,ih,batchEvents,flatten_cons,ofOrigin_append,append_assoc,
      length_cons,Nat.succ_add_eq_add_succ]

private theorem ofOrigin_scriptEvents (n : Nat) (script : List (Segment P)) (call : Nat) :
    ofOrigin (some call) (scriptEvents n script)=callEvents n (scriptCalls script) call := by
  induction script generalizing n with
  | nil => simp [scriptEvents,scriptCalls,callEvents]
  | cons segment rest ih =>
    cases segment with
    | emit kind payload =>
      rw [scriptEvents,ofOrigin_cons,ih]
      rfl
    | calls limit calls => rw [scriptEvents,scriptCalls,ofOrigin_append,ih,ofOrigin_batchEvents]

private theorem front_eq_of_last {α : Type} {front before after : List α} {e last : α}
    (h : front++[last]=before++e::after) (he : e∉front) : before=front := by
  rcases eq_nil_or_concat after with rfl | ⟨init,x,rfl⟩
  · exact (append_inj' h rfl).1.symm
  · have hall : front++[last]=(before++e::init)++[x] := by
      rw [h,concat_eq_append,append_assoc]
      rfl
    have hfront := (append_inj' hall rfl).1
    exact absurd (hfront ▸ mem_append_right before mem_cons_self) he

theorem executeCall_paired {n call : Nat} {c : Call P} {payload : P} {before after : List (Event P)}
    (h : executeCall n c=before++.toolEnd call payload::after) :
    before.countP (isStart n)=1 := by
  have htools : ∀ events, toolEnd call payload∉toolEvents n events := by
    intro events hmem
    obtain ⟨_,_,heq⟩ := mem_map.mp hmem
    cases heq
  have hstarts : ∀ events, (toolEvents (P := P) n events).countP (isStart n)=0 := by
    intro events
    rw [countP_eq_zero]
    intro ev hev
    obtain ⟨_,_,rfl⟩ := mem_map.mp hev
    exact Bool.false_ne_true
  rcases executeCall_shape n c with ⟨events,hshape⟩ | ⟨front,during,hshape⟩
  · rw [hshape] at h
    exact absurd (h ▸ mem_append_right _ mem_cons_self) (htools events)
  · have hlast : (toolEvents n front++.toolStart n c.toolStart::toolEvents n during) ++
        [.toolEnd n c.toolEnd]=before++.toolEnd call payload::after := by
      rw [← h,hshape,append_assoc,cons_append]
    have hfront : before=toolEvents n front++.toolStart n c.toolStart::toolEvents n during := by
      apply front_eq_of_last hlast
      rw [List.mem_append,List.mem_cons,not_or,not_or]
      exact ⟨htools front,nofun,htools during⟩
    rw [hfront,List.countP_append,List.countP_cons,hstarts,hstarts]
    simp [isStart]

private theorem countP_ofOrigin (call : Nat) (events : List (Event P)) :
    (ofOrigin (some call) events).countP (isStart call) = events.countP (isStart call) := by
  rw [ofOrigin,List.countP_filter]
  apply List.countP_congr
  intro ev _
  cases ev <;> simp [isStart,origin]

private theorem scriptEvents_of_no_origin {n : Nat} {ev : Event P} (hev : ev∈scriptEvents n script)
    (horigin : ev.origin=none) : ev.isEnded=false := by
  induction script generalizing n with
  | nil => cases hev
  | cons segment rest ih =>
    cases segment with
    | emit kind payload =>
      rcases mem_cons.mp hev with rfl | hev
      · rfl
      · exact ih hev
    | calls limit calls =>
      rcases mem_append.mp hev with hev | hev
      · obtain ⟨events,hevents,hev⟩ := mem_flatten.mp hev
        obtain ⟨i,hi⟩ := List.getElem?_of_mem hevents
        have hcall := batchEvents_origin hi ev hev
        rw [horigin] at hcall
        cases hcall
      · exact ih hev

/-- A whole stream: `log` records every call of `emit` and `enqueue` in its order. -/
structure Whole (script : List (Segment P)) (result : P) (log yielded : List (Event P)) :
    Prop where
  yielded_eq : yielded=.start::(log++[.ended result])
  ended_once : yielded.countP isEnded=1
  calls : ∀ call, ofOrigin (some call) yielded=callEvents 0 (scriptCalls script) call
  paired : ∀ before call payload after, yielded=before++.toolEnd call payload::after →
    before.countP (isStart call)=1

theorem State.Valid.whole {unrun : List (Segment P)} (h : st.Valid script result)
    (hengine : st.engine=.returned unrun) (hgoing : st.sink.stopped=false) :
    Whole script result st.log st.sink.yielded := by
  have hdelivers := h.delivers
  rw [hengine] at hdelivers
  obtain ⟨hreturned,hunrun⟩ := hdelivers
  have hyielded := hreturned.complete hgoing
  have hlog : ∀ o, ofOrigin o st.log=ofOrigin o (scriptEvents 0 script) := by
    intro o
    have haccounted := h.accounted o
    rw [h.flatten_eq (by rw [hengine]; rfl),hengine] at haccounted
    simpa [Engine.current,Engine.rest,hunrun hgoing,scriptEvents] using haccounted
  have hcalls : ∀ call, ofOrigin (some call) st.sink.yielded =
      callEvents 0 (scriptCalls script) call := by
    intro call
    rw [hyielded,ofOrigin_cons,ofOrigin_append,hlog,ofOrigin_scriptEvents]
    exact append_nil _
  refine ⟨hyielded,?_,hcalls,?_⟩
  · have hnone : st.log.countP isEnded=0 := by
      rw [countP_eq_zero]
      intro ev hev hended
      have horigin : ev.origin=none := by
        cases ev with
        | ended _ => rfl
        | _ => cases hended
      have hmem : ev∈ofOrigin none (scriptEvents 0 script) := by
        rw [← hlog none]
        exact mem_filter.mpr ⟨hev,decide_eq_true horigin⟩
      have hengineEvent := scriptEvents_of_no_origin (mem_filter.mp hmem).1 horigin
      exact Bool.false_ne_true (hengineEvent.symm.trans hended)
    rw [hyielded,List.countP_cons,List.countP_append,hnone]
    rfl
  · intro before call payload after hsplit
    have hcall := hcalls call
    rw [hsplit,ofOrigin_append,ofOrigin_cons] at hcall
    have hend : ofOrigin (some call) [toolEnd call payload]=[.toolEnd call payload] := by
      simp [ofOrigin,origin]
    rw [hend,callEvents,if_pos (Nat.zero_le call),singleton_append] at hcall
    rw [← countP_ofOrigin]
    cases hc : ((scriptCalls script)[call - 0]?).join with
    | none =>
      rw [hc] at hcall
      exact absurd hcall (append_ne_nil_of_right_ne_nil _ (cons_ne_nil _ _))
    | some c =>
      rw [hc] at hcall
      exact executeCall_paired hcall.symm

/-- What holds at every moment of the events a consumer gets. -/
structure Streamed (script : List (Segment P)) (result : P) (st : State P) : Prop where
  first : st.sink.yielded=[] ∨ st.sink.yielded.head?=some .start
  goesOn : (∃ unrun, st.engine=.returned unrun) ∧ st.sink.yielded≠[] ∨ ∃ st', Step result st st'
  whole : ∀ unrun, st.engine=.returned unrun → st.sink.stopped=false →
    Whole script result st.log st.sink.yielded
  silent : st.sink.stopped=true → ∀ st', Relation.ReflTransGen (Step result) st st' →
    st'.sink.yielded=st.sink.yielded

private theorem head?_of_front {yielded log : List (Event P)} (h : yielded <+: .start::log) :
    yielded=[] ∨ yielded.head?=some .start := by
  cases yielded with
  | nil => exact Or.inl rfl
  | cons ev yielded =>
    obtain ⟨rest,hrest⟩ := h
    cases hrest
    exact Or.inr rfl

theorem State.Valid.first (h : st.Valid script result) :
    st.sink.yielded=[] ∨ st.sink.yielded.head?=some .start := by
  have hdelivers := h.delivers
  cases hengine : st.engine with
  | starting rest =>
    rw [hengine] at hdelivers
    exact Or.inl (by rw [hdelivers.1]; rfl)
  | returned unrun =>
    rw [hengine] at hdelivers
    cases hstopped : st.sink.stopped with
    | true => exact head?_of_front (hdelivers.1.front hstopped)
    | false => exact Or.inr (by rw [hdelivers.1.complete hstopped]; rfl)
  | executing _ | calling _ _ | selecting _ | draining _ _ =>
    rw [hengine] at hdelivers
    exact head?_of_front (Sink.Delivers.front hdelivers)

/-- Every run of `stream` returns, and what it yields is in order. -/
theorem stream_ordered (script : List (Segment P)) (result : P) :
    (WellFounded fun st' st : State P => Step result st st') ∧
      ∀ st, Reachable script result st → Streamed script result st := by
  refine ⟨step_wellFounded result,fun st h => ?_⟩
  have hvalid := h.valid
  refine ⟨hvalid.first,?_,fun unrun hengine hgoing => hvalid.whole hengine hgoing,
    fun hstopped st' hrun => (silent hrun hstopped).2⟩
  rcases hvalid.progress with ⟨unrun,hreturned⟩ | ⟨st',hstep,_⟩
  · have hdelivers := hvalid.delivers
    rw [hreturned] at hdelivers
    exact Or.inl ⟨⟨unrun,hreturned⟩,hdelivers.1.started⟩
  · exact Or.inr ⟨st',hstep⟩

def widgetCall : Call Nat := ⟨.handled,[],[(.widget,2)],[],1,3⟩

theorem stream_ordered_parallel :
    ∃ st unrun, Reachable [.calls 0 [some widgetCall,some widgetCall]] 4 st ∧
      st.engine=.returned unrun ∧ st.sink.stopped=false ∧
      ofOrigin (some 1) st.sink.yielded=[.toolStart 1 1,.tool 1 .widget 2,.toolEnd 1 3] ∧
      Whole [.calls 0 [some widgetCall,some widgetCall]] 4 st.log st.sink.yielded := by
  have hnew : Reachable [.calls 0 [some widgetCall,some widgetCall]] 4 (.new _) := .refl
  obtain ⟨st,unrun,hreach,hreturned,hgoing⟩ := hnew.exists_returned rfl
  have hwhole := ((stream_ordered _ _).2 st hreach).whole unrun hreturned hgoing
  exact ⟨st,unrun,hreach,hreturned,hgoing,(hwhole.calls 1).trans (by decide),hwhole⟩
end GudeAgents.Events
