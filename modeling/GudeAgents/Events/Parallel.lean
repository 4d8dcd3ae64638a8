import GudeAgents.Events.Runs
/-!
# Bounded parallel dispatch

`runParallel` on its own, for any number of calls and any limit.
-/
namespace GudeAgents.Events
open List Batch Multiset
variable {P : Type}
def Worker.waits : Worker → Multiset Nat
  | .took i => {i}
  | _ => 0
def Worker.calls : Worker → Multiset Nat
  | .running i | .signalling i => {i}
  | _ => 0

/-- The indices that are taken and whose calls have not started. -/
def Batch.waiting (b : Batch P) : Multiset Nat := (b.workers.map Worker.waits).sum
/-- The indices whose calls of `fn` are active. -/
def Batch.active (b : Batch P) : Multiset Nat := (b.workers.map Worker.calls).sum

theorem Batch.card_active_le (b : Batch P) : b.active.card≤b.workers.card := by
  rw [active]
  induction b.workers using Multiset.induction_on with
  | empty => rfl
  | cons w others ih =>
    have hw : w.calls.card≤1 := by cases w <;> simp [Worker.calls]
    rw [Multiset.map_cons,Multiset.sum_cons,card_add,card_cons]
    omega

/-- The state at the start of `runParallel`: what was emitted so far, whether the consumer has
stopped, and whether a wake-up is left over. What `fn(i)` queues is in `calls`. -/
def parallel (log : List (Event P)) (stopped wake : Bool) (calls : List (List (Event P)))
    (limit : Int) : State P :=
  ⟨⟨.start::log,stopped,false,[],wake⟩,.selecting [],.new 0 calls limit,0,log⟩

/-- A run of `runParallel`, with the indices in the order in which they were taken and in the order
in which their calls of `fn` started. -/
inductive Dispatch (result : P) (st0 : State P) : List Nat → List Nat → State P → Prop where
  | entered : Dispatch result st0 [] [] st0
  | takes {taken started : List Nat} {st st' : State P} {i : Nat}
      (before : Dispatch result st0 taken started st) (inside : st.engine.inBatch=true)
      (step : Step result st st') (waiting : st'.batch.waiting=i ::ₘ st.batch.waiting) :
      Dispatch result st0 (taken++[i]) started st'
  | starts {taken started : List Nat} {st st' : State P} {i : Nat}
      (before : Dispatch result st0 taken started st) (inside : st.engine.inBatch=true)
      (step : Step result st st') (active : st'.batch.active=i ::ₘ st.batch.active) :
      Dispatch result st0 taken (started++[i]) st'
  | goesOn {taken started : List Nat} {st st' : State P}
      (before : Dispatch result st0 taken started st) (inside : st.engine.inBatch=true)
      (step : Step result st st') (waiting : st'.batch.waiting=st.batch.waiting)
      (active : st'.batch.active ≤ st.batch.active) : Dispatch result st0 taken started st'

structure Dispatched (n : Nat) (limit : Int) (result : P) (taken started : List Nat)
    (st : State P) : Prop where
  length : st.batch.calls.length=n
  inOrder : taken=List.range (min st.batch.next n)
  later : (taken : Multiset Nat)=started+st.batch.waiting
  bound : st.batch.workers.card≤workerCount n limit
  inRange : ∀ w∈st.batch.workers, ∀ i, w.index=some i → i<st.batch.calls.length
  exhausted : st.batch.workers=0 → n ≤ st.batch.next
  finished : st.batch.done=true → st.batch.workers=0
  leaving : ∀ taken rest, st.engine=.draining taken (.leave rest) → st.batch.workers=0
  returned : st.engine.inBatch=false →
    (∃ rest, st.engine=.executing rest) ∧ st.batch.workers=0 ∧ st.sink.queue=[]
  delivers : st.engine.Delivers result st.sink st.log

/-- What one step does: it takes an index, starts the call of one that was taken, or neither. -/
inductive Advanced (n : Nat) (limit : Int) (result : P) (taken started : List Nat)
    (st st' : State P) : Prop where
  | takes {i : Nat} (waiting : st'.batch.waiting=i ::ₘ st.batch.waiting)
      (active : st'.batch.active=st.batch.active)
      (after : Dispatched n limit result (taken++[i]) started st')
  | starts {i : Nat} (active : st'.batch.active=i ::ₘ st.batch.active)
      (waiting : st.batch.waiting=i ::ₘ st'.batch.waiting)
      (after : Dispatched n limit result taken (started++[i]) st')
  | goesOn (waiting : st'.batch.waiting=st.batch.waiting)
      (active : st'.batch.active ≤ st.batch.active)
      (after : Dispatched n limit result taken started st')

variable {n : Nat} {limit : Int} {result : P} {taken started : List Nat} {st st' : State P}
namespace Dispatched
section
variable (h : Dispatched n limit result taken started st) (hin : st.engine.inBatch=true)
include h hin
theorem work {taken' started' : List Nat} {w : Worker} {others : Multiset Worker} {b : Batch P}
    {sink : Sink P} {log : List (Event P)} (hworkers : st.batch.workers=w ::ₘ others)
    (htaken : taken'=List.range (min b.next n))
    (hstarted : (taken' : Multiset Nat)=started'+b.waiting) (hlength : b.calls.length=n)
    (hdone : b.done=st.batch.done) (hnew : b.workers=others ∧ n≤b.next ∨
      ∃ w', b.workers=w' ::ₘ others ∧ ∀ i, w'.index=some i → i<n)
    (hdelivers : st.engine.Delivers result sink log) :
    Dispatched n limit result taken' started' { st with sink := sink, batch := b, log := log } := by
  have hbusy : st.batch.workers≠0 := hworkers ▸ cons_ne_zero
  have hothers : ∀ v∈others, ∀ i, v.index=some i → i<b.calls.length := by
    intro v hv i hi
    rw [hlength,← h.length]
    exact h.inRange v (hworkers ▸ mem_cons_of_mem hv) i hi
  have hbound := h.bound
  rw [hworkers,card_cons] at hbound
  refine ⟨hlength,htaken,hstarted,?_,?_,?_,fun hd => absurd (h.finished (hdone ▸ hd)) hbusy,
    fun _ _ hleave => absurd (h.leaving _ _ hleave) hbusy,
    fun hout => absurd (hout.symm.trans hin) Bool.false_ne_true,hdelivers⟩
  · rcases hnew with ⟨hnew,-⟩ | ⟨w',hnew,-⟩
    · rw [hnew]
      omega
    · rwa [hnew,card_cons]
  · rcases hnew with ⟨hnew,-⟩ | ⟨w',hnew,hindex⟩
    · rwa [hnew]
    · rw [hnew]
      intro v hv i hi
      rcases mem_cons.mp hv with rfl | hv
      · exact hlength ▸ hindex i hi
      · exact hothers v hv i hi
  · rcases hnew with ⟨-,hnext⟩ | ⟨w',hnew,-⟩
    · exact fun _ => hnext
    · exact fun hzero => absurd (hnew ▸ hzero) cons_ne_zero

theorem step (hstep : Step result st st') : Advanced n limit result taken started st st' := by
  have hlength := h.length
  have hdelivers := h.delivers
  obtain ⟨-,_,hsink⟩ := Engine.delivers_of_inBatch hin result
  have hbefore := (hsink _ _).mp hdelivers
  have hinRange : ∀ w∈st.batch.workers, ∀ i, w.index=some i → i<n := hlength ▸ h.inRange
  cases hstep with
  | start hengine | startStops hengine | emit _ hengine | sequential hengine | call _ hengine
  | called hengine | parallel hengine | executed hengine | finish hengine =>
    rw [hengine] at hin
    cases hin
  | fetch hworkers hnext =>
    refine .takes (i := st.batch.next) ?_ ?_
      (h.work hin hworkers ?_ ?_ hlength rfl (.inr ⟨_,rfl,?_⟩) hdelivers)
    · simp [waiting,State.work,hworkers,Worker.waits]
    · simp [active,State.work,hworkers,Worker.calls]
    · rw [h.inOrder,Nat.min_eq_left (by omega),Nat.min_eq_left (by dsimp only; omega),← List.range_succ]
    · simp only [waiting,hworkers,Multiset.map_cons,Multiset.sum_cons,Worker.waits,zero_add,
        ← Multiset.coe_add,h.later,Multiset.coe_singleton]
      rw [add_assoc]
      exact congrArg _ (add_comm _ _)
    · rintro i ⟨⟩
      omega
  | @enter others i hworkers =>
    refine .starts (i := i) ?_ ?_
      (h.work hin hworkers h.inOrder ?_ hlength rfl (.inr ⟨_,rfl,?_⟩) hdelivers)
    · simp [active,State.work,become,hworkers,Worker.calls]
    · simp [waiting,State.work,become,hworkers,Worker.waits]
    · simp only [waiting,become,hworkers,Multiset.map_cons,Multiset.sum_cons,
        Worker.waits,zero_add,← Multiset.coe_add,h.later,Multiset.coe_singleton,add_assoc]
    · exact fun j hj => hinRange (.took i) (by simp [hworkers]) j hj
  | exit hworkers hnext =>
    refine .goesOn ?_ ?_
      (h.work hin hworkers ?_ ?_ hlength rfl (.inl ⟨rfl,by dsimp only; omega⟩) hdelivers)
    · simp [waiting,State.work,hworkers,Worker.waits]
    · simp [active,State.work,hworkers,Worker.calls]
    · rw [h.inOrder,Nat.min_eq_right (by omega),Nat.min_eq_right (by dsimp only; omega)]
    · have hstarted := h.later
      simpa [waiting,hworkers,Worker.waits] using hstarted
  | @enqueue others i ev events hworkers hcall =>
    refine .goesOn ?_ ?_ (h.work hin hworkers h.inOrder ?_ ((length_set ..).trans hlength) rfl
      (.inr ⟨_,rfl,?_⟩) ((hsink _ _).mpr (hbefore.enqueue ev)))
    · simp [waiting,hworkers,Worker.waits]
    · simp [active,hworkers,Worker.calls]
    · simpa [waiting,hworkers,Worker.waits] using h.later
    · exact fun j hj => hinRange (.running i) (by simp [hworkers]) j hj
  | @signal others i hworkers =>
    refine .goesOn ?_ ?_ (h.work hin hworkers h.inOrder ?_ hlength rfl (.inr ⟨_,rfl,?_⟩)
      ((hsink _ _).mpr ⟨hbefore.notClosed,hbefore.front,hbefore.started,hbefore.complete⟩))
    · simp [waiting,become,hworkers,Worker.waits]
    · simp [active,become,hworkers,Worker.calls]
    · simpa [waiting,become,hworkers,Worker.waits] using h.later
    · exact fun j hj => hinRange (.signalling i) (by simp [hworkers]) j hj
  | @returns others i hworkers hcall =>
    refine .goesOn ?_ ?_ (h.work hin hworkers h.inOrder ?_ hlength rfl (.inr ⟨_,rfl,?_⟩) hdelivers)
    · simp [waiting,State.work,become,hworkers,Worker.waits]
    · simpa [active,State.work,become,hworkers,Worker.calls] using le_cons_self _ i
    · simpa [waiting,State.work,become,hworkers,Worker.waits] using h.later
    · rintro j ⟨⟩
  | closeDone hworkers hopen => exact .goesOn rfl le_rfl { h with finished := fun _ => hworkers }
  | selectWake hengine hwake =>
    rw [hengine] at hdelivers
    exact .goesOn rfl le_rfl { h with
      leaving := by rintro _ _ ⟨⟩, returned := by rintro ⟨⟩
      delivers := ⟨hdelivers.notClosed,hdelivers.front,hdelivers.started,hdelivers.complete⟩ }
  | selectDone hengine hdone =>
    rw [hengine] at hdelivers
    exact .goesOn rfl le_rfl { h with
      leaving := fun _ _ _ => h.finished hdone, returned := by rintro ⟨⟩
      delivers := hdelivers }
  | take hengine hqueue =>
    rw [hengine] at hdelivers hin
    refine .goesOn rfl le_rfl { h with
      leaving := ?_, returned := ?_, delivers := Sink.Delivers.take hdelivers }
    · rintro taken rest ⟨⟩
      exact h.leaving _ rest hengine
    · rw [(Engine.inBatch_draining ..).trans hin]
      rintro ⟨⟩
  | drain goesOn hengine =>
    rw [hengine] at hdelivers hin
    refine .goesOn rfl le_rfl { h with
      leaving := ?_, returned := ?_, delivers := Sink.Delivers.drain hdelivers goesOn }
    · rintro taken rest ⟨⟩
      exact h.leaving _ rest hengine
    · rw [(Engine.inBatch_draining ..).trans hin]
      rintro ⟨⟩
  | drainedSelect hengine hqueue =>
    rw [hengine] at hdelivers
    exact .goesOn rfl le_rfl { h with
      leaving := by rintro _ _ ⟨⟩, returned := by rintro ⟨⟩, delivers := hdelivers }
  | drainedLeave hengine hqueue =>
    rw [hengine] at hdelivers
    exact .goesOn rfl le_rfl { h with
      leaving := by rintro _ _ ⟨⟩, returned := fun _ => ⟨⟨_,rfl⟩,h.leaving _ _ hengine,hqueue⟩
      delivers := hdelivers }
end
end Dispatched
variable {log : List (Event P)} {stopped wake : Bool} {calls : List (List (Event P))}
theorem dispatched_parallel :
    Dispatched calls.length limit result [] [] (parallel log stopped wake calls limit) := by
  have hfetching : ∀ w∈(parallel log stopped wake calls limit).batch.workers, w=.fetching :=
    fun w hw => Multiset.eq_of_mem_replicate hw
  refine ⟨rfl,?_,?_,(Multiset.card_replicate ..).le,?_,?_,nofun,nofun,nofun,?_⟩
  · simp [parallel,new]
  · simp [parallel,new,waiting,Worker.waits]
  · intro w hw i hi
    rw [hfetching w hw] at hi
    cases hi
  · intro hnone
    have hcard := congrArg card hnone
    rw [parallel,new,Multiset.card_replicate,workerCount] at hcard
    split at hcard
    · simp at hcard
      omega
    · exact hcard.le
  · exact ⟨rfl,prefix_rfl,cons_ne_nil _ _,fun _ => append_nil _⟩

theorem Dispatch.dispatched
    (h : Dispatch result (parallel log stopped wake calls limit) taken started st) :
    Dispatched calls.length limit result taken started st := by
  induction h with
  | entered => exact dispatched_parallel
  | @takes taken started st st' i before inside step waiting ih =>
    have hcard := congrArg card waiting
    rw [card_cons] at hcard
    cases ih.step inside step with
    | @takes j hwaiting _ hafter =>
      obtain rfl : i=j := by simpa using waiting.symm.trans hwaiting
      exact hafter
    | starts _ hwaiting =>
      rw [hwaiting,card_cons] at hcard
      omega
    | goesOn hwaiting =>
      rw [hwaiting] at hcard
      omega
  | @starts taken started st st' i before inside step active ih =>
    have hcard := congrArg card active
    rw [card_cons] at hcard
    cases ih.step inside step with
    | takes _ hactive =>
      rw [hactive] at hcard
      omega
    | @starts j hactive _ hafter =>
      obtain rfl : i=j := by simpa using active.symm.trans hactive
      exact hafter
    | goesOn _ hactive =>
      have hle := card_le_card hactive
      omega
  | @goesOn taken started st st' before inside step waiting active ih =>
    have hle := card_le_card active
    cases ih.step inside step with
    | takes hwaiting =>
      have hcard := congrArg card (waiting.symm.trans hwaiting)
      rw [card_cons] at hcard
      omega
    | starts hactive =>
      rw [hactive,card_cons] at hle
      omega
    | goesOn _ _ hafter => exact hafter

theorem Dispatched.front (h : Dispatched n limit result taken started st) :
    st.sink.yielded <+: .start::st.log := by
  have hdelivers := h.delivers
  cases hin : st.engine.inBatch with
  | true =>
    obtain ⟨-,_,hsink⟩ := Engine.delivers_of_inBatch hin result
    exact ((hsink _ _).mp hdelivers).front
  | false =>
    obtain ⟨⟨rest,hengine⟩,-⟩ := h.returned hin
    rw [hengine] at hdelivers
    exact hdelivers.front

theorem Dispatched.card_active_le (h : Dispatched n limit result taken started st)
    (hlimit : 0<limit) : (st.batch.active.card : Int)≤limit := by
  have hbound := st.batch.card_active_le.trans h.bound
  rw [workerCount] at hbound
  split at hbound <;> omega

/-- The indices are taken in order, the call of each starts at most once and after it was taken, and
at most `limit` calls are active. Some goroutine can go on until all workers have returned and the
queue is empty, then every call was made, and no run is infinite. -/
theorem runParallel_dispatches (log : List (Event P)) (stopped wake : Bool)
    (calls : List (List (Event P))) (limit : Int) (result : P) :
    (∀ taken started st, Dispatch result (parallel log stopped wake calls limit) taken started st →
      taken=List.range taken.length ∧ taken.length≤calls.length ∧
      started.Subperm taken ∧ started.Nodup ∧
      (0<limit → (st.batch.active.card : Int)≤limit) ∧
      st.sink.yielded <+: .start::st.log ∧
      if st.engine.inBatch then
        (∃ st', Step result st st') ∧ ∀ st', Step result st st' → ∃ taken' started',
          taken <+: taken' ∧ started <+: started' ∧
            Dispatch result (parallel log stopped wake calls limit) taken' started' st'
      else
        started.Perm (List.range calls.length) ∧ st.batch.workers=0 ∧ st.sink.queue=[] ∧
          (st.sink.stopped=false → st.sink.yielded=.start::st.log)) ∧
    WellFounded fun st' st : State P => Step result st st' := by
  refine ⟨fun taken started st hrun => ?_,step_wellFounded result⟩
  have h := hrun.dispatched
  have hlength : taken.length=min st.batch.next calls.length := by rw [h.inOrder,List.length_range]
  have hsub : started.Subperm taken := by
    rw [← coe_le,h.later]
    exact le_add_right _ _
  refine ⟨hlength ▸ h.inOrder,by omega,hsub,?_,h.card_active_le,h.front,?_⟩
  · have hnodup : (taken : Multiset Nat).Nodup := coe_nodup.mpr (h.inOrder ▸ List.nodup_range)
    exact coe_nodup.mp (nodup_of_le (coe_le.mpr hsub) hnodup)
  split
  · next hin =>
    obtain ⟨st',hstep,-⟩ := inBatch_progress result h.inRange hin
    refine ⟨⟨st',hstep⟩,fun st' hstep => ?_⟩
    cases h.step hin hstep with
    | takes hwaiting => exact ⟨_,_,prefix_append _ _,prefix_rfl,.takes hrun hin hstep hwaiting⟩
    | starts hactive => exact ⟨_,_,prefix_rfl,prefix_append _ _,.starts hrun hin hstep hactive⟩
    | goesOn hwaiting hactive =>
      exact ⟨_,_,prefix_rfl,prefix_rfl,.goesOn hrun hin hstep hwaiting hactive⟩
  · next hout =>
    obtain ⟨⟨rest,hengine⟩,hworkers,hqueue⟩ := h.returned (by simpa using hout)
    have hdelivers := h.delivers
    refine ⟨?_,hworkers,hqueue,?_⟩
    · have hstarted := h.later
      rw [waiting,hworkers,h.inOrder,Nat.min_eq_right (h.exhausted hworkers)] at hstarted
      simpa using (coe_eq_coe.mp (by simpa using hstarted)).symm
    · rw [hengine] at hdelivers
      simpa [hqueue] using hdelivers.complete

/-- Two workers have taken their indices, and the second one calls `fn` first. -/
theorem runParallel_starts_out_of_order :
    ∃ st, Dispatch () (parallel [] false false [[],[]] 2) [0,1] [1,0] st := by
  have h0 : Dispatch () (parallel [] false false [[],[]] 2) [] [] _ := .entered
  have hnew : Multiset.replicate 2 Worker.fetching=.fetching ::ₘ {.fetching} := rfl
  have hnext : (.took 0 ::ₘ {.fetching} : Multiset Worker)=.fetching ::ₘ {.took 0} :=
    Multiset.cons_swap ..
  have hlast : (.running 1 ::ₘ {.took 0} : Multiset Worker)=.took 0 ::ₘ {.running 1} :=
    Multiset.cons_swap ..
  have h1 := h0.takes (i := 0) rfl (.fetch hnew (by decide)) rfl
  have h2 := h1.takes (i := 1) rfl (.fetch hnext (by decide)) rfl
  have h3 := h2.starts (i := 1) rfl (.enter (show _ = Worker.took 1 ::ₘ {.took 0} from rfl)) rfl
  have h4 := h3.starts (i := 0) rfl (.enter hlast) rfl
  exact ⟨_,h4⟩
end GudeAgents.Events
