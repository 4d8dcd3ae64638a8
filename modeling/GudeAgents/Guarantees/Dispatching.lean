import Mathlib.Algebra.BigOperators.Group.List.Basic
import Mathlib.Algebra.Ring.Int.Defs
import Mathlib.Algebra.Ring.Nat
import Mathlib.Data.List.GetD
import GudeAgents.Agent.Outcomes
import GudeAgents.Framework.Runs
/-!
# Dispatching in any logic
-/
namespace GudeAgents
open Framework List
variable {σ : Type} {L : Logic effects σ} {I : σ → Prop} {J : Run → Prop}
  {Accept : Engine.Job → ToolOutcome → Prop} {α β : Type}
namespace Engine
def Works (L : Logic effects σ) (I : σ → Prop) (J : Run → Prop) (m : Engine α)
    (P : α → Prop) : Prop :=
  ∀ r s, J r → I s → L.wp m r s (fun value r' s' => J r' ∧ I s' ∧ P value) (fun _ _ _ => False)

namespace Works
variable {P : α → Prop} {P' : β → Prop}
theorem pure {value : α} (h : P value) : Works L I J (Pure.pure value : Engine α) P :=
  fun _ _ hr hs => ⟨hr,hs,h⟩

theorem bind {m : Engine α} {f : α → Engine β} (hm : Works L I J m P)
    (hf : ∀ value, P value → Works L I J (f value) P') : Works L I J (m >>= f) P' := by
  intro r s hr hs
  rw [Logic.wp_bind]
  refine Logic.wp_mono (hm r s hr hs) ?_ (fun _ _ _ h => h)
  intro value r' s' h
  exact hf value h.2.2 r' s' h.1 h.2.1

theorem mono {m : Engine α} {Q : α → Prop} (hm : Works L I J m P) (h : ∀ value, P value → Q value) :
    Works L I J m Q := by
  intro r s hr hs
  refine Logic.wp_mono (hm r s hr hs) ?_ (fun _ _ _ h => h)
  intro value r' s' hv
  exact ⟨hv.1,hv.2.1,h value hv.2.2⟩

theorem call {op : Op} {P : op.Answer → Prop}
    (h : ∀ s, I s → L.step op (fun answer s' => I s' ∧ P answer) s) :
    Works L I J (Engine.call op) P := by
  intro r s hr hs
  exact L.mono (fun answer s' h => ⟨hr,h⟩) (h s hs)
end Works
/-- What a logic has to know about the calls of the pipeline, and the outcomes it accepts. -/
structure Dispatching [Host] (L : Logic effects σ) (I : σ → Prop) (J : Run → Prop)
    (Accept : Job → ToolOutcome → Prop) : Prop where
  asks : ∀ {query : Query} {s : σ}, (∀ message, query ≠ .retrieve message) → I s →
    L.step (.ask query) (fun _ s' => I s' ∧ True) s
  checks : ∀ {s : σ}, I s → L.step .contextErr (fun _ s' => I s' ∧ True) s
  claims : ∀ job, Works L I J (beginToolExecution job.call.toolUseID job.call.name).attempt
    fun claimed => ∀ err, claimed = .error err →
      Accept job { kind := if err.isUncertain then .unknown else .coordinationFailure
                   result := { toolUseID := job.call.toolUseID }
                   err := some err }
  handles : ∀ {job : Job} {start : HandlerStart} {s : σ}, start.call = job.call → I s →
    L.step (.handler start) (fun reply s' => I s' ∧
      ∀ executionID key, Accept job (handlerOutcome executionID job.call key reply)) s
  fails : ∀ job content, Accept job (failed job.call content)
  pends : ∀ job t, job.tool = some t → t.needsApproval = true → job.decision = none →
    Accept job { kind := .pendingApproval, result := { toolUseID := job.call.toolUseID } }

section
variable [Host]
section
variable (h : Dispatching L I J Accept)
include h
theorem Dispatching.works_guardCall (t : Tool) (input : RawMessage) :
    Works L I J (guardCall t input) fun _ => True := by
  unfold guardCall
  split
  · have hask : Works L I J (ask (.guard t.name input)) fun _ => True :=
      .call fun s hs => h.asks (by simp) hs
    refine hask.bind fun answer _ => ?_
    split <;> exact .pure trivial
  · exact .pure trivial

theorem Dispatching.works_gateCall (job : Job) :
    Works L I J (gateCall job) fun gated => ∀ o, gated = .error o → Accept job o := by
  have hfailed : ∀ content, Works L I J
      (Pure.pure (.error (Engine.failed job.call content)) : Engine (Except ToolOutcome Tool))
      fun gated => ∀ o, gated = .error o → Accept job o := by
    intro content
    apply Works.pure
    intro o ho
    cases ho
    exact h.fails job content
  unfold gateCall
  split
  · exact hfailed _
  · next t htool =>
    split
    · exact hfailed _
    · have hallowed : Works L I J (ask (.allowedForPrincipal t.name)) fun _ => True :=
        .call fun s hs => h.asks (by simp) hs
      refine hallowed.bind fun access _ => ?_
      split
      · exact hfailed _
      · exact hfailed _
      · have hvalid : Works L I J (ask (.validateToolInput t.name job.call.input)) fun _ => True :=
          .call fun s hs => h.asks (by simp) hs
        refine hvalid.bind fun invalid _ => ?_
        split
        · exact hfailed _
        · refine (h.works_guardCall t job.call.input).bind fun verdict _ => ?_
          split
          · split
            · next hgate =>
              rw [Bool.and_eq_true,Option.isNone_iff_eq_none] at hgate
              apply Works.pure
              intro o ho
              cases ho
              exact h.pends job t htool hgate.1 hgate.2
            · apply Works.pure
              intro o ho
              cases ho
          · exact hfailed _

theorem Dispatching.works_claimCall (job : Job) :
    Works L I J (claimCall job) fun claimed => ∀ o, claimed = .error o → Accept job o := by
  refine (h.works_gateCall job).bind fun gated hgated => ?_
  split
  · next o =>
    apply Works.pure
    intro o' ho'
    cases ho'
    exact hgated o rfl
  · refine (h.claims job).bind fun claimed hclaimed => ?_
    split
    · apply Works.pure
      intro o ho
      cases ho
    · next err =>
      apply Works.pure
      intro o ho
      cases ho
      exact hclaimed err rfl

theorem Dispatching.works_runHandler (c : Context) (job : Job) (claimed : ClaimedCall) :
    Works L I J (runHandler c job claimed) (Accept job) := by
  have hcall : Works L I J (startHandler
      { call := job.call, idempotencyKey := claimed.idempotencyKey
        recoveryReplay := claimed.recoveryReplay, needsApproval := claimed.tool.needsApproval })
      fun reply => ∀ executionID key, Accept job (handlerOutcome executionID job.call key reply) :=
    .call fun s hs => h.handles rfl hs
  exact hcall.bind fun reply hreply => .pure (hreply _ _)

theorem Dispatching.works_executeCall (c : Context) (job : Job) :
    Works L I J (executeCall c job) (Accept job) := by
  refine (h.works_claimCall job).bind fun claimed hclaimed => ?_
  split
  · next o => exact .pure (hclaimed o rfl)
  · exact h.works_runHandler c job _
end
def ThreadOf (Accept : Job → ToolOutcome → Prop) (job : Job) : Thread → Prop
  | .waiting job' => job' = job
  | .claimed job' _ => job' = job
  | .finished o => Accept job o
def Thread.turns : Thread → Nat
  | .waiting _ => 2
  | .claimed _ _ => 1
  | .finished _ => 0

theorem Dispatching.works_advance (h : Dispatching L I J Accept) (c : Context) {job : Job}
    {thread : Thread} (hthread : ThreadOf Accept job thread) : Works L I J (advance c thread)
      fun thread' => ThreadOf Accept job thread' ∧ thread'.turns ≤ thread.turns - 1 := by
  cases thread with
  | waiting job' =>
    have hjob : job' = job := hthread
    subst hjob
    refine (h.works_claimCall job').bind fun claimed hclaimed => ?_
    split
    · next o => exact .pure ⟨hclaimed o rfl,Nat.zero_le _⟩
    · exact .pure ⟨rfl,Nat.le_refl _⟩
  | claimed job' call =>
    have hjob : job' = job := hthread
    subst hjob
    exact (h.works_runHandler c job' call).bind fun o ho => .pure ⟨ho,Nat.zero_le _⟩
  | finished o => exact .pure ⟨hthread,Nat.le_refl _⟩

omit [Host] in
theorem forall₂_set {γ δ : Type} {R : γ → δ → Prop} {xs : List γ} {ys : List δ}
    (h : List.Forall₂ R xs ys) (i : Nat) {y' : δ} (hy : ∀ x, xs[i]? = some x → R x y') :
    List.Forall₂ R xs (ys.set i y') := by
  induction h generalizing i with
  | nil => exact .nil
  | @cons x y xs ys hxy hrest ih =>
    cases i with
    | zero => exact .cons (hy x rfl) hrest
    | succ i => exact .cons hxy (ih i hy)

omit [Host] in
theorem forall₂_getElem? {γ δ : Type} {R : γ → δ → Prop} {xs : List γ} {ys : List δ}
    (h : List.Forall₂ R xs ys) {i : Nat} {y : δ} (hy : ys[i]? = some y) :
    ∃ x, xs[i]? = some x ∧ R x y := by
  induction h generalizing i with
  | nil => simp at hy
  | @cons x y' xs ys hxy _ ih =>
    cases i with
    | zero =>
      cases hy
      exact ⟨x,rfl,hxy⟩
    | succ i => exact ih hy

variable {threads : List Thread}
omit [Host] in
theorem mem_activeThreads {limit i : Nat} (h : i ∈ activeThreads limit threads) :
    ∃ thread, threads[i]? = some thread ∧ thread.outcome? = none := by
  have hmem : i ∈ (threads.zipIdx.filter fun t => t.1.outcome?.isNone).map Prod.snd := by
    unfold activeThreads at h
    split at h
    · exact h
    · exact mem_of_mem_take h
  obtain ⟨⟨thread,j⟩,hthread,rfl⟩ := mem_map.mp hmem
  obtain ⟨hzip,hnone⟩ := mem_filter.mp hthread
  exact ⟨thread,mem_zipIdx_iff_getElem?.mp hzip,Option.isNone_iff_eq_none.mp hnone⟩

omit [Host] in
theorem activeThreads_eq_nil {limit : Nat} (h : activeThreads limit threads = []) :
    ∀ thread ∈ threads, thread.outcome? ≠ none := by
  have hnil : (threads.zipIdx.filter fun t => t.1.outcome?.isNone).map Prod.snd = [] := by
    unfold activeThreads at h
    split at h
    · exact h
    · next hlimit => simpa [take_eq_nil_iff,hlimit] using h
  intro thread hthread hnone
  obtain ⟨i,hi⟩ := mem_iff_getElem?.mp hthread
  rw [map_eq_nil_iff,filter_eq_nil_iff] at hnil
  have hactive := hnil (thread,i) (mem_zipIdx_iff_getElem?.mpr hi)
  simp [hnone] at hactive

omit [Host] in
theorem sum_turns_set {i : Nat} {thread thread' : Thread} (hi : threads[i]? = some thread)
    (hturns : thread'.turns + 1 ≤ thread.turns) :
    ((threads.set i thread').map Thread.turns).sum + 1 ≤ (threads.map Thread.turns).sum := by
  induction threads generalizing i with
  | nil => simp at hi
  | cons t rest ih =>
    cases i with
    | zero =>
      cases hi
      simp only [set_cons_zero,map_cons,sum_cons]
      omega
    | succ i =>
      have hrest := ih hi
      simp only [set_cons_succ,map_cons,sum_cons]
      omega

structure Stepping (L : Logic effects σ) (I : σ → Prop) (J : Run → Prop) (c : Context)
    (jobs : List Job) (Of : Job → Thread → Prop) (Accept : Job → ToolOutcome → Prop) : Prop where
  checks : Works L I J contextErr fun _ => True
  schedules : ∀ active, Works L I J (ask (.schedule active)) fun _ => True
  starts : ∀ job ∈ jobs, Of job (.waiting job)
  advances : ∀ {job : Job} {thread : Thread}, Of job thread → Works L I J (advance c thread)
    fun thread' => Of job thread' ∧ thread'.turns ≤ thread.turns - 1
  ends : ∀ {job : Job} {o : ToolOutcome}, Of job (.finished o) → Accept job o
  executes : ∀ job ∈ jobs, Works L I J (executeCall c job) (Accept job)
  fails : ∀ job ∈ jobs, ∀ content, Accept job (failed job.call content)

variable {c : Context} {jobs : List Job} {Of : Job → Thread → Prop}
theorem Stepping.tail {job : Job} (h : Stepping L I J c (job :: jobs) Of Accept) :
    Stepping L I J c jobs Of Accept where
  checks := h.checks
  schedules := h.schedules
  starts := fun job' hjob' => h.starts job' (mem_cons_of_mem _ hjob')
  advances := h.advances
  ends := h.ends
  executes := fun job' hjob' => h.executes job' (mem_cons_of_mem _ hjob')
  fails := fun job' hjob' => h.fails job' (mem_cons_of_mem _ hjob')

section
variable (h : Stepping L I J c jobs Of Accept)
include h
theorem Stepping.works_runSequential :
    Works L I J (runSequential c jobs) (List.Forall₂ Accept jobs) := by
  induction jobs with
  | nil => exact .pure .nil
  | cons job rest ih =>
    have hrest : ∀ o, Accept job o → Works L I J
        (runSequential c rest >>= fun outcomes => Pure.pure (o :: outcomes))
        (List.Forall₂ Accept (job :: rest)) := by
      intro o ho
      exact (ih h.tail).bind fun outcomes houtcomes => .pure (.cons ho houtcomes)
    refine h.checks.bind fun cause _ => ?_
    cases cause with
    | none => exact (h.executes job mem_cons_self).bind hrest
    | some cause => exact hrest _ (h.fails job mem_cons_self _)

theorem Stepping.works_runThreads (limit fuel : Nat) (hthreads : List.Forall₂ Of jobs threads)
    (hfuel : (threads.map Thread.turns).sum ≤ fuel) :
    Works L I J (runThreads c limit fuel threads) fun threads' =>
      List.Forall₂ Of jobs threads' ∧ ∀ t ∈ threads', t.outcome? ≠ none := by
  induction fuel generalizing threads with
  | zero =>
    refine .pure ⟨hthreads,?_⟩
    intro t ht hnone
    have hturns : t.turns = 0 := by
      have hsum : (threads.map Thread.turns).sum = 0 := Nat.le_zero.mp hfuel
      exact List.sum_eq_zero_iff_forall_eq_nat.mp hsum _ (List.mem_map_of_mem ht)
    cases t <;> simp [Thread.turns,Thread.outcome?] at hturns hnone
  | succ fuel ih =>
    unfold runThreads
    dsimp only
    split
    · next hidle => exact .pure ⟨hthreads,activeThreads_eq_nil hidle⟩
    · next hactive =>
      refine (h.schedules (activeThreads limit threads)).bind fun (pick : Nat) _ => ?_
      -- the chosen position is one of the active ones
      have hlt : pick % (activeThreads limit threads).length <
          (activeThreads limit threads).length :=
        Nat.mod_lt _ (length_pos_iff.mpr hactive)
      have hmem : (activeThreads limit threads).getD
          (pick % (activeThreads limit threads).length) 0 ∈ activeThreads limit threads := by
        rw [getD_eq_getElem _ _ hlt]
        exact getElem_mem hlt
      obtain ⟨thread,hthread,hunfinished⟩ := mem_activeThreads hmem
      rw [hthread]
      obtain ⟨job,hjob,hof⟩ := forall₂_getElem? hthreads hthread
      refine (h.advances hof).bind fun thread' hthread' => ih ?_ ?_
      · apply forall₂_set hthreads
        intro job' hjob'
        cases hjob.symm.trans hjob'
        exact hthread'.1
      · have hturns : thread'.turns + 1 ≤ thread.turns := by
          have hle := hthread'.2
          cases thread with
          | finished o => cases hunfinished
          | waiting | claimed =>
            simp only [Thread.turns] at hle ⊢
            omega
        have hsum := sum_turns_set hthread hturns
        omega

theorem Stepping.works_runJobs (a : Agent) :
    Works L I J (runJobs a c jobs) (List.Forall₂ Accept jobs) := by
  unfold runJobs
  split
  · have hwaiting : List.Forall₂ Of jobs (jobs.map .waiting) := by
      rw [forall₂_map_right_iff]
      exact forall₂_same.mpr h.starts
    have hfuel : ((jobs.map Thread.waiting).map Thread.turns).sum ≤ 2 * jobs.length := by
      rw [map_map]
      have hconst : (Thread.turns ∘ Thread.waiting) = fun _ : Job => 2 := rfl
      rw [hconst,map_const',sum_replicate]
      show jobs.length * 2 ≤ 2 * jobs.length
      rw [Nat.mul_comm]
    refine (h.works_runThreads _ _ hwaiting hfuel).bind fun threads hthreads => .pure ?_
    rw [forall₂_map_right_iff]
    refine forall₂_iff_get.mpr ⟨hthreads.1.length_eq,?_⟩
    intro i hi hi'
    have hof := hthreads.1.get hi hi'
    have hfinished := hthreads.2 _ (getElem_mem hi')
    simp only [get_eq_getElem] at hof ⊢
    generalize threads[i] = thread at hof hfinished
    cases thread with
    | finished o => exact h.ends hof
    | waiting | claimed => exact absurd rfl hfinished
  · exact h.works_runSequential
end
theorem Dispatching.stepping (h : Dispatching L I J Accept) (c : Context) (jobs : List Job) :
    Stepping L I J c jobs (ThreadOf Accept) Accept where
  checks := .call fun _ hs => h.checks hs
  schedules := fun _ => .call fun _ hs => h.asks (by simp) hs
  starts := fun _ _ => rfl
  advances := h.works_advance c
  ends := fun ho => ho
  executes := fun job _ => h.works_executeCall c job
  fails := fun job _ => h.fails job

theorem Dispatching.works_runJobs (h : Dispatching L I J Accept) (a : Agent) (c : Context)
    (jobs : List Job) : Works L I J (runJobs a c jobs) (List.Forall₂ Accept jobs) :=
  (h.stepping c jobs).works_runJobs a

theorem Dispatching.works_executeBatch (h : Dispatching L I J Reports) (a : Agent) (c : Context)
    (calls : List ToolCall) (available : List Tool) (decisions : Option (List (Option Decision))) :
    Works L I J (executeBatch a c calls available decisions) (Outcomes calls) := by
  unfold executeBatch
  dsimp only
  split
  · next decisions =>
    refine (h.works_runJobs a c _).mono fun outcomes hall => .of_reports ?_ hall
    exact @zipIdx_map_call (fun call => available.find? fun t => t.name == call.name)
      (fun i => (decisions[i]?).join) calls 0
  · generalize hjobs : (calls.map fun call =>
      (⟨call,available.find? fun t => t.name == call.name,none⟩ : Job)) = jobs
    have hcalls : jobs.map (·.call) = calls := by
      rw [← hjobs]
      simp [Function.comp_def]
    split
    · exact (h.works_runJobs a c _).mono fun outcomes hall => .of_reports hcalls hall
    · refine (h.works_runJobs a c _).bind fun first hfirst => ?_
      split
      · next hpending => exact .pure (Outcomes.of_deferred _ hcalls hfirst hpending).1
      · refine (h.works_runJobs a c _).bind fun second hsecond => .pure ?_
        exact .of_reports hcalls (forall₂_interleave _ hfirst hsecond).1
end
end Engine
end GudeAgents
