import GudeAgents.Refinement.Pipeline
namespace GudeAgents
open Framework List Logic World AtBoundary
section
variable [Host] {w : Nat} {mode : Mode} {r : Run} {b0 : ToolBatchExecution} {ms : List Message}
  {calls : List ToolCall} {answered : List String} {s s' : World}
namespace Engine
variable {X : Error → Run → World → Prop} {job : Job}
theorem wp_claim (h : AtBoundary w mode b0 ms calls answered r s) (hjob : JobFits b0 calls job)
    {Q : Except ToolOutcome ClaimedCall → Run → World → Prop}
    (herr : ∀ s' o, AtBoundary w mode b0 ms calls answered r s' → Reports job o →
      (s.Synced w → s'.Synced w ∨ o.kind=.coordinationFailure) →
      (∀ id, s'.starts w id=s.starts w id ∧ s'.begins w id=s.begins w id) →
      Q (.error o) r s') (hok : ∀ s' r' e e' b b' call, Running w mode r e b ms calls answered s →
      Running w mode r' e' b' ms calls answered s' → b0.Claims b' → s'.Unpaused w →
      (s.Synced w → s'.Synced w) → Claimable w b' s' job call →
      (∀ id, id≠job.call.toolUseID → b'.find? id=b.find? id ∧
        s'.starts w id=s.starts w id ∧ s'.begins w id=s.begins w id) →
      Q (.ok call) r' s') : (logic.of w).wp (claimCall job) r s Q X := by
  obtain ⟨e,b,hrun,hclaims,hu⟩ := h
  have hjob' : JobFits b calls job := ⟨hjob.call,by rw [hclaims.approvals]; exact hjob.decision⟩
  refine wp_claimCall hrun hjob' ?_ ?_ ?_
  · intro s' o ho hfits hkind
    refine herr s' o (others ⟨e,b,hrun,hclaims,hu⟩ ho) ⟨hfits,hkind⟩ ?_ ?_
    · exact fun hs => .inl (ho.synced.mpr hs)
    · exact fun id => ⟨ho.starts id,ho.begins id⟩
  · intro s' v next o ho hne hkind
    have hat := lost (others ⟨e,b,hrun,hclaims,hu⟩ ho) job.call.toolUseID next hne
    refine herr _ o hat ⟨⟨?_,?_⟩,?_⟩ (fun _ => .inr hkind) ?_
    · rw [hkind]; intro h; cases h
    · rw [hkind]; intro h; cases h
    · rw [hkind]; intro h; cases h
    · intro id
      cases v with
      | acked => exact absurd rfl hne
      | lost | refused =>
        simp [starts_record,begins_record,Event.starts,Event.begins,ho.starts,ho.begins]
  · intro s' b' e' call ho hcl he' hother hclaimable
    have hrun' : Running w mode { r with execution := some e' } e' b' ms calls answered
        (s'.record (.save w (.beginTool job.call.toolUseID) e' .acked)) :=
      (hrun.others ho).claimed hcl rfl he'
    refine hok _ _ e e' b b' call hrun hrun' (hclaims.trans hcl) ?_ ?_ hclaimable ?_
    · exact unpaused_record.mpr ⟨ho.unpaused.mpr hu,by simp⟩
    · exact fun hs => (ho.synced.mpr hs).saved _ _
    · intro id hne
      refine ⟨hother id hne,?_,?_⟩
      · simp [starts_record,Event.starts,ho.starts]
      · simp [begins_record,Event.begins,ho.begins,hne.symm]

variable {c : Context}
private theorem wp_executeCall (h : AtBoundary w mode b0 ms calls answered r s)
    (hjob : JobFits b0 calls job) {Q : ToolOutcome → Run → World → Prop}
    (hq : ∀ o r' s', AtBoundary w mode b0 ms calls answered r' s' → Reports job o →
      (s.Synced w → s'.Synced w ∨ o.kind=.coordinationFailure) → Q o r' s') :
    (logic.of w).wp (executeCall c job) r s Q X := by
  unfold executeCall
  rw [wp_bind]
  refine wp_claim h hjob ?_ ?_
  · intro s' o hat hrep hsync _
    exact hq o r s' hat hrep hsync
  · intro s' r' e e' b b' call hrun hrun' hcl hu hsync hclaimable _
    refine wp_runHandler hrun' hclaimable ?_
    intro s'' start reply o ho _ hfits hkind
    refine hq o r' _ ?_ ⟨hfits,hkind⟩ ?_
    · exact (others ⟨e',b',hrun',hcl,hu⟩ ho).handled start reply
    · exact fun hs => .inl ((ho.synced.mpr (hsync hs)).handled start reply)

variable {Q : List ToolOutcome → Run → World → Prop} {jobs : List Job}
private theorem wp_runSequential (h : AtBoundary w mode b0 ms calls answered r s)
    (hjobs : ∀ job∈jobs, JobFits b0 calls job)
    (hq : ∀ outcomes r' s', AtBoundary w mode b0 ms calls answered r' s' →
      List.Forall₂ Reports jobs outcomes →
      (s.Synced w → s'.Synced w ∨ HasFailure outcomes) → Q outcomes r' s') :
    (logic.of w).wp (runSequential c jobs) r s Q X := by
  induction jobs generalizing r s Q with
  | nil => exact hq [] r s h .nil fun hs => .inl hs
  | cons job rest ih =>
    refine wp_bind.mpr (wp_contextErr fun s1 h₁ _ cancelled => ?_)
    have hat1 := h.others h₁
    -- what is left to show once the first outcome is known
    have hnext : ∀ o r' s', AtBoundary w mode b0 ms calls answered r' s' → Reports job o →
        (s1.Synced w → s'.Synced w ∨ o.kind=.coordinationFailure) →
        (logic.of w).wp (runSequential c rest >>= fun outcomes => pure (o::outcomes)) r' s' Q X := by
      intro o r' s' hat' hrep hsync
      rw [wp_bind]
      refine ih hat' (fun j hj => hjobs j (mem_cons_of_mem _ hj)) ?_
      intro outcomes r'' s'' hat'' hall hsync'
      refine hq _ r'' s'' hat'' (.cons hrep hall) fun hs => ?_
      rcases hsync (h₁.synced.mpr hs) with hs' | hk
      · rcases hsync' hs' with hs'' | ⟨x,hx,hxk⟩
        · exact .inl hs''
        · exact .inr ⟨x,mem_cons_of_mem _ hx,hxk⟩
      · exact .inr ⟨o,by simp,hk⟩
    cases cancelled with
    | some cause => exact hnext _ r s1 hat1 (failed_fits _ _) fun hs => .inl hs
    | none =>
      refine wp_bind.mpr ?_
      refine wp_executeCall hat1 (hjobs job (by simp)) ?_
      intro o r' s' hat' hrep hsync
      exact hnext o r' s' hat' hrep hsync

def ThreadFits (w : Nat) (b : ToolBatchExecution) (s : World) (job : Job) : Thread → Prop
  | .waiting job' => job'=job
  | .claimed job' call => job'=job ∧ Claimable w b s job call
  | .finished o => Reports job o
def Thread.failed (t : Thread) : Prop :=
  ∃ o, t=.finished o ∧ o.kind=.coordinationFailure

structure Threads (w : Nat) (mode : Mode) (b0 : ToolBatchExecution) (ms : List Message)
    (calls : List ToolCall) (answered : List String) (jobs : List Job) (threads : List Thread)
    (r : Run) (s : World) : Prop where
  length : threads.length=jobs.length
  running : ∃ e b, Running w mode r e b ms calls answered s ∧ b0.Claims b ∧ s.Unpaused w ∧
    ∀ {i : Nat} {job : Job} {t : Thread}, jobs[i]?=some job → threads[i]?=some t →
      ThreadFits w b s job t

variable {t : Thread} {b : ToolBatchExecution}
theorem ThreadFits.others (h : ThreadFits w b s job t) (ho : Others w s s') :
    ThreadFits w b s' job t := by
  cases t with
  | waiting | finished => exact h
  | claimed job' call => exact ⟨h.1,h.2.others ho⟩

theorem ThreadFits.frame {b' : ToolBatchExecution} (h : ThreadFits w b s job t)
    (hfind : b'.find? job.call.toolUseID=b.find? job.call.toolUseID)
    (hstarts : s'.starts w job.call.toolUseID=s.starts w job.call.toolUseID)
    (hbegins : s'.begins w job.call.toolUseID=s.begins w job.call.toolUseID) :
    ThreadFits w b' s' job t := by
  cases t with
  | waiting | finished => exact h
  | claimed job' call =>
    obtain ⟨hjob,stored,hstored,hst,hkey,hhash,happ,hlt⟩ := h
    exact ⟨hjob,stored,hfind.trans hstored,hst,hkey,hhash,happ,by rw [hstarts,hbegins]; exact hlt⟩

variable {threads : List Thread}
theorem Threads.others (h : Threads w mode b0 ms calls answered jobs threads r s)
    (ho : Others w s s') : Threads w mode b0 ms calls answered jobs threads r s' := by
  obtain ⟨hlen,e,b,hrun,hcl,hu,hall⟩ := h
  exact ⟨hlen,e,b,hrun.others ho,hcl,ho.unpaused.mpr hu,fun hj ht => (hall hj ht).others ho⟩

theorem Threads.set {i : Nat} (hlen : threads.length=jobs.length)
    (hnodup : (jobs.map (·.call.toolUseID)).Nodup) (hi : jobs[i]?=some job) {r' : Run}
    {e' : Execution} {b' : ToolBatchExecution}
    (hold : ∀ {j : Nat} {job : Job} {t : Thread}, jobs[j]?=some job → threads[j]?=some t →
      ThreadFits w b s job t) (hrun : Running w mode r' e' b' ms calls answered s')
    (hcl : b0.Claims b') (hu : s'.Unpaused w) (hnew : ThreadFits w b' s' job t)
    (hother : ∀ id, id≠job.call.toolUseID → b'.find? id=b.find? id ∧
      s'.starts w id=s.starts w id ∧ s'.begins w id=s.begins w id) :
    Threads w mode b0 ms calls answered jobs (threads.set i t) r' s' := by
  refine ⟨by simpa using hlen,e',b',hrun,hcl,hu,?_⟩
  intro j job' t' hj ht'
  by_cases hji : i=j
  · subst hji
    cases hi.symm.trans hj
    have hlt : i<threads.length := by
      have := (List.getElem?_eq_some_iff.mp ht').1
      simpa using this
    rw [List.getElem?_set_self hlt] at ht'
    cases ht'
    exact hnew
  · rw [List.getElem?_set_ne hji] at ht'
    have hne : job'.call.toolUseID≠job.call.toolUseID := by
      intro heq
      refine hji ?_
      have h1 : (jobs.map (·.call.toolUseID))[i]?=some job.call.toolUseID := by simp [hi]
      have h2 : (jobs.map (·.call.toolUseID))[j]?=some job.call.toolUseID := by simp [hj,heq]
      exact (List.getElem?_inj (List.getElem?_eq_some_iff.mp h1).1 hnodup).mp (h1.trans h2.symm)
    obtain ⟨hf,hs,hb⟩ := hother _ hne
    exact (hold hj ht').frame hf hs hb

omit [Host] in
theorem Thread.failed_set {i : Nat} {t' : Thread} (h : ∃ x∈threads, Thread.failed x)
    (hi : threads[i]?=some t) (hkeep : Thread.failed t → Thread.failed t') :
    ∃ x∈threads.set i t', Thread.failed x := by
  obtain ⟨x,hx,hfail⟩ := h
  obtain ⟨j,hj⟩ := mem_iff_getElem?.mp hx
  have hlt := (List.getElem?_eq_some_iff.mp hi).1
  by_cases hij : i=j
  · subst hij
    cases hi.symm.trans hj
    exact ⟨t',mem_set hlt t',hkeep hfail⟩
  · refine ⟨x,?_,hfail⟩
    refine mem_of_getElem? (i := j) ?_
    rw [List.getElem?_set_ne hij]
    exact hj

section
variable (h : Threads w mode b0 ms calls answered jobs threads r s)
  (hjobs : ∀ job∈jobs, JobFits b0 calls job) (hnodup : (jobs.map (·.call.toolUseID)).Nodup)
include h hjobs hnodup
private theorem wp_advance {i : Nat} (hi : threads[i]?=some t) {Q : Thread → Run → World → Prop}
    (hq : ∀ t' r' s', Threads w mode b0 ms calls answered jobs (threads.set i t') r' s' →
      (Thread.failed t → Thread.failed t') → (s.Synced w → s'.Synced w ∨ Thread.failed t') →
      Q t' r' s') : (logic.of w).wp (advance c t) r s Q X := by
  obtain ⟨hlen,e,b,hrun,hcl,hu,hall⟩ := h
  have hlt := (List.getElem?_eq_some_iff.mp hi).1
  obtain ⟨job,hjob⟩ : ∃ job, jobs[i]?=some job :=
    ⟨_,List.getElem?_eq_getElem (by omega)⟩
  have hfit := hall hjob hi
  cases t with
  | finished o =>
    refine hq _ r s ?_ id (fun hs => .inl hs)
    have : threads.set i (.finished o)=threads := by
      obtain ⟨hlt,heq⟩ := List.getElem?_eq_some_iff.mp hi
      rw [← heq,set_getElem_self]
    rw [this]
    exact ⟨hlen,e,b,hrun,hcl,hu,hall⟩
  | waiting job' =>
    cases hfit
    have hnot : ∀ t', Thread.failed (.waiting job) → Thread.failed t' := by
      rintro t' ⟨o,ho,-⟩
      cases ho
    unfold advance
    rw [wp_bind]
    refine wp_claim ⟨e,b,hrun,hcl,hu⟩ (hjobs job (mem_of_getElem? hjob)) ?_ ?_
    · rintro s' o ⟨e',b',hrun',hcl',hu'⟩ hrep hsync hcount
      obtain ⟨rfl,rfl⟩ := hrun.unique hrun'
      refine hq _ r s' ?_ (hnot _) ?_
      · exact Threads.set hlen hnodup hjob hall hrun' hcl' hu' hrep fun id _ => ⟨rfl,hcount id⟩
      · intro hs
        exact (hsync hs).imp id fun hk => ⟨o,rfl,hk⟩
    · intro s' r' e1 e' b1 b' call hrun1 hrun' hcl' hu' hsync hclaimable hother
      obtain ⟨rfl,rfl⟩ := hrun.unique hrun1
      exact hq _ r' s' (Threads.set hlen hnodup hjob hall hrun' hcl' hu' ⟨rfl,hclaimable⟩ hother)
        (hnot _) fun hs => .inl (hsync hs)
  | claimed job' call =>
    obtain ⟨rfl,hclaimable⟩ := hfit
    unfold advance
    rw [wp_bind]
    refine wp_runHandler hrun hclaimable ?_
    intro s' start reply o ho hcall hfits hkind
    refine hq _ r _ ?_ ?_ ?_
    · obtain ⟨e',b',hrun',hcl',hu'⟩ :=
        (others ⟨e,b,hrun,hcl,hu⟩ ho).handled start reply
      obtain ⟨rfl,rfl⟩ := hrun.unique hrun'
      refine Threads.set hlen hnodup hjob hall hrun' hcl' hu' ⟨hfits,hkind⟩ ?_
      intro id hne
      refine ⟨rfl,?_,?_⟩
      · simp [starts_record,Event.starts,ho.starts,hcall,hne.symm]
      · simp [begins_record,Event.begins,ho.begins]
    · rintro ⟨o',ho',-⟩
      cases ho'
    · exact fun hs => .inl ((ho.synced.mpr hs).handled start reply)

private theorem wp_runThreads {limit fuel : Nat} {S : Prop}
    (hsync : S → s.Synced w ∨ ∃ t∈threads, Thread.failed t) {Q : List Thread → Run → World → Prop}
    (hq : ∀ threads' r' s', Threads w mode b0 ms calls answered jobs threads' r' s' →
      (S → s'.Synced w ∨ ∃ t∈threads', Thread.failed t) → Q threads' r' s') :
    (logic.of w).wp (runThreads c limit fuel threads) r s Q X := by
  induction fuel generalizing r s threads with
  | zero => exact hq threads r s h hsync
  | succ fuel ih =>
    unfold runThreads
    simp only
    split
    · exact hq threads r s h hsync
    · refine wp_bind.mpr (wp_ask fun s1 h₁ _ pick => ?_)
      have hsync1 : S → s1.Synced w ∨ ∃ t∈threads, Thread.failed t :=
        fun hS => (hsync hS).imp h₁.synced.mpr id
      split
      · exact hq threads r s1 (h.others h₁) hsync1
      · next t ht =>
        rw [wp_bind]
        refine wp_advance (h.others h₁) hjobs hnodup ht ?_
        intro t' r' s' hthreads hkeep hs'
        refine ih hthreads fun hS => ?_
        have hlt := (List.getElem?_eq_some_iff.mp ht).1
        rcases hsync1 hS with hs | hfail
        · rcases hs' hs with hs' | hfail'
          · exact .inl hs'
          · exact .inr ⟨t',mem_set hlt t',hfail'⟩
        · exact .inr (Thread.failed_set hfail ht hkeep)
end
def Dispatches (w : Nat) (mode : Mode) (b0 : ToolBatchExecution) (ms : List Message)
    (calls : List ToolCall) (answered : List String) (s : World) (jobs : List Job)
    (outcomes : List ToolOutcome) (r' : Run) (s' : World) : Prop :=
  AtBoundary w mode b0 ms calls answered r' s' ∧ List.Forall₂ Reports jobs outcomes ∧
    (s.Synced w → s'.Synced w ∨ HasFailure outcomes)

section
variable (h : AtBoundary w mode b0 ms calls answered r s)
include h
section
variable (hjobs : ∀ job∈jobs, JobFits b0 calls job) (hnodup : (jobs.map (·.call.toolUseID)).Nodup)
  (hq : ∀ outcomes r' s', Dispatches w mode b0 ms calls answered s jobs outcomes r' s' → Q outcomes
    r' s')
include hjobs hnodup hq
theorem wp_runParallel {limit : Nat} : (logic.of w).wp (runParallel c limit jobs) r s Q X := by
  unfold runParallel
  rw [wp_bind]
  have hstart : Threads w mode b0 ms calls answered jobs (jobs.map .waiting) r s := by
    obtain ⟨e,b,hrun,hcl,hu⟩ := h
    refine ⟨by simp,e,b,hrun,hcl,hu,?_⟩
    intro i job t hj ht
    rw [List.getElem?_map,hj] at ht
    cases ht
    rfl
  refine wp_runThreads hstart hjobs hnodup (S := s.Synced w) (fun hs => .inl hs) ?_
  rintro threads r' s' ⟨hlen,e,b,hrun,hcl,hu,hall⟩ hsync
  refine hq _ r' s' ⟨⟨e,b,hrun,hcl,hu⟩,?_,?_⟩
  · refine forall₂_of_getElem (by simpa using hlen) ?_
    intro i job o hj ho
    rw [List.getElem?_map] at ho
    obtain ⟨t,ht,rfl⟩ := Option.map_eq_some_iff.mp ho
    refine getD_outcome_reports job ?_
    rintro o rfl
    exact hall hj ht
  · intro hs
    refine (hsync hs).imp id ?_
    rintro ⟨t,ht,o,rfl,hk⟩
    exact ⟨o,mem_map.mpr ⟨_,ht,rfl⟩,hk⟩

private theorem wp_runJobs {a : Agent} : (logic.of w).wp (runJobs a c jobs) r s Q X := by
  unfold runJobs
  split
  · exact wp_runParallel h hjobs hnodup hq
  · exact wp_runSequential h hjobs fun outcomes r' s' hat hall hsync =>
      hq outcomes r' s' ⟨hat,hall,hsync⟩
end
def DecisionsFit (b : ToolBatchExecution) (calls : List ToolCall)
    (decisions : Option (List (Option Decision))) : Prop :=
  decisions=none ∨ decisions=some (calls.map fun call => b.approvalFor call.toolUseID)

theorem wp_executeBatch {a : Agent} {available : List Tool}
    {decisions : Option (List (Option Decision))} (hd : DecisionsFit b0 calls decisions)
    (hq : ∀ outcomes r' s', AtBoundary w mode b0 ms calls answered r' s' →
      Outcomes calls outcomes → (s.Synced w → s'.Synced w ∨ HasFailure outcomes) →
      Q outcomes r' s') : (logic.of w).wp (executeBatch a c calls available decisions) r s Q X := by
  have hnodup : (calls.map (·.toolUseID)).Nodup := by
    obtain ⟨e,b,hrun,-⟩ := h
    exact hrun.nodup
  have ids : ∀ {jobs : List Job}, jobs.map (·.call)=calls →
      (jobs.map (·.call.toolUseID)).Nodup := by
    rintro jobs rfl
    simpa [map_map,Function.comp_def] using hnodup
  rcases hd with rfl | rfl
  · -- no decision is stored
    have hcalls : ∀ f : ToolCall → Option Tool,
        (calls.map fun call => (⟨call,f call,none⟩ : Job)).map (·.call)=calls := by
      simp [Function.comp_def]
    have hjobs : ∀ f : ToolCall → Option Tool, ∀ job∈calls.map fun call =>
        (⟨call,f call,none⟩ : Job), JobFits b0 calls job := by
      intro f job hjob
      obtain ⟨call,hcall,rfl⟩ := mem_map.mp hjob
      exact ⟨hcall,.inl rfl⟩
    unfold executeBatch
    simp only
    generalize hj : (calls.map fun call =>
      (⟨call,available.find? fun t => t.name == call.name,none⟩ : Job))=jobs
    have hjobs' : ∀ job∈jobs, JobFits b0 calls job := hj ▸ hjobs _
    have hcalls' : jobs.map (·.call)=calls := hj ▸ hcalls _
    have hsub : ∀ p : Job → Bool, ((jobs.filter p).map (·.call.toolUseID)).Nodup := fun p =>
      List.Nodup.sublist (List.Sublist.map _ filter_sublist) (ids hcalls')
    split
    · refine wp_runJobs h hjobs' (ids hcalls') ?_
      rintro outcomes r' s' ⟨hat,hall,hsync⟩
      exact hq outcomes r' s' hat (.of_reports hcalls' hall) hsync
    · rw [wp_bind]
      refine wp_runJobs h (fun job hjob => hjobs' job (mem_of_mem_filter hjob)) (hsub _) ?_
      rintro first r1 s1 ⟨hat1,hfirst,hsync1⟩
      split
      · next hpending =>
        -- the siblings are not dispatched
        obtain ⟨hout,hmem⟩ := Outcomes.of_deferred _ hcalls' hfirst hpending
        refine hq _ r1 s1 hat1 hout ?_
        intro hs
        refine (hsync1 hs).imp id ?_
        rintro ⟨o,ho,hk⟩
        exact ⟨o,hmem o ho,hk⟩
      · rw [wp_bind]
        refine wp_runJobs hat1 (fun job hjob => hjobs' job (mem_of_mem_filter hjob)) (hsub _) ?_
        rintro second r2 s2 ⟨hat2,hsecond,hsync2⟩
        obtain ⟨hall,hmem⟩ := forall₂_interleave (fun job => job.tool.any (·.needsApproval))
          hfirst hsecond
        refine hq _ r2 s2 hat2 (.of_reports hcalls' hall) fun hs => ?_
        rcases hsync1 hs with hs1 | ⟨o,ho,hk⟩
        · refine (hsync2 hs1).imp id ?_
          rintro ⟨o,ho,hk⟩
          exact ⟨o,(hmem o).mpr (.inr ho),hk⟩
        · exact .inr ⟨o,(hmem o).mpr (.inl ho),hk⟩
  · unfold executeBatch
    have hcalls' := zipIdx_map_call (f := fun call => available.find? fun t => t.name == call.name)
      (g := fun i => ((calls.map fun call => b0.approvalFor call.toolUseID)[i]?).join) calls 0
    refine wp_runJobs h ?_ (ids hcalls') ?_
    · intro job hjob
      obtain ⟨⟨call,i⟩,hmem,rfl⟩ := mem_map.mp hjob
      have hi : calls[i]?=some call := by simpa using mem_zipIdx_iff_getElem?.mp hmem
      refine ⟨mem_of_getElem? hi,.inr ?_⟩
      simp [hi]
    · rintro outcomes r' s' ⟨hat,hall,hsync⟩
      exact hq outcomes r' s' hat (.of_reports hcalls' hall) hsync
end
end Engine
end
end GudeAgents
