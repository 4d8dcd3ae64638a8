import Mathlib.Data.List.Zip
import GudeAgents.Agent.Simulation
import GudeAgents.Guarantees.Dispatching
import GudeAgents.Protocol.Batches
namespace GudeAgents
open Framework List Logic Scenario
variable {job : Job}
namespace Engine
/-- Only the handlers that are started are observed. -/
def Observed : (op : Op) → List HandlerStart → op.Answer → List HandlerStart → Prop
  | .handler start, started, _, started' => started' = started ++ [start]
  | _, started, _, started' => started' = started
def observed : Logic effects (List HandlerStart) := .always Observed fun _ _ => True

theorem observed_safe {α : Type} {Q : α → List HandlerStart → Prop} (hq : ∀ value s, Q value s)
    (p : Program effects α) (s : List HandlerStart) : observed.Safe p Q s := by
  induction p generalizing s with
  | done value => exact hq value s
  | call op next ih => exact ⟨trivial,fun answer s' _ => ih answer s'⟩

def Held (job : Job) (o : ToolOutcome) : Prop :=
  o = { kind := .pendingApproval, result := { toolUseID := job.call.toolUseID } } ∨
    ∃ content, o = failed job.call content
def Job.Gated (job : Job) : Prop :=
  ∃ t, job.tool = some t ∧ t.needsApproval = true ∧ job.decision = none

section
variable {I : List HandlerStart → Prop} {J : Run → Prop}
private theorem works_ask (query : Query) : Works observed I J (ask query) fun _ => True :=
  .call fun _ hs => ⟨trivial,fun _ _ h => ⟨h ▸ hs,trivial⟩⟩
private theorem works_contextErr : Works observed I J contextErr fun _ => True :=
  .call fun _ hs => ⟨trivial,fun _ _ h => ⟨h ▸ hs,trivial⟩⟩

theorem works_guardCall (t : Tool) (input : RawMessage) :
    Works observed I J (guardCall t input) fun _ => True := by
  unfold guardCall
  split
  · refine (works_ask (.guard t.name input)).bind fun answer _ => ?_
    split <;> exact .pure trivial
  · exact .pure trivial

variable [Host]
theorem works_gateCall (h : job.Gated) :
    Works observed I J (gateCall job) fun gated => ∃ o, gated = .error o ∧ Held job o := by
  obtain ⟨t,htool,happroval,hdecision⟩ := h
  have hfailed : ∀ content, Works observed I J
      (Pure.pure (.error (failed job.call content)) : Engine (Except ToolOutcome Tool))
      fun gated => ∃ o, gated = .error o ∧ Held job o :=
    fun content => .pure ⟨_,rfl,Or.inr ⟨content,rfl⟩⟩
  unfold gateCall
  rw [htool,hdecision]
  refine (works_ask (.allowedForPrincipal t.name)).bind fun access _ => ?_
  split
  · exact hfailed _
  · exact hfailed _
  · refine (works_ask (.validateToolInput t.name job.call.input)).bind fun invalid _ => ?_
    split
    · exact hfailed _
    · refine (works_guardCall t job.call.input).bind fun verdict _ => ?_
      split
      · rw [happroval]
        exact .pure ⟨_,rfl,Or.inl rfl⟩
      · exact hfailed _

theorem works_claimCall (h : job.Gated) :
    Works observed I J (claimCall job) fun claimed => ∃ o, claimed = .error o ∧ Held job o := by
  refine (works_gateCall h).bind fun gated hgated => ?_
  obtain ⟨o,rfl,ho⟩ := hgated
  exact .pure ⟨o,rfl,ho⟩

def HeldThread (job : Job) (thread : Thread) : Prop :=
  job.Gated ∧ (thread = .waiting job ∨ ∃ o, thread = .finished o ∧ Held job o)

private theorem stepping_held (c : Context) {jobs : List Job} (h : ∀ job ∈ jobs, job.Gated) :
    Stepping observed I J c jobs HeldThread Held where
  checks := works_contextErr
  schedules := fun _ => works_ask _
  starts := fun job hjob => ⟨h job hjob,Or.inl rfl⟩
  advances := by
    rintro job thread ⟨hgated,rfl | ⟨o,rfl,ho⟩⟩
    · refine (works_claimCall hgated).bind fun claimed hclaimed => ?_
      obtain ⟨o,rfl,ho⟩ := hclaimed
      exact .pure ⟨⟨hgated,Or.inr ⟨o,rfl,ho⟩⟩,Nat.zero_le _⟩
    · exact .pure ⟨⟨hgated,Or.inr ⟨o,rfl,ho⟩⟩,Nat.le_refl _⟩
  ends := by
    rintro job o ⟨-,hwaiting | ⟨o',heq,ho⟩⟩
    · cases hwaiting
    · cases heq
      exact ho
  executes := by
    intro job hjob
    refine (works_claimCall (h job hjob)).bind fun claimed hclaimed => ?_
    obtain ⟨o,rfl,ho⟩ := hclaimed
    exact .pure ho
  fails := fun job _ content => Or.inr ⟨content,rfl⟩

def PendingNeedsApproval (job : Job) (o : ToolOutcome) : Prop :=
  o.kind = .pendingApproval → job.tool.any (·.needsApproval) = true

private theorem dispatching_observed :
    Dispatching observed (fun _ => True) (fun _ => True) PendingNeedsApproval where
  asks := fun _ _ => ⟨trivial,fun _ _ _ => ⟨trivial,trivial⟩⟩
  checks := fun _ => ⟨trivial,fun _ _ _ => ⟨trivial,trivial⟩⟩
  claims := by
    intro job r s _ _
    rw [wp_attempt]
    refine observed_safe ?_ _ _
    rintro ⟨err | claimed,r'⟩ s'
    · refine ⟨trivial,trivial,?_⟩
      intro err' heq hkind
      by_cases huncertain : err'.isUncertain
      · simp [huncertain] at hkind
      · simp [huncertain] at hkind
    · exact ⟨trivial,trivial,nofun⟩
  handles := by
    intro job start s _ _
    refine ⟨trivial,fun reply s' _ => ⟨trivial,fun executionID key hkind => ?_⟩⟩
    unfold handlerOutcome at hkind
    split at hkind <;> cases hkind
  fails := fun job content hkind => by cases hkind
  pends := by
    intro job t htool happroval _ _
    rw [htool]
    exact happroval
end
end Engine
def needsApproval (available : List Tool) (call : ToolCall) : Bool :=
  (available.find? fun t => t.name == call.name).any (·.needsApproval)

def pendingCalls (calls : List ToolCall) (outcomes : List ToolOutcome) : List ApprovalCall :=
  (calls.zip outcomes).filterMap fun x =>
    if x.2.kind = .pendingApproval then
      some { callID := x.1.toolUseID, name := x.1.name, input := x.1.input }
    else none

/-- What a batch with a pending approval has done: no handler has started, calls that need approval
are pending or have failed a gate, and all others are deferred without a result. -/
structure Preflight (available : List Tool) (calls : List ToolCall) (outcomes : List ToolOutcome)
    (started : List HandlerStart) : Prop where
  noHandler : started = []
  marked : List.Forall₂ (fun call o =>
    if needsApproval available call = true then
      o.kind = .pendingApproval ∨ ∃ content, o = Engine.failed call content
    else o = { kind := .deferred }) calls outcomes
  interrupt : pendingInterrupt outcomes calls =
    (some { type := .approval, approval := some ⟨pendingCalls calls outcomes⟩ },outcomes)

private theorem filterMap_zip_swap {α β γ : Type} {f : α × β → Option γ} {g : β × α → Option γ}
    (h : ∀ a b, f (a,b) = g (b,a)) (xs : List α) (ys : List β) :
    (xs.zip ys).filterMap f = (ys.zip xs).filterMap g := by
  rw [← zip_swap xs ys,filterMap_map]
  exact filterMap_congr fun x _ => h x.1 x.2

variable {calls : List ToolCall} {outcomes : List ToolOutcome}
private theorem pendingInterrupt_of_pending (hinput : ∀ o ∈ outcomes, o.humanInput = none)
    (hpending : pendingCalls calls outcomes ≠ []) :
    pendingInterrupt outcomes calls =
      (some { type := .approval, approval := some ⟨pendingCalls calls outcomes⟩ },outcomes) := by
  have hnone : outcomes.findSome? (·.humanInput) = none := by
    rw [List.findSome?_eq_none_iff]
    exact hinput
  have hswap : ∀ f : ToolOutcome × ToolCall → Option ApprovalCall, (∀ o call, f (o,call) =
      if o.kind = .pendingApproval then
        some { callID := call.toolUseID, name := call.name, input := call.input }
      else none) → (outcomes.zip calls).filterMap f = pendingCalls calls outcomes :=
    fun f hf => filterMap_zip_swap hf outcomes calls
  unfold pendingInterrupt
  rw [hnone]
  rw [hswap,if_neg hpending]
  intro o call
  rfl

variable {o : ToolOutcome}
private theorem pendingCalls_ne_nil (hlength : calls.length = outcomes.length) (ho : o ∈ outcomes)
    (hkind : o.kind = .pendingApproval) : pendingCalls calls outcomes ≠ [] := by
  obtain ⟨i,hi,rfl⟩ := mem_iff_getElem.mp ho
  intro hnil
  have hpair : (calls[i],outcomes[i]) ∈ calls.zip outcomes := by
    rw [mem_iff_getElem]
    exact ⟨i,by rw [length_zip]; omega,by simp⟩
  have hmissing := filterMap_eq_nil_iff.mp hnil _ hpair
  simp [hkind] at hmissing

namespace Engine
def undecided (available : List Tool) (calls : List ToolCall) : List Job :=
  calls.map fun call => ⟨call,available.find? fun t => t.name == call.name,none⟩
def Job.needsApproval (job : Job) : Bool := job.tool.any (·.needsApproval)

private theorem gated_of_undecided {available : List Tool}
    (h : job ∈ (undecided available calls).filter Job.needsApproval) : job.Gated := by
  obtain ⟨hmem,happroval⟩ := mem_filter.mp h
  obtain ⟨call,-,rfl⟩ := mem_map.mp hmem
  cases htool : available.find? fun t => t.name == call.name with
  | none => simp [Job.needsApproval,htool] at happroval
  | some t => exact ⟨t,rfl,by simpa [Job.needsApproval,htool] using happroval,rfl⟩

theorem Held.humanInput (h : Held job o) : o.humanInput = none := by
  rcases h with rfl | ⟨content,rfl⟩
  · rfl
  · rfl

theorem exists_needsApproval {jobs : List Job} (h : List.Forall₂ PendingNeedsApproval jobs outcomes)
    (ho : o ∈ outcomes) (hkind : o.kind = .pendingApproval) :
    ∃ job ∈ jobs, job.needsApproval = true := by
  obtain ⟨job,hjob,hneeds⟩ := exists_of_forall₂ h ho
  exact ⟨job,hjob,hneeds hkind⟩

private theorem preflight_deferred {available : List Tool} {first : List ToolOutcome}
    (hfirst : List.Forall₂ Held ((undecided available calls).filter Job.needsApproval) first)
    (hpending : (first.any fun o => o.kind == .pendingApproval) = true) :
    Preflight available calls (interleave ((undecided available calls).map Job.needsApproval) first
        (((undecided available calls).filter fun job => !job.needsApproval).map
          fun _ => { kind := .deferred })) [] := by
  generalize hjobs : undecided available calls = jobs at hfirst
  have hheld : List.Forall₂ (fun job o => if job.needsApproval = true then Held job o
      else o = { kind := .deferred }) (jobs.filter Job.needsApproval) first := by
    have hneeds : ∀ job ∈ jobs.filter Job.needsApproval, job.needsApproval = true :=
      fun job hjob => (mem_filter.mp hjob).2
    refine ((forall₂_and_left _ _).mpr ⟨hneeds,hfirst⟩).imp fun job o h => ?_
    rw [if_pos h.1]
    exact h.2
  have hdeferred : List.Forall₂ (fun job o => if job.needsApproval = true then Held job o
      else o = { kind := .deferred }) (jobs.filter fun job => !job.needsApproval)
      ((jobs.filter fun job => !job.needsApproval).map fun _ => { kind := .deferred }) := by
    rw [forall₂_map_right_iff,forall₂_same]
    intro job hjob
    rw [if_neg (by simpa using (mem_filter.mp hjob).2)]
  obtain ⟨hall,hmem⟩ := forall₂_interleave Job.needsApproval hheld hdeferred
  have hlength : calls.length = (interleave (jobs.map Job.needsApproval) first
      ((jobs.filter fun job => !job.needsApproval).map fun _ => { kind := .deferred })).length := by
    rw [← hall.length_eq,← hjobs,undecided,length_map]
  obtain ⟨o,ho,hkind⟩ := any_eq_true.mp hpending
  refine ⟨rfl,?_,pendingInterrupt_of_pending ?_ (pendingCalls_ne_nil hlength
    ((hmem o).mpr (Or.inl ho)) (beq_iff_eq.mp hkind))⟩
  · rw [← hjobs,undecided,forall₂_map_left_iff] at hall
    rw [← hjobs]
    refine hall.imp fun call o h => ?_
    change if needsApproval available call = true then Held _ o else _ at h
    by_cases hneeds : needsApproval available call = true
    · rw [if_pos hneeds] at h ⊢
      rcases h with rfl | hfailed
      · exact Or.inl rfl
      · exact Or.inr hfailed
    · rw [if_neg hneeds] at h ⊢
      exact h
  · intro o ho
    rcases (hmem o).mp ho with ho | ho
    · obtain ⟨job,-,h⟩ := exists_of_forall₂ hfirst ho
      exact h.humanInput
    · obtain ⟨-,-,rfl⟩ := mem_map.mp ho
      rfl

variable [Host]
theorem wp_preflight (a : Agent) (c : Context) (calls : List ToolCall) (available : List Tool)
    (r : Run) :
    observed.wp (executeBatch a c calls available none) r []
      (fun outcomes _ started => (∃ o ∈ outcomes, o.kind = .pendingApproval) →
        Preflight available calls outcomes started) (fun _ _ _ => True) := by
  show observed.wp (do
    if (undecided available calls).filter Job.needsApproval = [] then
      runJobs a c (undecided available calls)
    else
      let first ← runJobs a c ((undecided available calls).filter Job.needsApproval)
      if first.any fun o => o.kind == .pendingApproval then
        pure (interleave ((undecided available calls).map Job.needsApproval) first
          (((undecided available calls).filter fun job => !job.needsApproval).map
            fun _ => { kind := .deferred }))
      else
        let second ← runJobs a c ((undecided available calls).filter fun job => !job.needsApproval)
        pure (interleave ((undecided available calls).map Job.needsApproval) first second)) r [] _ _
  split
  · next hnone =>
    refine wp_mono (dispatching_observed.works_runJobs a c _ r [] trivial trivial) ?_
      (fun _ _ _ h => h.elim)
    rintro outcomes _ _ ⟨-,-,hall⟩ ⟨o,ho,hkind⟩
    obtain ⟨job,hjob,hneeds⟩ := exists_needsApproval hall ho hkind
    exact absurd hneeds (filter_eq_nil_iff.mp hnone job hjob)
  · rw [wp_bind]
    have hgated : ∀ job ∈ (undecided available calls).filter Job.needsApproval, job.Gated :=
      fun job => gated_of_undecided
    have hheld := stepping_held (I := (· = [])) (J := fun _ => True) c hgated
    refine wp_mono (hheld.works_runJobs a r [] trivial rfl) ?_ (fun _ _ _ h => h.elim)
    rintro first r' started ⟨-,rfl,hfirst⟩
    split
    · next hpending =>
      intro _
      exact preflight_deferred hfirst hpending
    · next hpending =>
      rw [wp_bind]
      refine wp_mono (dispatching_observed.works_runJobs a c _ r' [] trivial trivial) ?_
        (fun _ _ _ h => h.elim)
      rintro second _ _ ⟨-,-,hall⟩
      rintro ⟨o,ho,hkind⟩
      have hmem := (forall₂_interleave (R := fun _ _ => True) Job.needsApproval
        (hfirst.imp fun _ _ _ => trivial) (hall.imp fun _ _ _ => trivial)).2 o
      rcases hmem.mp ho with ho | ho
      · refine absurd (any_eq_true.mpr ⟨o,ho,?_⟩) hpending
        exact beq_iff_eq.mpr hkind
      · obtain ⟨job,hjob,hneeds⟩ := exists_needsApproval hall ho hkind
        have hnot := (mem_filter.mp hjob).2
        rw [hneeds] at hnot
        cases hnot
end Engine
open Engine in
/-- Whatever every call is answered and however the calls of the batch are scheduled: once a call of
a batch without decisions is pending, no handler has started, all calls without approval are
deferred, and the interrupt shows exactly the pending calls. -/
theorem approval_preflight [Host] {a : Agent} {c : Context} {calls : List ToolCall}
    {available : List Tool} {r r' : Run} {outcomes : List ToolOutcome} {started : List HandlerStart}
    (hrun : (executeBatch a c calls available none r).Runs Observed []
      (.done (.ok outcomes,r')) started) (hpending : ∃ o ∈ outcomes, o.kind = .pendingApproval) :
    Preflight available calls outcomes started := by
  have hwp := wp_preflight a c calls available r
  have hdone := Logic.Safe.runs hwp hrun
  exact hdone hpending

def Scenario.gateAnswer : (op : Op) → List HandlerStart → Option (op.Answer × List HandlerStart)
  | .contextErr, started => some (none,started)
  | .ask (.allowedForPrincipal _), started => some (.allowed,started)
  | .ask (.validateToolInput ..), started => some (none,started)
  | .ask (.schedule _), started => some ((0 : Nat),started)
  | _, _ => none

theorem Scenario.observed_gateAnswer {op : Op} {started started' : List HandlerStart}
    {answer : op.Answer} (h : gateAnswer op started = some (answer,started')) :
    Engine.Observed op started answer started' := by
  unfold gateAnswer at h
  split at h
  · cases h; rfl
  · cases h; rfl
  · cases h; rfl
  · cases h; rfl
  · cases h

def Scenario.lookupAndDelete : Engine (List ToolOutcome) :=
  @Engine.executeBatch plainHost {} context [⟨"a","lookup","1"⟩,⟨"b","delete","2"⟩]
    [⟨"lookup",false,false,false⟩,⟨"delete",true,false,false⟩] none

theorem approval_preflight_lookup_deferred :
    Preflight [⟨"lookup",false,false,false⟩,⟨"delete",true,false,false⟩]
      [⟨"a","lookup","1"⟩,⟨"b","delete","2"⟩]
      [{ kind := .deferred },{ kind := .pendingApproval, result := { toolUseID := "b" } }] [] := by
  have hrun : (lookupAndDelete {}).Runs Engine.Observed []
      ((lookupAndDelete {}).drive gateAnswer 9 []).1
      ((lookupAndDelete {}).drive gateAnswer 9 []).2 :=
    Program.runs_drive observed_gateAnswer 9 _ _
  exact @approval_preflight plainHost {} context _ _ {} {} _ _ hrun ⟨_,.tail _ (.head _),rfl⟩
end GudeAgents
