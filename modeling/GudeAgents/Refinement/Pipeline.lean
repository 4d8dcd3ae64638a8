import GudeAgents.Agent.Outcomes
import GudeAgents.Refinement.Boundaries
import GudeAgents.Refinement.Transitions
/-!
# The tool pipeline

A handler starts only after its claim was acknowledged.
-/
namespace GudeAgents
open Framework Logic World ToolBatchExecution List
variable {stored : ToolExecution}
namespace ToolBatchExecution
theorem find?_of_mem {b : ToolBatchExecution} (hnodup : b.callIDs.Nodup) (hmem : stored∈b.calls) :
    b.find? stored.callID=some stored := by
  unfold find? callIDs at *
  generalize b.calls=calls at *
  induction calls with
  | nil => cases hmem
  | cons call rest ih =>
    simp only [map_cons,nodup_cons] at hnodup
    rcases mem_cons.mp hmem with rfl | hmem
    · simp
    · have hne : call.callID≠stored.callID := by
        intro heq
        exact hnodup.1 (heq ▸ mem_map_of_mem hmem)
      rw [find?_cons_of_neg (by simpa using hne)]
      exact ih hnodup.2 hmem

variable {b : ToolBatchExecution} {id id' : String} {f : ToolExecution → ToolExecution}
theorem setFirst_find?_self (h : b.find? id=some stored)
    (hf : (f stored).callID=stored.callID) : (b.setFirst id f).find? id=some (f stored) := by
  unfold find? setFirst at *
  generalize b.calls=calls at *
  induction calls with
  | nil => cases h
  | cons call rest ih =>
    unfold setFirst.go
    by_cases hid : call.callID=id
    · rw [if_pos hid]
      have : call=stored := by simpa [hid] using h
      subst this
      simp [hf,hid]
    · rw [if_neg hid]
      rw [find?_cons_of_neg (by simpa using hid)] at h ⊢
      exact ih h

theorem setFirst_find?_other (hne : id'≠id) (hf : ∀ call, (f call).callID=call.callID) :
    (b.setFirst id f).find? id'=b.find? id' := by
  unfold find? setFirst
  generalize b.calls=calls
  induction calls with
  | nil => rfl
  | cons call rest ih =>
    unfold setFirst.go
    by_cases hid : call.callID=id
    · have h1 : (call.callID == id')=false := by
        simpa [hid] using hne.symm
      rw [if_pos hid,find?_cons,find?_cons,hf,h1]
    · rw [if_neg hid,find?_cons,find?_cons,ih]

theorem setFirst_approvalFor (hid : ∀ call, (f call).callID=call.callID)
    (ha : ∀ call, (f call).approval=call.approval) :
    (b.setFirst id f).approvalFor id'=b.approvalFor id' := by
  unfold approvalFor setFirst
  generalize b.calls=calls
  induction calls with
  | nil => rfl
  | cons call rest ih =>
    unfold setFirst.go
    by_cases h : call.callID=id
    · rw [if_pos h,findSome?_cons,findSome?_cons,hid,ha]
    · rw [if_neg h,findSome?_cons,findSome?_cons,ih]
end ToolBatchExecution
/-- Another moment of the same dispatch: only statuses moved from ready to in flight. -/
structure ToolBatchExecution.Claims (b b' : ToolBatchExecution) : Prop where
  restated : b.Restated b'
  approvals : ∀ id, b'.approvalFor id=b.approvalFor id
  resolution : b'.resolution=b.resolution
  iteration : b'.iteration=b.iteration
  open_ : ∀ stored'∈b'.calls, stored'.status≠.completed →
    ∃ stored∈b.calls, stored.callID=stored'.callID ∧ stored.status≠.completed

namespace ToolBatchExecution.Claims
variable {b b' b'' : ToolBatchExecution}
theorem refl (b : ToolBatchExecution) : b.Claims b :=
  ⟨.refl b,fun _ => rfl,rfl,rfl,fun stored hmem hst => ⟨stored,hmem,rfl,hst⟩⟩

theorem claim {id : String} (hfind : b.find? id=some stored) (hready : stored.status=.ready) :
    b.Claims (b.setFirst id fun call => { call with status := .inFlight }) := by
  have hres : b.Restated (b.setFirst id fun call => { call with status := .inFlight }) := by
    refine restated_setFirst fun call hcall => ?_
    cases hfind.symm.trans hcall
    exact ⟨rfl,rfl,.inr (by simp [hready])⟩
  refine ⟨hres,fun id' => setFirst_approvalFor (fun _ => rfl) (fun _ => rfl),rfl,rfl,?_⟩
  intro stored' hmem' hst'
  obtain ⟨call,hcall,hm⟩ := hres.exists_left hmem'
  refine ⟨call,hcall,(ToolExecution.callID_of_core hm.1).symm,?_⟩
  rcases hm.2.2 with h | h
  · rw [← h]; exact hst'
  · exact h.2.2.1

theorem trans (h : b.Claims b') (h' : b'.Claims b'') : b.Claims b'' := by
  refine ⟨h.restated.trans h'.restated,fun id => (h'.approvals id).trans (h.approvals id),
    h'.resolution.trans h.resolution,h'.iteration.trans h.iteration,?_⟩
  intro stored hmem hst
  obtain ⟨x,hx,hid,hxst⟩ := h'.open_ stored hmem hst
  obtain ⟨y,hy,hid',hyst⟩ := h.open_ x hx hxst
  exact ⟨y,hy,hid'.trans hid,hyst⟩
end ToolBatchExecution.Claims
section
variable [Host]
/-- The run holds the batch, its messages end at the batch's boundary, and `calls` are the calls
that are not answered yet. -/
structure Running (w : Nat) (mode : Mode) (r : Run) (e : Execution) (b : ToolBatchExecution)
    (ms : List Message) (calls : List ToolCall) (answered : List String) (s : World) : Prop where
  live : Live w mode r e s
  balanced : s.Balanced w
  view : View r ms s
  all : r.persistedCount=ms.length
  batch : e.toolBatch=some b
  sound : b.Sound
  dispatchable : s.Dispatchable w b
  ahead : e.lastSequence≤r.lastSequence
  recovers : mode≠.reconcile
  boundary : Boundary (s.messagesAt r.revision) b answered
  current : answered≠[] → e.revision=r.revision
  holds : ∀ call∈calls, b.Holds call
  fresh : ∀ call∈calls, call.toolUseID∉answered
  nodup : (calls.map (·.toolUseID)).Nodup
  covers : ∀ stored∈b.calls, stored.status≠.completed → stored.callID∈calls.map (·.toolUseID)

variable {w : Nat} {mode : Mode} {r : Run} {e : Execution} {b b' : ToolBatchExecution}
  {ms : List Message} {calls : List ToolCall} {answered : List String} {s s' : World} {ev : Event}
section
variable (h : Running w mode r e b ms calls answered s)
include h
theorem Running.mono (hl : Live w mode r e s') (hb : s'.Balanced w) (hup : s'.upto s.log=s)
    (hpre : s.log <+: s'.log) : Running w mode r e b ms calls answered s' := by
  refine { h with
    live := hl
    balanced := hb
    view := h.view.mono hup hpre
    dispatchable := h.dispatchable.mono hpre
    boundary := ?_ }
  have hle : r.revision≤(s'.upto s.log).revision := by
    rw [hup]
    exact h.view.genuine.le
  rw [ messagesAt_of_prefix hpre hle,hup]
  exact h.boundary

theorem Running.others (ho : Others w s s') : Running w mode r e b ms calls answered s' :=
  h.mono (h.live.others ho) (ho.balanced.mpr h.balanced) ho.upto ho.isPrefix
theorem Running.record (hl : Live w mode r e (s.record ev)) (hr : ev.response?=none)
    (ha : ev.addedUsage?=none) : Running w mode r e b ms calls answered (s.record ev) :=
  h.mono hl ((balanced_record hr ha).mpr h.balanced) rfl record_isPrefix

theorem Running.claimed (hc : b.Claims b') {label : SaveLabel} (hclosing : label.closing=false)
    {v : Nat} {e' : Execution} (he' : e'={ e with toolBatch := some b', version := v }) :
    Running w mode { r with execution := some e' } e' b' ms calls answered
      (s.record (.save w label e' .acked)) := by
  subst he'
  have hkeeps : e.KeepsIteration { e with toolBatch := some b', version := v } := by
    rintro _ ⟨⟩
    exact ⟨b,h.batch,hc.iteration⟩
  refine { live := h.live.saved hclosing id fun _ => hkeeps, balanced := ?_,
           view := ?_, all := h.all, batch := rfl, sound := ?_, dispatchable := ?_, ahead := h.ahead, recovers := h.recovers, boundary := ?_,
           current := h.current, holds := ?_, fresh := h.fresh, nodup := h.nodup, covers := ?_ }
  · exact (balanced_record rfl rfl).mpr h.balanced
  · exact ⟨h.view.record.genuine,h.view.count,h.view.record.persisted⟩
  · exact h.sound.restated hc.restated (by rw [hc.resolution]; exact h.sound.resolution)
  · rcases h.dispatchable.mono record_isPrefix with hd | ⟨i,resp,ap,hcl,hap,hne,hall⟩
    · exact .inl (hc.restated.launched.mp hd)
    · exact .inr ⟨i,resp,ap,hcl,hap,hne,by rw [hc.restated.same.callIDs]; exact hall⟩
  · rw [messagesAt_record h.view.genuine.le]
    exact h.boundary.same hc.restated.same
  · intro call hcall
    exact (h.holds call hcall).same hc.restated.same
  · intro stored' hmem hst
    obtain ⟨stored,hmem',hid,hst'⟩ := hc.open_ stored' hmem hst
    rw [← hid]
    exact h.covers stored hmem' hst'
end
namespace Engine
def Gated (job : Job) : Except ToolOutcome Tool → Prop
  | .error o => o.Fits job.call ∧ o.kind≠.deferred
  | .ok t => job.tool=some t ∧
      (t.needsApproval=true → ∃ d, job.decision=some d ∧ d.allow=true)

variable {X : Error → Run → World → Prop}
theorem wp_guardCall {t : Tool} {input : RawMessage} {Q : Decision → Run → World → Prop}
    (h : ∀ s' d, Others w s s' → Q d r s') : (logic.of w).wp (guardCall t input) r s Q X := by
  unfold guardCall
  split
  · refine wp_bind.mpr (wp_ask fun s1 h₁ _ answer => ?_)
    cases answer with
    | ok d => exact h s1 d h₁
    | error message => exact h s1 _ h₁
  · exact h s _ (.refl w s)

variable {job : Job}
theorem wp_gateCall {Q : Except ToolOutcome Tool → Run → World → Prop}
    (h : ∀ s' res, Others w s s' → Gated job res → Q res r s') :
    (logic.of w).wp (gateCall job) r s Q X := by
  unfold gateCall
  cases htool : job.tool with
  | none => exact h s _ (.refl w s) (failed_fits _ _)
  | some t =>
    simp only
    split
    · exact h s _ (.refl w s) (failed_fits _ _)
    · next hallow =>
      refine wp_bind.mpr (wp_ask fun s1 h₁ _ access => ?_)
      cases access with
      | deniedByAttributes | deniedByRole => exact h s1 _ h₁ (failed_fits _ _)
      | allowed =>
        refine wp_bind.mpr (wp_ask fun s2 h2 _ invalid => ?_)
        cases invalid with
        | some message => exact h s2 _ (h₁.trans h2) (failed_fits _ _)
        | none =>
          refine wp_bind.mpr (wp_guardCall fun s3 verdict h3 => ?_)
          have ho := (h₁.trans h2).trans h3
          split
          · split
            · exact h s3 _ ho (by simp [Gated,ToolOutcome.Fits])
            · next hpending =>
              refine h s3 _ ho ⟨htool,fun hneeds => ?_⟩
              cases hd : job.decision with
              | none => simp [hneeds,hd] at hpending
              | some d => exact ⟨d,rfl,by simpa [hd] using hallow⟩
          · exact h s3 _ ho (failed_fits _ _)

structure JobFits (b : ToolBatchExecution) (calls : List ToolCall) (job : Job) : Prop where
  call : job.call∈calls
  decision : job.decision=none ∨ job.decision=b.approvalFor job.call.toolUseID

/-- The handler of the job may start: its boundary is claimed and not used yet. -/
def Claimable (w : Nat) (b : ToolBatchExecution) (s : World) (job : Job) (call : ClaimedCall) :
    Prop :=
  ∃ stored, b.find? job.call.toolUseID=some stored ∧ stored.status=.inFlight ∧
    call.idempotencyKey=stored.idempotencyKey ∧
    toolInputHash job.call.input=.ok stored.inputHash ∧
    (call.tool.needsApproval=true → ∃ a, stored.approval=some a ∧ a.allow=true) ∧
    s.starts w job.call.toolUseID<s.begins w job.call.toolUseID

theorem wp_beginToolExecution (h : Running w mode r e b ms calls answered s) {id name : String}
    {Q : String×Bool → Run → World → Prop} (hfail : ∀ err, X err r s)
    (hlost : ∀ s' v next fault, Others w s s' → v≠.acked →
      X (StoreFault.execution fault) r (s'.record (.save w (.beginTool id) next v)))
    (hok : ∀ s' b' e' stored replay, Others w s s' → Valid s' → b.Claims b' →
      e'={ e with toolBatch := some b', version := e.version + 1 } →
      (∀ id', id'≠id → b'.find? id'=b.find? id') →
      b'.find? id=some stored → stored.status=.inFlight →
      Q (stored.idempotencyKey,replay) { r with execution := some e' }
        (s'.record (.save w (.beginTool id) e' .acked))) :
    (logic.of w).wp (beginToolExecution id name) r s Q X := by
  unfold beginToolExecution
  simp only [wp_bind,wp_get,h.live.durable,h.live.execution,↓reduceIte]
  cases hclaim : e.claimTool r.recovering id name with
  | error err => exact hfail err
  | ok out =>
    obtain ⟨next,key,replay⟩ := out
    obtain ⟨b0,stored,hb0,hfind,rfl,hcase⟩ := Execution.claimTool_ok hclaim
    cases h.batch.symm.trans hb0
    have hchange : ∀ n, (e.claimTool r.recovering id name).map Prod.fst=.ok n → n=next := by
      intro n hn
      rw [hclaim] at hn
      exact (Except.ok.inj hn).symm
    refine wp_persistExecution h.live ?_ ?_ ?_ ?_ ?_
    · intro n hn
      rw [hchange n hn]
      rcases hcase with ⟨-,rfl⟩ | ⟨-,-,-,rfl⟩ <;> rfl
    · intro n s' hn ho _
      rw [hchange n hn]
      refine .beginTool hclaim fun hrec => ?_
      have hfits := (h.live.others ho).fits
      cases mode with
      | turn => rw [hfits.recovering] at hrec; cases hrec
      | recover => exact hfits.2
      | reconcile => exact absurd rfl h.recovers
    · intro err herr
      rw [hclaim] at herr
      cases herr
    · intro n s' hn ho hv _ _
      rw [hchange n hn]
      rcases hcase with ⟨hready,rfl⟩ | ⟨hflight,-,-,rfl⟩
      · exact hok s' _ _ { stored with status := .inFlight } replay ho hv (.claim hfind hready) rfl
          (fun id' hne => setFirst_find?_other hne fun _ => rfl)
          (setFirst_find?_self hfind rfl) rfl
      · exact hok s' b _ stored replay ho hv (.refl b) (by rw [← h.batch]) (fun _ _ => rfl) hfind
          hflight
    · intro n s' v fault hn ho _ hne
      exact hlost s' v _ fault ho hne

theorem wp_claimCall (h : Running w mode r e b ms calls answered s) (hjob : JobFits b calls job)
    {Q : Except ToolOutcome ClaimedCall → Run → World → Prop}
    (hfail : ∀ s' o, Others w s s' → o.Fits job.call → o.kind≠.deferred → Q (.error o) r s')
    (hlost : ∀ s' v next o, Others w s s' → v≠.acked → o.kind=.coordinationFailure →
      Q (.error o) r (s'.record (.save w (.beginTool job.call.toolUseID) next v)))
    (hok : ∀ s' b' e' call, Others w s s' → b.Claims b' →
      e'={ e with toolBatch := some b', version := e.version + 1 } →
      (∀ id', id'≠job.call.toolUseID → b'.find? id'=b.find? id') →
      Claimable w b' (s'.record (.save w (.beginTool job.call.toolUseID) e' .acked)) job call →
      Q (.ok call) { r with execution := some e' }
        (s'.record (.save w (.beginTool job.call.toolUseID) e' .acked))) :
    (logic.of w).wp (claimCall job) r s Q X := by
  refine wp_bind.mpr (wp_gateCall fun s1 res h₁ hgate => ?_)
  cases res with
  | error o => exact hfail s1 o h₁ hgate.1 hgate.2
  | ok t =>
    obtain ⟨htool,happroved⟩ := hgate
    simp only [wp_bind,wp_attempt]
    refine wp_beginToolExecution (h.others h₁) ?_ ?_ ?_
    · intro err
      refine hfail s1 _ h₁ ⟨?_,?_⟩ ?_
      · intro hk
        split at hk <;> cases hk
      · simp
      · simp only
        split <;> simp
    · intro s' v next fault ho hne
      refine hlost s' v next _ (h₁.trans ho) hne ?_
      simp
    · intro s' b' e' stored replay ho hv hclaims he' hother hfind hflight
      refine hok s' b' e' _ (h₁.trans ho) hclaims he' hother ⟨stored,hfind,hflight,rfl,?_,?_,?_⟩
      · -- the stored call describes the dispatched one
        obtain ⟨x,hx,hxid,-,hxhash⟩ :=
          (h.holds job.call hjob.call).same hclaims.restated.same
        have hnodup : b'.callIDs.Nodup := by
          rw [hclaims.restated.same.callIDs]
          exact h.sound.nodup
        have := find?_of_mem hnodup hx
        rw [hxid,hfind] at this
        cases this
        exact hxhash
      · intro hneeds
        obtain ⟨d,hd,hallow⟩ := happroved hneeds
        have hstored : b'.approvalFor job.call.toolUseID=some d := by
          rw [hclaims.approvals]
          rcases hjob.decision with hnone | hsome
          · rw [hd] at hnone; cases hnone
          · rw [← hsome,hd]
        have hnodup : b'.callIDs.Nodup := by
          rw [hclaims.restated.same.callIDs]
          exact h.sound.nodup
        obtain ⟨x,a,hx,ha,rfl⟩ := approvalFor_eq_some hnodup hstored
        rw [hfind] at hx
        cases hx
        exact ⟨a,ha,hallow⟩
      · have hle := hv.starts_le_begins w job.call.toolUseID
        simp only [starts_record,begins_record,Event.worker?,Event.starts,Event.begins]
        simp
        omega

theorem Claimable.others {call : ClaimedCall} (h : Claimable w b s job call) (ho : Others w s s') :
    Claimable w b s' job call := by
  obtain ⟨stored,hfind,hst,hkey,hhash,happ,hlt⟩ := h
  exact ⟨stored,hfind,hst,hkey,hhash,happ,by rw [ho.starts,ho.begins]; exact hlt⟩

theorem wp_runHandler {c : Context} {call : ClaimedCall}
    (h : Running w mode r e b ms calls answered s) (hc : Claimable w b s job call)
    {Q : ToolOutcome → Run → World → Prop}
    (hq : ∀ s' start reply o, Others w s s' → start.call=job.call → o.Fits job.call →
      o.kind≠.deferred → Q o r (s'.record (.handler w start reply))) :
    (logic.of w).wp (runHandler c job call) r s Q X := by
  unfold runHandler
  rw [wp_bind]
  refine wp_handler fun s' reply ho _ => ⟨?_,?_⟩
  · have h' := h.others ho
    obtain ⟨stored,hfind,hst,hkey,hhash,happ,hlt⟩ := hc.others ho
    exact ⟨⟨e,b,stored,h'.live.hand,h'.batch,hfind,hst,hhash,hkey,happ⟩,h'.live.opened,hlt⟩
  · obtain ⟨hfits,hkind⟩ := handlerOutcome_fits c.executionID call.idempotencyKey job.call reply
    exact hq s' _ reply _ ho rfl hfits hkind
end Engine
theorem Running.unique {e e' : Execution} {b b' : ToolBatchExecution}
    (h : Running w mode r e b ms calls answered s)
    (h' : Running w mode r e' b' ms calls answered s') : e=e' ∧ b=b' := by
  have he : e=e' := Option.some.inj (h.live.execution.symm.trans h'.live.execution)
  subst he
  exact ⟨rfl,Option.some.inj (h.batch.symm.trans h'.batch)⟩

/-- The run is at the boundary of `b0`; nothing but claims happened since. -/
def AtBoundary (w : Nat) (mode : Mode) (b0 : ToolBatchExecution) (ms : List Message)
    (calls : List ToolCall) (answered : List String) (r : Run) (s : World) : Prop :=
  ∃ e b, Running w mode r e b ms calls answered s ∧ b0.Claims b ∧ s.Unpaused w

section
variable {b0 : ToolBatchExecution}
section
variable (h : AtBoundary w mode b0 ms calls answered r s)
include h
theorem AtBoundary.others (ho : Others w s s') : AtBoundary w mode b0 ms calls answered r s' := by
  obtain ⟨e,b,hrun,hclaims,hu⟩ := h
  exact ⟨e,b,hrun.others ho,hclaims,ho.unpaused.mpr hu⟩

theorem AtBoundary.handled (start : HandlerStart) (reply : HandlerReply) :
    AtBoundary w mode b0 ms calls answered r (s.record (.handler w start reply)) := by
  obtain ⟨e,b,hrun,hclaims,hu⟩ := h
  refine ⟨e,b,hrun.record (hrun.live.record rfl rfl rfl (fun _ => rfl) (by simp)) rfl rfl,hclaims,?_⟩
  exact unpaused_record.mpr ⟨hu,by simp⟩

theorem AtBoundary.lost (id : String) (next : Execution) {v : Verdict} (hv : v≠.acked) :
    AtBoundary w mode b0 ms calls answered r (s.record (.save w (.beginTool id) next v)) := by
  obtain ⟨e,b,hrun,hclaims,hu⟩ := h
  refine ⟨e,b,hrun.record (hrun.live.unsaved rfl hv) rfl rfl,hclaims,?_⟩
  exact unpaused_record.mpr ⟨hu,by simp⟩
end
end
end
end GudeAgents
