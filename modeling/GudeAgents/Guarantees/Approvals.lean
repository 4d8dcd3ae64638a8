import GudeAgents.Guarantees.Handlers
/-!
# Approvals

A stored decision can only come from a resume that claimed the pause showing the call.
-/
namespace GudeAgents
open List Execution ToolBatchExecution ToolExecution
namespace ToolBatchExecution
variable {b : ToolBatchExecution} {id : String} {f : ToolExecution → ToolExecution}
  {call' : ToolExecution}
theorem mem_setFirst (h : call' ∈ (b.setFirst id f).calls) :
    ∃ call ∈ b.calls, call' = call ∨ call' = f call := by
  unfold setFirst at h
  generalize b.calls = calls at h
  induction calls with
  | nil => cases h
  | cons call rest ih =>
    unfold setFirst.go at h
    split at h
    · rcases mem_cons.mp h with rfl | h
      · exact ⟨call,mem_cons_self,.inr rfl⟩
      · exact ⟨call',mem_cons_of_mem _ h,.inl rfl⟩
    · rcases mem_cons.mp h with rfl | h
      · exact ⟨call',mem_cons_self,.inl rfl⟩
      · obtain ⟨call0,hmem,heq⟩ := ih h
        exact ⟨call0,mem_cons_of_mem _ hmem,heq⟩

def Decides (b : ToolBatchExecution) (core : ToolExecution) (a : ToolApprovalDecision) : Prop :=
  ∃ call ∈ b.calls, call.core = core ∧ call.approval = some a

variable {a : ToolApprovalDecision}
theorem decides_of_setFirst (hc : call' ∈ (b.setFirst id f).calls) (ha : call'.approval = some a)
    (hf : ∀ call, (f call).core = call.core ∧ (f call).approval = call.approval) :
    b.Decides call'.core a := by
  obtain ⟨call,hmem,rfl | rfl⟩ := mem_setFirst hc
  · exact ⟨call',hmem,rfl,ha⟩
  · exact ⟨call,hmem,(hf call).1.symm,(hf call).2.symm.trans ha⟩

theorem decides_of_mapCalls (hc : call' ∈ (b.mapCalls f).calls) (ha : call'.approval = some a)
    (hf : ∀ call, (f call).core = call.core ∧ (f call).approval = call.approval) :
    b.Decides call'.core a := by
  obtain ⟨call,hmem,rfl⟩ := mem_map.mp hc
  exact ⟨call,hmem,(hf call).1.symm,(hf call).2.symm.trans ha⟩

theorem decides_of_complete {completed : List String} (hc : call' ∈ (b.complete completed).calls)
    (ha : call'.approval = some a) : b.Decides call'.core a := by
  apply decides_of_mapCalls hc ha
  intro call
  split
  · exact ⟨rfl,rfl⟩
  · exact ⟨rfl,rfl⟩
end ToolBatchExecution
section
variable [Host] {s : World} {w k : Nat} {e next : Execution} {b b' : ToolBatchExecution}
  {label : SaveLabel} {call' : ToolExecution} {a : ToolApprovalDecision}
/-- The worker's resume has answered the call with this decision. -/
def World.Answered (s : World) (w : Nat) (callID : String) (a : ToolApprovalDecision) : Prop :=
  ∃ i resp approval c, s.Claimed w i resp ∧ i.approval = some approval ∧ c ∈ approval.calls ∧
    c.callID = callID ∧ a = ⟨(resp.decisionFor callID).allow,(resp.decisionFor callID).reason⟩

/-- The step lemma: a save keeps the decisions it finds, or writes those of an own claimed resume. -/
theorem LegalSave.decides (h : LegalSave s w label next) (hand : s.hand? w = some e)
    (hb' : next.toolBatch = some b') (hc : call' ∈ b'.calls) (ha : call'.approval = some a) :
    (∃ b, e.toolBatch = some b ∧ b.Decides call'.core a) ∨ s.Answered w call'.callID a := by
  cases h with
  | create _ _ _ fresh =>
    rw [fresh] at hand
    cases hand
  | resumeClaim _ hand' | projectPause _ hand' =>
    cases hand.symm.trans hand'
    exact .inl ⟨b',hb',call',hc,rfl,ha⟩
  | retry _ hand' batch =>
    cases hand.symm.trans hand'
    cases hb'
    exact .inl ⟨_,batch,decides_of_setFirst hc ha fun _ => ⟨rfl,rfl⟩⟩
  | resolution _ hand' batch =>
    cases hand.symm.trans hand'
    cases hb'
    exact .inl ⟨_,batch,call',hc,rfl,ha⟩
  | body hand' started opened guarded =>
    cases hand.symm.trans hand'
    cases guarded with
    | startCursor | runtimeProgress | pendingPause | pauseRecovered | pause | finalize =>
      exact .inl ⟨b',hb',call',hc,rfl,ha⟩
    | plan planned =>
      obtain ⟨-,calls,hcalls,rfl⟩ := plan_ok planned
      cases hb'
      have hnone := ((planCalls_ok hcalls).2.1 call' hc).2.1
      rw [hnone] at ha
      cases ha
    | ready batch marked =>
      obtain ⟨b,hb,-,rfl⟩ := markReady_ok marked
      cases hb'
      exact .inl ⟨b,hb,decides_of_mapCalls hc ha fun _ => ⟨rfl,rfl⟩⟩
    | beginTool claimed =>
      obtain ⟨b,call,hb,-,-,⟨-,rfl⟩ | ⟨-,-,-,rfl⟩⟩ := claimTool_ok claimed
      · cases hb'
        exact .inl ⟨b,hb,decides_of_setFirst hc ha fun _ => ⟨rfl,rfl⟩⟩
      · exact .inl ⟨b',hb',call',hc,rfl,ha⟩
    | @removeToolCalls b completed _ batch =>
      simp only [Execution.removeToolCalls,batch,settleBatch_toolBatch] at hb'
      split at hb'
      · cases hb'
      · cases hb'
        exact .inl ⟨b,batch,decides_of_complete hc ha⟩
    | @approvals i resp approval _ claimed calls stores =>
      obtain ⟨b,b1,hb,rfl,-,hall,-⟩ := storeDecisions_ok stores
      cases hb'
      obtain ⟨call,hmem,hcore,-,-,hkept | ⟨⟨c,hcmem,hid⟩,hset⟩⟩ :=
        exists_of_forall₂ hall hc
      · exact .inl ⟨b,hb,call,hmem,hcore.symm,hkept.symm.trans ha⟩
      · rw [ha] at hset
        exact .inr ⟨i,resp,approval,c,claimed,calls,hcmem,hid,Option.some.inj hset⟩
    | finishResolution batch launched resolution genuine ahead boundary answers finished =>
      obtain ⟨b,claim,hb,-,-,rfl⟩ := finishResolution_ok finished
      simp only [settleBatch_toolBatch] at hb'
      split at hb'
      · cases hb'
      · cases hb'
        exact .inl ⟨b,hb,decides_of_complete hc ha⟩

/-- The run lemma: every stored decision was given by a resume that had won its pause. -/
theorem Valid.decided (hv : Valid s) (hk : s.At k e) (hb : e.toolBatch = some b)
    (hc : call' ∈ b.calls) (ha : call'.approval = some a) :
    ∃ l w, l <+: s.log ∧ (s.upto l).Answered w call'.callID a := by
  induction k generalizing e b call' with
  | zero =>
    rw [hv.created_idle hk] at hb
    cases hb
  | succ k ih =>
    obtain ⟨w,label,l,v,prev,-,hl,hprev,hhand,hlegal⟩ := hv.commit_at hk
    rcases hlegal.decides hhand hb hc ha with ⟨b0,hb0,call,hcall,hcore,ha0⟩ | hanswer
    · rw [← callID_of_core hcore]
      exact ih hprev hb0 hcall ha0
    · exact ⟨l,w,prefix_of_concat hl,hanswer⟩

/-- A resume has won a pause that showed the call with an input of this start's canonical hash,
and its answer allows the call. -/
def World.Approved (s : World) (start : HandlerStart) : Prop :=
  ∃ k e p w resp claimed approval c hash, s.At k e ∧ e.pause = some p ∧
    s.stored[k + 1]? = some ⟨w,.resumeClaim (interruptFromExecution e p) resp,claimed⟩ ∧
    p.approval = some approval ∧ c ∈ approval.calls ∧ c.callID = start.call.toolUseID ∧
    (resp.decisionFor start.call.toolUseID).allow = true ∧
    toolInputHash c.input = .ok hash ∧ toolInputHash start.call.input = .ok hash

theorem World.Answered.approved (hv : Valid s) {start : HandlerStart} {stored : ToolExecution}
    (hk : s.At k e) (hb : e.toolBatch = some b) (hstored : stored ∈ b.calls)
    (hid : stored.callID = start.call.toolUseID)
    (hhash : toolInputHash start.call.input = .ok stored.inputHash)
    (h : s.Answered w stored.callID a) (hallow : a.allow = true) : s.Approved start := by
  obtain ⟨i,resp,approval,c,hclaimed,happroval,hc,hcid,rfl⟩ := h
  obtain ⟨k0,e0,p,claimed,hclaim,hat0,hpause,rfl,-,-⟩ := hv.claimed_pause hclaimed
  have hshown := hv.crossStore.approvals hat0 (.inl hpause) happroval hc
  obtain ⟨k1,e1,b1,call1,-,hat1,hb1,-,hcall1,hid1,hhash1⟩ := hshown
  -- the shown call and the stored one have one identity, because they share an ID
  have hmem : stored.callID ∈ b.callIDs := mem_map_of_mem hstored
  have hmem1 : stored.callID ∈ b1.callIDs := by
    rw [← hcid,← hid1]
    exact mem_map_of_mem hcall1
  obtain ⟨p',ep,bp,hlife,-,hsame,hsame1⟩ :=
    hv.crossStore.same_lifetime hv hk hb hat1 hb1 hmem hmem1
  obtain ⟨x,hx,hxcore⟩ := hsame.exists_left hstored
  obtain ⟨y,hy,hycore⟩ := hsame1.exists_left hcall1
  have hxy : x = y := by
    have hnodup := (hv.sound hlife.plans.at hlife.plans.batch).nodup
    apply inj_on_of_nodup_map hnodup hx hy
    rw [callID_of_core hxcore,callID_of_core hycore,hid1,hcid]
  have hinput : call1.inputHash = stored.inputHash := by
    subst hxy
    exact inputHash_of_core (hycore.symm.trans hxcore)
  rw [hinput] at hhash1
  rw [hid] at hcid hallow
  exact ⟨k0,e0,p,w,resp,claimed,approval,c,_,hat0,hpause,hclaim,happroval,hc,hcid,hallow,hhash1,
    hhash⟩

omit [Host] in
theorem World.Answered.mono {l : List Event} (h : l <+: s.log) {id : String}
    (ha : (s.upto l).Answered w id a) : s.Answered w id a := by
  obtain ⟨i,resp,approval,c,⟨e,he⟩,hrest⟩ := ha
  exact ⟨i,resp,approval,c,⟨e,h.subset he⟩,hrest⟩

/-- A handler that needs approval starts only after an accepted resume has allowed exactly this
call, shown with an input of the same canonical hash. -/
theorem handler_starts_approved {seed : World} (h : Reaches seed s) {before : List Event}
    {start : HandlerStart} {reply : HandlerReply}
    (hl : before ++ [Event.handler w start reply] <+: s.log) (hneeds : start.needsApproval = true) :
    (s.upto before).Approved start := by
  have hv := h.valid.upto (prefix_of_concat hl)
  have hlegal : LegalHandler (s.upto before) w start := h.valid.legal hl
  obtain ⟨e,b,stored,hhand,hb,hfind,-,hhash,-,hdecided⟩ := hlegal.held
  obtain ⟨a,ha,hallow⟩ := hdecided hneeds
  have hat := (hv.hand_stored hhand).2.2
  have hmem := mem_of_find?_eq_some hfind
  have hid : stored.callID = start.call.toolUseID := by simpa using List.find?_some hfind
  obtain ⟨l,v, hprefix,hanswer⟩ := hv.decided hat hb hmem ha
  exact (hanswer.mono hprefix).approved hv hat hb hmem hid hhash hallow
end
namespace Scenario
def answer (type : InterruptType) (version : Nat) (resp : ResumeResponse) : Request :=
  .resume { executionID := "execution", executionVersion := version, type := type } resp
def approvedCall : Script :=
  let a : Agent := { tools := [{ name := "t", needsApproval := true }] }
  [enter a (.invoke "hi"),.run 0 99,.step 0 (callsTools ["c1"]),.run 0 99,
    enter a (answer .approval 7 (.all ⟨true,""⟩)),.run 1 99,.step 1 (returns "ok")]
def startsApproved : Event → Bool
  | .handler w start _ => decide (w = 1) && start.needsApproval
  | _ => false
end Scenario
theorem handler_starts_approved_call : ∃ s before start reply, @Reaches plainHost {} s ∧
    before ++ [Event.handler 1 start reply] = s.log ∧ start.needsApproval = true ∧
    @World.Approved plainHost (s.upto before) start := by
  obtain ⟨s,hs,hP⟩ := @exists_reaches plainHost {} Scenario.approvedCall
    (fun s => s.log.getLast?.any Scenario.startsApproved) rfl (by decide +kernel)
  obtain ⟨ev,hlast,hev⟩ := (Option.any_eq_true _ _).mp hP
  obtain ⟨before,hlog⟩ := List.getLast?_eq_some_iff.mp hlast
  cases ev with
  | handler w start reply =>
    simp only [Scenario.startsApproved,Bool.and_eq_true,decide_eq_true_eq] at hev
    obtain ⟨rfl,hneeds⟩ := hev
    refine ⟨s,before,start,reply,hs,hlog.symm,hneeds,?_⟩
    exact @handler_starts_approved plainHost s 1 {} hs before start reply
      (hlog ▸ prefix_refl _) hneeds
  | _ => cases hev
end GudeAgents
