import GudeAgents.Protocol.Chain
namespace GudeAgents
open List Execution ToolBatchExecution
namespace ToolBatchExecution
variable [Host] {b b' : ToolBatchExecution}
/-- A stored batch: planned calls still hold their input, an unlaunched batch has no place in
the conversation yet, and some call is not completed. -/
structure Sound (b : ToolBatchExecution) : Prop where
  nonempty : b.calls≠[]
  ids : ∀ id∈b.callIDs, id≠""
  nodup : b.callIDs.Nodup
  inputs : ∀ call∈b.calls, call.status=.planned →
    ∃ input, call.input=some input ∧ toolInputHash input=.ok call.inputHash
  unplaced : b.allPlanned=true → b.toolUseLastSequence=0
  incomplete : b.allCompleted=false
  resolution : ∀ claim, b.resolution=some claim → claim.callID∈b.callIDs

theorem Fresh.sound (h : b.Fresh) : b.Sound := by
  refine ⟨h.nonempty,h.ids,h.nodup,?_,fun _ => h.sequence,?_,by simp [h.resolution]⟩
  · intro call hcall _
    exact (h.planned call hcall).2.2
  · obtain ⟨call,hcall⟩ := exists_mem_of_ne_nil _ h.nonempty
    rw [allCompleted,all_eq_false]
    exact ⟨call,hcall,by simp [(h.planned call hcall).1]⟩

omit [Host] in
theorem allPlanned_eq_true : b.allPlanned=true ↔ ¬ b.Launched := by
  simp [allPlanned,Launched]

omit [Host] in
private theorem moves_allCompleted {cs cs' : List ToolExecution}
    (h : List.Forall₂ ToolExecution.Moves cs cs') :
    cs'.all (·.status == .completed)=cs.all (·.status == .completed) := by
  induction h with
  | nil => rfl
  | @cons c c' _ _ hc _ ih =>
    have : (c'.status == .completed)=(c.status == .completed) := by
      rcases hc.2.2 with h | h
      · rw [h]
      · simp [h.2.2.1,h.2.2.2]
    simp [this,ih]

theorem Sound.restated (h : b.Sound) (hr : b.Restated b')
    (hres : ∀ claim, b'.resolution=some claim → claim.callID∈b.callIDs) : b'.Sound := by
  have hids : b'.callIDs=b.callIDs := hr.same.callIDs
  refine ⟨hr.same.ne_nil h.nonempty,hids ▸ h.ids,hids ▸ h.nodup,?_,?_,?_,?_⟩
  · intro call' hcall' hst'
    obtain ⟨call,hcall,hcore,hinput,hst⟩ := hr.exists_left hcall'
    have hplanned : call.status=.planned := by
      rcases hst with hst | hst
      · rw [← hst,hst']
      · exact absurd hst' hst.2.1
    obtain ⟨input,hin,hhash⟩ := h.inputs call hcall hplanned
    refine ⟨input,hinput.trans hin,?_⟩
    rw [ToolExecution.inputHash_of_core hcore]
    exact hhash
  · intro hp
    rw [hr.sequence]
    exact h.unplaced (allPlanned_eq_true.mpr fun hl =>
      allPlanned_eq_true.mp hp (hr.launched.mp hl))
  · rw [allCompleted,moves_allCompleted hr.calls]
    exact h.incomplete
  · intro claim hc
    rw [hids]
    exact hres claim hc

theorem Sound.ready (h : b.Sound) (R q : Nat) : ToolBatchExecution.Sound { b.mapCalls fun call =>
        { call with status := .ready, input := none } with
      toolUseRevision := R, toolUseLastSequence := q } := by
  have hids : callIDs { b.mapCalls fun call =>
        { call with status := .ready, input := none } with
      toolUseRevision := R, toolUseLastSequence := q }=b.callIDs := by
    simp [callIDs,mapCalls,Function.comp_def]
  obtain ⟨first,hfirst⟩ := exists_mem_of_ne_nil _ h.nonempty
  refine ⟨by simpa [mapCalls] using h.nonempty,hids ▸ h.ids,hids ▸ h.nodup,?_,?_,?_,?_⟩
  · intro call hcall hst
    obtain ⟨c,-,rfl⟩ := mem_map.mp hcall
    cases hst
  · intro hp
    exact absurd ⟨_,mem_map_of_mem hfirst,by simp⟩ (allPlanned_eq_true.mp hp)
  · rw [allCompleted,all_eq_false]
    exact ⟨_,mem_map_of_mem hfirst,by simp⟩
  · intro claim hc
    rw [hids]
    exact h.resolution claim hc

theorem Sound.completed (h : b.Sound) {completed : List String}
    (hcalls : b'.calls=(b.complete completed).calls)
    (hseq : b'.toolUseLastSequence=b.toolUseLastSequence)
    (hres : ∀ claim, b'.resolution=some claim → claim.callID∈b.callIDs)
    (hleft : b'.allCompleted=false) : b'.Sound := by
  have hids : b'.callIDs=b.callIDs := by
    simp only [callIDs,hcalls,complete_callIDs]
  have hmem : ∀ call'∈b'.calls, ∃ call∈b.calls,
      call'=call ∨ call'={ call with status := .completed } := by
    intro call' hcall'
    rw [hcalls] at hcall'
    obtain ⟨call,hcall,rfl⟩ := mem_map.mp hcall'
    refine ⟨call,hcall,?_⟩
    split
    · exact .inr rfl
    · exact .inl rfl
  refine ⟨?_,hids ▸ h.ids,hids ▸ h.nodup,?_,?_,hleft,?_⟩
  · intro hnil
    have : b.callIDs=[] := by rw [← hids,callIDs,hnil]; rfl
    exact h.nonempty (map_eq_nil_iff.mp this)
  · intro call' hcall' hst
    obtain ⟨call,hcall,rfl | rfl⟩ := hmem call' hcall'
    · exact h.inputs call' hcall hst
    · cases hst
  · intro hp
    rw [hseq]
    refine h.unplaced (all_eq_true.mpr fun call hcall => ?_)
    have hin : (if call.callID∈completed then { call with status := .completed } else call) ∈
        b'.calls := by
      rw [hcalls]
      exact mem_map_of_mem hcall
    have hst := all_eq_true.mp hp _ hin
    split at hst
    · simp at hst
    · exact hst
  · intro claim hc
    rw [hids]
    exact hres claim hc
end ToolBatchExecution
section
variable [Host] {s : World} {w k : Nat} {label : SaveLabel} {e next : Execution}
  {b b' : ToolBatchExecution}
theorem LegalBody.sound (h : LegalBody s w e label next) (he : ∀ b, e.toolBatch=some b → b.Sound)
    (hb' : next.toolBatch=some b') : b'.Sound := by
  cases h with
  | startCursor | runtimeProgress | pendingPause | pauseRecovered | pause | finalize =>
    exact he b' hb'
  | plan planned nonempty start unused genuine after base quiet turn synced unpaused counted =>
    have hstep := (LegalBody.plan planned nonempty start unused genuine after base quiet turn
      synced unpaused counted).batchStep 0
    exact (hstep.appears (plan_ok planned).1 hb').2.1.sound
  | ready batch marked =>
    obtain ⟨b,hb,-,rfl⟩ := markReady_ok marked
    cases hb'
    exact (he b hb).ready _ _
  | beginTool claimed =>
    obtain ⟨b,call,hb,hfind,-,⟨hready,rfl⟩ | ⟨-,-,-,rfl⟩⟩ :=
      claimTool_ok claimed
    · cases hb'
      refine (he b hb).restated (restated_setFirst ?_) (he b hb).resolution
      intro call' hcall'
      cases hfind.symm.trans hcall'
      exact ⟨rfl,rfl,.inr (by simp [hready])⟩
    · exact he b' hb'
  | @removeToolCalls b completed answered batch =>
    rw [Execution.removeToolCalls,batch] at hb'
    simp only [settleBatch_toolBatch] at hb'
    split at hb'
    · cases hb'
    · next hleft =>
      cases hb'
      exact (he b batch).completed rfl rfl (he b batch).resolution (Bool.eq_false_iff.mpr hleft)
  | approvals claimed calls stores =>
    obtain ⟨b,b1,hb,rfl,hb1,hall,-⟩ := storeDecisions_ok stores
    cases hb'
    refine (he b hb).restated ⟨?_,by rw [hb1]⟩ (by rw [hb1]; exact (he b hb).resolution)
    exact hall.imp fun x y hxy => ⟨hxy.1,hxy.2.1,.inl hxy.2.2.1⟩
  | @finishResolution b claim next answered batch launched resolution genuine ahead boundary
      answers finished =>
      obtain ⟨b1,claim',hb1,-,-,rfl⟩ := finishResolution_ok finished
      cases batch.symm.trans hb1
      simp only [settleBatch_toolBatch] at hb'
      split at hb'
      · cases hb'
      · next hleft =>
        cases hb'
        exact (he b batch).completed rfl rfl (by simp) (Bool.eq_false_iff.mpr hleft)

theorem LegalSave.sound (h : LegalSave s w label next) (hand : s.hand? w=some e)
    (he : ∀ b, e.toolBatch=some b → b.Sound) (hb' : next.toolBatch=some b') : b'.Sound := by
  cases h with
  | create => cases hb'
  | resumeClaim kind hand' | projectPause kind hand' =>
    cases hand.symm.trans hand'
    exact he b' hb'
  | retry kind hand' batch free found inFlight =>
    cases hand.symm.trans hand'
    cases hb'
    refine (he _ batch).restated (restated_setFirst ?_) (he _ batch).resolution
    intro call hcall
    cases found.symm.trans hcall
    exact ⟨rfl,rfl,.inr (by simp [inFlight])⟩
  | @resolution e b claim target kind hand' batch free found =>
    cases hand.symm.trans hand'
    cases hb'
    refine (he b batch).restated ⟨(ToolBatchExecution.Restated.refl b).calls,rfl⟩ ?_
    rintro claim' ⟨⟩
    have hid : target.callID=claim.callID := by simpa using List.find?_some found
    rw [← hid]
    exact mem_map_of_mem (mem_of_find?_eq_some found)
  | body hand' started opened guarded =>
    cases hand.symm.trans hand'
    exact guarded.sound he hb'

theorem Valid.sound (h : Valid s) (hk : s.At k e) (hb : e.toolBatch=some b) : b.Sound := by
  induction k generalizing e b with
  | zero => rw [h.created_idle hk] at hb; cases hb
  | succ k ih =>
    obtain ⟨w,label,l,v,prev,-,-,hprev,hhand,hlegal⟩ := h.commit_at hk
    exact hlegal.sound hhand (fun b0 hb0 => ih hprev hb0) hb

theorem Valid.hand_sound (h : Valid s) (hh : s.hand? w=some e) (hb : e.toolBatch=some b) :
    b.Sound := h.sound (h.hand_stored hh).2.2 hb

theorem LegalSave.identity (h : LegalSave s w label next) (hand : s.hand? w=some e) :
    next.id=e.id ∧ next.conversationID=e.conversationID := by
  cases h with
  | create id conversationID kind fresh => rw [fresh] at hand; cases hand
  | resumeClaim kind hand' | projectPause kind hand' | retry kind hand' | resolution kind hand' =>
    cases hand.symm.trans hand'
    exact ⟨rfl,rfl⟩
  | body hand' started opened guarded =>
    cases hand.symm.trans hand'
    have hbatch := guarded.onBatch
    cases guarded with
    | startCursor | runtimeProgress | pendingPause | pauseRecovered | pause | finalize =>
      exact ⟨rfl,rfl⟩
    | plan | ready | beginTool | removeToolCalls | approvals | finishResolution =>
      obtain ⟨_,_,_,_,_,-,-,heq⟩ := hbatch rfl
      rw [heq]
      exact ⟨rfl,rfl⟩

theorem Valid.named (h : Valid s) (hk : s.At k e) : e.conversationID≠"" := by
  induction k generalizing e with
  | zero =>
    obtain ⟨l,w,hlegal⟩ := h.created_legal hk
    cases hlegal with
    | create id conversationID kind fresh named => exact named
    | body hand started opened guarded => cases guarded
  | succ k ih =>
    obtain ⟨w,label,l,v,prev,-,-,hprev,hhand,hlegal⟩ := h.commit_at hk
    rw [(hlegal.identity hhand).2]
    exact ih hprev
end
end GudeAgents
