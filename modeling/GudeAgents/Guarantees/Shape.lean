import GudeAgents.Guarantees.Pauses
import GudeAgents.Guarantees.Resumes
import GudeAgents.Guarantees.Transcript
namespace GudeAgents
open List World ToolBatchExecution Execution Scenario
namespace ToolBatchExecution
/-- Planned: the assistant turn of the batch is not known to be stored. -/
structure BeforeUse (b : ToolBatchExecution) : Prop where
  planned : ∀ call ∈ b.calls, call.status = .planned
  inputs : ∀ call ∈ b.calls, call.input ≠ none
  sequence : b.toolUseLastSequence = 0

/-- The assistant turn of the batch is stored, and it keeps the inputs. -/
structure AfterUse (b : ToolBatchExecution) : Prop where
  launched : ∀ call ∈ b.calls, call.status ≠ .planned
  inputs : ∀ call ∈ b.calls, call.input = none
  sequence : 0 < b.toolUseLastSequence

def ClaimInFlight (b : ToolBatchExecution) : Prop :=
  ∀ claim, b.resolution = some claim →
    ∃ call ∈ b.calls, call.callID = claim.callID ∧ call.status = .inFlight

structure Shape (b : ToolBatchExecution) : Prop where
  nonempty : b.calls ≠ []
  nodup : b.callIDs.Nodup
  incomplete : ∃ call ∈ b.calls, call.status ≠ .completed
  stage : b.BeforeUse ∨ b.AfterUse
  resolution : b.ClaimInFlight
end ToolBatchExecution
/-- Which fields a stored execution may have in its status. -/
structure Execution.Shape (e : Execution) : Prop where
  paused : e.status = .paused ↔ e.pause ≠ none
  terminal : e.status.terminal = true → e.toolBatch = none ∧ e.phase = .done
  batch : ∀ b, e.toolBatch = some b → b.Shape

variable {callID : String}
namespace Execution
variable {e next : Execution}
theorem Unresolved.of_batch (h : e.Unresolved) (hb : next.toolBatch = e.toolBatch) :
    next.Unresolved := by
  intro b hbatch
  exact h b (hb.symm.trans hbatch)

theorem Unresolved.removeToolCalls (h : e.Unresolved) (R q : Nat) (completed : List String) :
    (e.removeToolCalls R q completed).Unresolved := by
  intro b hb
  cases hbatch : e.toolBatch with
  | none =>
    simp only [Execution.removeToolCalls,hbatch,withCursor] at hb
    cases hb
  | some b0 =>
    simp only [Execution.removeToolCalls,hbatch,settleBatch_toolBatch] at hb
    split at hb
    · cases hb
    · cases hb
      exact h b0 hbatch

theorem Unresolved.claimTool (h : e.Unresolved) {recovering replay : Bool} {toolName key : String}
    (hclaim : e.claimTool recovering callID toolName = .ok (next,key,replay)) :
    next.Unresolved := by
  obtain ⟨b,call,hb,-,-,⟨-,rfl⟩ | ⟨-,-,-,rfl⟩⟩ := claimTool_ok hclaim
  · rintro b' ⟨⟩
    exact h b hb
  · exact h

theorem unresolved_finishResolution {R q : Nat} (h : e.finishResolution R q callID = .ok next) :
    next.Unresolved := by
  obtain ⟨b,claim,-,-,-,rfl⟩ := finishResolution_ok h
  intro b' hb'
  simp only [settleBatch_toolBatch] at hb'
  split at hb'
  · cases hb'
  · cases hb'
    rfl
end Execution
def World.ResumesUnresolved (s : World) : Prop :=
  ∀ w e, s.IsKind w .resume → Event.load w e ∈ s.log → e.Unresolved

section
variable [Host] {s : World} {w k : Nat} {label : SaveLabel} {e next : Execution}
  {b b' : ToolBatchExecution}
theorem ToolBatchExecution.Sound.beforeUse (h : b.Sound) (hl : ¬ b.Launched) : b.BeforeUse := by
  have hplanned := allPlanned_eq_true.mpr hl
  have hall : ∀ call ∈ b.calls, call.status = .planned := by
    simpa [allPlanned] using hplanned
  refine ⟨hall,?_,h.unplaced hplanned⟩
  intro call hcall hnone
  obtain ⟨input,hinput,-⟩ := h.inputs call hcall (hall call hcall)
  rw [hinput] at hnone
  cases hnone

theorem ToolBatchExecution.Fresh.not_launched (h : b.Fresh) : ¬ b.Launched := by
  rintro ⟨call,hcall,hst⟩
  exact hst (h.planned call hcall).1

omit [Host] in
theorem ToolBatchExecution.AfterUse.restated (h : b.AfterUse) (hr : b.Restated b') :
    b'.AfterUse := by
  refine ⟨?_,?_,hr.sequence ▸ h.sequence⟩
  · intro call' hcall'
    obtain ⟨call,hcall,-,-,hst⟩ := hr.exists_left hcall'
    rcases hst with hst | hst
    · rw [hst]
      exact h.launched call hcall
    · exact hst.2.1
  · intro call' hcall'
    obtain ⟨call,hcall,-,hinput,-⟩ := hr.exists_left hcall'
    rw [hinput]
    exact h.inputs call hcall

omit [Host] in
theorem ToolBatchExecution.AfterUse.completed (h : b.AfterUse) {completed : List String}
    (hcalls : b'.calls = (b.complete completed).calls)
    (hseq : b'.toolUseLastSequence = b.toolUseLastSequence) : b'.AfterUse := by
  have hmem : ∀ call' ∈ b'.calls, ∃ call ∈ b.calls, call'.input = call.input ∧
      (call'.status = call.status ∨ call'.status = .completed) := by
    intro call' hcall'
    rw [hcalls] at hcall'
    obtain ⟨call,hcall,rfl⟩ := mem_map.mp hcall'
    refine ⟨call,hcall,?_⟩
    split
    · exact ⟨rfl,Or.inr rfl⟩
    · exact ⟨rfl,Or.inl rfl⟩
  refine ⟨?_,?_,hseq ▸ h.sequence⟩
  · intro call' hcall'
    obtain ⟨call,hcall,-,hst | hst⟩ := hmem call' hcall'
    · rw [hst]
      exact h.launched call hcall
    · rw [hst]
      decide
  · intro call' hcall'
    obtain ⟨call,hcall,hinput,-⟩ := hmem call' hcall'
    rw [hinput]
    exact h.inputs call hcall

theorem BatchStep.afterUse (hv : Valid s) (h : BatchStep s w e label next)
    (hand : s.hand? w = some e) (he : ∀ b, e.toolBatch = some b → b.Launched → b.AfterUse)
    (hb' : next.toolBatch = some b') (hl : b'.Launched) : b'.AfterUse := by
  cases h with
  | kept notPlan batch => exact he b' (batch.symm.trans hb') hl
  | planned idle batch fresh =>
    cases batch.symm.trans hb'
    exact absurd hl fresh.not_launched
  | restated notPlan before batch restated =>
    cases batch.symm.trans hb'
    exact (he _ before (restated.launched.mpr hl)).restated restated
  | @ready _ b _ calls answered before planned batch ready genuine ahead canonical =>
    cases batch.symm.trans hb'
    subst ready
    refine ⟨?_,?_,?_⟩
    · intro call hcall
      obtain ⟨c,-,rfl⟩ := mem_map.mp hcall
      exact nofun
    · intro call hcall
      obtain ⟨c,-,rfl⟩ := mem_map.mp hcall
      rfl
    · -- the suffix holds at least the assistant turn
      rw [genuine.lastSequence]
      cases hms : s.messagesAt (s.cursorOf w).revision with
      | nil =>
        rw [hms,drop_nil] at canonical
        cases canonical
      | cons m ms => exact Nat.succ_pos _
  | settled b'' notPlan before dispatchable genuine ahead boundary answers calls sequence batch =>
    have hleft : b'' = b' := by
      rw [hb'] at batch
      split at batch
      · cases batch
      · exact (Option.some.inj batch).symm
    subst hleft
    have hlaunched := hv.crossStore.launched_of_dispatchable hv hand before dispatchable
    exact (he _ before hlaunched).completed calls sequence

theorem Valid.afterUse (hv : Valid s) (hk : s.At k e) (hb : e.toolBatch = some b)
    (hl : b.Launched) : b.AfterUse := by
  induction k generalizing e b with
  | zero => rw [hv.created_idle hk] at hb; cases hb
  | succ k ih =>
    obtain ⟨w,label,l,v,prev,-,hl',hprev,hhand,hlegal⟩ := hv.commit_at hk
    exact (hlegal.batchStep hhand).afterUse (hv.upto (prefix_of_concat hl')) hhand
      (fun b0 hb0 => ih hprev hb0) hb hl

namespace ToolBatchExecution
omit [Host] in
theorem mem_setFirst_of_mem {f : ToolExecution → ToolExecution} {call : ToolExecution}
    (hcall : call ∈ b.calls) :
    call ∈ (b.setFirst callID f).calls ∨ f call ∈ (b.setFirst callID f).calls := by
  show call ∈ setFirst.go callID f b.calls ∨ f call ∈ setFirst.go callID f b.calls
  generalize b.calls = calls at hcall
  induction calls with
  | nil => cases hcall
  | cons first rest ih =>
    unfold setFirst.go
    split
    · rcases mem_cons.mp hcall with rfl | hcall
      · exact Or.inr (.head _)
      · exact Or.inl (.tail _ hcall)
    · rcases mem_cons.mp hcall with rfl | hcall
      · exact Or.inl (.head _)
      · exact (ih hcall).imp (.tail _) (.tail _)

omit [Host] in
theorem claimInFlight_of_unresolved (h : b.resolution = none) : b.ClaimInFlight := by
  intro claim hclaim
  rw [h] at hclaim
  cases hclaim
end ToolBatchExecution
theorem LegalBody.claimInFlight (h : LegalBody s w e label next)
    (hlabel : ∀ completed, label ≠ .removeToolCalls completed)
    (he : ∀ b, e.toolBatch = some b → b.ClaimInFlight) (hb' : next.toolBatch = some b') :
    b'.ClaimInFlight := by
  cases h with
  | startCursor | runtimeProgress | pendingPause | pauseRecovered | pause | finalize =>
    exact he b' hb'
  | plan planned =>
    obtain ⟨-,calls,-,rfl⟩ := plan_ok planned
    cases hb'
    exact claimInFlight_of_unresolved rfl
  | ready batch marked =>
    obtain ⟨b,hb,hplanned,rfl⟩ := markReady_ok marked
    cases hb'
    intro claim hclaim
    obtain ⟨call,hcall,-,hst⟩ := he b hb claim hclaim
    have hall : ∀ call ∈ b.calls, call.status = .planned := by
      simpa [allPlanned] using hplanned
    rw [hall call hcall] at hst
    cases hst
  | beginTool claimed =>
    obtain ⟨b,call,hb,-,-,⟨-,rfl⟩ | ⟨-,-,-,rfl⟩⟩ := claimTool_ok claimed
    · cases hb'
      intro claim hclaim
      obtain ⟨target,htarget,hid,hst⟩ := he b hb claim hclaim
      rcases mem_setFirst_of_mem htarget with hmem | hmem
      · exact ⟨target,hmem,hid,hst⟩
      · exact ⟨_,hmem,hid,rfl⟩
    · exact he b' hb'
  | removeToolCalls => exact absurd rfl (hlabel _)
  | approvals claimed calls stores =>
    obtain ⟨b,b1,hb,rfl,hb1,hall,-⟩ := storeDecisions_ok stores
    cases hb'
    intro claim hclaim
    rw [hb1] at hclaim
    obtain ⟨target,htarget,hid,hst⟩ := he b hb claim hclaim
    obtain ⟨call,hcall,hdecided⟩ := exists_of_forall₂ hall.flip htarget
    exact ⟨call,hcall,(ToolExecution.callID_of_core hdecided.1).trans hid,hdecided.2.2.1.trans hst⟩
  | finishResolution batch launched resolution genuine ahead boundary answers finished =>
    exact claimInFlight_of_unresolved (unresolved_finishResolution finished b' hb')

theorem LegalSave.claimInFlight (h : LegalSave s w label next) (hand : s.hand? w = some e)
    (hlabel : ∀ completed, label = .removeToolCalls completed → next.Unresolved)
    (he : ∀ b, e.toolBatch = some b → b.ClaimInFlight) (hb' : next.toolBatch = some b') :
    b'.ClaimInFlight := by
  cases h with
  | create => cases hb'
  | resumeClaim kind hand' | projectPause kind hand' =>
    cases hand.symm.trans hand'
    exact he b' hb'
  | retry kind hand' batch free =>
    cases hb'
    exact claimInFlight_of_unresolved free
  | @resolution _ _ claim target kind hand' batch free found inFlight =>
    cases hb'
    rintro claim' ⟨⟩
    have hid : target.callID = claim.callID := by simpa using List.find?_some found
    exact ⟨target,mem_of_find?_eq_some found,hid,inFlight⟩
  | body hand' started opened guarded =>
    cases hand.symm.trans hand'
    by_cases hremove : ∃ completed, label = .removeToolCalls completed
    · obtain ⟨completed,hremove⟩ := hremove
      exact claimInFlight_of_unresolved (hlabel completed hremove b' hb')
    · exact guarded.claimInFlight (fun completed heq => hremove ⟨completed,heq⟩) he hb'

theorem Valid.hand_induction {P : Execution → Prop} (hv : Valid s)
    (hload : ∀ l e, l ++ [Event.load w e] <+: s.log → P e)
    (hsave : ∀ l label e, l ++ [Event.save w label e .acked] <+: s.log →
      LegalSave (s.upto l) w label e → (∀ prev, (s.upto l).hand? w = some prev → P prev) → P e)
    {l : List Event} (hl : l <+: s.log) (hh : (s.upto l).hand? w = some e) : P e := by
  -- on the length of the history before the event that put the record there
  generalize hn : l.length = n
  induction n using Nat.strongRecOn generalizing l e with
  | ind n ih =>
    obtain ⟨l',hl' | ⟨label,hl'⟩⟩ := hand_event hh
    · exact hload l' e (hl'.trans hl)
    · have hshort : l'.length < n := by
        have := hl'.length_le
        simp only [length_append,length_singleton,upto_log] at this
        omega
      have hl'' := hl'.trans hl
      exact hsave l' label e hl'' (hv.legal hl'').2
        fun prev hprev => ih l'.length hshort (prefix_of_concat hl'') hprev rfl

theorem LegalBody.unresolved (h : LegalBody s w e label next) (he : e.Unresolved) :
    next.Unresolved := by
  cases h with
  | startCursor | runtimeProgress | pendingPause | pauseRecovered | pause | finalize =>
    exact he.of_batch rfl
  | plan planned =>
    obtain ⟨-,calls,-,rfl⟩ := plan_ok planned
    rintro b ⟨⟩
    rfl
  | ready batch marked =>
    obtain ⟨b,hb,-,rfl⟩ := markReady_ok marked
    rintro b' ⟨⟩
    exact he b hb
  | beginTool claimed => exact he.claimTool claimed
  | removeToolCalls => exact he.removeToolCalls _ _ _
  | approvals claimed calls stores =>
    obtain ⟨b,b1,hb,rfl,hb1,-,-⟩ := storeDecisions_ok stores
    rintro b' ⟨⟩
    rw [hb1]
    exact he b hb
  | finishResolution batch launched resolution genuine ahead boundary answers finished =>
    exact unresolved_finishResolution finished

theorem LegalSave.unresolved (h : LegalSave s w label next) (hlabel : label ≠ .resolution)
    (he : ∀ e, s.hand? w = some e → e.Unresolved) : next.Unresolved := by
  cases h with
  | create => exact nofun
  | resumeClaim kind hand | projectPause kind hand => exact (he _ hand).of_batch rfl
  | retry kind hand batch free =>
    rintro b ⟨⟩
    exact free
  | resolution => exact absurd rfl hlabel
  | body hand started opened guarded => exact (guarded.unresolved (he _ hand)).of_batch rfl

theorem Valid.turn_unresolved (hv : Valid s) (hr : s.ResumesUnresolved) (hturn : s.IsTurn w)
    {l : List Event} (hl : l <+: s.log) (hh : (s.upto l).hand? w = some e) : e.Unresolved := by
  refine hv.hand_induction ?_ ?_ hl hh
  · intro l e hl
    obtain ⟨-,-,-,kind,hkind,hne⟩ := hv.legal hl
    rcases hturn with hinvoke | hresume
    · exact absurd (hv.kind_unique (hkind.mono (prefix_of_concat hl)) hinvoke) hne
    · exact hr w e hresume (mem_of_concat hl)
  · intro l label e hl hlegal hprev
    refine hlegal.unresolved ?_ hprev
    rintro rfl
    cases hlegal with
    | resolution kind =>
      have hkind := kind.mono (prefix_of_concat hl)
      rcases hturn with hturn | hturn <;> cases hv.kind_unique hkind hturn
    | body hand started opened guarded => cases guarded

theorem Valid.invoked_hand (hv : Valid s) (hinvoke : s.IsKind w .invoke) (hopen : s.Open w)
    (hh : s.hand? w = some e) : e.status = .running := by
  refine hv.hand_induction (P := fun e => e.status = .running) ?_ ?_ prefix_rfl hh
  · intro l e hl
    obtain ⟨-,-,-,kind,hkind,hne⟩ := hv.legal hl
    exact absurd (hv.kind_unique (hkind.mono (prefix_of_concat hl)) hinvoke) hne
  · intro l label e hl hlegal hprev
    have hlabel := hopen _ _ _ (mem_of_concat hl)
    rcases hlegal.hand with ⟨rfl,-⟩ | ⟨prev,hhand,-⟩
    · exact hlegal.created_life.1
    · have hrunning := hprev prev hhand
      cases hlegal.lifeStep hhand with
      | kept ordinary same | progress same | planned same => exact same.status.trans hrunning
      | pending status => exact status.trans hrunning
      | claimed kind paused status => exact status
      | paused | finalized => cases hlabel
      | projected which => rcases which with rfl | rfl <;> cases hlabel

theorem Valid.turn_running (hv : Valid s) (hq : s.GapsQuiet) (hturn : s.IsTurn w)
    (hstarted : s.Started w e) (hopen : s.Open w) (hh : s.hand? w = some e) :
    e.status = .running := by
  cases hstarted with
  | invoke e0 kind => exact hv.invoked_hand kind hopen hh
  | resume i resp kind claimed =>
    obtain ⟨e1,hclaim⟩ := claimed
    exact (hv.resumed_hand hq hclaim hopen hh).1
  | recover e0 kind running => exact running
  | reconcile e0 kind =>
    rcases hturn with hturn | hturn <;> cases hv.kind_unique kind hturn

theorem Valid.paused_iff (hv : Valid s) (hk : s.At k e) : e.status = .paused ↔ e.pause ≠ none := by
  induction k generalizing e with
  | zero =>
    obtain ⟨l,w,hlegal⟩ := hv.created_legal hk
    obtain ⟨hstatus,hpause,-⟩ := hlegal.created_life
    rw [hstatus,hpause]
    simp
  | succ k ih =>
    obtain ⟨w,label,l,v,prev,-,-,hprev,hhand,hlegal⟩ := hv.commit_at hk
    cases hlegal.lifeStep hhand with
    | kept ordinary same | progress same | planned same =>
      rw [same.status,same.pause]
      exact ih hprev
    | pending status pause =>
      rw [status,pause]
      exact ih hprev
    | claimed kind paused status pause
    | paused turn stored status pause | projected which kind stored status pause =>
      rw [status,pause]
      simp
    | finalized turn terminal pause =>
      cases hstatus : e.status <;> simp_all [ExecutionStatus.terminal]

theorem Valid.terminal_done (hv : Valid s) (hq : s.GapsQuiet) (hk : s.At k e)
    (ht : e.status.terminal = true) : e.toolBatch = none ∧ e.phase = .done := by
  induction k generalizing e with
  | zero =>
    obtain ⟨l,w,hlegal⟩ := hv.created_legal hk
    rw [hlegal.created_life.1] at ht
    cases ht
  | succ k ih =>
    obtain ⟨w,label,l,v,prev,-,hl,hprev,hhand,hlegal⟩ := hv.commit_at hk
    have ih := ih hprev
    cases hlegal with
    | create id conversationID kind fresh =>
      rw [fresh] at hhand
      cases hhand
    | resumeClaim | projectPause => cases ht
    | retry kind hand batch | resolution kind hand batch =>
      cases hhand.symm.trans hand
      rw [(ih ht).1] at batch
      cases batch
    | body hand started opened guarded =>
      cases hhand.symm.trans hand
      have hvl := hv.upto (prefix_of_concat hl)
      -- a terminal record has no batch, and an open turn holds none of them
      have idle : ∀ b, prev.toolBatch = some b → ¬ prev.status.terminal = true := by
        intro b hb hterminal
        rw [(ih hterminal).1] at hb
        cases hb
      have hbatch := guarded.onBatch
      cases guarded with
      | startCursor | runtimeProgress => exact ih ht
      | plan planned nonempty start unused genuine after base quiet turn =>
        obtain ⟨-,calls,-,rfl⟩ := plan_ok planned
        have hrunning := hvl.turn_running (hq.upto (prefix_of_concat hl)) turn started opened hand
        simp only [Execution.withCursor,hrunning] at ht
        cases ht
      | pauseRecovered | pause => cases ht
      | finalize iteration turn terminal hidle => exact ⟨hidle,rfl⟩
      | pendingPause iteration batch => exact absurd ht (idle _ batch)
      | ready | beginTool | removeToolCalls | approvals | finishResolution =>
        obtain ⟨_,_,_,_,_,-,hactive,heq⟩ := hbatch rfl
        obtain ⟨-,b,hb⟩ := hactive (by simp)
        rw [heq] at ht
        exact absurd ht (idle b hb)

theorem LegalSave.removal_unresolved {completed : List String}
    (h : LegalSave s w (.removeToolCalls completed) next)
    (hturn : s.IsTurn w → ∀ e, s.hand? w = some e → e.Unresolved) : next.Unresolved := by
  cases h with
  | body hand started opened guarded =>
    cases guarded with
    | removeToolCalls batch dispatchable genuine ahead boundary answers settled =>
      have hold := settled.elim (fun ht => hturn ht _ hand) id
      exact (hold.removeToolCalls _ _ _).of_batch rfl

theorem Valid.claimInFlight (hv : Valid s) (hr : s.ResumesUnresolved) (hk : s.At k e)
    (hb : e.toolBatch = some b) : b.ClaimInFlight := by
  induction k generalizing e b with
  | zero =>
    rw [hv.created_idle hk] at hb
    cases hb
  | succ k ih =>
    obtain ⟨w,label,l,v,prev,-,hl,hprev,hhand,hlegal⟩ := hv.commit_at hk
    refine hlegal.claimInFlight hhand ?_ (fun b0 hb0 => ih hprev hb0) hb
    rintro completed rfl
    refine hlegal.removal_unresolved fun hturn e he => ?_
    have hprefix := prefix_of_concat hl
    exact hv.turn_unresolved hr (hturn.imp (·.mono hprefix) (·.mono hprefix)) hprefix he

/-- In every run in which no paused record is stored between the claim of a resume and its reload,
and no resume loads a record with an open resolution, all stored versions are in shape. -/
theorem stored_executions_shaped {seed : World} (h : Reaches seed s) (hq : s.GapsQuiet)
    (hr : s.ResumesUnresolved) (hk : s.At k e) : e.Shape := by
  have hv := h.valid
  refine ⟨hv.paused_iff hk,hv.terminal_done hq hk,?_⟩
  intro b hb
  have hsound := hv.sound hk hb
  refine ⟨hsound.nonempty,hsound.nodup,?_,?_,?_⟩
  · have hincomplete := hsound.incomplete
    rw [allCompleted,all_eq_false] at hincomplete
    simpa using hincomplete
  · by_cases hl : b.Launched
    · exact Or.inr (hv.afterUse hk hb hl)
    · exact Or.inl (hsound.beforeUse hl)
  · exact hv.claimInFlight hr hk hb
end
namespace Scenario
/-- A first resume waits between its claim and its reload while a recovery asks the human. The
answer is claimed by a second resume. Then the first one finds the conversation moved and fails the
execution, and the second one goes on with the failed record. -/
def tookEnded : Script :=
  let a : Agent := { tools := [{ name := "pay", needsApproval := true },{ name := "ask" }] }
  [enter a (.invoke "hi"),.run 0 99,.step 0 (uses [("c1","pay"),("c2","ask")]),.run 0 99,
    enter a (answer .approval 7 (.all ⟨true,""⟩)),.run 1 2,
    enter a .recover,.run 2 3,.step 2 .denied,.run 2 99,.step 2 (asks "why"),.run 2 99,
    enter a (answer .humanInput 12 (.respond "so")),.run 3 2,
    .run 1 99,.run 3 99,.step 3 (uses [("c3","ask")]),.run 3 99]

/-- A call that is in flight next to a pending approval is resolved by hand, and the approval is
answered before the resolution is finished. The caller of the resume may not look. -/
def resolvedTwice : Script :=
  let a : Agent :=
    { tools := [{ name := "pay", needsApproval := true },{ name := "look", replaySafe := true }]
      sequentialTools := true }
  [enter a (.invoke "hi"),.run 0 99,.step 0 (uses [("c1","pay"),("c2","look")]),.run 0 9,
    .step 0 .denied,.run 0 99,.crash 0,
    enter a .recover,.run 1 99,
    enter a (.reconcile 8 "c2" { outcome := .succeeded }),.run 2 2,.crash 2,
    enter a (answer .approval 9 (.all ⟨true,""⟩)),.run 3 99,
    .step 3 (.reply { result := .failed "lost" true }),.run 3 1,.step 3 .denied,.run 3 99]

def unshaped (e : Execution) : Bool :=
  e.toolBatch.any fun b => e.status.terminal || b.resolution.any fun claim =>
    !b.calls.any fun call => decide (call.callID = claim.callID ∧ call.status = .inFlight)

theorem not_shape_of_unshaped {e : Execution} (h : unshaped e = true) : ¬ e.Shape := by
  intro hshape
  obtain ⟨b,hb,hbad⟩ := (Option.any_eq_true _ _).mp h
  rcases Bool.or_eq_true_iff.mp hbad with hterminal | hresolution
  · rw [(hshape.terminal hterminal).1] at hb
    cases hb
  · obtain ⟨claim,hclaim,hnone⟩ := (Option.any_eq_true _ _).mp hresolution
    obtain ⟨call,hcall,hid,hst⟩ := (hshape.batch b hb).resolution claim hclaim
    rw [Bool.not_eq_true',any_eq_false] at hnone
    exact hnone call hcall (decide_eq_true ⟨hid,hst⟩)

def loadsUnresolved : Event → Bool
  | .load _ e => decide (e.toolBatch.bind (·.resolution) = none)
  | _ => true

theorem resumesUnresolved_of_loads {s : World} (h : s.log.all loadsUnresolved = true) :
    s.ResumesUnresolved := by
  intro w e _ hload b hb
  have hnone := of_decide_eq_true (all_eq_true.mp h _ hload)
  rwa [hb,Option.bind_some] at hnone
end Scenario
/-- Each of the two conditions is needed. -/
theorem stored_executions_unshaped :
    (∃ s k e, @Reaches plainHost {} s ∧ s.ResumesUnresolved ∧ s.At k e ∧ ¬ e.Shape) ∧
      ∃ s k e, @Reaches plainHost {} s ∧ s.GapsQuiet ∧ s.At k e ∧ ¬ e.Shape := by
  constructor
  · obtain ⟨s,hs,hP⟩ := @exists_reaches plainHost {} tookEnded
      (fun s => s.log.all loadsUnresolved &&
        (s.stored[15]?).any fun st => unshaped st.execution) rfl (by decide +kernel)
    obtain ⟨hloads,hstored⟩ := Bool.and_eq_true_iff.mp hP
    obtain ⟨st,hst,hbad⟩ := (Option.any_eq_true _ _).mp hstored
    exact ⟨s,15,st.execution,hs,resumesUnresolved_of_loads hloads,
      Option.map_eq_some_iff.mpr ⟨st,hst,rfl⟩,not_shape_of_unshaped hbad⟩
  · obtain ⟨s,hs,hP⟩ := @exists_reaches plainHost {} resolvedTwice (fun s => decide s.GapsQuiet &&
        (s.stored[12]?).any fun st => unshaped st.execution) rfl (by decide +kernel)
    obtain ⟨hquiet,hstored⟩ := Bool.and_eq_true_iff.mp hP
    obtain ⟨st,hst,hbad⟩ := (Option.any_eq_true _ _).mp hstored
    exact ⟨s,12,st.execution,hs,of_decide_eq_true hquiet,Option.map_eq_some_iff.mpr ⟨st,hst,rfl⟩,
      not_shape_of_unshaped hbad⟩

theorem stored_executions_approved : ∃ s k e, @Reaches plainHost {} s ∧ s.GapsQuiet ∧
    s.ResumesUnresolved ∧ s.At k e ∧ e.toolBatch ≠ none ∧ e.Shape := by
  obtain ⟨s,hs,hP⟩ := @exists_reaches plainHost {} approvedCall
    (fun s => decide s.GapsQuiet && (s.log.all loadsUnresolved &&
      (s.stored[8]?).any fun st => st.execution.toolBatch.isSome)) rfl (by decide +kernel)
  obtain ⟨hquiet,hrest⟩ := Bool.and_eq_true_iff.mp hP
  obtain ⟨hloads,hstored⟩ := Bool.and_eq_true_iff.mp hrest
  obtain ⟨st,hst,hbatch⟩ := (Option.any_eq_true _ _).mp hstored
  have hk : s.At 8 st.execution := Option.map_eq_some_iff.mpr ⟨st,hst,rfl⟩
  have hunresolved := resumesUnresolved_of_loads hloads
  exact ⟨s,8,st.execution,hs,of_decide_eq_true hquiet,hunresolved,hk,
    Option.isSome_iff_ne_none.mp hbatch,
    @stored_executions_shaped plainHost s 8 st.execution {} hs (of_decide_eq_true hquiet)
      hunresolved hk⟩
end GudeAgents
