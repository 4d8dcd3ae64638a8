import GudeAgents.Protocol.Canonical
/-!
# The two stores together

A launched batch has its assistant turn in the conversation, a completed call has its result, and
batches never share an ID.
-/
namespace GudeAgents
open List World Message
section
variable [Host]
structure Placed (s : World) (e : Execution) (b : ToolBatchExecution) : Prop where
  started : e.startCursorPersisted=true
  seed : s.seedMessages.length≤e.startLastSequence
  start : e.startLastSequence≤e.lastSequence
  last : e.lastSequence ≤ s.messages.length
  launched : b.Launched → e.startLastSequence<b.toolUseLastSequence ∧
    b.toolUseLastSequence≤e.lastSequence ∧ UseAt s.messages b.toolUseLastSequence b

def Done (s : World) (start : Nat) (b : ToolBatchExecution) : Prop :=
  ∃ T, start<T ∧ UseAt s.messages T b ∧ ∀ id∈b.callIDs, AnsweredAfter s.messages T id
def ToolExecution.ShownAs (stored : ToolExecution) (c : ApprovalCall) : Prop :=
  stored.callID=c.callID ∧ toolInputHash c.input=.ok stored.inputHash

/-- What the execution record and the conversation say about each other. -/
structure CrossStore (s : World) : Prop where
  placed : ∀ {k : Nat} {e : Execution} {b : ToolBatchExecution}, s.At k e →
    e.toolBatch=some b → Placed s e b
  unlaunched : ∀ {k : Nat} {e : Execution} {b : ToolBatchExecution}, s.At k e →
    e.toolBatch=some b → ¬ b.Launched →
    ∃ p ep bp, s.PlannedAt p k ep bp ∧ e.lastSequence=ep.lastSequence
  completed : ∀ {k : Nat} {e : Execution} {b : ToolBatchExecution} {call : ToolExecution},
    s.At k e → e.toolBatch=some b → call∈b.calls → call.status=.completed →
    AnsweredAfter s.messages b.toolUseLastSequence call.callID
  done : ∀ {p n : Nat} {e e' : Execution} {b : ToolBatchExecution}, p<n → s.Plans p e b →
    s.At n e' → e'.toolBatch=none → Done s e.startLastSequence b
  disjoint : ∀ {p q : Nat} {e e' : Execution} {b b' : ToolBatchExecution} {id : String}, p<q →
    s.Plans p e b → s.Plans q e' b' → id∈b.callIDs → id∉b'.callIDs
  uses : ∀ {i : Nat} {m : Message}, s.seedMessages.length ≤ i → s.messages[i]?=some m →
    m.toolUses≠[] → ∃ p e b, s.Plans p e b ∧ m.isUseOf b=true ∧ e.lastSequence ≤ i
  unique : ∀ {i j : Nat} {m m' : Message} {u u' : ToolUseBlock}, s.seedMessages.length ≤ i →
    i<j → s.messages[i]?=some m → s.messages[j]?=some m' → u∈m.toolUses →
    u'∈m'.toolUses → u.toolUseID≠u'.toolUseID
  results : ∀ {j : Nat} {m : Message} {id : String}, s.seedMessages.length≤j →
    s.messages[j]?=some m → id∈m.resultIDs →
    ∃ k e b, s.At k e ∧ e.toolBatch=some b ∧ b.Launched ∧ id∈b.callIDs ∧ b.toolUseLastSequence≤j
  approvals : ∀ {k : Nat} {e : Execution} {p : ExecutionPause} {approval : ApprovalInterrupt}
    {c : ApprovalCall}, s.At k e → (e.pause=some p ∨ e.pendingPause=some p) →
    p.approval=some approval → c∈approval.calls →
    ∃ k' e' b call, k'≤k ∧ s.At k' e' ∧ e'.toolBatch=some b ∧ b.Launched ∧
      call∈b.calls ∧ call.ShownAs c

section Lift
variable {s s' : World} {e : Execution} {b : ToolBatchExecution}
theorem Placed.mono (hm : s.messages <+: s'.messages) (hs : s'.seedMessages=s.seedMessages)
    (h : Placed s e b) : Placed s' e b :=
  { started := h.started
    seed := by rw [hs]; exact h.seed
    start := h.start
    last := h.last.trans hm.length_le
    launched := fun hl => by
      obtain ⟨h1,h2,h3⟩ := h.launched hl
      exact ⟨h1,h2,h3.mono hm⟩ }

theorem Done.mono {start : Nat} (hm : s.messages <+: s'.messages) (h : Done s start b) :
    Done s' start b := by
  obtain ⟨T,hT,hu,ha⟩ := h
  exact ⟨T,hT,hu.mono hm,fun id hid => (ha id hid).mono hm⟩
end Lift
section Shared
variable {s : World} {w k k1 k2 : Nat} {e e1 e2 : Execution} {b b1 b2 : ToolBatchExecution}
  {id : String}
section
variable (hc : CrossStore s) (hv : Valid s)
include hc hv
theorem CrossStore.same_lifetime (h₁ : s.At k1 e1) (hb1 : e1.toolBatch=some b1) (h₂ : s.At k2 e2)
    (hb2 : e2.toolBatch=some b2) (hid1 : id∈b1.callIDs) (hid2 : id∈b2.callIDs) :
    ∃ p ep bp, s.PlannedAt p k1 ep bp ∧ s.PlannedAt p k2 ep bp ∧ bp.Same b1 ∧ bp.Same b2 := by
  obtain ⟨p1,ep1,bp1,hp1,-,hs1⟩ := hv.plannedAt h₁ hb1
  obtain ⟨p2,ep2,bp2,hp2,-,hs2⟩ := hv.plannedAt h₂ hb2
  rw [hs1.callIDs] at hid1
  rw [hs2.callIDs] at hid2
  rcases Nat.lt_trichotomy p1 p2 with hlt | rfl | hlt
  · exact absurd hid2 (hc.disjoint hlt hp1.plans hp2.plans hid1)
  · cases hp1.plans.at.unique hp2.plans.at
    cases hp1.plans.batch.symm.trans hp2.plans.batch
    exact ⟨p1,ep1,bp1,hp1,hp2,hs1,hs2⟩
  · exact absurd hid1 (hc.disjoint hlt hp2.plans hp1.plans hid2)

theorem CrossStore.launched_of_shared (hle : k1≤k2) (h₁ : s.At k1 e1)
    (hb1 : e1.toolBatch=some b1) (hl : b1.Launched) (h₂ : s.At k2 e2)
    (hb2 : e2.toolBatch=some b2) (hid1 : id∈b1.callIDs) (hid2 : id∈b2.callIDs) :
    b2.Launched ∧ b2.toolUseLastSequence=b1.toolUseLastSequence := by
  obtain ⟨p,ep,bp,hp1,hp2,-,-⟩ := hc.same_lifetime hv h₁ hb1 h₂ hb2 hid1 hid2
  exact hv.launched_mono hle hp1.le hp2 h₁ hb1 h₂ hb2 hl

theorem CrossStore.place_unique (h₁ : s.At k1 e1) (hb1 : e1.toolBatch=some b1) (hl1 : b1.Launched)
    (h₂ : s.At k2 e2) (hb2 : e2.toolBatch=some b2) (hl2 : b2.Launched) (hid1 : id∈b1.callIDs)
    (hid2 : id∈b2.callIDs) : b2.toolUseLastSequence=b1.toolUseLastSequence := by
  rcases Nat.le_total k1 k2 with hle | hle
  · exact (hc.launched_of_shared hv hle h₁ hb1 hl1 h₂ hb2 hid1 hid2).2
  · exact (hc.launched_of_shared hv hle h₂ hb2 hl2 h₁ hb1 hid2 hid1).2.symm
end
theorem Valid.claimed_pause (hv : Valid s) {i : Interrupt} {resp : ResumeResponse}
    (h : s.Claimed w i resp) : ∃ k e p e1, s.stored[k+1]?=some ⟨w,.resumeClaim i resp,e1⟩ ∧
      s.At k e ∧ e.pause=some p ∧ i=interruptFromExecution e p ∧
      validateResume i resp=.ok () ∧ Event.save w (.resumeClaim i resp) e1 .acked∈s.log := by
  obtain ⟨e1,hmem⟩ := h
  obtain ⟨l,hl⟩ := exists_prefix_of_mem hmem
  obtain ⟨hver,hlegal⟩ := hv.legal hl
  have hver := hver rfl
  have hst := stored_of_save hl rfl
  generalize hlabel : SaveLabel.resumeClaim i resp=label at hlegal
  cases hlegal with
  | @resumeClaim e p resp' kind hand paused pause valid first =>
    cases hlabel
    obtain ⟨h1,-,h3⟩ := (hv.upto (prefix_of_concat hl)).hand_stored hand
    have hk : (s.upto l).version=(e.version-1)+1 := by
      simp only at hver
      omega
    rw [hk] at hst
    exact ⟨e.version-1,e,p,_,hst,h3.mono (stored_isPrefix (prefix_of_concat hl)),pause,rfl,valid,
      hmem⟩
  | body hand started opened guarded => cases hlabel; cases guarded
  | _ => cases hlabel

theorem CrossStore.launched_of_dispatchable (hc : CrossStore s) (hv : Valid s)
    (hh : s.hand? w=some e) (hb : e.toolBatch=some b) (hd : s.Dispatchable w b) :
    b.Launched := by
  rcases hd with hl | ⟨i,resp,approval,hclaim,happroval,hne,hall⟩
  · exact hl
  · obtain ⟨k,e',p,e1,hst,hk,hp,rfl,-,hmem⟩ := hv.claimed_pause hclaim
    obtain ⟨c,hcm⟩ := exists_mem_of_ne_nil _ hne
    have happroval' : p.approval=some approval := happroval
    obtain ⟨k',e'',b',call,hk',hat,hb',hl',hcall,hshown⟩ :=
      hc.approvals hk (.inl hp) happroval' hcm
    obtain ⟨h1,-,h3⟩ := hv.hand_stored hh
    -- the worker has not gone back behind its own claim
    have hafter := hv.hand_after hmem hh
    have hver := hv.version_eq (at_of_stored hst)
    have hid' : c.callID∈b'.callIDs := by
      rw [← hshown.1]
      exact mem_map_of_mem hcall
    exact (hc.launched_of_shared hv (by omega) hat hb' hl' h3 hb hid' (hall c hcm)).1
end Shared
section Save
variable {s : World} {w : Nat} {label : SaveLabel} {next : Execution}
  {b : ToolBatchExecution}
variable {e : Execution} {answered : List String}
theorem CrossStore.ready_use (hc : CrossStore s) (hv : Valid s) (hat : s.At (s.version-1) e)
    (hb : e.toolBatch=some b) (hnot : ¬ b.Launched) {c : ConversationCursor} (hg : s.Genuine c)
    {calls : List ToolCall}
    (hcanonical : activeToolBatch ((s.messagesAt c.revision).drop e.lastSequence) b =
      .ok (calls,answered)) :
    c.lastSequence=e.lastSequence+1 ∧ UseAt s.messages c.lastSequence b := by
  obtain ⟨first,rest,hdrop,hfirst,-,-,hrest,-,hids,-⟩ := activeToolBatch_ok hcanonical
  have hpl := hc.placed hat hb
  have hpre := messagesAt_isPrefix_messages hg.le
  -- a result message would belong to a launched record of the same batch
  have hnil : rest=[] := by
    cases rest with
    | nil => rfl
    | cons r rest =>
      exfalso
      obtain ⟨id,hid⟩ := exists_mem_of_ne_nil _ (resultIDs_ne_nil (hrest r (by simp)))
      have hr : s.messages[e.lastSequence+1]?=some r := by
        refine getElem?_of_isPrefix hpre ?_
        rw [← List.getElem?_drop,hdrop]
        rfl
      obtain ⟨k',e',b',hat',hb',hl',hid',-⟩ :=
        hc.results (hpl.seed.trans (hpl.start.trans (Nat.le_succ _))) hr hid
      have hlt := hat'.lt
      exact hnot (hc.launched_of_shared hv (by omega) hat' hb' hl' hat hb hid'
        (hids id (mem_flatMap.mpr ⟨r,by simp,hid⟩))).1
  subst hnil
  have hlen : (s.messagesAt c.revision).length=e.lastSequence+1 := by
    have := congrArg List.length hdrop
    simp only [length_drop,length_cons,length_nil] at this
    omega
  have hcl : c.lastSequence=e.lastSequence+1 := hg.lastSequence.trans hlen
  refine ⟨hcl,by omega,first,?_,hfirst⟩
  rw [hcl,Nat.add_sub_cancel]
  refine getElem?_of_isPrefix hpre ?_
  have : ((s.messagesAt c.revision).drop e.lastSequence)[0]?=some first := by rw [hdrop]; rfl
  simpa using this

theorem BatchStep.launches {b b' : ToolBatchExecution} (h : BatchStep s w e label next)
    (hb : e.toolBatch=some b) (hb' : next.toolBatch=some b') (hnot : ¬ b.Launched)
    (hl : b'.Launched) (hd : ¬ s.Dispatchable w b) :
    ∃ calls answered, s.Genuine (s.cursorOf w) ∧
      activeToolBatch ((s.messagesAt (s.cursorOf w).revision).drop e.lastSequence) b =
        .ok (calls,answered) ∧
      b'.toolUseLastSequence=(s.cursorOf w).lastSequence ∧
      next.lastSequence=(s.cursorOf w).lastSequence := by
  cases h with
  | kept notPlan batch =>
    cases (batch.symm.trans hb').symm.trans hb
    exact absurd hl hnot
  | planned idle => rw [idle] at hb; cases hb
  | restated notPlan before batch restated =>
    cases before.symm.trans hb
    cases batch.symm.trans hb'
    exact absurd (restated.launched.mpr hl) hnot
  | @ready _ b0 b1 calls answered before planned batch ready genuine ahead canonical cursor =>
    cases before.symm.trans hb
    cases batch.symm.trans hb'
    exact ⟨calls,answered,genuine,canonical,by rw [ready],cursor⟩
  | settled b'' notPlan before dispatchable =>
    cases before.symm.trans hb
    exact absurd dispatchable hd

theorem CrossStore.placed_save (hc : CrossStore s) (hv : Valid s) (hl : LegalSave s w label next)
    (hver : next.version=s.version+1) (hb : next.toolBatch=some b) : Placed s next b := by
  rcases hv.replaces hl hver with ⟨-,-,hidle⟩ | ⟨prev,-,hat,hhand⟩
  · rw [hidle] at hb; cases hb
  · have hstep := hl.batchStep hhand
    have hstart := hl.startStep hhand
    cases hpb : prev.toolBatch with
    | none =>
      obtain ⟨rfl,hfresh,hset,-,hafter,hgen,hcur⟩ := hstep.appears hpb hb
      cases hstart with
      | set unset => rw [hset] at unset; cases unset
      | kept flag sequence revision =>
        have hbounds := hv.start_bounds hat hset
        refine ⟨flag.trans hset,?_,?_,?_,?_⟩
        · rw [sequence]; exact hbounds.1
        · rw [sequence,hcur]; exact hafter
        · rw [hcur]; exact hgen.le_length
        · rintro ⟨call,hcall,hst⟩
          exact absurd (hfresh.planned call hcall).1 hst
    | some b0 =>
      have hpl := hc.placed hat hpb
      obtain ⟨hplan,hsame,hlaunch⟩ := hstep.same hpb hb
      have hcursor : prev.lastSequence≤next.lastSequence ∧
          next.lastSequence ≤ s.messages.length := by
        cases hl.cursorStep hhand hplan with
        | kept revision sequence => rw [sequence]; exact ⟨le_refl _,hpl.last⟩
        | moved genuine ahead active revision sequence =>
          rw [sequence]
          exact ⟨ahead (by rw [hpb]; simp),genuine.le_length⟩
        | final idle => rw [hpb] at idle; cases idle
      cases hstart with
      | set unset => rw [hpl.started] at unset; cases unset
      | kept flag sequence revision =>
        refine ⟨flag.trans hpl.started,?_,?_,hcursor.2,?_⟩
        · rw [sequence]; exact hpl.seed
        · rw [sequence]; exact hpl.start.trans hcursor.1
        · intro hl'
          by_cases hl0 : b0.Launched
          · obtain ⟨h1,h2,h3⟩ := hpl.launched hl0
            rw [(hlaunch hl0).2,sequence]
            exact ⟨h1,h2.trans hcursor.1,h3.same hsame⟩
          · have hd : ¬ s.Dispatchable w b0 := fun hd =>
              hl0 (hc.launched_of_dispatchable hv hhand hpb hd)
            obtain ⟨calls,answered,hgen,hcanonical,hT,hcur⟩ :=
              hstep.launches hpb hb hl0 hl' hd
            obtain ⟨hlast,huse⟩ := hc.ready_use hv hat hpb hl0 hgen hcanonical
            have := hpl.start
            rw [hT,hcur,sequence]
            exact ⟨by omega,le_refl _,huse.same hsame⟩

theorem LegalSave.ready_launched (hl : LegalSave s w .ready next) {b b' : ToolBatchExecution}
    (hhand : s.hand? w=some e) (hb : e.toolBatch=some b) (hne : b.calls≠[])
    (hb' : next.toolBatch=some b') : b'.Launched := by
  cases hl with
  | body hand started opened guarded =>
    cases hhand.symm.trans hand
    cases guarded with
    | ready batch marked =>
      obtain ⟨b0,hb0,-,rfl⟩ := Execution.markReady_ok marked
      cases hb0.symm.trans hb
      cases hb'
      obtain ⟨call,hcall⟩ := exists_mem_of_ne_nil _ hne
      exact ⟨_,mem_map_of_mem hcall,by simp⟩

section
variable (hc : CrossStore s)
include hc
theorem CrossStore.boundary_answered (hv : Valid s) {k : Nat} (hat : s.At k e)
    (hhand : s.hand? w=some e) (hb : e.toolBatch=some b) (hd : s.Dispatchable w b)
    (hg : s.Genuine (s.cursorOf w)) (hahead : s.Ahead w e)
    (hboundary : Boundary (s.messagesAt (s.cursorOf w).revision) b answered) {id : String}
    (hid : id∈answered) :
    AnsweredAfter (s.messagesAt (s.cursorOf w).revision) b.toolUseLastSequence id := by
  obtain ⟨-,hT,huse⟩ := (hc.placed hat hb).launched (hc.launched_of_dispatchable hv hhand hb hd)
  have hle : b.toolUseLastSequence≤(s.messagesAt (s.cursorOf w).revision).length := by
    rw [← hg.lastSequence]
    exact hT.trans (hahead (by rw [hb]; simp))
  exact hboundary.answeredAfter (huse.restrict (messagesAt_isPrefix_messages hg.le) hle) hid

theorem CrossStore.settled_answered (hv : Valid s) {k : Nat} (hat : s.At k e)
    (hhand : s.hand? w=some e) (hb : e.toolBatch=some b) (hd : s.Dispatchable w b)
    (hg : s.Genuine (s.cursorOf w)) (hahead : s.Ahead w e) {completed : List String}
    (hboundary : Boundary (s.messagesAt (s.cursorOf w).revision) b answered)
    (hanswers : ∀ id∈completed, id∈answered) {call : ToolExecution}
    (hcall : call∈(b.complete completed).calls) (hst : call.status=.completed) :
    AnsweredAfter s.messages b.toolUseLastSequence call.callID := by
  obtain ⟨call0,hcall0,rfl⟩ := mem_map.mp hcall
  by_cases hmem : call0.callID∈completed
  · have hanswered := hc.boundary_answered hv hat hhand hb hd hg hahead hboundary (hanswers _ hmem)
    rw [if_pos hmem]
    exact hanswered.mono (messagesAt_isPrefix_messages hg.le)
  · rw [if_neg hmem] at hst ⊢
    exact hc.completed hat hb hcall0 hst

theorem CrossStore.unlaunched_save (hv : Valid s) (hl : LegalSave s w label next)
    (hver : next.version=s.version+1) (hb : next.toolBatch=some b) (hnot : ¬ b.Launched) :
    label=.plan ∨ label≠.plan ∧ 1 ≤ s.version ∧
      ∃ p ep bp, s.PlannedAt p (s.version-1) ep bp ∧ next.lastSequence=ep.lastSequence := by
  rcases hv.replaces hl hver with ⟨-,-,hidle⟩ | ⟨prev,hpos,hat,hhand⟩
  · rw [hidle] at hb; cases hb
  · have hstep := hl.batchStep hhand
    cases hpb : prev.toolBatch with
    | none => exact .inl (hstep.appears hpb hb).1
    | some b0 =>
      obtain ⟨hplan,hsame,hlaunch⟩ := hstep.same hpb hb
      have hnot0 : ¬ b0.Launched := fun h => hnot (hlaunch h).1
      obtain ⟨p,ep,bp,hp,hlast⟩ := hc.unlaunched hat hpb hnot0
      refine .inr ⟨hplan,hpos,p,ep,bp,hp,?_⟩
      cases hl.cursorStep hhand hplan with
      | kept revision sequence => exact sequence.trans hlast
      | final idle => rw [hpb] at idle; cases idle
      | moved genuine ahead active revision sequence =>
        exfalso
        rcases active with rfl | active
        · obtain ⟨-,-,bp',-,hfresh,hsame'⟩ := hv.plannedAt hat hpb
          exact hnot (hl.ready_launched hhand hpb (hsame'.ne_nil hfresh.nonempty) hb)
        · exact hnot0 (hc.launched_of_dispatchable hv hhand hpb (active b0 hpb))

theorem CrossStore.completed_save (hv : Valid s) (hl : LegalSave s w label next)
    (hver : next.version=s.version+1) (hb : next.toolBatch=some b) {call : ToolExecution}
    (hcall : call∈b.calls) (hst : call.status=.completed) :
    AnsweredAfter s.messages b.toolUseLastSequence call.callID := by
  rcases hv.replaces hl hver with ⟨-,-,hidle⟩ | ⟨prev,hpos,hat,hhand⟩
  · rw [hidle] at hb; cases hb
  · cases hl.batchStep hhand with
    | kept notPlan batch => exact hc.completed hat (batch.symm.trans hb) hcall hst
    | planned idle batch fresh =>
      cases batch.symm.trans hb
      rw [(fresh.planned call hcall).1] at hst
      cases hst
    | restated notPlan before batch restated =>
      cases batch.symm.trans hb
      obtain ⟨call0,hcall0,hid,hst0⟩ := restated.completed hcall hst
      rw [restated.sequence,← hid]
      exact hc.completed hat before hcall0 hst0
    | ready before planned batch ready =>
      cases batch.symm.trans hb
      rw [ready] at hcall
      obtain ⟨call0,-,rfl⟩ := mem_map.mp hcall
      cases hst
    | settled b' notPlan before dispatchable genuine ahead boundary answers calls sequence batch =>
      rw [hb] at batch
      split at batch
      · cases batch
      · cases batch
        rw [sequence]
        exact hc.settled_answered hv hat hhand before dispatchable genuine ahead boundary answers
          (calls ▸ hcall) hst

theorem CrossStore.done_save (hv : Valid s) (hl : LegalSave s w label next)
    (hver : next.version=s.version+1) (hidle : next.toolBatch=none) {p : Nat} {ep : Execution}
    {bp : ToolBatchExecution} (hp : s.Plans p ep bp) : Done s ep.startLastSequence bp := by
  rcases hv.replaces hl hver with ⟨hzero,-⟩ | ⟨prev,hpos,hat,hhand⟩
  · have := hp.at.lt
    omega
  have hplt := hp.at.lt
  cases hpb : prev.toolBatch with
  | none =>
    -- the batch was already cleared
    rcases Nat.lt_or_eq_of_le (Nat.le_sub_one_of_lt hplt) with hlt | heq
    · exact hc.done hlt hp hat hpb
    · subst heq
      cases hat.unique hp.at
      rw [hp.batch] at hpb
      cases hpb
  | some b0 =>
    obtain ⟨p0,ep0,bp0,hp0,hfresh,hsame⟩ := hv.plannedAt hat hpb
    rcases Nat.lt_trichotomy p p0 with hlt | rfl | hlt
    · -- an earlier batch was cleared before this one was planned
      obtain ⟨q,rfl⟩ : ∃ q, p0=q + 1 := ⟨p0 - 1,by omega⟩
      obtain ⟨w',hst',hb'⟩ := hp0.plans
      obtain ⟨-,-,eq,-,-,-,hq,-,-⟩ := hv.commit hst'
      have hqidle := hv.plan_idle hp0.plans hq
      rcases Nat.lt_or_eq_of_le (Nat.le_of_lt_succ hlt) with hlt' | rfl
      · exact hc.done hlt' hp hq hqidle
      · cases hq.unique hp.at
        rw [hp.batch] at hqidle
        cases hqidle
    · cases hp.at.unique hp0.plans.at
      cases hp.batch.symm.trans hp0.plans.batch
      have hset := (hc.placed hp.at hp.batch).started
      have hstart := (hv.start_const hp0.le hp.at hat hset).2.1
      cases hl.batchStep hhand with
      | kept notPlan batch => rw [hidle,hpb] at batch; cases batch
      | planned idle => rw [hpb] at idle; cases idle
      | restated notPlan before batch | ready before planned batch =>
        rw [hidle] at batch; cases batch
      | settled b' notPlan before dispatchable genuine ahead boundary answers calls sequence
          batch =>
          cases before.symm.trans hpb
          have hlaunched := hc.launched_of_dispatchable hv hhand hpb dispatchable
          obtain ⟨h1,-,h3⟩ := (hc.placed hat hpb).launched hlaunched
          refine ⟨b0.toolUseLastSequence,hstart ▸ h1,h3.same hsame.symm,?_⟩
          intro id hid
          rw [hidle] at batch
          have hall : b'.allCompleted=true := by
            by_contra hno
            rw [if_neg hno] at batch
            cases batch
          have hid' : id∈b'.callIDs := by
            have : b'.callIDs=b0.callIDs := by
              simp only [ToolBatchExecution.callIDs,calls,ToolBatchExecution.complete_callIDs]
            rw [this,hsame.callIDs]
            exact hid
          obtain ⟨call,hcall,rfl⟩ := mem_map.mp hid'
          have hst : call.status=.completed := by
            simpa using all_eq_true.mp hall call hcall
          exact hc.settled_answered hv hat hhand hpb dispatchable genuine ahead boundary answers
            (calls ▸ hcall) hst
    · obtain ⟨w',hst',-⟩ := hp
      exact absurd rfl (hp0.alive hlt (Nat.le_sub_one_of_lt hplt) hst').1
end
theorem disjoint_save (hall : ∀ l, l <+: s.log → CrossStore (s.upto l)) (hv : Valid s)
    (hl : LegalSave s w .plan next) (hver : next.version=s.version+1)
    (hb : next.toolBatch=some b) {p : Nat} {ep : Execution} {bp : ToolBatchExecution}
    {id : String} (hp : s.Plans p ep bp) (hid : id∈bp.callIDs) : id∉b.callIDs := by
  intro hid'
  have hc : CrossStore s := hall s.log prefix_rfl
  have hplt := hp.at.lt
  rcases hv.replaces hl hver with ⟨-,hlabel,-⟩ | ⟨prev,hpos,hat,hhand⟩
  · cases hlabel
  cases hpb : prev.toolBatch with
  | some b0 => exact absurd rfl ((hl.batchStep hhand).same hpb hb).1
  | none =>
    obtain ⟨-,-,-,⟨before,hbefore,hheld,hunused⟩,-⟩ := (hl.batchStep hhand).appears hpb hb
    refine hunused id hid' ?_
    have hvb := hv.upto hbefore
    obtain ⟨h1,h2,h3⟩ := hvb.hand_stored hheld
    have hpv := hv.version_eq hat
    have hne : p≠s.version-1 := by
      rintro rfl
      cases hat.unique hp.at
      rw [hp.batch] at hpb
      cases hpb
    -- the earlier batch was already done when the record was read
    have hpb' : (s.upto before).Plans p ep bp := by
      obtain ⟨w',hst,hbp⟩ := hp
      exact ⟨w',stored_prefix_of_lt hbefore hst (by omega),hbp⟩
    obtain ⟨T,hT,huse,-⟩ := (hall before hbefore).done (by omega) hpb' h3 hpb
    have hset := (hc.placed hp.at hp.batch).started
    have hstart := (hv.start_const (by omega) hp.at hat hset).2.1
    obtain ⟨m,hm,hmuse⟩ := huse.use
    refine mem_flatMap.mpr ⟨m,?_,?_⟩
    · rw [hstart]
      refine mem_of_getElem? (i := T-1-ep.startLastSequence) ?_
      rw [List.getElem?_drop,Nat.add_sub_cancel' (by omega)]
      exact hm
    · rw [toolUses_of_isUseOf hmuse]
      exact hid

theorem CrossStore.approvals_save (hc : CrossStore s) (hv : Valid s) (hl : LegalSave s w label next)
    (hver : next.version=s.version+1) {p : ExecutionPause}
    (hp : next.pause=some p ∨ next.pendingPause=some p) {approval : ApprovalInterrupt}
    (ha : p.approval=some approval) {c : ApprovalCall} (hcall : c∈approval.calls) :
    ∃ k' e' b call, k'<s.version ∧ s.At k' e' ∧ e'.toolBatch=some b ∧ b.Launched ∧
      call∈b.calls ∧ call.ShownAs c := by
  rcases hv.replaces hl hver with ⟨-,rfl,-⟩ | ⟨prev,hpos,hat,hhand⟩
  · cases hl with
    | create => rcases hp with hp | hp <;> cases hp
    | body hand started opened guarded => cases guarded
  · rcases hl.pauseStep hhand hp with hold | ⟨b,calls,outcomes,i,outcomes',hb,hd,hi,hholds,rfl⟩
    · obtain ⟨k',e',b,call,hk',rest⟩ := hc.approvals hat hold ha hcall
      exact ⟨k',e',b,call,by omega,rest⟩
    · obtain ⟨call,hmem,rfl⟩ := pendingInterrupt_approval hi ha hcall
      obtain ⟨stored,hstored,hid,-,hhash⟩ := hholds call hmem
      exact ⟨s.version-1,prev,b,stored,by omega,hat,hb,hc.launched_of_dispatchable hv hhand hb hd,
        hstored,hid,hhash⟩
end Save
section Append
variable {s : World} {w : Nat} {label : AppendLabel} {e : Execution} {ms : List Message}
  {m : Message}
section
variable (hc : CrossStore s) (hv : Valid s) (hh : s.hand? w=some e)
  (hl : LegalAppend s w e label ms) (hm : m∈ms)
include hc hv hh hl hm
theorem CrossStore.uses_append (hne : m.toolUses≠[]) :
    ∃ p ep bp, s.Plans p ep bp ∧ m.isUseOf bp=true ∧ ms=[m] ∧
      ep.lastSequence=s.messages.length := by
  cases hl with
  | turn nonempty text => exact absurd (text m hm).1 hne
  | @toolUse b m' batch planned uses nodup behind =>
    obtain rfl := mem_singleton.mp hm
    obtain ⟨-,-,hat⟩ := hv.hand_stored hh
    have hnot : ¬ b.Launched := by
      rintro ⟨call,hcall,hst⟩
      exact hst (by simpa using all_eq_true.mp planned call hcall)
    obtain ⟨p,ep,bp,hp,hlast⟩ := hc.unlaunched hat batch hnot
    obtain ⟨p',ep',bp',hp',-,hsame⟩ := hv.plannedAt hat batch
    obtain ⟨rfl,rfl,rfl⟩ := hp.unique hp'
    have hpl := hc.placed hat batch
    refine ⟨p,ep,bp,hp.plans,?_,rfl,?_⟩
    · rw [← hsame.isUseOf]
      exact uses
    · rw [← hlast]
      exact Nat.le_antisymm hpl.last behind
  | results => exact absurd (by rw [mem_singleton.mp hm]; exact toolUses_resultBlocks _ _) hne
  | resolution => exact absurd (by rw [mem_singleton.mp hm]; rfl) hne

theorem CrossStore.results_append {id : String} (hid : id∈m.resultIDs) :
    ∃ k e' b, s.At k e' ∧ e'.toolBatch=some b ∧ b.Launched ∧ id∈b.callIDs ∧
      b.toolUseLastSequence ≤ s.messages.length := by
  obtain ⟨-,-,hat⟩ := hv.hand_stored hh
  have place : ∀ {b : ToolBatchExecution}, e.toolBatch=some b → b.Launched →
      b.toolUseLastSequence ≤ s.messages.length := by
    intro b hb hlaunched
    have hpl := hc.placed hat hb
    exact (hpl.launched hlaunched).2.1.trans hpl.last
  cases hl with
  | turn nonempty text =>
    rw [Message.resultIDs,(text m hm).2] at hid
    cases hid
  | toolUse batch planned uses =>
    rw [mem_singleton.mp hm,Message.resultIDs,Message.toolResults_of_isUseOf uses] at hid
    cases hid
  | results batch dispatchable dispatched nonempty pending boundary nodup unanswered =>
    rw [mem_singleton.mp hm,resultIDs_resultBlocks] at hid
    have hlaunched := hc.launched_of_dispatchable hv hh batch dispatchable
    exact ⟨_,e,_,hat,batch,hlaunched,(unanswered id hid).1,place batch hlaunched⟩
  | resolution batch launched resolution boundary known unanswered =>
    rw [mem_singleton.mp hm] at hid
    obtain rfl := mem_singleton.mp hid
    exact ⟨_,e,_,hat,batch,launched,known,place batch launched⟩
end
end Append
section Run
variable {s : World} {ev : Event}
theorem CrossStore.start (h : s.log=[]) : CrossStore s := by
  have hstored : s.stored=[] := by simp [World.stored,h]
  have hmessages : s.messages=s.seedMessages := by simp [World.messages,World.appended,h]
  have nowhere : ∀ {k : Nat} {e : Execution}, ¬ s.At k e := by simp [World.At,hstored]
  have beyond : ∀ {i : Nat} {m : Message}, s.seedMessages.length ≤ i → s.messages[i]?≠some m := by
    intro i m hi hm
    rw [hmessages] at hm
    have := (List.getElem?_eq_some_iff.mp hm).1
    omega
  constructor
  · exact fun hat => absurd hat nowhere
  · exact fun hat => absurd hat nowhere
  · exact fun hat => absurd hat nowhere
  · exact fun _ hp => absurd hp.at nowhere
  · exact fun _ hp => absurd hp.at nowhere
  · exact fun hi hm => absurd hm (beyond hi)
  · exact fun hi _ hm => absurd hm (beyond hi)
  · exact fun hi hm => absurd hm (beyond hi)
  · exact fun hat => absurd hat nowhere

/-- The invariant after one more event, from the invariant at every moment before it. -/
theorem CrossStore.step (hall : ∀ l, l <+: s.log → CrossStore (s.upto l)) (hv : Valid s)
    (hlegal : Legal s ev) : CrossStore (s.record ev) := by
  have hc : CrossStore s := hall s.log prefix_rfl
  have hstored : s.stored <+: (s.record ev).stored := stored_isPrefix record_isPrefix
  have hmessages : s.messages <+: (s.record ev).messages :=
    messages_isPrefix record_isPrefix
  refine ⟨?_,?_,?_,?_,?_,?_,?_,?_,?_⟩
  case refine_1 =>
    intro k e b hat hb
    rcases at_record_cases hat with hat | ⟨rfl,w,label,v,rfl,hcom⟩
    · exact (hc.placed hat hb).mono hmessages rfl
    · exact (hc.placed_save hv hlegal.2 (hlegal.1 hcom) hb).mono hmessages rfl
  case refine_2 =>
    intro k e b hat hb hnot
    rcases at_record_cases hat with hat' | ⟨rfl,w,label,v,rfl,hcom⟩
    · obtain ⟨p,ep,bp,hp,hlast⟩ := hc.unlaunched hat' hb hnot
      exact ⟨p,ep,bp,hp.mono hstored hat'.lt,hlast⟩
    · have hst : (s.record (.save w label e v)).stored[s.version]?=some ⟨w,label,e⟩ := by
        rw [stored_record]
        simp [Event.stored?,hcom,World.version]
      rcases hc.unlaunched_save hv hlegal.2 (hlegal.1 hcom) hb hnot with
        rfl | ⟨hplan,hpos,p,ep,bp,hp,hlast⟩
      · exact ⟨s.version,e,b,⟨le_refl _,⟨w,hst,hb⟩,fun hlt hle => by omega⟩,rfl⟩
      · have hp' := hp.mono hstored (by omega)
        refine ⟨p,ep,bp,⟨hp.le.trans (Nat.sub_le _ _),hp'.plans,?_⟩,hlast⟩
        intro j w' label' e' hlt hle hst'
        rcases Nat.lt_or_eq_of_le hle with hj | rfl
        · exact hp'.alive hlt (Nat.le_sub_one_of_lt hj) hst'
        · rw [hst] at hst'
          cases hst'
          exact ⟨hplan,by rw [hb]; simp⟩
  case refine_3 =>
    intro k e b call hat hb hcall hst
    rcases at_record_cases hat with hat | ⟨rfl,w,label,v,rfl,hcom⟩
    · exact (hc.completed hat hb hcall hst).mono hmessages
    · exact (hc.completed_save hv hlegal.2 (hlegal.1 hcom) hb hcall hst).mono hmessages
  case refine_4 =>
    intro p n e e' b hlt hp hat hidle
    rcases at_record_cases hat with hat | ⟨rfl,w,label,v,rfl,hcom⟩
    · rcases plans_record_cases hp with hp | ⟨rfl,-⟩
      · exact (hc.done hlt hp hat hidle).mono hmessages
      · have := hat.lt
        omega
    · rcases plans_record_cases hp with hp | ⟨rfl,-⟩
      · exact (hc.done_save hv hlegal.2 (hlegal.1 hcom) hidle hp).mono hmessages
      · omega
  case refine_5 =>
    intro p q e e' b b' id hlt hp hq hid
    rcases plans_record_cases hq with hq' | ⟨rfl,w,v,rfl,hcom⟩
    · rcases plans_record_cases hp with hp | ⟨rfl,-⟩
      · exact hc.disjoint hlt hp hq' hid
      · have := hq'.at.lt
        omega
    · rcases plans_record_cases hp with hp | ⟨rfl,-⟩
      · exact disjoint_save hall hv hlegal.2 (hlegal.1 hcom) hq.batch hp hid
      · omega
  case refine_6 =>
    intro i m hi hm hne
    rcases messages_record_cases hm with hm | ⟨hle,w,label,ms,c,v,rfl,hcom,hget⟩
    · obtain ⟨p,e,b,hp,huse,hlast⟩ := hc.uses hi hm hne
      exact ⟨p,e,b,hp.mono hstored,huse,hlast⟩
    · obtain ⟨-,-,-,-,e,hh,-,happ⟩ := hlegal hcom
      obtain ⟨p,ep,bp,hp,huse,-,hlast⟩ :=
        hc.uses_append hv hh happ (mem_of_getElem? hget) hne
      exact ⟨p,ep,bp,hp.mono hstored,huse,by omega⟩
  case refine_7 =>
    intro i j m m' u u' hi hlt hm hm' hu hu' heq
    rcases messages_record_cases hm' with hm'' | ⟨hle,w,label,ms,c,v,rfl,hcom,hget⟩
    · have := (List.getElem?_eq_some_iff.mp hm'').1
      rcases messages_record_cases hm with hm | ⟨hle,-⟩
      · exact hc.unique hi hlt hm hm'' hu hu' heq
      · omega
    · obtain ⟨-,-,-,-,e,hh,-,happ⟩ := hlegal hcom
      obtain ⟨p,ep,bp,hp,huse,hsingle,hlast⟩ :=
        hc.uses_append hv hh happ (mem_of_getElem? hget) (ne_nil_of_mem hu')
      rcases messages_record_cases hm with hold | ⟨hle',w',label',ms',c',v',hev,-,hget'⟩
      · -- an earlier turn with the same call would belong to the same planned batch
        obtain ⟨p1,e1,b1,hp1,huse1,hlast1⟩ := hc.uses hi hold (ne_nil_of_mem hu)
        have hid1 : u.toolUseID∈b1.callIDs := by
          rw [← toolUses_of_isUseOf huse1]
          exact mem_map_of_mem hu
        have hid : u.toolUseID∈bp.callIDs := by
          rw [heq,← toolUses_of_isUseOf huse]
          exact mem_map_of_mem hu'
        have hi' := (List.getElem?_eq_some_iff.mp hold).1
        rcases Nat.lt_trichotomy p1 p with hlt' | rfl | hlt'
        · exact hc.disjoint hlt' hp1 hp hid1 hid
        · cases hp1.at.unique hp.at
          omega
        · exact hc.disjoint hlt' hp hp1 hid hid1
      · -- the turn is appended alone
        cases hev
        subst hsingle
        have h1 := (List.getElem?_eq_some_iff.mp hget).1
        have h2 := (List.getElem?_eq_some_iff.mp hget').1
        simp only [length_singleton] at h1 h2
        omega
  case refine_8 =>
    intro j m id hj hm hid
    rcases messages_record_cases hm with hm | ⟨hle,w,label,ms,c,v,rfl,hcom,hget⟩
    · obtain ⟨k,e,b,hat,hrest⟩ := hc.results hj hm hid
      exact ⟨k,e,b,hat.mono hstored,hrest⟩
    · obtain ⟨-,-,-,-,e,hh,-,happ⟩ := hlegal hcom
      obtain ⟨k,e',b,hat,hb,hl,hidb,hT⟩ :=
        hc.results_append hv hh happ (mem_of_getElem? hget) hid
      exact ⟨k,e',b,hat.mono hstored,hb,hl,hidb,hT.trans hle⟩
  case refine_9 =>
    intro k e p approval c hat hp ha hcall
    rcases at_record_cases hat with hat | ⟨rfl,w,label,v,rfl,hcom⟩
    · obtain ⟨k',e',b,call,hle,hat',hrest⟩ := hc.approvals hat hp ha hcall
      exact ⟨k',e',b,call,hle,hat'.mono hstored,hrest⟩
    · obtain ⟨k',e',b,call,hlt,hat',hrest⟩ :=
        hc.approvals_save hv hlegal.2 (hlegal.1 hcom) hp ha hcall
      exact ⟨k',e',b,call,hlt.le,hat'.mono hstored,hrest⟩

theorem Valid.crossStore_upto (hv : Valid s) : ∀ l, l <+: s.log → CrossStore (s.upto l) := by
  induction hv with
  | start empty =>
    intro l hl
    rw [empty,prefix_nil] at hl
    exact .start (by simp [hl])
  | @step s ev valid legal ih =>
    intro l hl
    rcases prefix_concat_iff.mp hl with rfl | hl'
    · exact .step ih valid legal
    · exact ih l hl'

theorem Valid.crossStore (hv : Valid s) : CrossStore s := hv.crossStore_upto s.log prefix_rfl
end Run
end
end GudeAgents
