import GudeAgents.Refinement.Turns
/-!
# The bodies of an invocation and of a resume

A fresh turn fixes the start cursor; an answer continues from its claim or its batch.
-/
namespace GudeAgents
open Framework List Logic World Execution ToolBatchExecution
section
variable {w : Nat} {t : Loop} {r r' : Run} {e e' : Execution} {ms : List Message}
  {s s' : World}
/-- The record of the run is open and the run has written nothing but its claim. -/
structure Opened (w : Nat) (t : Loop) (r : Run) (e : Execution) (s : World) : Prop where
  live : Live w (.turn t) r e s
  balanced : s.Balanced w
  synced : s.Synced w
  unpaused : s.Unpaused w
  unplanned : s.Unplanned w

theorem Opened.others (h : Opened w t r e s) (ho : Others w s s') : Opened w t r e s' :=
  ⟨h.live.others ho,ho.balanced.mpr h.balanced,ho.synced.mpr h.synced,ho.unpaused.mpr h.unpaused,
    ho.unplanned.mpr h.unplanned⟩
theorem Opened.halted (h : Opened w t r e s) : Halted w r s := h.live.halted h.balanced

theorem Opened.read (h : Opened w t r e s) (after boundary n : Nat) (c : ConversationCursor) :
    Opened w t { r with
        revision := c.revision, lastSequence := c.lastSequence, historyBoundary := boundary
        persistedCount := n } e (s.record (.read w .turn after c)) :=
  { live := h.live.read (by simp)
    balanced := (balanced_record rfl rfl).mpr h.balanced
    synced := synced_record.mpr ⟨h.synced,by simp,by simp⟩
    unpaused := unpaused_record.mpr ⟨h.unpaused,by simp⟩
    unplanned := unplanned_record.mpr ⟨h.unplanned,by simp⟩ }

variable {Q : Result → Run → World → Prop} {a : Agent}
variable {c : Context}
variable [Host]
namespace Engine
variable {X : Error → Run → World → Prop}
section
variable (ha : a.conversation=true)
include ha
private theorem wp_runLoop (hlimit : a.maxIterations=t.limit) {messages : TurnMessages}
    (h : Turning w t r e messages.canonical s) (hb : s.Balanced w)
    (hanchor : Anchored w r e messages.canonical s) (hX : Raises (Halted w) X)
    (hq : ∀ res r s, Ended w res r s → Q res r s) :
    (logic.of w).wp (runLoop a c messages) r s Q X := by
  refine wp_loopTurn ha h hb hanchor ?_ hX hq
  rw [hlimit,h.live.fits.iteration]

section
variable (h : Opened w t r e s) (hidle : e.toolBatch=none)
  (hunset : e.startCursorPersisted=false) (hX : Raises (Halted w) X)
include h hidle hunset hX
private theorem wp_loadHistory {Q : List Message → Run → World → Prop}
    (hok : ∀ ms r' e' s', Turning w t r' e' ms s' → s'.Balanced w → Q ms r' s') :
    (logic.of w).wp (loadHistory a) r s Q X := by
  have hconv : a.hasConversation r=true := by simp [Agent.hasConversation,ha,h.live.named]
  unfold loadHistory
  simp only [wp_bind,wp_get,hconv,↓reduceIte]
  refine wp_historyBoundary ?_ fun _ s1 h₁ => hX _ _ _ (h.others h₁).halted
  intro boundary s1 h₁
  refine wp_loadAfter ?_ fun s2 _ h₂ _ => hX _ _ _ (h.others (h₁.trans h₂)).halted
  intro s2 h₂ _
  have h' := (h.others (h₁.trans h₂)).read boundary boundary (s2.loadAfter boundary).messages.length
    s2.cursor
  have hview : View { r with
        revision := s2.cursor.revision, lastSequence := s2.cursor.lastSequence
        historyBoundary := boundary, persistedCount := (s2.loadAfter boundary).messages.length }
      (s2.loadAfter boundary).messages (s2.record (.read w .turn boundary s2.cursor)) :=
    View.loaded boundary boundary
  simp only [adoptSnapshot,wp_modify,wp_bind]
  refine wp_persistExecutionStartCursor h'.live h'.balanced hidle hview.genuine
    (fun _ _ _ hs => hX _ _ _ hs.halted) ?_ ?_
  · intro hset
    rw [hunset] at hset
    cases hset
  · intro s3 e3 h3 hver he3 hlive
    have h'' := h'.others h3
    have hview' := hview.others h3
    refine hok _ _ e3 _ ?_ ((balanced_record rfl rfl).mpr h''.balanced)
    refine { live := hlive, synced := h''.synced.saved _ _,
             unpaused := unpaused_record.mpr ⟨h''.unpaused,by simp⟩,
             view := ⟨hview'.record.genuine,hview'.count,hview'.record.persisted⟩,
             delta := ?_, base := ?_, idle := .inl (by rw [he3]; exact hidle), stored := ?_,
             start := ?_ }
    · intro m hm
      rw [drop_length] at hm
      cases hm
    · refine ⟨.startCursor,e3,_,by simp,rfl,?_,?_,?_⟩
      · rw [he3]
        exact hview'.genuine.seed_le
      · rw [he3]
      · intro k h1 h2
        rw [he3] at h1
        exact absurd h1 (by simpa using h2)
    · rw [version_saved,he3,hver]
    · intro _
      rw [he3]

private theorem wp_prepareTurnMessages {input : String} {Q : TurnMessages → Run → World → Prop}
    (hok : ∀ messages r' e' s', Turning w t r' e' messages.canonical s' → s'.Balanced w →
      Anchored w r' e' messages.canonical s' → Q messages r' s') :
    (logic.of w).wp (prepareTurnMessages a c input) r s Q X := by
  unfold prepareTurnMessages
  rw [wp_bind]
  refine wp_guardrails ?_ fun _ s1 h₁ => hX _ _ _ (h.others h₁).halted
  intro message s1 h₁
  rw [wp_bind]
  refine wp_loadHistory ha (h.others h₁) hidle hunset hX ?_
  intro history r2 e2 s2 h₂ hb2
  have hstop : ∀ {s' : World}, Others w s2 s' → Halted w r2 s' := fun ho =>
    ((h₂.others ho).stopped (ho.balanced.mpr hb2)).halted
  rw [wp_bind]
  refine wp_retrieveContext ?_ fun _ s3 h3 => hX _ _ _ (hstop h3)
  intro transient s3 h3
  rw [wp_bind,wp_ofExcept]
  split
  · have htext : Message.IsText ⟨.user,c.documents.map .document++c.images.map .image ++
        [.text message]⟩ := by
      simp [Message.IsText,Message.toolUses,Message.toolResults,ContentBlock.toolUse?,
        ContentBlock.toolResult?,filterMap_append,filterMap_map,Function.comp_def]
    refine hok _ r2 e2 s3 ((h₂.others h3).extend htext) (h3.balanced.mpr hb2) (.inl ?_)
    rw [drop_append_of_le_length h₂.view.count]
    simp
  · exact hX _ _ _ (hstop h3)
end
theorem wp_freshTurn (hlimit : a.maxIterations=t.limit) {input : String} (h : Opened w t r e s)
    (hidle : e.toolBatch=none) (hunset : e.startCursorPersisted=false)
    (hX : Raises (Halted w) X) (hq : ∀ res r s, Ended w res r s → Q res r s) :
    (logic.of w).wp (freshTurn a c input) r s Q X := by
  unfold freshTurn
  rw [wp_bind]
  refine wp_prepareTurnMessages ha h hidle hunset hX ?_
  intro messages r1 e1 s1 h₁ hb1 ha1
  rw [wp_bind]
  refine wp_inferenceConfig ?_ ?_
  · intro s2 h₂
    exact wp_runLoop ha hlimit (h₁.others h₂) (h₂.balanced.mpr hb1) (ha1.others h₁.stored h₂) hX hq
  · intro _ s2 h₂
    exact hX _ _ _ ((h₁.others h₂).stopped (h₂.balanced.mpr hb1)).halted
end
end Engine
def ClaimedAs (w : Nat) (i : Interrupt) (resp : ResumeResponse) (s : World) : Prop :=
  ∃ v e0, Event.save w (.resumeClaim { i with executionVersion := v } resp) e0 .acked∈s.log ∧
    e0.revision=i.revision

variable {resp : ResumeResponse} {i : Interrupt}
omit [Host] in
theorem ClaimedAs.mono (h : ClaimedAs w i resp s) (hl : s.log <+: s'.log) :
    ClaimedAs w i resp s' := by
  obtain ⟨v,e0,hmem,hrev⟩ := h
  exact ⟨v,e0,hl.subset hmem,hrev⟩

structure Reloaded (w : Nat) (t : Loop) (i : Interrupt) (resp : ResumeResponse) (r : Run)
    (e : Execution) (ms : List Message) (s : World) : Prop where
  opened : Opened w t r e s
  claimed : ClaimedAs w i resp s
  view : View r ms s
  all : r.persistedCount=ms.length
  revision : r.revision=i.revision
  stored : e.version ≤ s.version
  start : e.startCursorPersisted=true → e.startLastSequence≤r.lastSequence
  ahead : e.toolBatch≠none → e.lastSequence≤r.lastSequence

omit [Host] in
theorem Reloaded.others (h : Reloaded w t i resp r e ms s) (ho : Others w s s') :
    Reloaded w t i resp r e ms s' :=
  { h with
    opened := h.opened.others ho
    claimed := h.claimed.mono ho.isPrefix
    view := h.view.others ho
    stored := by
      refine h.stored.trans ?_
      have := version_mono ho.isPrefix
      rwa [ho.upto] at this }

omit [Host] in
theorem Reloaded.turning (h : Reloaded w t i resp r e ms s) (hi : i.type=.humanInput) :
    Turning w t r e ms s := by
  refine { live := h.opened.live, synced := h.opened.synced, unpaused := h.opened.unpaused,
           view := h.view, delta := ?_, base := ?_, idle := .inr h.opened.unplanned,
           stored := h.stored, start := h.start }
  · intro m hm
    rw [h.all,drop_length] at hm
    cases hm
  · obtain ⟨v,e0,hmem,hrev⟩ := h.claimed
    refine ⟨_,e0,e0.revision,hmem,by simp [World.textBase?,hi],?_,?_,?_⟩
    · rw [hrev,← h.revision]
      exact h.view.genuine.seed_le
    · rw [hrev,h.revision]
    · intro k h1 h2
      rw [hrev,← h.revision] at h1
      omega

variable {b : ToolBatchExecution}
namespace ToolBatchExecution
omit [Host] in
theorem approvalFor_setFirst_self {id : String} {a : ToolApprovalDecision} (h : b.find? id≠none) :
    (b.setFirst id fun call => { call with approval := some a }).approvalFor id≠none := by
  unfold find? at h
  unfold approvalFor setFirst
  generalize b.calls=calls at *
  induction calls with
  | nil => simp at h
  | cons call rest ih =>
    unfold setFirst.go
    by_cases hid : call.callID=id
    · rw [if_pos hid,List.findSome?_cons]
      simp [hid]
    · rw [if_neg hid,List.findSome?_cons,if_neg hid]
      rw [List.find?_cons_of_neg (by simpa using hid)] at h
      exact ih h

omit [Host] in
private theorem approvalFor_setFirst {id id' : String} {a : ToolApprovalDecision}
    (h : b.approvalFor id'≠none) :
    (b.setFirst id fun call => { call with approval := some a }).approvalFor id'≠none := by
  unfold approvalFor at h
  unfold approvalFor setFirst
  generalize b.calls=calls at *
  induction calls with
  | nil => simp at h
  | cons call rest ih =>
    unfold setFirst.go
    by_cases hid : call.callID=id
    · rw [if_pos hid,List.findSome?_cons]
      by_cases hid' : call.callID=id'
      · simp [hid']
      · simpa [hid'] using h
    · rw [if_neg hid,List.findSome?_cons]
      rw [List.findSome?_cons] at h
      cases hc : (if call.callID=id' then call.approval.map ToolApprovalDecision.decision
        else none) with
      | some d => simp
      | none =>
        rw [hc] at h
        exact ih h
end ToolBatchExecution
omit [Host] in
theorem Execution.storeDecisions_decided {requested : List ApprovalCall} {e next : Execution}
    (h : e.storeDecisions resp requested=.ok next) (hb : next.toolBatch=some b) {id : String}
    (hid : id∈requested.map (·.callID) ∨ ∃ b0, e.toolBatch=some b0 ∧ b0.approvalFor id≠none) :
    b.approvalFor id≠none := by
  induction requested generalizing e with
  | nil =>
    unfold storeDecisions at h
    split at h
    · cases h
    · simp only [Except.ok.injEq] at h
      subst h
      obtain ⟨b0,hb0,hne⟩ := hid.resolve_left (by simp)
      cases hb.symm.trans hb0
      exact hne
  | cons c rest ih =>
    unfold storeDecisions at h
    split at h
    · cases h
    · next b0 hb0 =>
      split at h
      · cases h
      · next found hfound =>
        refine ih h ?_
        rcases hid with hid | ⟨b1,hb1,hne⟩
        · rcases mem_cons.mp hid with rfl | hid
          · exact .inr ⟨_,rfl,approvalFor_setFirst_self (by simp [hfound])⟩
          · exact .inl hid
        · cases hb0.symm.trans hb1
          exact .inr ⟨_,rfl,approvalFor_setFirst hne⟩

omit [Host] in
private theorem approvalResumeBatch_ok {approval : Option ApprovalInterrupt} {calls : List ToolCall}
    {decisions : List (Option Decision)}
    (h : approvalResumeBatch ms approval resp=.ok (calls,decisions)) :
    ∃ a, approval=some a ∧ a.calls≠[] ∧ ∀ c∈a.calls, c.callID∈calls.map (·.toolUseID) := by
  unfold approvalResumeBatch at h
  split at h
  · cases h
  · next a =>
    split at h
    · cases h
    · next hne =>
      simp only at h
      split at h
      · cases h
      · next m hm =>
        simp only [Except.ok.injEq,Prod.mk.injEq] at h
        refine ⟨a,rfl,hne,fun c hc => ?_⟩
        have hfound := List.find?_some hm
        simp only [Bool.and_eq_true,all_map,all_eq_true,Function.comp_apply,
          contains_iff_mem] at hfound
        obtain ⟨tu,htu,hid⟩ := mem_map.mp (hfound.2 c hc)
        rw [← h.1,map_map]
        refine mem_map.mpr ⟨tu,htu,?_⟩
        simp only [Function.comp_apply]
        split <;> exact hid

namespace Engine
variable {X : Error → Run → World → Prop}
private theorem wp_loadPaused (ha : a.conversation=true) (h : Opened w t r e s)
    (hclaim : ClaimedAs w i resp s)
    (hzero : (⟨r.revision,r.lastSequence⟩ : ConversationCursor)={})
    {Q : List Message → Run → World → Prop} (hX : Raises (Halted w) X)
    (hok : ∀ ms r' s', Reloaded w t i resp r' e ms s' → Q ms r' s') :
    (logic.of w).wp (loadPaused a i) r s Q X := by
  have hconv : a.hasConversation r=true := by simp [Agent.hasConversation,ha,h.live.named]
  unfold loadPaused
  simp only [wp_bind,wp_get,hconv,↓reduceIte]
  refine wp_historyBoundary ?_ fun _ s1 h₁ => hX _ _ _ (h.others h₁).halted
  intro boundary s1 h₁
  refine wp_loadAfter ?_ fun s2 _ h₂ _ => hX _ _ _ (h.others (h₁.trans h₂)).halted
  intro s2 h₂ hv
  have ho := h₁.trans h₂
  have h' := h.others ho
  simp only
  split
  · -- the transcript is refused: the run keeps the cursor it started with
    have h'' := h'.read boundary boundary (s2.loadAfter boundary).messages.length s2.cursor
    exact hX _ _ _ ⟨e,{ h''.live.closable with cursor := .inr hzero },.inl h''.balanced⟩
  · next hsame =>
    obtain ⟨-,hver,hat⟩ := hv.hand_stored h'.live.hand
    refine hok _ _ _
      { opened := h'.read boundary boundary (s2.loadAfter boundary).messages.length s2.cursor
        claimed := hclaim.mono (ho.isPrefix.trans record_isPrefix)
        view := View.loaded boundary boundary
        all := rfl
        revision := ?_
        stored := hver.trans (version_mono record_isPrefix)
        start := fun hset => (hv.start_bounds hat hset).2
        ahead := ?_ }
    · have : ¬ ((s2.loadAfter boundary).cursor.revision != i.revision)=true := fun hne =>
        hsame (by simp [advancedAfter,hne])
      simpa using this
    · intro hne
      obtain ⟨b,hb⟩ := Option.ne_none_iff_exists'.mp hne
      exact (hv.crossStore.placed hat hb).last

private theorem wp_persistApprovalDecisions (h : Reloaded w t i resp r e ms s)
    {Q : Unit → Run → World → Prop} (hX : Raises (Halted w) X)
    (hok : ∀ approval r' e' b s', i.approval=some approval → Live w (.turn t) r' e' s' →
      (approval.calls≠[] → Holding w (.turn t) r' e' b ms s') → s'.Balanced w → s'.Unpaused w →
      e'.toolBatch=some b →
      (∀ c∈approval.calls, b.approvalFor c.callID≠none) → Q () r' s') :
    (logic.of w).wp (persistApprovalDecisions i.approval resp) r s Q X := by
  have hlive := h.opened.live
  unfold persistApprovalDecisions
  simp only [wp_bind,wp_get,hlive.durable,↓reduceIte]
  split
  · exact hX _ _ _ h.opened.halted
  · next approval happroval =>
    obtain ⟨v,e0,hmem,-⟩ := h.claimed
    refine wp_persist hlive h.opened.balanced rfl (fun _ _ _ hs => hX _ _ _ hs.halted) ?_ ?_ ?_
    · intro next hstore
      obtain ⟨b,b',-,rfl,-⟩ := storeDecisions_ok hstore
      exact ⟨rfl,rfl,by simp⟩
    · intro next s' hstore ho _
      have hclaimed : s'.Claimed w { i with executionVersion := v } resp :=
        ⟨e0,ho.isPrefix.subset hmem⟩
      exact .approvals hclaimed happroval hstore
    · intro next s' hstore ho _ _ hvalid hlive'
      have h' := h.others ho
      obtain ⟨b,b',hb,hnext,-,hdecided,hids⟩ := storeDecisions_ok hstore
      have hb' : next.toolBatch=some b' := by rw [hnext]
      have hsame : b.Same b' := same_of_forall₂ (fun hd => hd.1) hdecided
      refine hok approval _ _ b' _ happroval hlive' ?_ ?_ ?_ hb' ?_
      · intro hne
        exact
          { live := hlive'
            balanced := (balanced_record rfl rfl).mpr h'.opened.balanced
            synced := h'.opened.synced.saved _ _
            view := ⟨h'.view.record.genuine,h'.view.count,h'.view.record.persisted⟩
            all := h.all
            batch := hb'
            sound := hvalid.hand_sound hlive'.hand hb'
            dispatchable := .inr ⟨{ i with executionVersion := v },resp,approval,
              ⟨e0,record_isPrefix.subset (ho.isPrefix.subset hmem)⟩,happroval,hne,
              fun c hc => hsame.callIDs ▸ hids c hc⟩
            ahead := by
              rw [hnext]
              exact h.ahead (by simp [hb])
            recovers := by simp }
      · exact (balanced_record rfl rfl).mpr h'.opened.balanced
      · exact unpaused_record.mpr ⟨h'.opened.unpaused,by simp⟩
      · intro c hc
        exact storeDecisions_decided hstore hb' (.inl (mem_map_of_mem hc))

private theorem wp_resumeApproval (ha : a.conversation=true) (hlimit : a.maxIterations=t.limit)
    {messages : TurnMessages} (h : Reloaded w t i resp r e messages.canonical s)
    (hX : Raises (Halted w) X) (hq : ∀ res r s, Ended w res r s → Q res r s) :
    (logic.of w).wp (resumeApproval a c i resp messages) r s Q X := by
  unfold resumeApproval
  rw [wp_bind]
  refine wp_persistApprovalDecisions h hX ?_
  intro approval r1 e1 b1 s1 happroval hlive hhold hb1 hu1 hbatch hdecided
  rw [wp_bind,wp_ofExcept]
  cases hresume : approvalResumeBatch messages.canonical i.approval resp with
  | error err => exact hX _ _ _ (hlive.halted hb1)
  | ok out =>
    obtain ⟨calls,fallback⟩ := out
    obtain ⟨approval',happroval',hne,hcalls⟩ := approvalResumeBatch_ok hresume
    cases happroval.symm.trans happroval'
    have hh := hhold hne
    -- some call of the interrupt has its decision, so the fallback is never used
    obtain ⟨ds,hds,hfit⟩ : ∃ ds, persistedApprovalDecisions (some b1) calls=some ds ∧
        ds=calls.map fun call => b1.approvalFor call.toolUseID := by
      rcases persistedApprovalDecisions_fit b1 calls with hsome | ⟨-,hnone⟩
      · exact hsome
      · obtain ⟨c0,hc0⟩ := exists_mem_of_ne_nil _ hne
        obtain ⟨call,hcall,hid⟩ := mem_map.mp (hcalls c0 hc0)
        have := hnone call hcall
        rw [hid] at this
        exact absurd this (hdecided c0 hc0)
    simp only [wp_bind,wp_get,hlive.execution,Option.bind_some,hbatch,hds,Option.getD_some]
    refine wp_visibleTools fun available s2 h₂ => ?_
    have hh2 : Holding w (.turn t) r1 e1 b1 messages.canonical s2 := hh.others h₂
    refine wp_coordinateToolBatch ha hh2 (.turn t) (h₂.unpaused.mpr hu1) (.inr (by rw [hfit]))
      (fun _ _ _ hs => hX _ _ _ hs.halted) ?_
    intro batch r3 s3 hco
    have := wp_afterBatch ha c (runLoop a c batch.messages) hco hX hq
      fun e s' ht hanc hbal => wp_runLoop ha hlimit ht hbal hanc hX hq
    rw [wp_bind] at this
    exact this

theorem wp_resumeTurn (ha : a.conversation=true) (hlimit : a.maxIterations=t.limit)
    (h : Opened w t r e s) (hclaim : ClaimedAs w i resp s)
    (hzero : (⟨r.revision,r.lastSequence⟩ : ConversationCursor)={}) (hX : Raises (Halted w) X)
    (hq : ∀ res r s, Ended w res r s → Q res r s) :
    (logic.of w).wp (resumeTurn a c i resp) r s Q X := by
  unfold resumeTurn
  rw [wp_bind]
  refine wp_loadPaused ha h hclaim hzero hX ?_
  intro ms r1 s1 h₁
  rw [wp_bind]
  refine wp_inferenceConfig ?_ fun _ s2 h₂ => hX _ _ _ (h₁.others h₂).opened.halted
  intro s2 h₂
  split
  · next htype =>
    rw [wp_bind]
    refine wp_guardrails ?_ fun _ s3 h3 => hX _ _ _ (h₁.others (h₂.trans h3)).opened.halted
    intro message s3 h3
    have h' := h₁.others (h₂.trans h3)
    refine wp_runLoop ha hlimit ((h'.turning htype).extend ⟨rfl,rfl⟩) h'.opened.balanced (.inl ?_) hX hq
    rw [h'.all]
    simp
  · exact wp_resumeApproval ha hlimit (h₁.others h₂) hX hq

private theorem wp_finalizeExecution {res : Result} {err : Option Error} (h : Ended w res r s)
    {Q : Unit → Run → World → Prop} (hq : ∀ r s, Q () r s) (hX : ∀ err r s, X err r s) :
    (logic.of w).wp (finalizeExecution res err) r s Q X := by
  unfold finalizeExecution
  rw [wp_bind,wp_get]
  split
  · exact hq r s
  · next execution hex =>
    split
    · exact hq r s
    · next hcond =>
      simp only [not_or,Bool.not_eq_false,not_not] at hcond
      obtain ⟨-,hstop,hidle⟩ := hcond
      obtain ⟨e,hc,hbal⟩ := h.resolve_left hstop
      obtain rfl : execution=e := Option.some.inj (hex.symm.trans hc.execution)
      rw [wp_bind]
      refine wp_saveExecution ?_ ?_ ?_
      · intro s' ho _
        have hc' := hc.others ho
        have hterminal : (finalStatus err).terminal=true := by
          unfold finalStatus
          split
          · rfl
          · split <;> rfl
        have hbody := LegalBody.finalize r.iteration hc'.turn hterminal hidle
          (hbal.imp ho.balanced.mpr fun hm => ho.isPrefix.subset hm) hc'.cursor
          hc'.counted
        rw [hc'.usage] at hbody
        exact .body (e := execution) hc'.hand hc'.started hc'.opened hbody
      · intro s' _ _ _ _
        exact hq _ _
      · intro s' v fault _ _ _
        exact hX _ _ _

theorem wp_finishing {body : Engine Result}
    (h : (logic.of w).wp body r s (fun res r' s' => Ended w res r' s') (fun _ r' s' => Halted w r' s'))
    (hq : ∀ res r s, Q res r s) (hX : ∀ err r s, X err r s) :
    (logic.of w).wp (finishing body) r s Q X := by
  unfold finishing
  rw [wp_bind,wp_attempt]
  refine wp_mono h ?_ ?_
  · intro res r' s' hend
    simp only [wp_bind,wp_attempt]
    exact wp_finalizeExecution hend (fun _ _ => hq _ _ _) (fun _ _ _ => hq _ _ _)
  · intro err r' s' hhalt
    simp only [wp_bind,wp_attempt]
    exact wp_finalizeExecution (.inr hhalt) (fun _ _ => hX _ _ _) (fun _ _ _ => hX _ _ _)
end Engine
end
end GudeAgents
