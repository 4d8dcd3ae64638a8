import GudeAgents.Protocol.Lifecycle
import GudeAgents.Refinement.Entries
/-!
# Recovery and reconciliation

A recovery repairs one boundary after the other; a reconciliation claims the outcome of one call.
-/
namespace GudeAgents
open Framework List Logic World Execution
section
variable [Host] {w : Nat} {mode : Mode} {entry : Entry} {r : Run} {e : Execution}
  {b : ToolBatchExecution} {ms : List Message} {s s' : World}
variable {content : List ContentBlock}
theorem usesMatch_toolUseContent {calls : List ToolExecution}
    (hinputs : ∀ call∈calls, ∃ input, call.input=some input ∧
      toolInputHash input=.ok call.inputHash)
    (h : (calls.mapM fun call => call.input.map fun input =>
      ContentBlock.toolUse ⟨call.callID,call.name,input⟩)=some content) :
    usesMatch content calls=true := by
  induction calls generalizing content with
  | nil =>
    cases h
    rfl
  | cons call rest ih =>
    obtain ⟨input,hinput,hhash⟩ := hinputs call (.head _)
    rw [mapM_cons,hinput] at h
    cases hrest : (rest.mapM fun call => call.input.map fun input =>
      ContentBlock.toolUse ⟨call.callID,call.name,input⟩) with
    | none => simp [hrest] at h
    | some blocks =>
      have hc : content=.toolUse ⟨call.callID,call.name,input⟩::blocks := by
        simpa [hrest] using h.symm
      subst hc
      simp [usesMatch,useMatches,hhash,ih (fun c hc => hinputs c (.tail _ hc)) hrest]

theorem ToolBatchExecution.Sound.isUseOf_toolUseContent (h : b.Sound)
    (hplanned : b.allPlanned=true) (hc : b.toolUseContent=some content) :
    Message.isUseOf ⟨.assistant,content⟩ b=true := by
  have hall : ∀ call∈b.calls, call.status=.planned := by
    simpa [ToolBatchExecution.allPlanned] using hplanned
  have := usesMatch_toolUseContent (fun call hcall => h.inputs call hcall (hall call hcall)) hc
  simp [Message.isUseOf,this]

/-- A recovery has loaded the suffix of the conversation that belongs to its batch. -/
structure Recovering (w : Nat) (r : Run) (e : Execution) (b : ToolBatchExecution)
    (ms : List Message) (s : World) : Prop where
  live : Live w .recover r e s
  balanced : s.Balanced w
  synced : s.Synced w
  unpaused : s.Unpaused w
  view : View r ms s
  all : r.persistedCount=ms.length
  batch : e.toolBatch=some b
  sound : b.Sound
  ahead : e.lastSequence≤r.lastSequence
  tail : b.allPlanned=true → ms=(s.messagesAt r.revision).drop e.lastSequence

theorem Recovering.stopped (h : Recovering w r e b ms s) : Stopped w .recover r s :=
  ⟨e,h.live,h.balanced⟩

theorem Recovering.holding (h : Recovering w r e b ms s) (hl : b.Launched) :
    Holding w .recover r e b ms s :=
  { live := h.live, balanced := h.balanced, synced := h.synced, view := h.view, all := h.all
    batch := h.batch, sound := h.sound, dispatchable := .inl hl, ahead := h.ahead
    recovers := by simp }

variable {a : Agent}
namespace Engine
variable {Q : List Message → Run → World → Prop} {X : Error → Run → World → Prop}
theorem wp_restoreToolUses (ha : a.conversation=true) (h : Recovering w r e b ms s)
    (hplanned : b.allPlanned=true) (hX : Raises (Stopped w .recover) X)
    (hok : ∀ ms' r' s', Recovering w r' e b ms' s' → Q ms' r' s') :
    (logic.of w).wp (restoreToolUses a b ms) r s Q X := by
  unfold restoreToolUses
  split
  · next hnil =>
    cases hcontent : b.toolUseContent with
    | none => exact hX _ _ _ h.stopped
    | some content =>
      have huse := h.sound.isUseOf_toolUseContent hplanned hcontent
      have hcount : r.persistedCount=0 := by rw [h.all,hnil]; rfl
      have hdelta : ([⟨.assistant,content⟩] : List Message).drop r.persistedCount =
          [⟨.assistant,content⟩] := by
        rw [hcount]
        rfl
      have hview : View r [⟨.assistant,content⟩] s := by
        refine ⟨h.view.genuine,by rw [hcount]; simp,?_⟩
        rw [hcount,take_zero]
        exact nil_suffix
      -- nothing lies behind the cursor of the record
      have hend : (s.messagesAt r.revision).length≤e.lastSequence := by
        have htail := h.tail hplanned
        rw [hnil] at htail
        exact drop_eq_nil_iff.mp htail.symm
      have hlast : r.lastSequence=e.lastSequence := by
        have := h.view.genuine.lastSequence
        have hle := h.ahead
        simp only at this
        omega
      rw [wp_bind]
      refine wp_saveConversation ha h.live h.balanced h.synced hview hX ?_ ?_ ?_
      · intro s' _ ho _ hrev
        rw [hdelta]
        refine .toolUse h.batch hplanned huse h.sound.nodup ?_
        rw [← messagesAt_revision,← hrev,h.view.messagesAt_others ho]
        exact hend
      · intro hd
        rw [hdelta] at hd
        cases hd
      · intro s' c r' _ ho _ hrev hc hr' hlive hview'
        rw [hdelta] at hc hlive hview' ⊢
        have hlen : s'.messages.length=e.lastSequence := by
          have := (h.view.others ho).genuine.lastSequence
          rw [hrev,messagesAt_revision] at this
          simp only at this
          omega
        have hrev' : r'.revision=s'.revision+1 := by rw [hr',hc,hrev]
        refine hok _ r' _
          { live := hlive
            balanced := (balanced_record rfl rfl).mpr (ho.balanced.mpr h.balanced)
            synced := synced_record.mpr ⟨ho.synced.mpr h.synced,by simp,by simp⟩
            unpaused := unpaused_record.mpr ⟨ho.unpaused.mpr h.unpaused,by simp⟩
            view := hview'
            all := by rw [hr']
            batch := h.batch
            sound := h.sound
            ahead := ?_
            tail := fun _ => ?_ }
        · rw [hr',hc,← hlen]
          exact Nat.le_add_right _ _
        · rw [hrev',messagesAt_append,← hlen,drop_left]
  · exact hok ms r s h

theorem wp_recoverToolUses (ha : a.conversation=true) (h : Recovering w r e b ms s)
    (hX : Raises (Stopped w .recover) X)
    (hok : ∀ ms' r' e' b' s', Holding w .recover r' e' b' ms' s' → b'.Launched →
      s'.Unpaused w → Q ms' r' s') : (logic.of w).wp (recoverToolUses a ms) r s Q X := by
  unfold recoverToolUses
  simp only [wp_bind,wp_get,h.live.execution,Option.bind_some,h.batch]
  split
  · next hplanned =>
    rw [wp_bind]
    refine wp_restoreToolUses ha h hplanned hX ?_
    intro ms1 r1 s1 h1
    cases hactive : activeToolBatch ms1 b with
    | error err => exact hX _ _ _ h1.stopped
    | ok out =>
      obtain ⟨calls,answered⟩ := out
      have hcanonical : activeToolBatch ((s1.messagesAt r1.revision).drop e.lastSequence) b =
          .ok (calls,answered) := by
        rw [← h1.tail hplanned]
        exact hactive
      simp only [wp_bind]
      refine wp_markToolBatchReady h1.live h1.balanced h1.synced h1.view h1.all h1.batch h1.ahead
        (by simp) hcanonical hX ?_
      intro r2 e2 b2 s2 hh hl _ _ hp _
      exact hok ms1 r2 e2 b2 s2 hh hl (hp h1.unpaused)
  · next hplanned =>
    have hl : b.Launched := by
      by_contra hl
      exact hplanned (ToolBatchExecution.allPlanned_eq_true.mpr hl)
    exact hok ms r e b s (h.holding hl) hl h.unpaused
end Engine
structure Resolving (w : Nat) (mode : Mode) (r : Run) (e : Execution) (b : ToolBatchExecution)
    (claim : ToolResolutionClaim) (ms : List Message) (s : World) : Prop where
  live : Live w mode r e s
  balanced : s.Balanced w
  synced : s.Synced w
  view : View r ms s
  all : r.persistedCount=ms.length
  batch : e.toolBatch=some b
  sound : b.Sound
  launched : b.Launched
  resolution : b.resolution=some claim
  ahead : e.lastSequence≤r.lastSequence

variable {Q : List Message → Run → World → Prop}
namespace Engine
variable {claim : ToolResolutionClaim} {X : Error → Run → World → Prop}
section
variable (ha : a.conversation=true) (h : Resolving w mode r e b claim ms s)
include ha h
theorem wp_writeResolution {calls : List ToolCall} {results : List String}
    (hactive : activeToolBatch ms b=.ok (calls,results)) (hX : Raises (Stopped w mode) X)
    (hok : ∀ ms' r' s' answered, Resolving w mode r' e b claim ms' s' →
      (s.Unpaused w → s'.Unpaused w) → Boundary (s'.messagesAt r'.revision) b answered →
      claim.callID∈answered → Q ms' r' s') :
    (logic.of w).wp (writeResolution a claim results ms) r s Q X := by
  have hpersisted := h.view.persisted
  rw [h.all,take_length] at hpersisted
  have hboundary : Boundary (s.messagesAt r.revision) b results := .of_active hactive hpersisted
  unfold writeResolution
  simp only
  split
  · next hmem =>
    split
    · exact hX _ _ _ ⟨e,h.live,h.balanced⟩
    · exact hok ms r s results h id hboundary hmem
  · next hmem =>
    generalize hm : (⟨.user,[.toolResult (resolutionResult claim)]⟩ : Message)=m
    have hids : m.resultIDs=[claim.callID] := by
      rw [← hm]
      rfl
    have hresults : m.isToolResults=true := by
      rw [← hm]
      rfl
    have hdelta : (ms++[m]).drop r.persistedCount=[m] := by
      rw [h.all]
      simp
    have hview : View r (ms++[m]) s := by
      refine ⟨h.view.genuine,by rw [h.all]; simp,?_⟩
      rw [h.all,take_left]
      exact hpersisted
    rw [wp_bind]
    refine wp_saveConversation ha h.live h.balanced h.synced hview hX ?_ ?_ ?_
    · intro s' _ ho _ hrev
      have hbound : Boundary s'.messages b results := by
        rw [← messagesAt_revision,← hrev,h.view.messagesAt_others ho]
        exact hboundary
      rw [hdelta,← hm]
      exact .resolution h.batch h.launched h.resolution hbound
        (h.sound.resolution claim h.resolution) hmem
    · intro hd
      rw [hdelta] at hd
      cases hd
    · intro s' c r' _ ho _ hrev hc hr' hlive hview'
      rw [hdelta] at hc hlive hview' ⊢
      have hlen : r.lastSequence=s'.messages.length := by
        have := (h.view.others ho).genuine.lastSequence
        rwa [hrev,messagesAt_revision] at this
      have hrev' : r'.revision=s'.revision+1 := by rw [hr',hc,hrev]
      have hbound : Boundary s'.messages b results := by
        rw [← messagesAt_revision,← hrev,h.view.messagesAt_others ho]
        exact hboundary
      obtain ⟨answered,hbound',hiff⟩ := hbound.append hresults
        (by simp [hids,h.sound.resolution claim h.resolution,hmem]) (by simp [hids])
      refine hok _ r' _ answered
        { live := hlive
          balanced := (balanced_record rfl rfl).mpr (ho.balanced.mpr h.balanced)
          synced := synced_record.mpr ⟨ho.synced.mpr h.synced,by simp,by simp⟩
          view := hview'
          all := by rw [hr']
          batch := h.batch
          sound := h.sound
          launched := h.launched
          resolution := h.resolution
          ahead := ?_ } ?_ ?_ ((hiff _).mpr (.inr (by simp [hids])))
      · rw [hr',hc]
        exact (hlen ▸ h.ahead).trans (Nat.le_add_right _ _)
      · exact fun hu => unpaused_record.mpr ⟨ho.unpaused.mpr hu,by simp⟩
      · rw [hrev',messagesAt_append]
        exact hbound'

theorem wp_finishResolutionClaim (hX : Raises (Stopped w mode) X)
    (hok : ∀ ms' r' e' s', Live w mode r' e' s' → s'.Balanced w → (s.Unpaused w → s'.Unpaused w) →
      (mode≠.reconcile → ∀ b', e'.toolBatch=some b' →
        Holding w mode r' e' b' ms' s' ∧ b'.resolution=none) →
      Q ms' r' s') : (logic.of w).wp (finishResolutionClaim a ms) r s Q X := by
  unfold finishResolutionClaim
  simp only [wp_bind,wp_get,h.live.execution,Option.bind_some,h.batch,h.resolution]
  cases hactive : activeToolBatch ms b with
  | error err => exact hX _ _ _ ⟨e,h.live,h.balanced⟩
  | ok out =>
    refine wp_writeResolution ha h hactive hX ?_
    intro ms1 r1 s1 answered h1 hp1 hbound hmem
    refine wp_persist h1.live h1.balanced rfl hX ?_ ?_ ?_
    · intro next hnext
      obtain ⟨b',claim',hb',-,-,rfl⟩ := finishResolution_ok hnext
      refine ⟨?_,?_,fun _ => settleBatch_keepsIteration hb' rfl⟩ <;>
        unfold Execution.settleBatch <;> split <;> rfl
    · intro next s' hnext ho _
      have hc : s'.cursorOf w=⟨r1.revision,r1.lastSequence⟩ := (h1.live.others ho).cursor
      have hahead : s'.Ahead w e := by
        intro _
        rw [hc]
        exact h1.ahead
      have hbound' : Boundary (s'.messagesAt (s'.cursorOf w).revision) b answered := by
        rw [hc,h1.view.messagesAt_others ho]
        exact hbound
      exact .finishResolution h.batch h.launched h.resolution
        ((h1.view.others ho).genuine_cursorOf (h1.live.others ho)) hahead hbound' hmem
        (by rw [hc]; exact hnext)
    · intro next s' hnext ho _ _ hvalid hlive
      obtain ⟨b0,claim0,hb0,-,-,rfl⟩ := finishResolution_ok hnext
      cases h.batch.symm.trans hb0
      have hview' := h1.view.others ho
      have hbal : s'.Balanced w := ho.balanced.mpr h1.balanced
      have hsynced := (ho.synced.mpr h1.synced).saved .finishResolution
      refine hok ms1 _ _ _ hlive ((balanced_record rfl rfl).mpr hbal) ?_ ?_
      · exact fun hu => unpaused_record.mpr ⟨ho.unpaused.mpr (hp1 hu),by simp⟩
      · intro hmode b' hb'
        have hkept : b'={ b.complete [claim.callID] with resolution := none } := by
          simp only [settleBatch_toolBatch] at hb'
          split at hb'
          · cases hb'
          · exact (Option.some.inj hb').symm
        refine ⟨?_,by rw [hkept]⟩
        exact
          { live := hlive
            balanced := (balanced_record rfl rfl).mpr hbal
            synced := hsynced _
            view := ⟨hview'.record.genuine,hview'.count,hview'.record.persisted⟩
            all := h1.all
            batch := hb'
            sound := hvalid.hand_sound hlive.hand hb'
            dispatchable := by
              rw [hkept]
              exact .inl (h.launched.complete [claim.callID])
            ahead := (settleBatch_lastSequence _ _).le
            recovers := hmode }
end
end Engine
/-- The run is past its boundary repairs: a batch that is left may be dispatched. -/
def Repaired (w : Nat) (ms : List Message) (r : Run) (s : World) : Prop :=
  ∃ e, Live w .recover r e s ∧ s.Balanced w ∧ s.Unpaused w ∧
    ∀ b, e.toolBatch=some b → Holding w .recover r e b ms s ∧ b.resolution=none
variable {c : Context}
namespace Engine
variable {X : Error → Run → World → Prop}
theorem wp_recoverResolution (ha : a.conversation=true) (h : Holding w .recover r e b ms s)
    (hl : b.Launched) (hu : s.Unpaused w) (hX : Raises (Stopped w .recover) X)
    (hok : ∀ ms' r' s', Repaired w ms' r' s' → Q ms' r' s') :
    (logic.of w).wp (recoverResolution a ms) r s Q X := by
  unfold recoverResolution
  simp only [wp_bind,wp_get,h.live.execution,Option.bind_some,h.batch]
  split
  · next hsome =>
    obtain ⟨claim,hclaim⟩ := Option.isSome_iff_exists.mp hsome
    have hres : Resolving w .recover r e b claim ms s :=
      { live := h.live, balanced := h.balanced, synced := h.synced, view := h.view, all := h.all
        batch := h.batch, sound := h.sound, launched := hl, resolution := hclaim
        ahead := h.ahead }
    refine wp_finishResolutionClaim ha hres hX ?_
    intro ms' r' e' s' hlive hb hp hhold
    exact hok ms' r' s' ⟨e',hlive,hb,hp hu,hhold (by simp)⟩
  · next hfree =>
    refine hok ms r s ⟨e,h.live,h.balanced,hu,?_⟩
    intro b' hb'
    cases h.batch.symm.trans hb'
    exact ⟨h,by simpa using hfree⟩

theorem wp_recoverResults (h : Repaired w ms r s)
    {Q : Option ToolBatchExecution → Run → World → Prop} (hX : Raises (Stopped w .recover) X)
    (hdone : ∀ r' s', Q none r' s')
    (hleft : ∀ r' e' b' s', Holding w .recover r' e' b' ms s' → b'.resolution=none →
      s'.Unpaused w → Q (some b') r' s') : (logic.of w).wp (recoverResults ms) r s Q X := by
  obtain ⟨e,hlive,hb,hu,hhold⟩ := h
  unfold recoverResults
  simp only [wp_bind,wp_get,hlive.execution,Option.bind_some]
  cases hbatch : e.toolBatch with
  | none => exact hdone r s
  | some b =>
    obtain ⟨h,hfree⟩ := hhold b hbatch
    simp only [wp_bind]
    cases hactive : activeToolBatch ms b with
    | error err => exact hX _ _ _ ⟨e,hlive,hb⟩
    | ok out =>
      have hpersisted := h.view.persisted
      rw [h.all,take_length] at hpersisted
      refine wp_completeCanonicalToolResults h (fun _ => hfree) (.of_active hactive hpersisted)
        hX ?_ ?_
      · intro r' e' s' hc _
        simp only [wp_get,hc.live.execution,Option.bind_some,hc.idle,wp_pure]
        exact hdone r' s'
      · intro r' e' b' s' hh hp _ hsettles _
        simp only [wp_get,hh.live.execution,Option.bind_some,hh.batch,wp_pure]
        exact hleft r' e' b' s' hh (hsettles.resolution.trans hfree) (hp hu)

theorem returns_pauseRecoveredExecution {i : Interrupt} (h : Interrupted w .recover i r e ms s) :
    Returns w (pauseRecoveredExecution i) r s := by
  refine wp_persistExecution h.live ?_ ?_ (fun _ _ => trivial) (fun _ _ _ _ _ _ _ => trivial)
    (fun _ _ _ _ _ _ _ _ => trivial)
  · rintro next ⟨⟩
    rfl
  · rintro next s' ⟨⟩ ho _
    have h' := h.live.others ho
    have hahead : s'.Ahead w e := by
      intro hne
      rw [h'.cursor]
      exact h.ahead hne
    have := LegalBody.pauseRecovered (s := s') (w := w) h'.fits.2 h.pending
      ((h.view.others ho).genuine_cursorOf h') hahead
      fun b hb => ho.dispatchable.mpr (h.active b hb)
    rwa [h'.cursor] at this

theorem returns_recoverDispatch (ha : a.conversation=true) (h : Holding w .recover r e b ms s)
    (hfree : b.resolution=none) (hu : s.Unpaused w) :
    Returns w (recoverDispatch a c b ms) r s := by
  unfold Returns recoverDispatch
  cases activeToolBatch ms b with
  | error err => trivial
  | ok out =>
    obtain ⟨calls,answered⟩ := out
    simp only [wp_bind]
    refine wp_visibleTools fun available s1 ho1 => ?_
    have hd : persistedApprovalDecisions (some b) calls=none ∨
        persistedApprovalDecisions (some b) calls =
          some (calls.map fun call => b.approvalFor call.toolUseID) := by
      rcases persistedApprovalDecisions_fit b calls with ⟨ds,hds,rfl⟩ | ⟨hnone,-⟩
      · exact .inr hds
      · exact .inl hnone
    refine wp_coordinateToolBatch ha (h.others ho1) (fun _ => hfree) (ho1.unpaused.mpr hu) hd
      (fun _ _ _ _ => trivial) ?_
    intro batch r2 s2 hco
    unfold Coordinated at hco
    split at hco
    · next hnone =>
      rw [hnone]
      trivial
    · next i hsome =>
      obtain ⟨e2,hint⟩ := hco
      rw [hsome]
      exact returns_pauseRecoveredExecution hint

def recoveringRun (convID : String) (e : Execution) (iteration : Nat) : Run :=
  { convID := convID, execution := some e, executionDurable := true, iteration := iteration
    recovering := true }

omit [Host] in
theorem live_recover {id : String} {iteration : Nat} (hown : s.own w=[.began w entry,.load w e])
    (hentry : entry.request.kind=.recover) (hnamed : id≠"") (hrunning : e.status=.running)
    (hunpaused : e.pendingPause=none)
    (hiter : ∀ b, e.toolBatch=some b → b.iteration=iteration) :
    Live w .recover (recoveringRun id e iteration) e s := by
  have hkind : s.IsKind w .recover := ⟨entry,entered_of_own hown,hentry⟩
  exact { durable := rfl, named := hnamed, execution := rfl, hand := World.hand?_of_own hown
          cursor := cursorOf_of_own hown, usage := usageOf_of_own hown
          started := .recover e hkind hrunning ((mem_log_of_own hown rfl).mpr (by simp)) hunpaused
          opened := open_of_own hown (by simp), fits := ⟨rfl,hkind⟩, iterated := fun _ => hiter }

omit [Host] in
theorem live_reconcile {id : String} {iteration : Nat} {e0 : Execution}
    (hown : s.own w=[.began w entry,.load w e0,.save w .resolution e .acked])
    (hentry : entry.request.kind=.reconcile) (hnamed : id≠"") :
    Live w .reconcile (recoveringRun id e iteration) e s := by
  have hkind : s.IsKind w .reconcile := ⟨entry,entered_of_own hown,hentry⟩
  exact { durable := rfl, named := hnamed, execution := rfl, hand := World.hand?_of_own hown
          cursor := cursorOf_of_own hown, usage := usageOf_of_own hown
          started := .reconcile e hkind ((mem_log_of_own hown rfl).mpr (by simp))
          opened := open_of_own hown (by simp +contextual [SaveLabel.closing])
          fits := ⟨rfl,hkind⟩, iterated := by simp }

theorem lastSequence_le_cursor (hv : Valid s) (hand : s.hand? w=some e)
    (hb : e.toolBatch=some b) : e.lastSequence ≤ s.cursor.lastSequence :=
  (hv.crossStore.placed (hv.hand_stored hand).2.2 hb).last

section
variable (ha : a.conversation=true)
include ha
theorem returns_recoverBatch (hown : s.own w=[.began w entry,.load w e])
    (hentry : entry.request.kind=.recover) (hb : e.toolBatch=some b)
    (hrunning : e.status=.running) (hunpaused : e.pendingPause=none)
    (hnamed : e.conversationID≠"") :
    Returns w (recoverBatch a c e b) { execution := some e } s := by
  unfold Returns recoverBatch
  simp only [wp_bind,wp_modify]
  refine wp_loadAfter ?_ (fun _ _ _ _ => trivial)
  intro s1 ho1 hv1
  have hown1 := ho1.own.trans hown
  have hlive : Live w .recover (recoveringRun e.conversationID e b.iteration) e s1 :=
    live_recover hown1 hentry hnamed hrunning hunpaused fun b' hb' => by
      cases hb.symm.trans hb'
      rfl
  have hsound := hv1.hand_sound hlive.hand hb
  have hahead := lastSequence_le_cursor hv1 hlive.hand hb
  generalize hafter : (if b.toolUseLastSequence > 0 then b.toolUseLastSequence-1
    else e.lastSequence)=after
  have hown2 : (s1.record (.read w .recovery after s1.cursor)).own w =
      [.began w entry,.load w e,.read w .recovery after s1.cursor] := by
    rw [own_record_self rfl,hown1]
    rfl
  have hrec : Recovering w
      { recoveringRun e.conversationID e b.iteration with
        revision := s1.cursor.revision, lastSequence := s1.cursor.lastSequence
        persistedCount := (s1.loadAfter after).messages.length } e b (s1.loadAfter after).messages
      (s1.record (.read w .recovery after s1.cursor)) :=
    { live := hlive.read (by simp)
      balanced := balanced_of_own hown2 rfl
      synced := synced_of_own hown2 (by simp) (by simp)
      unpaused := fun e' v => unwritten_of_own hown2 (by simp) _ e' v
      view := View.loaded after 0 (r := recoveringRun e.conversationID e b.iteration)
      all := rfl
      batch := hb
      sound := hsound
      ahead := hahead
      tail := by
        intro hplanned
        have hzero := hsound.unplaced hplanned
        rw [← hafter,hzero,messagesAt_record genuine_cursor.le]
        simp [World.loadAfter,World.cursor,messagesAt_revision] }
  simp only [adoptSnapshot,wp_bind,wp_modify]
  refine wp_recoverToolUses ha hrec (fun _ _ _ _ => trivial) ?_
  intro ms3 r3 e3 b3 s3 hh hl hu
  refine wp_recoverResolution ha hh hl hu (fun _ _ _ _ => trivial) ?_
  intro ms4 r4 s4 hrep
  refine wp_recoverResults hrep (fun _ _ _ _ => trivial) (fun _ _ => trivial) ?_
  intro r5 e5 b5 s5 hh5 hfree5 hu5
  simp only
  split
  · trivial
  · exact returns_recoverDispatch ha hh5 hfree5 hu5

theorem returns_recoverExecution (hs : a.executionStore=true) (hown : s.own w=[.began w entry])
    (hentry : entry.request.kind=.recover) : Returns w (recoverExecution a c) {} s := by
  unfold Returns recoverExecution
  simp only [hs,ha,Bool.true_eq_false,or_self,↓reduceIte,wp_bind]
  refine wp_load_of_own hown (by simp [hentry]) (by simp) (by simp) ?_ (fun _ _ => trivial)
  intro s1 e hown1 hv1 hcurrent
  simp only [wp_bind,wp_modify]
  split
  · next p hpending =>
    unfold projectPause
    simp only [wp_bind]
    refine wp_saveExecution ?_ (fun _ _ _ _ _ => trivial) (fun _ _ _ _ _ _ => trivial)
    intro s2 ho2 _
    have hown2 := ho2.own.trans hown1
    exact .projectPause (e := e) ⟨entry,entered_of_own hown2,hentry⟩
      (World.hand?_of_own hown2) hpending (unwritten_of_own hown2 (by simp))
  · next hunpaused =>
    split
    · trivial
    · split
      · trivial
      · next b hb =>
        split
        · trivial
        · next hguard =>
          simp only [not_or,not_not] at hguard
          exact returns_recoverBatch ha hown1 hentry hb hguard.1 hunpaused hguard.2.2

theorem returns_reconcileClaimed {e0 : Execution} {claim : ToolResolutionClaim}
    (hown : s.own w=[.began w entry,.load w e0,.save w .resolution e .acked])
    (hentry : entry.request.kind=.reconcile) (hb : e.toolBatch=some b) (hl : b.Launched)
    (hclaim : b.resolution=some claim) (hnamed : e.conversationID≠"") {claimed : Execution}
    (hid : claimed.conversationID=e.conversationID) :
    Returns w (reconcileClaimed a claimed b) { execution := some e } s := by
  unfold Returns reconcileClaimed
  simp only [wp_bind,wp_modify]
  split
  · trivial
  · rw [wp_bind]
    refine wp_loadAfter ?_ (fun _ _ _ _ => trivial)
    intro s1 ho1 hv1
    have hown1 := ho1.own.trans hown
    have hlive : Live w .reconcile (recoveringRun claimed.conversationID e b.iteration) e s1 :=
      live_reconcile hown1 hentry (by rw [hid]; exact hnamed)
    generalize b.toolUseLastSequence-1=after
    have hown2 : (s1.record (.read w .recovery after s1.cursor)).own w =
        [.began w entry,.load w e0,.save w .resolution e .acked,
          .read w .recovery after s1.cursor] := by
      rw [own_record_self rfl,hown1]
      rfl
    have hres : Resolving w .reconcile
        { recoveringRun claimed.conversationID e b.iteration with
          revision := s1.cursor.revision, lastSequence := s1.cursor.lastSequence
          persistedCount := (s1.loadAfter after).messages.length } e b claim
        (s1.loadAfter after).messages (s1.record (.read w .recovery after s1.cursor)) :=
      { live := hlive.read (by simp)
        balanced := balanced_of_own hown2 rfl
        synced := synced_of_own hown2 (by simp) (by simp)
        view := View.loaded after 0 (r := recoveringRun claimed.conversationID e b.iteration)
        all := rfl
        batch := hb
        sound := hv1.hand_sound hlive.hand hb
        launched := hl
        resolution := hclaim
        ahead := lastSequence_le_cursor hv1 hlive.hand hb }
    simp only [adoptSnapshot,wp_bind,wp_modify]
    exact wp_finishResolutionClaim ha hres (fun _ _ _ _ => trivial) (fun _ _ _ _ _ _ _ _ => trivial)

theorem returns_reconcileToolExecution (hs : a.executionStore=true) {executionID callID : String}
    {version : Nat} {resolution : ToolResolution} (hown : s.own w=[.began w entry])
    (hentry : entry.request.kind=.reconcile) :
    Returns w (reconcileToolExecution a executionID version callID resolution) {} s := by
  unfold Returns reconcileToolExecution
  simp only [hs,ha,Bool.true_eq_false,or_self,↓reduceIte]
  split
  · trivial
  · rw [wp_bind]
    refine wp_load_of_own hown (by simp [hentry]) (by simp) (by simp) ?_ (fun _ _ => trivial)
    intro s1 e hown1 hv1 hcurrent
    have hnamed := hv1.named (hv1.current_stored hcurrent).2.2
    simp only [wp_bind,wp_modify]
    split
    · trivial
    · next b hb =>
      split
      · trivial
      · next hguard =>
        simp only [not_or,not_not] at hguard
        split
        · trivial
        · next target hfound =>
          split
          · trivial
          · next hstatus =>
            rw [not_not] at hstatus
            split
            · rw [wp_bind]
              refine wp_saveExecution ?_ (fun _ _ _ _ _ => trivial) (fun _ _ _ _ _ _ => trivial)
              intro s2 ho2 _
              have hown2 := ho2.own.trans hown1
              exact .retry (e := e) ⟨entry,entered_of_own hown2,hentry⟩
                (World.hand?_of_own hown2) hb hguard.2 hfound hstatus
                (unwritten_of_own hown2 (by simp))
            · simp only [wp_bind]
              refine wp_saveExecution ?_ ?_ (fun _ _ _ _ _ _ => trivial)
              · intro s2 ho2 _
                have hown2 := ho2.own.trans hown1
                exact .resolution (e := e) ⟨entry,entered_of_own hown2,hentry⟩
                  (World.hand?_of_own hown2) hb hguard.2 hfound hstatus
                  (unwritten_of_own hown2 (by simp))
              · intro s2 ho2 _ _ _
                have hl : b.Launched :=
                  ⟨target,mem_of_find?_eq_some hfound,by simp [hstatus]⟩
                generalize he : ({ e with
                  toolBatch := some { b with resolution := some ⟨callID,resolution.outcome,
                    resolution.output,resolution.errorMessage⟩ }
                  version := e.version+1 } : Execution)=next
                have hown2 : (s2.record (.save w .resolution next .acked)).own w =
                    [.began w entry,.load w e,.save w .resolution next .acked] := by
                  rw [own_record_self rfl,ho2.own,hown1]
                  rfl
                subst he
                exact returns_reconcileClaimed ha hown2 hentry rfl hl rfl hnamed rfl
end
end Engine
theorem Request.safe (ha : a.conversation=true) (hs : a.executionStore=true) (request : Request)
    (hown : s.own w=[.began w ⟨a,c,request⟩]) :
    (logic.of w).Safe (request.program a c) (fun _ _ => True) s := by
  have pack : ∀ {α : Type} {m : Engine α} {f : Except Error α×Run → Response},
      Returns w m {} s → (logic.of w).Safe ((m {}).bind (.done <| f ·)) (fun _ _ => True) s := by
    intro α m f hm
    refine Logic.Safe.bind.mpr (hm.mono ?_)
    intro out s' _
    trivial
  cases request with
  | invoke input => exact pack (Engine.returns_invoke ha hs hown rfl rfl)
  | resume i resp => exact pack (Engine.returns_resume ha hs hown rfl rfl)
  | recover => exact pack (Engine.returns_recoverExecution ha hs hown rfl)
  | reconcile version callID resolution =>
    exact pack (Engine.returns_reconcileToolExecution ha hs hown rfl)

/-- The engine refines the protocol: whatever the workers, the store faults, the cancellations
and the crashes, the history of every reachable world is valid. -/
theorem Reaches.valid {seed : World} (h : Reaches seed s) : Valid s := by
  obtain ⟨hempty,workers,hreach⟩ := h
  refine logic.reachable_inv ?_ (Valid.start hempty) ?_ hreach
  · rintro n p s s' - hbound ⟨a,c,request,ha,hs,rfl,rfl⟩
    refine request.safe ha hs ?_
    have hnone : s.own n=[] := by
      rw [eq_nil_iff_forall_not_mem]
      intro ev hev
      rw [mem_own] at hev
      exact Nat.lt_irrefl n (hbound ev hev.1 n hev.2)
    rw [own_record_self rfl,hnone]
    rfl
  · intro ev hev
    rw [hempty] at hev
    cases hev
end
end GudeAgents
