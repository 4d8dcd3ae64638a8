import GudeAgents.Refinement.Prepare
/-!
# The batch coordinator
-/
namespace GudeAgents
open Framework List Logic World ToolOutcome
section
variable {calls : List ToolCall} {outcomes : List ToolOutcome}
def ToolOutcome.Names (call : ToolCall) (o : ToolOutcome) : Prop :=
  o.kind=.definitive → o.result.toolUseID=call.toolUseID
def outcomeIDs (outcomes : List ToolOutcome) : List String :=
  outcomes.filterMap fun o => o.resultBlock?.map (·.toolUseID)

theorem zipWith_overtaken_names
    (h : List.Forall₂ (fun call o => ToolOutcome.Names call o) calls outcomes) :
    List.Forall₂ (fun call o => ToolOutcome.Names call o) calls
      (outcomes.zipWith overtaken calls) := by
  induction h with
  | nil => exact .nil
  | cons hn _ ih =>
    refine .cons ?_ ih
    unfold overtaken
    split
    · exact fun _ => rfl
    · exact hn

theorem committedOutcomes_names
    (h : List.Forall₂ (fun call o => ToolOutcome.Fits call o) calls outcomes) :
    List.Forall₂ (fun call o => ToolOutcome.Names call o) calls
      (committedOutcomes calls outcomes) := by
  have hnames : List.Forall₂ (fun call o => ToolOutcome.Names call o) calls outcomes :=
    h.imp fun _ _ hf hk => (hf.1 hk).1
  unfold committedOutcomes pendingInterrupt
  split
  · exact hnames
  · split
    · exact zipWith_overtaken_names hnames
    · simp only
      split <;> exact hnames

theorem outcomeIDs_cons (o : ToolOutcome) (rest : List ToolOutcome) : outcomeIDs (o::rest) =
    (if o.kind=.definitive ∧ o.result.toolUseID≠"" then [o.result.toolUseID] else []) ++
      outcomeIDs rest := by
  unfold outcomeIDs resultBlock?
  split <;> simp_all

theorem outcomeIDs_sublist
    (h : List.Forall₂ (fun call o => ToolOutcome.Names call o) calls outcomes) :
    (outcomeIDs outcomes).Sublist (calls.map (·.toolUseID)) := by
  induction h with
  | nil => exact .refl _
  | @cons call o _ _ hn _ ih =>
    rw [outcomeIDs_cons,map_cons]
    split
    · next hk =>
      rw [hn hk.1]
      exact ih.cons_cons _
    · exact ih.cons _

theorem outcomeIDs_of_settled (h : Engine.Outcomes calls outcomes)
    (hnoError : batchOutcomeError outcomes=none) (hok : ¬ Engine.HasFailure outcomes)
    (hnone : (pendingInterrupt outcomes calls).1=none)
    (hids : ∀ call∈calls, call.toolUseID≠"") :
    outcomeIDs (committedOutcomes calls outcomes)=calls.map (·.toolUseID) := by
  have hcommitted : committedOutcomes calls outcomes=outcomes := by
    simp only [committedOutcomes,hnoError,(pendingInterrupt_eq_none hnone).1]
  have hdefinitive := h.definitive hnoError hok hnone
  rw [hcommitted]
  have hfits := h.fits
  clear h hcommitted hnone hnoError hok
  induction hfits with
  | nil => rfl
  | @cons call o cs os hfit _ ih =>
    have hk := hdefinitive o (.head _)
    have hid := (hfit.1 hk).1
    have hne : o.result.toolUseID≠"" := hid ▸ hids call (.head _)
    rw [outcomeIDs_cons,if_pos ⟨hk,hne⟩,map_cons,hid,ih]
    · rfl
    · exact fun c hc => hids c (.tail _ hc)
    · exact fun o' ho' => hdefinitive o' (.tail _ ho')
end
section
variable {w : Nat} {mode : Mode} {r : Run} {e : Execution} {b : ToolBatchExecution}
  {calls : List ToolCall} {answered : List String} {outcomes : List ToolOutcome}
  {messages : TurnMessages} {s s' : World}
theorem outcomeIDs_eq (outcomes : List ToolOutcome) :
    (outcomes.filterMap resultBlock?).map (·.toolUseID)=outcomeIDs outcomes :=
  map_filterMap
theorem resultBlocks_eq_nil : resultBlocks outcomes=[] ↔ outcomeIDs outcomes=[] := by
  rw [← outcomeIDs_eq]
  simp [resultBlocks]

theorem isToolResults_results {results : List ToolResultBlock} (h : results≠[]) :
    Message.isToolResults ⟨.user,results.map .toolResult⟩=true := by
  simp only [Message.isToolResults,onlyToolResults,Bool.and_eq_true,all_eq_true]
  refine ⟨by simp,by simpa using h,?_⟩
  intro block hblock
  obtain ⟨result,-,rfl⟩ := mem_map.mp hblock
  rfl

theorem isToolResults_resultBlocks (h : resultBlocks outcomes≠[]) :
    Message.isToolResults ⟨.user,resultBlocks outcomes⟩=true :=
  isToolResults_results (map_eq_nil_iff.not.mp h)

variable [Host]
theorem Running.outcomeIDs_open (h : Running w mode r e b messages.canonical calls answered s)
    (hout : Engine.Outcomes calls outcomes) :
    (outcomeIDs (committedOutcomes calls outcomes)).Nodup ∧
      ∀ id∈outcomeIDs (committedOutcomes calls outcomes), id∈b.callIDs ∧ id∉answered := by
  have hsub := outcomeIDs_sublist (committedOutcomes_names hout.fits)
  refine ⟨hsub.nodup h.nodup,fun id hid => ?_⟩
  obtain ⟨call,hcall,rfl⟩ := mem_map.mp (hsub.subset hid)
  obtain ⟨stored,hmem,hstored,-⟩ := h.holds call hcall
  exact ⟨hstored ▸ mem_map_of_mem hmem,h.fresh call hcall⟩

namespace Engine
variable {Q : Unit → Run → World → Prop} {X : Error → Run → World → Prop}
theorem wp_commitToolResults {a : Agent} (ha : a.conversation=true)
    (h : Running w mode r e b messages.canonical calls answered s) (hset : b.SettledIn mode)
    (hsync : s.Synced w) (hdisp : s.lastDispatch? w=some (calls,outcomes))
    (hout : Outcomes calls outcomes) (hpending : batchOutcomeError outcomes=none →
      ∀ i, (pendingInterrupt outcomes calls).1=some i →
        e.pendingPause=some (pauseFromInterrupt i)) {out : List ToolOutcome}
    (hcommitted : committedOutcomes calls outcomes=out) (hX : Raises (Stopped w mode) X)
    (hnone : outcomeIDs out=[] → Q () r s)
    (hclear : ∀ r' e' s', Cleared w mode r' e' (appendDefinitive messages out).canonical s' →
      (s.Unpaused w → s'.Unpaused w) → e'.pendingPause=e.pendingPause → Q () r' s')
    (hleft : ∀ r' e' s', outcomeIDs out≠[] → Holding w mode r' e' (b.complete (outcomeIDs out))
        (appendDefinitive messages out).canonical s' →
      e'.pendingPause=e.pendingPause → Q () r' s') :
    (logic.of w).wp (commitToolResults a (appendDefinitive messages out).canonical out) r s Q X := by
  unfold commitToolResults
  simp only [wp_bind,wp_get,h.live.durable,↓reduceIte,outcomeIDs_eq]
  obtain ⟨hnodup,hopen⟩ := h.outcomeIDs_open hout
  rw [hcommitted] at hnodup hopen
  by_cases hnil : outcomeIDs out=[]
  · rw [if_pos hnil]
    exact hnone hnil
  · rw [if_neg hnil,wp_bind]
    have hblocks : resultBlocks out≠[] := fun hb => hnil (resultBlocks_eq_nil.mp hb)
    have hcanonical : (appendDefinitive messages out).canonical =
        messages.canonical++[⟨.user,resultBlocks out⟩] := by
      unfold appendDefinitive
      split
      · exact absurd ‹_› hblocks
      · rfl
    have hdelta : (appendDefinitive messages out).canonical.drop r.persistedCount =
        [⟨.user,resultBlocks out⟩] := by
      rw [hcanonical,h.all]
      simp
    have hview : View r (appendDefinitive messages out).canonical s := by
      refine ⟨h.view.genuine,?_,?_⟩
      · rw [hcanonical,h.all]
        simp
      · rw [hcanonical,h.all,take_left]
        have := h.view.persisted
        rwa [h.all,take_length] at this
    refine wp_saveConversation ha h.live h.balanced hsync hview hX ?_ ?_ ?_
    · intro s' _ ho hv hrev
      rw [hdelta,← hcommitted]
      have h' := h.others ho
      refine .results h'.batch h'.dispatchable (by rw [ho.lastDispatch?]; exact hdisp)
        (by rw [hcommitted]; exact hblocks) hpending ?_ (by rw [hcommitted]; exact hnodup)
        (by rw [hcommitted]; exact hopen)
      have := h'.boundary
      rwa [hrev,messagesAt_revision] at this
    · intro hd
      rw [hdelta] at hd
      cases hd
    · intro s' c r' _ ho hv hrev hc hr' hlive hview'
      have h' := h.others ho
      have hbound := h'.boundary
      rw [hrev,messagesAt_revision] at hbound
      obtain ⟨answered',hbound',hmem⟩ := hbound.append (isToolResults_resultBlocks hblocks)
        (by rw [resultIDs_resultBlocks]; exact hopen) (by rw [resultIDs_resultBlocks]; exact hnodup)
      rw [hdelta] at hc hlive hview' ⊢
      have hrev' : r'.revision=s'.revision+1 := by rw [hr',hc,hrev]
      have hlen : e.lastSequence ≤ s'.messages.length := by
        refine h.ahead.trans (le_of_eq ?_)
        have := h'.view.genuine.lastSequence
        rwa [hrev,messagesAt_revision] at this
      have hhold : Holding w mode r' e b (appendDefinitive messages out).canonical
          (s'.record (.append w .results [⟨.user,resultBlocks out⟩] c .acked)) :=
        { live := hlive
          balanced := (balanced_record rfl rfl).mpr h'.balanced
          synced := synced_record.mpr ⟨ho.synced.mpr hsync,by simp,by simp⟩
          view := hview'
          all := by rw [hr']
          batch := h.batch
          sound := h.sound
          dispatchable := h'.dispatchable.mono record_isPrefix
          ahead := by rw [hr',hc]; exact hlen.trans (Nat.le_add_right _ _)
          recovers := h.recovers }
      rw [← messagesAt_append s' w .results _ c,← hrev'] at hbound'
      refine wp_removeToolCalls hhold hbound' ?_ hset hX ?_ ?_
      · intro id hid
        exact (hmem id).mpr (.inr (by rw [resultIDs_resultBlocks]; exact hid))
      · intro r1 e1 s1 hcl hp hpend
        refine hclear r1 e1 s1 hcl (fun hu => hp ?_) hpend
        exact unpaused_record.mpr ⟨ho.unpaused.mpr hu,by simp⟩
      · intro r1 e1 s1 hh _ hpend _ _
        exact hleft r1 e1 s1 hnil hh hpend
end Engine
/-- The run has to pause: the payload is stored, and what has results is committed. -/
structure Interrupted (w : Nat) (mode : Mode) (i : Interrupt) (r : Run) (e : Execution)
    (ms : List Message) (s : World) : Prop where
  live : Live w mode r e s
  balanced : s.Balanced w
  synced : s.Synced w
  view : View r ms s
  all : r.persistedCount=ms.length
  ahead : e.toolBatch≠none → e.lastSequence≤r.lastSequence
  active : ∀ b, e.toolBatch=some b → s.Dispatchable w b
  pending : e.pendingPause=some (pauseFromInterrupt i)

def Coordinated (w : Nat) (mode : Mode) (batch : Engine.CoordinatedToolBatch) (r : Run)
    (s : World) : Prop :=
  match batch.interrupt with
  | none => ∃ e, Cleared w mode r e batch.messages.canonical s ∧ s.Unpaused w
  | some i => ∃ e, Interrupted w mode i r e batch.messages.canonical s

variable {ms : List Message} {i : Interrupt}
omit [Host] in
theorem Cleared.interrupted (h : Cleared w mode r e ms s)
    (hp : e.pendingPause=some (pauseFromInterrupt i)) : Interrupted w mode i r e ms s :=
  { live := h.live, balanced := h.balanced, synced := h.synced, view := h.view, all := h.all
    ahead := fun hne => absurd h.idle hne
    active := fun b hb => by rw [h.idle] at hb; cases hb
    pending := hp }

theorem Holding.interrupted (h : Holding w mode r e b ms s)
    (hp : e.pendingPause=some (pauseFromInterrupt i)) : Interrupted w mode i r e ms s :=
  { live := h.live, balanced := h.balanced, synced := h.synced, view := h.view, all := h.all
    ahead := fun _ => h.ahead
    active := fun b' hb => by
      cases h.batch.symm.trans hb
      exact h.dispatchable
    pending := hp }

theorem Running.holding (h : Running w mode r e b ms calls answered s) (hsync : s.Synced w) :
    Holding w mode r e b ms s :=
  { h with synced := hsync }

theorem AtBoundary.dispatched {b0 : ToolBatchExecution}
    (h : AtBoundary w mode b0 ms calls answered r s) (outcomes : List ToolOutcome) :
    AtBoundary w mode b0 ms calls answered r (s.record (.note w (.dispatched calls outcomes))) := by
  obtain ⟨e,b,hrun,hclaims,hu⟩ := h
  refine ⟨e,b,hrun.record (hrun.live.record rfl rfl rfl (fun _ => rfl) (by simp)) rfl rfl,hclaims,?_⟩
  exact unpaused_record.mpr ⟨hu,by simp⟩

theorem Running.stopped (h : Running w mode r e b ms calls answered s) :
    Stopped w mode r s := ⟨e,h.live,h.balanced⟩

theorem Running.complete_allCompleted (h : Running w mode r e b ms calls answered s)
    {completed : List String} (hall : completed=calls.map (·.toolUseID)) :
    (b.complete completed).allCompleted=true := by
  rw [ToolBatchExecution.allCompleted,all_eq_true]
  intro x hx
  obtain ⟨call,hcall,rfl⟩ := mem_map.mp hx
  split
  · rfl
  · next hid =>
    by_contra hst
    exact hid (hall ▸ h.covers call hcall (by simpa using hst))

namespace Engine
variable {X : Error → Run → World → Prop}
theorem wp_persistPendingPause {outcomes' : List ToolOutcome}
    (h : Running w mode r e b ms calls answered s) (hsync : s.Synced w) (hu : s.Unpaused w)
    (hdisp : s.lastDispatch? w=some (calls,outcomes))
    (hnoError : batchOutcomeError outcomes=none)
    (hint : pendingInterrupt outcomes calls=(some i,outcomes')) {Q : Unit → Run → World → Prop}
    (hX : Raises (Stopped w mode) X)
    (hok : ∀ r' e' s', Running w mode r' e' b ms calls answered s' → s'.Synced w →
      s'.lastDispatch? w=some (calls,outcomes) →
      e'.pendingPause=some (pauseFromInterrupt i) → Q () r' s') :
    (logic.of w).wp (persistPendingPause i) r s Q X := by
  refine wp_persist h.live h.balanced rfl hX ?_ ?_ ?_
  · rintro next ⟨⟩
    exact ⟨rfl,rfl,fun _ => .of_eq rfl⟩
  · rintro next s' ⟨⟩ ho _
    have h' := h.others ho
    have hahead : s'.Ahead w e := by
      intro _
      rw [h'.live.cursor]
      exact h'.ahead
    have hboundary : Boundary (s'.messagesAt (s'.cursorOf w).revision) b answered := by
      rw [h'.live.cursor]
      exact h'.boundary
    have hcurrent : answered≠[] → e.revision=(s'.cursorOf w).revision := by
      rw [h'.live.cursor]
      exact h'.current
    have hcounted : s'.IsTurn w ∧ s'.iterationOf w≤r.iteration ∨
        s'.IsKind w .recover ∧ r.iteration=b.iteration := by
      cases mode with
      | turn t =>
        have hfits := h'.live.fits
        exact .inl ⟨hfits.turn,hfits.counted.trans hfits.iteration.ge⟩
      | recover => exact .inr ⟨h'.live.fits.2,(h.live.iterated rfl b h.batch).symm⟩
      | reconcile => exact absurd rfl h.recovers
    rw [← h'.live.usage]
    exact .pendingPause r.iteration h'.batch h'.dispatchable
      (by rw [ho.lastDispatch?]; exact hdisp) hnoError hint h'.holds
      (h'.view.genuine_cursorOf h'.live) hahead hboundary hcurrent (ho.synced.mpr hsync)
      h'.balanced (ho.unpaused.mpr hu) hcounted
  · rintro next s' ⟨⟩ ho _ _ _ hlive
    have h' := h.others ho
    refine hok _ _ _
      { live := hlive, balanced := (balanced_record rfl rfl).mpr h'.balanced
        view := ⟨h'.view.record.genuine,h'.view.count,h'.view.record.persisted⟩
        all := h.all, batch := h.batch, sound := h.sound
        dispatchable := h'.dispatchable.mono record_isPrefix, ahead := h.ahead
        recovers := h.recovers
        boundary := by rw [messagesAt_record h'.view.genuine.le]; exact h'.boundary
        current := h.current, holds := h.holds, fresh := h.fresh, nodup := h.nodup
        covers := h.covers }
      ((ho.synced.mpr hsync).saved _ _) ?_ rfl
    rw [World.lastDispatch?_record]
    simp [Event.worker?,Event.dispatched?,ho.lastDispatch?,hdisp]

theorem wp_coordinateToolBatch {a : Agent} (ha : a.conversation=true) {c : Context}
    {requested : List ToolCall} {available : List Tool}
    {decisions : Option (List (Option Decision))} {messages : TurnMessages}
    (h : Holding w mode r e b messages.canonical s) (hset : b.SettledIn mode) (hu : s.Unpaused w)
    (hd : decisions=none ∨
      decisions=some (requested.map fun call => b.approvalFor call.toolUseID))
    {Q : CoordinatedToolBatch → Run → World → Prop} (hX : Raises (Stopped w mode) X)
    (hq : ∀ batch r' s', Coordinated w mode batch r' s' → Q batch r' s') :
    (logic.of w).wp (coordinateToolBatch a c requested available decisions messages) r s Q X := by
  unfold coordinateToolBatch
  rw [wp_bind]
  refine wp_prepareToolBatch h hset hu hd hX ?_ ?_
  · intro r' e' s' hc hu'
    exact hq _ r' s' ⟨e',hc,hu'⟩
  · intro r1 s1 b1 calls answered ds hprep
    simp only
    rw [if_neg hprep.nonempty,wp_bind]
    refine wp_executeBatch hprep.boundary hprep.decisions ?_
    intro outcomes r2 s2 hat hout hsync
    rw [wp_bind]
    refine wp_note fun s3 ho _ => ⟨trivial,?_⟩
    obtain ⟨e3,b3,hrun,hclaims,hu3⟩ := (hat.others ho).dispatched outcomes
    have hset3 := hprep.settled.of_eq hclaims.resolution
    split
    · exact hX _ _ _ hrun.stopped
    · next hfound =>
      have hok : ¬ HasFailure outcomes := by
        rintro ⟨o,ho,hk⟩
        have := List.find?_eq_none.mp hfound o ho
        simp [hk] at this
      have hsynced : (s3.record (.note w (.dispatched calls outcomes))).Synced w :=
        synced_record.mpr ⟨ho.synced.mpr ((hsync hprep.synced).resolve_right hok),by simp,by simp⟩
      have hdisp : (s3.record (.note w (.dispatched calls outcomes))).lastDispatch? w =
          some (calls,outcomes) := by
        rw [World.lastDispatch?_record]
        simp [Event.worker?,Event.dispatched?]
      cases herr : batchOutcomeError outcomes with
      | some err =>
        -- definitive siblings are committed, then the error ends the run
        simp only [wp_bind,wp_attempt]
        refine wp_commitToolResults ha hrun hset3 hsynced hdisp hout ?_ ?_ ?_ ?_ ?_ ?_
        · simp [herr]
        · simp only [committedOutcomes,herr]
        · exact fun _ r s hs => hX _ r s hs
        · exact fun _ => hX _ _ _ hrun.stopped
        · exact fun r' e' s' hc _ _ => hX _ r' s' ⟨e',hc.live,hc.balanced⟩
        · exact fun r' e' s' _ hh _ => hX _ r' s' ⟨e',hh.live,hh.balanced⟩
      | none =>
        cases hint : pendingInterrupt outcomes calls with
        | mk interrupt out =>
          cases interrupt with
          | some i =>
            have hcommitted : committedOutcomes calls outcomes=out := by
              simp only [committedOutcomes,herr,hint]
            simp only [wp_bind]
            refine wp_persistPendingPause hrun hsynced hu3 hdisp herr hint hX ?_
            intro r4 e4 s4 hrun4 hsync4 hdisp4 hpend4
            refine wp_commitToolResults ha hrun4 hset3 hsync4 hdisp4 hout ?_ hcommitted hX ?_ ?_ ?_
            · intro _ i' hi'
              rw [hint] at hi'
              cases hi'
              exact hpend4
            · intro hnil
              refine hq _ r4 s4 ⟨e4,?_⟩
              rw [appendDefinitive,resultBlocks_eq_nil.mpr hnil]
              exact (hrun4.holding hsync4).interrupted hpend4
            · intro r' e' s' hc _ hp
              exact hq _ r' s' ⟨e',hc.interrupted (hp.trans hpend4)⟩
            · intro r' e' s' _ hh hp
              exact hq _ r' s' ⟨e',hh.interrupted (hp.trans hpend4)⟩
          | none =>
            have hcommitted : committedOutcomes calls outcomes=out := by
              simp only [committedOutcomes,herr,hint]
            have hids : outcomeIDs out=calls.map (·.toolUseID) := by
              rw [← hcommitted]
              refine outcomeIDs_of_settled hout herr hok (by rw [hint]) ?_
              intro call hcall
              obtain ⟨stored,hmem,hid,-⟩ := hrun.holds call hcall
              exact hid ▸ hrun.sound.ids _ (mem_map_of_mem hmem)
            simp only [wp_bind]
            refine wp_commitToolResults ha hrun hset3 hsynced hdisp hout ?_ hcommitted hX ?_ ?_ ?_
            · intro _ i hi
              rw [hint] at hi
              cases hi
            · intro hnil
              rw [hids] at hnil
              exact absurd (map_eq_nil_iff.mp hnil) hprep.nonempty
            · intro r' e' s' hc hp _
              exact hq _ r' s' ⟨e',hc,hp hu3⟩
            · intro r' e' s' _ hh _
              have := hh.sound.incomplete
              rw [hrun.complete_allCompleted hids] at this
              cases this
end Engine
end
end GudeAgents
