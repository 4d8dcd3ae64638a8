import GudeAgents.Refinement.ToolUses
/-!
# Turns

The model/tool loop keeps the turn invariant.
-/
namespace GudeAgents
open Framework Logic World Event
section
variable {w : Nat} {t : Loop} {r r' : Run} {e e' : Execution} {ms : List Message}
  {s s' : World}
/-- The record of the run may be finalized.  A run that refused the transcript it read still has
the zero cursor. -/
structure Closable (w : Nat) (r : Run) (e : Execution) (s : World) : Prop where
  durable : r.executionDurable=true
  execution : r.execution=some e
  hand : s.hand? w=some e
  cursor : ⟨r.revision,r.lastSequence⟩=s.cursorOf w ∨
    (⟨r.revision,r.lastSequence⟩ : ConversationCursor)={}
  usage : s.usageOf w=r.usage
  started : s.Started w e
  opened : s.Open w
  turn : s.IsTurn w
  counted : s.iterationOf w≤r.iteration

/-- A turn that has ended, with an answer or an error: every response is counted unless the rate
limiter refused to settle one. -/
def Halted (w : Nat) (r : Run) (s : World) : Prop :=
  ∃ e, Closable w r e s ∧ (s.Balanced w ∨ leaseCommit w false∈s.log)

theorem Live.closable (h : Live w (.turn t) r e s) : Closable w r e s :=
  { durable := h.durable
    execution := h.execution
    hand := h.hand
    cursor := .inl h.cursor.symm
    usage := h.usage
    started := h.started
    opened := h.opened
    turn := h.fits.turn
    counted := h.fits.counted.trans h.fits.iteration.ge }

theorem Closable.others (h : Closable w r e s) (ho : Others w s s') : Closable w r e s' :=
  { durable := h.durable
    execution := h.execution
    hand := ho.hand?.trans h.hand
    cursor := by rw [ho.cursorOf]; exact h.cursor
    usage := ho.usageOf.trans h.usage
    started := h.started.mono ho.isPrefix id
    opened := ho.opened.mpr h.opened
    turn := ho.isTurn.mpr h.turn
    counted := ho.iterationOf.trans_le h.counted }

theorem Live.halted (h : Live w (.turn t) r e s) (hb : s.Balanced w) : Halted w r s :=
  ⟨e,h.closable,.inl hb⟩
theorem Stopped.halted (h : Stopped w (.turn t) r s) : Halted w r s := by
  obtain ⟨e,hl,hb⟩ := h
  exact hl.halted hb

theorem Turning.record {ev : Event} (h : Turning w t r e ms s)
    (hl : Live w (.turn t) r' e (s.record ev)) (hsave : ∀ label e v, save w label e v≠ev)
    (happend : ∀ label ms c v, append w label ms c v≠ev) (hrev : r'.revision=r.revision)
    (hseq : r'.lastSequence=r.lastSequence) (hcount : r'.persistedCount=r.persistedCount) :
    Turning w t r' e ms (s.record ev) :=
  h.mono hl (synced_record.mpr ⟨h.synced,fun _ _ => hsave _ _ _,fun _ _ _ => happend _ _ _ _⟩)
    (unpaused_record.mpr ⟨h.unpaused,fun _ _ => hsave _ _ _⟩)
    (fun hu => unplanned_record.mpr ⟨hu,fun _ _ => hsave _ _ _⟩) rfl record_isPrefix
    hrev hseq hcount

variable {a : Agent} {Q : Result → Run → World → Prop} {messages : TurnMessages}
variable [Host]
namespace Engine
section Asking
variable {X : Error → Run → World → Prop}
theorem wp_guardrails {direction : Direction} {indices : List Nat} {message : String}
    {Q : String → Run → World → Prop} (hq : ∀ message s', Others w s s' → Q message r s')
    (hX : ∀ err s', Others w s s' → X err r s') :
    (logic.of w).wp (guardrails direction indices message) r s Q X := by
  induction indices generalizing s message with
  | nil => exact hq message s (.refl w s)
  | cons index rest ih =>
    refine wp_bind.mpr (wp_ask fun s1 h1 _ answer => ?_)
    cases answer with
    | error err => exact hX _ s1 h1
    | ok message =>
      exact ih (fun message s' ho => hq message s' (h1.trans ho))
        (fun err s' ho => hX err s' (h1.trans ho))

private theorem wp_isVisible {t : Tool} {Q : Bool → Run → World → Prop}
    (hq : ∀ visible s', Others w s s' → Q visible r s') :
    (logic.of w).wp (isVisible a t) r s Q X := by
  unfold isVisible
  cases a.toolVisibility with
  | true => exact wp_ask fun s1 h1 _ visible => hq visible s1 h1
  | false => exact hq true s (.refl w s)

theorem wp_visibleTools {tools : List Tool} {Q : List Tool → Run → World → Prop}
    (hq : ∀ tools s', Others w s s' → Q tools r s') :
    (logic.of w).wp (visibleTools a tools) r s Q X := by
  induction tools generalizing s Q with
  | nil => exact hq [] s (.refl w s)
  | cons t rest ih =>
    unfold visibleTools
    rw [wp_bind]
    refine wp_isVisible fun visible s1 h1 => ?_
    rw [wp_bind]
    exact ih fun tools s' ho => hq _ s' (h1.trans ho)

theorem wp_historyBoundary {Q : Nat → Run → World → Prop}
    (hq : ∀ boundary s', Others w s s' → Q boundary r s')
    (hX : ∀ err s', Others w s s' → X err r s') : (logic.of w).wp (historyBoundary a) r s Q X := by
  unfold historyBoundary
  split
  · refine wp_bind.mpr (wp_ask fun s1 h1 _ answer => ?_)
    cases answer with
    | ok boundary => exact hq boundary s1 h1
    | error err => exact hX _ s1 h1
  · exact hq 0 s (.refl w s)

theorem wp_retrieveContext {message : String} {Q : List Message → Run → World → Prop}
    (hq : ∀ transient s', Others w s s' → Q transient r s')
    (hX : ∀ err s', Others w s s' → X err r s') :
    (logic.of w).wp (retrieveContext a message) r s Q X := by
  unfold retrieveContext
  split
  · refine wp_bind.mpr (wp_ask fun s1 h1 _ answer => ?_)
    cases answer with
    | error err => exact hX _ s1 h1
    | ok context =>
      cases context with
      | none => exact hq _ s1 h1
      | some context =>
        simp only
        split <;> exact hq _ s1 h1
  · exact hq [] s (.refl w s)

private theorem wp_modelTurnMessages {Q : List Message → Run → World → Prop}
    (hq : ∀ out s', Others w s s' → Q out r s') (hX : ∀ err s', Others w s s' → X err r s') :
    (logic.of w).wp (modelTurnMessages a messages) r s Q X := by
  unfold modelTurnMessages
  rw [wp_bind,wp_get]
  split
  · exact hX _ s (.refl w s)
  · simp only
    split
    · refine wp_bind.mpr (wp_ask fun s1 h1 _ answer => ?_)
      cases answer with
      | ok out => exact hq out s1 h1
      | error err => exact hX _ s1 h1
    · exact hq _ s (.refl w s)

theorem wp_inferenceConfig {Q : Unit → Run → World → Prop} (hq : ∀ s', Others w s s' → Q () r s')
    (hX : ∀ err s', Others w s s' → X err r s') : (logic.of w).wp inferenceConfig r s Q X := by
  refine wp_bind.mpr (wp_ask fun s1 h1 _ answer => ?_)
  cases answer with
  | none => exact hq s1 h1
  | some err => exact hX _ s1 h1

theorem wp_checkContext {Q : Unit → Run → World → Prop} (hq : ∀ s', Others w s s' → Q () r s')
    (hX : ∀ err s', Others w s s' → X err r s') : (logic.of w).wp checkContext r s Q X := by
  refine wp_bind.mpr (wp_contextErr fun s1 h1 _ answer => ?_)
  cases answer with
  | none => exact hq s1 h1
  | some cause => exact hX _ s1 h1

theorem wp_reserveLease {Q : Unit → Run → World → Prop} (hq : ∀ s', Others w s s' → Q () r s')
    (hX : ∀ err s', Others w s s' → X err r s') : (logic.of w).wp (reserveLease a) r s Q X := by
  unfold reserveLease
  split
  · refine wp_bind.mpr (wp_ask fun s1 h1 _ answer => ?_)
    cases answer with
    | none => exact hq s1 h1
    | some err => exact hX _ s1 h1
  · exact hq s (.refl w s)

private theorem wp_settleFailure {err : Error} {Q : ModelResponse → Run → World → Prop}
    (hX : ∀ err s', Others w s s' → X err r s') :
    (logic.of w).wp (settleFailure a err) r s Q X := by
  unfold settleFailure
  split
  · refine wp_bind.mpr (wp_ask fun s1 h1 _ answer => ?_)
    cases answer with
    | none | some releaseErr => exact hX _ s1 h1
  · exact hX _ s (.refl w s)
end Asking
structure Owing (w : Nat) (t : Loop) (r : Run) (e : Execution) (ms : List Message)
    (u : TokenUsage) (s : World) : Prop where
  turning : Turning w t r e ms s
  anchored : Anchored w r e ms s
  owes : s.responses w=s.addedUsages w++[u]

variable {X : Error → Run → World → Prop}
private theorem wp_settleResponse {resp : ModelResponse} (h : Owing w t r e ms resp.usage s)
    {Q : ModelResponse → Run → World → Prop}
    (hok : ∀ s', Owing w t r e ms resp.usage s' → Q resp r s')
    (hX : ∀ err s', Halted w r s' → X err r s') :
    (logic.of w).wp (settleResponse a resp) r s Q X := by
  unfold settleResponse
  split
  · refine wp_bind.mpr (wp_commitLease fun s' answer ho _ => ?_)
    have h' := h.turning.others ho
    have hlive : Live w (.turn t) r e (s'.record (.leaseCommit w answer.isNone)) :=
      h'.live.record rfl rfl rfl (fun _ => rfl) (by simp)
    cases answer with
    | some err => exact hX _ _ ⟨e,hlive.closable,.inr (by simp)⟩
    | none =>
      refine hok _ ⟨h'.record hlive (by simp) (by simp) rfl rfl rfl,?_,?_⟩
      · exact (h.anchored.others h.turning.stored ho).mono h'.stored rfl record_isPrefix
          rfl rfl
      · rw [responses_record,addedUsages_record,ho.responses,ho.addedUsages,h.owes]
        simp [response?,addedUsage?]
  · exact hok s h

theorem wp_callProvider {request : ModelRequest} (h : Turning w t r e ms s) (hb : s.Balanced w)
    (hanchor : Anchored w r e ms s) (hroom : s.iterationOf w<t.iteration)
    (hlimit : t.iteration≤t.limit) {Q : ModelResponse → Run → World → Prop}
    (hok : ∀ resp s', Owing w t r e ms resp.usage s' → Q resp r s')
    (hX : ∀ err s', Halted w r s' → X err r s') :
    (logic.of w).wp (callProvider a request) r s Q X := by
  unfold callProvider
  rw [wp_bind]
  refine wp_reserveLease ?_ ?_
  · intro s1 h1
    rw [wp_bind]
    refine wp_callModel ?_ ?_ ?_
    · intro s2 u h2 _
      have ho := h1.trans h2
      have h' := h.others ho
      obtain ⟨entry,hentered,hmax⟩ := h'.live.fits.entered
      refine ⟨h'.live.fits.turn,h'.live.opened,h'.unpaused,ho.balanced.mpr hb,h'.synced,
        ⟨entry,hentered,?_⟩,⟨r.revision,h'.base⟩,e,h'.live.hand,h'.live.started,h'.idle⟩
      rw [hmax,ho.iterationOf]
      exact hroom.trans_le hlimit
    · intro s2 resp h2 _
      have ho := h1.trans h2
      have h' := h.others ho
      have hb' : s2.responses w=s2.addedUsages w := ho.balanced.mpr hb
      refine wp_settleResponse ?_ (fun s' hs' => hok resp s' hs') hX
      have hlive := h'.live.called (ho.iterationOf ▸ hroom) (some resp.usage)
      refine ⟨h'.record hlive (by simp) (by simp) rfl rfl rfl,?_,?_⟩
      · exact (hanchor.others h.stored ho).mono h'.stored rfl record_isPrefix rfl rfl
      · rw [responses_record,addedUsages_record,hb']
        simp [worker?,response?,addedUsage?]
    · intro s2 err h2 _
      have ho := h1.trans h2
      have hlive := (h.others ho).live.called (ho.iterationOf ▸ hroom) none
      have hbal : (s2.record (.called w none)).Balanced w :=
        (balanced_record rfl rfl).mpr (ho.balanced.mpr hb)
      refine wp_settleFailure fun err' s3 h3 => ?_
      exact hX _ s3 ((hlive.others h3).halted (h3.balanced.mpr hbal))
  · intro err s1 h1
    exact hX _ s1 ((h.others h1).stopped (h1.balanced.mpr hb)).halted

private theorem wp_addUsage {u : TokenUsage} (h : Owing w t r e ms u s)
    {Q : TokenUsage → Run → World → Prop}
    (hok : ∀ r' s', r'={ r with usage := r.usage + u } → Turning w t r' e ms s' →
      Anchored w r' e ms s' → s'.Balanced w → Q r'.usage r' s') :
    (logic.of w).wp (addUsage u) r s Q X := by
  unfold addUsage
  rw [wp_bind]
  refine wp_note fun s' ho _ => ?_
  have h' := h.turning.others ho
  have howes : s'.responses w=s'.addedUsages w++[u] := by
    rw [ho.responses,ho.addedUsages]
    exact h.owes
  refine ⟨howes,?_⟩
  have hlive : Live w (.turn t) { r with usage := r.usage + u } e
      (s'.record (.note w (.addedUsage u))) :=
    { durable := h'.live.durable
      named := h'.live.named
      execution := h'.live.execution
      hand := by simp [World.hand?_record,worker?,held?,h'.live.hand]
      cursor := by simp [cursorOf_record,worker?,cursor?,h'.live.cursor]
      usage := by simp [usageOf_record,worker?,World.addUsageEvent,h'.live.usage]
      started := h'.live.started.mono record_isPrefix id
      opened := opened_record.mpr ⟨h'.live.opened,by simp⟩
      fits := { h'.live.fits.record (.note w (.addedUsage u)) fun _ => rfl with }
      iterated := by simp }
  refine hok _ _ rfl (h'.record hlive (by simp) (by simp) rfl rfl rfl) ?_ ?_
  · exact (h.anchored.others h.turning.stored ho).mono h'.stored rfl record_isPrefix rfl rfl
  · unfold World.Balanced
    rw [responses_record,addedUsages_record,howes]
    simp [worker?,response?,addedUsage?]

private theorem wp_persistRuntimeProgress (h : Turning w t r e ms s) (hb : s.Balanced w)
    (hanchor : Anchored w r e ms s) {Q : Unit → Run → World → Prop}
    (hX : Raises (Stopped w (.turn t)) X)
    (hok : ∀ e' s', Turning w t { r with execution := some e' } e' ms s' →
      Anchored w { r with execution := some e' } e' ms s' → s'.Balanced w →
      Q () { r with execution := some e' } s') :
    (logic.of w).wp persistRuntimeProgress r s Q X := by
  refine wp_persist h.live hb rfl hX ?_ ?_ ?_
  · rintro next ⟨⟩
    exact ⟨rfl,rfl,by simp⟩
  · rintro next s' ⟨⟩ ho _
    have h' := h.others ho
    rw [← h'.live.usage]
    exact .runtimeProgress r.iteration h'.live.fits.turn (ho.balanced.mpr hb) h'.unpaused
      (h'.live.fits.counted.trans h'.live.fits.iteration.ge)
  · rintro next s' ⟨⟩ ho _ hver _ hlive
    have h' := h.others ho
    refine hok _ _ (h'.saved hlive (by simp) (by simp) rfl (by rw [hver]) h'.start) ?_ ?_
    · exact (hanchor.others h.stored ho).saved hver rfl
    · exact (balanced_record rfl rfl).mpr (ho.balanced.mpr hb)

private theorem wp_modelStep (h : Turning w t r e messages.canonical s) (hb : s.Balanced w)
    (hanchor : Anchored w r e messages.canonical s) (hroom : s.iterationOf w<t.iteration)
    (hlimit : t.iteration≤t.limit) {Q : ModelResponse×List Tool → Run → World → Prop}
    (hX : Raises (Halted w) X) (hok : ∀ out r' e' s', Turning w t r' e' messages.canonical s' →
      Anchored w r' e' messages.canonical s' → s'.Balanced w → Q out r' s') :
    (logic.of w).wp (modelStep a messages) r s Q X := by
  have hstop : ∀ {s' : World}, Others w s s' → Halted w r s' := fun ho =>
    ((h.others ho).stopped (ho.balanced.mpr hb)).halted
  unfold modelStep
  rw [wp_bind]
  refine wp_checkContext ?_ fun _ s1 h1 => hX _ _ _ (hstop h1)
  intro s1 h1
  rw [wp_bind]
  refine wp_visibleTools fun available s2 h2 => ?_
  rw [wp_bind]
  refine wp_modelTurnMessages ?_ fun _ s3 h3 => hX _ _ _ (hstop ((h1.trans h2).trans h3))
  intro projected s3 h3
  have ho := (h1.trans h2).trans h3
  simp only [wp_bind,wp_attempt]
  refine wp_callProvider (h.others ho) (ho.balanced.mpr hb) (hanchor.others h.stored ho)
    (ho.iterationOf ▸ hroom) hlimit ?_ ?_
  · intro resp s4 howing
    refine wp_addUsage howing ?_
    intro r5 s5 hr5 h5 ha5 hb5
    refine wp_persistRuntimeProgress h5 hb5 ha5 (fun _ _ _ hs => hX _ _ _ hs.halted) ?_
    intro e6 s6 h6 ha6 hb6
    refine wp_note fun s7 h7 _ => ?_
    have h' := h6.others h7
    have hb7 := h7.balanced.mpr hb6
    refine ⟨⟨h'.live.usage.symm,hb7,h'.live.fits.turn⟩,?_⟩
    have hlive : Live w (.turn t) { r5 with execution := some e6 } e6
        (s7.record (.note w (.testedBudget r5.usage))) :=
      h'.live.record rfl rfl rfl (fun _ => rfl) (by simp)
    have hturn := h'.record hlive (by simp) (by simp) rfl rfl rfl
    have hb8 : (s7.record (.note w (.testedBudget r5.usage))).Balanced w :=
      (balanced_record rfl rfl).mpr hb7
    split
    · exact hX _ _ _ (hturn.stopped hb8).halted
    · exact hok _ _ e6 _ hturn
        ((ha6.others h6.stored h7).mono h'.stored rfl record_isPrefix rfl rfl) hb8
  · intro err s4 hhalt
    refine wp_contextErr fun s5 h5 _ cancellation => hX _ _ _ ?_
    obtain ⟨e4,hl,hbal⟩ := hhalt
    refine ⟨e4,hl.others h5,hbal.imp h5.balanced.mpr fun hm => h5.isPrefix.subset hm⟩

/-- How the body of a turn returns: paused, or ready to be finalized. -/
def Ended (w : Nat) (res : Result) (r : Run) (s : World) : Prop :=
  res.stopReason=some .interrupt ∨ Halted w r s

private theorem wp_finalAnswer (ha : a.conversation=true) {resp : ModelResponse}
    (h : Turning w t r e messages.canonical s) (hb : s.Balanced w)
    (hanchor : Anchored w r e messages.canonical s) (hX : Raises (Halted w) X)
    (hq : ∀ res r s, Ended w res r s → Q res r s) :
    (logic.of w).wp (finalAnswer a resp messages) r s Q X := by
  have hstop : ∀ {s' : World}, Others w s s' → Halted w r s' := fun ho =>
    ((h.others ho).stopped (ho.balanced.mpr hb)).halted
  unfold finalAnswer
  rw [wp_bind]
  refine wp_guardrails ?_ fun _ s1 h1 => hX _ _ _ (hstop h1)
  intro finalText s1 h1
  rw [wp_bind]
  refine wp_checkContext ?_ fun _ s2 h2 => hX _ _ _ (hstop (h1.trans h2))
  intro s2 h2
  have ho := h1.trans h2
  have hsave : ∀ ms, Turning w t r e ms s2 → Anchored w r e ms s2 →
      (logic.of w).wp (saveConversation a .turn ms) r s2
        (fun _ r' s' => Q { text := finalText, stopReason := some .endTurn } r' s') X := by
    intro ms hturn hanc
    refine wp_saveTurn ha hturn (ho.balanced.mpr hb) hanc (fun _ _ _ hs => hX _ _ _ hs.halted) ?_
    intro r' s' h' hb' _ _
    exact hq _ r' s' (.inr (h'.stopped hb').halted)
  rw [wp_bind]
  have h' := h.others ho
  split
  · refine hsave _ (h'.extend ⟨rfl,rfl⟩) (.inl ?_)
    rw [TurnMessages.appendCanonical_canonical,List.drop_append_of_le_length h'.view.count]
    simp
  · exact hsave _ h' (hanchor.others h.stored ho)

private theorem wp_interrupt (ha : a.conversation=true) {c : Context} {i : Interrupt}
    (h : Interrupted w (.turn t) i r e ms s) (hX : Raises (Halted w) X)
    (hq : ∀ res r s, Ended w res r s → Q res r s) :
    (logic.of w).wp (interrupt a c i ms) r s Q X := by
  have hconv : a.hasConversation r=true := by simp [Agent.hasConversation,ha,h.live.named]
  unfold interrupt
  simp only [wp_bind,wp_get,hconv,h.live.durable,and_self,↓reduceIte]
  refine wp_checkContext ?_ ?_
  · intro s1 h1
    have hl := h.live.others h1
    have hb := h1.balanced.mpr h.balanced
    have hnil : ms.drop r.persistedCount=[] := by rw [h.all,List.drop_length]
    refine wp_saveConversation ha hl hb (h1.synced.mpr h.synced) (h.view.others h1)
      (fun _ _ _ hs => hX _ _ _ hs.halted) (fun _ hne => absurd hnil hne) ?_
      (fun _ _ _ hne => absurd hnil hne)
    intro _
    simp only [h.live.execution,wp_bind]
    refine wp_saveExecution ?_ ?_ ?_
    · intro s2 h2 _
      have ho := h1.trans h2
      have hl2 := h.live.others ho
      have hahead : s2.Ahead w e := by
        intro hne
        rw [hl2.cursor]
        exact h.ahead hne
      have hbody := LegalBody.pause r.iteration hl2.fits.turn h.pending
        ((h.view.others ho).genuine_cursorOf hl2) hahead
        (fun b hbatch => ho.dispatchable.mpr (h.active b hbatch)) (ho.balanced.mpr h.balanced)
        (hl2.fits.counted.trans hl2.fits.iteration.ge)
      rw [hl2.cursor,hl2.usage] at hbody
      exact .body (e := e) hl2.hand hl2.started hl2.opened hbody
    · intro s2 _ _ _ _
      exact hq _ _ _ (.inl rfl)
    · intro s2 v fault _ _ _
      exact hq _ _ _ (.inl rfl)
  · intro err s1 h1
    exact hX _ _ _ ((h.live.others h1).halted (h1.balanced.mpr h.balanced))
end Engine
omit [Host] in
theorem Cleared.turning (h : Cleared w (.turn t) r e ms s) (hu : s.Unpaused w) :
    Turning w t r e ms s ∧ Anchored w r e ms s := by
  refine ⟨{ live := h.live, synced := h.synced, unpaused := hu, view := h.view, delta := ?_,
            base := h.base, idle := .inl h.idle, stored := h.stored, start := fun _ => h.start },
    .inr h.quiet⟩
  intro m hm
  rw [h.all,List.drop_length] at hm
  cases hm

omit [Host] in
theorem Interrupted.others {mode : Mode} {i : Interrupt} (h : Interrupted w mode i r e ms s)
    (ho : Others w s s') : Interrupted w mode i r e ms s' :=
  { live := h.live.others ho
    balanced := ho.balanced.mpr h.balanced
    synced := ho.synced.mpr h.synced
    view := h.view.others ho
    all := h.all
    ahead := h.ahead
    active := fun b hb => ho.dispatchable.mpr (h.active b hb)
    pending := h.pending }

namespace Engine
variable {X : Error → Run → World → Prop}
variable {batch : CoordinatedToolBatch}
theorem wp_afterBatch (ha : a.conversation=true) (c : Context) (next : Engine Result)
    (h : Coordinated w (.turn t) batch r s) (hX : Raises (Halted w) X)
    (hq : ∀ res r s, Ended w res r s → Q res r s)
    (hnext : ∀ e s', Turning w t r e batch.messages.canonical s' →
      Anchored w r e batch.messages.canonical s' → s'.Balanced w → (logic.of w).wp next r s' Q X) :
    (logic.of w).wp (do
      checkContext
      match batch.interrupt with
      | some i => interrupt a c i batch.messages.canonical
      | none => next) r s Q X := by
  unfold Coordinated at h
  rw [wp_bind]
  cases hi : batch.interrupt with
  | some i =>
    rw [hi] at h
    obtain ⟨e,hint⟩ := h
    refine wp_checkContext ?_ ?_
    · intro s1 h1
      exact wp_interrupt ha (hint.others h1) hX hq
    · intro _ s1 h1
      exact hX _ _ _ ((hint.live.others h1).halted (h1.balanced.mpr hint.balanced))
  | none =>
    rw [hi] at h
    obtain ⟨e,hc,hu⟩ := h
    obtain ⟨hturn,hanchor⟩ := hc.turning hu
    refine wp_checkContext ?_ ?_
    · intro s1 h1
      exact hnext e s1 (hturn.others h1) (hanchor.others hturn.stored h1)
        (h1.balanced.mpr hc.balanced)
    · intro _ s1 h1
      exact hX _ _ _ ((hc.live.others h1).halted (h1.balanced.mpr hc.balanced))

omit [Host] in
private theorem coordinated_durable {mode : Mode} (h : Coordinated w mode batch r s) :
    r.executionDurable=true := by
  unfold Coordinated at h
  split at h
  · obtain ⟨e,hc,-⟩ := h
    exact hc.live.durable
  · obtain ⟨e,hi⟩ := h
    exact hi.live.durable

theorem wp_loopTurn (ha : a.conversation=true) {c : Context} {fuel : Nat}
    (h : Turning w t r e messages.canonical s) (hb : s.Balanced w)
    (hanchor : Anchored w r e messages.canonical s) (hfuel : fuel=t.limit-t.iteration)
    (hX : Raises (Halted w) X) (hq : ∀ res r s, Ended w res r s → Q res r s) :
    (logic.of w).wp (loopTurn a c fuel messages) r s Q X := by
  induction fuel generalizing t r e s messages with
  | zero => exact hX _ _ _ (h.stopped hb).halted
  | succ fuel ih =>
    have h0 : Turning w { t with iteration := t.iteration + 1 }
        { r with iteration := r.iteration + 1 } e messages.canonical s :=
      { h with live := h.live.iterate, view := { h.view with } }
    have hroom : s.iterationOf w<t.iteration+1 := Nat.lt_succ_of_le h.live.fits.counted
    have hlimit : t.iteration+1≤t.limit := by omega
    unfold loopTurn
    simp only [wp_bind,wp_modify]
    refine wp_modelStep h0 hb hanchor hroom hlimit hX ?_
    rintro ⟨resp,available⟩ r1 e1 s1 h1 ha1 hb1
    split
    · exact wp_finalAnswer ha h1 hb1 ha1 hX hq
    · next hcalls =>
      simp only [wp_bind]
      refine wp_persistToolUses ha h1 hb1 ha1 hcalls (fun _ _ _ hs => hX _ _ _ hs.halted) ?_
      intro messages2 r2 e2 b2 s2 hhold hu
      refine wp_coordinateToolBatch ha hhold (.turn _) hu (.inl rfl) (fun _ _ _ hs => hX _ _ _ hs.halted) ?_
      intro batch r3 s3 hco
      simp only [wp_get,coordinated_durable hco,↓reduceIte]
      have := wp_afterBatch ha c (loopTurn a c fuel batch.messages) hco hX hq
        fun e s' ht hanc hbal => ih ht hbal hanc (by simp only; omega)
      rw [wp_bind] at this
      exact this
end Engine
end
end GudeAgents
