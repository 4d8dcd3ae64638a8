import GudeAgents.Refinement.Coordinator
/-!
# From a model response to a ready batch
-/
namespace GudeAgents
open Framework List Logic World Execution
variable {label : SaveLabel}
section
variable {w : Nat} {s : World} {R : Nat}
theorem World.TextBase.appended (h : s.TextBase w s.revision) {messages : List Message}
    {c : ConversationCursor} :
    (s.record (.append w .turn messages c .acked)).TextBase w (s.revision+1) := by
  obtain ⟨label,e,ρ,hmem,hbase,hseed,hle,hall⟩ := h
  refine ⟨label,e,ρ,record_isPrefix.subset hmem,hbase,hseed,hle.trans (Nat.le_succ _),?_⟩
  intro k hk hlt
  have happ : (s.record (.append w .turn messages c .acked)).appended =
      s.appended++[⟨w,.turn,messages⟩] := by
    rw [appended_record]
    rfl
  rw [happ]
  rcases Nat.lt_or_ge (s.seedRevision + k) s.revision with h' | h'
  · obtain ⟨ms,hms⟩ := hall k hk h'
    exact ⟨ms,getElem?_of_isPrefix (prefix_append _ _) hms⟩
  · have hk' : k=s.appended.length := by
      simp only [World.record,World.revision] at hlt h' hk ⊢
      omega
    exact ⟨messages,by simp [hk']⟩

theorem World.Quiet.saved {e : Execution} {v : Nat} (h : s.Quiet w R v) (hv : v=s.version) :
    (s.record (.save w label e .acked)).Quiet w R (v+1) := by
  obtain ⟨before,event,hpre,hanchor,hall⟩ := h
  refine ⟨before,event,hpre.trans record_isPrefix,hanchor,?_⟩
  intro k st hk hlt hst
  have hstored : (s.record (.save w label e .acked)).stored=s.stored++[⟨w,label,e⟩] := by
    rw [stored_record]
    rfl
  rw [hstored] at hst
  rcases Nat.lt_or_ge k v with hkv | hkv
  · refine hall k st hk hkv ?_
    rwa [List.getElem?_append_left (by rw [hv] at hkv; exact hkv)] at hst
  · have : k=s.stored.length := by
      simp only [World.version] at hv
      omega
    subst this
    simp at hst
    rw [← hst]

theorem World.Quiet.others {s' : World} {v : Nat} (h : s.Quiet w R v) (hv : v ≤ s.version)
    (ho : Others w s s') : s'.Quiet w R v := by
  exact h.mono ho.isPrefix hv

theorem World.Quiet.appended {label : AppendLabel} {messages : List Message}
    {c : ConversationCursor} {v : Nat} (hv : v ≤ s.version) :
    (s.record (.append w label messages c .acked)).Quiet w c.revision v := by
  refine ⟨s.log,_,prefix_rfl,⟨rfl,rfl⟩,?_⟩
  intro k st hk hlt _
  have hver : (s.record (.append w label messages c .acked)).version=s.version := by
    simp [version_record,Event.stored?]
  have hk : s.version≤k := hver ▸ hk
  omega
end
section
variable {w : Nat} {t : Loop} {r r' : Run} {e e' : Execution} {ms : List Message}
  {s s' : World}
/-- The run of a turn may extend the conversation: what it has not persisted is text, and all of
the conversation since its base is its own text. -/
structure Turning (w : Nat) (t : Loop) (r : Run) (e : Execution) (ms : List Message)
    (s : World) : Prop where
  live : Live w (.turn t) r e s
  synced : s.Synced w
  unpaused : s.Unpaused w
  view : View r ms s
  delta : ∀ m∈ms.drop r.persistedCount, m.IsText
  base : s.TextBase w r.revision
  idle : e.toolBatch=none ∨ s.Unplanned w
  stored : e.version ≤ s.version
  start : e.startCursorPersisted=true → e.startLastSequence≤r.lastSequence

/-- There is something to append, or nobody else has written since the cursor was fixed. -/
def Anchored (w : Nat) (r : Run) (e : Execution) (ms : List Message) (s : World) : Prop :=
  ms.drop r.persistedCount≠[] ∨ s.Quiet w r.revision e.version

theorem Turning.mono (h : Turning w t r e ms s) (hl : Live w (.turn t) r' e s') (hs : s'.Synced w)
    (hu : s'.Unpaused w) (hp : s.Unplanned w → s'.Unplanned w) (hup : s'.upto s.log=s)
    (hpre : s.log <+: s'.log) (hrev : r'.revision=r.revision)
    (hseq : r'.lastSequence=r.lastSequence) (hcount : r'.persistedCount=r.persistedCount) :
    Turning w t r' e ms s' := by
  have hview := h.view.mono hup hpre
  have hbase : (s'.upto s.log).TextBase w r.revision := by rw [hup]; exact h.base
  refine { live := hl, synced := hs, unpaused := hu, view := ⟨?_,?_,?_⟩, delta := ?_,
           base := ?_, idle := h.idle.imp id hp, stored := ?_, start := ?_ }
  · rw [hrev,hseq]; exact hview.genuine
  · rw [hcount]; exact hview.count
  · rw [hrev,hcount]; exact hview.persisted
  · rw [hcount]; exact h.delta
  · rw [hrev]; exact hbase.mono hpre
  · refine h.stored.trans ?_
    have := version_mono hpre
    rwa [hup] at this
  · rw [hseq]; exact h.start

theorem Turning.others (h : Turning w t r e ms s) (ho : Others w s s') : Turning w t r e ms s' :=
  h.mono (h.live.others ho) (ho.synced.mpr h.synced) (ho.unpaused.mpr h.unpaused)
    ho.unplanned.mpr ho.upto ho.isPrefix rfl rfl rfl

theorem Anchored.mono (h : Anchored w r e ms s) (hv : e.version ≤ s.version)
    (hup : s'.upto s.log=s) (hpre : s.log <+: s'.log) (hrev : r'.revision=r.revision)
    (hcount : r'.persistedCount=r.persistedCount) : Anchored w r' e ms s' := by
  refine h.imp (by rw [hcount]; exact id) fun hq => ?_
  rw [← hup] at hq hv
  rw [hrev]
  exact hq.mono hpre hv

theorem Anchored.others (h : Anchored w r e ms s) (hv : e.version ≤ s.version)
    (ho : Others w s s') : Anchored w r e ms s' :=
  h.mono hv ho.upto ho.isPrefix rfl rfl

theorem Turning.saved (h : Turning w t r e ms s)
    (hl : Live w (.turn t) { r with execution := some e' } e' (s.record (.save w label e' .acked)))
    (hpause : label≠.pendingPause) (hplan : label≠.plan) (hb : e'.toolBatch=e.toolBatch)
    (hv : e'.version=s.version+1)
    (hstart : e'.startCursorPersisted=true → e'.startLastSequence≤r.lastSequence) :
    Turning w t { r with execution := some e' } e' ms (s.record (.save w label e' .acked)) :=
  { live := hl
    synced := h.synced.saved label e'
    unpaused := unpaused_record.mpr ⟨h.unpaused,by
      rintro _ _ ⟨⟩
      exact hpause rfl⟩
    view := ⟨h.view.record.genuine,h.view.count,h.view.record.persisted⟩
    delta := h.delta
    base := World.TextBase.mono record_isPrefix h.base
    idle := by
      rw [hb]
      refine h.idle.imp id fun hu => unplanned_record.mpr ⟨hu,?_⟩
      rintro _ _ ⟨⟩
      exact hplan rfl
    stored := by rw [version_saved,hv]
    start := hstart }

theorem Anchored.saved (h : Anchored w r e ms s) (hv : e.version=s.version)
    (hv' : e'.version=e.version+1) :
    Anchored w { r with execution := some e' } e' ms (s.record (.save w label e' .acked)) := by
  refine h.imp id fun hq => ?_
  rw [hv']
  exact hq.saved hv

theorem Turning.stopped (h : Turning w t r e ms s) (hb : s.Balanced w) : Stopped w (.turn t) r s :=
  ⟨e,h.live,hb⟩

theorem Turning.extend (h : Turning w t r e ms s) {m : Message} (hm : m.IsText) :
    Turning w t r e (ms++[m]) s := by
  refine { h with view := ⟨h.view.genuine,?_,?_⟩, delta := ?_ }
  · rw [length_append]
    exact h.view.count.trans (Nat.le_add_right _ _)
  · rw [take_append_of_le_length h.view.count]
    exact h.view.persisted
  · intro x hx
    rw [drop_append_of_le_length h.view.count,mem_append] at hx
    rcases hx with hx | hx
    · exact h.delta x hx
    · rw [mem_singleton.mp hx]
      exact hm

variable {a : Agent}
variable [Host]
namespace Engine
variable {Q : Unit → Run → World → Prop} {X : Error → Run → World → Prop}
theorem wp_saveTurn (ha : a.conversation=true) (h : Turning w t r e ms s) (hb : s.Balanced w)
    (hanchor : Anchored w r e ms s) (hX : Raises (Stopped w (.turn t)) X)
    (hq : ∀ r' s', Turning w t r' e ms s' → s'.Balanced w → r'.persistedCount=ms.length →
      s'.Quiet w r'.revision e.version → Q () r' s') :
    (logic.of w).wp (saveConversation a .turn ms) r s Q X := by
  refine wp_saveConversation ha h.live hb h.synced h.view hX ?_ ?_ ?_
  · intro s' hne ho _ hrev
    have h' := h.others ho
    refine .turn hne h.delta ?_ h'.idle h'.unpaused h'.live.fits.turn
    rw [← hrev]
    exact h'.base
  · intro hnil
    refine hq r s h hb ?_ (hanchor.resolve_left (not_not.mpr hnil))
    exact le_antisymm h.view.count (drop_eq_nil_iff.mp hnil)
  · intro s' c r' hne ho hv hrev hc hr' hlive hview
    have h' := h.others ho
    have hrev' : r'.revision=s'.revision+1 := by rw [hr',hc,hrev]
    refine hq r' _ ?_ ((balanced_record rfl rfl).mpr (ho.balanced.mpr hb)) (by rw [hr']) ?_
    · have hbase := h'.base
      rw [hrev] at hbase
      refine { live := hlive, synced := synced_record.mpr ⟨h'.synced,by simp,by simp⟩,
               unpaused := unpaused_record.mpr ⟨h'.unpaused,by simp⟩, view := hview,
               delta := ?_, base := hrev' ▸ hbase.appended,
               idle := h'.idle.imp id fun hu => unplanned_record.mpr ⟨hu,by simp⟩,
               stored := ?_, start := ?_ }
      · intro m hm
        rw [hr',drop_length] at hm
        cases hm
      · exact h'.stored.trans (version_mono record_isPrefix)
      · intro hset
        refine (h.start hset).trans ?_
        have hseq := h'.view.genuine.lastSequence
        rw [hrev,messagesAt_revision] at hseq
        rw [hr',hc]
        exact hseq.le.trans (Nat.le_add_right _ _)
    · have hrev'' : r'.revision=c.revision := by rw [hr']
      rw [hrev'']
      exact World.Quiet.appended h'.stored

theorem wp_persistExecutionStartCursor (h : Live w (.turn t) r e s) (hb : s.Balanced w)
    (hidle : e.toolBatch=none) (hgen : s.Genuine ⟨r.revision,r.lastSequence⟩)
    (hX : Raises (Stopped w (.turn t)) X) (hsame : e.startCursorPersisted=true → Q () r s)
    (hok : ∀ s' e', Others w s s' → e.version=s'.version → e'={ e with
        startRevision := r.revision, startLastSequence := r.lastSequence
        startCursorPersisted := true, version := e.version+1 } →
      Live w (.turn t) { r with execution := some e' } e' (s'.record (.save w .startCursor e' .acked)) →
      Q () { r with execution := some e' } (s'.record (.save w .startCursor e' .acked))) :
    (logic.of w).wp persistExecutionStartCursor r s Q X := by
  unfold persistExecutionStartCursor
  simp only [wp_bind,wp_get,h.execution,h.durable,true_and]
  split
  · next hunset =>
    refine wp_persist h hb rfl hX ?_ ?_ ?_
    · rintro next ⟨⟩
      exact ⟨rfl,rfl,by simp⟩
    · rintro next s' ⟨⟩ ho _
      have hcursor := (h.others ho).cursor
      have hgen' : s'.Genuine (s'.cursorOf w) := by
        rw [hcursor]
        exact World.Genuine.mono ho.isPrefix (by rw [ho.upto]; exact hgen)
      have := LegalBody.startCursor hunset hidle hgen'
      rwa [hcursor] at this
    · rintro next s' ⟨⟩ ho _ hver _ hlive
      exact hok s' _ ho hver rfl hlive
  · next hset => exact hsame (by simpa using hset)
end Engine
variable {prior : List (String×PriorToolUse)}
theorem priorToolUsesOf_ok {seen : List (String×PriorToolUse)} {uses : List ToolUseBlock}
    (h : priorToolUsesOf seen uses=.ok prior) {id : String}
    (hid : seen.lookup id≠none ∨ id∈uses.map (·.toolUseID)) : prior.lookup id≠none := by
  induction uses generalizing seen with
  | nil =>
    simp only [priorToolUsesOf,Except.ok.injEq] at h
    subst h
    simpa using hid
  | cons use rest ih =>
    unfold priorToolUsesOf at h
    split at h
    · cases h
    · refine ih h ?_
      rw [lookup_cons]
      by_cases heq : id=use.toolUseID
      · exact .inl (by simp [heq])
      · have hne : (id == use.toolUseID)=false := by simpa using heq
        rw [hne]
        refine hid.imp (fun hseen => hseen) fun hmem => ?_
        simpa [heq] using hmem

variable {calls : List ToolCall}
theorem planCalls_uses {executionID : String} {replaySafe : String → Bool} {i : Nat}
    {seen : List String} {planned : List ToolExecution}
    (h : planCalls executionID prior replaySafe i seen calls=.ok planned) :
    usesMatch (calls.map fun tc => .toolUse ⟨tc.toolUseID,tc.name,tc.input⟩) planned=true ∧
      ∀ call∈calls, prior.lookup call.toolUseID=none := by
  induction calls generalizing i seen planned with
  | nil =>
    simp only [planCalls,Except.ok.injEq] at h
    subst h
    simp [usesMatch]
  | cons call rest ih =>
    unfold planCalls at h
    split at h
    · cases h
    · next first hfirst =>
      split at h
      · cases h
      · next others hothers =>
        simp only [Except.ok.injEq] at h
        subst h
        obtain ⟨hid,hname,⟨-,-,input,hinput,hhash⟩,hinput',-,-,hprior⟩ :=
          planCall_ok hfirst
        obtain ⟨huses,hall⟩ := ih hothers
        rw [hinput] at hinput'
        cases hinput'
        refine ⟨?_,?_⟩
        · simp [usesMatch,useMatches,hhash,hid,hname,huses]
        · intro c hc
          rcases mem_cons.mp hc with rfl | hc
          · exact hprior
          · exact hall c hc

/-- The batch of the response is planned; its assistant turn is not written yet. -/
structure Planned (w : Nat) (t : Loop) (r : Run) (e : Execution) (b : ToolBatchExecution)
    (ms : List Message) (calls : List ToolCall) (s : World) : Prop where
  live : Live w (.turn t) r e s
  balanced : s.Balanced w
  synced : s.Synced w
  unpaused : s.Unpaused w
  view : View r ms s
  all : r.persistedCount=ms.length
  batch : e.toolBatch=some b
  planned : b.allPlanned=true
  uses : (toolUseMessage { toolCalls := calls }).isUseOf b=true
  sound : b.Sound
  cursor : e.lastSequence=r.lastSequence

namespace Engine
variable {X : Error → Run → World → Prop}
theorem wp_priorToolUses (h : Turning w t r e ms s) (hb : s.Balanced w)
    {Q : List (String×PriorToolUse) → Run → World → Prop} (hX : Raises (Stopped w (.turn t)) X)
    (hok : ∀ prior s' ev, Others w s s' → e.startCursorPersisted=true →
      ev=Event.read w .priorToolUses e.startLastSequence s'.cursor →
      (∀ ids, (∀ id∈ids, prior.lookup id=none) → (s'.record ev).Unused w e ids) →
      Q prior r (s'.record ev)) : (logic.of w).wp (priorToolUses a) r s Q X := by
  unfold priorToolUses
  simp only [wp_bind,wp_get,h.live.execution]
  split
  · next hset =>
    rw [wp_bind]
    refine wp_loadAfter ?_ ?_
    · intro s' ho _
      have h' := h.others ho
      have hlive : Live w (.turn t) r e
          (s'.record (.read w .priorToolUses e.startLastSequence s'.cursor)) :=
        h'.live.record rfl rfl rfl (fun _ => rfl) (by simp)
      rw [wp_ofExcept]
      split
      · next prior hprior =>
        refine hok prior s' _ ho hset.2 rfl fun ids hids => ?_
        refine ⟨s'.log,record_isPrefix,h'.live.hand,fun id hid hused => ?_⟩
        refine absurd (hids id hid) (priorToolUsesOf_ok hprior (.inr ?_))
        have hsame : World.toolUseIDs (s'.messages.drop e.startLastSequence) =
            ((s'.messages.drop e.startLastSequence).flatMap Message.toolUses).map (·.toolUseID) := by
          simp only [World.toolUseIDs,map_flatMap]
        have hused : id∈World.toolUseIDs (s'.messages.drop e.startLastSequence) := hused
        rwa [hsame] at hused
      · exact hX _ _ _ ⟨e,hlive,(balanced_record rfl rfl).mpr (ho.balanced.mpr hb)⟩
    · intro s' fault ho _
      exact hX _ _ _ ((h.others ho).stopped (ho.balanced.mpr hb))
  · exact hX _ _ _ (h.stopped hb)

variable {Q : Unit → Run → World → Prop}
section
variable (h : Turning w t r e ms s) (hb : s.Balanced w) (hall : r.persistedCount=ms.length)
  (hquiet : s.Quiet w r.revision e.version) (hne : calls≠[])
include h hb hall hquiet hne
theorem wp_plan {iteration : Nat} (hiter : iteration=t.iteration)
    (hX : Raises (Stopped w (.turn t)) X)
    (hok : ∀ r' e' b s', Planned w t r' e' b ms calls s' → Q () r' s') :
    (logic.of w).wp (priorToolUses a >>= fun prior => persistExecution .plan fun e =>
      e.plan prior a.replaySafe calls r.revision r.lastSequence iteration) r s Q X := by
  rw [wp_bind]
  refine wp_priorToolUses h hb hX ?_
  intro prior s1 ev ho1 hset hev hunused
  have h1 := h.others ho1
  have hq1 : s1.Quiet w r.revision e.version := hquiet.others h.stored ho1
  have hlive : Live w (.turn t) r e (s1.record ev) := by
    subst hev
    exact h1.live.record rfl rfl rfl (fun _ => rfl) (by simp)
  have h2 : Turning w t r e ms (s1.record ev) := by
    refine h1.mono hlive ?_ ?_ ?_ rfl record_isPrefix rfl rfl rfl
    · exact synced_record.mpr ⟨h1.synced,by simp [hev],by simp [hev]⟩
    · exact unpaused_record.mpr ⟨h1.unpaused,by simp [hev]⟩
    · exact fun hu => unplanned_record.mpr ⟨hu,by simp [hev]⟩
  have hb2 : (s1.record ev).Balanced w := by
    subst hev
    exact (balanced_record rfl rfl).mpr (ho1.balanced.mpr hb)
  have hq2 : (s1.record ev).Quiet w r.revision e.version :=
    World.Quiet.mono record_isPrefix h1.stored hq1
  refine wp_persist h2.live hb2 rfl hX ?_ ?_ ?_
  · intro next hplan
    obtain ⟨-,planned,-,rfl⟩ := plan_ok hplan
    exact ⟨rfl,rfl,by simp⟩
  · intro next s3 hplan ho _
    obtain ⟨-,planned,hplanned,-⟩ := plan_ok hplan
    have h3 := h2.others ho
    have hun : s3.Unused w e (calls.map (·.toolUseID)) := by
      refine World.Unused.mono ho.isPrefix ?_
      rw [ho.upto]
      refine hunused _ fun id hid => ?_
      obtain ⟨call,hcall,rfl⟩ := mem_map.mp hid
      exact (planCalls_uses hplanned).2 call hcall
    have hq3 : s3.Quiet w r.revision e.version := hq2.others h2.stored ho
    have hc : s3.cursorOf w=⟨r.revision,r.lastSequence⟩ := h3.live.cursor
    refine .plan (by rw [hc]; exact hplan) hne hset hun (h3.view.genuine_cursorOf h3.live) ?_ ?_ ?_
      h3.live.fits.turn h3.synced h3.unpaused (hiter ▸ h3.live.fits.counted)
    · rw [hc]; exact h.start hset
    · rw [hc]; exact h3.base
    · rw [hc]; exact hq3
  · intro next s3 hplan ho _ _ hvalid hlive3
    obtain ⟨-,planned,hplanned,rfl⟩ := plan_ok hplan
    have h3 := h2.others ho
    refine hok _ _ { iteration := iteration, calls := planned } _
      { live := hlive3
        balanced := (balanced_record rfl rfl).mpr (ho.balanced.mpr hb2)
        synced := h3.synced.saved _ _
        unpaused := unpaused_record.mpr ⟨h3.unpaused,by simp⟩
        view := ⟨h3.view.record.genuine,h3.view.count,h3.view.record.persisted⟩
        all := hall
        batch := rfl
        planned := ?_
        uses := ?_
        sound := hvalid.hand_sound hlive3.hand rfl
        cursor := rfl }
    · rw [ToolBatchExecution.allPlanned,all_eq_true]
      intro call hcall
      simp [((planCalls_ok hplanned).2.1 call hcall).1]
    · simp [Message.isUseOf,toolUseMessage,(planCalls_uses hplanned).1]

theorem wp_planToolBatch (hX : Raises (Stopped w (.turn t)) X)
    (hok : ∀ r' e' b s', Planned w t r' e' b ms calls s' → Q () r' s') :
    (logic.of w).wp (planToolBatch a calls) r s Q X := by
  unfold planToolBatch
  simp only [wp_bind,wp_get,h.live.durable,h.live.execution,↓reduceIte]
  split
  · exact hX _ _ _ (h.stopped hb)
  · next hidle =>
    have hidle : e.toolBatch=none := by simpa using hidle
    rw [wp_bind]
    refine wp_persistExecutionStartCursor h.live hb hidle h.view.genuine hX ?_ ?_
    · intro _
      exact wp_plan h hb hall hquiet hne h.live.fits.iteration hX hok
    · intro s' e' ho hver he' hlive
      have h' := h.others ho
      have hq : s'.Quiet w r.revision e.version := hquiet.others h.stored ho
      have hv' : e'.version=e.version+1 := by rw [he']
      refine wp_plan (h'.saved hlive (by simp) (by simp) (by rw [he']) (by rw [hv',hver]) ?_) ?_
        hall ?_ hne h.live.fits.iteration hX hok
      · intro _
        rw [he']
      · exact (balanced_record rfl rfl).mpr (ho.balanced.mpr hb)
      · rw [hv']
        exact hq.saved hver
end
variable {b : ToolBatchExecution}
theorem activeToolBatch_singleton {m : Message} (hm : m.isUseOf b=true)
    (hnodup : b.callIDs.Nodup) :
    activeToolBatch [m] b=.ok (m.toolUses.map ToolUseBlock.call,[]) := by
  simp [activeToolBatch,hm,hnodup,collectMessages]

theorem wp_markToolBatchReady {mode : Mode} {answered : List String} (h : Live w mode r e s)
    (hb : s.Balanced w) (hsync : s.Synced w) (hview : View r ms s)
    (hall : r.persistedCount=ms.length) (hbatch : e.toolBatch=some b)
    (hahead : e.lastSequence≤r.lastSequence) (hmode : mode≠.reconcile)
    (hcanonical : activeToolBatch ((s.messagesAt r.revision).drop e.lastSequence) b =
      .ok (calls,answered)) (hX : Raises (Stopped w mode) X)
    (hok : ∀ r' e' b' s', Holding w mode r' e' b' ms s' → b'.Launched → b.Same b' →
      r'.revision=r.revision → (s.Unpaused w → s'.Unpaused w) →
      s'.messagesAt r'.revision=s.messagesAt r.revision → Q () r' s') :
    (logic.of w).wp markToolBatchReady r s Q X := by
  refine wp_persist h hb rfl hX ?_ ?_ ?_
  · intro next hready
    obtain ⟨b0,hb0,-,rfl⟩ := markReady_ok hready
    refine ⟨rfl,rfl,fun _ => ?_⟩
    rintro _ ⟨⟩
    exact ⟨b0,hb0,rfl⟩
  · intro next s' hready ho _
    have hc : s'.cursorOf w=⟨r.revision,r.lastSequence⟩ := (h.others ho).cursor
    have hcanonical' : activeToolBatch ((s'.messagesAt (s'.cursorOf w).revision).drop
        e.lastSequence) b=.ok (calls,answered) := by
      rw [hc,hview.messagesAt_others ho]
      exact hcanonical
    refine .ready hbatch (by rw [hc]; exact hready)
      ((hview.others ho).genuine_cursorOf (h.others ho)) ?_ hcanonical'
    intro _
    rw [hc]
    exact hahead
  · intro next s' hready ho _ _ hvalid hlive
    obtain ⟨b0,hb0,hplanned,rfl⟩ := markReady_ok hready
    cases hbatch.symm.trans hb0
    have hview' := hview.others ho
    have hsound := hvalid.hand_sound hlive.hand rfl
    have hlaunched : (b.mapCalls fun call =>
        { call with status := .ready, input := none }).Launched := by
      obtain ⟨call,hcall⟩ := exists_mem_of_ne_nil _ hsound.nonempty
      refine ⟨call,hcall,?_⟩
      obtain ⟨call0,-,rfl⟩ := mem_map.mp hcall
      simp
    refine hok _ _ _ _
      { live := hlive
        balanced := (balanced_record rfl rfl).mpr (ho.balanced.mpr hb)
        synced := (ho.synced.mpr hsync).saved _ _
        view := ⟨hview'.record.genuine,hview'.count,hview'.record.persisted⟩
        all := hall
        batch := rfl
        sound := hsound
        dispatchable := .inl hlaunched
        ahead := le_refl _
        recovers := hmode } hlaunched ?_ rfl ?_ ?_
    · simp [ToolBatchExecution.Same,ToolBatchExecution.mapCalls,Function.comp_def,
        ToolExecution.core]
    · exact fun hu => unpaused_record.mpr ⟨ho.unpaused.mpr hu,by simp⟩
    · rw [messagesAt_record hview'.genuine.le]
      exact hview.messagesAt_others ho

theorem wp_readyPlanned (ha : a.conversation=true) {messages : TurnMessages} {m : Message}
    (hm : m=toolUseMessage { toolCalls := calls })
    (h : Planned w t r e b messages.canonical calls s) {Q : TurnMessages → Run → World → Prop}
    (hX : Raises (Stopped w (.turn t)) X)
    (hok : ∀ r' e' b' s', Holding w (.turn t) r' e' b' (messages.canonical++[m]) s' →
      s'.Unpaused w → Q (messages.appendCanonical m) r' s') :
    (logic.of w).wp (do
      saveConversation a .toolUse (messages.appendCanonical m).canonical
      markToolBatchReady
      pure (messages.appendCanonical m)) r s Q X := by
  have hdelta : (messages.canonical++[m]).drop r.persistedCount=[m] := by
    rw [h.all]
    simp
  have hview : View r (messages.canonical++[m]) s := by
    refine ⟨h.view.genuine,by rw [h.all]; simp,?_⟩
    rw [h.all,take_left]
    have := h.view.persisted
    rwa [h.all,take_length] at this
  have huse : m.isUseOf b=true := by rw [hm]; exact h.uses
  rw [wp_bind,TurnMessages.appendCanonical_canonical]
  refine wp_saveConversation ha h.live h.balanced h.synced hview hX ?_ ?_ ?_
  · intro s' _ ho _ hrev
    rw [hdelta]
    refine .toolUse h.batch h.planned huse h.sound.nodup ?_
    have hseq := (h.view.others ho).genuine.lastSequence
    rw [hrev,messagesAt_revision] at hseq
    rw [h.cursor]
    exact hseq.ge
  · intro hnil
    rw [hdelta] at hnil
    cases hnil
  · intro s' c r' _ ho _ hrev hc hr' hlive hview'
    rw [hdelta] at hc hlive hview' ⊢
    have hseq := (h.view.others ho).genuine.lastSequence
    rw [hrev,messagesAt_revision] at hseq
    have hlast : e.lastSequence=s'.messages.length := h.cursor.trans hseq
    have hrev' : r'.revision=s'.revision+1 := by rw [hr',hc,hrev]
    have hcanonical : activeToolBatch (((s'.record (.append w .toolUse [m] c .acked)).messagesAt
        r'.revision).drop e.lastSequence) b=.ok (m.toolUses.map ToolUseBlock.call,[]) := by
      rw [hrev',messagesAt_append,hlast,drop_left]
      exact activeToolBatch_singleton huse h.sound.nodup
    have hahead : e.lastSequence≤r'.lastSequence := by
      rw [hr',hc,hlast]
      exact Nat.le_add_right _ _
    rw [wp_bind]
    refine wp_markToolBatchReady hlive ?_ ?_ hview' (by rw [hr']) h.batch hahead (by simp)
      hcanonical hX ?_
    · exact (balanced_record rfl rfl).mpr (ho.balanced.mpr h.balanced)
    · exact synced_record.mpr ⟨ho.synced.mpr h.synced,by simp,by simp⟩
    · intro r1 e1 b1 s1 hh _ _ _ hp _
      exact hok r1 e1 b1 s1 hh (hp (unpaused_record.mpr ⟨ho.unpaused.mpr h.unpaused,by simp⟩))

theorem wp_persistToolUses (ha : a.conversation=true) {resp : ModelResponse}
    {messages : TurnMessages} (h : Turning w t r e messages.canonical s) (hb : s.Balanced w)
    (hanchor : Anchored w r e messages.canonical s) (hne : resp.toolCalls≠[])
    {Q : TurnMessages → Run → World → Prop} (hX : Raises (Stopped w (.turn t)) X)
    (hok : ∀ messages' r' e' b' s', Holding w (.turn t) r' e' b' messages'.canonical s' →
      s'.Unpaused w → Q messages' r' s') :
    (logic.of w).wp (persistToolUses a resp messages) r s Q X := by
  -- the part after all text is persisted
  have hrest : ∀ (messages : TurnMessages) r s, Turning w t r e messages.canonical s →
      s.Balanced w → r.persistedCount=messages.canonical.length →
      s.Quiet w r.revision e.version →
      (logic.of w).wp (do
        planToolBatch a resp.toolCalls
        let messages := messages.appendCanonical (toolUseMessage { toolCalls := resp.toolCalls })
        saveConversation a .toolUse messages.canonical
        markToolBatchReady
        pure messages) r s Q X := by
    intro messages r s h hb hall hquiet
    rw [wp_bind]
    refine wp_planToolBatch h hb hall hquiet hne hX ?_
    intro r' e' b s' hplanned
    refine wp_readyPlanned ha rfl hplanned hX ?_
    intro r1 e1 b1 s1 hh hu
    exact hok _ r1 e1 b1 s1 hh hu
  unfold persistToolUses
  simp only [wp_bind,wp_get,h.live.durable,↓reduceIte]
  refine wp_saveTurn ha h hb hanchor hX ?_
  intro r1 s1 h1 hb1 hall1 hq1
  split
  · simp only [wp_bind]
    have htext : Message.IsText ⟨.assistant,[.text resp.text]⟩ := ⟨rfl,rfl⟩
    refine wp_saveTurn ha (h1.extend htext) hb1 (.inl ?_) hX ?_
    · rw [hall1]
      simp
    · intro r2 s2 h2 hb2 hall2 hq2
      have := hrest (messages.appendCanonical ⟨.assistant,[.text resp.text]⟩) r2 s2 h2 hb2 hall2 hq2
      simpa only [wp_bind,wp_pure] using this
  · have := hrest messages r1 s1 h1 hb1 hall1 hq1
    simpa only [wp_bind,wp_pure] using this
end Engine
end
end GudeAgents
