import GudeAgents.Refinement.Dispatch
/-!
# Preparing a dispatch
-/
namespace GudeAgents
open Framework List Logic World Execution ToolBatchExecution
section
variable [Host] {w : Nat} {mode : Mode} {r : Run} {e : Execution} {b : ToolBatchExecution}
  {ms : List Message} {s s' : World}
/-- The run holds a batch it may dispatch, and everything it has is persisted. -/
structure Holding (w : Nat) (mode : Mode) (r : Run) (e : Execution) (b : ToolBatchExecution)
    (ms : List Message) (s : World) : Prop where
  live : Live w mode r e s
  balanced : s.Balanced w
  synced : s.Synced w
  view : View r ms s
  all : r.persistedCount=ms.length
  batch : e.toolBatch=some b
  sound : b.Sound
  dispatchable : s.Dispatchable w b
  ahead : e.lastSequence≤r.lastSequence
  recovers : mode≠.reconcile

theorem Holding.others (h : Holding w mode r e b ms s) (ho : Others w s s') :
    Holding w mode r e b ms s' :=
  { h with
    live := h.live.others ho
    balanced := ho.balanced.mpr h.balanced
    synced := ho.synced.mpr h.synced
    view := h.view.others ho
    dispatchable := ho.dispatchable.mpr h.dispatchable }

/-- A recovery completes calls only once the manual outcome of its batch is finished. -/
def ToolBatchExecution.SettledIn (mode : Mode) (b : ToolBatchExecution) : Prop :=
  mode=.recover → b.resolution=none

omit [Host] in
theorem ToolBatchExecution.SettledIn.turn (t : Loop) : b.SettledIn (.turn t) := nofun

omit [Host] in
theorem ToolBatchExecution.SettledIn.of_eq {b' : ToolBatchExecution} (h : b.SettledIn mode)
    (heq : b'.resolution=b.resolution) : b'.SettledIn mode :=
  fun hm => heq.trans (h hm)

theorem Holding.settled (h : Holding w mode r e b ms s) (hset : b.SettledIn mode) :
    s.IsTurn w ∨ e.Unresolved := by
  cases mode with
  | turn t => exact .inl h.live.fits.turn
  | recover =>
    refine .inr fun b' hb' => ?_
    cases h.batch.symm.trans hb'
    exact hset rfl
  | reconcile => exact absurd rfl h.recovers

structure Cleared (w : Nat) (mode : Mode) (r : Run) (e : Execution) (ms : List Message)
    (s : World) : Prop where
  live : Live w mode r e s
  balanced : s.Balanced w
  synced : s.Synced w
  view : View r ms s
  all : r.persistedCount=ms.length
  idle : e.toolBatch=none
  base : s.TextBase w r.revision
  quiet : s.Quiet w r.revision e.version
  stored : e.version ≤ s.version
  start : e.startLastSequence≤r.lastSequence

/-- What an acknowledgement leaves of the record apart from the batch. -/
structure Execution.Acknowledged (e e' : Execution) (R q : Nat) : Prop where
  revision : e'.revision=R
  lastSequence : e'.lastSequence=q
  start : e'.startLastSequence=e.startLastSequence
  pendingPause : e'.pendingPause=e.pendingPause
  status : e'.status=e.status

omit [Host] in
theorem Execution.removeToolCalls_acknowledged (e : Execution) (R q v : Nat)
    (completed : List String) :
    e.Acknowledged { e.removeToolCalls R q completed with version := v } R q := by
  unfold Execution.removeToolCalls Execution.settleBatch
  split
  · exact ⟨rfl,rfl,rfl,rfl,rfl⟩
  · split <;> exact ⟨rfl,rfl,rfl,rfl,rfl⟩

omit [Host] in
theorem Execution.removeToolCalls_version (e : Execution) (R q : Nat) (completed : List String) :
    (e.removeToolCalls R q completed).version=e.version := by
  unfold Execution.removeToolCalls Execution.settleBatch
  split
  · rfl
  · split <;> rfl

omit [Host] in
theorem Execution.removeToolCalls_toolBatch (R q : Nat) (completed : List String)
    (hb : e.toolBatch=some b) : (e.removeToolCalls R q completed).toolBatch =
      if (b.complete completed).allCompleted then none else some (b.complete completed) := by
  simp only [Execution.removeToolCalls,hb,settleBatch_toolBatch]

omit [Host] in
theorem Execution.settleBatch_keepsIteration {e0 : Execution} {b' : ToolBatchExecution}
    (hb : e.toolBatch=some b) (hiter : b'.iteration=b.iteration) :
    e.KeepsIteration (e0.settleBatch b') := by
  intro b'' hb''
  rw [settleBatch_toolBatch] at hb''
  split at hb''
  · cases hb''
  · cases hb''
    exact ⟨b,hb,hiter⟩

omit [Host] in
theorem ToolBatchExecution.same_complete (b : ToolBatchExecution) (completed : List String) :
    b.Same (b.complete completed) := by
  unfold ToolBatchExecution.Same complete mapCalls
  rw [map_map]
  refine map_congr_left fun call _ => ?_
  simp only [Function.comp_apply]
  split <;> rfl

omit [Host] in
theorem ToolBatchExecution.Launched.complete (h : b.Launched) (completed : List String) :
    (b.complete completed).Launched := by
  obtain ⟨call,hmem,hst⟩ := h
  refine ⟨_,mem_map_of_mem hmem,?_⟩
  split
  · simp
  · exact hst

def openCalls (calls : List ToolCall) (stored : List ToolExecution) : List ToolCall :=
  ((calls.zip stored).filter fun (_,stored) => stored.status != .completed).map Prod.fst

section
variable {calls : List ToolCall} {stored : List ToolExecution}
section
variable (h : List.Forall₂ (fun call stored => ToolExecution.Describes stored call) calls stored)
include h
theorem openCalls_describes :
    ∀ call∈openCalls calls stored, ∃ x∈stored, x.Describes call ∧ x.status≠.completed := by
  induction h with
  | nil => simp [openCalls]
  | @cons call x cs xs hd _ ih =>
    intro c hc
    by_cases hx : x.status=.completed
    · obtain ⟨y,hy,hrest⟩ := ih c (by simpa [openCalls,hx] using hc)
      exact ⟨y,.tail _ hy,hrest⟩
    · have hc' : c=call ∨ c∈openCalls cs xs := by simpa [openCalls,hx] using hc
      rcases hc' with rfl | hc'
      · exact ⟨x,.head _,hd,hx⟩
      · obtain ⟨y,hy,hrest⟩ := ih c hc'
        exact ⟨y,.tail _ hy,hrest⟩

theorem openCalls_covers : ∀ x∈stored, x.status≠.completed →
      x.callID∈(openCalls calls stored).map (·.toolUseID) := by
  induction h with
  | nil => simp
  | @cons call y cs ys hd _ ih =>
    intro x hx hst
    have hcons : (openCalls cs ys).map (·.toolUseID) ⊆
        (openCalls (call::cs) (y::ys)).map (·.toolUseID) := by
      by_cases hy : y.status=.completed <;> simp [openCalls,hy]
    rcases mem_cons.mp hx with rfl | hx
    · simp [openCalls,hst,hd.1]
    · exact hcons (ih x hx hst)

theorem openCalls_sublist :
    ((openCalls calls stored).map (·.toolUseID)).Sublist (stored.map (·.callID)) := by
  induction h with
  | nil => simp [openCalls]
  | @cons call x _ _ hd _ ih =>
    by_cases hx : x.status=.completed
    · simpa [openCalls,hx] using ih.cons x.callID
    · simpa [openCalls,hx,hd.1] using ih.cons_cons call.toolUseID
end
end
omit [Host] in
theorem ToolBatchExecution.complete_approvalFor (b : ToolBatchExecution) (completed : List String)
    (id : String) : (b.complete completed).approvalFor id=b.approvalFor id := by
  unfold approvalFor complete mapCalls
  rw [List.findSome?_map]
  congr 1
  funext call
  simp only [Function.comp_apply]
  split <;> rfl

omit [Host] in
theorem realigned_eq_none {requested : List ToolCall} {f : String → Option Decision} {id : String}
    (h : f id=none) :
    ((requested.zip (requested.map fun c => f c.toolUseID)).reverse.findSome? fun (c,d) =>
      if c.toolUseID=id then d else none)=none := by
  rw [List.findSome?_eq_none_iff,← map_prod_left_eq_zip]
  intro x hx
  obtain ⟨c,-,rfl⟩ := mem_map.mp (mem_reverse.mp hx)
  simp only [ite_eq_right_iff]
  rintro rfl
  exact h

namespace Engine
variable {Q : Unit → Run → World → Prop} {X : Error → Run → World → Prop}
variable {answered : List String}
theorem wp_removeToolCalls (h : Holding w mode r e b ms s) {completed : List String}
    (hboundary : Boundary (s.messagesAt r.revision) b answered)
    (hanswers : ∀ id∈completed, id∈answered) (hset : b.SettledIn mode)
    (hX : Raises (Stopped w mode) X)
    (hclear : ∀ r' e' s', Cleared w mode r' e' ms s' → (s.Unpaused w → s'.Unpaused w) →
      e'.pendingPause=e.pendingPause → Q () r' s')
    (hleft : ∀ r' e' s', Holding w mode r' e' (b.complete completed) ms s' →
      (s.Unpaused w → s'.Unpaused w) → e'.pendingPause=e.pendingPause →
      e'.revision=r'.revision → Boundary (s'.messagesAt r'.revision) (b.complete completed) answered →
      Q () r' s') : (logic.of w).wp (removeToolCalls completed) r s Q X := by
  refine wp_persist h.live h.balanced rfl hX ?_ ?_ ?_
  · rintro next ⟨⟩
    refine ⟨e.removeToolCalls_version _ _ _,(e.removeToolCalls_acknowledged _ _ 0 _).status,
      fun _ => ?_⟩
    simp only [Execution.removeToolCalls,h.batch]
    exact settleBatch_keepsIteration h.batch rfl
  · rintro next s' ⟨⟩ ho hv
    have hl := h.live.others ho
    have hview := h.view.others ho
    have hbody : LegalBody s' w e (.removeToolCalls completed) (e.removeToolCalls
        (s'.cursorOf w).revision (s'.cursorOf w).lastSequence completed) := by
      refine .removeToolCalls h.batch (ho.dispatchable.mpr h.dispatchable)
        (hview.genuine_cursorOf hl) ?_ ?_ hanswers ((h.others ho).settled hset)
      · intro _
        rw [hl.cursor]
        exact h.ahead
      · rw [hl.cursor,h.view.messagesAt_others ho]
        exact hboundary
    rw [hl.cursor] at hbody
    exact hbody
  · rintro next s' ⟨⟩ ho hv hver hv' hlive
    have hview := h.view.others ho
    have hat : s'.At (e.version-1) e := (hv.hand_stored (h.live.others ho).hand).2.2
    have hstart := (hv.crossStore.placed hat h.batch).start
    have hack := e.removeToolCalls_acknowledged r.revision r.lastSequence (e.version+1) completed
    have hbatch := removeToolCalls_toolBatch r.revision r.lastSequence completed h.batch
    generalize hnext : ({ e.removeToolCalls r.revision r.lastSequence completed with
      version := e.version + 1 } : Execution)=e' at hack hlive hv' ⊢
    have hbatch : e'.toolBatch=if (b.complete completed).allCompleted then none
        else some (b.complete completed) := by
      rw [← hnext]
      exact hbatch
    have hver' : e'.version=e.version+1 := by rw [← hnext]
    have hpaused : s.Unpaused w →
        (s'.record (.save w (.removeToolCalls completed) e' .acked)).Unpaused w := fun hu =>
      unpaused_record.mpr ⟨ho.unpaused.mpr hu,by simp⟩
    have hsync := (ho.synced.mpr h.synced).saved (.removeToolCalls completed) e'
    have hbal : (s'.record (.save w (.removeToolCalls completed) e' .acked)).Balanced w :=
      (balanced_record rfl rfl).mpr (ho.balanced.mpr h.balanced)
    have hview' : View { r with execution := some e' } ms
        (s'.record (.save w (.removeToolCalls completed) e' .acked)) :=
      ⟨hview.record.genuine,hview.count,hview.record.persisted⟩
    by_cases hall : (b.complete completed).allCompleted=true
    · rw [if_pos hall] at hbatch
      refine hclear _ e' _ ?_ hpaused hack.pendingPause
      refine { live := hlive, balanced := hbal, synced := hsync, view := hview', all := h.all,
               idle := hbatch, base := ?_, quiet := ?_, stored := ?_, start := ?_ }
      · refine ⟨.removeToolCalls completed,e',r.revision,by simp,?_,hview.genuine.seed_le,le_refl _,
          fun k h1 h2 => absurd h1 (by simpa using h2)⟩
        simp [World.textBase?,hbatch,hack.revision]
      · refine ⟨s'.log,_,prefix_rfl,⟨rfl,hbatch,hack.revision⟩,?_⟩
        intro k st hk hlt _
        have hk : s'.version+1≤k := version_saved ▸ hk
        omega
      · rw [version_saved]
        omega
      · rw [hack.start]
        exact hstart.trans h.ahead
    · rw [if_neg hall] at hbatch
      refine hleft _ e' _ ?_ hpaused hack.pendingPause hack.revision ?_
      · refine { live := hlive, balanced := hbal, synced := hsync, view := hview', all := h.all,
                 batch := hbatch, sound := hv'.hand_sound hlive.hand hbatch, dispatchable := ?_,
                 ahead := hack.lastSequence.le, recovers := h.recovers }
        rcases h.dispatchable.mono (ho.isPrefix.trans record_isPrefix) with hd | hd
        · exact .inl (hd.complete completed)
        · obtain ⟨i,resp,ap,hcl,hap,hne,hids⟩ := hd
          exact .inr ⟨i,resp,ap,hcl,hap,hne,by
            rw [(b.same_complete completed).callIDs]
            exact hids⟩
      · rw [messagesAt_record hview.genuine.le,h.view.messagesAt_others ho]
        exact hboundary.same (b.same_complete completed)

structure Settles (b b' : ToolBatchExecution) (answered : List String) : Prop where
  same : b.Same b'
  approvals : ∀ id, b'.approvalFor id=b.approvalFor id
  resolution : b'.resolution=b.resolution
  done : ∀ stored∈b'.calls, stored.callID∈answered → stored.status=.completed

theorem wp_completeCanonicalToolResults (h : Holding w mode r e b ms s) (hset : b.SettledIn mode)
    (hboundary : Boundary (s.messagesAt r.revision) b answered) (hX : Raises (Stopped w mode) X)
    (hclear : ∀ r' e' s', Cleared w mode r' e' ms s' → (s.Unpaused w → s'.Unpaused w) → Q () r' s')
    (hleft : ∀ r' e' b' s', Holding w mode r' e' b' ms s' → (s.Unpaused w → s'.Unpaused w) →
      (answered≠[] → e'.revision=r'.revision) → Settles b b' answered →
      Boundary (s'.messagesAt r'.revision) b' answered → Q () r' s') :
    (logic.of w).wp (completeCanonicalToolResults answered) r s Q X := by
  unfold completeCanonicalToolResults
  split
  · next hnil =>
    refine hleft r e b s h id (absurd hnil) ⟨.refl b,fun _ => rfl,rfl,?_⟩ hboundary
    simp [hnil]
  · refine wp_removeToolCalls h hboundary (fun _ hid => hid) hset hX
      (fun r' e' s' hc hp _ => hclear r' e' s' hc hp) ?_
    intro r' e' s' hh hp _ hrev hb'
    refine hleft r' e' _ s' hh hp (fun _ => hrev)
      ⟨b.same_complete answered,b.complete_approvalFor answered,rfl,?_⟩ hb'
    intro stored hmem hid
    obtain ⟨call,-,rfl⟩ := mem_map.mp hmem
    have hcall : call.callID∈answered := by
      split at hid <;> exact hid
    rw [if_pos hcall]

omit [Host] in
theorem persistedApprovalDecisions_fit (b : ToolBatchExecution) (calls : List ToolCall) :
    (∃ ds, persistedApprovalDecisions (some b) calls=some ds ∧
      ds=calls.map fun call => b.approvalFor call.toolUseID) ∨
    persistedApprovalDecisions (some b) calls=none ∧
      ∀ call∈calls, b.approvalFor call.toolUseID=none := by
  unfold persistedApprovalDecisions
  simp only
  split
  · exact .inl ⟨_,rfl,rfl⟩
  · next hnone =>
    refine .inr ⟨rfl,fun call hcall => ?_⟩
    simp only [any_map,any_eq_true,not_exists,not_and,Function.comp_apply] at hnone
    exact Option.not_isSome_iff_eq_none.mp (hnone call hcall)

structure Prepared (w : Nat) (mode : Mode) (b : ToolBatchExecution) (ms : List Message)
    (calls : List ToolCall) (answered : List String)
    (decisions : Option (List (Option Decision))) (r : Run) (s : World) : Prop where
  boundary : AtBoundary w mode b ms calls answered r s
  nonempty : calls≠[]
  synced : s.Synced w
  settled : b.SettledIn mode
  decisions : DecisionsFit b calls decisions

variable {decisions : Option (List (Option Decision))}
theorem prepared_openCalls {calls : List ToolCall} (h : Holding w mode r e b ms s)
    (hu : s.Unpaused w) (hset : b.SettledIn mode)
    (hboundary : Boundary (s.messagesAt r.revision) b answered)
    (hcurrent : answered≠[] → e.revision=r.revision)
    (hdesc : List.Forall₂ (fun call stored => ToolExecution.Describes stored call) calls b.calls)
    (hdone : ∀ stored∈b.calls, stored.callID∈answered → stored.status=.completed)
    (hd : DecisionsFit b (openCalls calls b.calls) decisions) :
    Prepared w mode b ms (openCalls calls b.calls) answered decisions r s := by
  refine ⟨⟨e,b,?_,.refl b,hu⟩,?_,h.synced,hset,hd⟩
  · refine { live := h.live, balanced := h.balanced, view := h.view, all := h.all,
             batch := h.batch, sound := h.sound, dispatchable := h.dispatchable,
             ahead := h.ahead, recovers := h.recovers, boundary := hboundary,
             current := hcurrent, holds := ?_, fresh := ?_, nodup := ?_,
             covers := openCalls_covers hdesc }
    · intro call hcall
      obtain ⟨x,hx,hxd,-⟩ := openCalls_describes hdesc call hcall
      exact ⟨x,hx,hxd⟩
    · intro call hcall hans
      obtain ⟨x,hx,hxd,hst⟩ := openCalls_describes hdesc call hcall
      exact hst (hdone x hx (hxd.1 ▸ hans))
    · exact (openCalls_sublist hdesc).nodup h.sound.nodup
  · intro hnil
    -- a stored batch always has a call that is not completed
    have hinc := h.sound.incomplete
    rw [allCompleted,all_eq_false] at hinc
    obtain ⟨x,hx,hst⟩ := hinc
    have := openCalls_covers hdesc x hx (by simpa using hst)
    rw [hnil] at this
    cases this

theorem wp_prepareToolBatch {requested : List ToolCall} (h : Holding w mode r e b ms s)
    (hset : b.SettledIn mode) (hu : s.Unpaused w) (hd : decisions=none ∨
      decisions=some (requested.map fun call => b.approvalFor call.toolUseID))
    {Q : List ToolCall×Option (List (Option Decision)) → Run → World → Prop}
    (hX : Raises (Stopped w mode) X)
    (hclear : ∀ r' e' s', Cleared w mode r' e' ms s' → s'.Unpaused w → Q ([],none) r' s')
    (hready : ∀ r' s' b' calls answered ds, Prepared w mode b' ms calls answered ds r' s' →
      Q (calls,ds) r' s') : (logic.of w).wp (prepareToolBatch ms requested decisions) r s Q X := by
  unfold prepareToolBatch
  simp only [wp_bind,wp_get,h.live.durable,h.live.execution,h.batch,↓reduceIte,Option.bind_some]
  rw [wp_ofExcept]
  cases hactive : activeToolBatchFromMessages ms b with
  | error err => exact hX _ _ _ ⟨e,h.live,h.balanced⟩
  | ok out =>
    obtain ⟨calls,answered⟩ := out
    obtain ⟨suffix,hsuffix,hok⟩ := activeToolBatchFromMessages_ok hactive
    have hpersisted := h.view.persisted
    rw [h.all,take_length] at hpersisted
    have hboundary : Boundary (s.messagesAt r.revision) b answered :=
      .of_active hok (hsuffix.trans hpersisted)
    simp only
    split
    · exact hX _ _ _ ⟨e,h.live,h.balanced⟩
    · rw [wp_bind]
      refine wp_completeCanonicalToolResults h hset hboundary hX ?_ ?_
      · intro r' e' s' hc hp
        simp only [wp_bind,wp_get,hc.live.execution,hc.idle,Option.bind_some]
        exact hclear r' e' s' hc (hp hu)
      · intro r' e' b' s' hh hp hcurrent hsettles hb'
        have hdesc : List.Forall₂ (fun call stored => ToolExecution.Describes stored call) calls
            b'.calls := activeToolBatch_calls (by rw [activeToolBatch_same hsettles.same]; exact hok)
        have hprep := fun ds (hfit : DecisionsFit b' (openCalls calls b'.calls) ds) =>
          prepared_openCalls hh (hp hu) (hset.of_eq hsettles.resolution) hb' hcurrent hdesc
            hsettles.done hfit
        simp only [wp_bind,wp_get,hh.live.execution,hh.batch,Option.bind_some]
        rcases persistedApprovalDecisions_fit b' (openCalls calls b'.calls) with
          ⟨ds,hds,hfit⟩ | ⟨hnone,hall⟩
        · simp only [openCalls] at hds
          rw [hds]
          exact hready _ _ _ _ _ _ (hprep _ (.inr (by rw [hfit])))
        · simp only [openCalls] at hnone
          rw [hnone]
          rcases hd with rfl | rfl
          · exact hready _ _ _ _ _ _ (hprep none (.inl rfl))
          · -- no remaining call has a stored decision, so none is realigned
            refine hready _ _ _ _ _ _ (hprep _ (.inr (congrArg some ?_)))
            refine map_congr_left fun call hcall => ?_
            rw [hall call hcall]
            exact realigned_eq_none (by rw [← hsettles.approvals]; exact hall call hcall)
end Engine
end
end GudeAgents
