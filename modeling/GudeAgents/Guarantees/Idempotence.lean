import GudeAgents.Guarantees.Dispatching
import GudeAgents.Guarantees.Refusals
import GudeAgents.Refinement.Recovery
/-!
# Recovering twice

A recovery that returns without an error leaves nothing to recover, for every stored record and
conversation whose unfinished calls can be settled.
-/
namespace GudeAgents
open Framework List Logic World ToolBatchExecution Request Execution
section
variable {w : Nat} {a : Agent} {c : Context} {s s' s0 : World} {e : Execution}
  {b : ToolBatchExecution} {r : Run} {ms : List Message} {calls : List ToolCall}
/-- A call of a worker while no other worker acts; contexts may be cancelled before it. -/
def World.PerformAlone (w : Nat) (op : Op) (s : World) (answer : op.Answer) (s' : World) : Prop :=
  ∃ t, Relation.ReflTransGen (fun s s' => ∃ w cause, s' = s.record (.cancelled w cause)) s t ∧
    World.Perform w op t answer s'
def Event.isHandler : Event → Bool
  | .handler .. => true
  | _ => false

/-- The stores and the started handlers stay. -/
structure World.Undisturbed (s s' : World) : Prop where
  seed : s'.seedMessages = s.seedMessages
  stored : s'.stored = s.stored
  appended : s'.appended = s.appended
  handlers : s'.log.filter Event.isHandler = s.log.filter Event.isHandler

namespace World.Undisturbed
theorem refl (s : World) : s.Undisturbed s := ⟨rfl,rfl,rfl,rfl⟩

theorem record {ev : Event} (h : s0.Undisturbed s) (hstored : ev.stored? = none)
    (happended : ev.appended? = none) (hhandler : ev.isHandler = false) :
    s0.Undisturbed (s.record ev) := by
  refine ⟨h.seed,?_,?_,?_⟩
  · rw [stored_record,hstored,h.stored,Option.toList_none,append_nil]
  · rw [appended_record,happended,h.appended,Option.toList_none,append_nil]
  · rw [record_log,filter_append,h.handlers]
    simp [hhandler]

theorem cancelled (h : s0.Undisturbed s) (hcancelled : Relation.ReflTransGen
    (fun s s' => ∃ w cause, s' = s.record (.cancelled w cause)) s s') : s0.Undisturbed s' := by
  induction hcancelled with
  | refl => exact h
  | tail _ hstep ih =>
    obtain ⟨w',cause,rfl⟩ := hstep
    exact ih.record rfl rfl rfl

theorem current? (h : s0.Undisturbed s) : s.current? = s0.current? := by
  unfold World.current? World.records
  rw [h.stored]

theorem messages (h : s0.Undisturbed s) : s.messages = s0.messages := by
  unfold World.messages
  rw [h.seed,h.appended]
end World.Undisturbed
/-- There is nothing to recover: the record is paused, or it has no batch. -/
def Execution.Recovered (e : Execution) : Prop :=
  e.pendingPause = none ∧
    (e.status = .paused ∧ e.phase = .paused ∧ e.pause.isSome ∨ e.toolBatch = none)
def World.Recovered (s : World) : Prop := ∃ e, s.current? = some e ∧ e.Recovered

/-- Some call of the batch is not completed, and a call without an ID has its result or its outcome:
it is completed, the conversation has a result for it, or a claim names it. -/
structure ToolBatchExecution.Settleable (b : ToolBatchExecution) (suffix : List Message) : Prop where
  unfinished : b.allCompleted = false
  named : ∀ call ∈ b.calls, call.callID = "" → call.status = .completed ∨
    "" ∈ resultIDs suffix.tail ∨ ∃ claim, b.resolution = some claim ∧ claim.callID = ""
/-- The batch of a running execution that one recovery settles for good. -/
def World.Settleable (s : World) : Prop :=
  ∀ e b, s.current? = some e → e.status = .running → e.pendingPause = none →
    e.toolBatch = some b → b.Settleable (s.messages.drop (e.activeFrom b))

theorem ToolBatchExecution.mem_complete {completed : List String} {call' : ToolExecution}
    (h : call' ∈ (b.complete completed).calls) : ∃ call ∈ b.calls, call'.callID = call.callID ∧
      (call.status = .completed ∨ call.callID ∈ completed → call'.status = .completed) := by
  obtain ⟨call,hcall,rfl⟩ := mem_map.mp h
  refine ⟨call,hcall,?_⟩
  split
  · exact ⟨rfl,fun _ => rfl⟩
  · next hid => exact ⟨rfl,fun h => h.resolve_right hid⟩

namespace Engine
abbrev alone (w : Nat) : Logic effects World :=
  @always effects World (World.PerformAlone w) fun _ _ => True

/-- What holds after every run of one worker on its own that ends without an error. -/
abbrev Ends (w : Nat) {α : Type} (m : Engine α) (r : Run) (s : World)
    (Q : α → Run → World → Prop) : Prop := (alone w).wp m r s Q (fun _ _ _ => True)
def Holds (b : ToolBatchExecution) (r : Run) : Prop :=
  r.executionDurable = true ∧
    ∃ e, r.execution = some e ∧ e.pendingPause = none ∧ e.toolBatch = some b
def Settled (b : ToolBatchExecution) (r : Run) (s : World) : Prop :=
  r.execution.bind (·.toolBatch) = none ∧ s.Recovered ∨ b.allCompleted = false ∧ Holds b r

/-- A call without an ID is completed or has its result; what is left may be dispatched. -/
def Resulted (b : ToolBatchExecution) (ms : List Message) : Prop :=
  ∀ call ∈ b.calls, call.callID = "" → call.status = .completed ∨ "" ∈ resultIDs ms.tail
def Dispatchable (b : ToolBatchExecution) : Prop :=
  b.allCompleted = false ∧ ∀ call ∈ b.calls, call.callID = "" → call.status = .completed

/-- The calls that a dispatch is about to settle. -/
structure Awaits (calls : List ToolCall) (r : Run) : Prop where
  nonempty : calls ≠ []
  ids : ∀ call ∈ calls, call.toolUseID ≠ ""
  holds : ∃ b, Holds b r ∧ ∀ stored ∈ b.calls, stored.status ≠ .completed →
    stored.callID ∈ calls.map (·.toolUseID)

theorem Holds.batch (h : Holds b r) : r.execution.bind (·.toolBatch) = some b := by
  obtain ⟨-,e,he,-,hb⟩ := h
  rw [he]
  exact hb

theorem Holds.congr {r' : Run} (h : Holds b r) (he : r'.execution = r.execution)
    (hd : r'.executionDurable = r.executionDurable) : Holds b r' := by
  unfold Holds
  rw [he,hd]
  exact h

theorem Resulted.complete {completed : List String} (h : Resulted b ms)
    (hids : "" ∈ resultIDs ms.tail → "" ∈ completed) :
    ∀ call ∈ (b.complete completed).calls, call.callID = "" → call.status = .completed := by
  intro call' hcall' hid
  obtain ⟨call,hcall,hsame,hdone⟩ := mem_complete hcall'
  rw [hsame] at hid
  exact hdone ((h call hcall hid).imp_right fun hres => hid ▸ hids hres)

section
variable {α β : Type} {m : Engine α} {f : α → Engine β} {Q : β → Run → World → Prop}
theorem Ends.bind {P : α → Run → World → Prop} (h : Ends w m r s P)
    (hf : ∀ value r' s', P value r' s' → Ends w (f value) r' s' Q) : Ends w (m >>= f) r s Q :=
  wp_bind.mpr (wp_mono h hf fun _ _ _ h => h)

theorem Ends.ofExcept {x : Except Error α} (hf : ∀ value, x = .ok value → Ends w (f value) r s Q) :
    Ends w (Routine.ofExcept x >>= f) r s Q := by
  rw [Ends,wp_bind,wp_ofExcept]
  split
  · exact hf _ rfl
  · trivial
end
section
variable {Q : Unit → Run → World → Prop} {X : Error → Run → World → Prop}
theorem wp_loadAlone {G : Op → World → Prop} {Q : Except StoreFault Execution → Run → World → Prop}
    (hG : G .load s) (hok : ∀ e s', s.current? = some e → s.Undisturbed s' → Q (.ok e) r s')
    (herr : ∀ fault s', s.Undisturbed s' → Q (.error fault) r s') :
    (@always effects World (World.PerformAlone w) G).wp loadExecution r s Q X := by
  refine ⟨hG,?_⟩
  rintro answer s' ⟨t,hcancelled,⟨e,hcurrent,rfl,rfl⟩ | ⟨⟨fault,rfl⟩,rfl⟩⟩
  · have hsame := (Undisturbed.refl s).cancelled hcancelled
    rw [hsame.current?] at hcurrent
    exact hok e _ hcurrent (hsame.record rfl rfl rfl)
  · exact herr fault _ ((Undisturbed.refl s).cancelled hcancelled)

private theorem ends_loadAfter {label : ReadLabel} {after : Nat}
    {Q : Except StoreFault ConversationSnapshot → Run → World → Prop}
    (hok : ∀ cursor s', Q (.ok ⟨s.messages.drop after,cursor⟩) r s')
    (herr : ∀ fault s', Q (.error fault) r s') : Ends w (loadAfter label after) r s Q := by
  refine ⟨trivial,?_⟩
  rintro answer s' ⟨t,hcancelled,⟨rfl,rfl⟩ | ⟨⟨fault,rfl⟩,rfl⟩⟩
  · have h := hok t.cursor (t.record (.read w label after t.cursor))
    rw [← ((Undisturbed.refl s).cancelled hcancelled).messages] at h
    exact h
  · exact herr fault _

private theorem wp_saveAlone {label : SaveLabel} {next : Execution}
    {Q : Except StoreFault Unit → Run → World → Prop}
    (hok : ∀ s', s'.current? = some { next with version := next.version + 1 } →
      Q (.ok ()) { r with execution := some { next with version := next.version + 1 } } s')
    (herr : ∀ fault s', Q (.error fault) r s') : (alone w).wp (saveExecution label next) r s Q X := by
  refine ⟨trivial,?_⟩
  rintro answer s' ⟨t,-,verdict,-,rfl,hanswer⟩
  cases verdict with
  | acked =>
    cases hanswer
    exact hok _ (by simp [World.current?,World.records,stored_record,Event.stored?,
      Verdict.committed])
  | lost | refused =>
    obtain ⟨fault,rfl⟩ := hanswer
    exact herr fault _

section
variable {label : SaveLabel} {change : Execution → Except Error Execution}
private theorem wp_persistAlone (hd : r.executionDurable = true) (hX : ∀ err s', X err r s')
    (hq : ∀ e next s', r.execution = some e → change e = .ok next →
      s'.current? = some { next with version := next.version + 1 } →
      Q () { r with execution := some { next with version := next.version + 1 } } s') :
    (alone w).wp (persistExecution label change) r s Q X := by
  unfold persistExecution
  rw [wp_bind,wp_get,if_pos hd]
  cases he : r.execution with
  | none => exact hX _ s
  | some e =>
    simp only [wp_bind]
    cases hchange : change e with
    | error err => exact hX _ s
    | ok next =>
      exact wp_saveAlone (fun s' hs' => hq e next s' he hchange hs') fun _ s' => hX _ s'

private theorem ends_persistExecution (hd : r.executionDurable = true)
    (hq : ∀ next s', (∃ e, r.execution = some e ∧ change e = .ok next) →
      s'.current? = some { next with version := next.version + 1 } →
      Q () { r with execution := some { next with version := next.version + 1 } } s') :
    Ends w (persistExecution label change) r s Q :=
  wp_persistAlone hd (fun _ _ => trivial) fun e next s' he hnext => hq next s' ⟨e,he,hnext⟩

/-- A write that settles the batch leaves nothing to recover, or the batch with an open call. -/
private theorem ends_settleBatch (b' : ToolBatchExecution) (h : Holds b r)
    (hchange : ∀ e next, e.toolBatch = some b → change e = .ok next →
      ∃ R q, next = (e.withCursor R q).settleBatch b') :
    Ends w (persistExecution label change) r s fun _ r' s' => Settled b' r' s' := by
  obtain ⟨hd,e,he,hp,hb⟩ := h
  refine ends_persistExecution hd ?_
  rintro next s' ⟨e',he',hnext⟩ hcurrent
  cases he.symm.trans he'
  obtain ⟨R,q,rfl⟩ := hchange e next hb hnext
  unfold settleBatch at hcurrent ⊢
  split at hcurrent
  · next hall =>
    rw [if_pos hall]
    exact .inl ⟨rfl,_,hcurrent,hp,.inr rfl⟩
  · next hall =>
    rw [if_neg hall]
    exact .inr ⟨by simpa using hall,hd,_,rfl,hp,rfl⟩
end
private theorem ends_saveConversation {label : AppendLabel}
    (hq : ∀ r' s', r'.execution = r.execution → r'.executionDurable = r.executionDurable →
      Q () r' s') : Ends w (saveConversation a label ms) r s Q := by
  unfold Ends saveConversation
  rw [wp_bind,wp_get]
  split
  · split
    · trivial
    · split
      · exact hq r s rfl rfl
      · refine wp_bind.mpr ⟨trivial,fun answer s' _ => ?_⟩
        cases answer with
        | error fault => trivial
        | ok cursor => exact hq _ s' rfl rfl
  · exact hq r s rfl rfl

private theorem ends_removeToolCalls {completed : List String} (h : Holds b r) :
    Ends w (removeToolCalls completed) r s fun _ r' s' => Settled (b.complete completed) r' s' := by
  refine ends_settleBatch _ h fun e next hb hnext => ?_
  cases hnext
  simp only [Execution.removeToolCalls,hb]
  exact ⟨_,_,rfl⟩

private theorem ends_completeCanonicalToolResults {completed : List String} (h : Holds b r)
    (hopen : b.allCompleted = false) : Ends w (completeCanonicalToolResults completed) r s
      fun _ r' s' => Settled (b.complete completed) r' s' := by
  unfold completeCanonicalToolResults
  split
  · next hnil =>
    have hsame : b.complete [] = b := by
      simp [complete,mapCalls]
    rw [hnil,hsame]
    exact .inr ⟨hopen,h⟩
  · exact ends_removeToolCalls h

private theorem ends_visibleTools (tools : List Tool) :
    Ends w (visibleTools a tools) r s fun _ r' _ => r' = r := by
  induction tools generalizing s with
  | nil => rfl
  | cons t rest ih =>
    have hvisible : Ends w (isVisible a t) r s fun _ r' _ => r' = r := by
      unfold isVisible
      cases a.toolVisibility with
      | true => exact ⟨trivial,fun _ _ _ => rfl⟩
      | false => rfl
    refine hvisible.bind ?_
    rintro visible _ s' rfl
    exact (ih (s := s')).bind fun _ _ _ h => h

private theorem ends_markToolBatchReady (h : Holds b r) (hplanned : b.allPlanned = true)
    (hb : b.Settleable ms) : Ends w markToolBatchReady r s
      fun _ r' _ => ∃ b', Holds b' r' ∧ b'.Settleable ms := by
  obtain ⟨hd,e,he,hp,hbatch⟩ := h
  refine ends_persistExecution hd ?_
  rintro next s' ⟨e',he',hnext⟩ -
  cases he.symm.trans he'
  obtain ⟨b',hb',-,rfl⟩ := markReady_ok hnext
  cases hbatch.symm.trans hb'
  refine ⟨_,⟨hd,_,rfl,hp,rfl⟩,?_,?_⟩
  · obtain ⟨call,hcall,-⟩ := all_eq_false.mp hb.unfinished
    exact all_eq_false.mpr ⟨_,mem_map_of_mem hcall,by simp⟩
  · rintro _ hmem hid
    obtain ⟨call,hcall,rfl⟩ := mem_map.mp hmem
    have hst : call.status = .planned := by simpa using all_eq_true.mp hplanned call hcall
    exact .inr ((hb.named call hcall hid).resolve_left (by simp [hst]))
end
section
variable [Host]
private theorem ends_recoverToolUses (h : Holds b r) (hb : b.Settleable ms) :
    Ends w (recoverToolUses a ms) r s fun out r' _ =>
      ∃ b', Holds b' r' ∧ b'.Settleable out := by
  unfold Ends recoverToolUses
  rw [wp_bind,wp_get]
  simp only [h.batch]
  split
  · next hplanned =>
    have hmark : ∀ out r' s', r'.execution = r.execution →
        r'.executionDurable = r.executionDurable → b.Settleable out → Ends w (do
          let _ ← Routine.ofExcept (activeToolBatch out b)
          markToolBatchReady
          pure out) r' s' fun out r' _ => ∃ b', Holds b' r' ∧ b'.Settleable out :=
      fun out r' s' he hd hb' => .ofExcept fun _ _ =>
        (ends_markToolBatchReady (h.congr he hd) hplanned hb').bind fun _ _ _ h => h
    unfold restoreToolUses
    rw [wp_bind]
    split
    · next hnil =>
      split
      · trivial
      · -- what is restored has no result
        subst hnil
        exact wp_bind.mpr (ends_saveConversation fun r' s' he hd =>
          hmark _ r' s' he hd ⟨hb.unfinished,hb.named⟩)
    · exact hmark ms r s rfl rfl hb
  · exact ⟨b,h,hb⟩

omit [Host] in
theorem ends_finishResolution {claim : ToolResolutionClaim} (out : List Message) (h : Holds b r)
    (hb : b.Settleable ms) (hclaim : b.resolution = some claim)
    (hsub : resultIDs ms.tail ⊆ resultIDs out.tail) : Ends w (do
      let r ← Routine.get
      persistExecution .finishResolution fun e =>
        e.finishResolution r.revision r.lastSequence claim.callID
      pure out) r s fun out r' s' => ∃ b', Settled b' r' s' ∧ Resulted b' out := by
  refine Ends.bind (f := fun _ => pure out) (ends_settleBatch
    { b.complete [claim.callID] with resolution := none } h ?_) ?_
  · intro e next hbatch hnext
    unfold finishResolution at hnext
    simp only [hbatch,hclaim,ne_eq,not_true_eq_false,if_false] at hnext
    cases hnext
    exact ⟨_,_,rfl⟩
  · intro _ r' s' hsettled
    refine ⟨_,hsettled,?_⟩
    intro call' hcall' hid
    obtain ⟨call,hcall,hsame,hdone⟩ := mem_complete hcall'
    rw [hsame] at hid
    rcases hb.named call hcall hid with hst | hres | ⟨claim',hclaim',hempty⟩
    · exact .inl (hdone (.inl hst))
    · exact .inr (hsub hres)
    · cases hclaim.symm.trans hclaim'
      exact .inl (hdone (.inr (by simp [hid,hempty])))

private theorem ends_recoverResolution (h : Holds b r) (hb : b.Settleable ms) :
    Ends w (recoverResolution a ms) r s fun out r' s' =>
      ∃ b', Settled b' r' s' ∧ Resulted b' out := by
  unfold Ends recoverResolution
  rw [wp_bind,wp_get]
  simp only [h.batch]
  split
  · next hsome =>
    obtain ⟨claim,hclaim⟩ := Option.isSome_iff_exists.mp hsome
    unfold finishResolutionClaim
    rw [wp_bind,wp_get]
    simp only [h.batch,hclaim]
    refine Ends.ofExcept fun found hactive => ?_
    obtain ⟨first,rest,rfl,-⟩ := activeToolBatch_ok hactive
    unfold writeResolution Ends
    dsimp only
    rw [wp_bind]
    split
    · split
      · trivial
      · exact ends_finishResolution (first :: rest) h hb hclaim fun _ h => h
    · refine wp_bind.mpr (ends_saveConversation fun r' s' he hd =>
        ends_finishResolution (first :: rest ++ _) (h.congr he hd) hb hclaim ?_)
      simp [resultIDs]
  · next hnone =>
    refine ⟨b,.inr ⟨hb.unfinished,h⟩,?_⟩
    intro call hcall hid
    refine (hb.named call hcall hid).imp_right fun h => h.resolve_right ?_
    rintro ⟨claim,hclaim,-⟩
    simp [hclaim] at hnone

private theorem ends_recoverResults (h : Settled b r s) (hb : Resulted b ms) :
    Ends w (recoverResults ms) r s fun left r' s' => match left with
      | none => s'.Recovered
      | some b' => Holds b' r' ∧ Dispatchable b' := by
  unfold Ends recoverResults
  rw [wp_bind,wp_get]
  rcases h with ⟨hnone,hrec⟩ | ⟨hopen,h⟩
  · simp only [hnone]
    exact hrec
  · simp only [h.batch]
    refine Ends.ofExcept fun found hactive => ?_
    obtain ⟨first,rest,rfl,-,-,-,-,hanswered,-⟩ := activeToolBatch_ok hactive
    refine (ends_completeCanonicalToolResults h hopen).bind ?_
    rintro _ r' s' (⟨hnone,hrec⟩ | ⟨hopen',h'⟩)
    · simp only [wp_bind,wp_get,hnone]
      exact hrec
    · simp only [wp_bind,wp_get,h'.batch]
      refine ⟨h',hopen',hb.complete ?_⟩
      rw [hanswered]
      exact mem_reverse.mpr

private theorem ends_prepareToolBatch {requested : List ToolCall}
    {decisions : Option (List (Option Decision))} (h : Holds b r) (hb : Dispatchable b) :
    Ends w (prepareToolBatch ms requested decisions) r s fun out r' s' =>
      out.1 = [] ∧ s'.Recovered ∨ Awaits out.1 r' := by
  unfold Ends prepareToolBatch
  rw [wp_bind,wp_get,if_pos h.1]
  simp only [h.batch]
  refine Ends.ofExcept fun found hactive => ?_
  obtain ⟨suffix,-,hok⟩ := activeToolBatchFromMessages_ok hactive
  split
  · trivial
  · refine (ends_completeCanonicalToolResults h hb.1).bind ?_
    rintro _ r' s' (⟨hnone,hrec⟩ | ⟨hopen,h'⟩)
    · simp only [wp_bind,wp_get,hnone]
      exact .inl ⟨rfl,hrec⟩
    · have hdesc : List.Forall₂ (fun call stored => ToolExecution.Describes stored call) found.1
          (b.complete found.2).calls := by
        refine forall₂_map_right_iff.mpr ((activeToolBatch_calls hok).imp fun call x hx => ?_)
        split <;> exact hx
      have hawaits : Awaits (openCalls found.1 (b.complete found.2).calls) r' := by
        refine ⟨?_,?_,_,h',openCalls_covers hdesc⟩
        · intro hnil
          obtain ⟨x,hx,hst⟩ := all_eq_false.mp hopen
          have hcovers := openCalls_covers hdesc x hx (by simpa using hst)
          rw [hnil] at hcovers
          cases hcovers
        · intro call hcall hid
          obtain ⟨x,hx,hxd,hst⟩ := openCalls_describes hdesc call hcall
          obtain ⟨y,hy,hsame,hdone⟩ := mem_complete hx
          exact hst (hdone (.inl (hb.2 y hy (hsame.symm.trans (hxd.1.trans hid)))))
      simp only [wp_bind,wp_get,h'.batch]
      split
      · exact .inr hawaits
      · split <;> exact .inr hawaits

omit [Host] in
theorem Awaits.wp_beginToolExecution {callID toolName : String} (h : Awaits calls r) :
    (alone w).wp (beginToolExecution callID toolName) r s (fun _ r' _ => Awaits calls r')
      (fun _ r' _ => Awaits calls r') := by
  obtain ⟨hne,hids,b,⟨hd,e,he,hp,hb⟩,hcovers⟩ := h
  have hr : Awaits calls r := ⟨hne,hids,b,⟨hd,e,he,hp,hb⟩,hcovers⟩
  unfold beginToolExecution
  rw [wp_bind,wp_get,if_pos hd]
  simp only [he]
  rw [wp_bind,wp_ofExcept]
  split
  · rw [wp_bind]
    refine wp_persistAlone hd (fun _ _ => hr) fun e' next s' he' hnext _ => ?_
    cases he.symm.trans he'
    obtain ⟨claimed,hclaimed,rfl⟩ : ∃ claimed,
        e.claimTool r.recovering callID toolName = .ok claimed ∧ claimed.1 = next := by
      cases hclaim : e.claimTool r.recovering callID toolName with
      | error err => simp [hclaim,Except.map] at hnext
      | ok claimed => exact ⟨claimed,rfl,by simpa [hclaim,Except.map] using hnext⟩
    obtain ⟨b',call,hb',hfind,-,⟨hready,hclaim⟩ | ⟨-,-,-,hclaim⟩⟩ := claimTool_ok hclaimed
    · cases hb.symm.trans hb'
      rw [hclaim]
      refine ⟨hne,hids,_,⟨hd,_,rfl,hp,rfl⟩,?_⟩
      intro stored' hmem' hst'
      obtain ⟨stored,hmem,hid,hst⟩ := (ToolBatchExecution.Claims.claim hfind hready).open_
        stored' hmem' hst'
      exact hid ▸ hcovers stored hmem hst
    · rw [hclaim]
      exact ⟨hne,hids,b,⟨hd,_,rfl,hp,hb⟩,hcovers⟩
  · exact hr

private theorem dispatching_alone (calls : List ToolCall) :
    Dispatching (alone w) (fun _ => True) (Awaits calls) Reports where
  asks _ _ := ⟨trivial,fun _ _ _ => ⟨trivial,trivial⟩⟩
  checks _ := ⟨trivial,fun _ _ _ => ⟨trivial,trivial⟩⟩
  claims job := by
    intro r s hr _
    rw [wp_attempt]
    refine wp_mono hr.wp_beginToolExecution (fun _ r' s' h => ⟨h,trivial,nofun⟩) ?_
    intro err r' s' h
    refine ⟨h,trivial,fun err' _ => ⟨⟨?_,?_⟩,?_⟩⟩ <;> dsimp only <;> split <;> simp
  handles _ _ := ⟨trivial,fun reply _ _ => ⟨trivial,fun _ _ => handlerOutcome_fits _ _ _ reply⟩⟩
  fails _ _ := failed_fits _ _
  pends _ _ _ _ _ := by simp [Reports,ToolOutcome.Fits]

omit [Host] in
private theorem ends_commitToolResults {outcomes : List ToolOutcome} (h : Awaits calls r)
    (hids : outcomeIDs outcomes = calls.map (·.toolUseID)) :
    Ends w (commitToolResults a ms outcomes) r s fun _ _ s' => s'.Recovered := by
  obtain ⟨hne,-,b,hb,hcovers⟩ := h
  unfold Ends commitToolResults
  simp only [wp_bind,wp_get,hb.1,↓reduceIte,outcomeIDs_eq,hids,map_eq_nil_iff,hne]
  refine ends_saveConversation fun r' s' he hd => ?_
  have hb' : Holds b r' := by
    unfold Holds
    rw [he,hd]
    exact hb
  refine wp_mono (ends_removeToolCalls hb') ?_ (fun _ _ _ h => h)
  rintro _ r'' s'' (⟨-,hrec⟩ | ⟨hopen,-⟩)
  · exact hrec
  · -- every call of the batch was completed or has been answered
    obtain ⟨call',hcall',hst⟩ := all_eq_false.mp hopen
    obtain ⟨call,hcall,hsame,hdone⟩ := mem_complete hcall'
    refine absurd (hdone ?_) (by simpa using hst)
    by_cases hc : call.status = .completed
    · exact .inl hc
    · exact .inr (hcovers call hcall hc)

omit [Host] in
private theorem ends_persistPendingPause {i : Interrupt} {Q : Unit → Run → World → Prop}
    (hd : r.executionDurable = true) (hq : ∀ r' s', r'.executionDurable = true → Q () r' s') :
    Ends w (persistPendingPause i) r s Q :=
  wp_bind.mpr (ends_persistExecution hd fun _ s' _ _ => hq _ s' hd)

omit [Host] in
private theorem ends_commitToolResults_durable {outcomes : List ToolOutcome}
    (hd : r.executionDurable = true) :
    Ends w (commitToolResults a ms outcomes) r s fun _ r' _ => r'.executionDurable = true := by
  unfold Ends commitToolResults
  simp only [wp_bind,wp_get,hd,↓reduceIte]
  split
  · exact hd
  · rw [wp_bind]
    refine ends_saveConversation fun r' s' _ hd' => ?_
    exact ends_persistExecution (hd'.trans hd) fun _ _ _ _ => hd'.trans hd

private theorem ends_coordinateToolBatch {requested : List ToolCall} {available : List Tool}
    {decisions : Option (List (Option Decision))} {messages : TurnMessages} (h : Holds b r)
    (hb : Dispatchable b) :
    Ends w (coordinateToolBatch a c requested available decisions messages) r s
      fun batch r' s' => match batch.interrupt with
        | none => s'.Recovered
        | some _ => r'.executionDurable = true := by
  unfold Ends coordinateToolBatch
  rw [wp_bind]
  refine wp_mono (ends_prepareToolBatch h hb) ?_ (fun _ _ _ h => h)
  rintro ⟨calls,decisions⟩ r1 s1 (⟨hnil,hrec⟩ | hawaits)
  · cases hnil
    exact hrec
  · dsimp only at hawaits ⊢
    rw [if_neg hawaits.nonempty,wp_bind]
    refine wp_mono ((dispatching_alone calls).works_executeBatch a c calls available decisions
      r1 s1 hawaits trivial) ?_ (fun _ _ _ h => h.elim)
    rintro outcomes r2 s2 ⟨hawaits2,-,hout⟩
    rw [wp_bind]
    refine ⟨trivial,fun _ s3 _ => ?_⟩
    split
    · trivial
    · next hfound =>
      have hok : ¬ HasFailure outcomes := by
        rintro ⟨o,ho,hk⟩
        have := List.find?_eq_none.mp hfound o ho
        simp [hk] at this
      have hd : r2.executionDurable = true := by
        obtain ⟨-,-,b2,hb2,-⟩ := hawaits2
        exact hb2.1
      cases herr : batchOutcomeError outcomes with
      | some err =>
        simp only [wp_bind,wp_attempt]
        exact wp_mono (ends_commitToolResults_durable hd) (fun _ _ _ _ => trivial)
          (fun _ _ _ _ => trivial)
      | none =>
        cases hint : pendingInterrupt outcomes calls with
        | mk interrupt out =>
          cases interrupt with
          | some i =>
            simp only [wp_bind]
            refine ends_persistPendingPause hd fun r4 s4 hd4 => ?_
            exact wp_mono (ends_commitToolResults_durable hd4) (fun _ _ _ h => h) (fun _ _ _ h => h)
          | none =>
            have hids : outcomeIDs out = calls.map (·.toolUseID) := by
              have hsettled := outcomeIDs_of_settled hout herr hok (by rw [hint]) hawaits.ids
              simpa only [committedOutcomes,herr,hint] using hsettled
            simp only [wp_bind]
            exact wp_mono (ends_commitToolResults hawaits2 hids) (fun _ _ _ h => h)
              (fun _ _ _ h => h)

theorem ends_recoverDispatch {b' : ToolBatchExecution} (h : Holds b r) (hb : Dispatchable b) :
    Ends w (recoverDispatch a c b' ms) r s fun _ _ s' => s'.Recovered := by
  unfold Ends recoverDispatch
  rw [wp_bind,wp_ofExcept]
  split
  · simp only [wp_bind]
    refine wp_mono (ends_visibleTools _) ?_ (fun _ _ _ h => h)
    rintro available r' s' rfl
    refine wp_mono (ends_coordinateToolBatch h hb) ?_ (fun _ _ _ h => h)
    rintro batch r'' s'' hend
    cases hint : batch.interrupt with
    | none =>
      rw [hint] at hend
      exact hend
    | some i =>
      rw [hint] at hend
      refine wp_bind.mpr (ends_persistExecution hend ?_)
      rintro next s' ⟨e,-,⟨⟩⟩ hcurrent
      exact ⟨_,hcurrent,rfl,.inl ⟨rfl,rfl,rfl⟩⟩
  · trivial

private theorem ends_recoverBatch (hr : r.execution = some e) (hp : e.pendingPause = none)
    (hbatch : e.toolBatch = some b) (hb : b.Settleable (s.messages.drop (e.activeFrom b))) :
    Ends w (recoverBatch a c e b) r s fun _ _ s' => s'.Recovered := by
  unfold Ends recoverBatch
  rw [wp_bind,wp_modify,wp_bind]
  refine ends_loadAfter ?_ fun _ _ => trivial
  intro cursor s1
  simp only [adoptSnapshot,wp_bind,wp_modify]
  refine wp_mono (ends_recoverToolUses ⟨rfl,e,hr,hp,hbatch⟩ hb) ?_ (fun _ _ _ h => h)
  rintro ms2 r2 s2 ⟨b2,h2,hb2⟩
  refine wp_mono (ends_recoverResolution h2 hb2) ?_ (fun _ _ _ h => h)
  rintro ms3 r3 s3 ⟨b3,h3,hids⟩
  refine wp_mono (ends_recoverResults h3 hids) ?_ (fun _ _ _ h => h)
  rintro left r4 s4 h4
  cases left with
  | none => exact h4
  | some b4 =>
    dsimp only
    split
    · trivial
    · exact ends_recoverDispatch h4.1 h4.2

private theorem ends_recoverExecution (h : s.Settleable) :
    Ends w (recoverExecution a c) r s fun _ _ s' => s'.Recovered := by
  unfold Ends recoverExecution
  split
  · trivial
  rw [wp_bind]
  refine wp_loadAlone trivial ?_ fun _ _ _ => trivial
  intro e s1 hcurrent hsame
  simp only [wp_bind,wp_modify]
  split
  · unfold projectPause
    rw [wp_bind]
    exact wp_saveAlone (fun s' hs' => ⟨_,hs',rfl,.inl ⟨rfl,rfl,rfl⟩⟩) fun _ _ => trivial
  · next hp =>
    split
    · next hpaused => exact ⟨e,hsame.current?.trans hcurrent,hp,.inl hpaused⟩
    · split
      · trivial
      · next b hbatch =>
        split
        · trivial
        · next hguard =>
          simp only [not_or,not_not] at hguard
          refine ends_recoverBatch rfl hp hbatch ?_
          rw [hsame.messages]
          exact h e b hcurrent hguard.1 hp hbatch

/-- The logic of runs during which nothing is stored, appended or handed to a handler. -/
abbrev resting (w : Nat) (s0 : World) : Logic effects World :=
  @always effects World (World.PerformAlone w) fun _ s => s0.Undisturbed s

private theorem resting_recoverExecution (h : s.Recovered) :
    (resting w s).wp (recoverExecution a c) r s (fun _ _ s' => s.Undisturbed s')
      (fun _ _ s' => s.Undisturbed s') := by
  obtain ⟨e,hcurrent,hpending,hrest⟩ := h
  unfold recoverExecution
  split
  · exact .refl s
  rw [wp_bind]
  refine wp_loadAlone (.refl s) ?_ fun _ _ hs' => hs'
  intro e' s' hcurrent' hs'
  cases hcurrent.symm.trans hcurrent'
  simp only [wp_bind,wp_modify,hpending]
  split
  · exact hs'
  · next hrunning =>
    simp only [hrest.resolve_left hrunning]
    exact hs'
end
end Engine
theorem Request.recover_runs [Host] {L : Logic effects World}
    {Q : Except Error Unit → World → Prop} (h : L.wp (Engine.recoverExecution a c) {} s
      (fun _ _ s' => Q (.ok ()) s') (fun err _ s' => Q (.error err) s')) :
    L.Safe (recover.program a c) (fun response s' => Q (match response.error with
      | none => .ok ()
      | some err => .error err) s') s := by
  refine Logic.Safe.bind.mpr (Logic.Safe.mono h ?_)
  rintro ⟨err | value,r⟩ s' hs'
  · exact hs'
  · exact hs'

end
namespace Scenario
def replaying : Agent := { tools := [{ name := "t", replaySafe := true }] }

/-- A stored execution whose only call, of the ID given, was in flight and may be replayed. -/
def leftInFlight (id : String) : World :=
  { foreignTranscript with
    seedMessages := [⟨.assistant,[.toolUse ⟨id,"t","\x7b\x7d"⟩]⟩]
    log := [.save 0 .ready { launchedExecution with toolBatch := some { launchedBatch with
      calls := launchedBatch.calls.map fun call =>
        { call with callID := id, status := .inFlight, inputHash := "\x7b\x7d" } } } .acked] }
def quietly : Op → Choice
  | .handler _ => returns "one"
  | _ => .usual
def recovery (w : Nat) (s : World) : Program effects Response × World :=
  Program.drive (E := effects) (fun op s => s.answer w op (quietly op)) 99
    (@program plainHost replaying context .recover) s

private theorem runs_recovery (w : Nat) (s : World) :
    (@program plainHost replaying context .recover).Runs (World.PerformAlone w) s
      (recovery w s).1 (recovery w s).2 := by
  apply Program.runs_drive
  intro op s answer s' h
  exact ⟨s,.refl,answer_perform h⟩

def succeeds : Program effects Response → Bool
  | .done response => response.error.isNone
  | .call _ _ => false

private theorem eq_done {p : Program effects Response} (h : succeeds p = true) :
    ∃ response, response.error = none ∧ p = .done response := by
  cases p with
  | done response => exact ⟨response,Option.isNone_iff_eq_none.mp h,rfl⟩
  | call op next => cases h

def handlers (s : World) : Nat := s.log.countP Event.isHandler
end Scenario
end GudeAgents
