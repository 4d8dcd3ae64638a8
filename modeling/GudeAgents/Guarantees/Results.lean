import GudeAgents.Agent.Simulation
import GudeAgents.Protocol.Transcript
import GudeAgents.Refinement.Recovery
namespace GudeAgents
open World List
section
section
variable [Host] {s : World} {w : Nat} {e : Execution} {b : ToolBatchExecution}
  {label : AppendLabel} {ms : List Message}
theorem LegalAppend.resultIDs_nodup (hv : Valid s) (hh : s.hand? w = some e)
    (hl : LegalAppend s w e label ms) (hn : (resultIDs s.added).Nodup) :
    (resultIDs (s.added ++ ms)).Nodup := by
  have hc := hv.crossStore
  rw [resultIDs_append]
  cases hl with
  | turn nonempty text =>
    have hnone : resultIDs ms = [] := by
      simp only [resultIDs,flatMap_eq_nil_iff]
      intro m hm
      simp [Message.resultIDs,(text m hm).2]
    rw [hnone,append_nil]
    exact hn
  | toolUse batch planned uses =>
    rw [show resultIDs [_] = [] by
      simp [resultIDs,Message.resultIDs,Message.toolResults_of_isUseOf uses],append_nil]
    exact hn
  | results batch dispatchable dispatched nonempty pending boundary nodup unanswered =>
    have hlaunched := hc.launched_of_dispatchable hv hh batch dispatchable
    have hids : ∀ outcomes, resultIDs [⟨.user,resultBlocks outcomes⟩] =
        outcomes.filterMap fun o => o.resultBlock?.map (·.toolUseID) := by
      intro outcomes
      simp [resultIDs,resultIDs_resultBlocks]
    rw [hids,nodup_append]
    refine ⟨hn,nodup,?_⟩
    rintro id hold _ hnew rfl
    obtain ⟨hknown,hopen⟩ := unanswered id hnew
    exact hv.unanswered hh batch hlaunched boundary hknown hopen hold
  | @resolution b claim answered batch launched resolution boundary known unanswered =>
    have hid : resultIDs [⟨.user,[.toolResult (Engine.resolutionResult claim)]⟩] =
        [claim.callID] := rfl
    rw [hid,nodup_append]
    refine ⟨hn,by simp,?_⟩
    rintro id hold _ hnew rfl
    rw [mem_singleton] at hnew
    rw [hnew] at hold
    exact hv.unanswered hh batch launched boundary known unanswered hold

theorem Valid.added_induction {P : List Message → Prop} (hv : Valid s) (hnil : P [])
    (happend : ∀ {l w e label ms}, l <+: s.log → Valid (s.upto l) → (s.upto l).hand? w = some e →
      LegalAppend (s.upto l) w e label ms → P (s.upto l).added → P ((s.upto l).added ++ ms)) :
    P s.added := by
  induction hv with
  | start empty => simpa [added,messages,appended,empty] using hnil
  | @step s ev hv hlegal ih =>
    have hbefore := ih fun hl => happend (hl.trans record_isPrefix)
    rw [added_record]
    cases happ : ev.appended? with
    | none => simpa using hbefore
    | some a =>
      obtain ⟨c,v,rfl,hcommit⟩ := Event.appended?_eq_some happ
      obtain ⟨-,-,-,-,e,hh,-,hl⟩ := hlegal hcommit
      simpa using happend record_isPrefix hv hh hl hbefore

theorem Valid.resultIDs_nodup (hv : Valid s) : (resultIDs s.added).Nodup :=
  hv.added_induction (P := fun ms => (resultIDs ms).Nodup) nodup_nil
    fun _ hv hh hl hn => hl.resultIDs_nodup hv hh hn
/-- No interleaving of runs, crashes and recoveries adds two results for one call. -/
theorem toolResult_at_most_once {seed : World} (h : Reaches seed s) : (resultIDs s.added).Nodup :=
  h.valid.resultIDs_nodup
end
namespace Scenario
def replayedElsewhere : Script :=
  let a : Agent := { tools := [{ name := "t", replaySafe := true }] }
  [enter a (.invoke "hi"),.run 0 99,.step 0 (callsTools ["c1"]),.run 0 99,
    enter a .recover,.run 1 99,.step 1 (returns "two"),.run 1 99,
    .step 0 (returns "one"),.run 0 99]
end Scenario
theorem toolResult_at_most_once_replayed : ∃ s, @Reaches plainHost {} s ∧
    (s.log.countP (Event.starts "c1")) = 2 ∧ resultIDs s.added = ["c1"] ∧
    (resultIDs s.added).Nodup := by
  obtain ⟨s,hs,hP⟩ := @exists_reaches plainHost {} Scenario.replayedElsewhere
    (fun s => decide (s.log.countP (Event.starts "c1") = 2 ∧ resultIDs s.added = ["c1"])) rfl
    (by decide +kernel)
  obtain ⟨hstarts,hids⟩ := of_decide_eq_true hP
  exact ⟨s,hs,hstarts,hids,@toolResult_at_most_once plainHost s {} hs⟩
end
/-!
## Histories of an execution

What every reachable world has stored, whatever the workers, faults, cancellations and crashes.
-/
section
variable [Host] {seed s : World} {k : Nat} {e : Execution}
/-- Every event of a history was allowed by what was stored before it. -/
theorem events_legal (h : Reaches seed s) {l : List Event} {ev : Event} (hl : l ++ [ev] <+: s.log) :
    Legal (s.upto l) ev :=
  h.valid.legal hl

/-- No update is lost: a save is accepted only from a worker that holds the record it replaces. -/
theorem saves_replace_held (h : Reaches seed s) {w : Nat} {label : SaveLabel}
    (hk : s.stored[k + 1]? = some ⟨w,label,e⟩) :
    e.version = k + 2 ∧ ∃ l v prev, l ++ [Event.save w label e v] <+: s.log ∧
      (s.upto l).version = k + 1 ∧ s.At k prev ∧ (s.upto l).hand? w = some prev ∧ e.id = prev.id ∧
      e.conversationID = prev.conversationID ∧ LifeStep (s.upto l) w prev label e := by
  obtain ⟨l,v,prev,hl,-,hversion,hprev,hand,hlegal⟩ := h.valid.commit hk
  obtain ⟨hid,hconversation⟩ := hlegal.identity hand
  exact ⟨h.valid.version_eq (at_of_stored hk),l,v,prev,hl,hversion,hprev,hand,hid,
    hconversation,hlegal.lifeStep hand⟩

/-- At every moment of a history the execution and the conversation agree. -/
theorem stores_agree (h : Reaches seed s) {l : List Event} (hl : l <+: s.log) : CrossStore (s.upto l) :=
  h.valid.crossStore_upto l hl

/-- A stored batch is well formed and was planned by exactly one save. -/
theorem stored_batch_planned (h : Reaches seed s) {b : ToolBatchExecution} (hk : s.At k e)
    (hb : e.toolBatch = some b) :
    b.Sound ∧ ∃ p ep bp, s.PlannedAt p k ep bp ∧ bp.Fresh ∧ bp.Same b ∧
      ∀ p' ep' bp', s.PlannedAt p' k ep' bp' → p' = p := by
  obtain ⟨p,ep,bp,hplanned,hfresh,hsame⟩ := h.valid.plannedAt hk hb
  refine ⟨h.valid.sound hk hb,p,ep,bp,hplanned,hfresh,hsame,?_⟩
  intro p' ep' bp' hplanned'
  exact (hplanned'.unique hplanned).1

/-- Once it is stored, the start cursor stays, and no record runs ahead of the conversation. -/
theorem start_cursor_fixed (h : Reaches seed s) {k' : Nat} {e' : Execution} (hk : s.At k e)
    (hset : e.startCursorPersisted = true) (hle : k ≤ k') (hk' : s.At k' e') :
    e'.startLastSequence = e.startLastSequence ∧ e'.startRevision = e.startRevision ∧
      s.seedMessages.length ≤ e'.startLastSequence ∧ e'.startLastSequence ≤ s.messages.length ∧
      e'.revision ≤ s.revision := by
  obtain ⟨hset',hlast,hrevision⟩ := h.valid.start_const hle hk hk' hset
  obtain ⟨hseed,hmessages⟩ := h.valid.start_bounds hk' hset'
  exact ⟨hlast,hrevision,hseed,hmessages,h.valid.record_revision_le hk'⟩

end
def Replayed (s : World) (e : Execution) (b : ToolBatchExecution) : Prop :=
  @Reaches plainHost {} s ∧ (∃ w label, s.stored[3]? = some ⟨w,label,e⟩) ∧ e.toolBatch = some b

theorem exists_replayed : ∃ s e b, Replayed s e b := by
  obtain ⟨s,hs,hP⟩ := @exists_reaches plainHost {} Scenario.replayedElsewhere
    (fun s => (s.stored[3]?.bind (·.execution.toolBatch)).isSome) rfl (by decide +kernel)
  obtain ⟨b,hb⟩ := Option.isSome_iff_exists.mp hP
  obtain ⟨⟨w,label,e⟩,hst,he⟩ := Option.bind_eq_some_iff.mp hb
  exact ⟨s,e,b,hs,⟨w,label,hst⟩,he⟩

theorem events_legal_replayed : ∃ s e b, Replayed s e b ∧
    ∀ l ev, l ++ [ev] <+: s.log → @Legal plainHost (s.upto l) ev := by
  obtain ⟨s,e,b,h⟩ := exists_replayed
  exact ⟨s,e,b,h,fun _ _ => @events_legal plainHost {} s h.1 _ _⟩
theorem saves_replace_held_replayed : ∃ s e b, Replayed s e b ∧ e.version = 4 := by
  obtain ⟨s,e,b,h⟩ := exists_replayed
  obtain ⟨w,label,hst⟩ := h.2.1
  exact ⟨s,e,b,h,(@saves_replace_held plainHost {} s 2 e h.1 w label hst).1⟩
theorem stores_agree_replayed : ∃ s e b, Replayed s e b ∧ @CrossStore plainHost s := by
  obtain ⟨s,e,b,h⟩ := exists_replayed
  exact ⟨s,e,b,h,@stores_agree plainHost {} s h.1 _ (prefix_refl s.log)⟩

theorem stored_batch_planned_replayed : ∃ s e b, Replayed s e b ∧
    @ToolBatchExecution.Sound plainHost b := by
  obtain ⟨s,e,b,h⟩ := exists_replayed
  obtain ⟨w,label,hst⟩ := h.2.1
  exact ⟨s,e,b,h,(@stored_batch_planned plainHost {} s 3 e h.1 b (at_of_stored hst) h.2.2).1⟩

theorem start_cursor_fixed_replayed : ∃ s e b, Replayed s e b ∧
    ∀ k' e', 3 ≤ k' → s.At k' e' → e'.startRevision = e.startRevision := by
  let _ := plainHost
  obtain ⟨s,e,b,h⟩ := exists_replayed
  obtain ⟨w,label,hst⟩ := h.2.1
  have hset := (h.1.valid.crossStore.placed (at_of_stored hst) h.2.2).started
  exact ⟨s,e,b,h,fun _ _ hle hk =>
    (start_cursor_fixed h.1 (at_of_stored hst) hset hle hk).2.1⟩

end GudeAgents
