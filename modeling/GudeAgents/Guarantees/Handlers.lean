import Mathlib.Data.List.Nodup
import GudeAgents.Agent.Simulation
import GudeAgents.Refinement.Recovery
/-!
# Handler starts

A handler start is paid for by an accepted claim, which moves the stored call out of its waiting
states.
-/
namespace GudeAgents
open List Execution ToolBatchExecution Stored
/-- Counting by owner: a bound that holds for the entries of each owner holds for all. -/
theorem countP_le_of_owners {α : Type} {p q : α → Bool} (owner : α → Option Nat)
    (howned : ∀ a, p a = true → owner a ≠ none) (l : List α)
    (h : ∀ w, (l.filter fun a => owner a == some w).countP p ≤
      (l.filter fun a => owner a == some w).countP q) : l.countP p ≤ l.countP q := by
  induction hn : l.length using Nat.strong_induction_on generalizing l with
  | _ n ih =>
    by_cases hnone : ∀ a ∈ l, owner a = none
    · have hzero : l.countP p = 0 := by
        rw [countP_eq_zero]
        intro a ha hp
        exact howned a hp (hnone a ha)
      omega
    · push Not at hnone
      obtain ⟨a,ha,hown⟩ := hnone
      obtain ⟨w,hw⟩ := Option.ne_none_iff_exists'.mp hown
      -- the entries of this owner, and the shorter list of all others
      have hsplit := fun r : α → Bool =>
        countP_eq_countP_filter_add l r (fun a => owner a == some w)
      have hshort : (l.filter fun a => !(owner a == some w)).length < n := by
        rw [← hn]
        apply length_filter_lt_length_iff_exists.mpr
        exact ⟨a,ha,by simp [hw]⟩
      have hrest := ih _ hshort (l.filter fun a => !(owner a == some w)) ?_ rfl
      · have hthis := h w
        rw [hsplit p,hsplit q]
        omega
      · intro v
        by_cases hvw : v = w
        · subst hvw
          simp [filter_filter]
        · have hsame : (l.filter fun a => !(owner a == some w)).filter
              (fun a => owner a == some v) = l.filter fun a => owner a == some v := by
            rw [filter_filter]
            apply filter_congr
            intro x _
            by_cases hx : owner x = some v
            · simp [hx,hvw]
            · simp [hx]
          rw [hsame]
          exact h v

/-- The call has not reached its handler since it was planned or put back. -/
def ToolBatchExecution.waiting (b : ToolBatchExecution) (callID : String) : Bool :=
  b.calls.any fun call => call.callID == callID &&
    (call.status == .planned || call.status == .ready)
def Execution.waiting (e : Execution) (callID : String) : Bool :=
  e.toolBatch.any (·.waiting callID)

namespace ToolBatchExecution
variable {b : ToolBatchExecution} {callID id : String} {f : ToolExecution → ToolExecution}
theorem mem_callIDs_of_waiting (h : b.waiting id = true) : id ∈ b.callIDs := by
  obtain ⟨call,hc,hw⟩ := any_eq_true.mp h
  simp only [Bool.and_eq_true,beq_iff_eq] at hw
  exact mem_map.mpr ⟨call,hc,hw.1⟩

theorem setFirst_waiting_other (hne : callID ≠ id) (hf : ∀ call, (f call).callID = call.callID) :
    (b.setFirst callID f).waiting id = b.waiting id := by
  unfold waiting setFirst
  induction b.calls with
  | nil => rfl
  | cons call rest ih =>
    simp only [setFirst.go]
    split
    · next hid =>
      have hthis : (call.callID == id) = false := by
        rw [hid]
        exact beq_false_of_ne hne
      simp [hf,hthis]
    · simp only [any_cons,ih]

theorem setFirst_not_waiting (hnodup : b.callIDs.Nodup) (hf : ∀ call, (f call).status = .inFlight) :
    (b.setFirst id f).waiting id = false := by
  unfold callIDs at hnodup
  unfold waiting setFirst
  induction hcalls : b.calls generalizing b with
  | nil => rfl
  | cons call rest ih =>
    rw [hcalls,map_cons,nodup_cons] at hnodup
    obtain ⟨hnot,hrest⟩ := hnodup
    simp only [setFirst.go]
    split
    · next hid =>
      have htail : (rest.any fun call => call.callID == id &&
          (call.status == .planned || call.status == .ready)) = false := by
        rw [any_eq_false]
        intro x hx hw
        simp only [Bool.and_eq_true,beq_iff_eq] at hw
        exact hnot (mem_map.mpr ⟨x,hx,hw.1.trans hid.symm⟩)
      simp [hf,htail]
    · next hid =>
      have := @ih { b with calls := rest } hrest rfl
      simp [hid,this]

theorem waiting_of_complete {completed : List String}
    (h : (b.complete completed).waiting id = true) : b.waiting id = true := by
  obtain ⟨call',hc',hw⟩ := any_eq_true.mp h
  obtain ⟨call,hc,rfl⟩ := mem_map.mp hc'
  apply any_eq_true.mpr
  refine ⟨call,hc,?_⟩
  split at hw
  · simp at hw
  · exact hw

theorem waiting_of_allPlanned (hp : b.allPlanned = true) (hid : id ∈ b.callIDs) :
    b.waiting id = true := by
  obtain ⟨call,hc,rfl⟩ := mem_map.mp hid
  have hstatus := all_eq_true.mp hp call hc
  apply any_eq_true.mpr
  exact ⟨call,hc,by simp [beq_iff_eq.mp hstatus]⟩

theorem waiting_of_decided {b' : ToolBatchExecution} {resp : ResumeResponse}
    {requested : List ApprovalCall}
    (h : List.Forall₂ (Execution.Decided resp requested) b.calls b'.calls) :
    b'.waiting id = b.waiting id := by
  unfold waiting
  generalize b.calls = cs at h
  generalize b'.calls = cs' at h
  induction h with
  | nil => rfl
  | cons hc _ ih =>
    obtain ⟨hcore,-,hstatus,-⟩ := hc
    simp only [any_cons,ih,hstatus,ToolExecution.callID_of_core hcore]

theorem Same.replaySafe {b' : ToolBatchExecution} (h : b.Same b') (hnodup : b.callIDs.Nodup)
    {call call' : ToolExecution} (hc : call ∈ b.calls) (hc' : call' ∈ b'.calls)
    (hid : call'.callID = call.callID) : call'.replaySafe = call.replaySafe := by
  obtain ⟨call0,hc0,hcore⟩ := h.exists_left hc'
  have hid0 : call0.callID = call.callID := (ToolExecution.callID_of_core hcore.symm).symm.trans hid
  have : call0 = call := inj_on_of_nodup_map hnodup hc0 hc hid0
  subst this
  exact (congrArg ToolExecution.replaySafe hcore).symm
end ToolBatchExecution
def World.plannedCalls (s : World) (p : Nat) : List ToolExecution :=
  match s.stored[p]? with
  | some ⟨_,.plan,e⟩ => (e.toolBatch.map (·.calls)).getD []
  | _ => []

theorem World.plans_of_mem_plannedCalls {s : World} {p : Nat} {call : ToolExecution}
    (h : call ∈ s.plannedCalls p) : ∃ e b, s.Plans p e b ∧ call ∈ b.calls := by
  unfold World.plannedCalls at h
  split at h
  · next w e hst =>
    cases hb : e.toolBatch with
    | none => simp [hb] at h
    | some b => exact ⟨e,b,⟨w,hst,hb⟩,by simpa [hb] using h⟩
  · cases h

section
variable [Host] {s : World} {w k p : Nat} {e next : Execution} {b : ToolBatchExecution}
  {label : SaveLabel} {id : String}
theorem LegalBody.waiting (h : LegalBody s w e label next) (hw : next.waiting id = true) :
    e.waiting id = true ∨ label = .plan := by
  cases h with
  | startCursor | runtimeProgress | pendingPause | pauseRecovered | pause | finalize => exact .inl hw
  | plan => exact .inr rfl
  | ready batch marked =>
    obtain ⟨b',hb',hplanned,rfl⟩ := markReady_ok marked
    refine .inl ?_
    have hid := mem_callIDs_of_waiting hw
    simp only [Execution.waiting,hb']
    apply waiting_of_allPlanned hplanned
    simpa [callIDs,mapCalls] using hid
  | @beginTool _ callID _ _ _ _ claimed kind =>
    obtain ⟨b',call,hb',hfind,-,⟨hready,rfl⟩ | ⟨-,-,-,rfl⟩⟩ :=
      claimTool_ok claimed
    · refine .inl ?_
      simp only [Execution.waiting,hb',Option.any_some] at hw ⊢
      by_cases hid : callID = id
      · -- the claimed call itself was ready
        subst hid
        apply any_eq_true.mpr
        refine ⟨call,mem_of_find?_eq_some hfind,?_⟩
        have hcall := List.find?_some hfind
        simp only [hready,hcall]
        rfl
      · rwa [setFirst_waiting_other hid (by simp)] at hw
    · exact .inl hw
  | removeToolCalls batch =>
    refine .inl ?_
    simp only [Execution.removeToolCalls,batch,Execution.waiting,settleBatch_toolBatch] at hw ⊢
    split at hw
    · simp at hw
    · exact waiting_of_complete hw
  | approvals claimed calls stores =>
    obtain ⟨b1,b',hb1,rfl,-,hall,-⟩ := storeDecisions_ok stores
    refine .inl ?_
    simpa [Execution.waiting,hb1,waiting_of_decided hall] using hw
  | finishResolution batch launched resolution genuine ahead boundary answers finished =>
    obtain ⟨b1,claim',hb1,-,-,rfl⟩ := finishResolution_ok finished
    refine .inl ?_
    simp only [Execution.waiting,hb1,settleBatch_toolBatch] at hw ⊢
    split at hw
    · simp at hw
    · exact waiting_of_complete hw

theorem LegalSave.waiting (h : LegalSave s w label next) (hand : s.hand? w = some e)
    (hw : next.waiting id = true) : e.waiting id = true ∨ label = .plan ∨ label = .retry id := by
  cases h with
  | create _ _ _ fresh => simp [fresh] at hand
  | resumeClaim _ hand' | projectPause _ hand' =>
    cases hand.symm.trans hand'
    exact .inl hw
  | @retry e' b' callID target kind hand' batch =>
    cases hand.symm.trans hand'
    by_cases hid : callID = id
    · subst hid
      exact .inr (.inr rfl)
    · refine .inl ?_
      simp only [Execution.waiting,Option.any_some] at hw
      rw [setFirst_waiting_other hid (by simp)] at hw
      simpa [Execution.waiting,batch] using hw
  | resolution _ hand' batch =>
    cases hand.symm.trans hand'
    refine .inl ?_
    simpa [Execution.waiting,batch,ToolBatchExecution.waiting] using hw
  | body hand' started opened guarded =>
    cases hand.symm.trans hand'
    rcases guarded.waiting hw with hw | hw
    · exact .inl hw
    · exact .inr (.inl hw)

theorem LegalSave.beginTool_inv (h : LegalSave s w (.beginTool id) next)
    (hand : s.hand? w = some e) : ∃ b call, e.toolBatch = some b ∧ b.find? id = some call ∧
      (call.replaySafe = true ∨ call.status = .ready ∧
        next.toolBatch = some (b.setFirst id fun call => { call with status := .inFlight })) := by
  generalize hlabel : SaveLabel.beginTool id = label at h
  cases h with
  | create | resumeClaim | projectPause | retry | resolution => cases hlabel
  | body hand' started opened guarded =>
    cases hand.symm.trans hand'
    cases guarded with
    | beginTool claimed kind =>
      cases hlabel
      obtain ⟨b,call,hb,hfind,-,⟨hready,rfl⟩ | ⟨-,-,hsafe,-⟩⟩ :=
        claimTool_ok claimed
      · exact ⟨b,call,hb,hfind,.inr ⟨hready,rfl⟩⟩
      · exact ⟨b,call,hb,hfind,.inl hsafe⟩
    | _ => cases hlabel

theorem Valid.plan_of_call (hv : Valid s) {ep : Execution} {bp : ToolBatchExecution}
    (hp : s.Plans p ep bp) (hid : id ∈ bp.callIDs) (hk : s.At k e) (hb : e.toolBatch = some b)
    (hid' : id ∈ b.callIDs) : p ≤ k ∧ bp.Same b := by
  obtain ⟨p',ep',bp',hlife,-,hsame⟩ := hv.plannedAt hk hb
  have hid1 : id ∈ bp'.callIDs := hsame.callIDs ▸ hid'
  rcases Nat.lt_trichotomy p p' with hlt | rfl | hlt
  · exact absurd hid1 (hv.crossStore.disjoint hlt hp hlife.plans hid)
  · cases hp.at.unique hlife.plans.at
    cases hp.batch.symm.trans hlife.plans.batch
    exact ⟨hlife.le,hsame⟩
  · exact absurd hid (hv.crossStore.disjoint hlt hlife.plans hp hid1)

def Stored.begins (callID : String) (st : Stored) : Bool := st.label == .beginTool callID
def Stored.retries (callID : String) (st : Stored) : Bool := st.label == .retry callID

section OneCall
variable {ep : Execution} {bp : ToolBatchExecution} {call : ToolExecution}
theorem Valid.begins_after_plan (hv : Valid s) (hp : s.Plans p ep bp) (hid : id ∈ bp.callIDs)
    (hk : s.stored[k]? = some ⟨w,.beginTool id,e⟩) : p < k := by
  cases k with
  | zero => exact absurd (hv.created hk).1 (by simp)
  | succ k =>
    obtain ⟨l,v,prev,hl,-,-,hprev,hhand,hlegal⟩ := hv.commit hk
    obtain ⟨b,call,hb,hfind,-⟩ := hlegal.beginTool_inv hhand
    have hmem : id ∈ b.callIDs := by
      have hcall := List.find?_some hfind
      exact mem_map.mpr ⟨call,mem_of_find?_eq_some hfind,by simpa using hcall⟩
    have := (hv.plan_of_call hp hid hprev hb hmem).1
    omega

theorem Valid.begins_le (hv : Valid s) (hp : s.Plans p ep bp) (hc : call ∈ bp.calls)
    (hsafe : call.replaySafe = false) (hle : p ≤ k) (hk : s.At k e) :
    (s.stored.take (k + 1)).countP (begins call.callID) + (if e.waiting call.callID then 1 else 0) ≤
      1 + (s.stored.take (k + 1)).countP (retries call.callID) := by
  have hid : call.callID ∈ bp.callIDs := mem_map_of_mem hc
  -- induction on the stored records from the plan on
  induction k, hle using Nat.le_induction generalizing e with
  | base =>
    have hnone : (s.stored.take (p + 1)).countP (begins call.callID) = 0 := by
      rw [countP_eq_zero]
      intro st hst hbegins
      obtain ⟨j,hj⟩ := mem_iff_getElem?.mp hst
      rw [List.getElem?_take] at hj
      split at hj
      · next hlt =>
        obtain ⟨w,label,e⟩ := st
        cases beq_iff_eq.mp hbegins
        have := hv.begins_after_plan hp hid hj
        omega
      · cases hj
    split <;> omega
  | succ k hle ih =>
    obtain ⟨w,label,l,v,prev,hst,hl,hprev,hhand,hlegal⟩ := hv.commit_at hk
    have ih := ih hprev
    rw [take_add_one,hst,Option.toList_some,countP_append,countP_append,countP_singleton,
      countP_singleton]
    by_cases hbegin : label = .beginTool call.callID
    · -- an accepted claim ends the waiting
      subst hbegin
      obtain ⟨b,target,hb,hfind,hstep⟩ := hlegal.beginTool_inv hhand
      have htarget : target.callID = call.callID := by simpa using List.find?_some hfind
      have hmem := mem_of_find?_eq_some hfind
      have hidb : call.callID ∈ b.callIDs := mem_map.mpr ⟨target,hmem,htarget⟩
      have hsame := (hv.plan_of_call hp hid hprev hb hidb).2
      have hfresh := hv.sound hprev hb
      have hnodup : bp.callIDs.Nodup := hsame.callIDs ▸ hfresh.nodup
      have hunreplayable : target.replaySafe = false :=
        (hsame.replaySafe hnodup hc hmem htarget).trans hsafe
      rcases hstep with hreplay | ⟨hready,hnext⟩
      · rw [hunreplayable] at hreplay
        cases hreplay
      · have hbefore : prev.waiting call.callID = true := by
          simp only [Execution.waiting,hb,Option.any_some]
          exact any_eq_true.mpr ⟨target,hmem,by simp [htarget,hready]⟩
        have hafter : e.waiting call.callID = false := by
          simp only [Execution.waiting,hnext,Option.any_some]
          exact setFirst_not_waiting hfresh.nodup (fun _ => rfl)
        rw [hbefore,if_pos rfl] at ih
        simp [begins,retries,hafter] at ih ⊢
        omega
    · have hbegins : begins call.callID ⟨w,label,e⟩ = false := by
        simp [begins,hbegin]
      rw [hbegins]
      by_cases hwait : e.waiting call.callID = true
      · rcases hlegal.waiting hhand hwait with hbefore | rfl | rfl
        · rw [hbefore] at ih
          simp only [hwait,if_true,Bool.false_eq_true,if_false] at ih ⊢
          omega
        · -- a later plan uses other IDs
          cases hb : e.toolBatch with
          | none => simp [Execution.waiting,hb] at hwait
          | some b' =>
            have hmem : call.callID ∈ b'.callIDs := by
              apply mem_callIDs_of_waiting
              simpa [Execution.waiting,hb] using hwait
            have hplans : s.Plans (k + 1) e b' := ⟨w,hst,hb⟩
            exact absurd hmem (hv.crossStore.disjoint (by omega) hp hplans hid)
        · have hretry : retries call.callID ⟨w,.retry call.callID,e⟩ = true := by
            simp [retries]
          rw [hretry,hwait]
          split at ih <;> simp only [if_true,Bool.false_eq_true,if_false] <;> omega
      · rw [if_neg hwait]
        split at ih <;> simp only [Bool.false_eq_true,if_false] <;> omega
end OneCall
def World.handlerStarts (s : World) (callID : String) : Nat := s.log.countP (Event.starts callID)
def World.acceptedRetries (s : World) (callID : String) : Nat :=
  s.stored.countP (retries callID)

theorem Valid.handlerStarts_le (hv : Valid s) :
    s.handlerStarts id ≤ s.stored.countP (begins id) := by
  calc s.handlerStarts id ≤ s.log.countP (Event.begins id) := by
        apply countP_le_of_owners Event.worker?
        · intro ev hstarts
          cases ev <;> simp_all [Event.starts,Event.worker?]
        · intro w
          exact hv.starts_le_begins w id
    _ ≤ s.stored.countP (begins id) := by
        rw [World.stored,countP_filterMap]
        apply countP_mono_left
        intro ev _ hbegins
        cases ev with
        | save w label e v =>
          cases label <;> cases v <;> simp_all [Event.begins,Event.stored?,Verdict.committed,
            begins]
        | _ => cases hbegins

/-- The handler of a planned call that is not replay-safe starts at most once more often than
manual retries of it were accepted, whatever the workers do and wherever they crash. -/
theorem handler_starts_at_most_once {seed : World} (h : Reaches seed s) {call : ToolExecution}
    (hplan : s.Plans p e b) (hcall : call ∈ b.calls) (hsafe : call.replaySafe = false) :
    s.handlerStarts call.callID ≤ 1 + s.acceptedRetries call.callID := by
  have hv := h.valid
  have hlt : p < s.stored.length := hplan.at.lt
  obtain ⟨st,hst⟩ : ∃ st, s.stored[s.stored.length - 1]? = some st :=
    ⟨_,List.getElem?_eq_getElem (by omega)⟩
  have hbound := hv.begins_le hplan hcall hsafe (by omega) (World.at_of_stored hst)
  rw [show s.stored.length - 1 + 1 = s.stored.length by omega,take_length] at hbound
  have hstarts : s.handlerStarts call.callID ≤ _ := hv.handlerStarts_le
  unfold World.acceptedRetries
  omega
end
namespace Scenario
def retriedByHand : Script :=
  let a : Agent := { tools := [{ name := "t" }] }
  [enter a (.invoke "hi"),.run 0 99,.step 0 (callsTools ["c1"]),.run 0 99,
    .step 0 (returns "one"),.crash 0,enter a .recover,.run 1 99,
    enter a (.reconcile 6 "c1" { outcome := .retry }),.run 2 99,
    enter a .recover,.run 3 99,.step 3 (returns "two"),.run 3 99]
end Scenario
theorem handler_starts_retried : ∃ s, @Reaches plainHost {} s ∧
    s.handlerStarts "c1" = 2 ∧ s.acceptedRetries "c1" = 1 ∧
    s.handlerStarts "c1" ≤ 1 + s.acceptedRetries "c1" := by
  obtain ⟨s,hs,hP⟩ := @exists_reaches plainHost {} Scenario.retriedByHand
    (fun s => decide (s.handlerStarts "c1" = 2 ∧ s.acceptedRetries "c1" = 1 ∧
      ∃ call ∈ s.plannedCalls 3, call.callID = "c1" ∧ call.replaySafe = false)) rfl
    (by decide +kernel)
  obtain ⟨hstarts,hretries,call,hcall,hid,hsafe⟩ := of_decide_eq_true hP
  obtain ⟨e,b,hplan,hmem⟩ := World.plans_of_mem_plannedCalls hcall
  have hbound := @handler_starts_at_most_once plainHost s 3 e b {} hs call hplan hmem hsafe
  rw [hid] at hbound
  exact ⟨s,hs,hstarts,hretries,hbound⟩
end GudeAgents
