import Mathlib.Data.List.Forall2
import GudeAgents.Protocol.History
/-!
# How a stored batch evolves

`LegalSave.batchStep` says once what an accepted save does to the batch.
-/
namespace GudeAgents
open List Execution ToolBatchExecution ToolExecution ContentBlock
theorem forall₂_trans {α β γ : Type} {R : α → β → Prop} {S : β → γ → Prop} {T : α → γ → Prop}
    {xs : List α} {ys : List β} {zs : List γ} (h : List.Forall₂ R xs ys) (h' : List.Forall₂ S ys zs)
    (hT : ∀ {x y z}, R x y → S y z → T x z) : List.Forall₂ T xs zs := by
  induction h generalizing zs with
  | nil => cases h'; exact .nil
  | cons hxy _ ih =>
    cases h' with
    | cons hyz hrest => exact .cons (hT hxy hyz) (ih hrest)

theorem exists_of_forall₂ {α β : Type} {R : α → β → Prop} {xs : List α} {ys : List β}
    (h : List.Forall₂ R xs ys) {y : β} (hy : y∈ys) : ∃ x∈xs, R x y := by
  induction h with
  | nil => cases hy
  | @cons x y' xs ys hxy _ ih =>
    rcases mem_cons.mp hy with rfl | hy
    · exact ⟨x,mem_cons_self,hxy⟩
    · obtain ⟨x',hx',hR⟩ := ih hy
      exact ⟨x',mem_cons_of_mem _ hx',hR⟩

def ToolExecution.core (call : ToolExecution) : ToolExecution :=
  { call with status := .planned, input := none, approval := none }

variable {call' call : ToolExecution}
theorem ToolExecution.callID_of_core (h : call'.core=call.core) : call'.callID=call.callID := by
  have hid := congrArg callID h
  exact hid
theorem ToolExecution.inputHash_of_core (h : call'.core=call.core) :
    call'.inputHash=call.inputHash := by
  have hhash := congrArg inputHash h
  exact hhash

namespace ToolBatchExecution
variable {b b' b'' : ToolBatchExecution}
/-- Two states of one batch. -/
def Same (b b' : ToolBatchExecution) : Prop :=
  b'.calls.map core=b.calls.map core

theorem Same.refl (b : ToolBatchExecution) : b.Same b := rfl
theorem Same.symm (h : b.Same b') : b'.Same b := Eq.symm h
theorem Same.trans (h : b.Same b') (h' : b'.Same b'') : b.Same b'' := Eq.trans h' h

theorem same_of_forall₂ {R : ToolExecution → ToolExecution → Prop}
    (hR : ∀ {x y}, R x y → y.core=x.core) (h : List.Forall₂ R b.calls b'.calls) : b.Same b' := by
  unfold Same
  generalize b.calls=cs at h
  generalize b'.calls=cs' at h
  induction h with
  | nil => rfl
  | cons hc _ ih => simp [hR hc,ih]

theorem Same.callIDs (h : b.Same b') : b'.callIDs=b.callIDs := by
  have hids := congrArg (List.map callID) h
  simpa [ToolBatchExecution.callIDs,map_map,Function.comp_def,core] using hids
theorem Same.ne_nil (h : b.Same b') (hb : b.calls≠[]) : b'.calls≠[] := by
  intro h'
  rw [Same,h'] at h
  exact hb (map_eq_nil_iff.mp h.symm)

theorem Same.exists_left (h : b.Same b') (hc : call'∈b'.calls) :
    ∃ call∈b.calls, call.core=call'.core := by
  have hm : call'.core∈b.calls.map core := by
    rw [← h]
    exact mem_map_of_mem hc
  exact mem_map.mp hm
end ToolBatchExecution
variable {calls : List ToolExecution}
section Matching
variable [Host] {b b' : ToolBatchExecution} {m : Message}
theorem usesMatch_core (blocks : List ContentBlock) (calls : List ToolExecution) :
    usesMatch blocks (calls.map core)=usesMatch blocks calls := by
  induction blocks generalizing calls with
  | nil => cases calls <;> rfl
  | cons block blocks ih =>
    cases calls with
    | nil => rfl
    | cons call calls =>
      simp only [map_cons,usesMatch,ih]
      rfl

theorem ToolBatchExecution.Same.isUseOf (h : b.Same b') : m.isUseOf b'=m.isUseOf b := by
  simp only [Message.isUseOf]
  rw [← usesMatch_core _ b'.calls,← usesMatch_core _ b.calls,h]

theorem usesMatch_toolUses {blocks : List ContentBlock} (h : usesMatch blocks calls=true) :
    (blocks.filterMap toolUse?).map (·.toolUseID)=calls.map (·.callID) := by
  induction blocks generalizing calls with
  | nil => cases calls with
    | nil => rfl
    | cons call calls => simp [usesMatch] at h
  | cons block blocks ih =>
    cases calls with
    | nil => simp [usesMatch] at h
    | cons call calls =>
      simp only [usesMatch,Bool.and_eq_true] at h
      cases block with
      | toolUse use =>
        have hid : use.toolUseID=call.callID := by
          have h1 := h.1
          simp only [useMatches] at h1
          split at h1
          · simp only [Bool.and_eq_true,beq_iff_eq] at h1
            exact h1.1.1
          · simp at h1
        simp [toolUse?,hid,ih h.2]
      | _ => simp [useMatches] at h

theorem Message.toolUses_of_isUseOf (h : m.isUseOf b=true) :
    m.toolUses.map (·.toolUseID)=b.callIDs := by
  simp only [Message.isUseOf,Bool.and_eq_true] at h
  exact usesMatch_toolUses h.2

theorem usesMatch_toolResults {blocks : List ContentBlock} (h : usesMatch blocks calls=true) :
    blocks.filterMap toolResult?=[] := by
  induction blocks generalizing calls with
  | nil => rfl
  | cons block blocks ih =>
    cases calls with
    | nil => simp [usesMatch] at h
    | cons call calls =>
      simp only [usesMatch,Bool.and_eq_true] at h
      cases block with
      | toolUse use => simpa [toolResult?] using ih h.2
      | _ => simp [useMatches] at h

theorem Message.toolResults_of_isUseOf (h : m.isUseOf b=true) : m.toolResults=[] := by
  simp only [Message.isUseOf,Bool.and_eq_true] at h
  exact usesMatch_toolResults h.2
theorem Message.not_isToolResults_of_isUseOf (h : m.isUseOf b=true) : m.isToolResults=false := by
  simp only [Message.isUseOf,Bool.and_eq_true,beq_iff_eq] at h
  simp [Message.isToolResults,h.1]
end Matching
/-- The call keeps its identity and input, and a status change stays between launched and
completed. -/
def ToolExecution.Moves (call call' : ToolExecution) : Prop :=
  call'.core=call.core ∧ call'.input=call.input ∧ (call'.status=call.status ∨
    call.status≠.planned ∧ call'.status≠.planned ∧ call.status≠.completed ∧ call'.status≠.completed)

theorem ToolExecution.Moves.refl (call : ToolExecution) : call.Moves call :=
  ⟨rfl,rfl,.inl rfl⟩

theorem ToolExecution.Moves.trans {x y z : ToolExecution} (h : x.Moves y) (h' : y.Moves z) :
    x.Moves z := by
  refine ⟨h'.1.trans h.1,h'.2.1.trans h.2.1,?_⟩
  rcases h.2.2 with h1 | h1
  · rw [← h1]
    exact h'.2.2
  · rcases h'.2.2 with h2 | h2
    · rw [h2]
      exact .inr h1
    · exact .inr ⟨h1.1,h2.2.1,h1.2.2.1,h2.2.2.2⟩

variable {callID : String}
namespace ToolBatchExecution
variable {b b' : ToolBatchExecution}
structure Restated (b b' : ToolBatchExecution) : Prop where
  calls : List.Forall₂ ToolExecution.Moves b.calls b'.calls
  sequence : b'.toolUseLastSequence=b.toolUseLastSequence

theorem Restated.same (h : b.Restated b') : b.Same b' :=
  same_of_forall₂ (fun hc => hc.1) h.calls

theorem Restated.launched (h : b.Restated b') : b.Launched ↔ b'.Launched := by
  have := h.calls
  unfold Launched
  generalize b.calls=cs at this
  generalize b'.calls=cs' at this
  induction this with
  | nil => simp
  | @cons c c' _ _ hc _ ih =>
    have : c.status≠.planned ↔ c'.status≠.planned := by
      rcases hc.2.2 with h | h
      · rw [h]
      · exact ⟨fun _ => h.2.1,fun _ => h.1⟩
    simp only [mem_cons,exists_eq_or_imp,this,ih]

theorem Restated.exists_left (h : b.Restated b') (hc : call'∈b'.calls) :
    ∃ call∈b.calls, call.Moves call' :=
  exists_of_forall₂ h.calls hc

theorem Restated.completed (h : b.Restated b') (hc : call'∈b'.calls)
    (hs : call'.status=.completed) :
    ∃ call∈b.calls, call.callID=call'.callID ∧ call.status=.completed := by
  obtain ⟨call,hcall,hm⟩ := h.exists_left hc
  refine ⟨call,hcall,(callID_of_core hm.1).symm,?_⟩
  rcases hm.2.2 with h | h
  · rw [← h,hs]
  · exact absurd hs h.2.2.2

variable {f : ToolExecution → ToolExecution}
theorem setFirst_go_forall₂ {R : ToolExecution → ToolExecution → Prop} (hrefl : ∀ call, R call call)
    (hf : ∀ call, calls.find? (fun c => c.callID == callID)=some call → R call (f call)) :
    List.Forall₂ R calls (setFirst.go callID f calls) := by
  induction calls with
  | nil => exact .nil
  | cons call rest ih =>
    unfold setFirst.go
    by_cases h : call.callID=callID
    · rw [if_pos h]
      exact .cons (hf call (by simp [h])) (forall₂_same.mpr fun c _ => hrefl c)
    · rw [if_neg h]
      refine .cons (hrefl call) (ih fun c hc => hf c ?_)
      rw [List.find?_cons_of_neg (by simpa using h)]
      exact hc

theorem restated_setFirst (hf : ∀ call, b.find? callID=some call → call.Moves (f call)) :
    b.Restated (b.setFirst callID f) :=
  ⟨setFirst_go_forall₂ .refl hf,rfl⟩
theorem Restated.trans {b'' : ToolBatchExecution} (h : b.Restated b') (h' : b'.Restated b'') :
    b.Restated b'' :=
  ⟨forall₂_trans h.calls h'.calls .trans,h'.sequence.trans h.sequence⟩
theorem Restated.refl (b : ToolBatchExecution) : b.Restated b :=
  ⟨forall₂_same.mpr fun c _ => .refl c,rfl⟩
end ToolBatchExecution
namespace Execution
variable {e next : Execution} {b : ToolBatchExecution}
theorem claimTool_ok {recovering replay : Bool} {toolName key : String}
    (h : e.claimTool recovering callID toolName=.ok (next,key,replay)) :
    ∃ b call, e.toolBatch=some b ∧ b.find? callID=some call ∧ key=call.idempotencyKey ∧
      (call.status=.ready ∧ next={ e with toolBatch := some (b.setFirst callID fun call =>
          { call with status := .inFlight }) } ∨
        call.status=.inFlight ∧ recovering=true ∧ call.replaySafe=true ∧ next=e) := by
  unfold claimTool at h
  split at h
  · cases h
  · next b hb =>
    split at h
    · cases h
    · next call hc =>
      refine ⟨b,call,hb,hc,?_⟩
      split at h
      · next hs =>
        simp only [Except.ok.injEq,Prod.mk.injEq] at h
        exact ⟨h.2.1.symm,.inl ⟨hs,h.1.symm⟩⟩
      · next hs =>
        split at h
        · next hr =>
          simp only [Except.ok.injEq,Prod.mk.injEq] at h
          simp only [Bool.and_eq_true] at hr
          exact ⟨h.2.1.symm,.inr ⟨hs,hr.1,hr.2,h.1.symm⟩⟩
        · cases h
      · cases h

theorem markReady_ok {R q : Nat} (h : e.markReady R q=.ok next) :
    ∃ b, e.toolBatch=some b ∧ b.allPlanned=true ∧
      next={ e.withCursor R q with
        toolBatch := some { b.mapCalls fun call =>
            { call with status := .ready, input := none } with
          toolUseRevision := R, toolUseLastSequence := q } } := by
  unfold markReady at h
  split at h
  · cases h
  · next b hb =>
    split at h
    · next hp => exact ⟨b,hb,hp,by simpa using h.symm⟩
    · cases h

theorem finishResolution_ok {R q : Nat} (h : e.finishResolution R q callID=.ok next) :
    ∃ b claim, e.toolBatch=some b ∧ b.resolution=some claim ∧ claim.callID=callID ∧
      next=(e.withCursor R q).settleBatch
        { b.complete [callID] with resolution := none } := by
  unfold finishResolution at h
  split at h
  · cases h
  · next b hb =>
    split at h
    · cases h
    · next claim hc =>
      split at h
      · cases h
      · next hid => exact ⟨b,claim,hb,hc,not_not.mp hid,by simpa using h.symm⟩

/-- How one stored decision relates to the answered interrupt. -/
def Decided (resp : ResumeResponse) (requested : List ApprovalCall)
    (call call' : ToolExecution) : Prop :=
  call'.core=call.core ∧ call'.input=call.input ∧ call'.status=call.status ∧
    (call'.approval=call.approval ∨ (∃ c∈requested, c.callID=call'.callID) ∧
        call'.approval=some ⟨(resp.decisionFor call'.callID).allow,
          (resp.decisionFor call'.callID).reason⟩)

theorem setFirst_decided (resp : ResumeResponse) (c : ApprovalCall) (calls : List ToolExecution) :
    List.Forall₂ (Decided resp [c]) calls (setFirst.go c.callID (fun call => { call with
        approval := some ⟨(resp.decisionFor c.callID).allow,
          (resp.decisionFor c.callID).reason⟩ }) calls) := by
  apply setFirst_go_forall₂ fun _ => ⟨rfl,rfl,rfl,.inl rfl⟩
  intro call hcall
  have h : call.callID=c.callID := by simpa using List.find?_some hcall
  exact ⟨rfl,rfl,rfl,.inr ⟨⟨c,by simp,h.symm⟩,by simp [h]⟩⟩

variable {resp : ResumeResponse}
private theorem decided_trans {c : ApprovalCall} {rest : List ApprovalCall} {x y z : ToolExecution}
    (h₁ : Decided resp [c] x y) (h₂ : Decided resp rest y z) : Decided resp (c::rest) x z := by
  have hid : z.callID=y.callID := callID_of_core h₂.1
  refine ⟨h₂.1.trans h₁.1,h₂.2.1.trans h₁.2.1,h₂.2.2.1.trans h₁.2.2.1,?_⟩
  rcases h₂.2.2.2 with h | ⟨⟨a,ha,haid⟩,h⟩
  · rcases h₁.2.2.2 with h' | ⟨⟨a,ha,haid⟩,h'⟩
    · exact .inl (h.trans h')
    · refine .inr ⟨⟨a,by simp_all,by rw [hid]; exact haid⟩,?_⟩
      rw [h,h',hid]
  · exact .inr ⟨⟨a,by simp [ha],haid⟩,h⟩

theorem storeDecisions_ok {requested : List ApprovalCall}
    (h : e.storeDecisions resp requested=.ok next) :
    ∃ b b', e.toolBatch=some b ∧ next={ e with toolBatch := some b' } ∧
      b'={ b with calls := b'.calls } ∧
      List.Forall₂ (Decided resp requested) b.calls b'.calls ∧
      ∀ c∈requested, c.callID∈b.callIDs := by
  induction requested generalizing e with
  | nil =>
    unfold storeDecisions at h
    split at h
    · cases h
    · next b hb =>
      refine ⟨b,b,hb,?_,rfl,?_,by simp⟩
      · rw [← hb]; simpa using h.symm
      · exact forall₂_same.mpr fun x _ => ⟨rfl,rfl,rfl,.inl rfl⟩
  | cons c rest ih =>
    unfold storeDecisions at h
    split at h
    · cases h
    · next b hb =>
      split at h
      · cases h
      · next found hfound =>
        obtain ⟨b1,b',hb1,hnext,hb',hall,hids⟩ := ih h
        simp only [Option.some.injEq] at hb1
        have hfirst := setFirst_decided resp c b.calls
        have hcalls : b1.calls=setFirst.go c.callID (fun call => { call with
              approval := some ⟨(resp.decisionFor c.callID).allow,
                (resp.decisionFor c.callID).reason⟩ }) b.calls := by
          rw [← hb1]; rfl
        rw [← hcalls] at hfirst
        have hsame : b.Same b1 := same_of_forall₂ (fun hd => hd.1) hfirst
        refine ⟨b,b',hb,?_,?_,?_,?_⟩
        · rw [hnext]
        · rw [hb',← hb1]; rfl
        · exact forall₂_trans hfirst hall decided_trans
        · intro a ha
          rcases mem_cons.mp ha with rfl | ha
          · have := mem_of_find?_eq_some hfound
            have hid := List.find?_some hfound
            simp only [beq_iff_eq] at hid
            exact mem_map.mpr ⟨found,this,hid⟩
          · rw [← hsame.callIDs]
            exact hids a ha
end Execution
section Planning
variable [Host]
/-- A planned call still stores the input its hash was computed from. -/
def ToolExecution.PlannedCall (call : ToolExecution) : Prop :=
  call.status=.planned ∧ call.approval=none ∧
    ∃ input, call.input=some input ∧ toolInputHash input=.ok call.inputHash

variable {prior : List (String×PriorToolUse)} {replaySafe : String → Bool}
theorem planCall_ok {executionID : String} {i : Nat} {seen : List String} {call : ToolCall}
    {planned : ToolExecution}
    (h : planCall executionID prior replaySafe i seen call=.ok planned) :
    planned.callID=call.toolUseID ∧ planned.name=call.name ∧ planned.PlannedCall ∧
      planned.input=some call.input ∧ call.toolUseID≠"" ∧ call.toolUseID∉seen ∧
      prior.lookup call.toolUseID=none := by
  unfold planCall at h
  split at h
  · cases h
  · next hne =>
    split at h
    · cases h
    · next hseen =>
      split at h
      · cases h
      · next hash hhash =>
        split at h
        · split at h <;> cases h
        · next hprior =>
          simp only [Except.ok.injEq] at h
          subst h
          exact ⟨rfl,rfl,⟨rfl,rfl,call.input,rfl,hhash⟩,rfl,hne,hseen,hprior⟩

theorem planCalls_ok {executionID : String} {i : Nat} {seen : List String} {calls : List ToolCall}
    {planned : List ToolExecution}
    (h : planCalls executionID prior replaySafe i seen calls=.ok planned) :
    planned.map (·.callID)=calls.map (·.toolUseID) ∧ (∀ c∈planned, c.PlannedCall) ∧
      (∀ id∈calls.map (·.toolUseID), id≠"" ∧ id∉seen) ∧
      (calls.map (·.toolUseID)).Nodup := by
  induction calls generalizing i seen planned with
  | nil =>
    simp only [planCalls,Except.ok.injEq] at h
    subst h
    simp
  | cons call rest ih =>
    unfold planCalls at h
    split at h
    · cases h
    · next first hfirst =>
      split at h
      · cases h
      · next others hothers =>
        simp only [Except.ok.injEq] at h
        subst h
        obtain ⟨hid,-,hplanned,-,hne,hseen,-⟩ := planCall_ok hfirst
        obtain ⟨hids,hall,hfresh,hnodup⟩ := ih hothers
        refine ⟨by simp [hid,hids],?_,?_,?_⟩
        · intro c hc
          rcases mem_cons.mp hc with rfl | hc
          · exact hplanned
          · exact hall c hc
        · intro id hmem
          rcases mem_cons.mp hmem with rfl | hmem
          · exact ⟨hne,hseen⟩
          · exact ⟨(hfresh id hmem).1,fun hs => (hfresh id hmem).2 (by simp [hs])⟩
        · refine nodup_cons.mpr ⟨fun hmem => ?_,hnodup⟩
          exact (hfresh _ hmem).2 (by simp)

theorem Execution.plan_ok {e next : Execution} {calls : List ToolCall} {R q iteration : Nat}
    (h : e.plan prior replaySafe calls R q iteration=.ok next) :
    e.toolBatch=none ∧ ∃ planned, planCalls e.id prior replaySafe 0 [] calls=.ok planned ∧
      next={ e.withCursor R q with
        phase := .tools, iteration := iteration
        toolBatch := some { iteration := iteration, calls := planned } } := by
  unfold plan at h
  split at h
  · cases h
  · next hb =>
    split at h
    · cases h
    · next planned hplanned => exact ⟨hb,planned,hplanned,by simpa using h.symm⟩
end Planning
theorem ToolBatchExecution.complete_callIDs (b : ToolBatchExecution) (completed : List String) :
    (b.complete completed).calls.map (·.callID)=b.calls.map (·.callID) := by
  simp only [complete,mapCalls,map_map]
  refine map_congr_left fun call _ => ?_
  simp only [Function.comp_apply]
  split <;> rfl

theorem Execution.settleBatch_toolBatch (e : Execution) (b : ToolBatchExecution) :
    (e.settleBatch b).toolBatch=if b.allCompleted then none else some b := by
  unfold Execution.settleBatch
  split <;> rfl
theorem Execution.settleBatch_lastSequence (e : Execution) (b : ToolBatchExecution) :
    (e.settleBatch b).lastSequence=e.lastSequence := by
  unfold Execution.settleBatch
  split <;> rfl

section Steps
variable [Host] {s : World} {w : Nat} {label : SaveLabel} {e next : Execution}
structure ToolBatchExecution.Fresh (b : ToolBatchExecution) : Prop where
  nonempty : b.calls≠[]
  planned : ∀ call∈b.calls, call.PlannedCall
  ids : ∀ id∈b.callIDs, id≠""
  nodup : b.callIDs.Nodup
  sequence : b.toolUseLastSequence=0
  resolution : b.resolution=none

inductive BatchStep (s : World) (w : Nat) (e : Execution) : SaveLabel → Execution → Prop where
  | kept {label : SaveLabel} {next : Execution} (notPlan : label≠.plan)
      (batch : next.toolBatch=e.toolBatch) : BatchStep s w e label next
  | planned {next : Execution} {b : ToolBatchExecution} (idle : e.toolBatch=none)
      (batch : next.toolBatch=some b) (fresh : b.Fresh)
      (start : e.startCursorPersisted=true) (unused : s.Unused w e b.callIDs)
      (after : e.startLastSequence≤(s.cursorOf w).lastSequence)
      (genuine : s.Genuine (s.cursorOf w))
      (revision : next.revision=(s.cursorOf w).revision)
      (cursor : next.lastSequence=(s.cursorOf w).lastSequence) :
      BatchStep s w e .plan next
  | restated {label : SaveLabel} {next : Execution} {b b' : ToolBatchExecution}
      (notPlan : label≠.plan) (before : e.toolBatch=some b)
      (batch : next.toolBatch=some b') (restated : b.Restated b')
      (cursor : next.lastSequence=e.lastSequence) : BatchStep s w e label next
  | ready {next : Execution} {b b' : ToolBatchExecution} {calls : List ToolCall}
      {answered : List String} (before : e.toolBatch=some b) (planned : b.allPlanned=true)
      (batch : next.toolBatch=some b')
      (ready : b'={ b.mapCalls fun call => { call with status := .ready, input := none } with
          toolUseRevision := (s.cursorOf w).revision
          toolUseLastSequence := (s.cursorOf w).lastSequence })
      (genuine : s.Genuine (s.cursorOf w)) (ahead : s.Ahead w e)
      (canonical : activeToolBatch ((s.messagesAt (s.cursorOf w).revision).drop e.lastSequence) b =
        .ok (calls,answered))
      (cursor : next.lastSequence=(s.cursorOf w).lastSequence) :
      BatchStep s w e .ready next
  | settled {label : SaveLabel} {next : Execution} {b : ToolBatchExecution}
      {completed answered : List String} (b' : ToolBatchExecution) (notPlan : label≠.plan)
      (before : e.toolBatch=some b) (dispatchable : s.Dispatchable w b)
      (genuine : s.Genuine (s.cursorOf w)) (ahead : s.Ahead w e)
      (boundary : Boundary (s.messagesAt (s.cursorOf w).revision) b answered)
      (answers : ∀ id∈completed, id∈answered)
      (calls : b'.calls=(b.complete completed).calls)
      (sequence : b'.toolUseLastSequence=b.toolUseLastSequence)
      (batch : next.toolBatch=if b'.allCompleted then none else some b')
      (cursor : next.lastSequence=(s.cursorOf w).lastSequence) :
      BatchStep s w e label next

theorem LegalBody.batchStep (h : LegalBody s w e label next) (n : Nat) :
    BatchStep s w e label { next with version := n } := by
  cases h with
  | startCursor | runtimeProgress | pendingPause | pauseRecovered | pause | finalize =>
    exact .kept (by simp) rfl
  | plan planned nonempty start unused genuine after =>
    obtain ⟨hidle,calls',hcalls,rfl⟩ := plan_ok planned
    obtain ⟨hids,hplanned,hfresh,hnodup⟩ := planCalls_ok hcalls
    have hids' : ∀ it, ToolBatchExecution.callIDs { iteration := it, calls := calls' } =
        List.map ToolCall.toolUseID _ := fun _ => hids
    refine .planned hidle rfl ?_ start ?_ after genuine rfl rfl
    · refine ⟨?_,hplanned,?_,?_,rfl,rfl⟩
      · rintro rfl
        exact nonempty (by simpa using hids.symm)
      · intro id hid
        exact (hfresh id (hids' _ ▸ hid)).1
      · rw [hids']; exact hnodup
    · rw [hids']; exact unused
  | ready batch marked genuine ahead canonical =>
    obtain ⟨b',hb',hplanned,rfl⟩ := markReady_ok marked
    cases batch.symm.trans hb'
    exact .ready batch hplanned rfl rfl genuine ahead canonical rfl
  | beginTool claimed kind =>
    obtain ⟨b,call,hb,hfind,-,hcase⟩ := claimTool_ok claimed
    rcases hcase with ⟨hready,rfl⟩ | ⟨-,-,-,rfl⟩
    · refine .restated (by simp) hb rfl (restated_setFirst ?_) rfl
      intro call' hcall'
      rw [hfind] at hcall'
      cases hcall'
      exact ⟨rfl,rfl,.inr (by simp [hready])⟩
    · exact .kept (by simp) rfl
  | removeToolCalls batch dispatchable genuine ahead boundary answers =>
    refine .settled _ (by simp) batch dispatchable genuine ahead boundary answers rfl rfl ?_ ?_
    · rw [Execution.removeToolCalls,batch]
      exact Execution.settleBatch_toolBatch _ _
    · rw [Execution.removeToolCalls,batch]
      exact Execution.settleBatch_lastSequence _ _
  | approvals claimed calls stores =>
    obtain ⟨b,b',hb,rfl,hb',hall,-⟩ := Execution.storeDecisions_ok stores
    refine .restated (by simp) hb rfl ⟨?_,by rw [hb']⟩ rfl
    exact hall.imp fun x y hxy => ⟨hxy.1,hxy.2.1,.inl hxy.2.2.1⟩
  | @finishResolution b claim next answered batch launched resolution genuine ahead boundary
      answers finished =>
      obtain ⟨b',claim',hb',-,-,rfl⟩ := finishResolution_ok finished
      cases batch.symm.trans hb'
      exact .settled { b.complete [claim.callID] with resolution := none } (by simp) batch
        (.inl launched) genuine ahead boundary (forall_mem_singleton.mpr answers) rfl rfl
        (Execution.settleBatch_toolBatch _ _) (Execution.settleBatch_lastSequence _ _)

theorem LegalSave.batchStep (h : LegalSave s w label next) (hand : s.hand? w=some e) :
    BatchStep s w e label next := by
  cases h with
  | create id conversationID kind fresh => rw [fresh] at hand; cases hand
  | resumeClaim kind hand' | projectPause kind hand' =>
    cases hand.symm.trans hand'
    exact .kept (by simp) rfl
  | retry kind hand' batch free found inFlight =>
    cases hand.symm.trans hand'
    refine .restated (by simp) batch rfl (restated_setFirst ?_) rfl
    intro call hcall
    rw [found] at hcall
    cases hcall
    exact ⟨rfl,rfl,.inr (by simp [inFlight])⟩
  | resolution kind hand' batch =>
    cases hand.symm.trans hand'
    exact .restated (by simp) batch rfl ⟨(ToolBatchExecution.Restated.refl _).calls,rfl⟩ rfl
  | body hand' started opened guarded =>
    cases hand.symm.trans hand'
    exact guarded.batchStep _

def SaveLabel.onBatch : SaveLabel → Bool
  | plan | ready | beginTool _ | removeToolCalls _ | approvals | finishResolution => true
  | _ => false

theorem LegalBody.onBatch (h : LegalBody s w e label next) (hlabel : label.onBatch=true) :
    ∃ batch R q phase n, (R=e.revision ∨ R=(s.cursorOf w).revision) ∧
      (label≠.plan → n=e.iteration ∧ ∃ b, e.toolBatch=some b) ∧
      next={ e with
        toolBatch := batch, revision := R, lastSequence := q, phase := phase, iteration := n } := by
  cases h with
  | startCursor | runtimeProgress | pendingPause | pauseRecovered | pause | finalize =>
    cases hlabel
  | plan planned =>
    obtain ⟨-,_,-,rfl⟩ := plan_ok planned
    exact ⟨_,_,_,_,_,.inr rfl,absurd rfl,rfl⟩
  | ready batch marked =>
    obtain ⟨_,-,-,rfl⟩ := markReady_ok marked
    exact ⟨_,_,_,_,_,.inr rfl,fun _ => ⟨rfl,_,batch⟩,rfl⟩
  | beginTool claimed =>
    obtain ⟨b,call,hb,-,-,⟨-,rfl⟩ | ⟨-,-,-,rfl⟩⟩ := claimTool_ok claimed
    · exact ⟨_,_,_,_,_,.inl rfl,fun _ => ⟨rfl,b,hb⟩,rfl⟩
    · exact ⟨_,_,_,_,_,.inl rfl,fun _ => ⟨rfl,b,hb⟩,rfl⟩
  | removeToolCalls batch =>
    simp only [Execution.removeToolCalls,batch,Execution.settleBatch]
    split <;> exact ⟨_,_,_,_,_,.inr rfl,fun _ => ⟨rfl,_,rfl⟩,rfl⟩
  | approvals claimed calls stores =>
    obtain ⟨b,b',hb,rfl,-⟩ := Execution.storeDecisions_ok stores
    exact ⟨_,_,_,_,_,.inl rfl,fun _ => ⟨rfl,b,hb⟩,rfl⟩
  | finishResolution batch launched resolution genuine ahead boundary answers finished =>
    obtain ⟨b',claim',-,-,-,rfl⟩ := finishResolution_ok finished
    simp only [Execution.settleBatch]
    split <;> exact ⟨_,_,_,_,_,.inr rfl,fun _ => ⟨rfl,_,batch⟩,rfl⟩

theorem LegalSave.pauseStep (h : LegalSave s w label next) (hand : s.hand? w=some e)
    {p : ExecutionPause} (hp : next.pause=some p ∨ next.pendingPause=some p) :
    (e.pause=some p ∨ e.pendingPause=some p) ∨
      ∃ b calls outcomes i outcomes', e.toolBatch=some b ∧ s.Dispatchable w b ∧
        pendingInterrupt outcomes calls=(some i,outcomes') ∧ (∀ call∈calls, b.Holds call) ∧
        p=pauseFromInterrupt i := by
  cases h with
  | create id conversationID kind fresh => rw [fresh] at hand; cases hand
  | resumeClaim kind hand' =>
    cases hand.symm.trans hand'
    exact .inl (.inr (hp.resolve_left (by simp)))
  | projectPause kind hand' pending =>
    cases hand.symm.trans hand'
    rcases hp with hp | hp
    · cases hp; exact .inl (.inr pending)
    · cases hp
  | retry kind hand' | resolution kind hand' =>
    cases hand.symm.trans hand'
    exact .inl hp
  | body hand' started opened guarded =>
    cases hand.symm.trans hand'
    have hbatch := guarded.onBatch
    cases guarded with
    | startCursor | runtimeProgress => exact .inl hp
    | plan | ready | beginTool | removeToolCalls | approvals | finishResolution =>
      obtain ⟨_,_,_,_,_,-,-,heq⟩ := hbatch rfl
      rw [heq] at hp
      exact .inl hp
    | @pendingPause b calls outcomes outcomes' i answered iteration batch dispatchable dispatched
        noError interrupts holds =>
        rcases hp with hp | hp
        · exact .inl (.inl hp)
        · exact .inr ⟨b,calls,outcomes,i,outcomes',batch,dispatchable,interrupts,holds,
            (Option.some.inj hp).symm⟩
    | pauseRecovered kind pending | pause iteration turn pending =>
      rcases hp with hp | hp
      · cases hp; exact .inl (.inr pending)
      · cases hp
    | finalize iteration turn terminal idle =>
      exact .inl (.inr (hp.resolve_left (by simp)))
end Steps
end GudeAgents
