import GudeAgents.Agent.Alone
import GudeAgents.Agent.Simulation
import GudeAgents.Refinement.Prepare
import Mathlib.Data.List.Nodup
/-!
# Decisions of the calls that remain

A dispatch leaves out the answered calls of a batch; those that remain keep their decisions.
-/
namespace GudeAgents
open Framework List Logic ToolBatchExecution
def decisionAt (decisions : Option (List (Option Decision))) (i : Nat) : Option Decision :=
  (decisions.bind (·[i]?)).join

/-- What is left of `calls` and their decisions. `persisted` has the stored decisions by ID, and
`given` has one place for each call. -/
structure Realigned (calls : List ToolCall) (answered : ToolCall → Bool)
    (persisted : String → Option Decision) (given : Option (List (Option Decision)))
    (out : List ToolCall × Option (List (Option Decision))) : Prop where
  unanswered : out.1 = calls.filter fun call => !answered call
  aligned : ∀ ds, out.2 = some ds → ds.length = out.1.length
  stored : ∀ i call d, out.1[i]? = some call → persisted call.toolUseID = some d →
    decisionAt out.2 i = some d
  own : ∀ i call d, out.1[i]? = some call → decisionAt out.2 i = some d →
    persisted call.toolUseID = some d ∨
      ∃ j : Nat, calls[j]? = some call ∧ decisionAt given j = some d
  preflight : given = none → (∀ call ∈ out.1, persisted call.toolUseID = none) → out.2 = none

def answeredBefore (later : List Message) : List String :=
  resultIDs ((later.takeWhile fun m => decide (m.role ≠ .assistant)).filter Message.isToolResults)
def ToolBatchExecution.answers (b : ToolBatchExecution) (results : List String)
    (call : ToolCall) : Bool :=
  results.contains call.toolUseID ||
    b.calls.any fun stored => stored.callID == call.toolUseID && stored.status == .completed

private theorem decisionAt_map (calls : List ToolCall) (f : ToolCall → Option Decision) {i : Nat}
    {call : ToolCall} (h : calls[i]? = some call) : decisionAt (some (calls.map f)) i = f call := by
  simp [decisionAt,h]

section
variable {calls : List ToolCall} {answered : ToolCall → Bool} {persisted : String → Option Decision}
  {given : Option (List (Option Decision))}
theorem Realigned.of_none
    (h : ∀ call ∈ calls.filter fun call => !answered call, persisted call.toolUseID = none) :
    Realigned calls answered persisted given (calls.filter fun call => !answered call,none) := by
  refine ⟨rfl,nofun,?_,nofun,fun _ _ => rfl⟩
  intro i call d hi hd
  rw [h call (mem_of_getElem? hi)] at hd
  cases hd

theorem Realigned.of_map {f : ToolCall → Option Decision}
    (hstored : ∀ call ∈ calls.filter fun call => !answered call, ∀ d,
      persisted call.toolUseID = some d → f call = some d)
    (hown : ∀ call ∈ calls, ∀ d, f call = some d → persisted call.toolUseID = some d ∨
      ∃ j : Nat, calls[j]? = some call ∧ decisionAt given j = some d) (hgiven : given = none →
      ¬ ∀ call ∈ calls.filter fun call => !answered call, persisted call.toolUseID = none) :
    Realigned calls answered persisted given (calls.filter (fun call => !answered call),
      some ((calls.filter fun call => !answered call).map f)) := by
  refine ⟨rfl,?_,?_,?_,fun hnone hall => absurd hall (hgiven hnone)⟩
  · rintro ds ⟨⟩
    exact length_map f
  · intro i call d hi hd
    rw [decisionAt_map _ _ hi]
    exact hstored call (mem_of_getElem? hi) d hd
  · intro i call d hi hd
    rw [decisionAt_map _ _ hi] at hd
    exact hown call (mem_filter.mp (mem_of_getElem? hi)).1 d hd
end
section
variable [Host] {messages : List Message} {requested calls remaining : List ToolCall}
  {decisions : Option (List (Option Decision))}
  {out : List ToolCall × Option (List (Option Decision))}
/-- The unanswered calls in order, each with its own decision. -/
def Filtered (messages : List Message) (requested : List ToolCall)
    (decisions : Option (List (Option Decision)))
    (out : List ToolCall × Option (List (Option Decision))) : Prop :=
  ∃ later, (requested ≠ [] → afterRequested requested messages = some later) ∧
    Realigned requested (fun call => (answeredBefore later).contains call.toolUseID)
      (fun _ => none) decisions out

private theorem filterCompletedToolCalls_filtered
    (halign : ∀ ds, decisions = some ds → ds.length = requested.length)
    (h : filterCompletedToolCalls messages requested decisions = .ok out) :
    Filtered messages requested decisions out := by
  unfold filterCompletedToolCalls at h
  split at h
  · next hnil =>
    cases h
    refine ⟨[],absurd hnil,?_,halign,nofun,?_,fun hnone _ => hnone⟩
    · simp [hnil]
    · intro i call d hcall
      simp [hnil] at hcall
  · split at h
    · cases h
    · next later hlater =>
      cases h
      refine ⟨later,fun _ => hlater,?_,?_,nofun,?_,?_⟩
      · conv_rhs => rw [← zipIdx_map_fst 0 requested,filter_map]
        rfl
      · intro ds hds
        obtain ⟨given,-,rfl⟩ := Option.map_eq_some_iff.mp hds
        simp
      · intro i call d hcall hd
        rw [List.getElem?_map,Option.map_eq_some_iff] at hcall
        obtain ⟨⟨call,j⟩,hi,rfl⟩ := hcall
        cases decisions with
        | none => cases hd
        | some given =>
          have hmem := (mem_filter.mp (mem_of_getElem? hi)).1
          refine .inr ⟨j,by simpa [mem_zipIdx_iff_getElem?] using hmem,?_⟩
          change (map _ _)[i]?.join = some d at hd
          rwa [List.getElem?_map,hi] at hd
      · rintro rfl -
        rfl

variable {given : List (Option Decision)}
omit [Host] in
private theorem findSome?_zip_eq_some {id : String} {d : Decision}
    (h : ((requested.zip given).reverse.findSome? fun x =>
      if x.1.toolUseID = id then x.2 else none) = some d) :
    ∃ j : Nat, (requested.map (·.toolUseID))[j]? = some id ∧ given[j]?.join = some d := by
  obtain ⟨x,hmem,hd⟩ := exists_of_findSome?_eq_some h
  obtain ⟨j,hj⟩ := mem_iff_getElem?.mp (mem_reverse.mp hmem)
  obtain ⟨hc,hd'⟩ := getElem?_zip_eq_some.mp hj
  split at hd
  · next hid => exact ⟨j,by simp [hc,hid],by simp [hd',hd]⟩
  · cases hd

variable {stored : List ToolExecution}
private theorem callIDs_of_describes
    (h : List.Forall₂ (fun call x => ToolExecution.Describes x call) calls stored) :
    calls.map (·.toolUseID) = stored.map (·.callID) := by
  induction h with
  | nil => rfl
  | cons hd _ ih => simp [hd.1,ih]

private theorem openCalls_complete (results : List String)
    (h : List.Forall₂ (fun call x => ToolExecution.Describes x call) calls stored)
    (hnodup : (stored.map (·.callID)).Nodup) :
    openCalls calls (stored.map fun x =>
        if x.callID ∈ results then { x with status := .completed } else x) =
      calls.filter fun call => !(results.contains call.toolUseID ||
        stored.any fun x => x.callID == call.toolUseID && x.status == .completed) := by
  induction h with
  | nil => rfl
  | @cons call x calls stored hd hrest ih =>
    rw [map_cons,nodup_cons] at hnodup
    have hids := callIDs_of_describes hrest
    -- the ID of the first call is not among the others
    have hfirst : ∀ y ∈ stored, y.callID ≠ call.toolUseID := by
      intro y hy hid
      exact hnodup.1 (hd.1 ▸ hid ▸ mem_map_of_mem hy)
    have hothers : ∀ c ∈ calls, x.callID ≠ c.toolUseID := by
      intro c hc hid
      exact hnodup.1 (hids ▸ hid ▸ mem_map_of_mem hc)
    have hnone : (stored.any fun y => y.callID == call.toolUseID && y.status == .completed) =
        false := by simpa using fun y hy hid => absurd hid (hfirst y hy)
    have htail : (calls.filter fun c => !(results.contains c.toolUseID ||
        (x :: stored).any fun y => y.callID == c.toolUseID && y.status == .completed)) =
        calls.filter fun c => !(results.contains c.toolUseID ||
          stored.any fun y => y.callID == c.toolUseID && y.status == .completed) := by
      refine filter_congr fun c hc => ?_
      rw [any_cons,beq_false_of_ne (hothers c hc),Bool.false_and,Bool.false_or]
    rw [filter_cons,htail,← ih hnodup.2,any_cons,hnone]
    by_cases hx : x.callID ∈ results
    · simp [openCalls,hx,← hd.1]
    · by_cases hst : x.status = .completed <;> simp [openCalls,hx,hst,← hd.1]

/-- The open calls of the stored batch, each with its own decision. -/
def Remaining (batch : Option ToolBatchExecution) (messages : List Message)
    (decisions : Option (List (Option Decision)))
    (out : List ToolCall × Option (List (Option Decision))) : Prop :=
  ∃ b first rest, batch = some b ∧ first :: rest <:+ messages ∧ first.isUseOf b = true ∧
    (∀ m ∈ rest, m.isToolResults = true) ∧
    Realigned (first.toolUses.map ToolUseBlock.call) (b.answers (resultIDs rest))
      b.approvalFor decisions out

variable {w : Nat} {r r' : Run} {s s' : World} {b : ToolBatchExecution}
namespace Engine
omit [Host] in
private theorem wp_completeCanonicalToolResults_batch {results : List String}
    {Q : Unit → Run → World → Prop} (hd : r.executionDurable = true)
    (hb : r.execution.bind (·.toolBatch) = some b)
    (hq : ∀ r' s', (r'.execution.bind (·.toolBatch) = some (b.complete results) ∨
      r'.execution.bind (·.toolBatch) = none ∧ (b.complete results).allCompleted = true) →
      Q () r' s') :
    (@always effects World (World.Perform w) fun _ _ => True).wp
      (completeCanonicalToolResults results) r s Q (fun _ _ _ => True) := by
  unfold completeCanonicalToolResults
  split
  · next hnil =>
    refine hq r s (.inl ?_)
    simp [hb,hnil,complete,mapCalls]
  · obtain ⟨e,he,hbatch⟩ := Option.bind_eq_some_iff.mp hb
    unfold removeToolCalls persistExecution saveExecution
    simp only [wp_bind,wp_get,hd,he,↓reduceIte]
    refine ⟨trivial,?_⟩
    rintro answer s' ⟨verdict,-,rfl,hanswer⟩
    cases verdict with
    | acked =>
      cases hanswer
      refine hq _ _ ?_
      simp only [Execution.removeToolCalls,hbatch,Execution.settleBatch,Option.bind_some]
      split
      · next hall => exact .inr ⟨rfl,hall⟩
      · exact .inl rfl
    | lost | refused =>
      obtain ⟨fault,rfl⟩ := hanswer
      trivial

omit [Host] in
theorem realigned_given {call : ToolCall} {d : Decision} (hnodup : (calls.map (·.toolUseID)).Nodup)
    (hcall : call ∈ calls) (hsame : requested ≠ [] → requested.map (fun c => (c.toolUseID,c.name)) =
      calls.map fun c => (c.toolUseID,c.name))
    (h : ((requested.zip given).reverse.findSome? fun x =>
      if x.1.toolUseID = call.toolUseID then x.2 else none) = some d) :
    ∃ j : Nat, calls[j]? = some call ∧ decisionAt (some given) j = some d := by
  obtain ⟨j,hj,hd⟩ := findSome?_zip_eq_some h
  have hne : requested ≠ [] := by
    rintro rfl
    simp at hj
  have hids : requested.map (·.toolUseID) = calls.map (·.toolUseID) := by
    have hfst := congrArg (map Prod.fst) (hsame hne)
    rwa [map_map,map_map] at hfst
  rw [hids,List.getElem?_map,Option.map_eq_some_iff] at hj
  obtain ⟨c,hc,hid⟩ := hj
  have hown : c = call := inj_on_of_nodup_map hnodup (mem_of_getElem? hc) hcall hid
  exact ⟨j,hown ▸ hc,hd⟩

private theorem wp_prepareToolBatch_remaining (hd : r.executionDurable = true) :
    (@always effects World (World.Perform w) fun _ _ => True).wp
      (prepareToolBatch messages requested decisions) r s
      (fun out _ _ => Remaining (r.execution.bind (·.toolBatch)) messages decisions out)
      (fun _ _ _ => True) := by
  unfold prepareToolBatch
  simp only [wp_bind,wp_get,hd,↓reduceIte]
  cases hb : r.execution.bind (·.toolBatch) with
  | none => trivial
  | some b =>
    rw [wp_bind,wp_ofExcept]
    cases hactive : activeToolBatchFromMessages messages b with
    | error err => trivial
    | ok found =>
      obtain ⟨calls,answered⟩ := found
      obtain ⟨suffix,hsuffix,hok⟩ := activeToolBatchFromMessages_ok hactive
      have hdesc := activeToolBatch_calls hok
      obtain ⟨first,rest,rfl,huse,hnodup,hcalls,hresults,hanswered,-⟩ := activeToolBatch_ok hok
      have hopen : openCalls calls (b.complete answered).calls =
          calls.filter fun call => !b.answers answered call :=
        openCalls_complete answered hdesc hnodup
      dsimp only
      split
      · trivial
      · next hsame =>
        rw [wp_bind]
        refine wp_completeCanonicalToolResults_batch hd hb fun r' s' hr' => ?_
        have hids : (calls.map (·.toolUseID)).Nodup := callIDs_of_describes hdesc ▸ hnodup
        have hans : b.answers answered = b.answers (resultIDs rest) := by
          funext call
          simp [answers,hanswered]
        have hfound : ∀ out, Realigned calls (b.answers answered) b.approvalFor decisions out →
            Remaining (some b) messages decisions out :=
          fun out h => ⟨b,first,rest,rfl,hsuffix,huse,hresults,hcalls ▸ hans ▸ h⟩
        rcases hr' with hr' | ⟨hr',hall⟩
        · simp only [openCalls] at hopen
          simp only [wp_bind,wp_get,hr',hopen]
          have hfit := persistedApprovalDecisions_fit (b.complete answered)
            (calls.filter fun call => !b.answers answered call)
          simp only [b.complete_approvalFor] at hfit
          rcases hfit with ⟨ds,hds,rfl⟩ | ⟨hnone,hall⟩
          · rw [hds]
            refine hfound _ (.of_map (fun _ _ _ h => h) (fun _ _ _ h => .inl h) fun _ hnone => ?_)
            simp only [persistedApprovalDecisions,b.complete_approvalFor] at hds
            split at hds
            · next hany =>
              obtain ⟨d,hd,hsome⟩ := any_eq_true.mp hany
              obtain ⟨call,hcall,rfl⟩ := mem_map.mp hd
              rw [hnone call hcall] at hsome
              cases hsome
            · cases hds
          · rw [hnone]
            cases decisions with
            | none => exact hfound _ (.of_none hall)
            | some given =>
              refine hfound _ (.of_map ?_ (fun call hcall d hd => .inr ?_) (by rintro ⟨⟩))
              · intro call hcall d hd
                rw [hall call hcall] at hd
                cases hd
              · exact realigned_given hids hcall (not_and_not_right.mp hsame) hd
        · simp only [wp_bind,wp_get,hr']
          have hnil : calls.filter (fun call => !b.answers answered call) = [] := by
            rw [← hopen,openCalls,map_eq_nil_iff,filter_eq_nil_iff]
            intro x hx
            simpa using all_eq_true.mp hall x.2 (of_mem_zip hx).2
          refine hfound ([],none) ?_
          rw [← hnil]
          refine .of_none ?_
          simp [hnil]
end Engine
/-- Whatever calls are dropped as answered, each call that is left keeps its own approval decision.
-/
theorem decisions_stay_with_calls
    (halign : ∀ ds, decisions = some ds → ds.length = requested.length) :
    (∀ out, filterCompletedToolCalls messages requested decisions = .ok out →
      Filtered messages requested decisions out) ∧
    ∀ w r r' s s' out, Program.Runs (World.Perform w)
      (Engine.prepareToolBatch messages requested decisions r) s (.done (.ok out,r')) s' →
      if r.executionDurable then Remaining (r.execution.bind (·.toolBatch)) messages decisions out
      else Filtered messages requested decisions out := by
  refine ⟨fun out => filterCompletedToolCalls_filtered halign,?_⟩
  intro w r r' s s' out hrun
  split
  · next hd => exact (Engine.wp_prepareToolBatch_remaining hd).runs hrun
  · next hlocal =>
    have hwp : (@always effects World (World.Perform w) fun _ _ => True).wp
        (Engine.prepareToolBatch messages requested decisions) r s
        (fun out _ _ => Filtered messages requested decisions out) (fun _ _ _ => True) := by
      unfold Engine.prepareToolBatch
      rw [wp_bind,wp_get,if_neg hlocal,wp_ofExcept]
      split
      · next out hout => exact filterCompletedToolCalls_filtered halign hout
      · trivial
    exact hwp.runs hrun
end
namespace Scenario
def allowThenDeny : List (Option Decision) := [some ⟨true,""⟩,some ⟨false,"no"⟩]
def firstAnswered : List Message :=
  [toolUseMessage { toolCalls := ["a","b"].map toolCall },
    ⟨.user,[.toolResult { toolUseID := "a" }]⟩]
end Scenario
open Scenario in
theorem decisions_stay_with_calls_second :
    (∀ ds, some allowThenDeny = some ds → ds.length = (["a","b"].map toolCall).length) ∧
    @Filtered plainHost firstAnswered (["a","b"].map toolCall) (some allowThenDeny)
      ([toolCall "b"],some [some ⟨false,"no"⟩]) := by
  have halign : ∀ ds, some allowThenDeny = some ds →
      ds.length = (["a","b"].map toolCall).length := by
    rintro ds ⟨⟩
    rfl
  exact ⟨halign,(@decisions_stay_with_calls plainHost _ _ _ halign).1 _ rfl⟩
end GudeAgents
