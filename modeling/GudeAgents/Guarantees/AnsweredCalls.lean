import Mathlib.Tactic.FinCases
import GudeAgents.Agent.Alone
import GudeAgents.Agent.Simulation
import GudeAgents.Guarantees.Dispatching
namespace GudeAgents
open Framework List Logic Scenario Engine
section
variable [Host]
def ToolCall.Hashable (call : ToolCall) : Prop := ∃ hash, toolInputHash call.input = .ok hash

private theorem requestedMatches_hashable {use : ToolUseBlock} {call : ToolCall}
    (h : requestedMatches use call = true) : call.Hashable := by
  unfold requestedMatches at h
  split at h
  · next hash requestedHash _ hrequested => exact ⟨requestedHash,hrequested⟩
  · cases h

private theorem requestedMatches_self {call : ToolCall} (h : call.Hashable) :
    requestedMatches ⟨call.toolUseID,call.name,call.input⟩ call = true := by
  obtain ⟨hash,hhash⟩ := h
  simp [requestedMatches,hhash]

private theorem afterRequested_hashable {requested : List ToolCall} {messages later : List Message}
    (h : afterRequested requested messages = some later) : ∀ call ∈ requested, call.Hashable := by
  induction messages with
  | nil => cases h
  | cons message rest ih =>
    unfold afterRequested at h
    split at h
    · next suffix hrest => exact ih (hrest.trans h)
    · split at h
      · next hmatch =>
        intro call hcall
        obtain ⟨i,hi,rfl⟩ := mem_iff_getElem.mp hcall
        have hpair : (message.toolUses[i],requested[i]) ∈ message.toolUses.zip requested := by
          rw [mem_iff_getElem]
          exact ⟨i,by rw [length_zip]; omega,by simp⟩
        exact requestedMatches_hashable (all_eq_true.mp hmatch.2.2 _ hpair)
      · cases h

private theorem afterRequested_append {requested : List ToolCall} {message : Message}
    (hrole : message.role = .assistant)
    (huses : message.toolUses = requested.map fun call => ⟨call.toolUseID,call.name,call.input⟩)
    (hhashable : ∀ call ∈ requested, call.Hashable) (messages : List Message) :
    afterRequested requested (messages ++ [message]) = some [] := by
  induction messages with
  | nil =>
    have hmatch : (message.toolUses.zip requested).all
        (fun pair => requestedMatches pair.1 pair.2) = true := by
      rw [huses]
      clear huses
      induction requested with
      | nil => rfl
      | cons call rest ih =>
        rw [forall_mem_cons] at hhashable
        simp only [map_cons,zip_cons_cons,all_cons,requestedMatches_self hhashable.1,Bool.true_and]
        exact ih hhashable.2
    exact if_pos ⟨hrole,by rw [huses,length_map],hmatch⟩
  | cons m rest ih => rw [cons_append,afterRequested,ih]

omit [Host] in
private theorem toolUseMessage_toolUses (resp : ModelResponse) : (toolUseMessage resp).toolUses =
    resp.toolCalls.map fun call => ⟨call.toolUseID,call.name,call.input⟩ := by
  unfold Message.toolUses toolUseMessage
  simp [Function.comp_def,ContentBlock.toolUse?]

open Classical in
private theorem filterCompletedToolCalls_own (resp : ModelResponse) (hcalls : resp.toolCalls ≠ [])
    (messages : List Message) :
    filterCompletedToolCalls (messages ++ [toolUseMessage resp]) resp.toolCalls none =
      if ∀ call ∈ resp.toolCalls, call.Hashable then .ok (resp.toolCalls,none)
      else .error .executionRecoveryUnsupported := by
  unfold filterCompletedToolCalls
  rw [if_neg hcalls]
  by_cases hhashable : ∀ call ∈ resp.toolCalls, call.Hashable
  · rw [if_pos hhashable,
      afterRequested_append rfl (toolUseMessage_toolUses resp) hhashable messages]
    simp
  · rw [if_neg hhashable]
    cases hafter : afterRequested resp.toolCalls (messages ++ [toolUseMessage resp]) with
    | none => rfl
    | some later => exact absurd (afterRequested_hashable hafter) hhashable
end
def HandlerReply.Definite (reply : HandlerReply) : Prop :=
  match reply.result with
  | .returned _ _ _ humanInput => humanInput = none
  | .failed _ unknown => unknown = false

/-- Any answer, but the context is not cancelled and handlers report definite results. -/
def Op.Benign : (op : Op) → Unit → op.Answer → Unit → Prop
  | .contextErr, _, answer, _ => (answer : Option ContextError) = none
  | .handler _, _, reply, _ => HandlerReply.Definite reply
  | _, _, _, _ => True

namespace Engine
def benign : Logic effects Unit := @Logic.always effects Unit Op.Benign fun _ _ => True
def Answers (job : Job) (o : ToolOutcome) : Prop :=
  (∀ t, job.tool = some t → t.needsApproval = false) →
    o.kind = .definitive ∧ o.result.toolUseID = job.call.toolUseID ∧ o.humanInput = none ∧
      o.err = none

section
variable [Host] {a : Agent} {c : Context} {r0 : Run}
private theorem handlerOutcome_answers {reply : HandlerReply} (h : reply.Definite) (job : Job)
    (executionID key : String) : Answers job (handlerOutcome executionID job.call key reply) := by
  intro _
  unfold HandlerReply.Definite at h
  unfold handlerOutcome
  split
  · next hreply =>
    rw [hreply] at h
    exact ⟨rfl,rfl,h,rfl⟩
  · exact ⟨rfl,rfl,rfl,rfl⟩
  · next hreply =>
    rw [hreply] at h
    cases h

private theorem dispatching_benign (hlocal : r0.executionDurable = false) :
    Dispatching benign (fun _ => True) (· = r0) Answers where
  asks _ _ := ⟨trivial,fun _ _ _ => ⟨trivial,trivial⟩⟩
  checks _ := ⟨trivial,fun _ _ _ => ⟨trivial,trivial⟩⟩
  claims job := by
    rintro r s rfl -
    rw [wp_attempt]
    unfold beginToolExecution
    rw [wp_bind,wp_get,hlocal]
    exact ⟨rfl,trivial,fun err herr => nomatch herr⟩
  handles _ _ := ⟨trivial,fun _ _ hreply =>
    ⟨trivial,fun executionID key => handlerOutcome_answers hreply _ executionID key⟩⟩
  fails _ _ := fun _ => ⟨rfl,rfl,rfl,rfl⟩
  pends job t htool hneeds _ := by
    intro hnone
    rw [hnone t htool] at hneeds
    cases hneeds

def AllAnswered (calls : List ToolCall) (outcomes : List ToolOutcome) : Prop :=
  List.Forall₂ (fun call o => o.kind = .definitive ∧ o.result.toolUseID = call.toolUseID ∧
    o.humanInput = none ∧ o.err = none) calls outcomes

variable {calls : List ToolCall}
theorem works_executeBatch (hlocal : r0.executionDurable = false) {available : List Tool}
    (happroval : ∀ call ∈ calls, ∀ t,
      (available.find? fun t => t.name == call.name) = some t → t.needsApproval = false) :
    Works benign (fun _ => True) (· = r0) (executeBatch a c calls available none)
      (AllAnswered calls) := by
  unfold executeBatch
  dsimp only
  generalize hjobs : (calls.map fun call =>
    (⟨call,available.find? fun t => t.name == call.name,none⟩ : Job)) = jobs
  have hnone : ∀ job ∈ jobs, ∀ t, job.tool = some t → t.needsApproval = false := by
    intro job hjob
    rw [← hjobs,mem_map] at hjob
    obtain ⟨call,hcall,rfl⟩ := hjob
    exact happroval call hcall
  have happrovals : (jobs.filter fun job => job.tool.any (·.needsApproval)) = [] := by
    rw [filter_eq_nil_iff]
    intro job hjob hany
    obtain ⟨t,htool,hneeds⟩ := (Option.any_eq_true _ _).mp hany
    rw [hnone job hjob t htool] at hneeds
    cases hneeds
  rw [if_pos happrovals]
  refine ((dispatching_benign hlocal).works_runJobs a c jobs).mono fun outcomes hanswers => ?_
  have hcalls : calls = jobs.map (·.call) := by
    rw [← hjobs]
    simp [Function.comp_def]
  unfold AllAnswered
  rw [hcalls,forall₂_map_left_iff]
  clear hjobs hcalls happrovals
  induction hanswers with
  | nil => exact .nil
  | cons ho _ ih =>
    rw [forall_mem_cons] at hnone
    exact .cons (ho hnone.1) (ih hnone.2)

variable {outcomes : List ToolOutcome}
omit [Host] in
theorem AllAnswered.mem (h : AllAnswered calls outcomes) : ∀ o ∈ outcomes,
      o.kind = .definitive ∧ o.humanInput = none ∧ o.err = none := by
  induction h with
  | nil => simp
  | cons ho _ ih =>
    rw [forall_mem_cons]
    exact ⟨⟨ho.1,ho.2.2.1,ho.2.2.2⟩,ih⟩

omit [Host] in
theorem AllAnswered.resultBlocks_eq (h : AllAnswered calls outcomes)
    (hids : ∀ call ∈ calls, call.toolUseID ≠ "") :
    resultBlocks outcomes = outcomes.map fun o => .toolResult o.result := by
  unfold resultBlocks
  induction h with
  | nil => rfl
  | cons ho _ ih =>
    rw [forall_mem_cons] at hids
    rw [filterMap_cons,ToolOutcome.resultBlock?,if_pos ⟨ho.1,by rw [ho.2.1]; exact hids.1⟩,map_cons,
      ih hids.2,map_cons]

omit [Host] in
theorem AllAnswered.ids (h : AllAnswered calls outcomes) :
    outcomes.map (fun o => o.result.toolUseID) = calls.map (·.toolUseID) := by
  induction h with
  | nil => rfl
  | cons ho _ ih => rw [map_cons,map_cons,ho.2.1,ih]

omit [Host] in
theorem AllAnswered.pendingInterrupt_eq (h : AllAnswered calls outcomes) :
    pendingInterrupt outcomes calls = (none,outcomes) := by
  have hinput : outcomes.findSome? (·.humanInput) = none := by
    rw [List.findSome?_eq_none_iff]
    intro o ho
    exact (h.mem o ho).2.1
  have hpending : ((outcomes.zip calls).filterMap fun pair =>
      if pair.1.kind = .pendingApproval then
        some { callID := pair.2.toolUseID, name := pair.2.name,
               input := pair.2.input : ApprovalCall }
      else none) = [] := by
    rw [filterMap_eq_nil_iff]
    rintro ⟨o,call⟩ hmem
    have hkind := (h.mem o (of_mem_zip hmem).1).1
    simp [hkind]
  unfold pendingInterrupt
  simp only [hinput,hpending,if_true]

/-- What the loop does with the tool calls of a response, up to the interrupt they may ask for. -/
def answerToolCalls (a : Agent) (c : Context) (resp : ModelResponse) (available : List Tool)
    (messages : TurnMessages) : Engine (TurnMessages × Option Interrupt) := do
  let messages ← persistToolUses a resp messages
  let toolUseIndex := messages.canonical.length - 1
  let batch ← coordinateToolBatch a c resp.toolCalls available none messages
  let r ← Routine.get
  let messages := if r.executionDurable then batch.messages
    else { batch.messages with
      canonical := batch.messages.canonical.set toolUseIndex
        (toolUseMessageWithWidgets resp batch.outcomes) }
  checkContext
  pure (messages,batch.interrupt)

theorem loopTurn_succ (fuel : Nat) (messages : TurnMessages) :
    loopTurn a c (fuel + 1) messages = (do
    Routine.modify fun r => { r with iteration := r.iteration + 1 }
    let (resp,available) ← modelStep a messages
    if resp.toolCalls = [] then finalAnswer a resp messages
    else
      let (messages,asked) ← answerToolCalls a c resp available messages
      match asked with
      | some i => interrupt a c i messages.canonical
      | none => loopTurn a c fuel messages) := by
  simp only [answerToolCalls,bind_assoc,pure_bind]
  rfl

def Answered (resp : ModelResponse) (messages answered : TurnMessages) : Prop :=
  ∃ outcomes, answered.canonical = messages.canonical ++ [toolUseMessageWithWidgets resp outcomes,
        ⟨.user,outcomes.map fun o => .toolResult o.result⟩] ∧
    outcomes.map (fun o => o.result.toolUseID) = resp.toolCalls.map (·.toolUseID)

section
variable {r : Run} {resp : ModelResponse} {available : List Tool} {messages : TurnMessages}
section
variable (hlocal : r.executionDurable = false) (hcalls : resp.toolCalls ≠ [])
  (hids : ∀ call ∈ resp.toolCalls, call.toolUseID ≠ "")
  (happroval : ∀ call ∈ resp.toolCalls, ∀ t, (available.find? fun t => t.name == call.name) = some
    t → t.needsApproval = false)
include hlocal hcalls hids happroval
private theorem benign_coordinateToolBatch :
    benign.wp (coordinateToolBatch a c resp.toolCalls available none
      (messages.appendCanonical (toolUseMessage resp))) r ()
      (fun batch r' _ => r' = r ∧ (∀ call ∈ resp.toolCalls, call.Hashable) ∧
        batch.interrupt = none ∧ AllAnswered resp.toolCalls batch.outcomes ∧
        batch.messages.canonical = messages.canonical ++ [toolUseMessage resp,
          ⟨.user,batch.outcomes.map fun o => .toolResult o.result⟩])
      (fun _ _ _ => ¬ ∀ call ∈ resp.toolCalls, call.Hashable) := by
  unfold coordinateToolBatch prepareToolBatch
  rw [wp_bind,wp_bind,wp_get,if_neg (by simp [hlocal]),TurnMessages.appendCanonical_canonical,
    filterCompletedToolCalls_own resp hcalls,wp_ofExcept]
  by_cases hhashable : ∀ call ∈ resp.toolCalls, call.Hashable
  · rw [if_pos hhashable]
    dsimp only
    rw [if_neg hcalls,wp_bind]
    refine wp_mono (works_executeBatch hlocal happroval r () rfl trivial) ?_
      (fun _ _ _ hfalse => hfalse.elim)
    rintro outcomes r' s' ⟨rfl,-,hall⟩
    have hfailure : (outcomes.find? fun o => o.kind == .coordinationFailure) = none := by
      rw [List.find?_eq_none]
      intro o ho
      simp [(hall.mem o ho).1]
    have herror : batchOutcomeError outcomes = none := by
      unfold batchOutcomeError
      rw [List.findSome?_eq_none_iff]
      intro o ho
      exact (hall.mem o ho).2.2
    rw [wp_bind,hfailure,herror,hall.pendingInterrupt_eq]
    refine ⟨trivial,fun _ s'' _ => ?_⟩
    show benign.wp (commitToolResults a _ outcomes >>= _) r' s'' _ _
    have hcommit : commitToolResults a (appendDefinitive
        (messages.appendCanonical (toolUseMessage resp)) outcomes).canonical outcomes r' =
        .done (.ok (),r') := by
      show (if r'.executionDurable then _ else pure () : Engine Unit) r' = _
      rw [if_neg (by simp [hlocal])]
      rfl
    rw [wp_bind]
    refine wp_of_done hcommit (fun _ _ => ?_) (fun err herr => nomatch herr)
    refine ⟨rfl,hhashable,rfl,hall,?_⟩
    have hne : outcomes ≠ [] := by
      intro hnil
      have hlength := hall.ids
      rw [hnil] at hlength
      exact hcalls (map_eq_nil_iff.mp hlength.symm)
    have hblocks := hall.resultBlocks_eq hids
    have happend : appendDefinitive (messages.appendCanonical (toolUseMessage resp)) outcomes =
        (messages.appendCanonical (toolUseMessage resp)).appendCanonical
          ⟨.user,outcomes.map fun o => .toolResult o.result⟩ := by
      unfold appendDefinitive
      rw [hblocks]
      split
      · next hnil => exact absurd (map_eq_nil_iff.mp hnil) hne
      · rfl
    rw [happend]
    simp
  · rw [if_neg hhashable]
    exact hhashable

theorem benign_answerToolCalls : benign.wp (answerToolCalls a c resp available messages) r ()
      (fun answered _ _ => (∀ call ∈ resp.toolCalls, call.Hashable) ∧
        answered.2 = none ∧ Answered resp messages answered.1)
      (fun _ _ _ => ¬ ∀ call ∈ resp.toolCalls, call.Hashable) := by
  unfold answerToolCalls persistToolUses
  rw [wp_bind,wp_bind,wp_get,if_neg (by simp [hlocal]),wp_pure]
  rw [wp_bind]
  refine wp_mono (benign_coordinateToolBatch hlocal hcalls hids happroval) ?_ (fun _ _ _ h => h)
  rintro batch r' s' ⟨rfl,hhashable,hnone,hall,hcanonical⟩
  rw [wp_bind,wp_get,if_neg (by simp [hlocal]),wp_bind]
  refine ⟨trivial,?_⟩
  intro cause s'' hcause
  have hcause' : cause = none := hcause
  subst hcause'
  refine ⟨hhashable,hnone,batch.outcomes,?_,hall.ids⟩
  rw [hcanonical]
  simp
end
end
end
end Engine
/-- Without an execution store, on every run with benign answers the tool calls of a response are
answered by one user message with a result for each call in call order, and the turn goes on,
exactly if every input has a canonical form. -/
theorem tool_calls_answered_iff [Host] {a : Agent} {c : Context} {r r' : Run} {resp : ModelResponse}
    {available : List Tool} {messages : TurnMessages}
    {out : Except Error (TurnMessages × Option Interrupt)} (hlocal : r.executionDurable = false)
    (hcalls : resp.toolCalls ≠ []) (hids : ∀ call ∈ resp.toolCalls, call.toolUseID ≠ "")
    (happroval : ∀ call ∈ resp.toolCalls, ∀ t,
      (available.find? fun t => t.name == call.name) = some t → t.needsApproval = false)
    (hrun : Program.Runs Op.Benign (answerToolCalls a c resp available messages r) ()
      (.done (out,r')) ()) :
    (∃ answered, out = .ok (answered,none) ∧ Engine.Answered resp messages answered) ↔
      ∀ call ∈ resp.toolCalls, call.Hashable := by
  have hend := Logic.Safe.runs (benign_answerToolCalls hlocal hcalls hids happroval) hrun
  cases out with
  | error err =>
    have hnot : ¬ ∀ call ∈ resp.toolCalls, call.Hashable := hend
    constructor
    · rintro ⟨answered,herr,-⟩
      cases herr
    · intro hhashable
      exact absurd hhashable hnot
  | ok result =>
    obtain ⟨answered,asked⟩ := result
    obtain ⟨hhashable,hnone,hanswered⟩ : (∀ call ∈ resp.toolCalls, call.Hashable) ∧
      asked = none ∧ Engine.Answered resp messages answered := hend
    subst hnone
    exact ⟨fun _ => hhashable,fun _ => ⟨answered,rfl,hanswered⟩⟩

theorem Op.benign_total (op : Op) (s : Unit) : ∃ answer s', op.Benign s answer s' := by
  cases op with
  | contextErr => exact ⟨none,(),rfl⟩
  | handler start => exact ⟨⟨[],.failed "" false⟩,(),rfl⟩
  | ask query =>
    obtain ⟨answer⟩ : Nonempty query.Answer := inferInstance
    exact ⟨answer,(),trivial⟩
  | note n => exact ⟨(),(),trivial⟩
  | commitLease usage => exact ⟨none,(),trivial⟩
  | callModel request => exact ⟨.error (.text ""),(),trivial⟩
  | create | load | save | loadAfter | append => exact ⟨.error .notFound,(),trivial⟩

namespace Scenario
@[reducible] def emptyRefusingHost : Host where
  sha256Hex := id
  canonicalJSON input := if input = "" then .error "invalid JSON: EOF" else .ok input
  jsonString := id
  quote := id

def emptyInput : ModelResponse :=
  { toolCalls := [⟨"c1","t","\x7b\x7d"⟩,⟨"c2","t",""⟩] }
def twoInputs : ModelResponse :=
  { toolCalls := [⟨"c1","t","\x7b\x7d"⟩,⟨"c2","t","\x7b\x7d"⟩] }
end Scenario
theorem tool_calls_empty_input_aborts : ∃ out r',
    Program.Runs Op.Benign (@answerToolCalls emptyRefusingHost {} context
      emptyInput [{ name := "t" }] {} {}) () (.done (out,r')) () ∧
    out = .error .executionRecoveryUnsupported :=
  ⟨_,_,.refl _ (),rfl⟩

theorem tool_calls_answered_two : ∃ out r',
    Program.Runs Op.Benign (@answerToolCalls emptyRefusingHost {} context
      twoInputs [{ name := "t" }] {} {}) () (.done (out,r')) () ∧
    ∃ answered, out = .ok (answered,none) ∧ Engine.Answered twoInputs {} answered := by
  obtain ⟨⟨out,r'⟩,s',hrun⟩ := Program.exists_runs_done Op.benign_total
    (@answerToolCalls emptyRefusingHost {} context twoInputs [{ name := "t" }] {} {}) ()
  refine ⟨out,r',hrun,?_⟩
  apply (@tool_calls_answered_iff emptyRefusingHost _ _ _ _ _ _ _ _ rfl (by decide)
    (by decide) ?_ hrun).mpr
  · intro call hcall
    fin_cases hcall <;> exact ⟨_,rfl⟩
  · intro call hcall t ht
    fin_cases hcall <;> cases ht <;> rfl
end GudeAgents
