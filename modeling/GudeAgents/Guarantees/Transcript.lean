import GudeAgents.Guarantees.Approvals
import GudeAgents.Guarantees.Results
import GudeAgents.Protocol.WriteAhead
namespace GudeAgents
open List Scenario
/-- By the time a message other than a tool-result message follows a tool use, every call of that
use has exactly one result. -/
def OneResultEach (messages : List Message) : Prop :=
  ∀ (i j : Nat) (m m' : Message), i < j → messages[i]? = some m → messages[j]? = some m' →
    m'.isToolResults = false →
    ∀ u ∈ m.toolUses, (resultIDs (messages.take j)).count u.toolUseID = 1

section Lists
variable {ms new : List Message}
theorem OneResultEach.append_results (h : OneResultEach ms)
    (hnew : ∀ m ∈ new, m.isToolResults = true) : OneResultEach (ms ++ new) := by
  intro i j m m' hij hi hj hother u hu
  by_cases hlt : j < ms.length
  · rw [List.getElem?_append_left (by omega)] at hi
    rw [List.getElem?_append_left hlt] at hj
    rw [take_append_of_le_length hlt.le]
    exact h i j m m' hij hi hj hother u hu
  · rw [List.getElem?_append_right (by omega)] at hj
    rw [hnew m' (mem_of_getElem? hj)] at hother
    cases hother

theorem OneResultEach.append_closed (h : OneResultEach ms) (hnodup : (resultIDs ms).Nodup)
    (hclosed : ∀ m ∈ ms, ∀ u ∈ m.toolUses, u.toolUseID ∈ resultIDs ms) (hquiet : resultIDs new = [])
    (huses : ∀ (i j : Nat) (m m' : Message), i < j → new[i]? = some m → new[j]? = some m' →
      m.toolUses = []) : OneResultEach (ms ++ new) := by
  intro i j m m' hij hi hj hother u hu
  by_cases hlt : j < ms.length
  · rw [List.getElem?_append_left (by omega)] at hi
    rw [List.getElem?_append_left hlt] at hj
    rw [take_append_of_le_length hlt.le]
    exact h i j m m' hij hi hj hother u hu
  · rw [List.getElem?_append_right (by omega)] at hj
    have hresults : resultIDs ((ms ++ new).take j) = resultIDs ms := by
      have htail : resultIDs (new.take (j - ms.length)) = [] := by
        rw [resultIDs,flatMap_eq_nil_iff] at hquiet ⊢
        intro x hx
        exact hquiet x (mem_of_mem_take hx)
      rw [take_append,take_of_length_le (by omega),resultIDs_append,htail,append_nil]
    by_cases hold : i < ms.length
    · rw [List.getElem?_append_left hold] at hi
      rw [hresults]
      exact count_eq_one_of_mem hnodup (hclosed m (mem_of_getElem? hi) u hu)
    · rw [List.getElem?_append_right (by omega)] at hi
      rw [huses _ _ m m' (by omega) hi hj] at hu
      cases hu
end Lists
section
variable [Host] {s : World} {w : Nat} {e : Execution} {label : AppendLabel} {ms : List Message}
theorem LegalAppend.oneResultEach (hv : Valid s) (hidle : s.AnswersIdle) (hh : s.hand? w = some e)
    (hl : LegalAppend s w e label ms) (h : OneResultEach s.added) :
    OneResultEach (s.added ++ ms) := by
  have hnodup := hv.resultIDs_nodup
  cases hl with
  | turn nonempty text base =>
    obtain ⟨l,ρ,hbase⟩ := base.idle hv hidle
    apply h.append_closed hnodup (hbase.closed hv)
    · rw [resultIDs,flatMap_eq_nil_iff]
      intro m hm
      simp [Message.resultIDs,(text m hm).2]
    · intro i j m m' _ hi _
      exact (text m (mem_of_getElem? hi)).1
  | toolUse batch planned uses nodup behind =>
    have hclosed := LegalAppend.closed_of_use hv hh (.toolUse batch planned uses nodup behind)
    apply h.append_closed hnodup hclosed
    · simp [resultIDs,Message.resultIDs,Message.toolResults_of_isUseOf uses]
    · intro i j m m' hij _ hj
      have := (List.getElem?_eq_some_iff.mp hj).1
      rw [length_singleton] at this
      omega
  | results batch dispatchable dispatched nonempty =>
    exact h.append_results (forall_mem_singleton.mpr (isToolResults_resultBlocks nonempty))
  | resolution => exact h.append_results (forall_mem_singleton.mpr rfl)

theorem Valid.oneResultEach (hv : Valid s) (hidle : s.AnswersIdle) : OneResultEach s.added := by
  apply hv.added_induction
  · intro i j m m' _ hi
    cases hi
  · intro l w e label ms hlog hv hh hl
    exact hl.oneResultEach hv (hidle.upto hlog) hh

/-- In every run in which a human answer only ever claims a record without an active batch, no
message other than a tool result follows a tool use before each of its calls has its result. -/
theorem transcript_well_formed {seed : World} (h : Reaches seed s) (hidle : s.AnswersIdle) :
    OneResultEach s.added :=
  h.valid.oneResultEach hidle
end
namespace Scenario
def userText (text : String) : Message := ⟨.user,[.text text]⟩

def answeredEarly : Script :=
  let a : Agent := { tools := [{ name := "t" }] }
  [enter a (.invoke "hi"),.run 0 99,.step 0 (callsTools ["c1"]),.run 0 99,
    .step 0 (asks "why"),.run 0 2,.crash 0,
    enter a .recover,.run 1 99,
    enter a (answer .humanInput 8 (.respond "so")),.run 2 99,.step 2 (answers "bye"),.run 2 99]

def answeredInTime : Script :=
  let a : Agent := { tools := [{ name := "t" }] }
  [enter a (.invoke "hi"),.run 0 99,.step 0 (callsTools ["c1"]),.run 0 99,
    .step 0 (asks "why"),.run 0 99,
    enter a (answer .humanInput 9 (.respond "so")),.run 1 99,.step 1 (answers "bye"),.run 1 99]
end Scenario
theorem transcript_answered_early : ∃ s, @Reaches plainHost {} s ∧ ¬ OneResultEach s.added := by
  obtain ⟨s,hs,hP⟩ := @exists_reaches plainHost {} answeredEarly
    (fun s => decide (s.added[1]? = some (toolUseMessage { toolCalls := [toolCall "c1"] }) ∧
      s.added[2]? = some (userText "so") ∧ resultIDs (s.added.take 2) = [])) rfl
    (by decide +kernel)
  obtain ⟨huse,htext,hnone⟩ := of_decide_eq_true hP
  refine ⟨s,hs,?_⟩
  intro h
  have hcount := h 1 2 _ _ (by omega) huse htext rfl ⟨"c1","t","\x7b\x7d"⟩ (by decide)
  rw [hnone] at hcount
  cases hcount

theorem transcript_answered_in_time : ∃ s, @Reaches plainHost {} s ∧ s.AnswersIdle ∧
    s.added.length = 5 ∧ OneResultEach s.added := by
  obtain ⟨s,hs,hP⟩ := @exists_reaches plainHost {} answeredInTime
    (fun s => decide (s.AnswersIdle ∧ s.added.length = 5)) rfl (by decide +kernel)
  obtain ⟨hidle,hlength⟩ := of_decide_eq_true hP
  exact ⟨s,hs,hidle,hlength,@transcript_well_formed plainHost s {} hs hidle⟩

section
variable [Host] {s : World}
/-- What the stored record guarantees about the transcript. -/
structure WriteAhead (s : World) : Prop where
  launched : ∀ e b call, s.current? = some e → e.toolBatch = some b → call ∈ b.calls →
    call.status ≠ .planned → UseAt s.messages b.toolUseLastSequence b
  completed : ∀ e b call, s.current? = some e → e.toolBatch = some b → call ∈ b.calls →
    call.status = .completed → AnsweredAfter s.messages b.toolUseLastSequence call.callID
  /-- Once a planned batch has been cleared, its assistant turn and all results are there. -/
  cleared : ∀ p n e e' b, s.Plans p e b → p < n → s.At n e' → e'.toolBatch = none →
    Done s e.startLastSequence b
  /-- A planned batch keeps its inputs, and behind the stored cursor lies at most its turn. -/
  planned : ∀ e b, s.current? = some e → e.toolBatch = some b → b.allPlanned = true →
    (∀ call ∈ b.calls, ∃ input, call.input = some input ∧
      toolInputHash input = .ok call.inputHash) ∧
    (s.messages.drop e.lastSequence = [] ∨
      ∃ m, s.messages.drop e.lastSequence = [m] ∧ m.isUseOf b = true)

/-- In every run in which a human answer only ever claims a record without an active batch, the
stored record and the transcript agree in every state. -/
theorem write_ahead {seed : World} (h : Reaches seed s) (hidle : s.AnswersIdle) : WriteAhead s := by
  have hv := h.valid
  have hc := hv.crossStore
  refine ⟨?_,?_,?_,?_⟩
  · intro e b call hcurrent hb hcall hstatus
    have hat := (hv.current_stored hcurrent).2.2
    exact ((hc.placed hat hb).launched ⟨call,hcall,hstatus⟩).2.2
  · intro e b call hcurrent hb hcall hstatus
    exact hc.completed (hv.current_stored hcurrent).2.2 hb hcall hstatus
  · intro p n e e' b hp hlt hn hnone
    exact hc.done hlt hp hn hnone
  · intro e b hcurrent hb hplanned
    obtain ⟨-,hversion,hat⟩ := hv.current_stored hcurrent
    rw [hversion] at hat
    constructor
    · intro call hcall
      apply (hv.sound hat hb).inputs call hcall
      rw [ToolBatchExecution.allPlanned,all_eq_true] at hplanned
      simpa using hplanned call hcall
    · exact hv.planned_tail hidle hat hb (ToolBatchExecution.allPlanned_eq_true.mp hplanned)
end
namespace Scenario
def uses (calls : List (String × String)) : Choice :=
  .model { toolCalls := calls.map fun call => ⟨call.1,call.2,"\x7b\x7d"⟩
           usage := { inputTokens := 1 } }

/-- While a resume is between its claim and its reload, a recovery whose caller may not pay runs
the other call and stores its question.  The resume finishes that batch and plans the next one with
the question still pending; the answer to it is then appended behind the planned cursor. -/
def answeredBehindPlan : Script :=
  let a : Agent := { tools := [{ name := "pay", needsApproval := true },{ name := "ask" }] }
  [enter a (.invoke "hi"),.run 0 99,.step 0 (uses [("c1","pay"),("c2","ask")]),.run 0 99,
    enter a (answer .approval 7 (.all ⟨true,""⟩)),.run 1 2,
    enter a .recover,.run 2 3,.step 2 .denied,.run 2 99,.step 2 (asks "why"),.run 2 2,
    .crash 2,
    .run 1 99,.step 1 (returns "paid"),.run 1 1,.step 1 .denied,.run 1 99,
    .step 1 (uses [("c3","ask")]),.run 1 5,.crash 1,
    enter a .recover,.run 3 99,
    enter a (answer .humanInput 16 (.respond "so")),.run 4 99,.step 4 (answers "bye"),.run 4 99]

def stoppedAfterPlan : Script :=
  let a : Agent := { tools := [{ name := "t" }] }
  [enter a (.invoke "hi"),.run 0 99,.step 0 (callsTools ["c1"]),.run 0 6,.crash 0]
end Scenario
theorem write_ahead_answered_behind : ∃ s, @Reaches plainHost {} s ∧ ¬ @WriteAhead plainHost s := by
  obtain ⟨s,hs,hP⟩ := @exists_reaches plainHost {} answeredBehindPlan
    (fun s => s.current?.any fun e => e.toolBatch.any fun b =>
      b.allPlanned && decide ((s.messages.drop e.lastSequence).length = 2)) rfl (by decide +kernel)
  obtain ⟨e,hcurrent,hP⟩ := (Option.any_eq_true _ _).mp hP
  obtain ⟨b,hb,hP⟩ := (Option.any_eq_true _ _).mp hP
  obtain ⟨hplanned,hlength⟩ := Bool.and_eq_true_iff.mp hP
  replace hlength := of_decide_eq_true hlength
  refine ⟨s,hs,?_⟩
  intro h
  obtain ⟨-,htail⟩ := @WriteAhead.planned plainHost s h e b hcurrent hb hplanned
  rcases htail with hnil | ⟨m,hone,-⟩
  · rw [hnil] at hlength
    cases hlength
  · rw [hone] at hlength
    cases hlength

theorem write_ahead_stopped : ∃ s, @Reaches plainHost {} s ∧ s.AnswersIdle ∧
    s.version = 4 ∧ @WriteAhead plainHost s := by
  obtain ⟨s,hs,hP⟩ := @exists_reaches plainHost {} stoppedAfterPlan
    (fun s => decide (s.AnswersIdle ∧ s.version = 4)) rfl (by decide +kernel)
  obtain ⟨hidle,hversion⟩ := of_decide_eq_true hP
  exact ⟨s,hs,hidle,hversion,@write_ahead plainHost s {} hs hidle⟩
end GudeAgents
