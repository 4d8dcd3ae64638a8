import GudeAgents.Agent.Alone
import GudeAgents.Agent.Simulation
import GudeAgents.Protocol.Canonical
namespace GudeAgents
open Framework Logic World Request
section
variable [Host]
/-- The suffix that recovery starts from: nothing yet, with every call still planned, or the tool
uses of the batch followed by results for its calls, at most one for each. -/
def ToolBatchExecution.Admits (b : ToolBatchExecution) (suffix : List Message) : Prop :=
  (suffix = [] ∧ b.allPlanned = true) ∨ ∃ first rest, suffix = first :: rest ∧
    first.isUseOf b = true ∧ (∀ m ∈ rest, m.isToolResults = true) ∧
    (∀ id ∈ resultIDs rest, id ∈ b.callIDs) ∧ (resultIDs rest).Nodup
def Execution.activeFrom (e : Execution) (b : ToolBatchExecution) : Nat :=
  if b.toolUseLastSequence > 0 then b.toolUseLastSequence - 1 else e.lastSequence
def Op.reads : Op → Bool
  | .load | .loadAfter .. => true
  | _ => false
/-- Nothing was written. -/
def World.SameStores (s s' : World) : Prop := s'.stored = s.stored ∧ s'.appended = s.appended

theorem ToolBatchExecution.Admits.of_active {b : ToolBatchExecution} {suffix : List Message}
    {calls : List ToolCall} {answered : List String}
    (h : activeToolBatch suffix b = .ok (calls,answered)) : b.Admits suffix := by
  obtain ⟨first,rest,hsuffix,huse,-,-,hresults,hanswered,hids,hnodup⟩ :=
    activeToolBatch_ok h
  rw [hanswered,List.Nodup,List.pairwise_reverse] at hnodup
  exact .inr ⟨first,rest,hsuffix,huse,hresults,hids,hnodup.imp Ne.symm⟩

variable {w : Nat} {a : Agent} {c : Context} {s s0 : World} {e : Execution}
  {b : ToolBatchExecution} {r : Run} {suffix : List Message}
namespace Engine
/-- The logic of runs that only read while the stores stay as they were in `s0`. -/
abbrev reading (w : Nat) (s0 : World) : Logic effects World :=
  @Logic.always effects World (World.Perform w) fun op s => Op.reads op = true ∧ s0.SameStores s
abbrev Refuses {α : Type} (w : Nat) (s0 : World) (m : Engine α) (r : Run) (s : World) : Prop :=
  (reading w s0).wp m r s (fun _ _ _ => False) (fun _ _ s' => s0.SameStores s')

variable {X : Error → Run → World → Prop}
omit [Host] in
theorem refuses_load {Q : Except StoreFault Execution → Run → World → Prop} (hs : s0.SameStores s)
    (hcur : s.current? = some e) (hok : Q (.ok e) r (s.record (.load w e)))
    (herr : ∀ fault, Q (.error fault) r s) : (reading w s0).wp loadExecution r s Q X := by
  refine ⟨⟨rfl,hs⟩,?_⟩
  rintro answer s' (⟨e',hcur',rfl,rfl⟩ | ⟨⟨fault,rfl⟩,rfl⟩)
  · cases hcur.symm.trans hcur'
    exact hok
  · exact herr fault

omit [Host] in
theorem refuses_loadAfter {label : ReadLabel} {after : Nat}
    {Q : Except StoreFault ConversationSnapshot → Run → World → Prop} (hs : s0.SameStores s)
    (hok : Q (.ok (s.loadAfter after)) r (s.record (.read w label after s.cursor)))
    (herr : ∀ fault, Q (.error fault) r s) : (reading w s0).wp (loadAfter label after) r s Q X := by
  refine ⟨⟨rfl,hs⟩,?_⟩
  rintro answer s' (⟨rfl,rfl⟩ | ⟨⟨fault,rfl⟩,rfl⟩)
  · exact hok
  · exact herr fault

section
variable (hs : s0.SameStores s)
include hs
theorem refuses_active {α : Type} (hforeign : ¬ b.Admits suffix)
    {f : List ToolCall × List String → Engine α} :
    Refuses w s0 (Routine.ofExcept (activeToolBatch suffix b) >>= f) r s := by
  rw [Refuses,wp_bind,wp_ofExcept]
  split
  · next out hok => exact absurd (.of_active hok) hforeign
  · exact hs

section
variable (hr : r.execution.bind (·.toolBatch) = some b)
include hr
section
variable (hforeign : ¬ b.Admits suffix)
include hforeign
theorem refuses_recoverResults : Refuses w s0 (recoverResults suffix) r s := by
  unfold recoverResults
  rw [Refuses,wp_bind,wp_get]
  simp only [hr]
  exact refuses_active hs hforeign

theorem refuses_finishResolutionClaim : Refuses w s0 (finishResolutionClaim a suffix) r s := by
  unfold finishResolutionClaim
  rw [Refuses,wp_bind,wp_get]
  simp only [hr]
  split
  · exact hs
  · exact refuses_active hs hforeign

theorem reading_recoverToolUses : (reading w s0).wp (recoverToolUses a suffix) r s
      (fun out r' s' => out = suffix ∧ r' = r ∧ s' = s) (fun _ _ s' => s0.SameStores s') := by
  unfold recoverToolUses
  rw [wp_bind,wp_get]
  simp only [hr]
  by_cases hplanned : b.allPlanned = true
  · -- an empty suffix of a planned batch is admitted
    have hne : suffix ≠ [] := fun h => hforeign (.inl ⟨h,hplanned⟩)
    rw [if_pos hplanned,wp_bind]
    unfold restoreToolUses
    rw [if_neg hne,wp_pure]
    exact wp_mono (refuses_active hs hforeign) (fun _ _ _ h => h.elim) (fun _ _ _ h => h)
  · rw [if_neg hplanned,wp_pure]
    exact ⟨rfl,rfl,rfl⟩

theorem reading_recoverResolution : (reading w s0).wp (recoverResolution a suffix) r s
      (fun out r' s' => out = suffix ∧ r' = r ∧ s' = s) (fun _ _ s' => s0.SameStores s') := by
  unfold recoverResolution
  rw [wp_bind,wp_get]
  simp only [hr]
  split
  · exact wp_mono (refuses_finishResolutionClaim hs hr hforeign) (fun _ _ _ h => h.elim)
      (fun _ _ _ h => h)
  · rw [wp_pure]
    exact ⟨rfl,rfl,rfl⟩
end
end
theorem refuses_recoverBatch (hr : r.execution = some e) (hbatch : e.toolBatch = some b)
    (hforeign : ¬ b.Admits (s.messages.drop (e.activeFrom b))) :
    Refuses w s0 (recoverBatch a c e b) r s := by
  unfold recoverBatch
  rw [Refuses,wp_bind,wp_modify,wp_bind]
  refine refuses_loadAfter hs ?_ (fun _ => hs)
  have hs' : s0.SameStores (s.record (.read w .recovery (e.activeFrom b) s.cursor)) := by
    simpa [World.SameStores,stored_record,appended_record,Event.stored?,Event.appended?] using hs
  have hr' : r.execution.bind (·.toolBatch) = some b := by rw [hr,Option.bind_some,hbatch]
  simp only [World.loadAfter,adoptSnapshot,wp_bind,wp_modify]
  refine wp_mono (reading_recoverToolUses hs' hr' hforeign) ?_ (fun _ _ _ h => h)
  rintro _ _ _ ⟨rfl,rfl,rfl⟩
  refine wp_mono (reading_recoverResolution hs' hr' hforeign) ?_ (fun _ _ _ h => h)
  rintro _ _ _ ⟨rfl,rfl,rfl⟩
  exact wp_mono (refuses_recoverResults hs' hr' hforeign) (fun _ _ _ h => h.elim) (fun _ _ _ h => h)
end
theorem refuses_recoverExecution (hcur : s.current? = some e) (hrunning : e.status = .running)
    (hpending : e.pendingPause = none) (hbatch : e.toolBatch = some b)
    (hforeign : ¬ b.Admits (s.messages.drop (e.activeFrom b))) :
    Refuses w s (recoverExecution a c) r s := by
  have hs : s.SameStores s := ⟨rfl,rfl⟩
  unfold recoverExecution
  split
  · exact hs
  rw [Refuses,wp_bind]
  refine refuses_load hs hcur ?_ (fun _ => hs)
  have hs' : s.SameStores (s.record (.load w e)) := by
    simp [World.SameStores,stored_record,appended_record,Event.stored?,Event.appended?]
  simp only [wp_bind,wp_modify,hpending,hrunning,hbatch,reduceCtorEq,false_and,if_false]
  split
  · exact hs'
  · apply refuses_recoverBatch hs' rfl hbatch
    simpa [messages_record,Event.appended?] using hforeign
end Engine
/-- A recovery of a tool boundary whose transcript is not the batch's own only reads, whatever the
stores answer, and it ends with an error. -/
theorem recovery_refuses_foreign (hcur : s.current? = some e) (hrunning : e.status = .running)
    (hbatch : e.toolBatch = some b) (hpending : e.pendingPause = none)
    (hforeign : ¬ b.Admits (s.messages.drop (e.activeFrom b))) :
    (∃ response s', Program.Runs (World.Perform w) (recover.program a c) s (.done response) s') ∧
    ∀ p s', Program.Runs (World.Perform w) (recover.program a c) s p s' →
      s.SameStores s' ∧ (match p with
        | .done response => response.error ≠ none
        | .call op _ => Op.reads op = true) := by
  refine ⟨Program.exists_runs_done (perform_total w) _ s,?_⟩
  intro p s' hrun
  have hsafe : (Engine.reading w s).Safe (recover.program a c)
      (fun response s' => s.SameStores s' ∧ response.error ≠ none) s := by
    refine Logic.Safe.bind.mpr (Logic.Safe.mono
      (Engine.refuses_recoverExecution hcur hrunning hpending hbatch hforeign) ?_)
    rintro ⟨err | value,r⟩ s' h
    · exact ⟨h,by simp [executionResponse]⟩
    · exact h.elim
  have hleft := hsafe.runs hrun
  cases p with
  | done response => exact hleft
  | call op next => exact ⟨hleft.1.2,hleft.1.1⟩
end
namespace Scenario
def launchedBatch : ToolBatchExecution :=
  { iteration := 1, toolUseRevision := 1, toolUseLastSequence := 1
    calls := [{ callID := "c1", name := "t", status := .ready, idempotencyKey := "", inputHash := ""
                input := none, replaySafe := true }] }
def launchedExecution : Execution :=
  { id := "execution", conversationID := "conversation", revision := 1, lastSequence := 1
    status := .running, phase := .tools, toolBatch := some launchedBatch, version := 1 }
def foreignTranscript : World :=
  { seedRevision := 1, seedMessages := [⟨.user,[.text "hello"]⟩]
    log := [.save 0 .ready launchedExecution .acked] }
end Scenario
open Scenario in
theorem recovery_refuses_foreign_text : (∃ response s',
      Program.Runs (World.Perform 1) (@program plainHost {} context .recover)
        foreignTranscript (.done response) s') ∧
    ∀ p s', Program.Runs (World.Perform 1) (@program plainHost {} context .recover)
        foreignTranscript p s' →
      foreignTranscript.SameStores s' ∧ (match p with
        | .done response => response.error ≠ none
        | .call op _ => Op.reads op = true) := by
  refine @recovery_refuses_foreign plainHost 1 {} context foreignTranscript launchedExecution
    launchedBatch rfl rfl rfl rfl ?_
  rintro (⟨hnil,-⟩ | ⟨first,rest,hsuffix,huse,-⟩)
  · cases hnil
  · cases hsuffix
    cases huse
end GudeAgents
