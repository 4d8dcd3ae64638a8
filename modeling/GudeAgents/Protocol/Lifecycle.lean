import GudeAgents.Protocol.Cursors
/-!
# The life of a record

What one accepted save does to the status, the pause, the pending pause and the counters of a
record.
-/
namespace GudeAgents
open Execution
def SaveLabel.ordinary : SaveLabel → Bool
  | startCursor | ready | beginTool _ | removeToolCalls _ | approvals | retry _ | resolution
  | finishResolution => true
  | _ => false

structure Execution.SameLife (e e' : Execution) : Prop where
  status : e'.status=e.status
  pause : e'.pause=e.pause
  pendingPause : e'.pendingPause=e.pendingPause

section
variable [Host] {s : World} {w k : Nat} {label : SaveLabel} {e next : Execution}
theorem Valid.entered_unique (hv : Valid s) {entry entry' : Entry} (h : s.Entered w entry)
    (h' : s.Entered w entry') : entry=entry' := by
  by_contra hne
  obtain ⟨l,hl⟩ := exists_prefix_of_mem h
  obtain ⟨l',hl'⟩ := exists_prefix_of_mem h'
  have hfirst : (s.upto l).own w=[] := hv.legal hl
  have hfirst' : (s.upto l').own w=[] := hv.legal hl'
  rcases before_or_after hl hl' (by simpa using hne) with hle | hle
  · have : Event.began w entry∈(s.upto l').own w := World.mem_own.mpr ⟨mem_of_concat hle,rfl⟩
    rw [hfirst'] at this
    cases this
  · have : Event.began w entry'∈(s.upto l).own w := World.mem_own.mpr ⟨mem_of_concat hle,rfl⟩
    rw [hfirst] at this
    cases this

theorem Valid.kind_unique (hv : Valid s) {kind kind' : RequestKind} (h : s.IsKind w kind)
    (h' : s.IsKind w kind') : kind=kind' := by
  obtain ⟨entry,hentered,rfl⟩ := h
  obtain ⟨entry',hentered',rfl⟩ := h'
  rw [hv.entered_unique hentered hentered']

inductive LifeStep (s : World) (w : Nat) (e : Execution) : SaveLabel → Execution → Prop where
  | kept {label : SaveLabel} {next : Execution} (ordinary : label.ordinary=true)
      (same : e.SameLife next) (usage : next.usage=e.usage)
      (iteration : next.iteration=e.iteration) : LifeStep s w e label next
  | progress {next : Execution} (same : e.SameLife next) (turn : s.IsTurn w)
      (balanced : s.Balanced w) (usage : next.usage=s.usageOf w)
      (counted : s.iterationOf w≤next.iteration) : LifeStep s w e .runtimeProgress next
  | planned {next : Execution} (same : e.SameLife next) (turn : s.IsTurn w)
      (usage : next.usage=e.usage) (counted : s.iterationOf w≤next.iteration) :
      LifeStep s w e .plan next
  | pending {next : Execution} {p : ExecutionPause} {b : ToolBatchExecution}
      (status : next.status=e.status) (pause : next.pause=e.pause)
      (stored : next.pendingPause=some p) (unpaused : s.Unpaused w) (balanced : s.Balanced w)
      (batch : e.toolBatch=some b) (usage : next.usage=s.usageOf w)
      (counted : s.IsTurn w ∧ s.iterationOf w≤next.iteration ∨
        s.IsKind w .recover ∧ next.iteration=b.iteration) : LifeStep s w e .pendingPause next
  | claimed {next : Execution} {i : Interrupt} {resp : ResumeResponse} (kind : s.IsKind w .resume)
      (paused : e.status=.paused) (status : next.status=.running) (pause : next.pause=none)
      (pending : next.pendingPause=e.pendingPause) (usage : next.usage=e.usage)
      (iteration : next.iteration=e.iteration) : LifeStep s w e (.resumeClaim i resp) next
  | paused {next : Execution} {p : ExecutionPause} (turn : s.IsTurn w)
      (stored : e.pendingPause=some p) (status : next.status=.paused)
      (pause : next.pause=some p) (cleared : next.pendingPause=none) (balanced : s.Balanced w)
      (usage : next.usage=s.usageOf w) (counted : s.iterationOf w≤next.iteration) :
      LifeStep s w e .pause next
  | projected {label : SaveLabel} {next : Execution} {p : ExecutionPause}
      (which : label=.pauseRecovered ∨ label=.projectPause) (kind : s.IsKind w .recover)
      (stored : e.pendingPause=some p) (status : next.status=.paused)
      (pause : next.pause=some p) (cleared : next.pendingPause=none)
      (usage : next.usage=e.usage) (iteration : next.iteration=e.iteration) :
      LifeStep s w e label next
  | finalized {next : Execution} (turn : s.IsTurn w) (terminal : next.status.terminal=true)
      (pause : next.pause=none) (pending : next.pendingPause=e.pendingPause)
      (idle : e.toolBatch=none) (batch : next.toolBatch=none)
      (balanced : s.Balanced w ∨ Event.leaseCommit w false∈s.log)
      (usage : next.usage=s.usageOf w) (counted : s.iterationOf w≤next.iteration) :
      LifeStep s w e .finalize next

theorem LegalBody.lifeStep (h : LegalBody s w e label next) (n : Nat) :
    LifeStep s w e label { next with version := n } := by
  have hbatch := h.onBatch
  cases h with
  | startCursor => exact .kept rfl ⟨rfl,rfl,rfl⟩ rfl rfl
  | runtimeProgress iteration turn balanced unpaused counted =>
    exact .progress ⟨rfl,rfl,rfl⟩ turn balanced rfl counted
  | plan planned nonempty start unused genuine after base quiet turn synced unpaused counted =>
    obtain ⟨-,_,-,rfl⟩ := plan_ok planned
    exact .planned ⟨rfl,rfl,rfl⟩ turn rfl counted
  | ready | beginTool | removeToolCalls | approvals | finishResolution =>
    obtain ⟨_,_,_,_,_,-,hn,heq⟩ := hbatch rfl
    rw [heq]
    exact .kept rfl ⟨rfl,rfl,rfl⟩ rfl (hn (by simp)).1
  | pendingPause iteration batch dispatchable dispatched noError interrupts holds genuine ahead
      boundary current synced balanced unpaused counted =>
      exact .pending rfl rfl rfl unpaused balanced batch rfl counted
  | pauseRecovered kind pending =>
    exact .projected (.inl rfl) kind pending rfl rfl rfl rfl rfl
  | pause iteration turn pending genuine ahead active balanced counted =>
    exact .paused turn pending rfl rfl rfl balanced rfl counted
  | finalize iteration turn terminal idle balanced cursor counted =>
    exact .finalized turn terminal rfl rfl idle idle balanced rfl counted

theorem LegalSave.lifeStep (h : LegalSave s w label next) (hand : s.hand? w=some e) :
    LifeStep s w e label next := by
  cases h with
  | create id conversationID kind fresh =>
    rw [fresh] at hand
    cases hand
  | resumeClaim kind hand' paused =>
    cases hand.symm.trans hand'
    exact .claimed kind paused rfl rfl rfl rfl rfl
  | projectPause kind hand' pending =>
    cases hand.symm.trans hand'
    exact .projected (.inr rfl) kind pending rfl rfl rfl rfl rfl
  | retry kind hand' | resolution kind hand' =>
    cases hand.symm.trans hand'
    exact .kept rfl ⟨rfl,rfl,rfl⟩ rfl rfl
  | body hand' started opened guarded =>
    cases hand.symm.trans hand'
    exact guarded.lifeStep _

theorem LegalSave.created_life (h : LegalSave s w .create next) : next.status=.running ∧
    next.pause=none ∧ next.pendingPause=none ∧ next.usage=0 ∧ next.iteration=0 := by
  cases h with
  | create => exact ⟨rfl,rfl,rfl,rfl,rfl⟩
  | body hand started opened guarded => cases guarded

theorem Valid.claimed_kind (hv : Valid s) {i : Interrupt} {resp : ResumeResponse}
    (h : s.Claimed w i resp) : s.IsKind w .resume := by
  obtain ⟨e1,hmem⟩ := h
  obtain ⟨l,hl⟩ := exists_prefix_of_mem hmem
  have hlegal := (hv.legal hl).2
  rcases hlegal.hand with ⟨hcreate,-⟩ | ⟨e,hhand,-⟩
  · cases hcreate
  · cases hlegal.lifeStep hhand with
    | kept ordinary => cases ordinary
    | projected which => rcases which with h | h <;> cases h
    | claimed kind =>
      obtain ⟨entry,hentered,hkind⟩ := kind
      exact ⟨entry,(prefix_of_concat hl).subset hentered,hkind⟩
end
end GudeAgents
