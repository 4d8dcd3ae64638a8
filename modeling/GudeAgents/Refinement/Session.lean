import GudeAgents.Refinement.Rules
/-!
# Runs against the two stores

`Live` relates the fields of a run to the worker's own events, `View` its messages to the
conversation.
-/
namespace GudeAgents
open Framework World Event
/-- Where the loop of a turn is, and how many iterations it may make. -/
structure Loop where
  limit : Nat
  iteration : Nat

inductive Mode where
  | turn (t : Loop)
  | recover
  | reconcile

/-- A run of an invocation or a resume; it has made no more calls than its iterations say. -/
structure Loop.Fits (w : Nat) (r : Run) (s : World) (t : Loop) : Prop where
  recovering : r.recovering=false
  turn : s.IsTurn w
  iteration : r.iteration=t.iteration
  counted : s.iterationOf w≤t.iteration
  entered : ∃ entry, s.Entered w entry ∧ entry.agent.maxIterations=t.limit

def Mode.Fits (w : Nat) (r : Run) (s : World) : Mode → Prop
  | .turn t => t.Fits w r s
  | .recover => r.recovering=true ∧ s.IsKind w .recover
  | .reconcile => r.recovering=true ∧ s.IsKind w .reconcile

structure Live (w : Nat) (mode : Mode) (r : Run) (e : Execution) (s : World) : Prop where
  durable : r.executionDurable=true
  named : r.convID≠""
  execution : r.execution=some e
  hand : s.hand? w=some e
  cursor : s.cursorOf w=⟨r.revision,r.lastSequence⟩
  usage : s.usageOf w=r.usage
  started : s.Started w e
  opened : s.Open w
  fits : mode.Fits w r s
  /-- A recovery counts on from the iteration of its batch. -/
  iterated : mode=.recover → ∀ b, e.toolBatch=some b → b.iteration=r.iteration

/-- Whatever error the run ends with, the postcondition of errors follows from `P`. -/
abbrev Raises (P : Run → World → Prop) (X : Error → Run → World → Prop) : Prop :=
  ∀ err r s, P r s → X err r s

def Stopped (w : Nat) (mode : Mode) (r : Run) (s : World) : Prop :=
  ∃ e, Live w mode r e s ∧ s.Balanced w

/-- The messages of a run: a part that the conversation ends with at the run's revision, then
messages that are not persisted yet. -/
structure View (r : Run) (ms : List Message) (s : World) : Prop where
  genuine : s.Genuine ⟨r.revision,r.lastSequence⟩
  count : r.persistedCount ≤ ms.length
  persisted : ms.take r.persistedCount <:+ s.messagesAt r.revision

section
variable {w : Nat} {mode : Mode} {r : Run} {e e' : Execution} {s s' : World} {ms : List Message}
  {ev : Event}
theorem Mode.Fits.mono (h : mode.Fits w r s) (hl : s.log <+: s'.log)
    (hiter : s'.iterationOf w=s.iterationOf w) : mode.Fits w r s' := by
  cases mode with
  | turn t =>
    obtain ⟨entry,hentered,hlimit⟩ := h.entered
    exact { recovering := h.recovering
            turn := h.turn.imp (fun h => h.mono hl) (fun h => h.mono hl)
            iteration := h.iteration, counted := hiter.trans_le h.counted
            entered := ⟨entry,hentered.mono hl,hlimit⟩ }
  | recover | reconcile => exact ⟨h.1,h.2.mono hl⟩

theorem World.Started.mono (h : s.Started w e) (hl : s.log <+: s'.log)
    (hstatus : e.status=.running → e'.status=.running) : s'.Started w e' := by
  cases h with
  | invoke e0 kind created => exact .invoke e0 (kind.mono hl) (hl.subset created)
  | resume i resp kind claimed seeded =>
    obtain ⟨e0,hc⟩ := claimed
    obtain ⟨u,hu⟩ := seeded
    exact .resume i resp (kind.mono hl) ⟨e0,hl.subset hc⟩ ⟨u,hl.subset hu⟩
  | recover e0 kind running loaded unpaused =>
    exact .recover e0 (kind.mono hl) (hstatus running) (hl.subset loaded) unpaused
  | reconcile e0 kind claimed => exact .reconcile e0 (kind.mono hl) (hl.subset claimed)

theorem Live.others (h : Live w mode r e s) (ho : Others w s s') : Live w mode r e s' :=
  { durable := h.durable
    named := h.named
    execution := h.execution
    hand := ho.hand?.trans h.hand
    cursor := ho.cursorOf.trans h.cursor
    usage := ho.usageOf.trans h.usage
    started := h.started.mono ho.isPrefix id
    opened := ho.opened.mpr h.opened
    fits := h.fits.mono ho.isPrefix ho.iterationOf
    iterated := h.iterated }

theorem Mode.Fits.record (h : mode.Fits w r s) (ev : Event)
    (hiter : ∀ n, World.addIterationEvent n ev=n) : mode.Fits w r (s.record ev) := by
  refine h.mono record_isPrefix ?_
  rw [iterationOf_record,hiter,ite_self]

theorem Live.record (h : Live w mode r e s) (hheld : ev.held?=none) (hcursor : ev.cursor?=none)
    (husage : World.addUsageEvent r.usage ev=r.usage)
    (hiter : ∀ n, World.addIterationEvent n ev=n)
    (hopen : ∀ label e v, save w label e v=ev → label.closing=false) :
    Live w mode r e (s.record ev) :=
  { durable := h.durable
    named := h.named
    execution := h.execution
    hand := by rw [World.hand?_record,hheld,h.hand]; simp
    cursor := by rw [cursorOf_record,hcursor,h.cursor]; simp
    usage := by rw [usageOf_record,h.usage,husage]; simp
    started := h.started.mono record_isPrefix id
    opened := opened_record.mpr ⟨h.opened,hopen⟩
    fits := h.fits.record ev hiter
    iterated := h.iterated }

def Execution.KeepsIteration (e e' : Execution) : Prop :=
  ∀ b', e'.toolBatch=some b' → ∃ b, e.toolBatch=some b ∧ b'.iteration=b.iteration

theorem Execution.KeepsIteration.of_eq (h : e'.toolBatch=e.toolBatch) : e.KeepsIteration e' :=
  fun b' hb' => ⟨b',h.symm.trans hb',rfl⟩

theorem Live.saved (h : Live w mode r e s) {label : SaveLabel} (hclosing : label.closing=false)
    (hstatus : e.status=.running → e'.status=.running)
    (hbatch : mode=.recover → e.KeepsIteration e') :
    Live w mode { r with execution := some e' } e' (s.record (.save w label e' .acked)) :=
  { durable := h.durable
    named := h.named
    execution := rfl
    hand := by simp [World.hand?_record,worker?,held?]
    cursor := by simp [cursorOf_record,worker?,cursor?,h.cursor]
    usage := by simp [usageOf_record,worker?,World.addUsageEvent,h.usage]
    started := h.started.mono record_isPrefix hstatus
    opened := opened_record.mpr ⟨h.opened,by
      rintro label' e0 v heq
      cases heq
      exact hclosing⟩
    fits := by
      have := h.fits.record (.save w label e' .acked) fun _ => rfl
      cases mode with
      | turn => exact ⟨this.1,this.2,this.3,this.4,this.5⟩
      | recover | reconcile => exact this
    iterated := fun hmode b' hb' => by
      obtain ⟨b,hb,hiter⟩ := hbatch hmode b' hb'
      exact hiter.trans (h.iterated hmode b hb) }

theorem Live.called {t : Loop} (h : Live w (.turn t) r e s) (hroom : s.iterationOf w<t.iteration)
    (u : Option TokenUsage) : Live w (.turn t) r e (s.record (.called w u)) := by
  have hfits := h.fits
  obtain ⟨entry,hentered,hlimit⟩ := hfits.entered
  refine { h with
    hand := by simp [World.hand?_record,worker?,held?,h.hand]
    cursor := by simp [cursorOf_record,worker?,cursor?,h.cursor]
    usage := by simp [usageOf_record,worker?,World.addUsageEvent,h.usage]
    started := h.started.mono record_isPrefix id
    opened := opened_record.mpr ⟨h.opened,by simp⟩
    fits :=
      { recovering := hfits.recovering
        turn := hfits.turn.imp (·.mono record_isPrefix) (·.mono record_isPrefix)
        iteration := hfits.iteration
        counted := ?_
        entered := ⟨entry,hentered.mono record_isPrefix,hlimit⟩ } }
  rw [iterationOf_record]
  simp only [worker?,↓reduceIte]
  exact hroom

theorem Live.iterate {t : Loop} (h : Live w (.turn t) r e s) :
    Live w (.turn { t with iteration := t.iteration + 1 }) { r with iteration := r.iteration + 1 } e
      s :=
  { h with
    fits := { h.fits with
      iteration := congrArg (· + 1) h.fits.iteration
      counted := h.fits.counted.trans (Nat.le_succ _) }
    iterated := by simp }

theorem Live.unsaved (h : Live w mode r e s) {label : SaveLabel} (hclosing : label.closing=false)
    {v : Verdict} (hv : v≠.acked) : Live w mode r e (s.record (.save w label e' v)) := by
  refine h.record ?_ rfl rfl (fun _ => rfl) ?_
  · cases v with
    | acked => exact absurd rfl hv
    | lost | refused => rfl
  · rintro label' e0 v' heq
    cases heq
    exact hclosing

variable {c : ConversationCursor} {label : AppendLabel}
theorem Live.appended (h : Live w mode r e s) {n : Nat} : Live w mode { r with
        revision := c.revision, lastSequence := c.lastSequence, persistedCount := n } e
      (s.record (.append w label ms c .acked)) :=
  { durable := h.durable
    named := h.named
    execution := h.execution
    hand := by simp [World.hand?_record,worker?,held?,h.hand]
    cursor := by simp [cursorOf_record,worker?,cursor?]
    usage := by simp [usageOf_record,worker?,World.addUsageEvent,h.usage]
    started := h.started.mono record_isPrefix id
    opened := opened_record.mpr ⟨h.opened,by simp⟩
    fits := by
      have := h.fits.record (.append w label ms c .acked) fun _ => rfl
      cases mode with
      | turn => exact ⟨this.1,this.2,this.3,this.4,this.5⟩
      | recover | reconcile => exact this
    iterated := h.iterated }

theorem Live.unappended (h : Live w mode r e s) {v : Verdict} (hv : v≠.acked) :
    Live w mode r e (s.record (.append w label ms c v)) := by
  refine h.record rfl ?_ rfl (fun _ => rfl) (by simp)
  cases v with
  | acked => exact absurd rfl hv
  | lost | refused => rfl

theorem Live.read (h : Live w mode r e s) {label : ReadLabel} (hlabel : label≠.priorToolUses)
    {after boundary n : Nat} : Live w mode { r with
        revision := c.revision, lastSequence := c.lastSequence, historyBoundary := boundary
        persistedCount := n } e
      (s.record (.read w label after c)) :=
  { durable := h.durable
    named := h.named
    execution := h.execution
    hand := by simp [World.hand?_record,worker?,held?,h.hand]
    cursor := by
      cases label with
      | turn | recovery => simp [cursorOf_record,worker?,cursor?]
      | priorToolUses => exact absurd rfl hlabel
    usage := by simp [usageOf_record,worker?,World.addUsageEvent,h.usage]
    started := h.started.mono record_isPrefix id
    opened := opened_record.mpr ⟨h.opened,by simp⟩
    fits := by
      have := h.fits.record (.read w label after c) fun _ => rfl
      cases mode with
      | turn => exact ⟨this.1,this.2,this.3,this.4,this.5⟩
      | recover | reconcile => exact this
    iterated := h.iterated }

section
variable (h : View r ms s)
include h
theorem View.mono (hup : s'.upto s.log=s) (hl : s.log <+: s'.log) : View r ms s' := by
  rw [← hup] at h
  have hat : s'.messagesAt r.revision=(s'.upto s.log).messagesAt r.revision :=
    messagesAt_of_prefix hl h.genuine.le
  exact ⟨h.genuine.mono hl,h.count,by rw [hat]; exact h.persisted⟩

theorem View.others (ho : Others w s s') : View r ms s' :=
  h.mono ho.upto ho.isPrefix

theorem View.messagesAt_others (ho : Others w s s') :
    s'.messagesAt r.revision=s.messagesAt r.revision := by
  have hle : r.revision≤(s'.upto s.log).revision := by
    rw [ho.upto]
    exact h.genuine.le
  rw [ messagesAt_of_prefix ho.isPrefix hle,ho.upto]

theorem View.record : View r ms (s.record ev) :=
  h.mono (by simp) record_isPrefix
theorem View.genuine_cursorOf (hl : Live w mode r e s) : s.Genuine (s.cursorOf w) := by
  rw [hl.cursor]
  exact h.genuine
end
theorem View.loaded (after boundary : Nat) {label : ReadLabel} {r : Run} : View { r with
        revision := s.cursor.revision, lastSequence := s.cursor.lastSequence
        historyBoundary := boundary, persistedCount := (s.loadAfter after).messages.length }
      (s.loadAfter after).messages (s.record (.read w label after s.cursor)) := by
  refine View.record ⟨genuine_cursor,le_refl _,?_⟩
  simp only [World.loadAfter,List.take_length,World.cursor,messagesAt_revision]
  exact List.drop_suffix _ _

theorem messagesAt_append (s : World) (w : Nat) (label : AppendLabel) (delta : List Message)
    (c : ConversationCursor) :
    (s.record (.append w label delta c .acked)).messagesAt (s.revision+1) =
      s.messages++delta := by
  have hrev : (s.record (.append w label delta c .acked)).revision=s.revision+1 := by
    simp [revision_record,appended?,Verdict.committed]
  rw [← hrev,messagesAt_revision,messages_record]
  simp [appended?,Verdict.committed]

theorem View.appended (h : View r ms s) (hrev : r.revision=s.revision) : View { r with
        revision := r.revision+1
        lastSequence := s.messages.length+(ms.drop r.persistedCount).length
        persistedCount := ms.length } ms
      (s.record (.append w label (ms.drop r.persistedCount)
        ⟨r.revision+1,s.messages.length+(ms.drop r.persistedCount).length⟩ .acked)) := by
  have hat := messagesAt_append s w label (ms.drop r.persistedCount)
    ⟨r.revision+1,s.messages.length+(ms.drop r.persistedCount).length⟩
  rw [← hrev] at hat
  refine ⟨⟨?_,?_,?_⟩,le_refl _,?_⟩
  · exact (h.genuine.seed_le).trans (Nat.le_succ _)
  · simp [revision_record,appended?,Verdict.committed,hrev]
  · rw [hat,List.length_append]
  · rw [hat,List.take_length]
    have hp := h.persisted
    rw [hrev,messagesAt_revision] at hp
    obtain ⟨before,hbefore⟩ := hp
    refine ⟨before,?_⟩
    conv_lhs => rw [← List.take_append_drop r.persistedCount ms]
    rw [← List.append_assoc,hbefore]
end
end GudeAgents
