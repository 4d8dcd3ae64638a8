import GudeAgents.Protocol.Batches
/-!
# The chain of stored records

Along the accepted saves a batch lives from the save that planned it to the one that clears it.
-/
namespace GudeAgents
open World Execution ToolBatchExecution Event List
/-- The record that was stored as the `k`-th version. -/
def World.At (s : World) (k : Nat) (e : Execution) : Prop :=
  (s.stored[k]?).map (·.execution)=some e
def World.Plans (s : World) (p : Nat) (e : Execution) (b : ToolBatchExecution) : Prop :=
  ∃ w, s.stored[p]?=some ⟨w,.plan,e⟩ ∧ e.toolBatch=some b

/-- The save at `p` planned the batch that is still stored at `k`. -/
structure World.PlannedAt (s : World) (p k : Nat) (ep : Execution) (bp : ToolBatchExecution) :
    Prop where
  le : p≤k
  plans : s.Plans p ep bp
  alive : ∀ {j w : Nat} {label : SaveLabel} {e : Execution}, p<j → j≤k →
    s.stored[j]?=some ⟨w,label,e⟩ → label≠.plan ∧ e.toolBatch≠none

variable {p : Nat}
section
variable {s s' : World} {k w : Nat} {label : SaveLabel} {e e' : Execution}
  {b b' : ToolBatchExecution}
theorem World.at_of_stored (h : s.stored[k]?=some ⟨w,label,e⟩) : s.At k e :=
  Option.map_eq_some_iff.mpr ⟨_,h,rfl⟩
theorem World.At.stored (h : s.At k e) : ∃ w label, s.stored[k]?=some ⟨w,label,e⟩ := by
  obtain ⟨⟨w,label,_⟩,hst,rfl⟩ := Option.map_eq_some_iff.mp h
  exact ⟨w,label,hst⟩
theorem World.At.mono (hs : s.stored <+: s'.stored) (h : s.At k e) : s'.At k e := by
  obtain ⟨st,hst,rfl⟩ := Option.map_eq_some_iff.mp h
  exact Option.map_eq_some_iff.mpr ⟨st,getElem?_of_isPrefix hs hst,rfl⟩
theorem World.At.lt (h : s.At k e) : k<s.version := by
  obtain ⟨st,hst,-⟩ := Option.map_eq_some_iff.mp h
  exact (List.getElem?_eq_some_iff.mp hst).1
theorem World.At.unique (h : s.At k e) (h' : s.At k e') : e=e' :=
  Option.some.inj (Eq.trans (Eq.symm h) h')
theorem World.Plans.at (h : s.Plans k e b) : s.At k e := by
  obtain ⟨w,hst,-⟩ := h
  exact at_of_stored hst
theorem World.Plans.batch (h : s.Plans k e b) : e.toolBatch=some b := h.choose_spec.2
theorem World.Plans.mono (hs : s.stored <+: s'.stored) (h : s.Plans k e b) : s'.Plans k e b := by
  obtain ⟨w,hst,hb⟩ := h
  exact ⟨w,getElem?_of_isPrefix hs hst,hb⟩

theorem World.at_record_cases {ev : Event} (h : (s.record ev).At k e) :
    s.At k e ∨ k=s.version ∧ ∃ w label v, ev=.save w label e v ∧ v.committed=true := by
  obtain ⟨w,label,hst⟩ := h.stored
  rcases stored_record_cases hst with hold | ⟨hk,v,hev,hv⟩
  · exact .inl (at_of_stored hold)
  · exact .inr ⟨hk,w,label,v,hev,hv⟩

theorem World.plans_record_cases {ev : Event} (h : (s.record ev).Plans k e b) :
    s.Plans k e b ∨ k=s.version ∧ ∃ w v, ev=.save w .plan e v ∧ v.committed=true := by
  obtain ⟨w,hst,hb⟩ := h
  rcases stored_record_cases hst with hold | ⟨hk,v,hev,hv⟩
  · exact .inl ⟨w,hold,hb⟩
  · exact .inr ⟨hk,w,v,hev,hv⟩

theorem World.PlannedAt.mono (hs : s.stored <+: s'.stored) (hk : k<s.version)
    (h : s.PlannedAt p k e b) : s'.PlannedAt p k e b := by
  refine ⟨h.le,h.plans.mono hs,?_⟩
  intro j w label e hj hjk hst
  obtain ⟨rest,hrest⟩ := hs
  have hlt : j<s.stored.length := Nat.lt_of_le_of_lt hjk hk
  rw [← hrest,getElem?_append_left hlt] at hst
  exact h.alive hj hjk hst

theorem World.PlannedAt.restrict {n : Nat} (h : s.PlannedAt p k e b) (hp : p≤n) (hn : n≤k) :
    s.PlannedAt p n e b :=
  ⟨hp,h.plans,fun hj hjn => h.alive hj (hjn.trans hn)⟩

theorem World.PlannedAt.unique {p' : Nat} (h : s.PlannedAt p k e b) (h' : s.PlannedAt p' k e' b') :
    p=p' ∧ e=e' ∧ b=b' := by
  have hp : p=p' := by
    obtain ⟨w,hst,-⟩ := h.plans
    obtain ⟨w',hst',-⟩ := h'.plans
    rcases Nat.lt_trichotomy p p' with hlt | heq | hlt
    · exact absurd rfl (h.alive hlt h'.le hst').1
    · exact heq
    · exact absurd rfl (h'.alive hlt h.le hst).1
  subst hp
  cases h.plans.at.unique h'.plans.at
  exact ⟨rfl,rfl,Option.some.inj (h.plans.batch.symm.trans h'.plans.batch)⟩

theorem World.PlannedAt.active {j : Nat} (h : s.PlannedAt p k e b) (hp : p≤j) (hj : j≤k)
    (he : s.At j e') : ∃ b', e'.toolBatch=some b' := by
  rcases Nat.lt_or_eq_of_le hp with hlt | rfl
  · obtain ⟨w,label,hst⟩ := he.stored
    exact Option.ne_none_iff_exists'.mp (h.alive hlt hj hst).2
  · rw [he.unique h.plans.at]
    exact ⟨b,h.plans.batch⟩
end
section
variable [Host] {s : World} {w k : Nat} {label : SaveLabel} {e : Execution}
theorem Valid.version_eq (h : Valid s) (hk : s.At k e) : e.version=k+1 := by
  obtain ⟨st,hst,rfl⟩ := Option.map_eq_some_iff.mp hk
  obtain ⟨l,v,hl,hv,hlen⟩ := exists_save_of_stored hst
  have hlegal := (h.legal hl).1 hv
  omega

theorem Valid.current_stored (h : Valid s) (hc : s.current?=some e) :
    1≤e.version ∧ e.version=s.version ∧ s.At (e.version-1) e := by
  rw [World.current?_eq] at hc
  have hlt := World.At.lt hc
  have hver := h.version_eq hc
  have hv : e.version=s.version := by omega
  refine ⟨by omega,hv,?_⟩
  rw [hv]
  exact hc

theorem Valid.hand_stored (h : Valid s) (hh : s.hand? w=some e) :
    1≤e.version ∧ e.version ≤ s.version ∧ s.At (e.version-1) e := by
  induction h with
  | start empty => simp [World.hand?,World.own,empty] at hh
  | @step s ev valid legal ih =>
    have lift : ∀ {e : Execution}, 1≤e.version ∧ e.version ≤ s.version ∧
        s.At (e.version-1) e → 1≤e.version ∧ e.version≤(s.record ev).version ∧
        (s.record ev).At (e.version-1) e := by
      rintro e ⟨h1,h2,h3⟩
      exact ⟨h1,by rw [version_record]; omega,h3.mono (stored_isPrefix record_isPrefix)⟩
    rw [World.hand?_record] at hh
    split at hh
    · next hw =>
      cases hheld : ev.held? with
      | none => rw [hheld,Option.none_or] at hh; exact lift (ih hh)
      | some e' =>
        rw [hheld,Option.some_or,Option.some.injEq] at hh
        subst hh
        cases ev with
        | load w' e'' =>
          cases hheld
          obtain ⟨h1,h2,h3⟩ := valid.current_stored legal.1
          exact lift ⟨h1,h2.le,h3⟩
        | save w' label e'' v =>
          cases v with
          | acked =>
            cases hheld
            have hver : e'.version=s.version+1 := legal.1 rfl
            refine ⟨by omega,?_,?_⟩
            · simp [version_record,stored?,Verdict.committed,hver]
            · rw [World.At,stored_record,hver]
              simp [stored?,Verdict.committed,World.version]
          | lost | refused => cases hheld
        | _ => cases hheld
    · exact lift (ih hh)

theorem LegalSave.hand {next : Execution} (h : LegalSave s w label next) :
    (label=.create ∧ next.version=1 ∧ next.toolBatch=none ∧ s.hand? w=none) ∨
      ∃ e, s.hand? w=some e ∧ next.version=e.version+1 := by
  cases h with
  | create id conversationID kind fresh => exact .inl ⟨rfl,rfl,rfl,fresh⟩
  | resumeClaim kind hand | projectPause kind hand | retry kind hand | resolution kind hand
  | body hand => exact .inr ⟨_,hand,rfl⟩

theorem Valid.created (h : Valid s) (hk : s.stored[0]?=some ⟨w,label,e⟩) :
    label=.create ∧ e.toolBatch=none := by
  obtain ⟨l,v,hl,hv,hlen⟩ := exists_save_of_stored hk
  have hlegal := h.legal hl
  rcases hlegal.2.hand with hc | ⟨e,he,hver⟩
  · exact ⟨hc.1,hc.2.2.1⟩
  · have h1 := ((h.upto (prefix_of_concat hl)).hand_stored he).1
    have h2 := hlegal.1 hv
    omega

theorem Valid.created_idle (h : Valid s) (hk : s.At 0 e) : e.toolBatch=none := by
  obtain ⟨w,label,hst⟩ := hk.stored
  exact (h.created hst).2

theorem Valid.created_legal (h : Valid s) (hk : s.At 0 e) :
    ∃ l w, LegalSave (s.upto l) w .create e := by
  obtain ⟨w,label,hst⟩ := hk.stored
  obtain ⟨l,v,hl,-,-⟩ := World.exists_save_of_stored hst
  exact ⟨l,w,(h.created hst).1 ▸ (h.legal hl).2⟩

theorem Valid.commit (h : Valid s) (hk : s.stored[k+1]?=some ⟨w,label,e⟩) :
    ∃ l v prev, l++[save w label e v] <+: s.log ∧ v.committed=true ∧
      (s.upto l).version=k+1 ∧ s.At k prev ∧ (s.upto l).hand? w=some prev ∧
      LegalSave (s.upto l) w label e := by
  obtain ⟨l,v,hl,hv,hlen⟩ := exists_save_of_stored hk
  have hlegal := h.legal hl
  have hver := hlegal.1 hv
  rcases hlegal.2.hand with hc | ⟨prev,hprev,hnext⟩
  · omega
  · obtain ⟨h1,-,h3⟩ := (h.upto (prefix_of_concat hl)).hand_stored hprev
    refine ⟨l,v,prev,hl,hv,hlen,?_,hprev,hlegal.2⟩
    have hkv : prev.version-1=k := by omega
    rw [hkv] at h3
    exact h3.mono (stored_isPrefix (prefix_of_concat hl))

theorem Valid.commit_at (h : Valid s) (hk : s.At (k+1) e) :
    ∃ w label l v prev, s.stored[k+1]?=some ⟨w,label,e⟩ ∧
      l++[save w label e v] <+: s.log ∧ s.At k prev ∧ (s.upto l).hand? w=some prev ∧
      LegalSave (s.upto l) w label e := by
  obtain ⟨w,label,hst⟩ := hk.stored
  obtain ⟨l,v,prev,hl,-,-,hprev,hhand,hlegal⟩ := h.commit hst
  exact ⟨w,label,l,v,prev,hst,hl,hprev,hhand,hlegal⟩
end
section
variable [Host] {s : World} {w : Nat} {label : SaveLabel} {e next : Execution}
inductive StartStep (s : World) (w : Nat) (e next : Execution) : Prop where
  | kept (flag : next.startCursorPersisted=e.startCursorPersisted)
      (sequence : next.startLastSequence=e.startLastSequence)
      (revision : next.startRevision=e.startRevision)
  | set (unset : e.startCursorPersisted=false) (idle : e.toolBatch=none)
      (genuine : s.Genuine (s.cursorOf w)) (flag : next.startCursorPersisted=true)
      (sequence : next.startLastSequence=(s.cursorOf w).lastSequence)
      (revision : next.startRevision=(s.cursorOf w).revision)

theorem LegalSave.startStep (h : LegalSave s w label next) (hand : s.hand? w=some e) :
    StartStep s w e next := by
  cases h with
  | create id conversationID kind fresh => rw [fresh] at hand; cases hand
  | resumeClaim kind hand' | projectPause kind hand' | retry kind hand' | resolution kind hand' =>
    cases hand.symm.trans hand'
    exact .kept rfl rfl rfl
  | body hand' started opened guarded =>
    cases hand.symm.trans hand'
    have hbatch := guarded.onBatch
    cases guarded with
    | startCursor unset idle genuine => exact .set unset idle genuine rfl rfl rfl
    | runtimeProgress | pendingPause | pauseRecovered | pause | finalize =>
      exact .kept rfl rfl rfl
    | plan | ready | beginTool | removeToolCalls | approvals | finishResolution =>
      obtain ⟨_,_,_,_,_,-,-,heq⟩ := hbatch rfl
      rw [heq]
      exact .kept rfl rfl rfl

inductive CursorStep (s : World) (w : Nat) (label : SaveLabel) (e next : Execution) : Prop where
  | kept (revision : next.revision=e.revision) (sequence : next.lastSequence=e.lastSequence)
  | moved (genuine : s.Genuine (s.cursorOf w)) (ahead : s.Ahead w e)
      (active : label=.ready ∨ ∀ b, e.toolBatch=some b → s.Dispatchable w b)
      (revision : next.revision=(s.cursorOf w).revision)
      (sequence : next.lastSequence=(s.cursorOf w).lastSequence)
  | final (idle : e.toolBatch=none) (next_idle : next.toolBatch=none)

theorem LegalSave.cursorStep (h : LegalSave s w label next) (hand : s.hand? w=some e)
    (hplan : label≠.plan) : CursorStep s w label e next := by
  cases h with
  | create id conversationID kind fresh => rw [fresh] at hand; cases hand
  | resumeClaim kind hand' | projectPause kind hand' | retry kind hand' | resolution kind hand' =>
    cases hand.symm.trans hand'
    exact .kept rfl rfl
  | body hand' started opened guarded =>
    cases hand.symm.trans hand'
    cases guarded with
    | startCursor | runtimeProgress | pendingPause => exact .kept rfl rfl
    | plan => exact absurd rfl hplan
    | pauseRecovered kind pending genuine ahead active
    | pause iteration turn pending genuine ahead active =>
      exact .moved genuine ahead (.inr active) rfl rfl
    | finalize iteration turn terminal idle => exact .final idle idle
    | ready batch marked genuine ahead =>
      obtain ⟨-,-,-,rfl⟩ := markReady_ok marked
      exact .moved genuine ahead (.inl rfl) rfl rfl
    | beginTool claimed =>
      obtain ⟨b,call,-,-,-,⟨-,rfl⟩ | ⟨-,-,-,rfl⟩⟩ := claimTool_ok claimed
      · exact .kept rfl rfl
      · exact .kept rfl rfl
    | removeToolCalls batch dispatchable genuine ahead =>
      have active : ∀ b, e.toolBatch=some b → s.Dispatchable w b := by
        rintro b' hb'
        cases batch.symm.trans hb'
        exact dispatchable
      refine .moved genuine ahead (.inr active) ?_ ?_ <;>
        simp only [Execution.removeToolCalls,batch,Execution.settleBatch] <;> split <;> rfl
    | approvals claimed calls stores =>
      obtain ⟨b,b',-,rfl,-⟩ := storeDecisions_ok stores
      exact .kept rfl rfl
    | finishResolution batch launched resolution genuine ahead boundary answers finished =>
      obtain ⟨b',claim',-,-,-,rfl⟩ := finishResolution_ok finished
      have active : ∀ b, e.toolBatch=some b → s.Dispatchable w b := by
        rintro b' hb'
        cases batch.symm.trans hb'
        exact .inl launched
      refine .moved genuine ahead (.inr active) ?_ ?_ <;>
        simp only [Execution.settleBatch] <;> split <;> rfl
end
section
variable [Host] {s : World} {k : Nat} {e : Execution} {b : ToolBatchExecution}
variable {label : SaveLabel}
theorem BatchStep.same {w : Nat} {e next : Execution} {b b' : ToolBatchExecution}
    (h : BatchStep s w e label next) (hb : e.toolBatch=some b) (hb' : next.toolBatch=some b') :
    label≠.plan ∧ b.Same b' ∧ (b.Launched →
      b'.Launched ∧ b'.toolUseLastSequence=b.toolUseLastSequence) := by
  cases h with
  | kept notPlan batch =>
    cases (batch.symm.trans hb').symm.trans hb
    exact ⟨notPlan,.refl b,fun hl => ⟨hl,rfl⟩⟩
  | planned idle => rw [idle] at hb; cases hb
  | restated notPlan before batch restated =>
    cases before.symm.trans hb
    cases batch.symm.trans hb'
    exact ⟨notPlan,restated.same,fun hl => ⟨restated.launched.mp hl,restated.sequence⟩⟩
  | ready before planned batch ready =>
    cases before.symm.trans hb
    cases batch.symm.trans hb'
    refine ⟨by simp,?_,?_⟩
    · simp [ready,ToolBatchExecution.Same,mapCalls,Function.comp_def, ToolExecution.core]
    · rintro ⟨call,hcall,hst⟩
      simp only [allPlanned,all_eq_true,beq_iff_eq] at planned
      exact absurd (planned call hcall) hst
  | settled b'' notPlan before dispatchable genuine ahead boundary answers calls sequence batch =>
    cases before.symm.trans hb
    have hb'' : b''=b' := by
      rw [hb'] at batch
      split at batch
      · cases batch
      · exact (Option.some.inj batch).symm
    subst hb''
    refine ⟨notPlan,?_,?_⟩
    · unfold ToolBatchExecution.Same
      rw [calls]
      simp only [complete,mapCalls,map_map]
      refine map_congr_left fun call _ => ?_
      simp only [Function.comp_apply]
      split <;> rfl
    · rintro ⟨call,hcall,hst⟩
      refine ⟨⟨_,by rw [calls]; exact mem_map_of_mem hcall,?_⟩,sequence⟩
      split
      · simp
      · exact hst

theorem BatchStep.appears {w : Nat} {e next : Execution} (h : BatchStep s w e label next)
    (he : e.toolBatch=none) (hb : next.toolBatch=some b) :
    label=.plan ∧ b.Fresh ∧ e.startCursorPersisted=true ∧ s.Unused w e b.callIDs ∧
      e.startLastSequence≤(s.cursorOf w).lastSequence ∧ s.Genuine (s.cursorOf w) ∧
      next.lastSequence=(s.cursorOf w).lastSequence := by
  cases h with
  | planned idle batch fresh start unused after genuine revision cursor =>
    cases batch.symm.trans hb
    exact ⟨rfl,fresh,start,unused,after,genuine,cursor⟩
  | kept notPlan batch => rw [batch,he] at hb; cases hb
  | restated notPlan before | ready before | settled b' notPlan before =>
    rw [he] at before; cases before

theorem Valid.plannedAt (h : Valid s) (hk : s.At k e) (hb : e.toolBatch=some b) :
    ∃ p ep bp, s.PlannedAt p k ep bp ∧ bp.Fresh ∧ bp.Same b := by
  induction k generalizing e b with
  | zero => rw [h.created_idle hk] at hb; cases hb
  | succ k ih =>
    obtain ⟨w,label,l,v,prev,hst,-,hprev,hhand,hlegal⟩ := h.commit_at hk
    have hstep := hlegal.batchStep hhand
    cases hpb : prev.toolBatch with
    | none =>
      obtain ⟨rfl,hfresh,-⟩ := hstep.appears hpb hb
      refine ⟨k+1,e,b,⟨le_refl _,⟨w,hst,hb⟩,?_⟩,hfresh,.refl b⟩
      intro j w' label' e' hlt hle
      omega
    | some b0 =>
      obtain ⟨p,ep,bp,hp,hfresh,hsame⟩ := ih hprev hpb
      obtain ⟨hplan,hsame',-⟩ := hstep.same hpb hb
      refine ⟨p,ep,bp,⟨hp.le.trans (Nat.le_succ k),hp.plans,?_⟩,hfresh,hsame.trans hsame'⟩
      intro j w' label' e' hlt hle hst'
      rcases Nat.lt_or_ge j (k + 1) with hj | hj
      · exact hp.alive hlt (by omega) hst'
      · obtain rfl : j=k + 1 := by omega
        rw [hst] at hst'
        cases hst'
        exact ⟨hplan,by rw [hb]; simp⟩

theorem Valid.launched_mono (h : Valid s) {k1 k2 : Nat} {ep e1 e2 : Execution}
    {bp b1 b2 : ToolBatchExecution} (hle : k1≤k2) (hp : p≤k1) (hlife : s.PlannedAt p k2 ep bp)
    (h₁ : s.At k1 e1) (hb1 : e1.toolBatch=some b1) (h₂ : s.At k2 e2)
    (hb2 : e2.toolBatch=some b2) (hl : b1.Launched) :
    b2.Launched ∧ b2.toolUseLastSequence=b1.toolUseLastSequence := by
  induction k2 generalizing e2 b2 with
  | zero => rw [h.created_idle h₂] at hb2; cases hb2
  | succ n ih =>
    rcases Nat.lt_or_ge k1 (n + 1) with hlt | hge
    · obtain ⟨w,label,l,v,prev,-,-,hprev,hhand,hlegal⟩ := h.commit_at h₂
      obtain ⟨b0,hb0⟩ := hlife.active (by omega) (Nat.le_succ n) hprev
      obtain ⟨hl0,hs0⟩ := ih (by omega) (hlife.restrict (by omega) (Nat.le_succ n)) hprev hb0
      obtain ⟨-,-,hstep⟩ := (hlegal.batchStep hhand).same hb0 hb2
      exact ⟨(hstep hl0).1,(hstep hl0).2.trans hs0⟩
    · obtain rfl : k1=n + 1 := by omega
      cases h₁.unique h₂
      cases hb1.symm.trans hb2
      exact ⟨hl,rfl⟩

theorem Valid.plan_idle (h : Valid s) {ep prev : Execution} (hp : s.Plans (p+1) ep b)
    (hprev : s.At p prev) : prev.toolBatch=none := by
  obtain ⟨w,hst,hb⟩ := hp
  obtain ⟨l,v,prev',-,-,-,hprev',hhand,hlegal⟩ := h.commit hst
  cases hprev.unique hprev'
  cases hpb : prev.toolBatch with
  | none => rfl
  | some b0 => exact absurd rfl ((hlegal.batchStep hhand).same hpb hb).1
end
section
variable [Host] {s : World} {w k k1 k2 : Nat} {label : SaveLabel} {e e1 e2 next : Execution}
theorem Valid.replaces (h : Valid s) (hl : LegalSave s w label next)
    (hver : next.version=s.version+1) :
    (s.version=0 ∧ label=.create ∧ next.toolBatch=none) ∨
      ∃ prev, 1 ≤ s.version ∧ s.At (s.version-1) prev ∧ s.hand? w=some prev := by
  rcases hl.hand with ⟨hlabel,hone,hidle,-⟩ | ⟨e,he,hnext⟩
  · exact .inl ⟨by omega,hlabel,hidle⟩
  · obtain ⟨h1,-,h3⟩ := h.hand_stored he
    have hv : e.version=s.version := by omega
    exact .inr ⟨e,by omega,by rw [← hv]; exact h3,he⟩

theorem Valid.start_const (h : Valid s) (hle : k1≤k2) (h₁ : s.At k1 e1) (h₂ : s.At k2 e2)
    (hset : e1.startCursorPersisted=true) :
    e2.startCursorPersisted=true ∧ e2.startLastSequence=e1.startLastSequence ∧
      e2.startRevision=e1.startRevision := by
  induction k2 generalizing e2 with
  | zero =>
    obtain rfl : k1=0 := by omega
    cases h₁.unique h₂
    exact ⟨hset,rfl,rfl⟩
  | succ n ih =>
    rcases Nat.lt_or_ge k1 (n + 1) with hlt | hge
    · obtain ⟨w,label,l,v,prev,-,-,hprev,hhand,hlegal⟩ := h.commit_at h₂
      obtain ⟨hp,hseq,hrev⟩ := ih (by omega) hprev
      cases hlegal.startStep hhand with
      | kept flag sequence revision =>
        exact ⟨flag.trans hp,sequence.trans hseq,revision.trans hrev⟩
      | set unset => rw [hp] at unset; cases unset
    · obtain rfl : k1=n + 1 := by omega
      cases h₁.unique h₂
      exact ⟨hset,rfl,rfl⟩

theorem LegalSave.create_start (h : LegalSave s w .create next) :
    next.startCursorPersisted=false := by
  cases h with
  | create => rfl
  | body hand started opened guarded => cases guarded

theorem Valid.start_bounds (h : Valid s) (hk : s.At k e) (hset : e.startCursorPersisted=true) :
    s.seedMessages.length≤e.startLastSequence ∧ e.startLastSequence ≤ s.messages.length := by
  induction k generalizing e with
  | zero =>
    obtain ⟨l,w,hlegal⟩ := h.created_legal hk
    rw [hlegal.create_start] at hset
    cases hset
  | succ k ih =>
    obtain ⟨w,label,l,v,prev,-,hl,hprev,hhand,hlegal⟩ := h.commit_at hk
    cases hlegal.startStep hhand with
    | kept flag sequence revision =>
      rw [sequence]
      exact ih hprev (flag ▸ hset)
    | set unset idle genuine flag sequence revision =>
      rw [sequence]
      exact ⟨genuine.seed_length_le,genuine.le_length.trans
        (messages_isPrefix (prefix_of_concat hl)).length_le⟩

theorem Valid.hand_after (h : Valid s) {e0 : Execution} (hm : save w label e0 .acked∈s.log)
    (hh : s.hand? w=some e) : e0.version≤e.version := by
  induction h generalizing e with
  | start empty => rw [empty] at hm; cases hm
  | @step s ev valid legal ih =>
    rw [World.hand?_record] at hh
    rw [record_log,mem_append,mem_singleton] at hm
    rcases hm with hm | rfl
    · split at hh
      · cases hheld : ev.held? with
        | none => rw [hheld,Option.none_or] at hh; exact ih hm hh
        | some e' =>
          rw [hheld,Option.some_or,Option.some.injEq] at hh
          subst hh
          obtain ⟨l,hl⟩ := exists_prefix_of_mem hm
          have hver := (valid.legal hl).1 rfl
          have hle := version_mono hl
          rw [← upto_record,version_record] at hle
          simp only [stored?,Verdict.committed,if_true,Option.toList_some, length_singleton] at hle
          cases ev with
          | load w' e'' =>
            cases hheld
            have := (valid.current_stored legal.1).2.1
            omega
          | save w' label' e'' v =>
            cases v with
            | acked =>
              cases hheld
              have : e'.version=s.version+1 := legal.1 rfl
              omega
            | lost | refused => cases hheld
          | _ => cases hheld
      · exact ih hm hh
    · simp only [worker?,if_true,held?,Option.some_or,Option.some.injEq] at hh
      rw [hh]
end
end GudeAgents
