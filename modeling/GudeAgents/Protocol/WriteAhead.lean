import GudeAgents.Protocol.Transcript
/-!
# Planned batches

Until a planned batch is launched, nothing but its assistant turn may appear behind the cursor of the
record.
-/
namespace GudeAgents
open List World Event ToolBatchExecution
section
variable {s : World} {w v p j R : Nat} {e ep : Execution} {b bp : ToolBatchExecution}
  {l le : List Event} {label : AppendLabel} {ms : List Message} {c : ConversationCursor}
  {verdict : Verdict} {id : String}
theorem World.mem_messagesAt {i : Nat} {m : Message} (h : (s.messagesAt R)[i]?=some m)
    (hi : s.seedMessages.length ≤ i) :
    ∃ (j : Nat) (a : Appended), s.appended[j]?=some a ∧ m∈a.messages ∧ s.seedRevision+j<R := by
  unfold World.messagesAt at h
  rw [List.getElem?_append_right hi] at h
  obtain ⟨a,ha,hm⟩ := mem_flatMap.mp (mem_of_getElem? h)
  obtain ⟨j,hj⟩ := mem_iff_getElem?.mp ha
  rw [List.getElem?_take] at hj
  split at hj
  · exact ⟨j,a,hj,hm,by omega⟩
  · cases hj

theorem World.messagesAt_succ {a : Appended} (h : s.appended[j]?=some a) :
    s.messagesAt (s.seedRevision+j+1)=s.messagesAt (s.seedRevision+j)++a.messages := by
  have htake : s.appended.take (j+1)=s.appended.take j++[a] := by
    rw [take_add_one,h,Option.toList_some]
  unfold World.messagesAt
  rw [show s.seedRevision+j+1-s.seedRevision=j+1 by omega,Nat.add_sub_cancel_left,htake,
    flatMap_append,← append_assoc]
  simp

/-- The accepted save that planned a batch, with what its worker knew: `R` is its cursor. -/
structure PlanSave (s : World) (w p : Nat) (ep : Execution) (bp : ToolBatchExecution)
    (l : List Event) (R : Nat) : Prop where
  plans : s.Plans p ep bp
  saved : ∃ v, l++[save w .plan ep v] <+: s.log ∧ v.committed=true
  version : (s.upto l).version=p
  cursor : ((s.upto l).cursorOf w).revision=R
  last : ep.lastSequence=(s.messagesAt R).length
  reached : R≤(s.upto l).revision
  quiet : (s.upto l).Quiet w R p
  synced : (s.upto l).Synced w
  seeded : s.seedRevision≤R

theorem PlanSave.log (h : PlanSave s w p ep bp l R) : l <+: s.log := by
  obtain ⟨v,hl,-⟩ := h.saved
  exact prefix_of_concat hl

variable [Host]
theorem Valid.planSave (hv : Valid s) (hp : s.Plans p ep bp) :
    ∃ w l R, PlanSave s w p ep bp l R := by
  obtain ⟨w,hst,hb⟩ := hp
  cases p with
  | zero => exact absurd (hv.created hst).1 (by simp)
  | succ p =>
    obtain ⟨l,v,prev,hl,hcommit,hver,hprev,hhand,hlegal⟩ := hv.commit hst
    have hversion := hv.version_eq hprev
    generalize hlabel : SaveLabel.plan=label at hlegal
    cases hlegal with
    | create | resumeClaim | projectPause | retry | resolution => cases hlabel
    | body hand started opened guarded =>
      cases hhand.symm.trans hand
      cases guarded with
      | plan planned nonempty start unused genuine after base quiet turn synced =>
        obtain ⟨-,calls,hcalls,rfl⟩ := Execution.plan_ok planned
        rw [hversion] at quiet
        refine ⟨w,l,_,⟨w,hst,hb⟩,⟨v,hl,hcommit⟩,hver,rfl,?_,genuine.le,quiet,synced,genuine.seed_le⟩
        rw [ messagesAt_of_prefix (prefix_of_concat hl) genuine.le]
        exact genuine.lastSequence
      | _ => cases hlabel

theorem PlanSave.no_own_append (hv : Valid s) (h : PlanSave s w p ep bp l R)
    (hev : le++[append w label ms c verdict] <+: l) (hcommit : verdict.committed=true)
    (hR : R≤(s.upto le).revision) : False := by
  have hlog : le++[append w label ms c verdict] <+: s.log := hev.trans h.log
  cases verdict with
  | refused => cases hcommit
  | lost => exact h.synced.2 label ms c (mem_of_concat (s := s.upto l) hev)
  | acked =>
    have hmono := (hv.upto h.log).cursor_mono hev w
    have hcursor := (hv.legal hlog).cursor_eq rfl
    rw [upto_record] at hcursor
    have hafter : (s.upto (le++[append w label ms c .acked])).revision =
        (s.upto le).revision+1 := by
      rw [← upto_record,revision_record]
      rfl
    have hown : ((s.upto (le++[append w label ms c .acked])).cursorOf w)=c := by
      rw [← upto_record,cursorOf_record]
      simp [worker?,cursor?]
    rw [upto_upto,hown,h.cursor] at hmono
    omega

/-- What anchors the planned cursor: an append of the planning worker, or the save with which it
completed a batch whose assistant turn the cursor covers. -/
theorem PlanSave.anchored (hv : Valid s) (h : PlanSave s w p ep bp l R) :
    ∃ before event, before++[event] <+: s.log ∧
      (∀ k st, (s.upto (before++[event])).version≤k → k<p → s.stored[k]?=some st → st.worker=w) ∧
      ((∃ label ms c, event=.append w label ms c .acked ∧ (s.upto before).revision+1=R) ∨
        ∃ label next e b T, event=.save w label next .acked ∧
          (s.upto before).hand? w=some e ∧ (s.upto before).version=e.version ∧
          e.toolBatch=some b ∧ s.seedMessages.length<T ∧
          UseAt ((s.upto before).messagesAt R) T b) := by
  obtain ⟨before,event,hbefore,hanchor,hquiet⟩ := h.quiet
  have hlog : before++[event] <+: s.log := hbefore.trans h.log
  refine ⟨before,event,hlog,?_,?_⟩
  · intro k st hk hlt hst
    exact hquiet k st hk hlt (stored_prefix_of_lt h.log hst (by rw [h.version]; exact hlt))
  cases event with
  | append w' label ms c verdict =>
    cases verdict with
    | acked =>
      obtain ⟨rfl,hc⟩ := hanchor
      have hcursor := (hv.legal hlog).cursor_eq rfl
      rw [revision_record,hc] at hcursor
      exact .inl ⟨label,ms,c,rfl,hcursor.symm⟩
    | lost | refused => exact hanchor.elim
  | save w' label e' verdict =>
    cases label with
    | removeToolCalls completed =>
      cases verdict with
      | acked =>
        obtain ⟨rfl,hidle,hrev⟩ := hanchor
        obtain ⟨hcommitted,hlegal⟩ := hv.legal hlog
        cases hlegal with
        | body hand started opened guarded =>
          cases guarded with
          | @removeToolCalls b _ answered batch dispatchable genuine ahead boundary =>
            have hvb := hv.upto (prefix_of_concat hlog)
            have hplaced := hvb.crossStore.placed (hvb.hand_stored hand).2.2 batch
            obtain ⟨hstart,hT,huse⟩ := hplaced.launched
              (hvb.crossStore.launched_of_dispatchable hvb hand batch dispatchable)
            have hseed := hplaced.seed
            have hahead := ahead (by rw [batch]; simp)
            rw [genuine.lastSequence] at hahead
            have hcrev : ((s.upto before).cursorOf w').revision=R := by
              rw [← hrev]
              simp only [Execution.removeToolCalls,batch,Execution.settleBatch]
              split <;> rfl
            have hcovered := huse.restrict (messagesAt_isPrefix_messages genuine.le)
              (hT.trans hahead)
            rw [hcrev] at hcovered
            exact .inr ⟨_,_,_,b,_,rfl,hand,
              Nat.succ.inj (hcommitted rfl).symm,batch,Nat.lt_of_le_of_lt hseed hstart,hcovered⟩
      | lost | refused => exact hanchor.elim
    | _ => exact hanchor.elim
  | _ => exact hanchor.elim

theorem PlanSave.cursor_ne (hv : Valid s) (h : PlanSave s w p ep bp l R) :
    (s.upto l).cursorOf w≠{} := by
  intro hzero
  have hR : R=0 := by rw [← h.cursor,hzero]
  subst hR
  obtain ⟨before,event,-,-,⟨-,-,-,-,hrev⟩ | ⟨-,-,e,b,T,-,-,-,-,hseed,huse⟩⟩ := h.anchored hv
  · cases hrev
  · -- only the seed is covered, and a batch's turn stands behind it
    have hpos := huse.pos
    obtain ⟨m,hm,-⟩ := huse.use
    have hlt := (List.getElem?_eq_some_iff.mp hm).1
    simp only [World.messagesAt,Nat.zero_sub,take_zero,flatMap_nil,append_nil,
      upto_seedMessages] at hlt
    omega

theorem PlanSave.saves_between (hv : Valid s) (h : PlanSave s w p ep bp l R) {event : Event}
    (hev : le++[event] <+: l)
    (happ : (s.upto (le++[event])).revision=(s.upto le).revision+1)
    (hR : R≤(s.upto le).revision) {n : Nat} {st : Stored} (hn : (s.upto le).version≤n)
    (hnp : n<p) (hst : s.stored[n]?=some st) : st.worker=w := by
  by_contra hother
  obtain ⟨v,hl,hcommit⟩ := h.saved
  obtain ⟨l',prev,hload,hnl⟩ := hv.loaded_after_other hl hcommit hst hother
    (by rw [h.version]; exact hnp)
  have hload' : l'++[load w prev] <+: s.log := hload.trans h.log
  -- the worker has loaded after the append, and then looked at the conversation
  have hlater : le++[event] <+: l' :=
    concat_prefix_of_version (hev.trans h.log) (prefix_of_concat hload') (by omega)
  have hseen := (hv.upto h.log).cursor_after_load hload (h.cursor_ne hv)
  rw [upto_upto,h.cursor] at hseen
  have hmono := revision_mono (s := s.upto l') hlater
  rw [upto_upto] at hmono
  omega

def Execution.Owes (e : Execution) (b : ToolBatchExecution) (callID : String) : Prop :=
  ∃ b', e.toolBatch=some b' ∧ b.Same b' ∧
    ∀ call∈b'.calls, call.callID=callID → call.status≠.completed

section
variable (hv : Valid s)
include hv
/-- The step lemma: a save cannot complete a call that the worker's cursor shows unanswered. -/
theorem BatchStep.owes {label : SaveLabel} {next : Execution} (hhand : s.hand? w=some e)
    (h : BatchStep s w e label next) (he : e.Owes bp id) (hid : id∈bp.callIDs)
    (hun : ∀ T, s.seedMessages.length<T →
      ¬ AnsweredAfter (s.messagesAt (s.cursorOf w).revision) T id) : next.Owes bp id := by
  obtain ⟨b,hb,hsame,hopen⟩ := he
  have hat := (hv.hand_stored hhand).2.2
  cases h with
  | kept notPlan batch => exact ⟨b,batch.trans hb,hsame,hopen⟩
  | planned idle =>
    rw [hb] at idle
    cases idle
  | restated notPlan before batch restated =>
    cases before.symm.trans hb
    refine ⟨_,batch,hsame.trans restated.same,?_⟩
    intro call hcall hcid hdone
    obtain ⟨call0,hcall0,hid0,hdone0⟩ := restated.completed hcall hdone
    exact hopen call0 hcall0 (hid0.trans hcid) hdone0
  | @ready _ _ b' _ _ before planned batch ready =>
    cases before.symm.trans hb
    refine ⟨b',batch,?_,?_⟩
    · apply hsame.trans
      rw [ready]
      simp [ToolBatchExecution.Same,mapCalls,ToolExecution.core]
    · intro call hcall hcid
      rw [ready] at hcall
      obtain ⟨call0,-,rfl⟩ := mem_map.mp hcall
      simp
  | @settled _ _ _ completed answered b' notPlan before dispatchable genuine ahead boundary answers
      calls sequence batch =>
      cases before.symm.trans hb
      have hnot : id∉completed := by
        intro hmem
        have hplaced := hv.crossStore.placed hat hb
        obtain ⟨hstart,-,-⟩ := hplaced.launched
          (hv.crossStore.launched_of_dispatchable hv hhand hb dispatchable)
        have hseed := hplaced.seed
        exact hun _ (by omega) (hv.crossStore.boundary_answered hv hat hhand hb dispatchable genuine
          ahead boundary (answers id hmem))
      have hkept : ∀ call∈b'.calls, call.callID=id → call.status≠.completed := by
        intro call hcall hcid
        rw [calls] at hcall
        obtain ⟨call0,hcall0,rfl⟩ := mem_map.mp hcall
        by_cases hmem : call0.callID∈completed
        · rw [if_pos hmem] at hcid
          exact absurd (hcid ▸ hmem) hnot
        · rw [if_neg hmem] at hcid ⊢
          exact hopen call0 hcall0 hcid
      have hsame' : b.Same b' := by
        unfold ToolBatchExecution.Same
        rw [calls,complete,mapCalls,map_map]
        apply map_congr_left
        intro call _
        simp only [Function.comp_apply]
        split <;> rfl
      have hleft : b'.allCompleted=false := by
        have hid' : id∈b'.callIDs := by
          rw [(hsame.trans hsame').callIDs]
          exact hid
        obtain ⟨call,hcall,hcid⟩ := mem_map.mp hid'
        rw [allCompleted,all_eq_false]
        exact ⟨call,hcall,by simpa using hkept call hcall hcid⟩
      rw [hleft] at batch
      exact ⟨b',batch,hsame.trans hsame',hkept⟩

/-- The run lemma: as long as every save is made with a cursor from before `le`, a call that was
unanswered at `le` stays open. -/
theorem Valid.owes_after (hle : le <+: s.log) (hp : (s.upto le).Plans p ep bp)
    (hid : id∈bp.callIDs) (hun : id∉resultIDs (s.upto le).added)
    (hsaves : ∀ (l : List Event) (w : Nat) (label : SaveLabel) (e : Execution) (v : Verdict),
      l++[save w label e v] <+: s.log → v.committed=true →
      (s.upto le).version≤(s.upto l).version →
      ((s.upto l).cursorOf w).revision≤(s.upto le).revision) :
    ∀ (n : Nat) (e : Execution), p≤n → s.At n e → e.Owes bp id := by
  have hvl := hv.upto hle
  have hanswered : ∀ T, s.seedMessages.length<T → ¬ AnsweredAfter (s.upto le).messages T id := by
    rintro T hT ⟨i,m,hi,hm,hidm⟩
    apply hun
    rw [mem_resultIDs]
    refine ⟨m,?_,hidm⟩
    apply mem_of_getElem? (i := i-s.seedMessages.length)
    rw [World.added,List.getElem?_drop,upto_seedMessages,
      show s.seedMessages.length+(i-s.seedMessages.length)=i by omega]
    exact hm
  intro n
  induction n with
  | zero =>
    intro e hle' hat
    have hp0 : p=0 := by omega
    subst hp0
    have hps : s.Plans 0 ep bp := hp.mono (stored_isPrefix hle)
    have hidle := hv.created_idle hps.at
    rw [hps.batch] at hidle
    cases hidle
  | succ n ih =>
    intro e hpn hat
    by_cases hold : n+1<(s.upto le).version
    · -- at `le` the batch was the active one, and completed calls were answered
      obtain ⟨w,label,hst⟩ := hat.stored
      have hat' : (s.upto le).At (n+1) e :=
        at_of_stored (stored_prefix_of_lt hle hst hold)
      have hlife := hvl.plannedAt_of_unanswered hp hid hun hpn
      obtain ⟨b,hb⟩ := hlife.active hpn le_rfl hat'
      obtain ⟨q,eq,bq,hq,-,hsame⟩ := hvl.plannedAt hat' hb
      obtain ⟨rfl,rfl,rfl⟩ := hlife.unique hq
      refine ⟨b,hb,hsame,?_⟩
      intro call hcall hcid hdone
      have hans := hvl.crossStore.completed hat' hb hcall hdone
      rw [hcid] at hans
      have hplaced := hvl.crossStore.placed hat' hb
      have hlaunched : b.Launched := ⟨call,hcall,by rw [hdone]; simp⟩
      have hstart := (hplaced.launched hlaunched).1
      have hseed' := hplaced.seed
      simp only [upto_seedMessages] at hseed'
      exact hanswered _ (by omega) hans
    · by_cases hpn' : p=n+1
      · exact absurd hp.at.lt (by omega)
      · obtain ⟨w,label,hst⟩ := hat.stored
        obtain ⟨l,v,prev,hl,hcommit,hver,hprev,hhand,hlegal⟩ := hv.commit hst
        have hbefore := ih prev (by omega) hprev
        have hcursor := hsaves l w label e v hl hcommit (by omega)
        have hvl' := hv.upto (prefix_of_concat hl)
        refine (hlegal.batchStep hhand).owes hvl' hhand hbefore hid ?_
        intro T hT hans
        apply hanswered T hT
        have hcle := hvl'.cursor_le w
        rw [← messagesAt_of_prefix (prefix_of_concat hl) hcle,
          messagesAt_of_prefix hle hcursor] at hans
        exact hans.mono (messagesAt_isPrefix_messages hcursor)

section
variable (h : PlanSave s w p ep bp l R)
include h
theorem PlanSave.no_batch_append (hev : le++[append v label ms c verdict] <+: l)
    (hcommit : verdict.committed=true) (hlabel : label≠.turn) (hR : R≤(s.upto le).revision) :
    False := by
  have hlog : le++[append v label ms c verdict] <+: s.log := hev.trans h.log
  have hle := prefix_of_concat hlog
  obtain ⟨-,-,-,-,e',hh,-,happend⟩ := (hv.legal hlog) hcommit
  have hvl := hv.upto hle
  obtain ⟨b',id,hb',hid,hun⟩ := happend.unanswered hvl hh hlabel
  obtain ⟨q,eq,bq,hq,-,hsame⟩ := hvl.plannedAt (hvl.hand_stored hh).2.2 hb'
  rw [hsame.callIDs] at hid
  have happ : (s.upto (le++[append v label ms c verdict])).revision = (s.upto le).revision+1 := by
    rw [← upto_record,revision_record]
    simp [appended?,hcommit]
  have hvp := hv.upto h.log
  -- every save up to the plan is the planning worker's, with a cursor from before the append
  have howes := hvp.owes_after (prefix_of_concat hev) hq.plans hid hun ?_
  · obtain ⟨w',hst,hb⟩ := h.plans
    have hqp : q<p := by
      have h1 := hq.plans.at.lt
      have h2 := version_mono (s := s.upto l) (prefix_of_concat hev)
      rw [upto_upto,h.version] at h2
      omega
    obtain ⟨n,rfl⟩ : ∃ n, p=n + 1 := ⟨p - 1,by omega⟩
    obtain ⟨st,hn⟩ : ∃ st, s.stored[n]?=some st := by
      have := (List.getElem?_eq_some_iff.mp hst).1
      exact ⟨_,List.getElem?_eq_getElem (by omega)⟩
    have hnl : (s.upto l).stored[n]?=some st :=
      stored_prefix_of_lt h.log hn (by rw [h.version]; omega)
    obtain ⟨b0,hb0,-,-⟩ := howes n st.execution (by omega) (at_of_stored hnl)
    have hidle := hv.plan_idle h.plans (at_of_stored hn)
    rw [hb0] at hidle
    cases hidle
  · intro l' w' label' e'' v' hl' hcommit' hver'
    have hl's : l'++[save w' label' e'' v'] <+: s.log := hl'.trans h.log
    have hst := stored_of_save hl's hcommit'
    have hlt : (s.upto l').version<p := by
      have hst' := stored_of_save hl' hcommit'
      have := (List.getElem?_eq_some_iff.mp hst').1
      rw [← h.version]
      exact this
    have hown := h.saves_between hv hev happ hR hver' hlt hst
    subst hown
    have hmono := hvp.cursor_mono (prefix_of_concat hl') w'
    rw [upto_upto,h.cursor] at hmono
    simp only [upto_upto]
    omega

/-- Another worker whose base is older than the plan cannot append text behind the planned
cursor: it would have to own what the planning worker has written. -/
theorem PlanSave.no_text {l2 : List Event} {ρ : Nat}
    (hbase : IdleBase (s.upto le) v (s.upto le).revision l2 ρ) (hle : le <+: s.log) (hne : v≠w)
    (hR : R≤(s.upto le).revision) (hold : (s.upto l2).version<p) : False := by
  obtain ⟨label2,e2,hl2,hidle2⟩ := hbase.saved
  have hl₂s : l2++[save v label2 e2 .acked] <+: s.log := hl2.trans hle
  have hst2 := stored_of_save hl₂s rfl
  have hknown := hbase.known
  rw [upto_upto] at hknown
  have howned : ∀ j, ρ ≤ s.seedRevision+j → s.seedRevision+j<R →
      ∃ messages, s.appended[j]?=some ⟨v,.turn,messages⟩ := by
    intro j h1 h2
    obtain ⟨messages,hj⟩ := hbase.text j h1 (by simp only [upto_seedRevision]; omega)
    exact ⟨messages, appended_of_prefix hle hj⟩
  obtain ⟨before,event,hbefore,hquiet,⟨label,ms,c,rfl,hrev⟩ |
    ⟨label,next,eb,b,T,rfl,hhand,hversion,hb,hseed,huse⟩⟩ := h.anchored hv
  all_goals
    have hlater : (s.upto (before++[_])).version≤(s.upto l2).version → False :=
      fun hge => hne (hquiet _ _ hge hold hst2)
  · by_cases hρ : ρ≤(s.upto before).revision
    · -- the anchoring append lies in the range the other worker would own
      unfold World.revision at hρ hrev
      simp only [upto_seedRevision] at hρ hrev
      obtain ⟨messages,hj⟩ := howned _ hρ (by omega)
      rw [ appended_of_append hbefore rfl] at hj
      cases hj
      exact hne rfl
    · apply hlater
      have hprefix := concat_prefix_of_revision hbefore (prefix_of_concat hl₂s) (by omega)
      exact version_mono (s := s.upto l2) hprefix
  · have hst1 := stored_of_save hbefore rfl
    have hafter : (s.upto (before++[save w label next .acked])).version =
        (s.upto before).version+1 := by
      rw [← upto_record,version_record]
      rfl
    rcases Nat.lt_trichotomy (s.upto l2).version (s.upto before).version with hlt | heq | hgt
    · have hvb := hv.upto (prefix_of_concat hbefore)
      have hat := (hvb.hand_stored hhand).2.2
      obtain ⟨q,eq,bq,hq,-,hsame⟩ := hvb.plannedAt hat hb
      -- the batch that the anchor completes was planned after the other base
      have hq2 : (s.upto l2).version<q := by
        by_contra hnot
        have hst₂b := stored_prefix_of_lt (prefix_of_concat hbefore) hst2 hlt
        obtain ⟨b2,hb2⟩ := hq.active (by omega) (by omega) (at_of_stored hst₂b)
        rw [hidle2] at hb2
        cases hb2
      -- its assistant turn is behind the other base and before `R`
      obtain ⟨m,hm,hmuse⟩ := huse.use
      obtain ⟨j,⟨w'',label'',ms''⟩,hj,hmem,hjR⟩ := mem_messagesAt hm (Nat.le_sub_one_of_lt hseed)
      rw [upto_seedRevision] at hjR
      have hmne : m.toolUses≠[] := by
        intro hnil
        have hids := Message.toolUses_of_isUseOf hmuse
        rw [hnil] at hids
        exact (hvb.sound hat hb).nonempty (map_eq_nil_iff.mp hids.symm)
      obtain ⟨lu,qu,equ,bqu,hlu,hlen,hpu,huseu,rfl⟩ := hvb.use_planned hj hmem hmne
      have hpu' := hpu.mono (stored_isPrefix (s := s.upto before) hlu)
      obtain ⟨rfl,-,-⟩ := hvb.plan_of_use hq.plans hpu' (hsame.isUseOf.symm.trans hmuse) huseu
      have hqu := hpu.at.lt
      have hl₂u : l2++[save v label2 e2 .acked] <+: lu := by
        apply concat_prefix_of_version hl₂s (hlu.trans (prefix_of_concat hbefore))
        rw [upto_upto] at hqu
        omega
      have hmono := revision_mono (s := s.upto lu) (prefix_of_concat hl₂u)
      simp only [upto_upto] at hmono hlen
      have hρ : ρ ≤ s.seedRevision+j := by
        unfold World.revision at hmono hknown
        simp only [upto_seedRevision] at hmono hknown
        omega
      obtain ⟨messages,hj'⟩ := howned j hρ hjR
      rw [ appended_of_prefix (prefix_of_concat hbefore) hj] at hj'
      cases hj'
    · rw [heq,hst1] at hst2
      cases hst2
      exact hne rfl
    · exact hlater (by omega)

theorem PlanSave.no_own_text {event : Event} {v' : Verdict}
    (hplan : l++[save w .plan ep v'] <+: le) (hle : le++[event] <+: s.log)
    (hcommit : v'.committed=true) (hsynced : (s.upto le).Synced w)
    (hhand : (s.upto le).hand? w=some e) (hactive : e.toolBatch=none ∨ (s.upto le).Unplanned w)
    (halive : ∀ n e', p≤n → n<s.version → s.At n e' → e'.toolBatch≠none) : False := by
  have hmem : save w .plan ep v'∈(s.upto le).log := mem_of_concat (s := s.upto le) hplan
  rcases hactive with hnone | hunplanned
  · cases v' with
    | refused => cases hcommit
    | lost => exact hsynced.1 _ _ hmem
    | acked =>
      have hvl := hv.upto (prefix_of_concat hle)
      have hafter := hvl.hand_after hmem hhand
      obtain ⟨hpos,hlt,hat⟩ := hvl.hand_stored hhand
      have hver : ep.version=p + 1 := hv.version_eq h.plans.at
      have hat' := hat.mono (stored_isPrefix (prefix_of_concat hle))
      exact halive _ _ (by omega) hat'.lt hat' hnone
  · exact hunplanned _ _ hmem

theorem PlanSave.same_batch {v' : Verdict} (hlife : s.PlannedAt p (s.version-1) ep bp)
    (hle : le <+: s.log) (hplan : l++[save w .plan ep v'] <+: le)
    (hcommit : v'.committed=true) (hh : (s.upto le).hand? v=some e)
    (happend : LegalAppend (s.upto le) v e label ms) (hlabel : label≠.turn) :
    ∃ b, e.toolBatch=some b ∧ (s.upto le).PlannedAt p (e.version-1) ep bp ∧ bp.Same b := by
  have hvl := hv.upto hle
  obtain ⟨b,id,hb,hid,hun⟩ := happend.unanswered hvl hh hlabel
  obtain ⟨q,eq,bq,hq,-,hsame⟩ := hvl.plannedAt (hvl.hand_stored hh).2.2 hb
  rw [hsame.callIDs] at hid
  have hst : (s.upto le).stored[p]?=some ⟨w,.plan,ep⟩ := by
    have hst := stored_of_save (s := s.upto le) hplan hcommit
    rw [upto_upto,h.version] at hst
    exact hst
  have hp : (s.upto le).Plans p ep bp := ⟨w,hst,h.plans.batch⟩
  rcases Nat.lt_trichotomy q p with hlt | rfl | hlt
  · exact absurd (hvl.done_answered hq.plans (hvl.plan_done hq.plans hp hlt) hid) hun
  · cases hq.plans.at.unique hp.at
    cases hq.plans.batch.symm.trans hp.batch
    exact ⟨b,hb,hq,hsame⟩
  · obtain ⟨w',hstq,-⟩ := hq.plans.mono (stored_isPrefix hle)
    have hqs := (List.getElem?_eq_some_iff.mp hstq).1
    exact absurd rfl (hlife.alive hlt (by unfold World.version; omega) hstq).1
end
/-- While the batch is planned, an append behind its cursor is its assistant turn, and the first. -/
theorem Valid.append_behind_plan (hanswers : s.AnswersIdle) (h : PlanSave s w p ep bp l R)
    (hlife : s.PlannedAt p (s.version-1) ep bp) (hk : s.At (s.version-1) e)
    (hb : e.toolBatch=some b) (hnot : ¬ b.Launched) (hj : s.appended[j]?=some ⟨v,label,ms⟩)
    (hRj : R ≤ s.seedRevision+j) :
    ∃ m, ms=[m] ∧ m.isUseOf b=true ∧ (s.messagesAt (s.seedRevision+j)).length≤ep.lastSequence := by
  obtain ⟨le,c,verdict,hev,hcommit,hlen⟩ := exists_append_of_appended hj
  have hle := prefix_of_concat hev
  have hrev : (s.upto le).revision=s.seedRevision+j := by
    rw [← hlen]
    rfl
  have hR : R≤(s.upto le).revision := by omega
  obtain ⟨-,-,hsynced,-,e',hh,-,happend⟩ := (hv.legal hev) hcommit
  have hvl := hv.upto hle
  obtain ⟨v',hplan,hplanned⟩ := h.saved
  have halive : ∀ n e', p≤n → n<s.version → s.At n e' → e'.toolBatch≠none := by
    intro n e' hpn hn hat hnone
    obtain ⟨b',hb'⟩ := hlife.active hpn (by omega) hat
    rw [hb'] at hnone
    cases hnone
  have horder := before_or_after hev hplan (by simp)
  cases hl : label with
  | turn =>
    exfalso
    rw [hl] at happend
    cases happend with
    | turn nonempty text base idle unpaused turn =>
      obtain ⟨l2,ρ,hbase⟩ := base.idle hvl (hanswers.upto hle)
      obtain ⟨label2,e2,hl2,hidle2⟩ := hbase.saved
      have hst2 := stored_of_save (hl2.trans hle) rfl
      have hold : (s.upto l2).version<p := by
        by_contra hge
        exact halive _ _ (by omega) (at_of_stored hst2).lt (at_of_stored hst2) hidle2
      by_cases hown : v=w
      · subst hown
        rcases horder with hbefore | hafter
        · exact h.no_own_append hv hbefore hcommit hR
        · exact h.no_own_text hv hafter hev hplanned hsynced hh idle halive
      · exact h.no_text hv hbase hle hown hR hold
  | toolUse | results | resolution =>
    have hlabel : label≠.turn := by
      rw [hl]
      simp
    have hafter := horder.resolve_left fun hbefore =>
      h.no_batch_append hv hbefore hcommit hlabel hR
    obtain ⟨b',hb',hlife',hsame'⟩ :=
      h.same_batch hv hlife hle hafter hplanned hh happend hlabel
    have hsame : bp.Same b := by
      obtain ⟨q,eq,bq,hq,-,hsame⟩ := hv.plannedAt hk hb
      obtain ⟨rfl,rfl,rfl⟩ := hlife.unique hq
      exact hsame
    have hat' := (hvl.hand_stored hh).2.2
    -- a launched record of the batch would still be launched
    have hplanned' : ¬ b'.Launched := by
      intro hlaunched
      have hats := hat'.mono (stored_isPrefix hle)
      have := hats.lt
      exact hnot (hv.launched_mono (by omega) hlife'.le hlife hats hb' hk hb hlaunched).1
    cases happend with
    | turn => exact absurd rfl hlabel
    | @toolUse b1 m batch planned uses nodup behind =>
      cases batch.symm.trans hb'
      refine ⟨m,rfl,?_,?_⟩
      · rw [(hsame'.symm.trans hsame).isUseOf]
        exact uses
      · obtain ⟨q,eq,bq,hq,-,hlast⟩ := hvl.planned_cursor hat' hb' hplanned'
        obtain ⟨rfl,rfl,rfl⟩ := hlife'.unique hq
        rw [← hlast,← hrev, messagesAt_of_prefix hle le_rfl,messagesAt_revision]
        exact behind
    | results batch dispatchable =>
      exact absurd (hvl.crossStore.launched_of_dispatchable hvl hh batch dispatchable)
        (Option.some.inj (batch.symm.trans hb') ▸ hplanned')
    | resolution batch launched =>
      exact absurd launched (Option.some.inj (batch.symm.trans hb') ▸ hplanned')

theorem Valid.planned_tail (hanswers : s.AnswersIdle) (hk : s.At (s.version-1) e)
    (hb : e.toolBatch=some b) (hnot : ¬ b.Launched) :
    s.messages.drop e.lastSequence=[] ∨
      ∃ m, s.messages.drop e.lastSequence=[m] ∧ m.isUseOf b=true := by
  obtain ⟨p,ep,bp,hlife,-,hlast⟩ := hv.planned_cursor hk hb hnot
  obtain ⟨w,l,R,h⟩ := hv.planSave hlife.plans
  have hR : R=s.seedRevision+(R-s.seedRevision) := by
    have := h.seeded
    omega
  have hdrop : s.messages.drop e.lastSequence =
      (s.appended.drop (R-s.seedRevision)).flatMap (·.messages) := by
    rw [hlast,h.last]
    conv_lhs => rw [World.messages,← take_append_drop (R-s.seedRevision) s.appended,
      flatMap_append,← append_assoc]
    exact drop_left
  rw [hdrop]
  cases hrest : s.appended.drop (R - s.seedRevision) with
  | nil => exact .inl rfl
  | cons a rest =>
    right
    have ha : s.appended[R-s.seedRevision]?=some a := by
      rw [← Nat.add_zero (R-s.seedRevision),← List.getElem?_drop,hrest]
      rfl
    obtain ⟨v,label,ms⟩ := a
    obtain ⟨m,rfl,huse,-⟩ :=
      hv.append_behind_plan hanswers h hlife hk hb hnot ha (by omega)
    refine ⟨m,?_,huse⟩
    cases rest with
    | nil => rfl
    | cons a' rest =>
      -- a second append would have to come first as well
      exfalso
      have ha' : s.appended[R-s.seedRevision+1]?=some a' := by
        rw [← List.getElem?_drop,hrest]
        rfl
      obtain ⟨-,-,-,hfirst⟩ :=
        hv.append_behind_plan hanswers h hlife hk hb hnot ha' (by omega)
      rw [← Nat.add_assoc,messagesAt_succ ha,← hR,h.last,length_append,length_singleton] at hfirst
      omega
end
end
end GudeAgents
