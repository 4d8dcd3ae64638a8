import GudeAgents.Protocol.Cursors
/-!
# The order of the transcript

Text may only follow a batch that is answered.
-/
namespace GudeAgents
open List World Message ToolBatchExecution
/-- Every accepted human answer claimed a record without an active batch. -/
def World.AnswersIdle (s : World) : Prop :=
  ∀ (k w : Nat) (i : Interrupt) (resp : ResumeResponse) (e : Execution),
    s.stored[k]?=some ⟨w,.resumeClaim i resp,e⟩ → i.type=.humanInput → e.toolBatch=none
def Stored.answersIdle (st : Stored) : Bool :=
  match st.label with
  | .resumeClaim i _ => decide (i.type=.humanInput → st.execution.toolBatch=none)
  | _ => true

theorem World.answersIdle_iff {s : World} :
    s.stored.all Stored.answersIdle=true ↔ s.AnswersIdle := by
  rw [all_eq_true]
  constructor
  · intro h k w i resp e hst htype
    exact of_decide_eq_true (h _ (mem_of_getElem? hst)) htype
  · rintro h ⟨w,label,e⟩ hmem
    obtain ⟨k,hk⟩ := mem_iff_getElem?.mp hmem
    cases label with
    | resumeClaim i resp => exact decide_eq_true (h k w i resp e hk)
    | _ => rfl

instance (s : World) : Decidable s.AnswersIdle := decidable_of_iff _ answersIdle_iff

theorem World.AnswersIdle.upto {s : World} {l : List Event} (h : s.AnswersIdle) (hl : l <+: s.log) :
    (s.upto l).AnswersIdle := by
  intro k w i resp e hst
  exact h k w i resp e ( stored_of_prefix hl hst)

theorem World.mem_added {s : World} {m : Message} :
    m∈s.added ↔ ∃ (j : Nat) (a : Appended), s.appended[j]?=some a ∧ m∈a.messages := by
  have hadded : s.added=s.appended.flatMap (·.messages) := by
    simp [World.added,World.messages]
  rw [hadded,mem_flatMap]
  constructor
  · rintro ⟨a,ha,hm⟩
    obtain ⟨j,hj⟩ := mem_iff_getElem?.mp ha
    exact ⟨j,a,hj,hm⟩
  · rintro ⟨j,a,hj,hm⟩
    exact ⟨a,mem_of_getElem? hj,hm⟩

/-- Every call added after the seed is answered. -/
def World.Closed (s : World) : Prop :=
  ∀ m∈s.added, ∀ u∈m.toolUses, u.toolUseID∈resultIDs s.added

section
variable [Host] {s : World} {w k p j : Nat} {e : Execution} {b : ToolBatchExecution}
  {l : List Event} {m : Message} {ms : List Message} {label : AppendLabel} {id : String}
/-- A base from which a worker extends the turn up to revision `R`: it was stored right after `l`
without an active batch, and all appends from its revision `ρ` on are own text. -/
structure IdleBase (s : World) (w R : Nat) (l : List Event) (ρ : Nat) : Prop where
  saved : ∃ label e, l++[Event.save w label e .acked] <+: s.log ∧ e.toolBatch=none
  known : ρ≤(s.upto l).revision
  le : ρ≤R
  text : ∀ k, ρ ≤ s.seedRevision+k → s.seedRevision+k<R →
    ∃ messages, s.appended[k]?=some ⟨w,.turn,messages⟩

theorem World.TextBase.idle (hv : Valid s) (hidle : s.AnswersIdle) {R : Nat} (h : s.TextBase w R) :
    ∃ l ρ, IdleBase s w R l ρ := by
  obtain ⟨label,e,ρ,hmem,hbase,-,hle,htext⟩ := h
  obtain ⟨l,hl⟩ := exists_prefix_of_mem hmem
  have hlegal := (hv.legal hl).2
  have hvl := hv.upto (prefix_of_concat hl)
  suffices hrecord : e.toolBatch=none ∧ ρ≤(s.upto l).revision from
    ⟨l,ρ,⟨label,e,hl,hrecord.1⟩,hrecord.2,hle,htext⟩
  cases label with
  | startCursor =>
    cases hbase
    cases hlegal with
    | body hand started opened guarded =>
      cases guarded with
      | startCursor unset idle genuine => exact ⟨idle,genuine.le⟩
  | resumeClaim i resp =>
    simp only [World.textBase?] at hbase
    split at hbase
    · next htype =>
      cases hbase
      refine ⟨hidle _ _ _ _ _ (stored_of_save hl rfl) htype,?_⟩
      cases hlegal with
      | resumeClaim kind hand =>
        have hle := hvl.record_revision_le (hvl.hand_stored hand).2.2
        exact hle
      | body hand started opened guarded => cases guarded
    · cases hbase
  | removeToolCalls completed =>
    simp only [World.textBase?] at hbase
    split at hbase
    · next hnone =>
      cases hbase
      refine ⟨hnone,?_⟩
      cases hlegal with
      | body hand started opened guarded =>
        cases guarded with
        | removeToolCalls batch dispatchable genuine =>
          simp only [Execution.removeToolCalls,batch,Execution.settleBatch]
          split <;> exact genuine.le
    · cases hbase
  | _ => cases hbase

theorem LegalAppend.use_label (h : LegalAppend s w e label ms) (hm : m∈ms)
    (hne : m.toolUses≠[]) : label=.toolUse := by
  cases h with
  | turn nonempty text => exact absurd (text m hm).1 hne
  | toolUse => rfl
  | results =>
    rw [mem_singleton] at hm
    subst hm
    exact absurd (toolUses_resultBlocks _ _) hne
  | resolution =>
    rw [mem_singleton] at hm
    subst hm
    exact absurd rfl hne

section
variable (hv : Valid s)
include hv
theorem Valid.use_planned (hj : s.appended[j]?=some ⟨w,label,ms⟩) (hm : m∈ms)
    (hne : m.toolUses≠[]) :
    ∃ l p ep bp, l <+: s.log ∧ (s.upto l).appended.length=j ∧ (s.upto l).Plans p ep bp ∧
      m.isUseOf bp=true ∧ label=.toolUse := by
  obtain ⟨l,c,v,hl,hcommit,hlen⟩ := exists_append_of_appended hj
  obtain ⟨-,-,-,-,e,hh,-,happend⟩ := (hv.legal hl) hcommit
  have hvl := hv.upto (prefix_of_concat hl)
  obtain ⟨p,ep,bp,hp,huse,-,-⟩ := hvl.crossStore.uses_append hvl hh happend hm hne
  exact ⟨l,p,ep,bp,prefix_of_concat hl,hlen,hp,huse,happend.use_label hm hne⟩

theorem Valid.done_answered (hp : s.Plans p e b) (hd : Done s e.startLastSequence b)
    (hid : id∈b.callIDs) : id∈resultIDs s.added := by
  obtain ⟨T,hT,-,hanswered⟩ := hd
  obtain ⟨i,m,hi,hm,hidm⟩ := hanswered id hid
  have hseed := (hv.crossStore.placed hp.at hp.batch).seed
  rw [mem_resultIDs]
  refine ⟨m,?_,hidm⟩
  rw [World.added]
  apply mem_of_getElem? (i := i-s.seedMessages.length)
  rw [List.getElem?_drop,show s.seedMessages.length+(i-s.seedMessages.length)=i by omega]
  exact hm

theorem IdleBase.closed {ρ : Nat} (h : IdleBase s w s.revision l ρ) : s.Closed := by
  intro m hm u hu
  obtain ⟨j,⟨w',label',ms⟩,hj,hmem⟩ := mem_added.mp hm
  have hne : m.toolUses≠[] := ne_nil_of_mem hu
  obtain ⟨la,p,ep,bp,hla,hlen,hp,huse,rfl⟩ := hv.use_planned hj hmem hne
  obtain ⟨label,e,hl,hnone⟩ := h.saved
  have hprefix := prefix_of_concat hl
  -- the use lies before the base, since everything behind it is text
  have hbefore : s.seedRevision+j<ρ := by
    by_contra hnot
    have hlt : s.seedRevision+j<s.revision := by
      have := (List.getElem?_eq_some_iff.mp hj).1
      unfold World.revision
      omega
    obtain ⟨ms',hms'⟩ := h.text j (by omega) hlt
    rw [hj] at hms'
    cases hms'
  -- so its batch was planned before the base was stored, and there no batch was active
  have hearlier : la <+: l := by
    by_contra hnot
    have hle : l <+: la := by
      rcases prefix_or_prefix_of_prefix hla hprefix with h1 | h1
      · exact absurd h1 hnot
      · exact h1
    have hmono := revision_mono (s := s.upto la) hle
    have hknown := h.known
    unfold World.revision at hmono hknown
    simp only [upto_upto,upto_seedRevision] at hmono hknown
    omega
  have hstored := stored_of_save hl rfl
  have hpl : (s.upto l).Plans p ep bp :=
    hp.mono (stored_isPrefix (s := s.upto l) hearlier)
  have hps : s.Plans p ep bp := hpl.mono (stored_isPrefix hprefix)
  have hdone := hv.crossStore.done hpl.at.lt hps (at_of_stored hstored) hnone
  apply hv.done_answered hps hdone
  rw [← toolUses_of_isUseOf huse]
  exact mem_map_of_mem hu

theorem Valid.unanswered (hh : s.hand? w=some e) (hb : e.toolBatch=some b) (hl : b.Launched)
    {answered : List String} (hboundary : Boundary s.messages b answered) {id : String}
    (hid : id∈b.callIDs) (hnot : id∉answered) : id∉resultIDs s.added := by
  intro hmem
  have hc := hv.crossStore
  obtain ⟨m,hm,hidm⟩ := mem_resultIDs.mp hmem
  obtain ⟨i,hi⟩ := mem_iff_getElem?.mp hm
  rw [World.added,List.getElem?_drop] at hi
  obtain ⟨k,e',b',hat',hb',hl',hid',hT⟩ := hc.results (Nat.le_add_right _ _) hi hidm
  have hat := (hv.hand_stored hh).2.2
  have hplace := hc.place_unique hv hat hb hl hat' hb' hl' hid hid'
  have hp := hc.placed hat hb
  obtain ⟨hstart,-,huse⟩ := hp.launched hl
  obtain ⟨before,first,rest,hms,hle,hfirst,-,hans,-⟩ := hboundary.split huse
  by_cases hlast : b.toolUseLastSequence=before.length+1
  · -- the result lies behind the last assistant turn of the batch, so it counts as answered
    have hrest : m∈rest := by
      rw [hms,List.getElem?_append_right (by omega)] at hi
      obtain ⟨n,hn⟩ : ∃ n, s.seedMessages.length + i - before.length=n + 1 :=
        ⟨s.seedMessages.length+i-before.length-1,by omega⟩
      rw [hn,List.getElem?_cons_succ] at hi
      exact mem_of_getElem? hi
    apply hnot
    rw [hans,mem_reverse,mem_resultIDs]
    exact ⟨m,hrest,hidm⟩
  · -- two assistant turns of one batch would use its IDs twice
    obtain ⟨m0,hm0,huse0⟩ := huse.use
    have hu0 : id∈m0.toolUses.map (·.toolUseID) := by
      rw [toolUses_of_isUseOf huse0]
      exact hid
    have hu : id∈first.toolUses.map (·.toolUseID) := by
      rw [toolUses_of_isUseOf hfirst]
      exact hid
    obtain ⟨u0,hmem0,hid0⟩ := mem_map.mp hu0
    obtain ⟨u,hmemu,hidu⟩ := mem_map.mp hu
    have hpos : s.messages[before.length]?=some first := by
      rw [hms]
      simp
    have hseed := hp.seed
    exact hc.unique (by omega) (by omega) hm0 hpos hmem0 hmemu (hid0.trans hidu.symm)

theorem Valid.plan_done {q : Nat} {e' : Execution} {b' : ToolBatchExecution} (hp : s.Plans p e b)
    (hq : s.Plans q e' b') (hlt : p<q) : Done s e.startLastSequence b := by
  obtain ⟨n,rfl⟩ : ∃ n, q=n + 1 := ⟨q - 1,by omega⟩
  obtain ⟨st,hst⟩ : ∃ st, s.stored[n]?=some st := by
    have := hq.at.lt
    exact ⟨_,List.getElem?_eq_getElem (by unfold World.version at this; omega)⟩
  have hidle := hv.plan_idle hq (at_of_stored hst)
  have hne : p≠n := by
    rintro rfl
    rw [hp.at.unique (at_of_stored hst)] at hp
    rw [hp.batch] at hidle
    cases hidle
  exact hv.crossStore.done (by omega) hp (at_of_stored hst) hidle

theorem Valid.plan_of_use {q : Nat} {e' : Execution} {b' : ToolBatchExecution} (hp : s.Plans p e b)
    (hq : s.Plans q e' b') (hm : m.isUseOf b=true) (hm' : m.isUseOf b'=true) :
    p=q ∧ e=e' ∧ b=b' := by
  have hids : b.callIDs=b'.callIDs :=
    (toolUses_of_isUseOf hm).symm.trans (toolUses_of_isUseOf hm')
  have hne : b.callIDs≠[] := by
    have := (hv.sound hp.at hp.batch).nonempty
    simpa [callIDs] using this
  obtain ⟨id,hid⟩ := exists_mem_of_ne_nil _ hne
  rcases Nat.lt_trichotomy p q with hlt | rfl | hlt
  · exact absurd (hids ▸ hid) (hv.crossStore.disjoint hlt hp hq hid)
  · cases hp.at.unique hq.at
    exact ⟨rfl,rfl,Option.some.inj (hp.batch.symm.trans hq.batch)⟩
  · exact absurd hid (hv.crossStore.disjoint hlt hq hp (hids ▸ hid))

theorem Valid.use_after_plan (hp : s.Plans p e b) {T : Nat} (hT : s.seedMessages.length<T)
    (hu : UseAt s.messages T b) : e.lastSequence<T := by
  obtain ⟨hpos,m,hm,huse⟩ := hu
  have hne : m.toolUses≠[] := by
    intro hnil
    have hids := toolUses_of_isUseOf huse
    rw [hnil] at hids
    have := (hv.sound hp.at hp.batch).nonempty
    exact this (map_eq_nil_iff.mp hids.symm)
  obtain ⟨q,e',b',hq,huse',hle⟩ := hv.crossStore.uses (by omega) hm hne
  obtain ⟨rfl,rfl,rfl⟩ := hv.plan_of_use hp hq huse huse'
  omega

theorem Valid.planned_cursor (hk : s.At k e) (hb : e.toolBatch=some b) (hnot : ¬ b.Launched) :
    ∃ p ep bp, s.PlannedAt p k ep bp ∧ bp.Same b ∧ e.lastSequence=ep.lastSequence := by
  obtain ⟨p,ep,bp,hlife,hlast⟩ := hv.crossStore.unlaunched hk hb hnot
  obtain ⟨p',ep',bp',hlife',-,hsame⟩ := hv.plannedAt hk hb
  obtain ⟨rfl,rfl,rfl⟩ := hlife.unique hlife'
  exact ⟨p,ep,bp,hlife,hsame,hlast⟩

theorem Valid.unanswered_of_planned (hh : s.hand? w=some e) (batch : e.toolBatch=some b)
    (planned : b.allPlanned=true) (behind : s.messages.length≤e.lastSequence)
    (hid : id∈b.callIDs) : id∉resultIDs s.added := by
  have hat := (hv.hand_stored hh).2.2
  have hnot := allPlanned_eq_true.mp planned
  intro hmem
  obtain ⟨m',hm',hidm⟩ := mem_resultIDs.mp hmem
  obtain ⟨i,hi⟩ := mem_iff_getElem?.mp hm'
  rw [World.added,List.getElem?_drop] at hi
  -- a result would lie behind an assistant turn, which is not there yet
  obtain ⟨k',e',b',hat',hb',hl',hid',-⟩ :=
    hv.crossStore.results (Nat.le_add_right _ _) hi hidm
  obtain ⟨p,ep,bp,hlife,-,hlast⟩ := hv.planned_cursor hat batch hnot
  obtain ⟨q,eq,bq,hq,hq',-,hsame⟩ :=
    hv.crossStore.same_lifetime hv hat batch hat' hb' hid hid'
  obtain ⟨rfl,rfl,rfl⟩ := hlife.unique hq
  have hplaced := hv.crossStore.placed hat' hb'
  obtain ⟨hstart,-,huse⟩ := hplaced.launched hl'
  have hseed := hplaced.seed
  have hafter := hv.use_after_plan hlife.plans (by omega) (huse.same hsame.symm)
  have hlen := huse.le_length
  omega

theorem LegalAppend.unanswered (hh : s.hand? w=some e) (hl : LegalAppend s w e label ms)
    (hlabel : label≠.turn) :
    ∃ b id, e.toolBatch=some b ∧ id∈b.callIDs ∧ id∉resultIDs s.added := by
  have hat := (hv.hand_stored hh).2.2
  cases hl with
  | turn => exact absurd rfl hlabel
  | @toolUse b m batch planned uses nodup behind =>
    obtain ⟨call,hcall⟩ := exists_mem_of_ne_nil _ (hv.sound hat batch).nonempty
    have hid : call.callID∈b.callIDs := mem_map_of_mem hcall
    exact ⟨b,call.callID,batch,hid,hv.unanswered_of_planned hh batch planned behind hid⟩
  | @results b calls outcomes answered batch dispatchable dispatched nonempty pending boundary nodup
      unanswered =>
      have hlaunched := hv.crossStore.launched_of_dispatchable hv hh batch dispatchable
      have hne : ((committedOutcomes calls outcomes).filterMap fun o =>
          o.resultBlock?.map (·.toolUseID))≠[] := by
        intro hnil
        apply nonempty
        simpa [resultIDs,toolResults,resultBlocks,ContentBlock.toolResult?,
          filterMap_map,Function.comp_def] using hnil
      obtain ⟨id,hid⟩ := exists_mem_of_ne_nil _ hne
      obtain ⟨hknown,hopen⟩ := unanswered id hid
      exact ⟨b,id,batch,hknown,hv.unanswered hh batch hlaunched boundary hknown hopen⟩
  | @resolution b claim answered batch launched resolution boundary known unanswered =>
    exact ⟨b,claim.callID,batch,known,hv.unanswered hh batch launched boundary known unanswered⟩

theorem Valid.plannedAt_of_unanswered (hp : s.Plans p e b) (hid : id∈b.callIDs)
    (hun : id∉resultIDs s.added) {n : Nat} (hle : p≤n) : s.PlannedAt p n e b := by
  refine ⟨hle,hp,?_⟩
  intro j w label e' hpj hjn hst
  constructor
  · rintro rfl
    cases hb' : e'.toolBatch with
    | none =>
      exact hun (hv.done_answered hp (hv.crossStore.done hpj hp (at_of_stored hst) hb') hid)
    | some b' => exact hun (hv.done_answered hp (hv.plan_done hp ⟨w,hst,hb'⟩ hpj) hid)
  · intro hnone
    exact hun (hv.done_answered hp (hv.crossStore.done hpj hp (at_of_stored hst) hnone) hid)

theorem LegalAppend.closed_of_use (hh : s.hand? w=some e) (h : LegalAppend s w e .toolUse ms) :
    s.Closed := by
  intro m hm u hu
  have hat := (hv.hand_stored hh).2.2
  obtain ⟨i,hi⟩ := mem_iff_getElem?.mp hm
  rw [World.added,List.getElem?_drop] at hi
  obtain ⟨q,eq,bq,hq,huse,hle⟩ :=
    hv.crossStore.uses (Nat.le_add_right _ _) hi (ne_nil_of_mem hu)
  have hid : u.toolUseID∈bq.callIDs := by
    rw [← toolUses_of_isUseOf huse]
    exact mem_map_of_mem hu
  cases h with
  | @toolUse b m' batch planned uses nodup behind =>
    have hnot := allPlanned_eq_true.mp planned
    obtain ⟨p,ep,bp,hlife,hsame,hlast⟩ := hv.planned_cursor hat batch hnot
    have hi' := (List.getElem?_eq_some_iff.mp hi).1
    rcases Nat.lt_trichotomy q p with hlt | rfl | hlt
    · exact hv.done_answered hq (hv.plan_done hq hlife.plans hlt) hid
    · cases hq.at.unique hlife.plans.at
      omega
    · -- a later plan would mean that this batch already had its assistant turn
      obtain ⟨T,hT,hu',-⟩ := hv.plan_done hlife.plans hq hlt
      have hseed := (hv.crossStore.placed hlife.plans.at hlife.plans.batch).seed
      have hafter := hv.use_after_plan hlife.plans (by omega) hu'
      have hlen := hu'.le_length
      omega
end
end
end GudeAgents
