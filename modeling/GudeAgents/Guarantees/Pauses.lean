import GudeAgents.Agent.Alone
import GudeAgents.Guarantees.Approvals
/-!
# Consuming a pause

A resume validates the response and claims the pause with a compare-and-swap before it acts.
-/
namespace GudeAgents
open Framework List Logic World Event Engine
/-- The response fits the interrupt: a text for a question; for an approval one decision for all
calls, or a decision for each pending call and for no other. -/
def Interrupt.AnsweredBy (i : Interrupt) (resp : ResumeResponse) : Prop :=
  match i.type with
  | .humanInput => ∃ text, resp = .respond text
  | .approval => ∃ approval, i.approval = some approval ∧ approval.calls ≠ [] ∧
      (∀ call ∈ approval.calls, call.callID ≠ "") ∧ (approval.calls.map (·.callID)).Nodup ∧
      ((∃ decision, resp = .all decision) ∨ ∃ decisions, resp = .decide decisions ∧
        ∀ id, id ∈ decisions.map Prod.fst ↔ id ∈ approval.calls.map (·.callID))

section
variable [Host]
private theorem checkApprovalCalls_ok {seen : List String} {calls : List ApprovalCall} :
    checkApprovalCalls seen calls = .ok () ↔ (∀ call ∈ calls, call.callID ≠ "") ∧
      (calls.map (·.callID)).Nodup ∧ ∀ call ∈ calls, call.callID ∉ seen := by
  induction calls generalizing seen with
  | nil => simp [checkApprovalCalls]
  | cons call rest ih =>
    unfold checkApprovalCalls
    by_cases hempty : call.callID = ""
    · simp [hempty]
    by_cases hseen : call.callID ∈ seen
    · simp [hempty,hseen]
    rw [if_neg hempty,if_neg hseen,ih]
    constructor
    · rintro ⟨hnames,hnodup,hfresh⟩
      refine ⟨by simpa [hempty] using hnames,?_,?_⟩
      · rw [map_cons,nodup_cons]
        refine ⟨?_,hnodup⟩
        intro hmem
        obtain ⟨c,hc,hid⟩ := mem_map.mp hmem
        exact hfresh c hc (by simp [hid])
      · intro c hc
        rcases mem_cons.mp hc with rfl | hc
        · exact hseen
        · exact fun h => hfresh c hc (mem_cons_of_mem _ h)
    · rintro ⟨hnames,hnodup,hfresh⟩
      rw [map_cons,nodup_cons] at hnodup
      refine ⟨fun c hc => hnames c (mem_cons_of_mem _ hc),hnodup.2,?_⟩
      intro c hc hmem
      rcases mem_cons.mp hmem with h | h
      · exact hnodup.1 (mem_map.mpr ⟨c,hc,h⟩)
      · exact hfresh c (mem_cons_of_mem _ hc) h

variable {decisions : List (String × Decision)}
omit [Host] in
private theorem lookup_isNone {id : String} :
    (decisions.lookup id).isNone = true ↔ id ∉ decisions.map Prod.fst := by
  rw [Option.isNone_iff_eq_none,lookup_eq_none_iff]
  constructor
  · intro h hmem
    obtain ⟨d,hd,rfl⟩ := mem_map.mp hmem
    simpa using h d hd
  · intro h d hd
    have hne : id ≠ d.1 := by
      rintro rfl
      exact h (mem_map_of_mem hd)
    simpa using hne

private theorem decisions_ok {ids : List String} :
    (match ids.find? fun id => (decisions.lookup id).isNone with
      | some id => Except.error (Error.text ("resume: missing decision for call ID " ++ Host.quote id))
      | none => match (decisions.map Prod.fst).find? fun id => decide (id ∉ ids) with
        | some id => .error (.text ("resume: unexpected decision for call ID " ++ Host.quote id))
        | none => .ok ()) = .ok () ↔ ∀ id, id ∈ decisions.map Prod.fst ↔ id ∈ ids := by
  constructor
  · intro h id
    split at h
    · cases h
    · next hmissing =>
      split at h
      · cases h
      · next hunexpected =>
        rw [List.find?_eq_none] at hmissing hunexpected
        constructor
        · intro hid
          by_contra hnot
          exact hunexpected id hid (decide_eq_true hnot)
        · intro hid
          by_contra hnot
          exact hmissing id hid (lookup_isNone.mpr hnot)
  · intro h
    have hmissing : ids.find? (fun id => (decisions.lookup id).isNone) = none := by
      rw [List.find?_eq_none]
      intro id hid hnone
      exact lookup_isNone.mp hnone ((h id).mpr hid)
    have hunexpected : (decisions.map Prod.fst).find? (fun id => decide (id ∉ ids)) = none := by
      rw [List.find?_eq_none]
      intro id hid hnot
      exact of_decide_eq_true hnot ((h id).mp hid)
    rw [hmissing,hunexpected]

private theorem validateResume_ok {i : Interrupt} {resp : ResumeResponse} :
    validateResume i resp = .ok () ↔ i.AnsweredBy resp := by
  unfold validateResume Interrupt.AnsweredBy
  cases i.type with
  | humanInput => cases resp <;> simp
  | approval =>
    cases hcalls : i.approval with
    | none => simp
    | some approval =>
      simp only [Option.some.injEq,exists_eq_left']
      by_cases hnil : approval.calls = []
      · simp [hnil]
      rw [if_neg hnil]
      cases hcheck : checkApprovalCalls [] approval.calls with
      | error err =>
        simp only [reduceCtorEq,false_iff]
        rintro ⟨-,hnames,hnodup,-⟩
        have hok : checkApprovalCalls [] approval.calls = .ok () :=
          checkApprovalCalls_ok.mpr ⟨hnames,hnodup,by simp⟩
        rw [hcheck] at hok
        cases hok
      | ok u =>
        obtain ⟨hnames,hnodup,-⟩ := checkApprovalCalls_ok.mp hcheck
        cases resp with
        | none | respond text => simp
        | all decision => exact ⟨fun _ => ⟨hnil,hnames,hnodup,.inl ⟨decision,rfl⟩⟩,fun _ => rfl⟩
        | decide decisions =>
          simp only [ResumeResponse.decide.injEq,exists_eq_left',reduceCtorEq,exists_false,false_or]
          exact ⟨fun h => ⟨hnil,hnames,hnodup,decisions_ok.mp h⟩,fun h => decisions_ok.mpr h.2.2.2⟩

/-- The record is the pause that the interrupt names, and the response answers it. -/
def Execution.Accepts (e : Execution) (i : Interrupt) (resp : ResumeResponse) : Prop :=
  e.status = .paused ∧ e.version = i.executionVersion ∧
    ∃ p, e.pause = some p ∧ validateResume (interruptFromExecution e p) resp = .ok ()

variable {s : World} {w k : Nat} {i : Interrupt} {resp : ResumeResponse} {e : Execution}
omit [Host] in
theorem World.hand_loaded (hh : s.hand? w = some e)
    (hfirst : ∀ label e v, save w label e v ∉ s.log) : load w e ∈ s.log := by
  obtain ⟨l,hl | ⟨label,hl⟩⟩ := hand_event hh
  · exact mem_of_concat hl
  · exact absurd (mem_of_concat hl) (hfirst label e .acked)

theorem LegalSave.claim (h : LegalSave s w (.resumeClaim i resp) e) :
    ∃ entry i0 e0, s.Entered w entry ∧ entry.request = .resume i0 resp ∧
      load w e0 ∈ s.log ∧ e0.Accepts i0 resp ∧ e.version = e0.version + 1 := by
  cases h with
  | body hand started opened guarded => cases guarded
  | @resumeClaim e0 p resp kind hand paused pause valid first observed =>
    obtain ⟨entry,i0,hentered,hrequest,hversion⟩ := observed
    exact ⟨entry,i0,e0,hentered,hrequest,hand_loaded hand first,
      ⟨paused,hversion.symm,p,pause,valid⟩,rfl⟩

section Resuming
variable {entry : Entry} {i0 : Interrupt} {resp0 : ResumeResponse}
theorem Valid.claim_event (hv : Valid s) (hentered : s.Entered w entry)
    (hrequest : entry.request = .resume i0 resp0) {v : Verdict}
    (hmem : save w (.resumeClaim i resp) e v ∈ s.log) :
    ∃ e0, load w e0 ∈ s.log ∧ e0.Accepts i0 resp0 ∧ e.version = e0.version + 1 := by
  obtain ⟨l,hl⟩ := exists_prefix_of_mem hmem
  obtain ⟨entry',i',e0,hentered',hrequest',hload,haccepts,hver⟩ := (hv.legal hl).2.claim
  have hsub := (prefix_of_concat hl).subset
  rw [hv.entered_unique (hsub hentered') hentered,hrequest] at hrequest'
  cases hrequest'
  exact ⟨e0,hsub hload,haccepts,hver⟩

theorem Valid.claim_version (hv : Valid s) (hentered : s.Entered w entry)
    (hrequest : entry.request = .resume i0 resp0)
    (hk : s.stored[k]? = some ⟨w,.resumeClaim i resp,e⟩) : k = i0.executionVersion := by
  obtain ⟨l,v,hl,-,-⟩ := exists_save_of_stored hk
  have hmem : save w (.resumeClaim i resp) e v ∈ s.log := mem_of_concat hl
  obtain ⟨e0,-,haccepts,hver⟩ := hv.claim_event hentered hrequest hmem
  have hk' := hv.version_eq (at_of_stored hk)
  have hobserved := haccepts.2.1
  omega

theorem Valid.claim_answers (hv : Valid s) (hk : s.stored[k]? = some ⟨w,.resumeClaim i resp,e⟩) :
    ∃ entry i0 e0 p, s.Entered w entry ∧ entry.request = .resume i0 resp ∧
      s.At (i0.executionVersion - 1) e0 ∧ e0.status = .paused ∧ e0.pause = some p ∧
      i = interruptFromExecution e0 p ∧ i.AnsweredBy resp := by
  cases k with
  | zero => cases (hv.created hk).1
  | succ n =>
    obtain ⟨l,v,prev,hl,-,-,hprev,hhand,hlegal⟩ := hv.commit hk
    cases hlegal with
    | body hand started opened guarded => cases guarded
    | @resumeClaim e0 p resp kind hand paused pause valid first observed =>
      obtain ⟨entry,i0,hentered,hrequest,hversion⟩ := observed
      cases hhand.symm.trans hand
      have hn := hv.version_eq hprev
      rw [show n = i0.executionVersion - 1 by omega] at hprev
      exact ⟨entry,i0,prev,p,(prefix_of_concat hl).subset hentered,hrequest,hprev,paused,pause,rfl,
        validateResume_ok.mp valid⟩

theorem Valid.write_accepted (hv : Valid s) (hentered : s.Entered w entry)
    (hrequest : entry.request = .resume i0 resp0) {ev : Event} (hev : ev ∈ s.own w)
    (hwrite : ev.stored? ≠ none ∨ ev.appended? ≠ none) :
    ∃ e0, load w e0 ∈ s.log ∧ e0.Accepts i0 resp0 := by
  obtain ⟨hmem,hown⟩ := mem_own.mp hev
  obtain ⟨l,hl⟩ := exists_prefix_of_mem hmem
  have hlegal := hv.legal hl
  have hsub := (prefix_of_concat hl).subset
  have hkind : ∀ {kind}, (s.upto l).IsKind w kind → kind = .resume := by
    rintro kind ⟨entry',hentered',hentry⟩
    rw [hv.entered_unique (hsub hentered') hentered,hrequest] at hentry
    exact hentry.symm
  have started : ∀ {e' : Execution}, (s.upto l).Started w e' →
      ∃ e0, load w e0 ∈ s.log ∧ e0.Accepts i0 resp0 := by
    intro e' hstarted
    cases hstarted with
    | invoke _ kind | recover _ kind | reconcile _ kind => cases hkind kind
    | resume i resp kind claimed =>
      obtain ⟨e1,hclaim⟩ := claimed
      obtain ⟨e0,hload,haccepts,-⟩ := hv.claim_event hentered hrequest (hsub hclaim)
      exact ⟨e0,hload,haccepts⟩
  cases ev with
  | save w' label e' v =>
    cases hown
    cases hlegal.2 with
    | create id conversationID kind | projectPause kind | retry kind | resolution kind =>
      cases hkind kind
    | body hand hstarted => exact started hstarted
    | resumeClaim =>
      obtain ⟨e0,hload,haccepts,-⟩ := hv.claim_event hentered hrequest hmem
      exact ⟨e0,hload,haccepts⟩
  | append w' label messages c v =>
    cases hown
    by_cases hc : v.committed = true
    · obtain ⟨-,-,-,-,e',-,hstarted,-⟩ := hlegal hc
      exact started hstarted
    · simp [stored?,appended?,hc] at hwrite
  | _ => simp [stored?,appended?] at hwrite
end Resuming
def World.ClaimWon (s : World) (w : Nat) : Prop := ∃ i resp, s.Claimed w i resp
def Op.claims : Op → Bool
  | .load | .save (.resumeClaim _ _) _ _ => true
  | _ => false
def Acts (w : Nat) (s s' : World) : Prop :=
  s' = s ∨ ∃ ev, ev.worker? = some w ∧ (∀ entry, ev ≠ .began w entry) ∧ s' = s.record ev

variable {s' : World}
omit [Host] in
theorem World.Perform.acts {op : Op} {answer : op.Answer} (h : World.Perform w op s answer s') :
    Acts w s s' := by
  cases op with
  | create e' | save label e' expected | append label messages expected =>
    obtain ⟨v,-,rfl,-⟩ := h
    exact .inr ⟨_,rfl,by simp,rfl⟩
  | load =>
    rcases h with ⟨e',-,-,rfl⟩ | ⟨-,rfl⟩
    · exact .inr ⟨_,rfl,by simp,rfl⟩
    · exact .inl rfl
  | loadAfter label after =>
    rcases h with ⟨-,rfl⟩ | ⟨-,rfl⟩
    · exact .inr ⟨_,rfl,by simp,rfl⟩
    · exact .inl rfl
  | contextErr => exact .inl h.2
  | callModel request =>
    rcases h with ⟨resp,-,rfl⟩ | ⟨-,rfl⟩ <;> exact .inr ⟨_,rfl,by simp,rfl⟩
  | commitLease usage | handler start | note n => exact .inr ⟨_,rfl,by simp,h⟩
  | ask query => exact .inl h

omit [Host] in
theorem Acts.isKind (h : Acts w s s') {kind : RequestKind} :
    s'.IsKind w kind ↔ s.IsKind w kind := by
  rcases h with rfl | ⟨ev,-,hev,rfl⟩
  · exact Iff.rfl
  · exact isKind_record fun entry => (hev entry).symm

omit [Host] in
theorem Acts.claimed (h : Acts w s s') (hc : s.ClaimWon w) : s'.ClaimWon w := by
  obtain ⟨i,resp,e,hclaim⟩ := hc
  rcases h with rfl | ⟨ev,-,-,rfl⟩
  · exact ⟨i,resp,e,hclaim⟩
  · exact ⟨i,resp,e,record_isPrefix.subset hclaim⟩

private theorem system_acts {op : effects.Op} {answer : effects.Ans op}
    (h : system.Perform w op s answer s') : Acts w s s' :=
  World.Perform.acts (show World.Perform w op s answer s' from h)

/-- A resume makes no other call than its load and its claim before it has won the claim. -/
def claimsFirst : RelyGuarantee system where
  Inv _ := True
  Bound := logic.Bound
  Rely := Others
  Pre w op s := s.IsKind w .resume → op.claims = true ∨ s.ClaimWon w
  Guar := Acts
  rely_refl := logic.rely_refl
  rely_trans := logic.rely_trans
  guar_inv _ _ := trivial
  guar_rely := by
    rintro w w' s s' (rfl | ⟨ev,hw,-,rfl⟩) hne
    · exact .refl w' _
    · exact .record (by rw [hw]; simpa using hne)
  guar_bound := by
    rintro w n s s' hb hlt (rfl | ⟨ev,hw,-,rfl⟩)
    · exact hb
    · refine RecordedBelow.record hb fun w' hw' => ?_
      rw [hw] at hw'
      cases hw'
      exact hlt
  spawn_inv _ _ _ := trivial
  spawn_bound := logic.spawn_bound
  spawn_rely := logic.spawn_rely
  environment_inv _ _ := trivial
  environment_bound := logic.environment_bound
  environment_rely := logic.environment_rely

private theorem claimsFirst_claimed {α : Type} (p : Program effects α) (h : s.ClaimWon w) :
    (claimsFirst.of w).Safe p (fun _ _ => True) s := by
  refine RelyGuarantee.safe_of_stable (J := fun s => s.ClaimWon w) ?_ ?_ p h
  · rintro s s' ⟨i,resp,hc⟩ ho
    exact ⟨i,resp,ho.claimed.mpr hc⟩
  · intro op s hc _
    exact ⟨fun _ => .inr hc,fun answer s' hp => ⟨system_acts hp,(system_acts hp).claimed hc⟩⟩

private theorem claimsFirst_other (p : Program effects Response) (h : ¬ s.IsKind w .resume) :
    (claimsFirst.of w).Safe p (fun _ _ => True) s := by
  refine RelyGuarantee.safe_of_stable (J := fun s => ¬ s.IsKind w .resume) ?_ ?_ p h
  · intro s s' hk ho
    exact fun h => hk (ho.isKind.mp h)
  · intro op s hk _
    refine ⟨fun h => absurd h hk,fun answer s' hp => ⟨system_acts hp,?_⟩⟩
    exact fun h => hk ((system_acts hp).isKind.mp h)

variable {a : Agent}
namespace Engine
variable {r : Run} {X : Error → Run → World → Prop}
private theorem claimsFirst_load {Q : Except StoreFault Execution → Run → World → Prop}
    (h : ∀ answer s', Q answer r s') : (claimsFirst.of w).wp loadExecution r s Q X := by
  intro s1 _ _
  exact ⟨fun _ => .inl rfl,fun answer s2 hload => ⟨system_acts hload,h answer s2⟩⟩

theorem claimsFirst_save {next : Execution} {Q : Except StoreFault Unit → Run → World → Prop}
    (hok : ∀ r' s', s'.ClaimWon w → Q (.ok ()) r' s') (herr : ∀ fault s', Q (.error fault) r s') :
    (claimsFirst.of w).wp (saveExecution (.resumeClaim i resp) next) r s Q X := by
  intro s1 _ _
  refine ⟨fun _ => .inl rfl,fun answer s2 hsave => ⟨system_acts hsave,?_⟩⟩
  obtain ⟨verdict,-,rfl,hanswer⟩ := hsave
  cases verdict with
  | acked =>
    rw [hanswer]
    exact hok _ _ ⟨i,resp,_,mem_append_right _ (mem_singleton_self _)⟩
  | lost | refused =>
    obtain ⟨fault,rfl⟩ := hanswer
    exact herr fault _

private theorem claimsFirst_claimPause :
    (claimsFirst.of w).wp (claimPause a i resp) r s (fun _ _ s' => s'.ClaimWon w)
      (fun _ _ _ => True) := by
  unfold claimPause
  split
  · trivial
  split
  · trivial
  rw [wp_bind]
  apply claimsFirst_load
  intro answer s1
  cases answer with
  | error fault => trivial
  | ok e =>
    simp only
    split
    · trivial
    split
    · trivial
    simp only [requireConversationID,wp_bind,wp_mapError,wp_ofExcept]
    split
    · trivial
    split
    · exact claimsFirst_save (fun _ _ h => h) (fun _ _ => trivial)
    · trivial

private theorem claimsFirst_resume {c : Context} :
    (claimsFirst.of w).wp (resume a c i resp) r s (fun _ _ _ => True) (fun _ _ _ => True) := by
  unfold resume
  rw [wp_bind]
  refine wp_mono claimsFirst_claimPause ?_ (fun _ _ _ h => h)
  intro canonical r' s' hclaimed
  refine (claimsFirst_claimed _ hclaimed).mono ?_
  rintro ⟨_ | _,_⟩ s'' _ <;> trivial
end Engine
private theorem claimsFirst_spawn {n : Nat} {p : Program effects Response} {s : World}
    (hb : claimsFirst.Bound n s) (h : system.Spawn n p s s') :
    (claimsFirst.of n).Safe p (fun _ _ => True) s' := by
  obtain ⟨a,c,request,-,-,rfl,rfl⟩ := h
  by_cases hkind : request.kind = .resume
  · cases request with
    | resume i resp =>
      exact Logic.Safe.bind.mpr (claimsFirst_resume.mono fun _ _ _ => trivial)
    | _ => cases hkind
  · apply claimsFirst_other
    rintro ⟨entry,hentered,hentry⟩
    rcases mem_append.mp hentered with h | h
    · exact Nat.lt_irrefl n (hb _ h n rfl)
    · cases mem_singleton.mp h
      exact hkind hentry

/-- What the resumes of a stored pause do together. -/
structure PauseConsumedOnce (s : World) (workers : List (Option (Program effects Response))) :
    Prop where
  /-- Of all resumes of one version the store accepts the claim of at most one. -/
  once : ∀ w w' entry entry' i i' resp resp', s.Entered w entry → s.Entered w' entry' →
    entry.request = .resume i resp → entry'.request = .resume i' resp' →
    i.executionVersion = i'.executionVersion →
    (∃ c r e, ⟨w,.resumeClaim c r,e⟩ ∈ s.stored) →
    (∃ c r e, ⟨w',.resumeClaim c r,e⟩ ∈ s.stored) → w = w'
  /-- An accepted claim answers the pause of the version that the caller named. -/
  answered : ∀ w c r e, ⟨w,.resumeClaim c r,e⟩ ∈ s.stored → ∃ entry i e0 p,
    s.Entered w entry ∧ entry.request = .resume i r ∧ s.At (i.executionVersion - 1) e0 ∧
      e0.status = .paused ∧ e0.pause = some p ∧ c = interruptFromExecution e0 p ∧ c.AnsweredBy r
  /-- Before the claim is won there is no other call. -/
  first : ∀ w entry i resp op next, s.Entered w entry → entry.request = .resume i resp →
    workers[w]? = some (some (.call op next)) → op.claims = false →
    s.ClaimWon w
  /-- A resume that finds no pause it answers writes to neither store. -/
  rejected : ∀ w entry i resp, s.Entered w entry → entry.request = .resume i resp →
    (∀ e, load w e ∈ s.log → ¬ e.Accepts i resp) →
    ∀ ev ∈ s.own w, ev.stored? = none ∧ ev.appended? = none
  /-- As long as the pause is the stored record, a valid resume of its version wins the claim. -/
  claimable : ∀ e a c i resp, s.current? = some e → e.Accepts i resp → i.executionID ≠ "" →
    a.conversation = true → a.executionStore = true →
    Program.Leads (World.Fulfils workers.length) (fun s' => s'.ClaimWon workers.length)
      ((Request.resume i resp).program a c) (s.record (.began workers.length ⟨a,c,.resume i resp⟩))

theorem Engine.served_claimPause {r : Run} {X : Error → Run → World → Prop} {P : World → Prop}
    (ha : a.conversation = true) (hs : a.executionStore = true) (hid : i.executionID ≠ "")
    (hcur : s.current? = some e) (hver : e.version = s.version) (hnamed : e.conversationID ≠ "")
    (haccepts : e.Accepts i resp) :
    (served w P).wp (claimPause a i resp) r s (fun _ _ s' => s'.ClaimWon w) X := by
  obtain ⟨hpaused,hversion,p,hpause,hvalid⟩ := haccepts
  unfold claimPause
  rw [if_neg hid,if_neg (by simp [ha,hs]),wp_bind]
  apply served_load hcur
  simp only [hpause,hpaused,hversion,ne_eq,not_true_eq_false,or_self,if_false]
  simp only [requireConversationID,wp_bind,wp_mapError,wp_ofExcept]
  rw [if_neg (by simp [interruptFromExecution,hnamed]),wp_pure,hvalid]
  refine served_save ?_ ?_
  · simpa [version_record,stored?,← hversion] using hver
  · exact ⟨_,_,_,mem_append_right _ (mem_singleton_self _)⟩

theorem Valid.claimable (hv : Valid s) {c : Context} (hcur : s.current? = some e)
    (haccepts : e.Accepts i resp) (hid : i.executionID ≠ "") (ha : a.conversation = true)
    (hs : a.executionStore = true) :
    Program.Leads (World.Fulfils w) (fun s' => s'.ClaimWon w)
      ((Request.resume i resp).program a c) (s.record (.began w ⟨a,c,.resume i resp⟩)) := by
  obtain ⟨-,hver,hat⟩ := hv.current_stored hcur
  have hresume : (served w fun s' => s'.ClaimWon w).wp
      (resume a c i resp) {} (s.record (.began w ⟨a,c,.resume i resp⟩))
      (fun _ _ s' => s'.ClaimWon w) (fun _ _ s' => s'.ClaimWon w) := by
    unfold resume
    rw [wp_bind]
    refine wp_mono (served_claimPause ha hs hid ?_ ?_ (hv.named hat) haccepts) ?_ (fun _ _ _ h => h)
    · simpa [World.current?,World.records,stored_record,stored?] using hcur
    · simpa [version_record,stored?] using hver
    · intro canonical r s' hclaimed
      exact leads_now (P := fun s' : World => s'.ClaimWon w) hclaimed _ r
  refine Logic.Safe.bind.mpr (hresume.mono ?_)
  rintro ⟨_ | _,_⟩ s' h <;> exact h

/-- Any number of resumes of one pause: at most one is accepted, it answers the pause, and it has
won the claim before it does anything else; the others leave the pause to be answered. -/
theorem pause_consumed_once {seed : World} {workers : List (Option (Program effects Response))}
    (hseed : seed.log = []) (hreach : system.Reachable seed ⟨s,workers⟩) :
    PauseConsumedOnce s workers := by
  have hv : Valid s := Reaches.valid ⟨hseed,workers,hreach⟩
  constructor
  case once =>
    rintro w w' entry entry' i i' resp resp' hw hw' hr hr' hi ⟨c,r,e,hmem⟩ ⟨c',r',e',hmem'⟩
    obtain ⟨k,hk⟩ := mem_iff_getElem?.mp hmem
    obtain ⟨k',hk'⟩ := mem_iff_getElem?.mp hmem'
    rw [hv.claim_version hw hr hk,hi,← hv.claim_version hw' hr' hk',hk'] at hk
    cases hk
    rfl
  case answered =>
    intro w c r e hmem
    obtain ⟨k,hk⟩ := mem_iff_getElem?.mp hmem
    exact hv.claim_answers hk
  case first =>
    intro w entry i resp op next hentered hrequest hnext hop
    have hpre := claimsFirst.reachable_pre (fun _ hb hs => claimsFirst_spawn hb hs) trivial
      (by intro ev hev; rw [hseed] at hev; cases hev) hreach hnext
    rcases hpre ⟨entry,hentered,by rw [hrequest]; rfl⟩ with h | h
    · rw [hop] at h
      cases h
    · exact h
  case rejected =>
    intro w entry i resp hentered hrequest hnone ev hev
    by_contra hwrite
    rw [not_and_or] at hwrite
    obtain ⟨e,hload,haccepts⟩ := hv.write_accepted hentered hrequest hev hwrite
    exact hnone e hload haccepts
  case claimable =>
    intro e a c i resp hcur haccepts hid ha hs
    exact hv.claimable hcur haccepts hid ha hs
end
namespace Scenario
def racedResumes : Script :=
  let a : Agent := { tools := [{ name := "t", needsApproval := true }] }
  [enter a (.invoke "hi"),.run 0 99,.step 0 (callsTools ["c1"]),.run 0 99,
    enter a (answer .approval 7 (.respond "yes")),.run 1 99,
    enter a (answer .approval 7 (.all ⟨true,""⟩)),enter a (answer .approval 7 (.all ⟨false,""⟩)),
    .run 2 1,.run 3 1,.run 3 1,.run 2 1]
end Scenario
theorem pause_consumed_once_raced : ∃ s workers,
    (@system plainHost).Reachable {} ⟨s,workers⟩ ∧ s.stored.map (·.worker) = [0,0,0,0,0,0,0,3] ∧
      @PauseConsumedOnce plainHost s workers := by
  obtain ⟨s,⟨hseed,workers,hreach⟩,hP⟩ := @exists_reaches plainHost {} Scenario.racedResumes
    (fun s => decide (s.stored.map (·.worker) = [0,0,0,0,0,0,0,3])) rfl (by decide +kernel)
  exact ⟨s,workers,hreach,of_decide_eq_true hP,
    @pause_consumed_once plainHost s {} workers hseed hreach⟩
end GudeAgents
