import GudeAgents.Guarantees.Approvals
/-!
# Resumed runs

A resume claims the pause and reloads the record in two calls.
-/
namespace GudeAgents
open List World Event Scenario
/-- The record stored at `j` is a pause between the claim at `k` and the reload `ev`. -/
def World.interferes (s : World) (k j : Nat) (ev : Event) : Bool :=
  match s.stored[k]?, s.stored[j]?, ev with
  | some ⟨w,.resumeClaim _ _,_⟩, some st, .load w' e =>
    decide (w = w' ∧ k < j ∧ j < e.version ∧ st.execution.status = .paused)
  | _, _, _ => false

/-- No paused record is stored between the claim of a resume and its reload. -/
def World.GapsQuiet (s : World) : Prop :=
  ∀ k < s.version, ∀ j < s.version, ∀ ev ∈ s.log, s.interferes k j ev = false
def Event.worked? (w : Nat) : Event → Option Execution
  | .load w' e => if w' = w then some e else none
  | .save w' label e _ => if w' = w ∧ label ≠ .pause ∧ label ≠ .finalize then some e else none
  | _ => none

/-- Every record that a resume works on after its claim is running and has no pause. -/
def World.ResumesRunning (s : World) : Prop :=
  ∀ (w : Nat) (i : Interrupt) (resp : ResumeResponse) (e1 e : Execution) (before : List Event)
    (ev : Event), save w (.resumeClaim i resp) e1 .acked ∈ before →
    before ++ [ev] <+: s.log → ev.worked? w = some e → e.status = .running ∧ e.pause = none

instance (s : World) : Decidable s.GapsQuiet := by
  unfold World.GapsQuiet
  infer_instance

section
variable {s : World} {w k j : Nat} {i : Interrupt} {resp : ResumeResponse} {e e1 e' : Execution}
theorem World.GapsQuiet.not_paused (h : s.GapsQuiet)
    (hk : s.stored[k]? = some ⟨w,.resumeClaim i resp,e1⟩) (hload : load w e ∈ s.log)
    (hlt : k < j) (hj : j < e.version) (hat : s.At j e') : e'.status ≠ .paused := by
  intro hpaused
  obtain ⟨v,label,hst⟩ := hat.stored
  have hquiet := h k (at_of_stored hk).lt j hat.lt _ hload
  unfold World.interferes at hquiet
  rw [hk,hst] at hquiet
  exact of_decide_eq_false hquiet ⟨rfl,hlt,hj,hpaused⟩

theorem World.GapsQuiet.upto {l : List Event} (h : s.GapsQuiet) (hl : l <+: s.log) :
    (s.upto l).GapsQuiet := by
  intro k hk j hj ev hev
  have hle := version_mono hl
  have hquiet := h k (by omega) j (by omega) ev (hl.subset hev)
  have hstored : ∀ n < (s.upto l).version, (s.upto l).stored[n]? = s.stored[n]? := by
    intro n hn
    obtain ⟨rest,hrest⟩ := stored_isPrefix hl
    rw [← hrest,List.getElem?_append_left hn]
  unfold World.interferes at hquiet ⊢
  rw [hstored k hk,hstored j hj]
  exact hquiet
end
section
variable [Host] {s : World} {w k j : Nat} {i : Interrupt} {resp : ResumeResponse}
  {e e0 e1 : Execution} {l : List Event} {label : SaveLabel}
section
variable (hv : Valid s)
include hv
theorem Valid.claim_record (hk : s.stored[k]? = some ⟨w,.resumeClaim i resp,e1⟩) :
    e1.status = .running ∧ e1.pause = none ∧
      ∃ n e0, k = n + 1 ∧ s.At n e0 ∧ e0.status = .paused := by
  cases k with
  | zero => cases (hv.created hk).1
  | succ n =>
    obtain ⟨l,v,prev,-,-,-,hprev,hhand,hlegal⟩ := hv.commit hk
    cases hlegal.lifeStep hhand with
    | kept ordinary => cases ordinary
    | projected which => rcases which with h | h <;> cases h
    | claimed kind paused status pause => exact ⟨status,pause,n,prev,rfl,hprev,paused⟩

section
variable (hq : s.GapsQuiet) (hk : s.stored[k]? = some ⟨w,.resumeClaim i resp,e1⟩)
  (hload : l ++ [load w e] <+: s.log)
include hq hk hload
theorem Valid.gap_not_finalized (hlt : k < j) (hj : j < e.version) {v : Nat} {e' : Execution} :
    s.stored[j]? ≠ some ⟨v,.finalize,e'⟩ := by
  intro hst
  obtain ⟨hrunning,-,n0,before0,hn0,hat0,hpaused0⟩ := hv.claim_record hk
  have hmem := mem_of_concat hload
  have hcurrent := (hv.legal hload).1
  have hversion := ((hv.upto (prefix_of_concat hload)).current_stored hcurrent).2.1
  obtain ⟨n,rfl⟩ : ∃ n, j = n + 1 := ⟨j - 1,by omega⟩
  obtain ⟨l1,v1,prev,hl1,hcommit,hver,-,hhand,hlegal⟩ := hv.commit hst
  have hne : v ≠ w := by
    rintro rfl
    -- a run that has ended does not load again
    have hearlier := concat_prefix_of_version hl1 (prefix_of_concat hload) (by omega)
    obtain ⟨i',resp',hlabel⟩ := (hv.legal hload).2.2.1 _ _ _ (mem_of_concat hearlier)
    cases hlabel
  -- the other run has loaded the record after this claim, so it is a resume itself
  obtain ⟨l',prev',hload',hafter⟩ :=
    hv.loaded_after_other hl1 hcommit hk (Ne.symm hne) (by omega)
  have hload'' : l' ++ [load v prev'] <+: s.log := hload'.trans (prefix_of_concat hl1)
  have hversion' := ((hv.upto (prefix_of_concat hload'')).current_stored (hv.legal hload'').1).2.1
  have hv1 := hv.upto (prefix_of_concat hl1)
  obtain ⟨kind,hkind,hnot⟩ := (hv.legal hload'').2.2.2
  have hkind1 : (s.upto l1).IsKind v kind := by
    obtain ⟨entry,hentered,hentry⟩ := hkind
    have hsub : l' <+: l1 := (prefix_append l' _).trans hload'
    exact ⟨entry,hsub.subset hentered,hentry⟩
  cases hlegal with
  | body hand started opened guarded =>
    cases guarded with
    | finalize iteration turn =>
      cases started with
      | invoke e0 kind' => exact hnot (hv1.kind_unique hkind1 kind')
      | recover e0 kind' | reconcile e0 kind' =>
        rcases turn with h | h <;> cases hv1.kind_unique h kind'
      | resume i' resp' kind' claimed =>
        obtain ⟨n',e2,p,e3,hst',hat',-,-,-,-⟩ := hv1.claimed_pause claimed
        have hlt' := (at_of_stored hst').lt
        have hst'' := stored_of_prefix (prefix_of_concat hl1) hst'
        obtain ⟨hrunning',-,n1,before1,hn1,hat1,hpaused1⟩ := hv.claim_record hst''
        rcases Nat.lt_trichotomy (n' + 1) k with hlt1 | heq | hlt1
        · have hne0 : n' + 1 ≠ n0 := by
            rintro rfl
            rw [(at_of_stored hst'').unique hat0,hpaused0] at hrunning'
            cases hrunning'
          exact hq.not_paused hst'' (mem_of_concat hload'') (by omega) (by omega) hat0 hpaused0
        · rw [heq,hk] at hst''
          cases hst''
          exact hne rfl
        · have hne1 : k ≠ n1 := by
            rintro rfl
            rw [(at_of_stored hk).unique hat1,hpaused1] at hrunning
            cases hrunning
          exact hq.not_paused hk hmem (by omega) (by omega) hat1 hpaused1

theorem Valid.reloaded_running (hlt : k < e.version) : e.status = .running ∧ e.pause = none := by
  have hmem := mem_of_concat hload
  have hvl := hv.upto (prefix_of_concat hload)
  have hat := (hvl.current_stored (hv.legal hload).1).2.2.mono
    (stored_isPrefix (prefix_of_concat hload))
  -- from the claim on every stored record is running
  suffices hall : ∀ j e', k ≤ j → j < e.version → s.At j e' →
      e'.status = .running ∧ e'.pause = none from hall _ e (by omega) (by omega) hat
  intro j
  induction j with
  | zero =>
    intro e' hle _ hat'
    obtain ⟨hrunning,hpause,-⟩ := hv.claim_record hk
    obtain rfl : k = 0 := by omega
    rw [hat'.unique (at_of_stored hk)]
    exact ⟨hrunning,hpause⟩
  | succ j ih =>
    intro e' hle hj hat'
    by_cases heq : k = j + 1
    · subst heq
      obtain ⟨hrunning,hpause,-⟩ := hv.claim_record hk
      rw [hat'.unique (at_of_stored hk)]
      exact ⟨hrunning,hpause⟩
    · obtain ⟨v,label,hst⟩ := hat'.stored
      obtain ⟨l1,v1,prev,-,-,-,hprev,hhand,hlegal⟩ := hv.commit hst
      obtain ⟨hrunning,hpause⟩ := ih prev (by omega) (by omega) hprev
      have hnot := hq.not_paused hk hmem (by omega) hj hat'
      cases hlegal.lifeStep hhand with
      | kept ordinary same | progress same | planned same =>
        exact ⟨same.status.trans hrunning,same.pause.trans hpause⟩
      | pending status pause => exact ⟨status.trans hrunning,pause.trans hpause⟩
      | claimed kind paused status pause => exact ⟨status,pause⟩
      | paused turn stored status | projected which kind stored status => exact absurd status hnot
      | finalized => exact absurd hst (hv.gap_not_finalized hq hk hload (by omega) hj)
end
theorem Valid.claim_stored (hclaim : save w (.resumeClaim i resp) e1 .acked ∈ s.log) :
    s.stored[e1.version - 1]? = some ⟨w,.resumeClaim i resp,e1⟩ ∧ 1 ≤ e1.version := by
  obtain ⟨l,hl⟩ := exists_prefix_of_mem hclaim
  have hver : e1.version = (s.upto l).version + 1 := (hv.legal hl).1 rfl
  have hst := stored_of_save hl rfl
  rw [hver]
  exact ⟨hst,by omega⟩

section
variable (hq : s.GapsQuiet) (hclaim : save w (.resumeClaim i resp) e1 .acked ∈ s.log)
include hq hclaim
theorem Valid.resumed_hand (hopen : s.Open w) (hh : s.hand? w = some e) :
    e.status = .running ∧ e.pause = none := by
  induction hv generalizing e with
  | start empty =>
    rw [empty] at hclaim
    cases hclaim
  | @step s ev hv hlegal ih =>
    have hv' : Valid (s.record ev) := .step hv hlegal
    have hopen' : s.Open w := fun label e v hm => hopen label e v (record_isPrefix.subset hm)
    have hquiet : s.GapsQuiet := hq.upto record_isPrefix
    rw [World.hand?_record] at hh
    by_cases hw : ev.worker? = some w
    · rw [if_pos hw] at hh
      cases hheld : ev.held? with
      | none =>
        rw [hheld,Option.none_or] at hh
        have hold : save w (.resumeClaim i resp) e1 .acked ∈ s.log := by
          rcases mem_append.mp hclaim with h | h
          · exact h
          · rw [← mem_singleton.mp h] at hheld
            cases hheld
        exact ih hquiet hold hopen' hh
      | some e' =>
        rw [hheld,Option.some_or,Option.some.injEq] at hh
        subst hh
        cases ev with
        | load w' e'' =>
          cases hw
          cases hheld
          obtain ⟨hst,hpos⟩ := hv'.claim_stored hclaim
          apply hv'.reloaded_running hq hst (l := s.log) prefix_rfl
          have hlt := (at_of_stored hst).lt
          have hver := (hv.current_stored hlegal.1).2.1
          simp only [version_record,stored?,Option.toList_none,length_nil,Nat.add_zero] at hlt
          omega
        | save w' label e'' v =>
          cases hw
          cases v with
          | acked =>
            cases hheld
            have hlabel := hopen label _ _ (mem_append_right _ (mem_singleton_self _))
            rcases hlegal.2.hand with ⟨rfl,-,-,-⟩ | ⟨prev,hprev,-⟩
            · obtain ⟨hrunning,hpause,-⟩ := hlegal.2.created_life
              exact ⟨hrunning,hpause⟩
            · have hkeep : (∀ i' resp', label ≠ .resumeClaim i' resp') →
                  prev.status = .running ∧ prev.pause = none := by
                intro hother
                have hold : save w (.resumeClaim i resp) e1 .acked ∈ s.log := by
                  rcases mem_append.mp hclaim with h | h
                  · exact h
                  · cases mem_singleton.mp h
                    exact absurd rfl (hother i resp)
                exact ih hquiet hold hopen' hprev
              cases hlegal.2.lifeStep hprev with
              | kept ordinary same =>
                obtain ⟨hrunning,hpause⟩ := hkeep (by rintro i' resp' rfl; cases ordinary)
                exact ⟨same.status.trans hrunning,same.pause.trans hpause⟩
              | progress same | planned same =>
                obtain ⟨hrunning,hpause⟩ := hkeep (by simp)
                exact ⟨same.status.trans hrunning,same.pause.trans hpause⟩
              | pending status pause =>
                obtain ⟨hrunning,hpause⟩ := hkeep (by simp)
                exact ⟨status.trans hrunning,pause.trans hpause⟩
              | claimed kind paused status pause => exact ⟨status,pause⟩
              | paused | finalized => cases hlabel
              | projected which => rcases which with rfl | rfl <;> cases hlabel
          | lost | refused => cases hheld
        | _ => cases hheld
    · rw [if_neg hw] at hh
      have hold : save w (.resumeClaim i resp) e1 .acked ∈ s.log := by
        rcases mem_append.mp hclaim with h | h
        · exact h
        · rw [← mem_singleton.mp h] at hw
          exact absurd rfl hw
      exact ih hquiet hold hopen' hh

theorem Valid.resumed_save (h : LegalSave s w label e) (hpause : label ≠ .pause)
    (hfinal : label ≠ .finalize) : e.status = .running ∧ e.pause = none := by
  cases h with
  | create | resumeClaim => exact ⟨rfl,rfl⟩
  | projectPause kind hand pending first | retry kind hand batch free found inFlight first
  | resolution kind hand batch free found inFlight first => exact absurd hclaim (first _ _ _)
  | @body e0 next label hand started opened guarded =>
    obtain ⟨hrunning,hnone⟩ := hv.resumed_hand hq hclaim opened hand
    cases guarded.lifeStep 0 with
    | kept ordinary same | progress same | planned same =>
      exact ⟨same.status.trans hrunning,same.pause.trans hnone⟩
    | pending status pause => exact ⟨status.trans hrunning,pause.trans hnone⟩
    | claimed kind paused status pause => exact ⟨status,pause⟩
    | paused => exact absurd rfl hpause
    | finalized => exact absurd rfl hfinal
    | projected which kind =>
      -- only a recovery projects a pause
      cases hv.kind_unique (hv.claimed_kind ⟨e1,hclaim⟩) kind
end
end
/-- In every run in which no paused record is stored between the claim of a resume and its reload,
resumes work on running records only. -/
theorem resumed_run_running {seed : World} (h : Reaches seed s) (hq : s.GapsQuiet) :
    s.ResumesRunning := by
  intro w i resp e1 e before ev hclaim hl hev
  have hv := h.valid
  have hvb := hv.upto (prefix_of_concat hl)
  have hqb : (s.upto before).GapsQuiet := hq.upto (prefix_of_concat hl)
  cases ev with
  | load w' e' =>
    simp only [worked?,Option.ite_none_right_eq_some,Option.some.injEq] at hev
    obtain ⟨rfl,rfl⟩ := hev
    obtain ⟨hst,hpos⟩ := hvb.claim_stored hclaim
    have hlt := (at_of_stored hst).lt
    have hver := (hvb.current_stored (hv.legal hl).1).2.1
    exact hv.reloaded_running hq ( stored_of_prefix (prefix_of_concat hl) hst) hl (by omega)
  | save w' label e' v =>
    simp only [worked?,Option.ite_none_right_eq_some,Option.some.injEq] at hev
    obtain ⟨⟨rfl,hpause,hfinal⟩,rfl⟩ := hev
    exact hvb.resumed_save hqb hclaim (hv.legal hl).2 hpause hfinal
  | _ => cases hev
end
namespace Scenario
def pausedInGap : Script :=
  let a : Agent := { tools := [{ name := "t", needsApproval := true }] }
  [enter a (.invoke "hi"),.run 0 99,.step 0 (callsTools ["c1"]),.run 0 99,
    enter a (answer .approval 7 (.all ⟨true,""⟩)),.run 1 2,
    enter a .recover,.run 2 99,.run 1 1]

def claims : Event → Bool
  | .save 1 (.resumeClaim _ _) _ .acked => true
  | _ => false
def loadsPaused : Event → Bool
  | .load 1 e => decide (e.status = .paused)
  | _ => false
end Scenario
theorem resumed_run_paused : ∃ s, @Reaches plainHost {} s ∧ ¬ s.ResumesRunning := by
  obtain ⟨s,hs,hP⟩ := @exists_reaches plainHost {} pausedInGap
    (fun s => s.log.dropLast.any claims && s.log.getLast?.any loadsPaused) rfl
    (by decide +kernel)
  obtain ⟨hclaim,hload⟩ := Bool.and_eq_true_iff.mp hP
  obtain ⟨c,hmem,hc⟩ := any_eq_true.mp hclaim
  obtain ⟨ev,hlast,hev⟩ := (Option.any_eq_true _ _).mp hload
  refine ⟨s,hs,?_⟩
  intro h
  unfold claims at hc
  unfold loadsPaused at hev
  split at hc
  · next i resp e1 =>
    split at hev
    · next e =>
      have hlog : s.log.dropLast ++ [load 1 e] = s.log :=
        dropLast_append_getLast? _ hlast
      obtain ⟨hrunning,-⟩ := h 1 i resp e1 e _ _ hmem (by rw [hlog]) rfl
      rw [of_decide_eq_true hev] at hrunning
      cases hrunning
    · cases hev
  · cases hc

theorem resumed_run_approved : ∃ s, @Reaches plainHost {} s ∧ s.GapsQuiet ∧ s.version = 10 ∧
    s.ResumesRunning := by
  obtain ⟨s,hs,hP⟩ := @exists_reaches plainHost {} approvedCall
    (fun s => decide (s.GapsQuiet ∧ s.version = 10)) rfl (by decide +kernel)
  obtain ⟨hquiet,hversion⟩ := of_decide_eq_true hP
  exact ⟨s,hs,hquiet,hversion,@resumed_run_running plainHost s {} hs hquiet⟩
end GudeAgents
