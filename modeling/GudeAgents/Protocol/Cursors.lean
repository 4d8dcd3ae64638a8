import GudeAgents.Protocol.CrossStore
/-!
# Cursors

A worker loads the record before it looks at the conversation.
-/
namespace GudeAgents
open List World Execution Event
theorem concat_prefix_of {α : Type} {L l1 l2 : List α} {a : α} (h1 : l1++[a] <+: L)
    (h2 : l2 <+: L) (hnot : ¬ l2 <+: l1) : l1++[a] <+: l2 := by
  have hl1 : l1 <+: L := (prefix_append l1 [a]).trans h1
  by_cases hlen : l2.length≤l1.length
  · exact absurd (prefix_of_prefix_length_le h2 hl1 hlen) hnot
  · apply prefix_of_prefix_length_le h1 h2
    rw [length_append,length_singleton]
    omega

theorem before_or_after {α : Type} {L l1 l2 : List α} {a b : α} (h1 : l1++[a] <+: L)
    (h2 : l2++[b] <+: L) (hne : a≠b) : l1++[a] <+: l2 ∨ l2++[b] <+: l1 := by
  by_cases hle : l2 <+: l1
  · right
    apply concat_prefix_of h2 ((prefix_append l1 [a]).trans h1)
    intro hge
    -- otherwise both are the next event
    have heq : l2=l1 := List.IsPrefix.eq_of_length_le hle hge.length_le
    subst heq
    have hsame := prefix_of_prefix_length_le h1 h2 (by simp)
    have hlast := List.IsPrefix.eq_of_length_le hsame (by simp)
    exact hne (by simpa using hlast)
  · exact .inl (concat_prefix_of h1 ((prefix_append l2 [b]).trans h2) hle)

section
variable {s : World} {w k : Nat} {e : Execution} {l l1 l2 : List Event} {ev : Event}
theorem World.concat_prefix_of_version (h1 : l1++[ev] <+: s.log) (h2 : l2 <+: s.log)
    (hlt : (s.upto l1).version<(s.upto l2).version) : l1++[ev] <+: l2 := by
  apply concat_prefix_of h1 h2
  intro hle
  have hmono := version_mono (s := s.upto l1) hle
  rw [upto_upto] at hmono
  omega

theorem World.concat_prefix_of_revision (h1 : l1++[ev] <+: s.log) (h2 : l2 <+: s.log)
    (hlt : (s.upto l1).revision<(s.upto l2).revision) : l1++[ev] <+: l2 := by
  apply concat_prefix_of h1 h2
  intro hle
  have hmono := revision_mono (s := s.upto l1) hle
  rw [upto_upto] at hmono
  omega

variable [Host]
theorem Legal.cursor_eq {c : ConversationCursor} (h : Legal s ev) (hc : ev.cursor?=some c) :
    c.revision=(s.record ev).revision := by
  rw [revision_record]
  cases ev with
  | read w label after c' =>
    cases label with
    | priorToolUses => cases hc
    | turn | recovery =>
      cases hc
      have hcursor : c=s.cursor := h
      rw [hcursor]
      rfl
  | append w label ms c' v =>
    cases v with
    | acked =>
      cases hc
      obtain ⟨-,hcursor,-⟩ := h rfl
      rw [hcursor]
      rfl
    | lost | refused => cases hc
  | _ => cases hc

theorem Valid.cursor_le (hv : Valid s) (w : Nat) : (s.cursorOf w).revision ≤ s.revision := by
  induction hv with
  | start empty => simp [World.cursorOf,World.own,empty]
  | @step s ev hv hlegal ih =>
    have hmono : s.revision≤(s.record ev).revision := by
      rw [revision_record]
      omega
    rw [cursorOf_record]
    split
    · cases hc : ev.cursor? with
      | none => exact ih.trans hmono
      | some c => exact (hlegal.cursor_eq hc).le
    · exact ih.trans hmono

theorem Valid.cursor_mono (hv : Valid s) (hl : l <+: s.log) (w : Nat) :
    ((s.upto l).cursorOf w).revision≤(s.cursorOf w).revision := by
  induction hv with
  | start empty =>
    rw [empty,prefix_nil] at hl
    simp [World.cursorOf,World.own,hl]
  | @step s ev hv hlegal ih =>
    rcases prefix_concat_iff.mp hl with rfl | hl
    · exact le_rfl
    · refine (ih hl).trans ?_
      rw [cursorOf_record]
      split
      · cases hc : ev.cursor? with
        | none => exact le_rfl
        | some c =>
          rw [Option.getD_some,hlegal.cursor_eq hc]
          refine (hv.cursor_le w).trans ?_
          rw [revision_record]
          omega
      · exact le_rfl

omit [Host] in
theorem World.cursor_event (h : s.cursorOf w≠{}) :
    ∃ l ev, l++[ev] <+: s.log ∧ ev.worker?=some w ∧ ev.cursor?=some (s.cursorOf w) := by
  unfold World.cursorOf at h ⊢
  cases hlast : ((s.own w).filterMap cursor?).getLast? with
  | none => simp [hlast] at h
  | some c =>
    obtain ⟨ev,hev,hc⟩ := mem_filterMap.mp (mem_of_getLast? hlast)
    obtain ⟨hmem,hown⟩ := mem_own.mp hev
    obtain ⟨l,hl⟩ := exists_prefix_of_mem hmem
    exact ⟨l,ev,hl,hown,hc⟩

omit [Host] in
theorem World.hand_event (h : s.hand? w=some e) :
    ∃ l, l++[load w e] <+: s.log ∨ ∃ label, l++[save w label e .acked] <+: s.log := by
  obtain ⟨ev,hev,hheld⟩ := mem_filterMap.mp (mem_of_getLast? h)
  obtain ⟨hmem,hown⟩ := mem_own.mp hev
  obtain ⟨l,hl⟩ := exists_prefix_of_mem hmem
  cases ev with
  | load w' e' =>
    cases hown
    cases hheld
    exact ⟨l,.inl hl⟩
  | save w' label e' v =>
    cases v with
    | acked =>
      cases hown
      cases hheld
      exact ⟨l,.inr ⟨label,hl⟩⟩
    | lost | refused => cases hheld
  | _ => cases hheld

theorem Valid.cursor_after_load (hv : Valid s) (hl : l++[load w e] <+: s.log)
    (hc : s.cursorOf w≠{}) : (s.upto l).revision≤(s.cursorOf w).revision := by
  obtain ⟨l',ev,hl',hown,hcursor⟩ := cursor_event hc
  have hblind : (s.upto l).Blind w := (hv.legal hl).2.1
  have hlater : l <+: l' := by
    by_contra hnot
    have hbefore := concat_prefix_of hl' (prefix_of_concat hl) hnot
    have hnone := hblind ev (mem_own.mpr ⟨mem_of_concat hbefore,hown⟩)
    rw [hnone] at hcursor
    cases hcursor
  rw [(hv.legal hl').cursor_eq hcursor,upto_record]
  have hmono := revision_mono (s := s.upto (l'++[ev])) (l := l)
    (hlater.trans (prefix_append l' [ev]))
  exact hmono

theorem Valid.loaded_after_other (hv : Valid s) {n : Nat} {st : Stored} {label : SaveLabel}
    {v : Verdict} (hl : l++[save w label e v] <+: s.log) (hcommit : v.committed=true)
    (hn : s.stored[n]?=some st) (hne : st.worker≠w) (hlt : n<(s.upto l).version) :
    ∃ l' prev, l'++[load w prev] <+: l ∧ n<(s.upto l').version := by
  have hk := stored_of_save hl hcommit
  -- induction on how far the other worker's record lies back
  induction hd : (s.upto l).version - n generalizing n st with
  | zero => omega
  | succ d ih =>
    obtain ⟨st',hst'⟩ : ∃ st', s.stored[n + 1]?=some st' := by
      have hlt' : n+1<s.stored.length := by
        have := (List.getElem?_eq_some_iff.mp hk).1
        omega
      exact ⟨_,List.getElem?_eq_getElem hlt'⟩
    by_cases howner : st'.worker=w
    · obtain ⟨w',label',e'⟩ := st'
      subst howner
      obtain ⟨l1,v1,prev,hl1,-,hver,hprev,hhand,-⟩ := hv.commit hst'
      have hle : l1 <+: l := by
        rcases prefix_or_prefix_of_prefix (prefix_of_concat hl1) (prefix_of_concat hl) with h | h
        · exact h
        · -- otherwise the later save would have come before this one
          by_contra hnot
          have hsave := concat_prefix_of hl (prefix_of_concat hl1) hnot
          have hmono := version_mono (s := s.upto l1) hsave
          rw [upto_upto,← upto_record,version_record] at hmono
          simp only [stored?,hcommit,if_true,Option.toList_some,length_singleton] at hmono
          omega
      obtain ⟨l',hload | ⟨label'',hsave⟩⟩ := hand_event hhand
      · have hload' : l'++[load _ prev] <+: s.log := hload.trans (prefix_of_concat hl1)
        have hcurrent : (s.upto l').current?=some prev := (hv.legal hload').1
        have hstored := (hv.upto (prefix_of_concat hload')).current_stored hcurrent
        have hversion := hv.version_eq hprev
        exact ⟨l',prev,hload.trans hle,by omega⟩
      · -- an own record would carry this worker's name
        have hsave' : l'++[save _ label'' prev .acked] <+: s.log :=
          hsave.trans (prefix_of_concat hl1)
        have hst'' := stored_of_save hsave' rfl
        have hver'' : prev.version=(s.upto l').version+1 := (hv.legal hsave').1 rfl
        have hversion := hv.version_eq hprev
        rw [show (s.upto l').version=n by omega,hn] at hst''
        cases hst''
        exact absurd rfl hne
    · have hlt' : n+1<(s.upto l).version := by
        rcases Nat.lt_or_ge (n + 1) (s.upto l).version with h | h
        · exact h
        · rw [show n + 1=(s.upto l).version by omega,hk] at hst'
          cases hst'
          exact absurd rfl howner
      obtain ⟨l',prev,hload,hnl⟩ := ih hst' howner hlt' (by omega)
      exact ⟨l',prev,hload,by omega⟩

theorem LegalSave.revision {label : SaveLabel} {next : Execution} (h : LegalSave s w label next)
    (hand : s.hand? w=some e) :
    next.revision=e.revision ∨ next.revision=(s.cursorOf w).revision ∨ next.revision=0 := by
  cases h with
  | create => exact .inr (.inr rfl)
  | resumeClaim _ hand' | projectPause _ hand' | retry _ hand' | resolution _ hand' =>
    cases hand.symm.trans hand'
    exact .inl rfl
  | body hand' started opened guarded =>
    cases hand.symm.trans hand'
    have hbatch := guarded.onBatch
    cases guarded with
    | startCursor | runtimeProgress | pendingPause => exact .inl rfl
    | plan | ready | beginTool | removeToolCalls | approvals | finishResolution =>
      obtain ⟨_,R,_,_,_,hR,-,heq⟩ := hbatch rfl
      rw [heq]
      exact hR.imp_right .inl
    | pauseRecovered | pause => exact .inr (.inl rfl)
    | finalize iteration turn terminal idle balanced cursor =>
      rcases cursor with rfl | rfl
      · exact .inr (.inl rfl)
      · exact .inr (.inr rfl)

theorem Valid.record_revision_le (hv : Valid s) (hk : s.At k e) : e.revision ≤ s.revision := by
  induction k generalizing e with
  | zero =>
    obtain ⟨l,w,hlegal⟩ := hv.created_legal hk
    cases hlegal with
    | create => exact Nat.zero_le _
    | body hand started opened guarded => cases guarded
  | succ k ih =>
    obtain ⟨w,label,l,v,prev,-,hl,hprev,hhand,hlegal⟩ := hv.commit_at hk
    rcases hlegal.revision hhand with hkept | hmoved | hzero
    · rw [hkept]
      exact ih hprev
    · rw [hmoved]
      exact ((hv.upto (prefix_of_concat hl)).cursor_le w).trans
        (revision_mono (prefix_of_concat hl))
    · omega
end
end GudeAgents
