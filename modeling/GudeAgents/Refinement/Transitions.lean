import GudeAgents.Refinement.Session
namespace GudeAgents
open Framework Logic
namespace Engine
variable [Host] {w : Nat} {mode : Mode} {r : Run} {e : Execution} {s : World}
  {Q : Unit → Run → World → Prop} {X : Error → Run → World → Prop}
variable {label : SaveLabel}
theorem wp_saveExecution {next : Execution} {Q : Except StoreFault Unit → Run → World → Prop}
    (hlegal : ∀ s', Others w s s' → Valid s' →
      LegalSave s' w label { next with version := next.version + 1 })
    (hok : ∀ s', Others w s s' → Valid s' → next.version=s'.version →
      Valid (s'.record (.save w label { next with version := next.version + 1 } .acked)) →
      Q (.ok ()) { r with execution := some { next with version := next.version + 1 } }
        (s'.record (.save w label { next with version := next.version + 1 } .acked)))
    (herr : ∀ s' v fault, Others w s s' → Valid s' → v≠.acked →
      Q (.error fault) r (s'.record (.save w label { next with version := next.version + 1 } v))) :
    (logic.of w).wp (saveExecution label next) r s Q X := by
  unfold saveExecution
  rw [wp_bind]
  exact wp_save hlegal hok herr

variable {change : Execution → Except Error Execution}
theorem wp_persistExecution (h : Live w mode r e s)
    (hversion : ∀ next, change e=.ok next → next.version=e.version)
    (hlegal : ∀ next s', change e=.ok next → Others w s s' → Valid s' →
      LegalBody s' w e label next) (hfail : ∀ err, change e=.error err → X err r s)
    (hok : ∀ next s', change e=.ok next → Others w s s' → Valid s' → e.version=s'.version →
      Valid (s'.record (.save w label { next with version := e.version + 1 } .acked)) →
      Q () { r with execution := some { next with version := e.version + 1 } }
        (s'.record (.save w label { next with version := e.version + 1 } .acked)))
    (herr : ∀ next s' v fault, change e=.ok next → Others w s s' → Valid s' → v≠.acked →
      X (StoreFault.execution fault) r
        (s'.record (.save w label { next with version := e.version + 1 } v))) :
    (logic.of w).wp (persistExecution label change) r s Q X := by
  unfold persistExecution
  simp only [wp_bind,wp_get,h.durable,h.execution,↓reduceIte]
  cases hc : change e with
  | error err => exact hfail err hc
  | ok next =>
    have hv := hversion next hc
    refine wp_saveExecution ?_ ?_ ?_
    · intro s' ho hvalid
      have hl := h.others ho
      rw [hv]
      exact .body hl.hand hl.started hl.opened (hlegal next s' hc ho hvalid)
    · intro s' ho hvalid hver hvalid'
      rw [hv] at hver hvalid' ⊢
      exact hok next s' hc ho hvalid hver hvalid'
    · intro s' v fault ho hvalid hne
      rw [hv]
      exact herr next s' v fault hc ho hvalid hne

theorem wp_persist (h : Live w mode r e s) (hb : s.Balanced w) (hclosing : label.closing=false)
    (hX : Raises (Stopped w mode) X)
    (hkeeps : ∀ next, change e=.ok next → next.version=e.version ∧ next.status=e.status ∧
      (mode=.recover → e.KeepsIteration next))
    (hlegal : ∀ next s', change e=.ok next → Others w s s' → Valid s' →
      LegalBody s' w e label next)
    (hok : ∀ next s', change e=.ok next → Others w s s' → Valid s' → e.version=s'.version →
      Valid (s'.record (.save w label { next with version := e.version + 1 } .acked)) →
      Live w mode { r with execution := some { next with version := e.version + 1 } }
        { next with version := e.version + 1 }
        (s'.record (.save w label { next with version := e.version + 1 } .acked)) →
      Q () { r with execution := some { next with version := e.version + 1 } }
        (s'.record (.save w label { next with version := e.version + 1 } .acked))) :
    (logic.of w).wp (persistExecution label change) r s Q X := by
  refine wp_persistExecution h (fun next hc => (hkeeps next hc).1) hlegal ?_ ?_ ?_
  · intro err _
    exact hX _ _ _ ⟨e,h,hb⟩
  · intro next s' hc ho hvalid hver hvalid'
    refine hok next s' hc ho hvalid hver hvalid' ((h.others ho).saved hclosing ?_ ?_)
    · intro hrun
      exact (hkeeps next hc).2.1.trans hrun
    · exact (hkeeps next hc).2.2
  · intro next s' v fault hc ho hvalid hne
    refine hX _ _ _ ⟨e,(h.others ho).unsaved hclosing hne,?_⟩
    exact (World.balanced_record rfl rfl).mpr (ho.balanced.mpr hb)

theorem wp_saveConversation {a : Agent} (ha : a.conversation=true) {label : AppendLabel}
    {ms : List Message} (h : Live w mode r e s) (hb : s.Balanced w) (hsync : s.Synced w)
    (hview : View r ms s) (hX : Raises (Stopped w mode) X)
    (hlegal : ∀ s', ms.drop r.persistedCount≠[] → Others w s s' → Valid s' →
      r.revision=s'.revision → LegalAppend s' w e label (ms.drop r.persistedCount))
    (hsame : ms.drop r.persistedCount=[] → Q () r s)
    (hok : ∀ s' c r', ms.drop r.persistedCount≠[] → Others w s s' → Valid s' →
      r.revision=s'.revision →
      c=⟨r.revision+1,s'.messages.length+(ms.drop r.persistedCount).length⟩ →
      r'={ r with
        revision := c.revision, lastSequence := c.lastSequence, persistedCount := ms.length } →
      Live w mode r' e (s'.record (.append w label (ms.drop r.persistedCount) c .acked)) →
      View r' ms (s'.record (.append w label (ms.drop r.persistedCount) c .acked)) →
      Q () r' (s'.record (.append w label (ms.drop r.persistedCount) c .acked))) :
    (logic.of w).wp (saveConversation a label ms) r s Q X := by
  unfold saveConversation
  have hconv : a.hasConversation r=true := by simp [Agent.hasConversation,ha,h.named]
  simp only [wp_bind,wp_get,hconv,↓reduceIte,if_neg (Nat.not_lt.mpr hview.count)]
  by_cases hd : ms.drop r.persistedCount=[]
  · rw [if_pos hd]
    exact hsame hd
  · rw [if_neg hd,wp_bind]
    refine wp_append ?_ ?_ ?_
    · intro s' ho hvalid hrev
      have hl := h.others ho
      exact ⟨by rw [hl.cursor]; exact hrev,ho.synced.mpr hsync,hl.opened,e,hl.hand,hl.started,
        hlegal s' hd ho hvalid hrev⟩
    · intro s' ho hvalid hrev
      exact hok s' _ _ hd ho hvalid hrev rfl rfl (h.others ho).appended
        ((hview.others ho).appended hrev)
    · intro s' c v fault ho hvalid hne
      refine hX _ _ _ ⟨e,(h.others ho).unappended hne,?_⟩
      exact (World.balanced_record rfl rfl).mpr (ho.balanced.mpr hb)
end Engine
end GudeAgents
