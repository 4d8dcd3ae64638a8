import GudeAgents.Agent.Entry
import GudeAgents.Framework.Runs
/-!
# One worker on its own

What an entry point does when nobody else acts.
-/
namespace GudeAgents
open Framework
instance (query : Query) : Nonempty query.Answer := by
  cases query with
  | allowedForPrincipal tool => exact ⟨Access.allowed⟩
  | _ => simp only [Query.Answer]; infer_instance

theorem World.perform_total (w : Nat) (op : Op) (s : World) :
    ∃ answer s', World.Perform w op s answer s' := by
  have hrefused : Verdict.refused.committed = true → False := by simp [Verdict.committed]
  cases op with
  | create e | save label e expected | append label messages expected =>
    exact ⟨.error .notFound,_,.refused,fun h => (hrefused h).elim,rfl,_,rfl⟩
  | load | loadAfter label after => exact ⟨.error .notFound,s,.inr ⟨⟨_,rfl⟩,rfl⟩⟩
  | contextErr => exact ⟨s.cancellation? w,s,rfl,rfl⟩
  | callModel request => exact ⟨.error .conversationConflict,_,.inr ⟨⟨_,rfl⟩,rfl⟩⟩
  | commitLease usage => exact ⟨none,_,rfl⟩
  | handler start => exact ⟨⟨[],.failed "" false⟩,_,rfl⟩
  | ask query =>
    obtain ⟨answer⟩ : Nonempty query.Answer := inferInstance
    exact ⟨answer,s,rfl⟩
  | note n => exact ⟨(),_,rfl⟩

/-- The answer is no fault: reads succeed, and a write that expects what the store holds is
accepted and acknowledged. -/
def Op.Succeeds : (op : Op) → World → op.Answer → Prop
  | .create _, s, answer => s.version = 0 → ∃ e, answer = .ok e
  | .load, s, answer => s.current? ≠ none → ∃ e, answer = .ok e
  | .save _ _ expected, s, answer => expected = s.version → ∃ e, answer = .ok e
  | .loadAfter .., _, answer => ∃ snapshot, answer = .ok snapshot
  | .append _ _ expected, s, answer => expected = s.revision → ∃ cursor, answer = .ok cursor
  | .ask .historyBoundary, _, answer => ∃ boundary, answer = .ok boundary
  | _, _, _ => True

def World.Fulfils (w : Nat) (op : Op) (s : World) (answer : op.Answer) (s' : World) : Prop :=
  World.Perform w op s answer s' ∧ op.Succeeds s answer

namespace Engine
variable {w : Nat} {r : Run} {s : World} {X : Error → Run → World → Prop} {P : World → Prop}
abbrev served (w : Nat) (P : World → Prop) : Logic effects World :=
  @Logic.leads effects World (World.Fulfils w) P

theorem served_load {e : Execution} {Q : Except StoreFault Execution → Run → World → Prop}
    (hcur : s.current? = some e) (h : Q (.ok e) r (s.record (.load w e))) :
    (served w P).wp loadExecution r s Q X := by
  refine .inr ⟨⟨.ok e,s.record (.load w e),.inl ⟨e,hcur,rfl,rfl⟩,fun _ => ⟨e,rfl⟩⟩,?_⟩
  rintro answer s' ⟨⟨e',hcur',rfl,rfl⟩ | ⟨⟨fault,rfl⟩,-⟩,hsuccess⟩
  · cases hcur.symm.trans hcur'
    exact h
  · obtain ⟨e',he'⟩ := hsuccess (by simp [hcur])
    cases he'

theorem served_save {label : SaveLabel} {next : Execution}
    {Q : Except StoreFault Unit → Run → World → Prop} (hver : next.version = s.version)
    (h : Q (.ok ()) { r with execution := some { next with version := s.version + 1 } }
      (s.record (.save w label { next with version := s.version + 1 } .acked))) :
    (served w P).wp (saveExecution label next) r s Q X := by
  rw [← hver] at h
  refine .inr ⟨⟨.ok { next with version := next.version + 1 },_,⟨.acked,fun _ => hver,rfl,rfl⟩,
    fun _ => ⟨_,rfl⟩⟩,?_⟩
  rintro answer s' ⟨⟨verdict,-,rfl,hanswer⟩,hsuccess⟩
  obtain ⟨e',rfl⟩ := hsuccess hver
  cases verdict with
  | acked =>
    cases hanswer
    exact h
  | lost | refused =>
    obtain ⟨fault,hfault⟩ := hanswer
    cases hfault
end Engine
end GudeAgents
