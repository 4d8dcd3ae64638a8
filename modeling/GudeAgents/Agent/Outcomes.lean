import Mathlib.Data.List.Forall2
import GudeAgents.Agent.Engine
namespace GudeAgents
open List
def ToolOutcome.Fits (call : ToolCall) (o : ToolOutcome) : Prop :=
  (o.kind = .definitive → o.result.toolUseID = call.toolUseID ∧ o.err = none) ∧
    (o.kind = .unknown → o.err ≠ none)

namespace Engine
variable {calls : List ToolCall}
theorem failed_fits (call : ToolCall) (content : String) :
    (failed call content).Fits call ∧ (failed call content).kind ≠ .deferred := by
  simp [failed,ToolOutcome.Fits]

theorem handlerOutcome_fits [Host] (executionID key : String) (call : ToolCall)
    (reply : HandlerReply) :
    (handlerOutcome executionID call key reply).Fits call ∧
      (handlerOutcome executionID call key reply).kind ≠ .deferred := by
  unfold handlerOutcome
  split <;> simp [ToolOutcome.Fits,failed]

def Reports (job : Job) (o : ToolOutcome) : Prop := o.Fits job.call ∧ o.kind ≠ .deferred
def HasFailure (outcomes : List ToolOutcome) : Prop :=
  ∃ o ∈ outcomes, o.kind = .coordinationFailure

theorem forall₂_of_getElem {α β : Type} {R : α → β → Prop} :
    ∀ {xs : List α} {ys : List β}, ys.length = xs.length →
      (∀ (i : Nat) (x : α) (y : β), xs[i]? = some x → ys[i]? = some y → R x y) →
      List.Forall₂ R xs ys
  | [], [], _, _ => .nil
  | x :: xs, y :: ys, hlen, h =>
    .cons (h 0 x y rfl rfl) (forall₂_of_getElem (by simpa using hlen)
      fun i x' y' hx hy => h (i + 1) x' y' hx hy)

theorem getD_outcome_reports (job : Job) {t : Thread} (h : ∀ o, t = .finished o → Reports job o) :
    Reports job (t.outcome?.getD { kind := .coordinationFailure }) := by
  cases t with
  | finished o => exact h o rfl
  | waiting | claimed => simp [Thread.outcome?,Reports,ToolOutcome.Fits]

variable {jobs : List Job}
theorem forall₂_interleave {R : Job → ToolOutcome → Prop} (p : Job → Bool)
    {first second : List ToolOutcome} (h1 : List.Forall₂ R (jobs.filter p) first)
    (h2 : List.Forall₂ R (jobs.filter fun j => !p j) second) :
    List.Forall₂ R jobs (interleave (jobs.map p) first second) ∧
      ∀ o, o ∈ interleave (jobs.map p) first second ↔ o ∈ first ∨ o ∈ second := by
  induction jobs generalizing first second with
  | nil =>
    cases h1
    cases h2
    exact ⟨.nil,by simp [interleave]⟩
  | cons job rest ih =>
    cases hp : p job with
    | true =>
      rw [filter_cons_of_pos hp] at h1
      rw [filter_cons_of_neg (by simp [hp])] at h2
      cases h1 with
      | cons hjo hrest =>
        obtain ⟨hall,hmem⟩ := ih hrest h2
        simp only [map_cons,hp,interleave]
        exact ⟨.cons hjo hall,fun o => by simp only [mem_cons,hmem,or_assoc]⟩
    | false =>
      rw [filter_cons_of_neg (by simp [hp])] at h1
      rw [filter_cons_of_pos (by simp [hp])] at h2
      cases h2 with
      | cons hjo hrest =>
        obtain ⟨hall,hmem⟩ := ih h1 hrest
        simp only [map_cons,hp,interleave]
        exact ⟨.cons hjo hall,fun o => by simp only [mem_cons,hmem]; tauto⟩

/-- The outcomes of a dispatched batch; a call is deferred only behind a pending approval. -/
structure Outcomes (calls : List ToolCall) (outcomes : List ToolOutcome) : Prop where
  fits : List.Forall₂ (fun call o => ToolOutcome.Fits call o) calls outcomes
  deferred : (∃ o ∈ outcomes, o.kind = .deferred) → ∃ o ∈ outcomes, o.kind = .pendingApproval

theorem Outcomes.of_reports {outcomes : List ToolOutcome} (hcalls : jobs.map (·.call) = calls)
    (h : List.Forall₂ Reports jobs outcomes) : Outcomes calls outcomes := by
  subst hcalls
  refine ⟨?_,?_⟩
  · rw [forall₂_map_left_iff]
    exact h.imp fun _ _ hr => hr.1
  · rintro ⟨o,ho,hk⟩
    exfalso
    induction h with
    | nil => cases ho
    | cons hr _ ih =>
      rcases mem_cons.mp ho with rfl | ho
      · exact hr.2 hk
      · exact ih ho

theorem Outcomes.of_deferred {first : List ToolOutcome} (p : Job → Bool)
    (hcalls : jobs.map (·.call) = calls) (hfirst : List.Forall₂ Reports (jobs.filter p) first)
    (hpending : (first.any fun o => o.kind == .pendingApproval) = true) :
    Outcomes calls (interleave (jobs.map p) first
      ((jobs.filter fun job => !p job).map fun _ => { kind := .deferred })) ∧
    ∀ o ∈ first, o ∈ interleave (jobs.map p) first
      ((jobs.filter fun job => !p job).map fun _ => { kind := .deferred }) := by
  have hrest : List.Forall₂ (fun (job : Job) (o : ToolOutcome) => o.Fits job.call)
      (jobs.filter fun job => !p job)
      ((jobs.filter fun job => !p job).map fun _ => ({ kind := .deferred } : ToolOutcome)) := by
    rw [forall₂_map_right_iff]
    exact forall₂_same.mpr fun _ _ => by simp [ToolOutcome.Fits]
  obtain ⟨hall,hmem⟩ := forall₂_interleave p (hfirst.imp fun _ _ hr => hr.1) hrest
  subst hcalls
  refine ⟨⟨?_,?_⟩,fun o ho => (hmem o).mpr (.inl ho)⟩
  · rw [forall₂_map_left_iff]
    exact hall
  · intro _
    obtain ⟨o,ho,hk⟩ := any_eq_true.mp hpending
    exact ⟨o,(hmem o).mpr (.inl ho),by simpa using hk⟩

theorem zipIdx_map_call {f : ToolCall → Option Tool} {g : Nat → Option Decision}
    (calls : List ToolCall) (n : Nat) :
    ((calls.zipIdx n).map fun (x : ToolCall × Nat) => (⟨x.1,f x.1,g x.2⟩ : Job)).map (·.call) =
      calls := by
  induction calls generalizing n with
  | nil => rfl
  | cons call rest ih => simp [zipIdx_cons,ih]
end Engine
section
variable {calls : List ToolCall} {outcomes : List ToolOutcome}
theorem pendingInterrupt_eq_none (h : (pendingInterrupt outcomes calls).1 = none) :
    (pendingInterrupt outcomes calls).2 = outcomes ∧
      ∀ o call, (o,call) ∈ outcomes.zip calls → o.kind ≠ .pendingApproval := by
  unfold pendingInterrupt at h ⊢
  cases hinput : outcomes.findSome? (·.humanInput) with
  | some input => simp [hinput] at h
  | none =>
    simp only [hinput] at h ⊢
    split at h
    · next hpending =>
      refine ⟨by rw [if_pos hpending],fun o call hmem hk => ?_⟩
      have := filterMap_eq_nil_iff.mp hpending (o,call) hmem
      simp [hk] at this
    · cases h

theorem Engine.Outcomes.definitive (h : Engine.Outcomes calls outcomes)
    (hnoError : batchOutcomeError outcomes = none) (hok : ¬ Engine.HasFailure outcomes)
    (hnone : (pendingInterrupt outcomes calls).1 = none) :
    ∀ o ∈ outcomes, o.kind = .definitive := by
  have hnoErr : ∀ o ∈ outcomes, o.err = none := by
    simpa [batchOutcomeError,List.findSome?_eq_none_iff] using hnoError
  have hcall : ∀ o ∈ outcomes, ∃ call, (o,call) ∈ outcomes.zip calls ∧ o.Fits call := by
    intro o ho
    obtain ⟨n,hn,rfl⟩ := mem_iff_getElem.mp ho
    have hlen : n < calls.length := by rw [h.fits.length_eq]; exact hn
    refine ⟨calls[n],?_,List.Forall₂.get h.fits hlen hn⟩
    rw [mem_iff_getElem]
    exact ⟨n,by rw [length_zip]; omega,by simp⟩
  have happroval : ∀ o ∈ outcomes, o.kind ≠ .pendingApproval := by
    intro o ho
    obtain ⟨call,hmem,-⟩ := hcall o ho
    exact (pendingInterrupt_eq_none hnone).2 o call hmem
  intro o ho
  cases hkind : o.kind with
  | definitive => rfl
  | pendingApproval => exact absurd hkind (happroval o ho)
  | deferred =>
    obtain ⟨o',ho',hk'⟩ := h.deferred ⟨o,ho,hkind⟩
    exact absurd hk' (happroval o' ho')
  | unknown =>
    obtain ⟨call,-,hfits⟩ := hcall o ho
    exact absurd (hnoErr o ho) (hfits.2 hkind)
  | coordinationFailure => exact absurd ⟨o,ho,hkind⟩ hok
end
end GudeAgents
