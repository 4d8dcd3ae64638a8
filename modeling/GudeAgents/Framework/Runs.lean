import Mathlib.Logic.Basic
import Mathlib.Logic.Relation
import GudeAgents.Framework.Program
/-!
# Pools of crash-prone workers

Any number of workers run programs against one shared state, each call one atomic step, and may stop
for good between two calls.
-/
namespace GudeAgents.Framework
section
structure System (E : Effects) (σ α : Type) where
  Perform : Nat → (op : E.Op) → σ → E.Ans op → σ → Prop
  Spawn : Nat → Program E α → σ → σ → Prop
  Environment : σ → σ → Prop

structure Pool (E : Effects) (σ α : Type) where
  shared : σ
  workers : List (Option (Program E α))

namespace System
variable {E : Effects} {σ α : Type} (S : System E σ α)
inductive Step : Pool E σ α → Pool E σ α → Prop where
  | spawn {s s' : σ} {ws : List (Option (Program E α))} {p : Program E α}
      (h : S.Spawn ws.length p s s') : Step ⟨s,ws⟩ ⟨s',ws ++ [some p]⟩
  | run {s s' : σ} {ws : List (Option (Program E α))} {i : Nat} {op : E.Op}
      {next : E.Ans op → Program E α} {answer : E.Ans op}
      (hi : ws[i]? = some (some (.call op next))) (h : S.Perform i op s answer s') :
      Step ⟨s,ws⟩ ⟨s',ws.set i (some (next answer))⟩
  | crash {s : σ} {ws : List (Option (Program E α))} (i : Nat) : Step ⟨s,ws⟩ ⟨s,ws.set i none⟩
  | environment {s s' : σ} {ws : List (Option (Program E α))} (h : S.Environment s s') :
      Step ⟨s,ws⟩ ⟨s',ws⟩

def Reachable (s : σ) (pool : Pool E σ α) : Prop :=
  Relation.ReflTransGen S.Step ⟨s,[]⟩ pool
end System
end
section
variable {E : Effects} {σ α : Type} {R : (op : E.Op) → σ → E.Ans op → σ → Prop}
inductive Program.Runs (R : (op : E.Op) → σ → E.Ans op → σ → Prop) :
    Program E α → σ → Program E α → σ → Prop where
  | refl (p : Program E α) (s : σ) : Runs R p s p s
  | call {op : E.Op} {next : E.Ans op → Program E α} {answer : E.Ans op} {p : Program E α}
      {s s' s'' : σ} (answered : R op s answer s') (rest : Runs R (next answer) s' p s'') :
      Runs R (.call op next) s p s''

def Program.op? : Program E α → Option E.Op
  | .done _ => none
  | .call op _ => some op

theorem Program.exists_call {p : Program E α} {op : E.Op} (h : p.op? = some op) :
    ∃ next, p = .call op next := by
  cases p with
  | done value => cases h
  | call op' next =>
    cases h
    exact ⟨next,rfl⟩

/-- At most so many calls, answered by computation; it stops at a call without an answer. -/
def Program.drive (answer : (op : E.Op) → σ → Option (E.Ans op × σ)) :
    Nat → Program E α → σ → Program E α × σ
  | 0, p, s => (p,s)
  | _ + 1, .done value, s => (.done value,s)
  | n + 1, .call op next, s =>
    match answer op s with
    | some (a,s') => (next a).drive answer n s'
    | none => (.call op next,s)

theorem Program.runs_drive {answer : (op : E.Op) → σ → Option (E.Ans op × σ)}
    (hanswer : ∀ {op s a s'}, answer op s = some (a,s') → R op s a s') (n : Nat) (p : Program E α)
    (s : σ) : p.Runs R s (p.drive answer n s).1 (p.drive answer n s).2 := by
  induction n generalizing p s with
  | zero => exact .refl p s
  | succ n ih =>
    cases p with
    | done value => exact .refl _ s
    | call op next =>
      unfold Program.drive
      split
      · next a s' h => exact .call (hanswer h) (ih (next a) s')
      · exact .refl _ s

variable {s : σ}
theorem System.Reachable.runs {ω : Type} {S : System E σ ω} {t t' : σ}
    {ws : List (Option (Program E ω))} (h : S.Reachable s ⟨t,ws⟩) {i : Nat} {p p' : Program E ω}
    (hi : ws[i]? = some (some p)) (hr : p.Runs (S.Perform i) t p' t') :
    S.Reachable s ⟨t',ws.set i (some p')⟩ := by
  induction hr generalizing ws with
  | refl p t =>
    obtain ⟨hlt,hget⟩ := List.getElem?_eq_some_iff.mp hi
    rw [← hget,List.set_getElem_self]
    exact h
  | call answered rest ih =>
    have hlt := (List.getElem?_eq_some_iff.mp hi).1
    have hnext := ih (h.tail (.run hi answered)) (List.getElem?_set_self hlt)
    rwa [List.set_set] at hnext

def Program.eval (answer : (op : E.Op) → σ → E.Ans op × σ) : Program E α → σ → α × σ
  | .done value, s => (value,s)
  | .call op next, s => (next (answer op s).1).eval answer (answer op s).2

theorem Program.exists_runs_done (hR : ∀ op s, ∃ answer s', R op s answer s') (p : Program E α)
    (s : σ) : ∃ value s', p.Runs R s (.done value) s' := by
  induction p generalizing s with
  | done value => exact ⟨value,s,.refl _ s⟩
  | call op next ih =>
    obtain ⟨answer,s1,hanswer⟩ := hR op s
    obtain ⟨value,s2,hrest⟩ := ih answer s1
    exact ⟨value,s2,.call hanswer hrest⟩

/-- A program whose calls are answered by the current state, among the steps of others. The list
has the states from the start of the program to its end; `others p s s'` says which steps may be
taken while `p` is left to run. -/
inductive Program.Among (answer : (op : E.Op) → σ → E.Ans op)
    (others : Program E α → σ → σ → Prop) : Program E α → List σ → α → Prop where
  | done (value : α) (s : σ) : Among answer others (.done value) [s] value
  | other {p : Program E α} {s s' : σ} {states : List σ} {value : α} (h : others p s s')
      (rest : Among answer others p (s' :: states) value) :
      Among answer others p (s :: s' :: states) value
  | call {op : E.Op} {next : E.Ans op → Program E α} {s : σ} {states : List σ} {value : α}
      (rest : Among answer others (next (answer op s)) (s :: states) value) :
      Among answer others (.call op next) (s :: states) value

variable {others : Program E α → σ → σ → Prop}
theorem Program.Among.of_done {answer : (op : E.Op) → σ → E.Ans op} {value value' : α}
    {states : List σ} (h : (Program.done value).Among answer others states value') :
    value' = value := by
  generalize hp : Program.done value = p at h
  induction h with
  | done value' s =>
    cases hp
    rfl
  | other _ _ ih => exact ih hp
  | call _ => cases hp

theorem Program.Among.of_call {answer : (op : E.Op) → σ → E.Ans op} {op : E.Op}
    {next : E.Ans op → Program E α} {states : List σ} {value : α}
    (h : (Program.call op next).Among answer others (s :: states) value) :
    ∃ s' rest, Relation.ReflTransGen (others (.call op next)) s s' ∧
      s' :: rest <:+ s :: states ∧ (next (answer op s')).Among answer others (s' :: rest) value := by
  generalize hp : Program.call op next = p at h
  generalize hstates : s :: states = visited at h
  induction h generalizing s states with
  | done value s => cases hp
  | @other p t t' later value hstep rest ih =>
    cases hstates
    subst hp
    obtain ⟨s',tail,hreach,hsuffix,hrun⟩ := ih rfl rfl
    exact ⟨s',tail,hreach.head hstep,hsuffix.trans (List.suffix_cons _ _),hrun⟩
  | call rest _ =>
    cases hstates
    cases hp
    exact ⟨_,_,.refl,List.suffix_rfl,rest⟩

namespace Logic
/-- On every run, every call meets `G`. -/
def always (R : (op : E.Op) → σ → E.Ans op → σ → Prop) (G : E.Op → σ → Prop) : Logic E σ where
  step op K s := G op s ∧ ∀ answer s', R op s answer s' → K answer s'
  mono hK h := ⟨h.1,fun answer s' hr => hK answer s' (h.2 answer s' hr)⟩

/-- On every run, `P` holds at some time; a call that is never answered does not count. -/
def leads (R : (op : E.Op) → σ → E.Ans op → σ → Prop) (P : σ → Prop) : Logic E σ where
  step op K s := P s ∨ (∃ answer s', R op s answer s') ∧ ∀ answer s', R op s answer s' → K answer s'
  mono hK h := h.imp_right fun h => ⟨h.1,fun answer s' hr => hK answer s' (h.2 answer s' hr)⟩

theorem Safe.runs {G : E.Op → σ → Prop} {Q : α → σ → Prop} {p p' : Program E α} {s' : σ}
    (h : (always R G).Safe p Q s) (hr : p.Runs R s p' s') : (always R G).Safe p' Q s' := by
  induction hr with
  | refl p s => exact h
  | call answered rest ih => exact ih (h.2 _ _ answered)
end Logic
def Program.Leads (R : (op : E.Op) → σ → E.Ans op → σ → Prop) (P : σ → Prop) (p : Program E α)
    (s : σ) : Prop :=
  (Logic.leads R P).Safe p (fun _ => P) s

theorem Program.Leads.now {P : σ → Prop} (h : P s) (p : Program E α) : p.Leads R P s := by
  cases p with
  | done value => exact h
  | call op next => exact .inl h
theorem Logic.leads_now {ρ ε : Type} {P : σ → Prop} (h : P s) (m : Routine E ρ ε α) (r : ρ) :
    (Logic.leads R P).wp m r s (fun _ _ => P) (fun _ _ => P) := by
  refine Logic.Safe.mono (Program.Leads.now h (m r)) ?_
  rintro ⟨_ | _,_⟩ s' hP <;> exact hP
end
section
inductive Trace {σ ℓ : Type} (step : σ → ℓ → σ → Prop) : σ → List ℓ → σ → Prop where
  | nil (s : σ) : Trace step s [] s
  | cons {s s' s'' : σ} {label : ℓ} {labels : List ℓ} (head : step s label s')
      (tail : Trace step s' labels s'') : Trace step s (label :: labels) s''

namespace Trace
variable {σ τ ℓ : Type} {step : σ → ℓ → σ → Prop} {step' : τ → ℓ → τ → Prop}
theorem image {f : σ → τ} (hstep : ∀ {s label s'}, step s label s' → step' (f s) label (f s'))
    {s s' : σ} {labels : List ℓ} (h : Trace step s labels s') :
    Trace step' (f s) labels (f s') := by
  induction h with
  | nil s => exact .nil (f s)
  | cons head tail ih => exact .cons (hstep head) ih
end Trace
end
/-!
## Hereditary properties

A property that is passed on to what stands below holds exactly if it holds locally everywhere.
-/
variable {α : Type} {below : α → α → Prop} {P N D : α → Prop}
theorem forall_reached_iff (size : α → Nat) (hsize : ∀ a b, below a b → size b < size a)
    (hclosed : ∀ a b, D a → below a b → D b) (hstep : ∀ a, D a → (P a ↔ N a ∧ ∀ b, below a b → P b))
    (a : α) (ha : D a) : P a ↔ ∀ b, Relation.ReflTransGen below a b → N b := by
  constructor
  · intro hP b hb
    have hboth : D b ∧ P b := by
      induction hb with
      | refl => exact ⟨ha,hP⟩
      | tail _ hlast ih =>
        exact ⟨hclosed _ _ ih.1 hlast,((hstep _ ih.1).mp ih.2).2 _ hlast⟩
    exact ((hstep b hboth.1).mp hboth.2).1
  · -- By induction on the size.
    induction hn : size a using Nat.strongRecOn generalizing a with
    | _ n ih =>
      intro hN
      refine (hstep a ha).mpr ⟨hN a .refl,fun b hb => ?_⟩
      exact ih (size b) (hn ▸ hsize a b hb) b (hclosed a b ha hb) rfl fun c hc => hN c (.head hb hc)
end GudeAgents.Framework
