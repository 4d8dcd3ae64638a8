import Mathlib.Logic.Basic
/-!
# Programs over an effect signature

A program is a finite tree of calls.  A routine has a local state that survives a raised error.
-/
namespace GudeAgents.Framework
section
structure Effects where
  Op : Type
  Ans : Op → Type

inductive Program (E : Effects) (α : Type) : Type where
  | done (value : α)
  | call (op : E.Op) (next : E.Ans op → Program E α)

namespace Program
variable {E : Effects} {α β γ : Type}
def bind : Program E α → (α → Program E β) → Program E β
  | done value, f => f value
  | call op next, f => call op fun answer => (next answer).bind f

@[simp] theorem done_bind (value : α) (f : α → Program E β) : (done value).bind f = f value := rfl

@[simp] theorem call_bind (op : E.Op) (next : E.Ans op → Program E α) (f : α → Program E β) :
    (call op next).bind f = call op fun answer => (next answer).bind f := rfl

theorem bind_done (p : Program E α) : p.bind done = p := by
  induction p with
  | done value => rfl
  | call op next ih => exact congrArg (call op) (funext ih)

theorem bind_assoc (p : Program E α) (f : α → Program E β) (g : β → Program E γ) :
    (p.bind f).bind g = p.bind fun value => (f value).bind g := by
  induction p with
  | done value => rfl
  | call op next ih => exact congrArg (call op) (funext ih)
end Program
/-- Local state `ρ` is kept when an error `ε` is raised. -/
def Routine (E : Effects) (ρ ε α : Type) : Type := ρ → Program E (Except ε α × ρ)

namespace Routine
variable {E : Effects} {ρ ε α β : Type}
def pure (value : α) : Routine E ρ ε α := fun r => .done (.ok value,r)
def bind (m : Routine E ρ ε α) (f : α → Routine E ρ ε β) : Routine E ρ ε β := fun r =>
  (m r).bind fun
    | (.ok value,r') => f value r'
    | (.error err,r') => .done (.error err,r')

instance : Monad (Routine E ρ ε) where
  pure := Routine.pure
  bind := Routine.bind

theorem id_map (m : Routine E ρ ε α) : id <$> m = m := by
  funext r
  refine (congrArg (m r).bind (funext ?_)).trans (m r).bind_done
  rintro ⟨_ | _,_⟩ <;> rfl

theorem bind_assoc {γ : Type} (m : Routine E ρ ε α) (f : α → Routine E ρ ε β)
    (g : β → Routine E ρ ε γ) : m >>= f >>= g = m >>= fun value => f value >>= g := by
  funext r
  refine ((m r).bind_assoc _ _).trans (congrArg (m r).bind (funext ?_))
  rintro ⟨_ | _,_⟩ <;> rfl

instance : LawfulMonad (Routine E ρ ε) :=
  LawfulMonad.mk' _ id_map (fun _ _ => rfl) bind_assoc

def throw (err : ε) : Routine E ρ ε α := fun r => .done (.error err,r)
def get : Routine E ρ ε ρ := fun r => .done (.ok r,r)
def modify (f : ρ → ρ) : Routine E ρ ε Unit := fun r => .done (.ok (),f r)
def perform (op : E.Op) : Routine E ρ ε (E.Ans op) := fun r =>
  .call op fun answer => .done (.ok answer,r)
def ofExcept : Except ε α → Routine E ρ ε α
  | .ok value => Routine.pure value
  | .error err => Routine.throw err
def attempt (m : Routine E ρ ε α) : Routine E ρ ε (Except ε α) := fun r =>
  (m r).bind fun (result,r') => .done (.ok result,r')
def mapError (f : ε → ε) (m : Routine E ρ ε α) : Routine E ρ ε α := fun r =>
  (m r).bind fun
    | (.ok value,r') => .done (.ok value,r')
    | (.error err,r') => .done (.error (f err),r')
end Routine
end
/-!
## Logics of calls
-/
structure Logic (E : Effects) (σ : Type) where
  step : (op : E.Op) → (E.Ans op → σ → Prop) → σ → Prop
  mono : ∀ {op : E.Op} {K K' : E.Ans op → σ → Prop} {s : σ},
    (∀ answer s', K answer s' → K' answer s') → step op K s → step op K' s

namespace Logic
variable {E : Effects} {σ : Type} (L : Logic E σ) {α β ρ ε : Type}
def Safe : Program E α → (α → σ → Prop) → σ → Prop
  | .done value, Q, s => Q value s
  | .call op next, Q, s => L.step op (fun answer s' => Safe (next answer) Q s') s

variable {L}
theorem Safe.bind {p : Program E α} {f : α → Program E β} {Q : β → σ → Prop} {s : σ} :
    L.Safe (p.bind f) Q s ↔ L.Safe p (fun value s' => L.Safe (f value) Q s') s := by
  induction p generalizing s with
  | done value => rfl
  | call op next ih =>
    constructor
    · exact L.mono fun answer s' => (ih answer).mp
    · exact L.mono fun answer s' => (ih answer).mpr

theorem Safe.mono {p : Program E α} {Q Q' : α → σ → Prop} {s : σ} (h : L.Safe p Q s)
    (hq : ∀ value s', Q value s' → Q' value s') : L.Safe p Q' s := by
  induction p generalizing s with
  | done value => exact hq value s h
  | call op next ih => exact L.mono (fun answer s' => ih answer) h

def wp (L : Logic E σ) (m : Routine E ρ ε α) (r : ρ) (s : σ)
    (Q : α → ρ → σ → Prop) (X : ε → ρ → σ → Prop) : Prop :=
  L.Safe (m r) (fun out s' => match out with
    | (.ok value,r') => Q value r' s'
    | (.error err,r') => X err r' s') s

variable {m : Routine E ρ ε α} {r : ρ} {s : σ} {Q : α → ρ → σ → Prop} {X : ε → ρ → σ → Prop}
@[simp] theorem wp_pure (value : α) :
    L.wp (pure value : Routine E ρ ε α) r s Q X ↔ Q value r s := Iff.rfl

@[simp] theorem wp_throw (err : ε) :
    L.wp (Routine.throw err : Routine E ρ ε α) r s Q X ↔ X err r s := Iff.rfl

@[simp] theorem wp_get {Q : ρ → ρ → σ → Prop} :
    L.wp (Routine.get : Routine E ρ ε ρ) r s Q X ↔ Q r r s := Iff.rfl

@[simp] theorem wp_modify (f : ρ → ρ) {Q : Unit → ρ → σ → Prop} :
    L.wp (Routine.modify f : Routine E ρ ε Unit) r s Q X ↔ Q () (f r) s := Iff.rfl

@[simp] theorem wp_bind {f : α → Routine E ρ ε β} {Q : β → ρ → σ → Prop} :
    L.wp (m >>= f) r s Q X ↔ L.wp m r s (fun value r' s' => L.wp (f value) r' s' Q X) X := by
  refine Safe.bind.trans ⟨fun h => h.mono ?_,fun h => h.mono ?_⟩
  · rintro ⟨_ | value,r'⟩ s' h <;> exact h
  · rintro ⟨_ | value,r'⟩ s' h <;> exact h

@[simp] theorem wp_attempt {Q : Except ε α → ρ → σ → Prop} : L.wp m.attempt r s Q X ↔
      L.wp m r s (fun value => Q (.ok value)) (fun err => Q (.error err)) := by
  refine Safe.bind.trans ⟨fun h => h.mono ?_,fun h => h.mono ?_⟩
  · rintro ⟨_ | value,r'⟩ s' h <;> exact h
  · rintro ⟨_ | value,r'⟩ s' h <;> exact h

@[simp] theorem wp_mapError (f : ε → ε) :
    L.wp (m.mapError f) r s Q X ↔ L.wp m r s Q (fun err => X (f err)) := by
  refine Safe.bind.trans ⟨fun h => h.mono ?_,fun h => h.mono ?_⟩
  · rintro ⟨_ | value,r'⟩ s' h <;> exact h
  · rintro ⟨_ | value,r'⟩ s' h <;> exact h

theorem wp_mono {Q' : α → ρ → σ → Prop} {X' : ε → ρ → σ → Prop} (h : L.wp m r s Q X)
    (hq : ∀ value r' s', Q value r' s' → Q' value r' s')
    (hx : ∀ err r' s', X err r' s' → X' err r' s') : L.wp m r s Q' X' := by
  refine h.mono ?_
  rintro ⟨err | value,r'⟩ s' hs
  · exact hx err r' s' hs
  · exact hq value r' s' hs

theorem wp_of_done {r' : ρ} {out : Except ε α} (h : m r = .done (out,r'))
    (hok : ∀ value, out = .ok value → Q value r' s)
    (herror : ∀ err, out = .error err → X err r' s) : L.wp m r s Q X := by
  unfold wp
  rw [h]
  cases out with
  | ok value => exact hok value rfl
  | error err => exact herror err rfl

theorem wp_ofExcept (x : Except ε α) : L.wp (Routine.ofExcept x : Routine E ρ ε α) r s Q X ↔
      (match x with | .ok value => Q value r s | .error err => X err r s) := by
  cases x <;> rfl
end Logic
end GudeAgents.Framework
