import Mathlib.Algebra.BigOperators.Group.Multiset.Basic
import Mathlib.Algebra.Order.BigOperators.Group.Multiset
/-!
# Monitors

Any number of threads act on a shared state, one atomic act at a time. A thread may park until
another one wakes it.
-/
namespace GudeAgents.Framework
open Multiset
inductive Wake where
  | none
  | one
  | all

/-- What an act leaves: the shared state, whom it wakes, and what becomes of the thread and of the
threads it starts. -/
structure Outcome (σ θ : Type) where
  shared : σ
  wake : Wake
  running : Multiset θ
  parked : Multiset θ

structure Monitor (σ θ : Type) where
  Acts : θ → σ → Outcome σ θ → Prop
  Enters : θ → Prop
  Environment : σ → σ → Prop

/-- The shared state with the threads. A parked thread is one whose waking is not yet pending. -/
structure Crowd (σ θ : Type) where
  shared : σ
  running : Multiset θ
  parked : Multiset θ

variable {σ θ : Type}
/-- Of the parked threads, those that run again and those that are left. -/
inductive Wakes : Wake → Multiset θ → Multiset θ → Multiset θ → Prop where
  | none (parked : Multiset θ) : Wakes .none parked 0 parked
  | nobody : Wakes .one 0 0 0
  | one (t : θ) (parked : Multiset θ) : Wakes .one (t ::ₘ parked) {t} parked
  | all (parked : Multiset θ) : Wakes .all parked parked 0

namespace Wakes
variable {wake : Wake} {parked woken left : Multiset θ}
theorem add_eq (h : Wakes wake parked woken left) : woken + left = parked := by
  cases h with
  | none => rw [zero_add]
  | nobody => rfl
  | one t left => rw [singleton_add]
  | all => rw [add_zero]

theorem left_of_all (h : Wakes .all parked woken left) : left = 0 := by
  cases h
  rfl

theorem card_of_one (h : Wakes .one parked woken left) (hleft : left ≠ 0) :
    Multiset.card woken = 1 := by
  cases h with
  | nobody => exact absurd rfl hleft
  | one t left => rfl

theorem mem_parked (h : Wakes wake parked woken left) {t : θ} (ht : t ∈ left) : t ∈ parked := by
  rw [← h.add_eq]
  exact mem_add.mpr (Or.inr ht)
end Wakes
variable {c : Crowd σ θ} {s : σ}
namespace Monitor
variable (M : Monitor σ θ)
inductive Step : Crowd σ θ → Crowd σ θ → Prop where
  | act {s : σ} {t : θ} {rest parked woken left : Multiset θ} {o : Outcome σ θ}
      (h : M.Acts t s o) (hwake : Wakes o.wake parked woken left) :
      Step ⟨s,t ::ₘ rest,parked⟩ ⟨o.shared,o.running + woken + rest,o.parked + left⟩
  | enter {s : σ} {t : θ} {running parked : Multiset θ} (h : M.Enters t) :
      Step ⟨s,running,parked⟩ ⟨s,t ::ₘ running,parked⟩
  | environment {s s' : σ} {running parked : Multiset θ} (h : M.Environment s s') :
      Step ⟨s,running,parked⟩ ⟨s',running,parked⟩

def Reachable (s : σ) (c : Crowd σ θ) : Prop :=
  Relation.ReflTransGen M.Step ⟨s,0,0⟩ c

variable {M}
section
variable (h : M.Reachable s c)
include h
theorem Reachable.enter (t : θ) (ht : M.Enters t) :
    M.Reachable s ⟨c.shared,t ::ₘ c.running,c.parked⟩ :=
  h.tail (.enter ht)

theorem Reachable.act (t : θ) (rest : Multiset θ) {woken left : Multiset θ} {o : Outcome σ θ}
    (ht : c.running = t ::ₘ rest) (hact : M.Acts t c.shared o)
    (hwake : Wakes o.wake c.parked woken left) :
    M.Reachable s ⟨o.shared,o.running + woken + rest,o.parked + left⟩ := by
  cases c with
  | mk shared running parked =>
    cases ht
    exact h.tail (.act hact hwake)

theorem Reachable.keeps {P : Crowd σ θ → Prop} (hinit : P ⟨s,0,0⟩)
    (hstep : ∀ {c c' : Crowd σ θ}, M.Reachable s c → P c → M.Step c c' → P c') : P c := by
  induction h with
  | refl => exact hinit
  | tail hpath hlast ih => exact hstep hpath ih hlast

theorem Reachable.shared {P : σ → Prop} (hinit : P s)
    (hacts : ∀ {t s o}, M.Acts t s o → P s → P o.shared)
    (henv : ∀ {s s'}, M.Environment s s' → P s → P s') : P c.shared := by
  refine h.keeps (P := fun c => P c.shared) hinit ?_
  intro c c' _ hc hstep
  cases hstep with
  | act hact _ => exact hacts hact hc
  | enter _ => exact hc
  | environment hchange => exact henv hchange hc
end
end Monitor
namespace Crowd
variable {A : Type} [AddCommMonoid A]
def total (c : Crowd σ θ) (weight : θ → A) : A :=
  ((c.running + c.parked).map weight).sum

theorem total_add (c : Crowd σ θ) (weight weight' : θ → A) :
    c.total (fun t => weight t + weight' t) = c.total weight + c.total weight' :=
  sum_map_add
theorem map_total {B : Type} [AddCommMonoid B] (f : A →+ B) (c : Crowd σ θ) (weight : θ → A) :
    f (c.total weight) = c.total (fun t => f (weight t)) := by
  rw [total,total,map_multiset_sum,map_map]
  rfl
theorem total_mono [PartialOrder A] [IsOrderedAddMonoid A] (c : Crowd σ θ) {weight weight' : θ → A}
    (h : ∀ t, weight t ≤ weight' t) : c.total weight ≤ c.total weight' :=
  sum_map_le_sum_map _ _ fun t _ => h t
theorem total_of_running {t : θ} {rest : Multiset θ} (h : c.running = t ::ₘ rest) (weight : θ → A) :
    c.total weight = weight t + ((rest + c.parked).map weight).sum := by
  rw [total,h,cons_add,map_cons,sum_cons]
end Crowd
def Outcome.total {A : Type} [AddCommMonoid A] (o : Outcome σ θ) (weight : θ → A) : A :=
  ((o.running + o.parked).map weight).sum

/-- A balance between the shared state and the threads: it holds along every run if every act keeps
it, whatever the other threads weigh. -/
theorem Monitor.Reachable.balance {M : Monitor σ θ} {A : Type} [AddCommMonoid A]
    (h : M.Reachable s c) (account stock : σ → A) (weight : θ → A) (hinit : account s = stock s)
    (hacts : ∀ {t s o} (others : A), M.Acts t s o → account s = stock s + (weight t + others) →
      account o.shared = stock o.shared + (o.total weight + others))
    (henters : ∀ {t}, M.Enters t → weight t = 0)
    (henv : ∀ {s s'}, M.Environment s s' → account s' = account s ∧ stock s' = stock s) :
    account c.shared = stock c.shared + c.total weight := by
  refine h.keeps (P := fun c => account c.shared = stock c.shared + c.total weight) ?_ ?_
  · show account s = stock s + (Multiset.map weight (0 + 0)).sum
    rw [add_zero,map_zero,sum_zero,add_zero,hinit]
  · intro c c' _ hc hstep
    cases hstep with
    | @act s t rest parked woken left o hact hwake =>
      -- A wakened thread keeps its weight.
      have hothers : ((woken + rest + left).map weight).sum = ((rest + parked).map weight).sum := by
        rw [← hwake.add_eq]
        congr 2
        ac_rfl
      rw [Crowd.total_of_running rfl] at hc
      have hkept := hacts _ hact hc
      have hthreads : o.running + woken + rest + (o.parked + left) =
          o.running + o.parked + (woken + rest + left) := by ac_rfl
      show account o.shared = stock o.shared +
        ((o.running + woken + rest + (o.parked + left)).map weight).sum
      rw [hthreads,map_add,sum_add,hothers]
      exact hkept
    | enter henter =>
      rw [Crowd.total_of_running rfl,henters henter,zero_add]
      exact hc
    | environment hchange =>
      obtain ⟨haccount,hstock⟩ := henv hchange
      rw [haccount,hstock]
      exact hc
end GudeAgents.Framework
