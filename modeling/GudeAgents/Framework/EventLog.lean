import Mathlib.Algebra.Order.BigOperators.Group.List
import Mathlib.Algebra.Ring.Int.Defs
import Mathlib.Algebra.Ring.Nat
/-!
# Logs of timed events

A log grows at its end; a working copy keeps the events from some cutoff on.
-/
namespace GudeAgents.Framework
open List
variable {α : Type} {time : α → Int}
/-- The copy holds the events of the log from a cutoff on that is not after `limit`. -/
def Keeps (time : α → Int) (limit : Int) (log kept : List α) : Prop :=
  ∃ cutoff ≤ limit, kept = log.filter fun e => cutoff ≤ time e

namespace Keeps
variable {limit : Int} {log kept : List α}
theorem nil (limit : Int) : Keeps time limit [] [] := ⟨limit,Int.le_refl limit,rfl⟩

section
variable (h : Keeps time limit log kept)
include h
theorem mono {limit' : Int} (hle : limit ≤ limit') : Keeps time limit' log kept := by
  obtain ⟨cutoff,hcutoff,hkept⟩ := h
  exact ⟨cutoff,Int.le_trans hcutoff hle,hkept⟩

theorem filter_eq {cutoff : Int} (hle : limit ≤ cutoff) :
    (kept.filter fun e => cutoff ≤ time e) = log.filter fun e => cutoff ≤ time e := by
  obtain ⟨old,hold,rfl⟩ := h
  rw [filter_filter]
  apply filter_congr
  intro e _
  rw [Bool.and_eq_left_iff_imp]
  intro hnew
  rw [decide_eq_true_iff] at hnew ⊢
  omega

theorem prune : Keeps time limit log (kept.filter fun e => limit ≤ time e) :=
  ⟨limit,Int.le_refl limit,h.filter_eq (Int.le_refl limit)⟩

theorem append {new : List α} (hnew : ∀ e ∈ new, limit ≤ time e) :
    Keeps time limit (log ++ new) (kept ++ new) := by
  obtain ⟨cutoff,hcutoff,rfl⟩ := h
  refine ⟨cutoff,hcutoff,?_⟩
  have hall : (new.filter fun e => cutoff ≤ time e) = new := by
    rw [filter_eq_self]
    intro e he
    have := hnew e he
    rw [decide_eq_true_iff]
    omega
  rw [filter_append,hall]
end
end Keeps
def weightWithin (time weight : α → Int) (lo hi : Int) (log : List α) : Int :=
  ((log.filter fun e => lo ≤ time e ∧ time e ≤ hi).map weight).sum

section weight
variable {weight : α → Int} {lo hi : Int} {log : List α}
theorem weightWithin_append (new : List α) : weightWithin time weight lo hi (log ++ new) =
    weightWithin time weight lo hi log + weightWithin time weight lo hi new := by
  simp [weightWithin]

theorem weightWithin_nonneg (h : ∀ e ∈ log, 0 ≤ weight e) :
    0 ≤ weightWithin time weight lo hi log := by
  apply sum_nonneg
  intro x hx
  obtain ⟨e,he,rfl⟩ := mem_map.mp hx
  exact h e (mem_of_mem_filter he)

theorem weightWithin_eq_zero (h : ∀ e ∈ log, ¬(lo ≤ time e ∧ time e ≤ hi)) :
    weightWithin time weight lo hi log = 0 := by
  have hnone : (log.filter fun e => lo ≤ time e ∧ time e ≤ hi) = [] := by
    rw [filter_eq_nil_iff]
    intro e he hin
    exact h e he (of_decide_eq_true hin)
  rw [weightWithin,hnone]
  rfl

theorem weightWithin_eq_of_le (h : ∀ e ∈ log, time e ≤ hi) :
    weightWithin time weight lo hi log = ((log.filter fun e => lo ≤ time e).map weight).sum := by
  have heq : (log.filter fun e => lo ≤ time e ∧ time e ≤ hi) = log.filter fun e => lo ≤ time e := by
    apply filter_congr
    intro e he
    simp [h e he]
  rw [weightWithin,heq]

theorem weightWithin_mono {lo' hi' : Int} (hpos : ∀ e ∈ log, 0 ≤ weight e)
    (h : ∀ e ∈ log, lo ≤ time e → time e ≤ hi → lo' ≤ time e ∧ time e ≤ hi') :
    weightWithin time weight lo hi log ≤ weightWithin time weight lo' hi' log := by
  induction log with
  | nil => exact Int.le_refl _
  | cons e rest ih =>
    have ih' := ih (fun e' he' => hpos e' (mem_cons_of_mem e he'))
      fun e' he' => h e' (mem_cons_of_mem e he')
    have hweight := hpos e mem_cons_self
    have hcase := h e mem_cons_self
    unfold weightWithin at ih' ⊢
    by_cases hin : lo ≤ time e ∧ time e ≤ hi
    · have hin' := hcase hin.1 hin.2
      rw [filter_cons_of_pos (by simpa using hin),filter_cons_of_pos (by simpa using hin'),map_cons,
        map_cons,sum_cons,sum_cons]
      omega
    · rw [filter_cons_of_neg (by simpa using hin)]
      by_cases hin' : lo' ≤ time e ∧ time e ≤ hi'
      · rw [filter_cons_of_pos (by simpa using hin'),map_cons,sum_cons]
        omega
      · rw [filter_cons_of_neg (by simpa using hin')]
        exact ih'
end weight
end GudeAgents.Framework
