import Mathlib.Algebra.Order.BigOperators.Group.List
import Mathlib.Algebra.Ring.Int.Defs
import Mathlib.Algebra.Ring.Nat
import Mathlib.Data.List.AList
import Mathlib.Data.List.Basic
namespace GudeAgents.Framework
section
open List
variable {κ ν : Type} [DecidableEq κ]
def assign (m : List (κ × ν)) (key : κ) (value : ν) : List (κ × ν) :=
  m.filter (fun e => e.1 ≠ key) ++ [(key,value)]

variable {key : κ}
theorem lookup_cons_ne {key' : κ} (h : key ≠ key') (value : ν) (rest : List (κ × ν)) :
    ((key',value) :: rest).lookup key = rest.lookup key := by
  rw [lookup_cons,beq_false_of_ne h]

theorem mem_of_lookup {m : List (κ × ν)} {value : ν} (h : m.lookup key = some value) :
    (key,value) ∈ m := by
  induction m with
  | nil => cases h
  | cons e rest ih =>
    obtain ⟨k,v⟩ := e
    by_cases hkey : key = k
    · subst hkey
      rw [lookup_cons_self,Option.some.injEq] at h
      rw [h]
      exact mem_cons_self
    · rw [lookup_cons_ne hkey] at h
      exact mem_cons_of_mem _ (ih h)

theorem lookup_of_mem {m : List (κ × ν)} (hunique : (m.map Prod.fst).Nodup) {value : ν}
    (h : (key,value) ∈ m) : m.lookup key = some value := by
  induction m with
  | nil => cases h
  | cons e rest ih =>
    obtain ⟨k,v⟩ := e
    rw [map_cons,nodup_cons] at hunique
    rcases mem_cons.mp h with heq | hmem
    · cases heq
      exact lookup_cons_self
    · have hne : key ≠ k := by
        intro heq
        have hkey : key ∈ rest.map Prod.fst := mem_map.mpr ⟨_,hmem,rfl⟩
        exact hunique.1 (heq ▸ hkey)
      rw [lookup_cons_ne hne,ih hunique.2 hmem]

theorem lookup_filter_ne (m : List (κ × ν)) {key' : κ} (h : key' ≠ key) :
    (m.filter fun e => e.1 ≠ key).lookup key' = m.lookup key' := by
  induction m with
  | nil => rfl
  | cons e rest ih =>
    obtain ⟨k,v⟩ := e
    by_cases hkey : k = key
    · subst hkey
      rw [filter_cons_of_neg (by simp),ih,lookup_cons_ne h]
    · rw [filter_cons_of_pos (by simpa using hkey)]
      by_cases hsame : key' = k
      · subst hsame
        rw [lookup_cons_self,lookup_cons_self]
      · rw [lookup_cons_ne hsame,lookup_cons_ne hsame,ih]

theorem lookup_assign (m : List (κ × ν)) (key : κ) (value : ν) :
    (assign m key value).lookup key = some value := by
  have hnone : (m.filter fun e => e.1 ≠ key).lookup key = none := by
    apply lookup_eq_none_iff.mpr
    intro e he
    have hne := (mem_filter.mp he).2
    simp only [decide_eq_true_eq] at hne
    simpa using fun h => hne h.symm
  rw [assign,lookup_append,hnone]
  simp

theorem lookup_assign_ne (m : List (κ × ν)) {key' : κ} (h : key' ≠ key) (value : ν) :
    (assign m key value).lookup key' = m.lookup key' := by
  rw [assign,lookup_append,lookup_filter_ne m h,lookup_cons_ne h]
  exact Option.or_none
end
open List AList
abbrev FiniteMap (κ ν : Type) : Type := AList fun _ : κ => ν

namespace FiniteMap
variable {κ ν : Type}
def total (f : κ → ν → Int) (m : FiniteMap κ ν) : Int :=
  (m.entries.map fun e => f e.1 e.2).sum

variable [DecidableEq κ]
variable {m : FiniteMap κ ν} {v : ν}
variable {k : κ}
theorem mem_entries_iff : ⟨k,v⟩ ∈ m.entries ↔ m.lookup k = some v :=
  mem_lookup_iff.symm

theorem of_lookup_insert {k' : κ} {v' : ν} (h : (m.insert k v).lookup k' = some v') :
    k' = k ∧ v = v' ∨ k' ≠ k ∧ m.lookup k' = some v' := by
  by_cases hk : k' = k
  · rw [hk,lookup_insert] at h
    exact .inl ⟨hk,Option.some.inj h⟩
  · rw [lookup_insert_ne hk] at h
    exact .inr ⟨hk,h⟩

theorem of_lookup_erase {k' : κ} (h : (m.erase k).lookup k' = some v) :
    k' ≠ k ∧ m.lookup k' = some v := by
  have hk : k' ≠ k := by
    rintro rfl
    rw [lookup_erase] at h
    cases h
  rw [lookup_erase_ne hk] at h
  exact ⟨hk,h⟩

theorem total_insert (f : κ → ν → Int) (m : FiniteMap κ ν) (k : κ) (v : ν) :
    total f (m.insert k v) = f k v + total f (m.erase k) := rfl
theorem erase_of_lookup_eq_none (h : m.lookup k = none) : m.erase k = m := by
  apply AList.ext
  exact kerase_of_notMem_keys (lookup_eq_none.mp h)

section
variable (f : κ → ν → Int)
include f
theorem total_eq_add_erase (h : m.lookup k = some v) : total f m = f k v + total f (m.erase k) := by
  have hmem : k ∈ m.entries.keys :=
    mem_keys_of_mem (mem_entries_iff.mpr h)
  obtain ⟨w,before,after,-,hsplit,herase⟩ := exists_of_kerase hmem
  have hw : w = v := by
    have hin : ⟨k,w⟩ ∈ m.entries := by simp [hsplit]
    rw [mem_entries_iff,h] at hin
    exact (Option.some.inj hin).symm
  subst hw
  have hrest : (m.erase k).entries = before ++ after := herase
  rw [total,total,hsplit,hrest]
  simp only [map_append,map_cons,sum_append,sum_cons]
  omega

theorem total_replace (h : m.lookup k = some v) (v' : ν) :
    total f (m.insert k v') = total f m - f k v + f k v' := by
  rw [total_insert,total_eq_add_erase f h]
  omega
theorem total_insert_new (h : m.lookup k = none) (v : ν) :
    total f (m.insert k v) = total f m + f k v := by
  rw [total_insert,erase_of_lookup_eq_none h]
  omega
theorem total_erase (h : m.lookup k = some v) : total f (m.erase k) = total f m - f k v := by
  rw [total_eq_add_erase f h]
  omega
end
variable {f : κ → ν → Int}
theorem total_nonneg (h : ∀ k v, m.lookup k = some v → 0 ≤ f k v) : 0 ≤ total f m := by
  apply sum_nonneg
  intro x hx
  obtain ⟨⟨k,v⟩,he,rfl⟩ := mem_map.mp hx
  exact h k v (mem_entries_iff.mp he)

theorem total_congr {g : κ → ν → Int} (h : ∀ k v, m.lookup k = some v → f k v = g k v) :
    total f m = total g m := by
  apply congrArg List.sum
  apply map_congr_left
  intro e he
  exact h e.1 e.2 (mem_entries_iff.mp he)

theorem total_eq_zero (h : ∀ k v, m.lookup k = some v → f k v = 0) : total f m = 0 := by
  rw [total_congr (g := fun _ _ => 0) h]
  simp [total]

theorem le_total (h : ∀ k v, m.lookup k = some v → 0 ≤ f k v) (hk : m.lookup k = some v) :
    f k v ≤ total f m := by
  have hrest : 0 ≤ total f (m.erase k) := by
    apply total_nonneg
    intro k' v' hk'
    exact h k' v' (of_lookup_erase hk').2
  rw [total_eq_add_erase f hk]
  omega

theorem eq_empty_of_lookup (h : ∀ k, m.lookup k = none) : m = ∅ := by
  apply AList.ext
  apply eq_nil_iff_forall_not_mem.mpr
  intro e he
  have hlookup := mem_entries_iff.mp he
  rw [h] at hlookup
  cases hlookup

theorem lookup_eraseAll (keys : List κ) (m : FiniteMap κ ν) (k : κ) :
    (keys.foldl (fun m key => m.erase key) m).lookup k = if k ∈ keys then none else m.lookup k := by
  induction keys generalizing m with
  | nil => rfl
  | cons key rest ih =>
    rw [foldl_cons,ih]
    by_cases hk : k = key
    · subst hk
      rw [lookup_erase,if_pos mem_cons_self]
      split <;> rfl
    · rw [lookup_erase_ne hk]
      simp [hk]

theorem eraseAll_empty (keys : List κ) :
    keys.foldl (fun m key => m.erase key) (∅ : FiniteMap κ ν) = ∅ := by
  induction keys with
  | nil => rfl
  | cons key rest ih => exact ih

def weigh (members : FiniteMap κ ν) (weights : FiniteMap κ Int) : Int :=
  members.total fun k _ => (weights.lookup k).getD 0

section weigh
variable {members : FiniteMap κ ν} {weights : FiniteMap κ Int} {k : κ}
theorem weigh_nonneg (h : ∀ k a, weights.lookup k = some a → 0 ≤ a) :
    0 ≤ weigh members weights := by
  apply total_nonneg
  intro k _ _
  cases hk : weights.lookup k with
  | none => exact Int.le_refl 0
  | some a => exact h k a hk

theorem weigh_erase (h : members.lookup k = none → weights.lookup k = none) :
    weigh (members.erase k) (weights.erase k) =
      weigh members weights - (weights.lookup k).getD 0 := by
  have hsame : weigh (members.erase k) (weights.erase k) = weigh (members.erase k) weights := by
    apply total_congr
    intro k' _ hk'
    rw [lookup_erase_ne (of_lookup_erase hk').1]
  rw [hsame]
  cases hk : members.lookup k with
  | none =>
    rw [erase_of_lookup_eq_none hk,h hk,Option.getD_none,Int.sub_zero]
  | some v => exact total_erase _ hk

theorem weigh_insert (h : members.lookup k = none → weights.lookup k = none) (v : ν) (a : Int) :
    weigh (members.insert k v) (weights.insert k a) =
      weigh members weights - (weights.lookup k).getD 0 + a := by
  have hrest : total (fun k' _ => ((weights.insert k a).lookup k').getD 0) (members.erase k) =
      weigh (members.erase k) (weights.erase k) := by
    apply total_congr
    intro k' _ hk'
    have hne := (of_lookup_erase hk').1
    rw [lookup_erase_ne hne,lookup_insert_ne hne]
  rw [weigh,total_insert,hrest,weigh_erase h,lookup_insert,Option.getD_some]
  omega

theorem le_weigh (h : ∀ k a, weights.lookup k = some a → 0 ≤ a) (hk : members.lookup k = some v) :
    (weights.lookup k).getD 0 ≤ weigh members weights := by
  apply le_total (f := fun k _ => (weights.lookup k).getD 0) _ hk
  intro k' _ _
  cases hk' : weights.lookup k' with
  | none => exact Int.le_refl 0
  | some a => exact h k' a hk'
end weigh
end FiniteMap
end GudeAgents.Framework
