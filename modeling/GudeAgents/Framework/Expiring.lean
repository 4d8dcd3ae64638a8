import GudeAgents.Framework.FiniteMap
/-!
# Values that expire

Changes in place keep the deadline of a value, a value that is set has none. A map without entries
is not stored at all.
-/
namespace GudeAgents.Framework
open List Function
structure Cell (α : Type) where
  value : α
  deadline : Option Int

def Cell.live {α : Type} (c : Cell α) (now : Int) : Bool :=
  c.deadline.all fun d => decide (now ≤ d)

abbrev Expiring (α : Type) : Type := Option (Cell α)

namespace Expiring
variable {later now : Int}
section values
variable {α : Type}
def live (x : Expiring α) (now : Int) : Option (Cell α) := x.filter (·.live now)
def get (x : Expiring α) (now : Int) : Option α := (x.live now).map Cell.value
def set (value : α) : Expiring α := some ⟨value,none⟩
def put (x : Expiring α) (now : Int) (value : α) : Expiring α :=
  some ⟨value,(x.live now).bind Cell.deadline⟩
def expireAt (x : Expiring α) (now deadline : Int) : Expiring α :=
  match x.live now with
  | some c => some { c with deadline := some deadline }
  | none => x

theorem live_some (c : Cell α) (now : Int) :
    live (some c) now = if c.live now then some c else none := rfl
@[simp] theorem get_none (now : Int) : get (none : Expiring α) now = none := rfl
@[simp] theorem get_set (value : α) (now : Int) : (set value).get now = some value := rfl

theorem Cell.live_of_le {c : Cell α} (hle : now ≤ later) (h : c.live later = true) :
    c.live now = true := by
  unfold Cell.live at h ⊢
  cases hd : c.deadline with
  | none => rfl
  | some d =>
    rw [hd,Option.all_some,decide_eq_true_iff] at h
    rw [Option.all_some,decide_eq_true_iff]
    exact Int.le_trans hle h

theorem expireAt_put (x : Expiring α) (now : Int) (value : α) (deadline : Int) :
    (x.put now value).expireAt now deadline = some ⟨value,some deadline⟩ := by
  have hlive : (x.put now value).live now = x.put now value := by
    apply Option.filter_eq_some_iff.mpr
    refine ⟨rfl,?_⟩
    cases hx : x.live now with
    | none => rfl
    | some c => exact (Option.filter_eq_some_iff.mp hx).2
  rw [expireAt,hlive]
  rfl

theorem get_some (c : Cell α) (now : Int) :
    get (some c) now = if c.live now then some c.value else none := by
  rw [get,live_some]
  split <;> rfl

theorem get_dated (value : α) (deadline now : Int) :
    get (some ⟨value,some deadline⟩) now = if now ≤ deadline then some value else none := by
  rw [get_some]
  by_cases hle : now ≤ deadline
  · simp [Cell.live,hle]
  · simp [Cell.live,hle]

theorem get_of_le {x : Expiring α} {value : α} (hle : now ≤ later) (h : x.get later = some value) :
    x.get now = some value := by
  cases x with
  | none => cases h
  | some c =>
    rw [get_some] at h ⊢
    split at h
    · rename_i hlive
      rw [if_pos (Cell.live_of_le hle hlive)]
      exact h
    · cases h
end values
section maps
variable {κ ν : Type}
def entries (x : Expiring (FiniteMap κ ν)) (now : Int) : FiniteMap κ ν := (x.get now).getD ∅

theorem entries_some (c : Cell (FiniteMap κ ν)) (now : Int) :
    entries (some c) now = if c.live now then c.value else ∅ := by
  rw [entries,get,live_some]
  split <;> rfl
theorem entries_dated (value : FiniteMap κ ν) (deadline now : Int) :
    entries (some ⟨value,some deadline⟩) now = if now ≤ deadline then value else ∅ := by
  rw [entries,get_dated]
  split <;> rfl

variable [DecidableEq κ]
/-- An entry is removed in place; a map without entries is removed with its deadline. -/
def remove (x : Expiring (FiniteMap κ ν)) (now : Int) (key : κ) : Expiring (FiniteMap κ ν) :=
  match x.live now with
  | some c =>
    if (c.value.erase key).entries.isEmpty then none
    else some { c with value := c.value.erase key }
  | none => x

theorem entries_remove {x : Expiring (FiniteMap κ ν)} (hle : now ≤ later) (key : κ) :
    (x.remove now key).entries later = (x.entries later).erase key := by
  cases x with
  | none => rfl
  | some c =>
    rw [remove,live_some,entries_some]
    by_cases hnow : c.live now = true
    · rw [if_pos hnow]
      dsimp only
      by_cases hempty : (c.value.erase key).entries.isEmpty = true
      · have hnone : c.value.erase key = ∅ := AList.ext (isEmpty_iff.mp hempty)
        rw [if_pos hempty]
        split
        · exact hnone.symm
        · rfl
      · have hsame : Cell.live { c with value := c.value.erase key } later = c.live later := rfl
        rw [if_neg hempty,entries_some,hsame]
        split
        · rfl
        · rfl
    · have hlater : ¬c.live later = true := fun h => hnow (Cell.live_of_le hle h)
      rw [if_neg hnow,if_neg hlater]
      rw [entries_some,if_neg hlater]
      rfl

theorem entries_removeAll (hle : now ≤ later) (keys : List κ) (x : Expiring (FiniteMap κ ν)) :
    (keys.foldl (fun x key => x.remove now key) x).entries later =
      keys.foldl (fun m key => m.erase key) (x.entries later) := by
  induction keys generalizing x with
  | nil => rfl
  | cons key rest ih => rw [foldl_cons,foldl_cons,ih,entries_remove hle]
end maps
end Expiring
section tables
variable {ι κ β : Type} [DecidableEq κ]
def updateEach (key : ι → κ) (f : ι → β → β) (l : List ι) (table : κ → β) : κ → β :=
  l.foldl (fun t i => Function.update t (key i) (f i (t (key i)))) table

def checkEach (key : ι → κ) (f : ι → β → β) (full : ι → β → Bool) :
    List ι → (κ → β) → (κ → β) × Bool
  | [], t => (t,true)
  | i :: rest, t =>
    let t := Function.update t (key i) (f i (t (key i)))
    if full i (t (key i)) then (t,false) else checkEach key f full rest t

variable {key : ι → κ} {f : ι → β → β} {full : ι → β → Bool} {l : List ι}
theorem updateEach_cons (i : ι) (table : κ → β) : updateEach key f (i :: l) table =
    updateEach key f l (Function.update table (key i) (f i (table (key i)))) := rfl

section
variable (table : κ → β)
include table
theorem updateEach_of_notMem {k : κ} (h : k ∉ l.map key) :
    updateEach key f l table k = table k := by
  induction l generalizing table with
  | nil => rfl
  | cons i rest ih =>
    rw [map_cons,mem_cons,not_or] at h
    rw [updateEach_cons,ih _ h.2,update_of_ne h.1]

theorem updateEach_of_mem (hnodup : (l.map key).Nodup) {i : ι} (hi : i ∈ l) :
    updateEach key f l table (key i) = f i (table (key i)) := by
  induction l generalizing table with
  | nil => cases hi
  | cons j rest ih =>
    rw [map_cons,nodup_cons] at hnodup
    rw [updateEach_cons]
    rcases mem_cons.mp hi with rfl | hi
    · rw [updateEach_of_notMem _ hnodup.1,update_self]
    · have hne : key i ≠ key j := by
        intro heq
        apply hnodup.1
        rw [← heq]
        exact mem_map_of_mem hi
      rw [ih _ hnodup.2 hi,update_of_ne hne]

theorem checkEach_apply (hnodup : (l.map key).Nodup) (k : κ) :
    (checkEach key f full l table).1 k = table k ∨
      ∃ i ∈ l, key i = k ∧ (checkEach key f full l table).1 k = f i (table k) := by
  induction l generalizing table with
  | nil => exact Or.inl rfl
  | cons i rest ih =>
    rw [map_cons,nodup_cons] at hnodup
    rw [checkEach]
    split
    · by_cases hk : k = key i
      · subst hk
        right
        exact ⟨i,mem_cons_self,rfl,update_self _ _ _⟩
      · left
        exact update_of_ne hk _ _
    · rcases ih (Function.update table (key i) (f i (table (key i)))) hnodup.2 with
        hsame | ⟨j,hj,rfl,hsame⟩
      · rw [hsame]
        by_cases hk : k = key i
        · subst hk
          right
          exact ⟨i,mem_cons_self,rfl,update_self _ _ _⟩
        · left
          exact update_of_ne hk _ _
      · have hne : key j ≠ key i := by
          intro heq
          apply hnodup.1
          rw [← heq]
          exact mem_map_of_mem hj
        right
        refine ⟨j,mem_cons_of_mem _ hj,rfl,?_⟩
        rw [hsame,update_of_ne hne]

theorem checkEach_iff (hnodup : (l.map key).Nodup) :
    (checkEach key f full l table).2 = true ↔ ∀ i ∈ l, full i (f i (table (key i))) = false := by
  induction l generalizing table with
  | nil => simp [checkEach]
  | cons i rest ih =>
    rw [map_cons,nodup_cons] at hnodup
    have hrest : ∀ j ∈ rest,
        Function.update table (key i) (f i (table (key i))) (key j) = table (key j) := by
      intro j hj
      apply update_of_ne
      intro heq
      apply hnodup.1
      rw [← heq]
      exact mem_map_of_mem hj
    rw [checkEach,update_self]
    by_cases hfull : full i (f i (table (key i))) = true
    · rw [if_pos hfull]
      simp [hfull]
    · rw [if_neg hfull,ih _ hnodup.2,forall_mem_cons]
      constructor
      · intro h
        refine ⟨Bool.eq_false_iff.mpr hfull,?_⟩
        intro j hj
        rw [← hrest j hj]
        exact h j hj
      · intro h j hj
        rw [hrest j hj]
        exact h.2 j hj

theorem checkEach_of_true (h : (checkEach key f full l table).2 = true) :
    (checkEach key f full l table).1 = updateEach key f l table := by
  induction l generalizing table with
  | nil => rfl
  | cons i rest ih =>
    rw [checkEach] at h ⊢
    split at h
    · cases h
    · rename_i hfull
      rw [if_neg hfull]
      exact ih _ h
end
end tables
end GudeAgents.Framework
