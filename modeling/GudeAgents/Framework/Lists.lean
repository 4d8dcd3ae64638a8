import Mathlib.Data.List.Basic
import Mathlib.Data.List.Sort
import Mathlib.Data.List.TakeWhile
/-!
# In-place compaction

The kept elements of a buffer are moved to its front while the rest of it is still being read.
-/
namespace GudeAgents.Framework
section
open List
variable {α : Type*} {keep : α → Bool}
/-- Reads `fuel` more cells from `read` on and moves the kept ones to `write` and behind it. -/
def compactFrom (keep : α → Bool) : Nat → Nat → Nat → List α → List α
  | 0, _, write, cells => cells.take write
  | fuel + 1, read, write, cells =>
    match cells[read]? with
    | none => cells.take write
    | some x =>
      if keep x then compactFrom keep fuel (read + 1) (write + 1) (cells.set write x)
      else compactFrom keep fuel (read + 1) write cells

def compact (keep : α → Bool) (cells : List α) : List α :=
  compactFrom keep cells.length 0 0 cells

theorem compactFrom_eq {fuel read write : Nat} {cells : List α} (hle : write ≤ read)
    (hcells : read + fuel = cells.length) :
    compactFrom keep fuel read write cells = cells.take write ++ (cells.drop read).filter keep := by
  induction fuel generalizing read write cells with
  | zero => simp [compactFrom,drop_of_length_le (show cells.length ≤ read by omega)]
  | succ fuel ih =>
    have hread : read < cells.length := by omega
    rw [compactFrom,List.getElem?_eq_getElem hread,drop_eq_getElem_cons hread]
    by_cases hkeep : keep cells[read] = true
    · rw [filter_cons_of_pos hkeep]
      simp only [hkeep,if_true]
      rw [ih (by omega) (by rw [length_set]; omega),drop_set_of_lt (by omega),take_add_one,
        take_set_of_le (Nat.le_refl write),List.getElem?_set_self (by omega)]
      simp
    · rw [filter_cons_of_neg hkeep]
      simp only [hkeep]
      exact ih (by omega) (by omega)

theorem compact_eq_filter (keep : α → Bool) (cells : List α) :
    compact keep cells = cells.filter keep := by
  rw [compact,compactFrom_eq (Nat.le_refl 0) (Nat.zero_add _)]
  simp
end
/-!
## Stable sorting by a rank

`List.insertionSort` keeps elements of equal rank in their order.
-/
section
open List
variable {α : Type} (rank : α → Nat)
def stableSort (l : List α) : List α := l.insertionSort fun a b => rank a ≤ rank b
theorem stableSort_perm (l : List α) : (stableSort rank l).Perm l := perm_insertionSort _ l

private instance rank_total : Std.Total fun a b => rank a ≤ rank b := ⟨fun _ _ => Nat.le_total _ _⟩
private instance rank_trans : IsTrans α fun a b => rank a ≤ rank b := ⟨fun _ _ _ => Nat.le_trans⟩

theorem stableSort_sorted (l : List α) : (stableSort rank l).Pairwise fun a b => rank a ≤ rank b :=
  pairwise_insertionSort _ l

theorem filter_stableSort (l : List α) (k : Nat) :
    (stableSort rank l).filter (rank · = k) = l.filter (rank · = k) := by
  have hranks : (l.filter (rank · = k)).Pairwise fun a b => rank a ≤ rank b := by
    apply pairwise_of_forall_mem_list
    intro a ha b hb
    have hrank : rank a = k := by simpa using (mem_filter.mp ha).2
    have hrank' : rank b = k := by simpa using (mem_filter.mp hb).2
    rw [hrank,hrank']
  have hsub := (sublist_insertionSort hranks filter_sublist).filter (rank · = k)
  rw [filter_filter] at hsub
  simp only [Bool.and_self] at hsub
  have hlength := ((stableSort_perm rank l).filter (rank · = k)).length_eq
  exact (hsub.eq_of_length hlength.symm).symm

variable {rank}
private theorem mem_iff_of_filter {l l' : List α}
    (hfilter : ∀ k, l.filter (rank · = k) = l'.filter (rank · = k)) (a : α) : a ∈ l ↔ a ∈ l' := by
  have hrank : a ∈ l.filter (rank · = rank a) ↔ a ∈ l'.filter (rank · = rank a) := by
    rw [hfilter]
  simpa using hrank

theorem eq_of_sorted_of_filter {l l' : List α} (h : l.Pairwise fun a b => rank a ≤ rank b)
    (h' : l'.Pairwise fun a b => rank a ≤ rank b)
    (hfilter : ∀ k, l.filter (rank · = k) = l'.filter (rank · = k)) : l = l' := by
  induction l generalizing l' with
  | nil =>
    cases l' with
    | nil => rfl
    | cons b l' =>
      exact absurd ((mem_iff_of_filter hfilter b).mpr mem_cons_self) not_mem_nil
  | cons a l ih =>
    cases l' with
    | nil => exact absurd ((mem_iff_of_filter hfilter a).mp mem_cons_self) not_mem_nil
    | cons b l' =>
      -- the heads have the least rank of both lists
      have hab : rank a ≤ rank b := by
        rcases mem_cons.mp ((mem_iff_of_filter hfilter b).mpr mem_cons_self) with rfl | hb
        · exact Nat.le_refl _
        · exact (pairwise_cons.mp h).1 b hb
      have hba : rank b ≤ rank a := by
        rcases mem_cons.mp ((mem_iff_of_filter hfilter a).mp mem_cons_self) with rfl | ha
        · exact Nat.le_refl _
        · exact (pairwise_cons.mp h').1 a ha
      have hrank : rank b = rank a := Nat.le_antisymm hba hab
      have heads := hfilter (rank a)
      rw [filter_cons_of_pos (by simp),filter_cons_of_pos (by simpa using hrank),
        List.cons.injEq] at heads
      obtain ⟨rfl,-⟩ := heads
      have hrest : ∀ k, l.filter (rank · = k) = l'.filter (rank · = k) := by
        intro k
        have hk := hfilter k
        by_cases ha : rank a = k
        · rw [filter_cons_of_pos (by simpa using ha),filter_cons_of_pos (by simpa using ha),
            List.cons.injEq] at hk
          exact hk.2
        · rwa [filter_cons_of_neg (by simpa using ha),filter_cons_of_neg (by simpa using ha)] at hk
      rw [ih (pairwise_cons.mp h).2 (pairwise_cons.mp h').2 hrest]

theorem eq_stableSort {l sorted : List α} (h : sorted.Pairwise fun a b => rank a ≤ rank b)
    (hfilter : ∀ k, sorted.filter (rank · = k) = l.filter (rank · = k)) :
    sorted = stableSort rank l :=
  eq_of_sorted_of_filter h (stableSort_sorted rank l) fun k => by
    rw [hfilter,filter_stableSort]
end
/-!
## Binary search

The loop of Go's `sort.Search` over a predicate that stays true once it holds.
-/
open List
def searchFrom (f : Nat → Bool) : Nat → Nat → Nat → Nat
  | 0, i, _ => i
  | fuel + 1, i, j =>
    if i < j then
      let h := (i + j) / 2
      if !f h then searchFrom f fuel (h + 1) j else searchFrom f fuel i h
    else i

def search (n : Nat) (f : Nat → Bool) : Nat := searchFrom f n 0 n

theorem searchFrom_spec {f : Nat → Bool} {n fuel i j : Nat} (hij : i ≤ j) (hjn : j ≤ n)
    (hfuel : j - i ≤ fuel) (hbelow : ∀ k < i, f k = false)
    (habove : ∀ k, j ≤ k → k < n → f k = true)
    (hmono : ∀ k l, k ≤ l → l < n → f k = true → f l = true) :
    searchFrom f fuel i j ≤ n ∧ (∀ k < searchFrom f fuel i j, f k = false) ∧
      ∀ k, searchFrom f fuel i j ≤ k → k < n → f k = true := by
  induction fuel generalizing i j with
  | zero =>
    have hend : i = j := by omega
    subst hend
    exact ⟨hjn,hbelow,habove⟩
  | succ fuel ih =>
    unfold searchFrom
    by_cases hlt : i < j
    · rw [if_pos hlt]
      dsimp only
      cases hmid : f ((i + j) / 2) with
      | false =>
        -- everything up to the middle is false
        refine ih (by omega) hjn (by omega) ?_ habove
        intro k hk
        by_contra htrue
        rw [Bool.not_eq_false] at htrue
        have hle := hmono k ((i + j) / 2) (by omega) (by omega) htrue
        rw [hmid] at hle
        cases hle
      | true =>
        refine ih (by omega) (by omega) (by omega) hbelow ?_
        intro k hk hkn
        exact hmono ((i + j) / 2) k hk hkn hmid
    · rw [if_neg hlt]
      have hend : i = j := by omega
      subst hend
      exact ⟨hjn,hbelow,habove⟩

theorem search_spec {f : Nat → Bool} {n : Nat}
    (hmono : ∀ k l, k ≤ l → l < n → f k = true → f l = true) :
    search n f ≤ n ∧ (∀ k < search n f, f k = false) ∧
      ∀ k, search n f ≤ k → k < n → f k = true := by
  apply searchFrom_spec (Nat.zero_le n) (Nat.le_refl n) (by omega)
  · intro k hk
    omega
  · intro k hk hkn
    omega
  · exact hmono

def dropUntil {α : Type} (p : α → Bool) (l : List α) : List α :=
  l.drop (search l.length fun i => (l[i]?).any p)

theorem search_dropUntil_spec {α : Type} {p : α → Bool} {l : List α}
    (hmono : l.Pairwise fun x y => p x = true → p y = true) :
    (∀ x ∈ l.take (search l.length fun i => (l[i]?).any p), p x = false) ∧
      ∀ x ∈ dropUntil p l, p x = true := by
  have hspec : ∀ k m, k ≤ m → m < l.length → (l[k]?).any p = true → (l[m]?).any p = true := by
    intro k m hkm hm hk
    rcases Nat.eq_or_lt_of_le hkm with rfl | hlt
    · exact hk
    · have hk' : k < l.length := by omega
      rw [List.getElem?_eq_getElem hk',Option.any_some] at hk
      rw [List.getElem?_eq_getElem hm,Option.any_some]
      exact pairwise_iff_getElem.mp hmono k m hk' hm hlt hk
  obtain ⟨-,hbelow,habove⟩ := search_spec hspec
  constructor
  · intro x hx
    obtain ⟨i,hi,rfl⟩ := mem_take_iff_getElem.mp hx
    have hfalse := hbelow i (by omega)
    rwa [List.getElem?_eq_getElem (by omega),Option.any_some] at hfalse
  · intro x hx
    obtain ⟨i,hi,rfl⟩ := mem_drop_iff_getElem.mp hx
    have htrue := habove _ (Nat.le_add_right _ i) (by omega)
    rwa [List.getElem?_eq_getElem (by omega),Option.any_some] at htrue

theorem dropUntil_eq_filter {α : Type} {p : α → Bool} {l : List α}
    (hmono : l.Pairwise fun x y => p x = true → p y = true) : dropUntil p l = l.filter p := by
  obtain ⟨htake,hdrop⟩ := search_dropUntil_spec hmono
  have hsplit := take_append_drop (search l.length fun i => (l[i]?).any p) l
  calc dropUntil p l = [] ++ dropUntil p l := (nil_append _).symm
    _ = (l.take (search l.length fun i => (l[i]?).any p)).filter p ++ (dropUntil p l).filter p := by
        rw [filter_eq_nil_iff.mpr,filter_eq_self.mpr hdrop]
        intro x hx
        rw [htake x hx]
        exact Bool.false_ne_true
    _ = l.filter p := by rw [← filter_append,dropUntil,hsplit]
end GudeAgents.Framework
