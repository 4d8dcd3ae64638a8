import Mathlib.Logic.Basic
/-!
# Length-delimited text

A text preceded by its length in bytes and a colon.
-/
namespace GudeAgents.Framework
open List String
def delimited (text : String) : String := toString text.utf8ByteSize ++ ":" ++ text

theorem colon_not_mem_digits (n : Nat) : ':' ∉ Nat.toDigits 10 n := by
  intro h
  have hdigit := Nat.isDigit_of_mem_toDigits (by decide) (by decide) h
  exact absurd hdigit (by decide)

theorem append_separator_inj {α : Type} {c : α} {xs xs' ys ys' : List α} (hxs : c ∉ xs)
    (hxs' : c ∉ xs') (h : xs ++ c :: ys = xs' ++ c :: ys') : xs = xs' ∧ ys = ys' := by
  induction xs generalizing xs' with
  | nil =>
    cases xs' with
    | nil => simpa using h
    | cons d xs' =>
      simp only [nil_append,cons_append,List.cons.injEq] at h
      exact absurd (h.1 ▸ mem_cons_self) hxs'
  | cons d xs ih =>
    cases xs' with
    | nil =>
      simp only [nil_append,cons_append,List.cons.injEq] at h
      exact absurd (h.1 ▸ mem_cons_self) hxs
    | cons d' xs' =>
      simp only [cons_append,List.cons.injEq] at h
      obtain ⟨rfl,h⟩ := h
      obtain ⟨rfl,rfl⟩ := ih (fun hc => hxs (mem_cons_of_mem _ hc))
        (fun hc => hxs' (mem_cons_of_mem _ hc)) h
      exact ⟨rfl,rfl⟩

theorem toString_append_colon_inj {n n' : Nat} {t t' : String}
    (h : toString n ++ (":" ++ t) = toString n' ++ (":" ++ t')) : n = n' ∧ t = t' := by
  have hlist := congrArg toList h
  simp only [toList_append,Nat.toString_eq_ofList_toDigits,toList_ofList] at hlist
  obtain ⟨hdigits,ht⟩ :=
    append_separator_inj (colon_not_mem_digits n) (colon_not_mem_digits n') hlist
  have hn := congrArg (fun ds => Nat.ofDigitChars 10 ds 0) hdigits
  simp only [Nat.ofDigitChars_ten_toDigits] at hn
  exact ⟨hn,toList_inj.mp ht⟩

theorem delimited_append_inj {a a' r r' : String} (h : delimited a ++ r = delimited a' ++ r') :
    a = a' ∧ r = r' := by
  simp only [delimited,String.append_assoc] at h
  obtain ⟨hsize,hrest⟩ := toString_append_colon_inj h
  have hbytes := congrArg String.toByteArray hrest
  have ha : a = a' := String.toByteArray_inj.mp (ByteArray.append_inj_left hbytes hsize)
  subst ha
  exact ⟨rfl,(append_right_inj a).mp hrest⟩

theorem delimited_pair_inj {a a' b b' : String}
    (h : delimited a ++ delimited b = delimited a' ++ delimited b') : a = a' ∧ b = b' := by
  obtain ⟨ha,hb⟩ := delimited_append_inj h
  have hb' : delimited b ++ "" = delimited b' ++ "" := by rw [hb]
  exact ⟨ha,(delimited_append_inj hb').1⟩
end GudeAgents.Framework
