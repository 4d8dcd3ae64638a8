import GudeAgents.Framework.Runs
/-!
# Rely-guarantee reasoning for pools

An invariant of the shared state, what a worker relies on, what it makes sure of before each call,
and what each of its steps guarantees.
-/
namespace GudeAgents.Framework
structure RelyGuarantee {E : Effects} {σ α : Type} (S : System E σ α) where
  Inv : σ → Prop
  /-- Only the first `n` workers have left a trace in the state. -/
  Bound : Nat → σ → Prop
  Rely : Nat → σ → σ → Prop
  Pre : Nat → E.Op → σ → Prop
  Guar : Nat → σ → σ → Prop
  rely_refl : ∀ i s, Rely i s s
  rely_trans : ∀ {i s s' s''}, Rely i s s' → Rely i s' s'' → Rely i s s''
  guar_inv : ∀ {i s s'}, Inv s → Guar i s s' → Inv s'
  guar_rely : ∀ {i j s s'}, Guar i s s' → i ≠ j → Rely j s s'
  guar_bound : ∀ {i n s s'}, Bound n s → i < n → Guar i s s' → Bound n s'
  spawn_inv : ∀ {n p s s'}, Inv s → Bound n s → S.Spawn n p s s' → Inv s'
  spawn_bound : ∀ {n p s s'}, Bound n s → S.Spawn n p s s' → Bound (n + 1) s'
  spawn_rely : ∀ {n p s s' j}, S.Spawn n p s s' → j < n → Rely j s s'
  environment_inv : ∀ {s s'}, Inv s → S.Environment s s' → Inv s'
  environment_bound : ∀ {n s s'}, Bound n s → S.Environment s s' → Bound n s'
  environment_rely : ∀ {s s' j}, S.Environment s s' → Rely j s s'

namespace RelyGuarantee
variable {E : Effects} {σ ω α : Type} {S : System E σ ω}
def of (L : RelyGuarantee S) (i : Nat) : Logic E σ where
  step op K s := ∀ s', L.Rely i s s' → L.Inv s' → L.Pre i op s' ∧
    ∀ answer s'', S.Perform i op s' answer s'' → L.Guar i s' s'' ∧ K answer s''
  mono := by
    intro op K K' s hK h s' hr hi
    refine ⟨(h s' hr hi).1,fun answer s'' hp => ?_⟩
    exact ⟨((h s' hr hi).2 answer s'' hp).1,hK answer s'' ((h s' hr hi).2 answer s'' hp).2⟩

variable {L : RelyGuarantee S} {i : Nat}
variable {Q : α → σ → Prop}
variable {p : Program E α} {s : σ}
theorem safe_rely (hQ : ∀ value s s', Q value s → L.Rely i s s' → Q value s') {s' : σ}
    (h : (L.of i).Safe p Q s) (hr : L.Rely i s s') : (L.of i).Safe p Q s' := by
  cases p with
  | done value => exact hQ value s s' h hr
  | call op next => exact fun t ht => h t (L.rely_trans hr ht)

theorem safe_of_stable {J : σ → Prop} (hrely : ∀ {s s'}, J s → L.Rely i s s' → J s')
    (hcall : ∀ op {s}, J s → L.Inv s → L.Pre i op s ∧
      ∀ answer s', S.Perform i op s answer s' → L.Guar i s s' ∧ J s') (p : Program E α) (h : J s) :
    (L.of i).Safe p (fun _ _ => True) s := by
  induction p generalizing s with
  | done value => trivial
  | call op next ih =>
    intro s' hr hi
    obtain ⟨hpre,hstep⟩ := hcall op (hrely h hr) hi
    refine ⟨hpre,fun answer s'' hp => ?_⟩
    obtain ⟨hguar,hJ⟩ := hstep answer s'' hp
    exact ⟨hguar,ih answer hJ⟩

section Adequacy
/-- What holds of a reachable pool: the invariant, and the safety of what is left to run. -/
private def Sound (L : RelyGuarantee S) (Post : Nat → ω → σ → Prop) (pool : Pool E σ ω) : Prop :=
  (L.Inv pool.shared ∧ L.Bound pool.workers.length pool.shared) ∧
    ∀ j p, pool.workers[j]? = some (some p) → (L.of j).Safe p (Post j) pool.shared

variable {Post : Nat → ω → σ → Prop}
private theorem sound_step {pool pool' : Pool E σ ω}
    (hpost : ∀ j value s s', Post j value s → L.Rely j s s' → Post j value s')
    (hspawn : ∀ {n p s s'}, L.Inv s → L.Bound n s → S.Spawn n p s s' → (L.of n).Safe p (Post n) s')
    (h : Sound L Post pool) (hs : S.Step pool pool') : Sound L Post pool' := by
  cases hs with
  | @spawn s s' ws p hp =>
    refine ⟨⟨L.spawn_inv h.1.1 h.1.2 hp,by simpa using L.spawn_bound h.1.2 hp⟩,?_⟩
    intro j q hq
    rcases Nat.lt_trichotomy j ws.length with hj | hj | hj
    · have hold : ws[j]? = some (some q) := by
        simpa [List.getElem?_append_left hj] using hq
      exact safe_rely (hpost j) (h.2 j q hold) (L.spawn_rely hp hj)
    · subst hj
      have : p = q := by simpa using hq
      exact this ▸ hspawn h.1.1 h.1.2 hp
    · rw [List.getElem?_eq_none (by simpa using Nat.succ_le_of_lt hj)] at hq
      cases hq
  | @run s s' ws k op next answer hk hp =>
    have hrun := (h.2 k _ hk s (L.rely_refl k s) h.1.1).2 answer s' hp
    have hlt : k < ws.length := (List.getElem?_eq_some_iff.mp hk).1
    refine ⟨⟨L.guar_inv h.1.1 hrun.1,by simpa using L.guar_bound h.1.2 hlt hrun.1⟩,?_⟩
    intro j q hq
    by_cases hkj : k = j
    · subst hkj
      have : next answer = q := by simpa [hlt] using hq
      exact this ▸ hrun.2
    · have hold : ws[j]? = some (some q) := by
        simpa [List.getElem?_set_ne hkj] using hq
      exact safe_rely (hpost j) (h.2 j q hold) (L.guar_rely hrun.1 hkj)
  | @crash s ws k =>
    refine ⟨⟨h.1.1,by simpa using h.1.2⟩,?_⟩
    intro j q hq
    by_cases hkj : k = j
    · subst hkj
      rw [List.getElem?_set_self'] at hq
      cases hw : ws[k]? <;> simp [hw] at hq
    · exact h.2 j q (by simpa [List.getElem?_set_ne hkj] using hq)
  | environment he =>
    refine ⟨⟨L.environment_inv h.1.1 he,L.environment_bound h.1.2 he⟩,?_⟩
    intro j q hq
    exact safe_rely (hpost j) (h.2 j q hq) (L.environment_rely he)

variable {s : σ} {pool : Pool E σ ω}
private theorem reachable_sound
    (hpost : ∀ j value s s', Post j value s → L.Rely j s s' → Post j value s')
    (hspawn : ∀ {n p s s'}, L.Inv s → L.Bound n s → S.Spawn n p s s' → (L.of n).Safe p (Post n) s')
    (hinit : L.Inv s) (hbound : L.Bound 0 s) (h : S.Reachable s pool) : Sound L Post pool := by
  induction h with
  | refl => exact ⟨⟨hinit,hbound⟩,by simp⟩
  | tail _ hs ih => exact sound_step hpost hspawn ih hs

theorem reachable_inv (L : RelyGuarantee S)
    (hspawn : ∀ {n p s s'}, L.Inv s → L.Bound n s → S.Spawn n p s s' →
      (L.of n).Safe p (fun _ _ => True) s') (hinit : L.Inv s) (hbound : L.Bound 0 s)
    (h : S.Reachable s pool) : L.Inv pool.shared :=
  have hsound : Sound L (fun _ _ _ => True) pool :=
    reachable_sound (fun _ _ _ _ _ _ => trivial) hspawn hinit hbound h
  hsound.1.1

theorem reachable_pre (L : RelyGuarantee S)
    (hspawn : ∀ {n p s s'}, L.Inv s → L.Bound n s → S.Spawn n p s s' →
      (L.of n).Safe p (fun _ _ => True) s') (hinit : L.Inv s) (hbound : L.Bound 0 s)
    (h : S.Reachable s pool) {op : E.Op} {next : E.Ans op → Program E ω}
    (hi : pool.workers[i]? = some (some (.call op next))) : L.Pre i op pool.shared := by
  have hsound : Sound L (fun _ _ _ => True) pool :=
    reachable_sound (fun _ _ _ _ _ _ => trivial) hspawn hinit hbound h
  exact (hsound.2 i _ hi pool.shared (L.rely_refl i _) hsound.1.1).1

theorem reachable_done (L : RelyGuarantee S) (Post : Nat → ω → σ → Prop)
    (hpost : ∀ j value s s', Post j value s → L.Rely j s s' → Post j value s')
    (hspawn : ∀ {n p s s'}, L.Inv s → L.Bound n s → S.Spawn n p s s' → (L.of n).Safe p (Post n) s')
    (hinit : L.Inv s) (hbound : L.Bound 0 s) (h : S.Reachable s pool) {value : ω}
    (hi : pool.workers[i]? = some (some (.done value))) : Post i value pool.shared :=
  (reachable_sound hpost hspawn hinit hbound h).2 i _ hi
end Adequacy
end RelyGuarantee
end GudeAgents.Framework
