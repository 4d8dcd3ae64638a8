import GudeAgents.Framework.RelyGuarantee
import GudeAgents.RateLimit.Limiter
/-!
# Concurrency slots

Any number of `callProvider` calls share the slots of one limiter, their steps interleaved.
-/
namespace GudeAgents.RateLimit
open Framework Logic AList FiniteMap Limiting
/-- The slots taken of each key. What follows is history: the bucket keys of the calls in the order
they started, which of them hold a slot, and which of the holders were refused the settlement of
their lease. -/
structure Slots where
  occupied : String → Nat
  keys : List String
  holders : FiniteMap Nat String
  refused : FiniteMap Nat String

namespace Slots
def empty : Slots := { occupied := fun _ => 0, keys := [], holders := ∅, refused := ∅ }
def grab (s : Slots) (i : Nat) (key : String) : Slots :=
  { s with
    occupied := Function.update s.occupied key (s.occupied key+1)
    holders := s.holders.insert i key }
def free (s : Slots) (i : Nat) (key : String) : Slots :=
  { s with
    occupied := Function.update s.occupied key (s.occupied key-1)
    holders := s.holders.erase i }

def settle (s : Slots) (i : Nat) : Option StoreError → Slots
  | none => s
  | some err =>
    if isTerminal err then s
    else
      match s.holders.lookup i with
      | some key => { s with refused := s.refused.insert i key }
      | none => s

/-- How call `i` is answered by `n` slots per key and by a store and a provider of any behaviour. -/
inductive Serves (n : Int) (i : Nat) (s : Slots) : (op : LimiterOp) → op.Ans → Slots → Prop where
  | contextErr (answer : Option ContextError) : Serves n i s .contextErr answer s
  | leaseID (answer : Except String String) : Serves n i s .leaseID answer s
  | tryTaken {key : String} (room : (s.occupied key : Int)<n) :
      Serves n i s (.tryTake key) true (s.grab i key)
  | tryFull {key : String} (full : n ≤ s.occupied key) : Serves n i s (.tryTake key) false s
  | taken {key : String} (room : (s.occupied key : Int)<n) :
      Serves n i s (.take key) none (s.grab i key)
  | notTaken {key : String} (cause : ContextError) : Serves n i s (.take key) (some cause) s
  | freed {key : String} : Serves n i s (.free key) () (s.free i key)
  | storeReserve {r : Reservation} (answer : Except StoreError Bool) :
      Serves n i s (.storeReserve r) answer s
  | storeCommit {id : String} {actual : Int} (answer : Option StoreError) :
      Serves n i s (.storeCommit id actual) answer (s.settle i answer)
  | storeRelease {id : String} (answer : Option StoreError) :
      Serves n i s (.storeRelease id) answer (s.settle i answer)
  | wait (answer : Option ContextError) : Serves n i s .wait answer s
  | polls (answer : Nat) : Serves n i s .polls answer s
  | stream (answer : Except String Int) : Serves n i s .stream answer s
end Slots
def LimiterOp.Quiet : LimiterOp → Prop
  | .tryTake _ | .take _ | .free _ | .storeCommit _ _ | .storeRelease _ => False
  | .contextErr | .leaseID | .storeReserve _ | .wait | .polls | .forever | .stream => True

variable {s : Slots}
theorem Slots.serves_quiet {n : Int} {i : Nat} {s' : Slots} {op : LimiterOp} {answer : op.Ans}
    (hop : op.Quiet) (h : Slots.Serves n i s op answer s') : s'=s := by
  cases h with
  | contextErr | leaseID | storeReserve | wait | polls | stream => rfl
  | tryTaken | tryFull | taken | notTaken | freed | storeCommit | storeRelease => exact hop.elim

/-- Any number of callers of one limiter. -/
def RateLimiter.system {ρ : Type} (r : RateLimiter ρ) :
    System LimiterEffects Slots (Except LimiterError Int×Once) where
  Perform i op s answer s' := Slots.Serves r.maxConcurrent i s op answer s'
  Spawn _ p s s' := ∃ request, p=r.callProvider request {} ∧
    s'={ s with keys := s.keys++[request.key] }
  Environment _ _ := False

namespace Slots
def held (s : Slots) (key : String) : Int :=
  s.holders.total fun _ k => if k=key then 1 else 0

/-- Every slot taken is held by exactly one call of its key. -/
structure Accounted (n : Int) (s : Slots) : Prop where
  occupied_eq : ∀ key, (s.occupied key : Int)=s.held key
  occupied_le : ∀ key, (s.occupied key : Int)≤n
  holder : ∀ i key, s.holders.lookup i=some key → s.keys[i]?=some key
  refusal : ∀ i key, s.refused.lookup i=some key → s.keys[i]?=some key

section steps
variable {n : Int} {i : Nat} {s s' : Slots} {key : String}
private theorem grab_occupied (k : String) :
    ((s.grab i key).occupied k : Int)=s.occupied k+if key=k then 1 else 0 := by
  by_cases hne : k=key
  · subst hne
    simp [grab]
  · simp [grab,hne,Ne.symm hne]

private theorem grab_held (hnone : s.holders.lookup i=none) (k : String) :
    (s.grab i key).held k=s.held k+if key=k then 1 else 0 :=
  total_insert_new _ hnone key

private theorem free_occupied (hpos : 0<s.occupied key) (k : String) :
    ((s.free i key).occupied k : Int)=s.occupied k-if key=k then 1 else 0 := by
  by_cases hne : k=key
  · subst hne
    have heq : (s.free i k).occupied k=s.occupied k-1 := Function.update_self _ _ _
    rw [heq,if_pos rfl]
    omega
  · have heq : (s.free i key).occupied k=s.occupied k := Function.update_of_ne hne _ _
    rw [heq,if_neg (Ne.symm hne)]
    omega

private theorem free_held (hkey : s.holders.lookup i=some key) (k : String) :
    (s.free i key).held k=s.held k-if key=k then 1 else 0 :=
  total_erase _ hkey

variable {j : Nat}
theorem grab_holders_of_ne (hj : j≠i) : (s.grab i key).holders.lookup j=s.holders.lookup j :=
  lookup_insert_ne hj
theorem free_holders_of_ne (hj : j≠i) : (s.free i key).holders.lookup j=s.holders.lookup j :=
  lookup_erase_ne hj

theorem Accounted.occupied_pos (h : s.Accounted n) (hkey : s.holders.lookup i=some key) :
    0<s.occupied key := by
  have hle : (1 : Int) ≤ s.held key := by
    have hone : (if key=key then 1 else 0 : Int) ≤ s.held key := by
      apply le_total _ hkey
      intro _ k _
      split <;> omega
    rwa [if_pos rfl] at hone
  have heq := h.occupied_eq key
  omega

theorem Accounted.grab (h : s.Accounted n) (hkey : s.keys[i]?=some key)
    (hnone : s.holders.lookup i=none) (hroom : (s.occupied key : Int)<n) :
    (s.grab i key).Accounted n where
  occupied_eq k := by rw [grab_occupied,grab_held hnone,h.occupied_eq]
  occupied_le k := by
    have hle := h.occupied_le k
    rw [grab_occupied]
    split
    · rename_i heq
      subst heq
      omega
    · omega
  holder j k hj := by
    rcases of_lookup_insert hj with ⟨rfl,rfl⟩ | ⟨-,hold⟩
    · exact hkey
    · exact h.holder j k hold
  refusal := h.refusal

theorem Accounted.free (h : s.Accounted n) (hkey : s.holders.lookup i=some key) :
    (s.free i key).Accounted n where
  occupied_eq k := by rw [free_occupied (h.occupied_pos hkey),free_held hkey,h.occupied_eq]
  occupied_le k := by
    have hle := h.occupied_le k
    rw [free_occupied (h.occupied_pos hkey)]
    split <;> omega
  holder j k hj := h.holder j k (of_lookup_erase hj).2
  refusal := h.refusal

private theorem settle_cases (s : Slots) (i : Nat) (answer : Option StoreError) :
    s.settle i answer=s ∨ ∃ key, s.holders.lookup i=some key ∧
      s.settle i answer={ s with refused := s.refused.insert i key } := by
  cases answer with
  | none => exact .inl rfl
  | some err =>
    unfold settle
    by_cases hterminal : isTerminal err
    · exact .inl (if_pos hterminal)
    · dsimp only
      rw [if_neg hterminal]
      cases hkey : s.holders.lookup i with
      | none => exact .inl rfl
      | some key => exact .inr ⟨key,rfl,rfl⟩

theorem Accounted.settle (h : s.Accounted n) (answer : Option StoreError) :
    (s.settle i answer).Accounted n := by
  rcases settle_cases s i answer with hsame | ⟨key,hkey,hrefused⟩
  · rw [hsame]
    exact h
  · rw [hrefused]
    refine ⟨h.occupied_eq,h.occupied_le,h.holder,fun j k hj => ?_⟩
    rcases of_lookup_insert hj with ⟨rfl,rfl⟩ | ⟨-,hold⟩
    · exact h.holder j key hkey
    · exact h.refusal j k hold

private theorem settle_keys (answer : Option StoreError) : (s.settle i answer).keys=s.keys := by
  rcases settle_cases s i answer with hsame | ⟨key,-,hrefused⟩
  · rw [hsame]
  · rw [hrefused]
theorem settle_holders (answer : Option StoreError) : (s.settle i answer).holders=s.holders := by
  rcases settle_cases s i answer with hsame | ⟨key,-,hrefused⟩
  · rw [hsame]
  · rw [hrefused]

private theorem settle_refused_of_ne (answer : Option StoreError) (hj : j≠i) :
    (s.settle i answer).refused.lookup j=s.refused.lookup j := by
  rcases settle_cases s i answer with hsame | ⟨key,-,hrefused⟩
  · rw [hsame]
  · rw [hrefused]
    exact lookup_insert_ne hj

/-- What the others leave alone: the part of the history that concerns one call. -/
structure Keeps (i : Nat) (s s' : Slots) : Prop where
  holders : s'.holders.lookup i=s.holders.lookup i
  refused : s'.refused.lookup i=s.refused.lookup i
  keys : ∀ key, s.keys[i]?=some key → s'.keys[i]?=some key

theorem Keeps.refl (i : Nat) (s : Slots) : Keeps i s s := ⟨rfl,rfl,fun _ h => h⟩
theorem Keeps.trans {s'' : Slots} (h : Keeps i s s') (h' : Keeps i s' s'') : Keeps i s s'' :=
  ⟨h'.holders.trans h.holders,h'.refused.trans h.refused,fun key hk => h'.keys key (h.keys key hk)⟩

structure Steps (n : Int) (i : Nat) (s s' : Slots) : Prop where
  accounted : s.Accounted n → s'.Accounted n
  keys : s'.keys=s.keys
  holders : ∀ j, j≠i → s'.holders.lookup j=s.holders.lookup j
  refused : ∀ j, j≠i → s'.refused.lookup j=s.refused.lookup j

theorem Steps.refl (n : Int) (i : Nat) (s : Slots) : Steps n i s s :=
  ⟨id,rfl,fun _ _ => rfl,fun _ _ => rfl⟩

theorem Steps.keeps (h : Steps n i s s') (hj : i≠j) : Keeps j s s' where
  holders := h.holders j hj.symm
  refused := h.refused j hj.symm
  keys key hk := by
    rw [h.keys]
    exact hk

/-- A call of the given key, with the slot that it holds, before its settlement. -/
structure At (i : Nat) (key : String) (slot : Option String) (s : Slots) : Prop where
  holders : s.holders.lookup i=slot
  refused : s.refused.lookup i=none
  keys : s.keys[i]?=some key

theorem At.keeps {slot : Option String} (h : s.At i key slot) (hk : Keeps i s s') :
    s'.At i key slot :=
  ⟨hk.holders.trans h.holders,hk.refused.trans h.refused,hk.keys key h.keys⟩
end steps
private theorem keys_append {keys : List String} {i : Nat} {key : String} (h : keys[i]?=some key)
    (new : String) : (keys++[new])[i]?=some key := by
  obtain ⟨hlt,-⟩ := List.getElem?_eq_some_iff.mp h
  rw [List.getElem?_append_left hlt]
  exact h

structure Started (m : Nat) (s : Slots) : Prop where
  length : s.keys.length=m
  holders : ∀ i, m ≤ i → s.holders.lookup i=none
  refused : ∀ i, m ≤ i → s.refused.lookup i=none
end Slots
namespace RateLimiter
open Slots
variable {ρ : Type} (r : RateLimiter ρ)
def slotLogic : RelyGuarantee r.system where
  Inv := Accounted r.maxConcurrent
  Bound := Started
  Rely := Keeps
  Pre i op s := ∀ key, op=.free key → s.holders.lookup i=some key
  Guar := Steps r.maxConcurrent
  rely_refl := Keeps.refl
  rely_trans := Keeps.trans
  guar_inv h hg := hg.accounted h
  guar_rely hg hij := hg.keeps hij
  guar_bound h hi hg := by
    refine ⟨hg.keys ▸ h.length,fun j hj => ?_,fun j hj => ?_⟩
    · rw [hg.holders j (by omega)]
      exact h.holders j hj
    · rw [hg.refused j (by omega)]
      exact h.refused j hj
  spawn_inv h _ hs := by
    obtain ⟨request,-,rfl⟩ := hs
    refine ⟨h.occupied_eq,h.occupied_le,fun i key hi => ?_,fun i key hi => ?_⟩
    · exact keys_append (h.holder i key hi) _
    · exact keys_append (h.refusal i key hi) _
  spawn_bound h hs := by
    obtain ⟨request,-,rfl⟩ := hs
    refine ⟨?_,fun i hi => h.holders i (by omega),fun i hi => h.refused i (by omega)⟩
    rw [List.length_append,h.length]
    rfl
  spawn_rely hs _ := by
    obtain ⟨request,-,rfl⟩ := hs
    exact ⟨rfl,rfl,fun key hk => keys_append hk _⟩
  environment_inv _ he := he.elim
  environment_bound _ he := he.elim
  environment_rely he := he.elim

section routines
variable {r} {i : Nat} {s : Slots} {key : String} {slot : Option String} {once : Once}
variable {X : LimiterError → Once → Slots → Prop}
private theorem wp_quiet (op : LimiterOp) (hop : op.Quiet) {Q : op.Ans → Once → Slots → Prop}
    (h : s.At i key slot) (hq : ∀ answer s', s'.At i key slot → Q answer once s') :
    (r.slotLogic.of i).wp (call op) once s Q X := by
  intro s' hkeeps _
  constructor
  · rintro k rfl
    exact hop.elim
  · intro answer s'' hserves
    rw [serves_quiet hop hserves]
    exact ⟨Steps.refl _ i s',hq answer s' (h.keeps hkeeps)⟩

private theorem grab_steps (n : Int) (hkey : s.At i key none) (hroom : (s.occupied key : Int)<n) :
    Steps n i s (s.grab i key) where
  accounted h := h.grab hkey.keys hkey.holders hroom
  keys := rfl
  holders _ hj := grab_holders_of_ne hj
  refused _ _ := rfl

private theorem grab_at (hkey : s.At i key none) : (s.grab i key).At i key (some key) :=
  ⟨lookup_insert _,hkey.refused,hkey.keys⟩

private theorem wp_tryTake {Q : Bool → Once → Slots → Prop} (h : s.At i key none)
    (htaken : ∀ s', s'.At i key (some key) → Q true once s')
    (hfull : ∀ s', s'.At i key none → Q false once s') :
    (r.slotLogic.of i).wp (tryTake key) once s Q X := by
  intro s' hkeeps _
  have hat := h.keeps hkeeps
  constructor
  · intro k hk
    cases hk
  · intro answer s'' hserves
    cases hserves with
    | tryTaken room => exact ⟨grab_steps _ hat room,htaken _ (grab_at hat)⟩
    | tryFull full => exact ⟨Steps.refl _ i s',hfull s' hat⟩

private theorem wp_take {Q : Option ContextError → Once → Slots → Prop} (h : s.At i key none)
    (htaken : ∀ s', s'.At i key (some key) → Q none once s')
    (hended : ∀ cause s', s'.At i key none → Q (some cause) once s') :
    (r.slotLogic.of i).wp (take key) once s Q X := by
  intro s' hkeeps _
  have hat := h.keeps hkeeps
  constructor
  · intro k hk
    cases hk
  · intro answer s'' hserves
    cases hserves with
    | taken room => exact ⟨grab_steps _ hat room,htaken _ (grab_at hat)⟩
    | notTaken cause => exact ⟨Steps.refl _ i s',hended cause s' hat⟩

private theorem wp_free {Q : Unit → Once → Slots → Prop} (h : s.At i key (some key))
    (hq : ∀ s', s'.At i key none → Q () once s') :
    (r.slotLogic.of i).wp (free key) once s Q X := by
  intro s' hkeeps _
  have hat := h.keeps hkeeps
  constructor
  · intro k hk
    cases hk
    exact hat.holders
  · intro answer s'' hserves
    cases hserves
    constructor
    · exact ⟨fun hs => hs.free hat.holders,rfl,fun j hj => free_holders_of_ne hj,fun _ _ => rfl⟩
    · exact hq _ ⟨lookup_erase _ _,hat.refused,hat.keys⟩

private theorem settle_steps (n : Int) (s : Slots) (answer : Option StoreError) :
    Steps n i s (s.settle i answer) where
  accounted h := h.settle answer
  keys := settle_keys answer
  holders j _ := by rw [settle_holders]
  refused _ hj := settle_refused_of_ne answer hj

variable {Q : Option StoreError → Once → Slots → Prop}
section
variable (h : s.At i key slot)
  (hq : ∀ answer (s' : Slots), s'.At i key slot → Q answer once (s'.settle i answer))
include h hq
private theorem wp_storeCommit {id : String} {actual : Int} :
    (r.slotLogic.of i).wp (storeCommit id actual) once s Q X := by
  intro s' hkeeps _
  constructor
  · intro k hk
    cases hk
  · intro answer s'' hserves
    cases hserves
    exact ⟨settle_steps _ s' answer,hq answer s' (h.keeps hkeeps)⟩

theorem wp_storeRelease {id : String} : (r.slotLogic.of i).wp (storeRelease id) once s Q X := by
  intro s' hkeeps _
  constructor
  · intro k hk
    cases hk
  · intro answer s'' hserves
    cases hserves
    exact ⟨settle_steps _ s' answer,hq answer s' (h.keeps hkeeps)⟩
end
def Ended (i : Nat) (s : Slots) : Prop := s.holders.lookup i=s.refused.lookup i
private theorem ended_of_at (h : s.At i key none) : Ended i s := h.holders.trans h.refused.symm

theorem ended_of_refused (h : s.At i key slot) {err : StoreError} (herr : isTerminal err=false) :
    Ended i (s.settle i (some err)) := by
  have hnot : ¬isTerminal err=true := by
    rw [herr]
    exact Bool.false_ne_true
  unfold Slots.settle
  dsimp only
  rw [if_neg hnot]
  cases hkey : s.holders.lookup i with
  | none => exact hkey.trans h.refused.symm
  | some k =>
    show s.holders.lookup i=(s.refused.insert i k).lookup i
    rw [hkey,lookup_insert]

/-- A lease that has its call's slot and has not freed it yet. -/
structure Carries (i : Nat) (key : String) (lease : Lease) (once : Once) (s : Slots) : Prop where
  position : s.At i key lease.slot
  slot : ∀ k, lease.slot=some k → k=key
  unused : once.done=false

variable {lease : Lease}
private theorem wp_leaseRelease (h : Carries i key lease once s) :
    (r.slotLogic.of i).wp lease.release once s (fun _ _ s' => s'.At i key none) X := by
  have hat := h.position
  unfold Lease.release
  cases hslot : lease.slot with
  | none =>
    rw [hslot] at hat
    exact hat
  | some k =>
    rw [hslot,h.slot k hslot] at hat
    rw [h.slot k hslot,wp_bind,wp_get,h.unused,if_neg Bool.false_ne_true,wp_bind,wp_modify]
    apply wp_free hat
    intro s' hs'
    exact hs'

private theorem wp_release_throw (h : Carries i key lease once s) {α : Type} (err : LimiterError)
    {Q : α → Once → Slots → Prop} :
    (r.slotLogic.of i).wp (do lease.release; Routine.throw err) once s Q
      fun _ _ s' => s'.At i key none := by
  rw [wp_bind]
  apply wp_mono (wp_leaseRelease h (X := fun _ _ s' => s'.At i key none))
  · intro _ _ s' hs'
    exact hs'
  · intro _ _ s' hs'
    exact hs'

private theorem wp_takeSlot (h : s.At i key none) : (r.slotLogic.of i).wp (r.takeSlot key) once s
      (fun _ once' s' => once'=once ∧ s'.At i key (some key)) fun _ _ s' => s'.At i key none := by
  rw [takeSlot,wp_bind]
  apply wp_quiet .contextErr trivial h
  intro answer s1 h1
  cases answer with
  | some cause => exact h1
  | none =>
    cases r.overflowBehavior with
    | failFast =>
      rw [wp_bind]
      apply wp_tryTake h1
      · intro s2 h2
        exact ⟨rfl,h2⟩
      · intro s2 h2
        exact h2
    | block =>
      rw [wp_bind]
      apply wp_take h1
      · intro s2 h2
        rw [wp_bind]
        apply wp_quiet .contextErr trivial h2
        intro answer s3 h3
        cases answer with
        | none => exact ⟨rfl,h3⟩
        | some cause =>
          rw [wp_bind]
          apply wp_free h3
          intro s4 h4
          exact h4
      · intro cause s2 h2
        exact h2

theorem wp_pollStore (h : Carries i key lease once s) (reservation : Reservation) (rounds : Nat) :
    (r.slotLogic.of i).wp (r.pollStore lease reservation rounds) once s
      (fun lease once' s' => Carries i key lease once' s') fun _ _ s' => s'.At i key none := by
  induction rounds generalizing s with
  | zero =>
    intro s' _ _
    constructor
    · intro k hk
      cases hk
    · intro answer s'' hserves
      cases hserves
  | succ rounds ih =>
    rw [pollStore,wp_bind]
    apply wp_quiet (.storeReserve reservation) trivial h.position
    intro answer s1 h1
    have hcarries : Carries i key lease once s1 := ⟨h1,h.slot,h.unused⟩
    match answer with
    | .error err => exact wp_release_throw hcarries _
    | .ok true => exact hcarries
    | .ok false =>
      cases r.overflowBehavior with
      | failFast => exact wp_release_throw hcarries _
      | block =>
        rw [wp_bind]
        apply wp_quiet .wait trivial h1
        intro answer s2 h2
        have hcarries2 : Carries i key lease once s2 := ⟨h2,h.slot,h.unused⟩
        cases answer with
        | some cause => exact wp_release_throw hcarries2 _
        | none => exact ih hcarries2

variable {request : RateLimitRequest ρ}
theorem wp_reserve (hkey : request.key=key) (h : s.At i key none) (honce : once.done=false) :
    (r.slotLogic.of i).wp (r.reserve request) once s
      (fun lease once' s' => Carries i key lease once' s') fun _ _ s' => s'.At i key none := by
  subst hkey
  rw [reserve,wp_bind]
  apply wp_quiet .contextErr trivial h
  intro answer s1 h1
  cases answer with
  | some cause => exact h1
  | none =>
    rw [wp_bind]
    apply wp_quiet .leaseID trivial h1
    intro answer s2 h2
    match answer with
    | .error message => exact h2
    | .ok id =>
      rw [wp_bind]
      apply wp_quiet .polls trivial h2
      intro rounds s3 h3
      split
      · rw [wp_bind]
        apply wp_mono (wp_takeSlot h3)
        · rintro _ _ s4 ⟨rfl,h4⟩
          exact wp_pollStore ⟨h4,fun k hk => (Option.some.inj hk).symm,honce⟩ _ _
        · intro _ _ s4 h4
          exact h4
      · exact wp_pollStore ⟨h3,(fun k hk => by cases hk),honce⟩ _ _

private theorem wp_settled (h : Carries i key lease once s) (answer : Option StoreError) :
    (r.slotLogic.of i).wp (settled lease answer) once (s.settle i answer)
      (fun _ _ s' => Ended i s') X := by
  have hreleased : ∀ answer : Option StoreError, (r.slotLogic.of i).wp
      (do lease.release; pure answer) once s (fun _ _ s' => Ended i s') X := by
    intro answer
    rw [wp_bind]
    apply wp_mono (wp_leaseRelease h)
    · intro _ _ s' hs'
      exact ended_of_at hs'
    · intro _ _ _ hx
      exact hx
  unfold settled
  cases answer with
  | none => exact hreleased none
  | some err =>
    cases hterminal : isTerminal err with
    | true =>
      have hsame : s.settle i (some err)=s := if_pos hterminal
      dsimp only
      rw [hsame,if_pos hterminal]
      exact hreleased (some err)
    | false =>
      dsimp only
      rw [hterminal,if_neg Bool.false_ne_true]
      exact ended_of_refused h.position hterminal

theorem wp_callProvider (h : s.At i request.key none) :
    (r.slotLogic.of i).wp (r.callProvider request) {} s (fun _ _ s' => Ended i s')
      fun _ _ s' => Ended i s' := by
  rw [callProvider,wp_bind]
  apply wp_mono (wp_reserve rfl h rfl)
  · intro lease once s1 h1
    rw [wp_bind]
    apply wp_quiet .stream trivial h1.position
    intro answer s2 h2
    match answer with
    | .ok usage =>
      rw [wp_bind,commit,wp_bind]
      apply wp_storeCommit h2
      intro answer s3 h3
      apply wp_mono (wp_settled ⟨h3,h1.slot,h1.unused⟩ answer)
      · intro result _ s4 h4
        cases result with
        | none | some err => exact h4
      · intro _ _ _ hx
        exact hx
    | .error message =>
      rw [wp_bind,release,wp_bind]
      apply wp_storeRelease h2
      intro answer s3 h3
      apply wp_mono (wp_settled ⟨h3,h1.slot,h1.unused⟩ answer)
      · intro result _ s4 h4
        cases result with
        | none | some err => exact h4
      · intro _ _ _ hx
        exact hx
  · intro _ _ s1 h1
    exact ended_of_at h1
end routines
section calls
variable {r} {pool : Pool LimiterEffects Slots (Except LimiterError Int×Once)}
private theorem safe_spawned {m : Nat} {p : Program LimiterEffects (Except LimiterError Int×Once)}
    {s' : Slots} (hstarted : s.Started m) (hspawn : r.system.Spawn m p s s') :
    (r.slotLogic.of m).Safe p (fun _ t => Ended m t) s' := by
  obtain ⟨request,rfl,rfl⟩ := hspawn
  have hat : At m request.key none { s with keys := s.keys++[request.key] } := by
    refine ⟨hstarted.holders m (Nat.le_refl m),hstarted.refused m (Nat.le_refl m),?_⟩
    rw [List.getElem?_append_right (Nat.le_of_eq hstarted.length),hstarted.length,Nat.sub_self]
    rfl
  apply (wp_callProvider hat).mono
  rintro ⟨_ | _,_⟩ t ht
  · exact ht
  · exact ht

private theorem accounted_empty {n : Int} (hn : 0≤n) : Slots.empty.Accounted n where
  occupied_eq _ := rfl
  occupied_le _ := hn
  holder _ _ h := by cases h
  refusal _ _ h := by cases h

private theorem started_empty : Slots.empty.Started 0 := ⟨rfl,fun _ _ => rfl,fun _ _ => rfl⟩

theorem ended_of_done (hn : 0≤r.maxConcurrent) (h : r.system.Reachable .empty pool) {i : Nat}
    {out : Except LimiterError Int×Once} (hi : pool.workers[i]?=some (some (.done out))) :
    Ended i pool.shared := by
  apply r.slotLogic.reachable_done (fun i _ s => Ended i s) _ _ (accounted_empty hn) started_empty
    h hi
  · intro j _ s s' hended hkeeps
    exact (hkeeps.holders.trans hended).trans hkeeps.refused.symm
  · intro m p s s' _ hstarted hspawn
    exact safe_spawned hstarted hspawn

/-- At most the allowed number of slots is taken, a call frees only the slot that it holds, and
when all calls of a key have returned its slots are free exactly if the store left none of their
leases unsettled. -/
theorem slots_freed_iff (hn : 0≤r.maxConcurrent) (h : r.system.Reachable .empty pool) :
    (∀ key, (pool.shared.occupied key : Int)≤r.maxConcurrent) ∧
    (∀ (i : Nat) key next, pool.workers[i]?=some (some (.call (.free key) next)) →
      pool.shared.holders.lookup i=some key) ∧
    ∀ key, (∀ i : Nat, pool.shared.keys[i]?=some key →
        ∃ out, pool.workers[i]?=some (some (.done out))) →
      (pool.shared.occupied key=0 ↔ ∀ i, pool.shared.refused.lookup i≠some key) := by
  have hsafe : ∀ {m p s s'}, r.slotLogic.Inv s → r.slotLogic.Bound m s → r.system.Spawn m p s s' →
      (r.slotLogic.of m).Safe p (fun _ _ => True) s' := by
    intro m p s s' _ hstarted hspawn
    exact (safe_spawned hstarted hspawn).mono fun _ _ _ => trivial
  have hinv : pool.shared.Accounted r.maxConcurrent :=
    r.slotLogic.reachable_inv hsafe (accounted_empty hn) started_empty h
  refine ⟨hinv.occupied_le,?_,?_⟩
  · intro i key next hi
    exact r.slotLogic.reachable_pre hsafe (accounted_empty hn) started_empty h hi key rfl
  · intro key hdone
    constructor
    · intro hzero i hrefused
      obtain ⟨out,hout⟩ := hdone i (hinv.refusal i key hrefused)
      have hholds := (ended_of_done hn h hout).trans hrefused
      have hpos := hinv.occupied_pos hholds
      omega
    · intro hnone
      have hheld : pool.shared.held key=0 := by
        apply total_eq_zero
        intro i k hk
        apply if_neg
        rintro rfl
        obtain ⟨out,hout⟩ := hdone i (hinv.holder i k hk)
        exact hnone i ((ended_of_done hn h hout).symm.trans hk)
      have heq := hinv.occupied_eq key
      omega
end calls
def script (settlement : Option StoreError) (op : LimiterOp) (s : Slots) :
    Option (op.Ans×Slots) :=
  match op with
  | .contextErr => some (none,s)
  | .leaseID => some (.ok "lease",s)
  | .polls => some ((0 : Nat),s)
  | .tryTake key => if (s.occupied key : Int)<1 then some (true,s.grab 0 key) else none
  | .storeReserve _ => some (.ok true,s)
  | .stream => some (.ok 3,s)
  | .storeCommit _ _ => some (settlement,s.settle 0 settlement)
  | .free key => some ((),s.free 0 key)
  | _ => none

private theorem serves_script {settlement : Option StoreError} {op : LimiterOp} {s' : Slots}
    {answer : op.Ans} (h : script settlement op s=some (answer,s')) :
    Serves 1 0 s op answer s' := by
  cases op with
  | contextErr =>
    cases h
    exact .contextErr _
  | leaseID =>
    cases h
    exact .leaseID _
  | polls =>
    cases h
    exact .polls _
  | tryTake key =>
    have htry : (if (s.occupied key : Int)<1 then some (true,s.grab 0 key) else none) =
        some (answer,s') := h
    by_cases hroom : (s.occupied key : Int)<1
    · rw [if_pos hroom] at htry
      cases htry
      exact .tryTaken hroom
    · rw [if_neg hroom] at htry
      cases htry
  | storeReserve reservation =>
    cases h
    exact .storeReserve _
  | stream =>
    cases h
    exact .stream _
  | storeCommit id actual =>
    cases h
    exact .storeCommit _
  | free key =>
    cases h
    exact .freed
  | take key | storeRelease id | wait | forever => cases h

def oneSlot : RateLimiter Unit := { maxConcurrent := 1, maxConcurrentSet := true }

theorem reachable_one_call (settlement : Option StoreError) : oneSlot.system.Reachable .empty
      ⟨((oneSlot.callProvider ⟨"key",(),none⟩ {}).drive (script settlement) 9
          { Slots.empty with keys := ["key"] }).2,
        [some ((oneSlot.callProvider ⟨"key",(),none⟩ {}).drive (script settlement) 9
          { Slots.empty with keys := ["key"] }).1]⟩ := by
  have hspawn : oneSlot.system.Reachable .empty
      ⟨{ Slots.empty with keys := ["key"] },[some (oneSlot.callProvider ⟨"key",(),none⟩ {})]⟩ :=
    Relation.ReflTransGen.single (.spawn ⟨⟨"key",(),none⟩,rfl,rfl⟩)
  exact hspawn.runs (i := 0) rfl (Program.runs_drive serves_script 9 _ _)

theorem slots_freed_one_call : ∃ pool, oneSlot.system.Reachable .empty pool ∧
    (∃ once, pool.workers=[some (.done (.ok 3,once))]) ∧ pool.shared.occupied "key"=0 := by
  refine ⟨_,reachable_one_call none,⟨_,rfl⟩,?_⟩
  apply ((slots_freed_iff (by decide) (reachable_one_call none)).2.2 "key" _).mpr
  · intro i hrefused
    cases hrefused
  · intro i hi
    cases i with
    | zero => exact ⟨_,rfl⟩
    | succ i => cases hi

theorem slot_leaks_on_failed_commit :
    newRateLimiter (fun _ => .ok 0) LimitKind.all [.maxConcurrent 1]=.ok oneSlot ∧
    ∃ pool, oneSlot.system.Reachable .empty pool ∧
      (∃ once, pool.workers=[some (.done (.error (.store (.other "unavailable")),once))]) ∧
      pool.shared.occupied "key"=1 :=
  ⟨rfl,_,reachable_one_call (some (.other "unavailable")),⟨_,rfl⟩,rfl⟩
end RateLimiter
end GudeAgents.RateLimit
