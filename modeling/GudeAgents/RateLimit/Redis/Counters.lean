import GudeAgents.RateLimit.Redis.Store
/-!
# Counters of the Redis store

The total never falls below the sum of the amounts in the window.
-/
namespace GudeAgents.RateLimit.Redis
open Framework List FiniteMap Expiring
private theorem mem_upTo {set : FiniteMap String Int} {cutoff : Int} {m : String} :
    m∈upTo set cutoff ↔ ∃ score, set.lookup m=some score ∧ score≤cutoff := by
  constructor
  · intro h
    obtain ⟨⟨m',score⟩,he,rfl⟩ := mem_map.mp h
    obtain ⟨hmem,hle⟩ := mem_filter.mp he
    exact ⟨score,mem_entries_iff.mp hmem,of_decide_eq_true hle⟩
  · rintro ⟨score,hlookup,hle⟩
    apply mem_map.mpr
    refine ⟨⟨m,score⟩,?_,rfl⟩
    exact mem_filter.mpr ⟨mem_entries_iff.mpr hlookup,decide_eq_true hle⟩

namespace TokenKeys
def Idle (x : TokenKeys) (window now : Int) : Prop := ∀ t∈x.active, t+window<now

instance (x : TokenKeys) (window now : Int) : Decidable (x.Idle window now) :=
  inferInstanceAs (Decidable (∀ t∈x.active, t+window<now))

def used (x : TokenKeys) (now : Int) : Int :=
  FiniteMap.weigh (x.members.entries now) (x.amounts.entries now)

theorem Idle.later {x : TokenKeys} {window now later : Int} (h : x.Idle window now)
    (hle : now≤later) : x.Idle window later := by
  intro t ht
  have hlt := h t ht
  omega

/-- What is kept while the counter is not idle is kept from any later time on. -/
private theorem entries_later {β : Type} {x : TokenKeys} {window last now : Int}
    {f : Int → FiniteMap String β}
    (h : ∀ now, last≤now → f now=if x.Idle window now then ∅ else f last) (hle : last≤now)
    (later : Int) (hlater : now≤later) : f later=if x.Idle window later then ∅ else f now := by
  rw [h later (Int.le_trans hle hlater),h now hle]
  by_cases hidle : x.Idle window now
  · rw [if_pos hidle,if_pos (hidle.later hlater),ite_self]
  · rw [if_neg hidle]

/-- Only members of the counter have an amount, and none is negative. -/
structure Paired (x : TokenKeys) (now : Int) : Prop where
  paired : ∀ m, (x.members.entries now).lookup m=none → (x.amounts.entries now).lookup m=none
  nonneg : ∀ m a, (x.amounts.entries now).lookup m=some a → 0≤a

namespace Paired
variable {x : TokenKeys} {now : Int} (h : x.Paired now)
include h
theorem used_nonneg : 0≤x.used now := weigh_nonneg h.nonneg

theorem amount_le_used (id : String) : 0≤x.amount now id ∧ x.amount now id≤x.used now := by
  unfold amount
  cases hm : (x.members.entries now).lookup id with
  | none =>
    rw [h.paired id hm]
    exact ⟨Int.le_refl 0,h.used_nonneg⟩
  | some score =>
    constructor
    · cases ha : (x.amounts.entries now).lookup id with
      | none => exact Int.le_refl 0
      | some a => exact h.nonneg id a ha
    · exact le_weigh h.nonneg hm
end Paired
structure Kept (x : TokenKeys) (window last : Int) : Prop extends x.Paired last where
  members : ∀ now, last≤now →
    x.members.entries now=if x.Idle window now then ∅ else x.members.entries last
  amounts : ∀ now, last≤now →
    x.amounts.entries now=if x.Idle window now then ∅ else x.amounts.entries last
  scores : ∀ m score, (x.members.entries last).lookup m=some score → ∃ t∈x.active, score≤t
  dated : ∀ c, x.total=some c → c.deadline=none ∨ ∃ t∈x.active, c.deadline=some (t+window)
  past : ∀ t∈x.active, t≤last
  covers : x.used last≤x.sum last

namespace Kept
variable {x : TokenKeys} {window last now : Int}
section
variable (h : x.Kept window last)
include h
theorem used_eq (hle : last≤now) : x.used now=if x.Idle window now then 0 else x.used last := by
  rw [used,h.members now hle,h.amounts now hle]
  split <;> rfl

theorem sum_eq (hle : last≤now) : x.sum now=x.sum last ∨ (x.Idle window now ∧ x.sum now=0) := by
  cases hx : x.total with
  | none =>
    left
    simp [sum,hx]
  | some c =>
    obtain ⟨value,deadline⟩ := c
    rcases h.dated _ hx with hnone | ⟨t,ht,hsome⟩
    · left
      cases hnone
      simp [sum,hx,get_some,Cell.live]
    · cases hsome
      by_cases hnow : now≤t+window
      · left
        have hlast : last≤t+window := Int.le_trans hle hnow
        rw [sum,sum,hx,get_dated,get_dated,if_pos hnow,if_pos hlast]
      · right
        constructor
        · intro t' ht'
          rw [ht] at ht'
          cases ht'
          omega
        · rw [sum,hx,get_dated,if_neg hnow]
          rfl

theorem later (hle : last≤now) : x.Kept window now where
  members := entries_later h.members hle
  amounts := entries_later h.amounts hle
  paired m hm := by
    rw [h.members now hle] at hm
    rw [h.amounts now hle]
    split
    · rfl
    · rename_i hidle
      rw [if_neg hidle] at hm
      exact h.paired m hm
  nonneg m a hm := by
    rw [h.amounts now hle] at hm
    split at hm
    · cases hm
    · exact h.nonneg m a hm
  scores m score hm := by
    rw [h.members now hle] at hm
    split at hm
    · cases hm
    · exact h.scores m score hm
  dated := h.dated
  past t ht := Int.le_trans (h.past t ht) hle
  covers := by
    have hnonneg := h.used_nonneg
    have hcovers := h.covers
    rw [h.used_eq hle]
    rcases h.sum_eq hle with heq | ⟨hidle,heq⟩
    · rw [heq]
      split <;> omega
    · rw [if_pos hidle,heq]
end
end Kept
section prune
variable {x : TokenKeys} {window now : Int}
theorem pruneMember_members {later : Int} (hle : now≤later) (y : TokenKeys×Int) (m : String) :
    (pruneMember now y m).1.members.entries later=(y.1.members.entries later).erase m :=
  entries_remove hle m
theorem pruneMember_amounts {later : Int} (hle : now≤later) (y : TokenKeys×Int) (m : String) :
    (pruneMember now y m).1.amounts.entries later=(y.1.amounts.entries later).erase m :=
  entries_remove hle m

private theorem foldl_pruneMember_keys (now : Int) (due : List String) (y : TokenKeys×Int) :
    (∀ later, now≤later → (due.foldl (pruneMember now) y).1.members.entries later =
        due.foldl (fun m key => m.erase key) (y.1.members.entries later)) ∧
      (∀ later, now≤later → (due.foldl (pruneMember now) y).1.amounts.entries later =
        due.foldl (fun m key => m.erase key) (y.1.amounts.entries later)) ∧
      (due.foldl (pruneMember now) y).1.active=y.1.active := by
  induction due generalizing y with
  | nil => exact ⟨fun _ _ => rfl,fun _ _ => rfl,rfl⟩
  | cons m rest ih =>
    obtain ⟨hmembers,hamounts,hactive⟩ := ih (pruneMember now y m)
    refine ⟨?_,?_,hactive⟩
    · intro later hle
      rw [foldl_cons,hmembers later hle,pruneMember_members hle,foldl_cons]
    · intro later hle
      rw [foldl_cons,hamounts later hle,pruneMember_amounts hle,foldl_cons]

theorem Paired.pruneMember {y : TokenKeys×Int} (h : y.1.Paired now) (m : String) :
    (pruneMember now y m).1.Paired now := by
  constructor
  · intro k hk
    rw [pruneMember_members (Int.le_refl now)] at hk
    rw [pruneMember_amounts (Int.le_refl now)]
    by_cases hkm : k=m
    · subst hkm
      exact AList.lookup_erase _ _
    · rw [AList.lookup_erase_ne hkm] at hk ⊢
      exact h.paired k hk
  · intro k a ha
    rw [pruneMember_amounts (Int.le_refl now)] at ha
    exact h.nonneg k a (of_lookup_erase ha).2

private theorem foldl_pruneMember_sum (due : List String) (y : TokenKeys×Int) (h : y.1.Paired now)
    (hcovers : y.1.used now≤y.2) (hexact : y.2<2^53) :
    (due.foldl (pruneMember now) y).2-(due.foldl (pruneMember now) y).1.used now =
      y.2-y.1.used now := by
  induction due generalizing y with
  | nil => rfl
  | cons m rest ih =>
    have hmembers := pruneMember_members (Int.le_refl now) y m
    have hamounts := pruneMember_amounts (Int.le_refl now) y m
    have hused : (pruneMember now y m).1.used now=y.1.used now-y.1.amount now m := by
      rw [used,hmembers,hamounts]
      exact weigh_erase (h.paired m)
    have hamount := h.amount_le_used m
    have hsum : (pruneMember now y m).2=y.2-y.1.amount now m := toFloat64_eq (by omega)
    rw [foldl_cons,ih _ (h.pruneMember m) (by omega) (by omega),hused,hsum]
    omega

def due (x : TokenKeys) (now window : Int) : List String :=
  upTo (x.members.entries now) (now-window-1)

theorem prune_members {later : Int} (hle : now≤later) : (x.prune now window).members.entries later =
      (x.due now window).foldl (fun m key => m.erase key) (x.members.entries later) :=
  (foldl_pruneMember_keys now _ _).1 later hle
theorem prune_amounts {later : Int} (hle : now≤later) : (x.prune now window).amounts.entries later =
      (x.due now window).foldl (fun m key => m.erase key) (x.amounts.entries later) :=
  (foldl_pruneMember_keys now _ _).2.1 later hle
@[simp] theorem prune_active : (x.prune now window).active=x.active :=
  (foldl_pruneMember_keys now _ _).2.2

private theorem prune_idle {later : Int} :
    (x.prune now window).Idle window later ↔ x.Idle window later := by
  rw [Idle,prune_active]
  rfl

theorem eraseAll_ite {β : Type} {later : Int} {keys : List String} {m : FiniteMap String β} :
    keys.foldl (fun m key => m.erase key) (if x.Idle window later then ∅ else m) =
      if (x.prune now window).Idle window later then ∅
      else keys.foldl (fun m key => m.erase key) m := by
  by_cases hidle : x.Idle window later
  · rw [if_pos hidle,if_pos (prune_idle.mpr hidle),eraseAll_empty]
  · rw [if_neg hidle,if_neg (fun hpruned => hidle (prune_idle.mp hpruned))]

theorem mem_due {m : String} : m∈x.due now window ↔
    ∃ score, (x.members.entries now).lookup m=some score ∧ score+window<now := by
  rw [due,mem_upTo]
  constructor
  · rintro ⟨score,hlookup,hle⟩
    exact ⟨score,hlookup,by omega⟩
  · rintro ⟨score,hlookup,hlt⟩
    exact ⟨score,hlookup,by omega⟩

theorem prune_members_lookup (m : String) : ((x.prune now window).members.entries now).lookup m =
    if m∈x.due now window then none else (x.members.entries now).lookup m := by
  rw [prune_members (Int.le_refl now),lookup_eraseAll]
theorem prune_amounts_lookup (m : String) : ((x.prune now window).amounts.entries now).lookup m =
    if m∈x.due now window then none else (x.amounts.entries now).lookup m := by
  rw [prune_amounts (Int.le_refl now),lookup_eraseAll]

theorem Paired.prune (h : x.Paired now) : (x.prune now window).Paired now := by
  constructor
  · intro m hm
    rw [prune_members_lookup] at hm
    rw [prune_amounts_lookup]
    split at hm
    · next hdue => exact if_pos hdue
    · next hdue => exact (if_neg hdue).trans (h.paired m hm)
  · intro m a hm
    rw [prune_amounts_lookup] at hm
    split at hm
    · cases hm
    · exact h.nonneg m a hm

namespace Kept
section
variable (h : x.Kept window now)
include h
theorem prune_sum (hexact : x.sum now<2^53) (later : Int) :
    (x.prune now window).sum later=x.sum now-x.used now+(x.prune now window).used now := by
  obtain ⟨y,hy⟩ : ∃ y, y=(x.due now window).foldl (pruneMember now)
    (x,toFloat64 (x.sum now)) := ⟨_,rfl⟩
  have hdiff : y.2-y.1.used now=x.sum now-x.used now := by
    have hround : toFloat64 (x.sum now)=x.sum now :=
      toFloat64_eq (by have := h.used_nonneg; have := h.covers; omega)
    rw [hy,hround]
    exact foldl_pruneMember_sum _ _ h.toPaired h.covers hexact
  have hused : (x.prune now window).used now=y.1.used now := by
    rw [hy]
    rfl
  have hsum : (x.prune now window).sum later=if y.2<0 then 0 else y.2 := by
    rw [hy]
    rfl
  have hnonneg : 0≤(x.prune now window).used now := h.toPaired.prune.used_nonneg
  have hcovers := h.covers
  omega

theorem prune (hexact : x.sum now<2^53) : (x.prune now window).Kept window now where
  members later hle := by
    rw [prune_members hle,prune_members (Int.le_refl now),h.members later hle,eraseAll_ite]
  amounts later hle := by
    rw [prune_amounts hle,prune_amounts (Int.le_refl now),h.amounts later hle,eraseAll_ite]
  toPaired := h.toPaired.prune
  scores m score hm := by
    rw [prune_members_lookup] at hm
    rw [prune_active]
    split at hm
    · cases hm
    · exact h.scores m score hm
  dated c hc := by
    cases hc
    exact Or.inl rfl
  past t ht := by
    rw [prune_active] at ht
    exact h.past t ht
  covers := by
    have hcovers := h.covers
    rw [h.prune_sum hexact]
    omega
end
end Kept
end prune
section record
def record (x : TokenKeys) (now window : Int) (id : String) (amount total : Int) : TokenKeys :=
  { members := some ⟨(x.members.entries now).insert id now,some (now+window)⟩
    amounts := some ⟨(x.amounts.entries now).insert id amount,some (now+window)⟩
    total := some ⟨total,some (now+window)⟩
    active := some now }

theorem enter_eq (x : TokenKeys) (now window : Int) (id : String) (amount : Int) :
    x.enter now window id amount=x.record now window id amount (x.sum now+amount) := by
  simp only [enter,record,expireAt_put]

def charge (x : TokenKeys) (now : Int) (id : String) (actual : Int) : Int :=
  if actual<0 then x.amount now id else actual

variable {x : TokenKeys} {window now : Int} {id : String} {amount total : Int}
private theorem record_idle {later : Int} :
    (x.record now window id amount total).Idle window later ↔ now+window<later := by
  constructor
  · intro h
    exact h now rfl
  · intro h t ht
    cases ht
    exact h

theorem record_ite {β : Type} {later : Int} {a b : β} : (if later≤now+window then a else b) =
    if (x.record now window id amount total).Idle window later then b else a := by
  by_cases hlater : later≤now+window
  · rw [if_pos hlater,if_neg (fun hidle => absurd (record_idle.mp hidle) (by omega))]
  · rw [if_neg hlater,if_pos (record_idle.mpr (by omega))]

theorem record_members (hwindow : 0≤window) :
    (x.record now window id amount total).members.entries now =
      (x.members.entries now).insert id now := by
  rw [record,entries_dated,if_pos (by omega)]
theorem record_amounts (hwindow : 0≤window) :
    (x.record now window id amount total).amounts.entries now =
      (x.amounts.entries now).insert id amount := by
  rw [record,entries_dated,if_pos (by omega)]
private theorem record_sum {later : Int} : (x.record now window id amount total).sum later =
    if later≤now+window then total else 0 := by
  rw [sum,record,get_dated]
  split <;> rfl

namespace Kept
section
variable (h : x.Kept window now)
include h
private theorem record_used (hwindow : 0≤window) :
    (x.record now window id amount total).used now=x.used now-x.amount now id+amount := by
  rw [used,record_members hwindow,record_amounts hwindow]
  exact weigh_insert (h.paired id) now amount

theorem record (hwindow : 0≤window) (hamount : 0≤amount)
    (htotal : x.sum now-x.amount now id+amount≤total) :
    (x.record now window id amount total).Kept window now where
  members later hle := by
    rw [record_members hwindow,← record_ite,TokenKeys.record,entries_dated]
  amounts later hle := by
    rw [record_amounts hwindow,← record_ite,TokenKeys.record,entries_dated]
  paired m hm := by
    rw [record_members hwindow] at hm
    rw [record_amounts hwindow]
    by_cases hid : m=id
    · subst hid
      rw [AList.lookup_insert] at hm
      cases hm
    · rw [AList.lookup_insert_ne hid] at hm ⊢
      exact h.paired m hm
  nonneg m a hm := by
    rw [record_amounts hwindow] at hm
    rcases of_lookup_insert hm with ⟨-,rfl⟩ | ⟨-,hold⟩
    · exact hamount
    · exact h.nonneg m a hold
  scores m score hm := by
    rw [record_members hwindow] at hm
    refine ⟨now,rfl,?_⟩
    rcases of_lookup_insert hm with ⟨-,rfl⟩ | ⟨-,hold⟩
    · exact Int.le_refl now
    · obtain ⟨t,ht,hle⟩ := h.scores m score hold
      exact Int.le_trans hle (h.past t ht)
  dated c hc := by
    cases hc
    exact Or.inr ⟨now,rfl,rfl⟩
  past t ht := by
    cases ht
    exact Int.le_refl now
  covers := by
    have hcovers := h.covers
    rw [h.record_used hwindow,record_sum,if_pos (by omega)]
    omega

theorem charge_nonneg (actual : Int) : 0≤x.charge now id actual := by
  unfold charge
  split
  · exact (h.amount_le_used id).1
  · omega

theorem settle_eq {actual : Int} (hexact : x.sum now<2^53) (hactual : x.sum now+actual<2^53) :
    x.settle now window id actual=x.record now window id (x.charge now id actual)
      (x.sum now-x.amount now id+x.charge now id actual) := by
  obtain ⟨hold,hle⟩ := h.amount_le_used id
  have hcovers := h.covers
  have hcharge : 0≤x.charge now id actual ∧
      x.sum now-x.amount now id+x.charge now id actual<2^53 := by
    unfold charge
    split <;> omega
  have hsum : toFloat64 (toFloat64 (toFloat64 (x.sum now)-x.amount now id) +
      x.charge now id actual)=x.sum now-x.amount now id+x.charge now id actual := by
    rw [toFloat64_eq (n := x.sum now) (by omega),
      toFloat64_eq (n := x.sum now-x.amount now id) (by omega),toFloat64_eq (by omega)]
  simp only [settle,TokenKeys.record,expireAt_put]
  rw [← charge,hsum,if_neg (by omega)]
  rfl
end
end Kept
end record
section balance
variable {x : TokenKeys} {window last now : Int}
/-- The counter is idle, but a positive total without an expiry is left. -/
def Overdue (x : TokenKeys) (window now : Int) : Prop :=
  x.Idle window now ∧ ∃ c, x.total=some c ∧ c.deadline=none ∧ 0<c.value

/-- From `last` on, the total is the sum of the amounts unless the counter is overdue. -/
def Balanced (x : TokenKeys) (window last : Int) : Prop :=
  ∀ now, last≤now → ¬x.Overdue window now → x.sum now=x.used now

theorem Balanced.later (h : x.Balanced window last) (hle : last≤now) : x.Balanced window now :=
  fun later hlater => h later (Int.le_trans hle hlater)

theorem Balanced.prune (h : x.Balanced window now) (hkept : x.Kept window now)
    (hexact : x.sum now<2^53) (hdue : ¬x.Overdue window now) :
    (x.prune now window).Balanced window now := by
  intro later hle hlater
  have heq := h now (Int.le_refl now) hdue
  have hsum := hkept.prune_sum hexact later
  rw [(hkept.prune hexact).used_eq hle]
  by_cases hidle : (x.prune now window).Idle window later
  · rw [if_pos hidle]
    by_contra hne
    apply hlater
    refine ⟨hidle,_,rfl,rfl,?_⟩
    have hnonneg := (hkept.prune hexact).used_nonneg
    have hpos : 0<(x.prune now window).sum later := by omega
    exact hpos
  · rw [if_neg hidle]
    omega

theorem Kept.balanced_record {id : String} {amount : Int} (hkept : x.Kept window now)
    (hwindow : 0≤window) (hsum : x.sum now=x.used now) (hamount : 0≤amount) :
    (x.record now window id amount (x.sum now-x.amount now id+amount)).Balanced window now := by
  intro later hle _
  rw [(hkept.record hwindow hamount (Int.le_refl _)).used_eq hle,hkept.record_used hwindow,
    record_sum,record_ite,hsum]

theorem Kept.sum_prune_of_idle (hkept : x.Kept window now) (hbalanced : x.Balanced window now)
    (hidle : x.Idle window now) (hdue : ¬x.Overdue window now) :
    (x.prune now window).sum now=0 := by
  have heq := hbalanced now (Int.le_refl now) hdue
  have hused := hkept.used_eq (Int.le_refl now)
  rw [if_pos hidle] at hused
  have hexact : x.sum now<2^53 := by omega
  have hpruned := (hkept.prune hexact).used_eq (Int.le_refl now)
  rw [if_pos (prune_idle.mpr hidle)] at hpruned
  rw [hkept.prune_sum hexact]
  omega
end balance
end TokenKeys
namespace RequestKey
variable {x : RequestKey} {window last now : Int}
def Idle (x : RequestKey) (window now : Int) : Prop := ∀ t∈x.active, t+window<now

instance (x : RequestKey) (window now : Int) : Decidable (x.Idle window now) :=
  inferInstanceAs (Decidable (∀ t∈x.active, t+window<now))

structure Kept (x : RequestKey) (last : Int) : Prop where
  scores : ∀ now, last≤now → ∀ m score, (x.members.entries now).lookup m=some score →
    ∃ t∈x.active, score≤t
  past : ∀ t∈x.active, t≤last

theorem prune_members {later : Int} (hle : now≤later) : (x.prune now window).members.entries later =
      (upTo (x.members.entries now) (now-window-1)).foldl (fun m key => m.erase key)
        (x.members.entries later) :=
  entries_removeAll hle _ _

namespace Kept
theorem later (h : x.Kept last) (hle : last≤now) : x.Kept now where
  scores later hlater := h.scores later (Int.le_trans hle hlater)
  past t ht := Int.le_trans (h.past t ht) hle

theorem prune (h : x.Kept now) : (x.prune now window).Kept now where
  scores later hle m score hm := by
    rw [prune_members hle,lookup_eraseAll] at hm
    split at hm
    · cases hm
    · exact h.scores later hle m score hm
  past := h.past

theorem enter (h : x.Kept now) (id : String) : (x.enter now window id).Kept now where
  scores later hle m score hm := by
    refine ⟨now,rfl,?_⟩
    rw [RequestKey.enter,expireAt_put,entries_dated] at hm
    split at hm
    · rcases of_lookup_insert hm with ⟨-,rfl⟩ | ⟨-,hold⟩
      · exact Int.le_refl now
      · obtain ⟨t,ht,hscore⟩ := h.scores now (Int.le_refl now) m score hold
        exact Int.le_trans hscore (h.past t ht)
    · cases hm
  past t ht := by
    cases ht
    exact Int.le_refl now

theorem card_prune_of_idle (h : x.Kept now) (hidle : x.Idle window now) :
    (x.prune now window).card now=0 := by
  have hempty : (x.prune now window).members.entries now=∅ := by
    apply eq_empty_of_lookup
    intro m
    rw [prune_members (Int.le_refl now),lookup_eraseAll]
    cases hm : (x.members.entries now).lookup m with
    | none => exact ite_self _
    | some score =>
      apply if_pos
      obtain ⟨t,ht,hle⟩ := h.scores now (Int.le_refl now) m score hm
      have hlt := hidle t ht
      exact mem_upTo.mpr ⟨score,hm,by omega⟩
  rw [card,hempty]
  rfl
end Kept
end RequestKey
end GudeAgents.RateLimit.Redis
