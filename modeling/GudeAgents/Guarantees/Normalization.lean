import Mathlib.Data.List.SplitBy
import GudeAgents.Guarantees.Requests
/-!
# What normalization keeps

`NormalizeMessages` makes any transcript alternate.
-/
namespace GudeAgents
open List Message
def sameRole (m m' : Message) : Bool := m.role == m'.role
/-- The last message of each run of messages of one role. -/
def lastOfRuns (messages : List Message) : List Message :=
  (messages.splitBy sameRole).filterMap List.getLast?

theorem splitBy_cons_cons {α : Type} {r : α → α → Bool} {a b : α} (l : List α) (h : r a b = true) :
    ∃ g gs, (b :: l).splitBy r = g :: gs ∧ g ≠ [] ∧ (a :: b :: l).splitBy r = (a :: g) :: gs := by
  obtain ⟨hflatten,hnil,hchains,hbreaks⟩ := splitBy_eq_iff.mp (rfl : (b :: l).splitBy r = _)
  cases hsplit : (b :: l).splitBy r with
  | nil => rw [splitBy_eq_nil] at hsplit; cases hsplit
  | cons g gs =>
    rw [hsplit] at hflatten hnil hchains hbreaks
    cases g with
    | nil => exact absurd mem_cons_self hnil
    | cons b' g =>
      rw [flatten_cons,cons_append,List.cons.injEq] at hflatten
      obtain ⟨rfl,hflatten⟩ := hflatten
      refine ⟨_,_,rfl,cons_ne_nil _ _,splitBy_eq_iff.mpr ⟨?_,?_,?_,?_⟩⟩
      · rw [hflatten]
        rfl
      · intro hmem
        rcases mem_cons.mp hmem with heq | hmem
        · cases heq
        · exact hnil (mem_cons_of_mem _ hmem)
      · intro m hm
        rcases mem_cons.mp hm with rfl | hm
        · exact (hchains _ mem_cons_self).cons_cons h
        · exact hchains m (mem_cons_of_mem _ hm)
      · refine isChain_cons.mpr ⟨?_,(isChain_cons.mp hbreaks).2⟩
        intro next hnext
        obtain ⟨hne,hne',hbreak⟩ := (isChain_cons.mp hbreaks).1 next hnext
        exact ⟨cons_ne_nil _ _,hne',by rw [getLast_cons hne]; exact hbreak⟩

theorem lastOfRuns_same {m m' : Message} (h : m'.role = m.role) (rest : List Message) :
    lastOfRuns (m :: m' :: rest) = lastOfRuns (m' :: rest) := by
  obtain ⟨run,runs,hsplit,hne,hsplit'⟩ := splitBy_cons_cons rest (r := sameRole)
    (a := m) (b := m') (by simp [sameRole,h])
  rw [lastOfRuns,lastOfRuns,hsplit,hsplit',filterMap_cons,filterMap_cons,
    List.getLast?_cons_of_ne_nil hne]

theorem lastOfRuns_other {m m' : Message} (h : m'.role ≠ m.role) (rest : List Message) :
    lastOfRuns (m :: m' :: rest) = m :: lastOfRuns (m' :: rest) := by
  have hsplit := splitBy_append_cons (r := sameRole) (l := [m]) (a := m') rest
    (by simpa [sameRole] using Ne.symm h)
  rw [singleton_append] at hsplit
  rw [lastOfRuns,hsplit,filterMap_append]
  rfl

section
variable (last : Message) (rest : List Message)
include last rest
theorem normRemoveFrom_eq : normRemoveFrom last rest = lastOfRuns (last :: rest) := by
  induction rest generalizing last with
  | nil => rfl
  | cons m rest ih =>
    unfold normRemoveFrom
    by_cases h : m.role = last.role
    · rw [if_pos h,ih,lastOfRuns_same h]
    · rw [if_neg h,ih,lastOfRuns_other h]

theorem normMergeFrom_content : (normMergeFrom last rest).flatMap content =
      last.content ++ rest.flatMap content := by
  induction rest generalizing last with
  | nil => simp [normMergeFrom]
  | cons m rest ih =>
    unfold normMergeFrom
    by_cases h : m.role = last.role
    · rw [if_pos h,ih,flatMap_cons,append_assoc]
    · rw [if_neg h,flatMap_cons,ih,flatMap_cons]

theorem sublist_normFillFrom : (last :: rest).Sublist (normFillFrom last rest) := by
  induction rest generalizing last with
  | nil => exact List.Sublist.refl _
  | cons m rest ih =>
    unfold normFillFrom
    by_cases h : m.role = last.role
    · rw [if_pos h]
      exact ((ih m).cons _).cons_cons _
    · rw [if_neg h]
      exact (ih m).cons_cons _
end
theorem normFrom_of_alternates {last : Message} {rest : List Message}
    (h : AlternatesFrom last.role.other rest) :
    normMergeFrom last rest = last :: rest ∧ normFillFrom last rest = last :: rest ∧
      normRemoveFrom last rest = last :: rest := by
  induction rest generalizing last with
  | nil => exact ⟨rfl,rfl,rfl⟩
  | cons m rest ih =>
    obtain ⟨hrole,hrest⟩ := h
    have hne : ¬ m.role = last.role := Role.ne_iff.mpr hrole
    rw [← hrole] at hrest
    obtain ⟨hmerge,hfill,hremove⟩ := ih hrest
    rw [normMergeFrom,normFillFrom,normRemoveFrom,if_neg hne,if_neg hne,if_neg hne,hmerge,hfill,
      hremove]
    exact ⟨rfl,rfl,rfl⟩

def openingMessage : List Message → List Message
  | [] => []
  | m :: _ => if m.role = .user then [] else [continueMessage]
variable (messages : List Message)

theorem normalizeMessages_merge :
    normalizeMessages messages .merge = normMerge (openingMessage messages ++ messages) := by
  cases messages with
  | nil => rfl
  | cons m rest => by_cases h : m.role = .user <;> simp [normalizeMessages,openingMessage,h]

theorem normalizeMessages_fill :
    normalizeMessages messages .fill = normFill (openingMessage messages ++ messages) := by
  cases messages with
  | nil => rfl
  | cons m rest => by_cases h : m.role = .user <;> simp [normalizeMessages,openingMessage,h]

theorem normalizeMessages_remove :
    normalizeMessages messages .remove = normRemove (openingMessage messages ++ messages) := by
  cases messages with
  | nil => rfl
  | cons m rest => by_cases h : m.role = .user <;> simp [normalizeMessages,openingMessage,h]

theorem normalizeMessages_of_alternates {messages : List Message} (h : Alternates messages)
    (strategy : NormStrategy) : normalizeMessages messages strategy = messages := by
  cases messages with
  | nil => cases strategy <;> rfl
  | cons m rest =>
    have hrole : m.role = .user := h.1
    have hrest : AlternatesFrom m.role.other rest := hrole ▸ h.2
    obtain ⟨hmerge,hfill,hremove⟩ := normFrom_of_alternates hrest
    simp only [normalizeMessages,hrole,if_true]
    cases strategy with
    | merge => exact hmerge
    | fill => exact hfill
    | remove => exact hremove

theorem normMerge_content : (normMerge messages).flatMap content = messages.flatMap content := by
  cases messages with
  | nil => rfl
  | cons m rest => rw [normMerge,normMergeFrom_content,flatMap_cons]

theorem sublist_normFill : messages.Sublist (normFill messages) := by
  cases messages with
  | nil => exact List.Sublist.refl _
  | cons m rest => exact sublist_normFillFrom m rest

theorem normRemove_opening : normRemove (openingMessage messages ++ messages) =
      openingMessage messages ++ lastOfRuns messages := by
  cases messages with
  | nil => rfl
  | cons m rest =>
    by_cases h : m.role = .user
    · rw [openingMessage,if_pos h,nil_append,nil_append]
      exact normRemoveFrom_eq m rest
    · rw [openingMessage,if_neg h,singleton_append,singleton_append,normRemove,normRemoveFrom_eq,
        lastOfRuns_other h]

/-- Normalizing alternates the roles and is idempotent; merging keeps all content, filling all
messages, and removing the last message of each run. -/
theorem normalization_laws (messages : List Message) :
    (∀ strategy, Alternates (normalizeMessages messages strategy)) ∧
      (∀ strategy, normalizeMessages (normalizeMessages messages strategy) strategy =
        normalizeMessages messages strategy) ∧
      (normalizeMessages messages .merge).flatMap content =
        (openingMessage messages).flatMap content ++ messages.flatMap content ∧
      messages.Sublist (normalizeMessages messages .fill) ∧
      normalizeMessages messages .remove = openingMessage messages ++ lastOfRuns messages := by
  have halternates := normalizeMessages_alternates messages
  refine ⟨halternates,?_,?_,?_,?_⟩
  · intro strategy
    exact normalizeMessages_of_alternates (halternates strategy) strategy
  · rw [normalizeMessages_merge,normMerge_content,flatMap_append]
  · rw [normalizeMessages_fill]
    exact (sublist_append_right _ _).trans (sublist_normFill _)
  · rw [normalizeMessages_remove,normRemove_opening]
end GudeAgents
