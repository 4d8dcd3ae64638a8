import Mathlib.Data.List.Basic
import Mathlib.Data.List.TakeWhile
import GudeAgents.Agent.Projection
namespace GudeAgents
open List Message ContentBlock
theorem projectFrom_of_length_le {fuel : Nat} {messages : List Message}
    (h : messages.length ≤ fuel) : projectFrom fuel messages = projectToolResultOrder messages := by
  unfold projectToolResultOrder
  induction hn : messages.length using Nat.strongRecOn generalizing messages fuel with
  | _ n ih =>
    subst hn
    cases messages with
    | nil => cases fuel <;> rfl
    | cons m rest =>
      cases fuel with
      | zero => simp at h
      | succ fuel =>
        have hrest : rest.length ≤ fuel := Nat.le_of_succ_le_succ h
        have hdrop := (dropWhile_suffix isToolResults (l := rest)).length_le
        have hbehind : projectFrom fuel (rest.dropWhile isToolResults) =
            projectFrom rest.length (rest.dropWhile isToolResults) := by
          rw [ih _ (Nat.lt_succ_of_le hdrop) (Nat.le_trans hdrop hrest) rfl,
            ih _ (Nat.lt_succ_of_le hdrop) hdrop rfl]
        simp only [length_cons,projectFrom]
        rw [hbehind,ih _ (Nat.lt_succ_self _) hrest rfl]

def Message.useOrder (m : Message) : List String := (m.toolUses.map (·.toolUseID)).eraseDups

/-- Results behind `m` are merged: it is an assistant message with tool uses, and a run of results
follows. -/
def Message.Groups (m : Message) (rest : List Message) : Prop :=
  m.role = .assistant ∧ m.useOrder ≠ [] ∧ rest.takeWhile isToolResults ≠ []

instance (m : Message) (rest : List Message) : Decidable (m.Groups rest) :=
  inferInstanceAs (Decidable (_ ∧ _ ∧ _))

def Message.grouped (m : Message) (run : List Message) : Message :=
  ⟨.user,regroup m.useOrder (run.flatMap toolResults)⟩

@[simp] theorem projectToolResultOrder_nil : projectToolResultOrder [] = [] := rfl

variable {rest : List Message} {m : Message}
theorem projectToolResultOrder_groups (h : m.Groups rest) : projectToolResultOrder (m :: rest) =
      m :: m.grouped (rest.takeWhile isToolResults) ::
        projectToolResultOrder (rest.dropWhile isToolResults) := by
  have hdrop := (dropWhile_suffix isToolResults (l := rest)).length_le
  rw [← projectFrom_of_length_le hdrop]
  exact if_pos h

theorem projectToolResultOrder_single (h : ¬ m.Groups rest) :
    projectToolResultOrder (m :: rest) = m :: projectToolResultOrder rest :=
  if_neg h

theorem grouping_induction {motive : List Message → Prop} (nil : motive [])
    (groups : ∀ m rest, m.Groups rest → motive (rest.dropWhile isToolResults) →
      motive (m :: rest)) (single : ∀ m rest, ¬ m.Groups rest → motive rest → motive (m :: rest))
    (messages : List Message) : motive messages := by
  induction hn : messages.length using Nat.strongRecOn generalizing messages with
  | _ n ih =>
    subst hn
    cases messages with
    | nil => exact nil
    | cons m rest =>
      have hdrop := (dropWhile_suffix isToolResults (l := rest)).length_le
      by_cases h : m.Groups rest
      · exact groups m rest h (ih _ (Nat.lt_succ_of_le hdrop) _ rfl)
      · exact single m rest h (ih _ (Nat.lt_succ_self _) _ rfl)

def StartsFresh (messages : List Message) : Prop :=
  messages.takeWhile isToolResults = []

theorem startsFresh_cons (h : m.isToolResults = false) (rest : List Message) :
    StartsFresh (m :: rest) := by
  simp [StartsFresh,h]

theorem startsFresh_dropWhile (messages : List Message) :
    StartsFresh (messages.dropWhile isToolResults) := by
  unfold StartsFresh
  induction messages with
  | nil => rfl
  | cons m rest ih =>
    by_cases h : m.isToolResults = true
    · rw [dropWhile_cons_of_pos h]
      exact ih
    · rw [dropWhile_cons_of_neg h,takeWhile_cons_of_neg h]

theorem StartsFresh.of_head (h : StartsFresh (m :: rest)) (other : List Message) :
    StartsFresh (m :: other) := by
  unfold StartsFresh at h ⊢
  by_cases hm : m.isToolResults = true
  · rw [takeWhile_cons_of_pos hm] at h
    cases h
  · exact takeWhile_cons_of_neg hm

theorem projectToolResultOrder_cons (m : Message) (rest : List Message) :
    ∃ others, projectToolResultOrder (m :: rest) = m :: others := by
  by_cases h : m.Groups rest
  · exact ⟨_,projectToolResultOrder_groups h⟩
  · exact ⟨_,projectToolResultOrder_single h⟩

theorem StartsFresh.projected {messages : List Message} (h : StartsFresh messages) :
    StartsFresh (projectToolResultOrder messages) := by
  cases messages with
  | nil => exact h
  | cons m rest =>
    obtain ⟨others,hothers⟩ := projectToolResultOrder_cons m rest
    rw [hothers]
    exact h.of_head others

section
variable {tail : List Message}
section
variable (h : StartsFresh tail)
include h
theorem StartsFresh.takeWhile_append (messages : List Message) :
    (messages ++ tail).takeWhile isToolResults = messages.takeWhile isToolResults := by
  induction messages with
  | nil => exact h
  | cons m rest ih =>
    by_cases hm : m.isToolResults = true <;> simp [hm,ih]

theorem StartsFresh.dropWhile_eq : tail.dropWhile isToolResults = tail := by
  have hsplit := takeWhile_append_dropWhile (p := isToolResults) (l := tail)
  rw [h] at hsplit
  exact hsplit

theorem StartsFresh.dropWhile_append (messages : List Message) :
    (messages ++ tail).dropWhile isToolResults = messages.dropWhile isToolResults ++ tail := by
  induction messages with
  | nil => exact h.dropWhile_eq
  | cons m rest ih =>
    by_cases hm : m.isToolResults = true <;> simp [hm,ih]

theorem StartsFresh.groups_append : m.Groups (rest ++ tail) ↔ m.Groups rest := by
  unfold Message.Groups
  rw [h.takeWhile_append]

theorem projectToolResultOrder_append (messages : List Message) :
    projectToolResultOrder (messages ++ tail) =
      projectToolResultOrder messages ++ projectToolResultOrder tail := by
  induction messages using grouping_induction with
  | nil => rfl
  | groups m rest hgroups ih =>
    rw [cons_append,projectToolResultOrder_groups (h.groups_append.mpr hgroups),
      projectToolResultOrder_groups hgroups,h.takeWhile_append,h.dropWhile_append,ih]
    rfl
  | single m rest hsingle ih =>
    rw [cons_append,projectToolResultOrder_single (mt h.groups_append.mp hsingle),
      projectToolResultOrder_single hsingle,ih]
    rfl
end
end
theorem projectToolResultOrder_length_le (messages : List Message) :
    (projectToolResultOrder messages).length ≤ messages.length := by
  induction messages using grouping_induction with
  | nil => exact Nat.le_refl _
  | groups m rest hgroups ih =>
    rw [projectToolResultOrder_groups hgroups]
    have hrun : 0 < (rest.takeWhile isToolResults).length :=
      length_pos_iff.mpr hgroups.2.2
    have hsplit := congrArg List.length
      (takeWhile_append_dropWhile (p := isToolResults) (l := rest))
    rw [length_append] at hsplit
    simp only [length_cons]
    omega
  | single m rest hsingle ih =>
    rw [projectToolResultOrder_single hsingle]
    exact Nat.succ_le_succ ih

variable {order : List String}
section
variable {results : List ToolResultBlock}
theorem filter_flatMap_results (hnodup : order.Nodup) (id : String) :
    ((order.flatMap fun other => results.filter fun r => r.toolUseID == other).filter
      fun r => r.toolUseID == id) =
      if id ∈ order then results.filter (fun r => r.toolUseID == id) else [] := by
  induction order with
  | nil => rfl
  | cons first order ih =>
    rw [nodup_cons] at hnodup
    rw [flatMap_cons,filter_append,ih hnodup.2,filter_filter]
    by_cases hid : id = first
    · subst hid
      simp [hnodup.1]
    · have hnone : results.filter (fun r => r.toolUseID == id && r.toolUseID == first) = [] := by
        rw [filter_eq_nil_iff]
        intro r _
        grind
      simp [hnone,hid]

def regrouped (order : List String) (results : List ToolResultBlock) : List ToolResultBlock :=
  (order.flatMap fun id => results.filter fun r => r.toolUseID == id) ++
    results.filter fun r => !order.contains r.toolUseID

theorem filter_regrouped_known (hnodup : order.Nodup) {id : String} (hid : id ∈ order) :
    (regrouped order results).filter (fun r => r.toolUseID == id) =
      results.filter fun r => r.toolUseID == id := by
  unfold regrouped
  rw [filter_append,filter_flatMap_results hnodup,if_pos hid,filter_filter]
  have hnone : results.filter (fun r => r.toolUseID == id && !order.contains r.toolUseID) = [] := by
    rw [filter_eq_nil_iff]
    intro r _
    grind
  rw [hnone,append_nil]

theorem filter_regrouped_unknown (order : List String) :
    (regrouped order results).filter (fun r => !order.contains r.toolUseID) =
      results.filter fun r => !order.contains r.toolUseID := by
  unfold regrouped
  rw [filter_append,filter_filter]
  have hnone : (order.flatMap fun id => results.filter fun r => r.toolUseID == id).filter
      (fun r => !order.contains r.toolUseID) = [] := by
    rw [filter_eq_nil_iff]
    intro r hr
    simp only [mem_flatMap,mem_filter,beq_iff_eq] at hr
    obtain ⟨id,hid,-,rfl⟩ := hr
    simp [hid]
  rw [hnone,nil_append]
  exact congrArg (results.filter ·) (funext fun r => Bool.and_self _)

theorem regrouped_regrouped (hnodup : order.Nodup) :
    regrouped order (regrouped order results) = regrouped order results := by
  have hflat : (order.flatMap fun id =>
      (regrouped order results).filter fun r => r.toolUseID == id) =
      order.flatMap fun id => results.filter fun r => r.toolUseID == id :=
    flatMap_congr fun id hid => filter_regrouped_known hnodup hid
  exact congrArg₂ (· ++ ·) hflat (filter_regrouped_unknown order)
end
theorem nodup_eraseDups {α : Type} [BEq α] [LawfulBEq α] (l : List α) : l.eraseDups.Nodup := by
  induction hn : l.length using Nat.strongRecOn generalizing l with
  | _ n ih =>
    subst hn
    cases l with
    | nil => simp
    | cons a l =>
      have hlt : (l.filter fun b => !b == a).length < (a :: l).length :=
        Nat.lt_succ_of_le (length_filter_le _ l)
      rw [eraseDups_cons,nodup_cons]
      refine ⟨?_,ih _ hlt _ rfl⟩
      simp [mem_eraseDups]

theorem Message.useOrder_nodup (m : Message) : m.useOrder.Nodup := nodup_eraseDups _
theorem Message.grouped_toolResults (m : Message) (run : List Message) :
    (m.grouped run).toolResults = regrouped m.useOrder (run.flatMap toolResults) := by
  show ((regrouped _ _).map toolResult).filterMap toolResult? = _
  simp [filterMap_map,Function.comp_def,toolResult?]

theorem Message.grouped_grouped (m : Message) (run : List Message) :
    m.grouped [m.grouped run] = m.grouped run := by
  have hresults : [m.grouped run].flatMap toolResults =
      regrouped m.useOrder (run.flatMap toolResults) := by
    simp [m.grouped_toolResults]
  show mk .user ((regrouped m.useOrder _).map toolResult) = _
  rw [hresults,regrouped_regrouped m.useOrder_nodup]
  rfl

theorem onlyToolResults_toolResults (h : m.isToolResults = true) : m.toolResults ≠ [] := by
  simp only [isToolResults,onlyToolResults,Bool.and_eq_true,Bool.not_eq_true', all_eq_true] at h
  obtain ⟨-,hne,hall⟩ := h
  cases hcontent : m.content with
  | nil => simp [hcontent] at hne
  | cons b rest =>
    obtain ⟨r,hr⟩ := Option.isSome_iff_exists.mp (hall b (by simp [hcontent]))
    simp [toolResults,hcontent,hr]

theorem mem_regrouped {results : List ToolResultBlock} {r : ToolResultBlock} :
    r ∈ regrouped order results ↔ r ∈ results := by
  unfold regrouped
  by_cases h : r.toolUseID ∈ order <;> grind

theorem Message.Groups.isToolResults_grouped (h : m.Groups rest) :
    (m.grouped (rest.takeWhile isToolResults)).isToolResults = true := by
  have hne : regrouped m.useOrder ((rest.takeWhile isToolResults).flatMap toolResults) ≠ [] := by
    obtain ⟨first,hfirst⟩ := exists_mem_of_ne_nil _ h.2.2
    have hresults := onlyToolResults_toolResults (mem_takeWhile_imp hfirst)
    obtain ⟨r,hr⟩ := exists_mem_of_ne_nil _ hresults
    have hmem : r ∈ (rest.takeWhile isToolResults).flatMap toolResults :=
      mem_flatMap.mpr ⟨first,hfirst,hr⟩
    exact ne_nil_of_mem (mem_regrouped.mpr hmem)
  show (true && onlyToolResults ((regrouped _ _).map toolResult)) = true
  simp [onlyToolResults,toolResult?,hne]

theorem projectToolResultOrder_idempotent (messages : List Message) :
    projectToolResultOrder (projectToolResultOrder messages) = projectToolResultOrder messages := by
  induction messages using grouping_induction with
  | nil => rfl
  | groups m rest hgroups ih =>
    rw [projectToolResultOrder_groups hgroups]
    have hbehind := (startsFresh_dropWhile rest).projected
    have hresults := hgroups.isToolResults_grouped
    have htake : (m.grouped (rest.takeWhile isToolResults) ::
        projectToolResultOrder (rest.dropWhile isToolResults)).takeWhile
          isToolResults = [m.grouped (rest.takeWhile isToolResults)] := by
      rw [takeWhile_cons_of_pos hresults]
      exact congrArg _ hbehind
    rw [projectToolResultOrder_groups ⟨hgroups.1,hgroups.2.1,by rw [htake]; simp⟩,htake,
      m.grouped_grouped,dropWhile_cons_of_pos hresults,hbehind.dropWhile_eq,ih]
  | single m rest hsingle ih =>
    rw [projectToolResultOrder_single hsingle]
    -- the head of the rest is untouched, so no run appears behind the message
    have hstill : ¬ m.Groups (projectToolResultOrder rest) := by
      intro hgroups
      apply hsingle
      refine ⟨hgroups.1,hgroups.2.1,fun hfresh => hgroups.2.2 ?_⟩
      exact StartsFresh.projected hfresh
    rw [projectToolResultOrder_single hstill,ih]
end GudeAgents
