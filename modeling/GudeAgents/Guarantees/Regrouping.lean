import Mathlib.Data.List.Chain
import GudeAgents.Framework.Lists
import GudeAgents.Guarantees.Grouping
/-!
# Regrouping as a stable sort

`projectToolResultOrder` sorts each run of results behind a tool use by the order of the calls.
-/
namespace GudeAgents
open Framework List Message
def Message.Asks (m : Message) : Prop := m.role = .assistant ∧ m.toolUses ≠ []

/-- Where a result stands among the calls of a message; results of other calls stand behind them. -/
def Message.resultRank (m : Message) (r : ToolResultBlock) : Nat := m.useOrder.idxOf r.toolUseID

theorem Message.useOrder_ne_nil {m : Message} : m.useOrder ≠ [] ↔ m.toolUses ≠ [] := by
  unfold useOrder
  cases m.toolUses with
  | nil => simp
  | cons use uses => simp [eraseDups_cons]

variable {order : List String}
section
variable (hnodup : order.Nodup) (results : List ToolResultBlock)
include hnodup results
theorem regrouped_sorted : (regrouped order results).Pairwise fun r r' =>
      order.idxOf r.toolUseID ≤ order.idxOf r'.toolUseID := by
  have hbehind : ∀ r : ToolResultBlock, order.idxOf r.toolUseID ≤ order.length :=
    fun r => idxOf_le_length
  refine pairwise_append.mpr ⟨?_,?_,?_⟩
  · rw [pairwise_flatMap]
    constructor
    · intro id _
      apply pairwise_of_forall_mem_list
      intro r hr r' hr'
      simp only [mem_filter,beq_iff_eq] at hr hr'
      rw [hr.2,hr'.2]
    · rw [pairwise_iff_getElem]
      intro i j hi hj hlt r hr r' hr'
      simp only [mem_filter,beq_iff_eq] at hr hr'
      rw [hr.2,hr'.2,hnodup.idxOf_getElem,hnodup.idxOf_getElem]
      exact Nat.le_of_lt hlt
  · apply pairwise_of_forall_mem_list
    intro r hr r' hr'
    have hunknown : r'.toolUseID ∉ order := by simpa using (mem_filter.mp hr').2
    rw [idxOf_eq_length hunknown]
    exact hbehind r
  · intro r _ r' hr'
    have hunknown : r'.toolUseID ∉ order := by simpa using (mem_filter.mp hr').2
    rw [idxOf_eq_length hunknown]
    exact hbehind r

theorem filter_rank_regrouped (k : Nat) :
    (regrouped order results).filter (fun r => order.idxOf r.toolUseID = k) =
      results.filter fun r => order.idxOf r.toolUseID = k := by
  rcases Nat.lt_trichotomy k order.length with hk | hk | hk
  · have hrank : (fun r : ToolResultBlock => decide (order.idxOf r.toolUseID = k)) =
        fun r => r.toolUseID == order[k] := by
      funext r
      rw [Bool.eq_iff_iff,decide_eq_true_eq,beq_iff_eq]
      constructor
      · rintro rfl
        rw [getElem_idxOf]
      · intro heq
        rw [heq,hnodup.idxOf_getElem]
    rw [hrank,filter_regrouped_known hnodup (getElem_mem hk)]
  · have hrank : (fun r : ToolResultBlock => decide (order.idxOf r.toolUseID = k)) =
        fun r => !order.contains r.toolUseID := by
      funext r
      rw [Bool.eq_iff_iff,decide_eq_true_eq,hk,idxOf_eq_length_iff]
      simp
    rw [hrank,filter_regrouped_unknown]
  · have hrank : ∀ r : ToolResultBlock, ¬ decide (order.idxOf r.toolUseID = k) = true := by
      intro r
      have hle : order.idxOf r.toolUseID ≤ order.length := idxOf_le_length
      rw [decide_eq_true_eq]
      omega
    rw [filter_eq_nil_iff.mpr fun r _ => hrank r,filter_eq_nil_iff.mpr fun r _ => hrank r]

theorem regrouped_eq_stableSort :
    regrouped order results = stableSort (fun r => order.idxOf r.toolUseID) results :=
  eq_stableSort (regrouped_sorted hnodup results) (filter_rank_regrouped hnodup results)
end
structure Segment where
  head : Message
  run : List Message

namespace Segment
def messages (s : Segment) : List Message := s.head :: s.run

/-- One message for a run: its results by the order of the calls, those of other calls last, and
otherwise in their own order. -/
def sorted (s : Segment) : Message :=
  ⟨.user,(stableSort s.head.resultRank (s.run.flatMap toolResults)).map .toolResult⟩
def projected (s : Segment) : List Message :=
  s.head :: if s.run = [] then [] else [s.sorted]
end Segment
/-- The transcript as messages and whole runs of results behind tool-use messages. -/
structure Segmented (messages : List Message) (segments : List Segment) : Prop where
  messages_eq : messages = segments.flatMap Segment.messages
  asks : ∀ s ∈ segments, s.run ≠ [] → s.head.Asks
  results : ∀ s ∈ segments, ∀ m ∈ s.run, m.isToolResults = true
  whole : segments.IsChain fun s s' => s.head.Asks → s'.head.isToolResults = false

theorem Segmented.nil : Segmented [] [] := ⟨rfl,by simp,by simp,isChain_nil⟩

theorem Segmented.cons {s : Segment} {rest : List Message} {segments : List Segment}
    (h : Segmented rest segments) (hasks : s.run ≠ [] → s.head.Asks)
    (hresults : ∀ m ∈ s.run, m.isToolResults = true) (hwhole : s.head.Asks → StartsFresh rest) :
    Segmented (s.messages ++ rest) (s :: segments) where
  messages_eq := by rw [h.messages_eq,flatMap_cons]
  asks s' hs' := by
    rcases mem_cons.mp hs' with rfl | hs'
    · exact hasks
    · exact h.asks s' hs'
  results s' hs' := by
    rcases mem_cons.mp hs' with rfl | hs'
    · exact hresults
    · exact h.results s' hs'
  whole := by
    refine isChain_cons.mpr ⟨?_,h.whole⟩
    intro next hnext hhead
    cases segments with
    | nil => cases hnext
    | cons first others =>
      cases hnext
      have hfresh := hwhole hhead
      rw [h.messages_eq] at hfresh
      cases hresult : next.head.isToolResults with
      | false => rfl
      | true =>
        simp [StartsFresh,Segment.messages,hresult] at hfresh

theorem Message.grouped_eq_sorted (m : Message) (run : List Message) :
    m.grouped run = Segment.sorted ⟨m,run⟩ := by
  show mk .user ((regrouped m.useOrder _).map .toolResult) = _
  rw [regrouped_eq_stableSort m.useOrder_nodup]
  rfl

theorem exists_segments (messages : List Message) : ∃ segments, Segmented messages segments ∧
      projectToolResultOrder messages = segments.flatMap Segment.projected := by
  induction messages using grouping_induction with
  | nil => exact ⟨[],Segmented.nil,rfl⟩
  | groups m rest hgroups ih =>
    obtain ⟨segments,hsegmented,hproject⟩ := ih
    have hasks : m.Asks := ⟨hgroups.1,useOrder_ne_nil.mp hgroups.2.1⟩
    have hcons := hsegmented.cons (s := ⟨m,rest.takeWhile isToolResults⟩)
      (fun _ => hasks) (fun _ hm => mem_takeWhile_imp hm) fun _ => startsFresh_dropWhile rest
    have hmessages : Segment.messages ⟨m,rest.takeWhile isToolResults⟩ ++
        rest.dropWhile isToolResults = m :: rest := by
      rw [Segment.messages,cons_append,takeWhile_append_dropWhile]
    rw [hmessages] at hcons
    refine ⟨_,hcons,?_⟩
    rw [projectToolResultOrder_groups hgroups,hproject,flatMap_cons,Segment.projected,
      if_neg hgroups.2.2,m.grouped_eq_sorted]
    rfl
  | single m rest hsingle ih =>
    obtain ⟨segments,hsegmented,hproject⟩ := ih
    have hwhole : m.Asks → StartsFresh rest := by
      intro hasks
      by_contra hfresh
      exact hsingle ⟨hasks.1,useOrder_ne_nil.mpr hasks.2,hfresh⟩
    have hcons := hsegmented.cons (s := ⟨m,[]⟩) (fun h => absurd rfl h) (by simp) hwhole
    refine ⟨_,hcons,?_⟩
    rw [projectToolResultOrder_single hsingle,hproject,flatMap_cons,Segment.projected,if_pos rfl]
    rfl

theorem content_of_isToolResults {m : Message} (h : m.isToolResults = true) :
    m.content = m.toolResults.map .toolResult := by
  simp only [isToolResults,onlyToolResults,Bool.and_eq_true,all_eq_true] at h
  have hall := h.2.2
  unfold toolResults
  generalize m.content = blocks at hall
  induction blocks with
  | nil => rfl
  | cons block blocks ih =>
    have hblock := hall block mem_cons_self
    have hblocks := ih fun b hb => hall b (mem_cons_of_mem _ hb)
    cases block with
    | toolResult r =>
      rw [filterMap_cons_some (by rfl),map_cons,← hblocks]
    | _ => cases hblock

theorem Segment.projected_content {s : Segment} (h : ∀ m ∈ s.run, m.isToolResults = true) :
    (s.projected.flatMap content).Perm (s.messages.flatMap content) := by
  have hrun : s.run.flatMap content = (s.run.flatMap toolResults).map .toolResult := by
    rw [map_flatMap]
    exact flatMap_congr fun m hm => content_of_isToolResults (h m hm)
  rw [Segment.projected,Segment.messages,flatMap_cons,flatMap_cons,hrun]
  apply List.Perm.append_left
  by_cases hempty : s.run = []
  · rw [if_pos hempty,hempty]
    exact List.Perm.refl _
  · rw [if_neg hempty,flatMap_singleton]
    exact (stableSort_perm _ _).map _

theorem projectToolResultOrder_content (messages : List Message) :
    ((projectToolResultOrder messages).flatMap content).Perm (messages.flatMap content) := by
  obtain ⟨segments,hsegmented,hproject⟩ := exists_segments messages
  rw [hproject,hsegmented.messages_eq,flatMap_assoc,flatMap_assoc]
  have hresults := hsegmented.results
  clear hproject hsegmented
  induction segments with
  | nil => exact List.Perm.refl _
  | cons s segments ih =>
    exact (Segment.projected_content (hresults s mem_cons_self)).append
      (ih fun s' hs' => hresults s' (mem_cons_of_mem _ hs'))

/-- The projection is idempotent, keeps the multiset of blocks, and replaces each run of results
behind a tool-use message by its stable sort. -/
theorem projection_regroups (messages : List Message) :
    projectToolResultOrder (projectToolResultOrder messages) = projectToolResultOrder messages ∧
      ((projectToolResultOrder messages).flatMap content).Perm (messages.flatMap content) ∧
      ∃ segments, Segmented messages segments ∧
        projectToolResultOrder messages = segments.flatMap Segment.projected :=
  ⟨projectToolResultOrder_idempotent messages,projectToolResultOrder_content messages,
    exists_segments messages⟩
end GudeAgents
