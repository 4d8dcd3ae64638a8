import GudeAgents.Agent.Turn
import GudeAgents.Guarantees.Normalization
import GudeAgents.Guarantees.Regrouping
/-!
# Results behind their calls

A transcript that answers every call directly keeps that order through the passes of a request.
-/
namespace GudeAgents
open List ContentBlock Message Scenario TurnMessages
/-- The calls of an assistant message and their results, in the order of the calls. -/
structure Exchange where
  uses : List ToolUseBlock
  results : List ToolResultBlock

def Exchange.Answered (e : Exchange) : Prop :=
  e.results.map (·.toolUseID) = e.uses.map (·.toolUseID) ∧ (e.uses.map (·.toolUseID)).Nodup ∧
    e.uses ≠ []

variable {e : Exchange}
theorem Exchange.Answered.results_ne_nil (h : e.Answered) : e.results ≠ [] := by
  intro hnil
  have hids := h.1
  rw [hnil] at hids
  exact h.2.2 (map_eq_nil_iff.mp hids.symm)

/-- A transcript whose tool uses are directly followed by their results, each call answered once,
possibly over several messages; there are no other results. -/
inductive Paired : List Message → List Exchange → Prop where
  | nil : Paired [] []
  | plain {m : Message} {rest : List Message} {es : List Exchange} (hasks : ¬ m.Asks)
      (hresults : m.toolResults = []) (hrest : Paired rest es) : Paired (m :: rest) es
  | batch {m : Message} {run rest : List Message} {es : List Exchange} (e : Exchange)
      (hrole : m.role = .assistant) (huses : m.toolUses = e.uses) (hresults : m.toolResults = [])
      (hrun : ∀ m ∈ run, m.isToolResults = true)
      (hperm : e.results.Perm (run.flatMap toolResults)) (hanswered : e.Answered)
      (hrest : Paired rest es) : Paired (m :: (run ++ rest)) (e :: es)

/-- Every assistant message with tool uses is immediately followed by a user message that begins
with exactly the results of its calls, in their order. -/
inductive Answers : List Message → List Exchange → Prop where
  | nil : Answers [] []
  | other {m : Message} {rest : List Message} {es : List Exchange} (hasks : ¬ m.Asks)
      (hrest : Answers rest es) : Answers (m :: rest) es
  | asks {m answer : Message} {rest : List Message} {es : List Exchange} (e : Exchange)
      (others : List ContentBlock) (hrole : m.role = .assistant) (huses : m.toolUses = e.uses)
      (hanswer : answer = ⟨.user,e.results.map .toolResult ++ others⟩) (hanswered : e.Answered)
      (hothers : others.filterMap toolResult? = []) (hrest : Answers rest es) :
      Answers (m :: answer :: rest) (e :: es)

/-- The same after grouping: the message behind the calls holds their results and nothing else. -/
inductive Exchanged : List Message → List Exchange → Prop where
  | nil : Exchanged [] []
  | plain {m : Message} {rest : List Message} {es : List Exchange} (hasks : ¬ m.Asks)
      (hresults : m.toolResults = []) (hrest : Exchanged rest es) : Exchanged (m :: rest) es
  | batch {m : Message} {rest : List Message} {es : List Exchange} (e : Exchange)
      (hrole : m.role = .assistant) (huses : m.toolUses = e.uses) (hresults : m.toolResults = [])
      (hanswered : e.Answered) (hrest : Exchanged rest es) :
      Exchanged (m :: ⟨.user,e.results.map .toolResult⟩ :: rest) (e :: es)

variable {es : List Exchange}
theorem Exchanged.append {left right : List Message} {es' : List Exchange}
    (hleft : Exchanged left es) (hright : Exchanged right es') :
    Exchanged (left ++ right) (es ++ es') := by
  induction hleft with
  | nil => exact hright
  | plain hasks hresults _ ih => exact .plain hasks hresults ih
  | batch e hrole huses hresults hanswered _ ih => exact .batch e hrole huses hresults hanswered ih

variable {messages : List Message}
theorem exchanged_plain (h : ∀ m ∈ messages, m.toolUses = [] ∧ m.toolResults = []) :
    Exchanged messages [] := by
  induction messages with
  | nil => exact .nil
  | cons m rest ih =>
    obtain ⟨huses,hresults⟩ := h m mem_cons_self
    exact .plain (fun hasks => hasks.2 huses) hresults
      (ih fun m' hm' => h m' (mem_cons_of_mem _ hm'))

variable {m : Message}
theorem not_isToolResults (h : m.toolResults = []) : m.isToolResults = false := by
  cases hm : m.isToolResults with
  | false => rfl
  | true => exact absurd h (onlyToolResults_toolResults hm)

theorem Paired.startsFresh (h : Paired messages es) : StartsFresh messages := by
  cases h with
  | nil => rfl
  | plain _ hresults _ | batch _ _ _ hresults _ _ _ _ =>
    exact startsFresh_cons (not_isToolResults hresults) _

theorem idxOf_sorted {ids : List String} (h : ids.Nodup) :
    ids.Pairwise fun a b => ids.idxOf a ≤ ids.idxOf b := by
  rw [pairwise_iff_getElem]
  intro i j hi hj hlt
  rw [h.idxOf_getElem,h.idxOf_getElem]
  exact Nat.le_of_lt hlt

variable {results : List ToolResultBlock}
theorem regrouped_answered (h : e.Answered) (hperm : e.results.Perm results) :
    regrouped (e.uses.map (·.toolUseID)) results = e.results := by
  obtain ⟨hids,hnodup,-⟩ := h
  rw [← hids] at hnodup ⊢
  have hsorted := pairwise_map.mp (idxOf_sorted hnodup)
  have hsame : (regrouped (e.results.map (·.toolUseID)) results).Perm e.results := by
    rw [regrouped_eq_stableSort hnodup]
    exact (Framework.stableSort_perm _ _).trans hperm.symm
  refine hsame.eq_of_pairwise ?_ (regrouped_sorted hnodup results) hsorted
  -- results of equal rank answer the same call
  intro r r' hr hr' hle hle'
  have hr := hsame.mem_iff.mp hr
  have hid : r.toolUseID = r'.toolUseID :=
    (idxOf_inj (mem_map_of_mem hr)).mp (Nat.le_antisymm hle hle')
  exact inj_on_of_nodup_map hnodup hr hr' hid

theorem eraseDups_of_nodup {l : List String} (h : l.Nodup) : l.eraseDups = l := by
  induction l with
  | nil => rfl
  | cons a l ih =>
    rw [nodup_cons] at h
    have hfilter : (l.filter fun b => !b == a) = l := by
      rw [filter_eq_self]
      intro b hb
      have hne : b ≠ a := fun heq => h.1 (heq ▸ hb)
      simp [hne]
    rw [eraseDups_cons,hfilter,ih h.2]

theorem projectToolResultOrder_batch {run rest : List Message} (hrole : m.role = .assistant)
    (huses : m.toolUses = e.uses) (hrun : ∀ m ∈ run, m.isToolResults = true)
    (hperm : e.results.Perm (run.flatMap toolResults)) (hanswered : e.Answered)
    (hfresh : StartsFresh rest) :
    projectToolResultOrder (m :: (run ++ rest)) =
      m :: ⟨.user,e.results.map .toolResult⟩ :: projectToolResultOrder rest := by
  have horder : m.useOrder = e.uses.map (·.toolUseID) := by
    rw [useOrder,huses,eraseDups_of_nodup hanswered.2.1]
  have htake : (run ++ rest).takeWhile isToolResults = run := by
    rw [hfresh.takeWhile_append]
    exact takeWhile_eq_self_iff.mpr hrun
  have hdrop : (run ++ rest).dropWhile isToolResults = rest := by
    rw [hfresh.dropWhile_append,dropWhile_eq_nil_iff.mpr hrun,nil_append]
  have hne : run ≠ [] := by
    rintro rfl
    exact hanswered.results_ne_nil hperm.eq_nil
  have hgroups : m.Groups (run ++ rest) := by
    refine ⟨hrole,?_,by rw [htake]; exact hne⟩
    rw [useOrder_ne_nil,huses]
    exact hanswered.2.2
  have hgrouped : m.grouped run = ⟨.user,e.results.map .toolResult⟩ := by
    show mk .user ((regrouped m.useOrder _).map .toolResult) = _
    rw [horder,regrouped_answered hanswered hperm]
  rw [projectToolResultOrder_groups hgroups,htake,hdrop,hgrouped]

theorem projectToolResultOrder_plain (hasks : ¬ m.Asks) (rest : List Message) :
    projectToolResultOrder (m :: rest) = m :: projectToolResultOrder rest := by
  apply projectToolResultOrder_single
  intro hgroups
  exact hasks ⟨hgroups.1,useOrder_ne_nil.mp hgroups.2.1⟩

theorem Paired.projected (h : Paired messages es) :
    Exchanged (projectToolResultOrder messages) es := by
  induction h with
  | nil => exact .nil
  | plain hasks hresults _ ih =>
    rw [projectToolResultOrder_plain hasks]
    exact .plain hasks hresults ih
  | batch e hrole huses hresults hrun hperm hanswered hrest ih =>
    rw [projectToolResultOrder_batch hrole huses hrun hperm hanswered hrest.startsFresh]
    exact .batch e hrole huses hresults hanswered ih

theorem stripWidgets_cons (m : Message) (rest : List Message) :
    ∃ content, content.filterMap toolUse? = m.toolUses ∧
      content.filterMap toolResult? = m.toolResults ∧
      stripWidgets (m :: rest) = if content = [] then stripWidgets rest
        else { m with content := content } :: stripWidgets rest := by
  refine ⟨_,?_,?_,stripBlocks_cons _ m rest⟩
  · rw [filterMap_filter]
    exact filterMap_congr fun block _ => by cases block <;> rfl
  · rw [filterMap_filter]
    exact filterMap_congr fun block _ => by cases block <;> rfl

theorem stripWidgets_results (h : results ≠ []) (rest : List Message) :
    stripWidgets (⟨.user,results.map .toolResult⟩ :: rest) =
      ⟨.user,results.map .toolResult⟩ :: stripWidgets rest := by
  have hfilter : ∀ keep : ContentBlock → Bool, (∀ r, keep (.toolResult r) = true) →
      (results.map toolResult).filter keep = results.map .toolResult := by
    intro keep hkeep
    rw [filter_eq_self]
    intro block hblock
    obtain ⟨r,_,rfl⟩ := mem_map.mp hblock
    exact hkeep r
  have hne : results.map toolResult ≠ [] := by simpa using h
  rw [stripWidgets,stripBlocks_cons,hfilter _ (fun _ => rfl),if_neg hne]
  rfl

theorem Exchanged.stripped (h : Exchanged messages es) : Exchanged (stripWidgets messages) es := by
  induction h with
  | nil => exact .nil
  | @plain m rest es hasks hresults hrest ih =>
    obtain ⟨content,huses',hresults',hstrip⟩ := stripWidgets_cons m rest
    rw [hstrip]
    split
    · exact ih
    · refine .plain ?_ (hresults'.trans hresults) ih
      intro hasks'
      exact hasks ⟨hasks'.1,huses' ▸ hasks'.2⟩
  | @batch m rest es e hrole huses hresults hanswered hrest ih =>
    obtain ⟨content,huses',hresults',hstrip⟩ := stripWidgets_cons m
      (⟨.user,e.results.map .toolResult⟩ :: rest)
    have hcontent : content ≠ [] := by
      rintro rfl
      exact hanswered.2.2 (huses ▸ huses'.symm)
    rw [hstrip,if_neg hcontent,stripWidgets_results hanswered.results_ne_nil]
    exact .batch e hrole (huses'.trans huses) (hresults'.trans hresults) hanswered ih

theorem not_asks (h : ¬ m.Asks) (hrole : m.role = .assistant) : m.toolUses = [] := by
  by_contra huses
  exact h ⟨hrole,huses⟩
theorem toolUses_added (m m' : Message) :
    toolUses { m with content := m.content ++ m'.content } = m.toolUses ++ m'.toolUses :=
  filterMap_append

theorem not_asks_synthetic (m : Message) :
    ¬ (if m.role = .user then understoodMessage else continueMessage).Asks := by
  split
  · exact fun h => h.2 rfl
  · exact fun h => h.2 rfl

theorem Exchanged.merged (h : Exchanged messages es) (last : Message) :
    (last.role = .user → ∃ others tail, normMergeFrom last messages =
        { last with content := last.content ++ others } :: tail ∧
        others.filterMap toolResult? = [] ∧ Answers tail es) ∧
      (last.role = .assistant → last.toolUses = [] → Answers (normMergeFrom last messages) es) := by
  induction h generalizing last with
  | nil =>
    constructor
    · intro _
      exact ⟨[],[],by rw [append_nil]; rfl,rfl,.nil⟩
    · intro _ huses
      exact .other (fun hasks => hasks.2 huses) .nil
  | @plain m rest es hasks hresults hrest ih =>
    constructor
    · intro hlast
      cases hm : m.role with
      | user =>
        -- the message is added
        obtain ⟨others,tail,htail,hothers,hanswers⟩ :=
          (ih { last with content := last.content ++ m.content }).1 hlast
        refine ⟨m.content ++ others,tail,?_,?_,hanswers⟩
        · rw [normMergeFrom,if_pos (hm.trans hlast.symm),htail,append_assoc]
        · rw [filterMap_append,hothers,append_nil]
          exact hresults
      | assistant =>
        refine ⟨[],normMergeFrom m rest,?_,rfl,(ih m).2 hm (not_asks hasks hm)⟩
        rw [normMergeFrom,if_neg (by rw [hm,hlast]; simp),append_nil]
    · intro hlast huses
      cases hm : m.role with
      | user =>
        obtain ⟨others,tail,htail,-,hanswers⟩ := (ih m).1 hm
        rw [normMergeFrom,if_neg (by rw [hm,hlast]; simp),htail]
        refine .other (fun h => h.2 huses) (.other ?_ hanswers)
        intro h
        cases hm.symm.trans h.1
      | assistant =>
        rw [normMergeFrom,if_pos (hm.trans hlast.symm)]
        refine (ih _).2 hlast ?_
        rw [toolUses_added,huses,not_asks hasks hm]
        rfl
  | @batch m rest es e hrole huses _ hanswered hrest ih =>
    -- the calls and their results stay next to each other, whatever is added in front or behind
    have hpair : ∀ first : Message, first.role = .assistant → first.toolUses = e.uses →
        Answers (normMergeFrom first (⟨.user,e.results.map .toolResult⟩ :: rest)) (e :: es) := by
      intro first hfirst hfirstUses
      obtain ⟨others,tail,htail,hothers,hanswers⟩ :=
        (ih ⟨.user,e.results.map .toolResult⟩).1 rfl
      rw [normMergeFrom,if_neg (by rw [hfirst]; simp),htail]
      exact .asks e others hfirst hfirstUses rfl hanswered hothers hanswers
    constructor
    · intro hlast
      refine ⟨[],normMergeFrom m _,?_,rfl,hpair m hrole huses⟩
      rw [normMergeFrom,if_neg (by rw [hrole,hlast]; simp),append_nil]
    · intro hlast hnone
      rw [normMergeFrom,if_pos (hrole.trans hlast.symm)]
      refine hpair _ hlast ?_
      rw [toolUses_added,hnone,huses]
      rfl

theorem Exchanged.filled (h : Exchanged messages es) (last : Message) :
    ∃ tail, normFillFrom last messages = last :: tail ∧ Answers tail es := by
  induction h generalizing last with
  | nil => exact ⟨[],rfl,.nil⟩
  | @plain m rest es hasks hresults hrest ih =>
    obtain ⟨tail,htail,hanswers⟩ := ih m
    rw [normFillFrom,htail]
    split
    · exact ⟨_,rfl,.other (not_asks_synthetic m) (.other hasks hanswers)⟩
    · exact ⟨_,rfl,.other hasks hanswers⟩
  | @batch m rest es e hrole huses _ hanswered hrest ih =>
    obtain ⟨tail,htail,hanswers⟩ := ih ⟨.user,e.results.map .toolResult⟩
    have hpair : Answers (normFillFrom m (⟨.user,e.results.map .toolResult⟩ :: rest)) (e :: es) := by
      rw [normFillFrom,if_neg (by rw [hrole]; simp),htail]
      exact .asks e [] hrole huses (by rw [append_nil]) hanswered rfl hanswers
    rw [normFillFrom]
    split
    · exact ⟨_,rfl,.other (not_asks_synthetic m) hpair⟩
    · exact ⟨_,rfl,hpair⟩

theorem Exchanged.opened (h : Exchanged messages es) :
    Exchanged (openingMessage messages ++ messages) es := by
  cases messages with
  | nil => exact h
  | cons m rest =>
    rw [openingMessage]
    split
    · exact h
    · exact .plain (by rintro ⟨⟨⟩,-⟩) rfl h

theorem opened_role {rest : List Message} {first : Message}
    (h : openingMessage messages ++ messages = first :: rest) : first.role = .user := by
  cases messages with
  | nil => cases h
  | cons m others =>
    by_cases hm : m.role = .user
    · rw [openingMessage,if_pos hm] at h
      cases h
      exact hm
    · rw [openingMessage,if_neg hm] at h
      cases h
      rfl

theorem Exchanged.normalized (h : Exchanged messages es) {strategy : NormStrategy}
    (hstrategy : strategy ≠ .remove) : Answers (normalizeMessages messages strategy) es := by
  have hopened := h.opened
  have hmerge := normalizeMessages_merge messages
  have hfill := normalizeMessages_fill messages
  cases hworking : openingMessage messages ++ messages with
  | nil =>
    rw [hworking] at hopened hmerge hfill
    cases hopened
    cases strategy with
    | merge => rw [hmerge]; exact .nil
    | fill => rw [hfill]; exact .nil
    | remove => exact absurd rfl hstrategy
  | cons first rest =>
    have hfirst := opened_role hworking
    rw [hworking] at hopened hmerge hfill
    -- the first message is the user's, so it makes no calls
    have hrest : Exchanged rest es := by
      cases hopened with
      | plain _ _ hrest => exact hrest
      | batch _ hrole _ _ _ _ => cases hfirst.symm.trans hrole
    have hother : ∀ content, ¬ Message.Asks ⟨first.role,content⟩ := by
      intro content hasks
      cases hfirst.symm.trans hasks.1
    cases strategy with
    | merge =>
      obtain ⟨others,tail,htail,-,hanswers⟩ := (hrest.merged first).1 hfirst
      rw [hmerge,normMerge,htail]
      exact .other (hother _) hanswers
    | fill =>
      obtain ⟨tail,htail,hanswers⟩ := hrest.filled first
      rw [hfill,normFill,htail]
      exact .other (hother _) hanswers
    | remove => exact absurd rfl hstrategy

theorem TurnMessages.providerMessages_cut (messages : TurnMessages) (count : Nat) :
    messages.providerMessages count = projectToolResultOrder (messages.canonical.take count) ++
      messages.transient ++ projectToolResultOrder (messages.canonical.drop count) := by
  simp only [providerMessages,projectedCanonical]
  split
  · rename_i hcount
    rw [take_length,drop_length,take_of_length_le (Nat.le_of_lt hcount),
      drop_of_length_le (Nat.le_of_lt hcount)]
  · rfl

/-- Whatever the transient context and wherever the persisted messages end, as long as no batch is
cut there, the provider gets the results of every call directly behind it and in order. -/
theorem provider_results_follow_calls (messages : TurnMessages) (persistedCount : Nat)
    {es es' : List Exchange} (hrecent : Paired (messages.canonical.take persistedCount) es)
    (hcurrent : Paired (messages.canonical.drop persistedCount) es')
    (htransient : ∀ m ∈ messages.transient, m.toolUses = [] ∧ m.toolResults = [])
    {strategy : NormStrategy} (hstrategy : strategy ≠ .remove) :
    Answers (normalizeMessages (stripWidgets (messages.providerMessages persistedCount)) strategy)
      (es ++ es') := by
  have hprojected : Exchanged (messages.providerMessages persistedCount) (es ++ es') := by
    have happend := (hrecent.projected.append (exchanged_plain htransient)).append hcurrent.projected
    rw [append_nil] at happend
    rwa [providerMessages_cut]
  exact hprojected.stripped.normalized hstrategy

namespace Scenario
def twoCalls : Exchange where
  uses := [⟨"a","t","1"⟩,⟨"b","t","2"⟩]
  results := [{ toolUseID := "a", content := "first" },{ toolUseID := "b", content := "second" }]

def splitResults : TurnMessages where
  canonical := [⟨.user,[.text "hello"]⟩,
    ⟨.assistant,[.text "looking",.toolUse ⟨"a","t","1"⟩,.widget ⟨"w","1"⟩, .toolUse ⟨"b","t","2"⟩]⟩,
    ⟨.user,[.toolResult { toolUseID := "b", content := "second" }]⟩,
    ⟨.user,[.toolResult { toolUseID := "a", content := "first" }]⟩,⟨.user,[.text "and now"]⟩]
  transient := [⟨.user,[.text "documents"]⟩,⟨.assistant,[.text "OK"]⟩]
end Scenario
theorem provider_results_follow_calls_split :
    Answers (normalizeMessages (stripWidgets (splitResults.providerMessages 4)) .merge)
      [twoCalls] := by
  have hanswered : twoCalls.Answered := ⟨rfl,by decide,by decide⟩
  have hrecent : Paired (splitResults.canonical.take 4) [twoCalls] := by
    refine .plain (by rintro ⟨⟨⟩,-⟩) rfl ?_
    exact @Paired.batch _ [_,_] [] [] twoCalls rfl rfl rfl (by decide)
      (List.Perm.swap _ _ _) hanswered .nil
  have hcurrent : Paired (splitResults.canonical.drop 4) [] :=
    .plain (by rintro ⟨⟨⟩,-⟩) rfl .nil
  exact provider_results_follow_calls splitResults 4 hrecent hcurrent (by decide) (by decide)
end GudeAgents
