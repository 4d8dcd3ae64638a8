import GudeAgents.Guarantees.Exchanges
import GudeAgents.Guarantees.PreparedTurns
/-!
# Answers under removal

`NormRemove` keeps the last message of every run of one role.
-/
namespace GudeAgents
open List TurnMessages Message Scenario
/-- Every call has its result among the messages. -/
def KeepsAnswers (messages : List Message) : Prop :=
  ∀ m ∈ messages, ∀ u ∈ m.toolUses, u.toolUseID ∈ resultIDs messages

instance (messages : List Message) : Decidable (KeepsAnswers messages) :=
  inferInstanceAs (Decidable (∀ m ∈ messages, ∀ u ∈ m.toolUses, u.toolUseID ∈ resultIDs messages))
instance (s : World) : Decidable s.Closed := inferInstanceAs (Decidable (KeepsAnswers s.added))

def Message.FollowsResults (m : Message) : Prop := m.isToolResults = true ∨ m.role = .assistant
def ResultsThenAssistant (messages : List Message) : Prop :=
  messages.IsChain fun m next => m.isToolResults = true → next.FollowsResults

instance (m : Message) : Decidable m.FollowsResults :=
  inferInstanceAs (Decidable (m.isToolResults = true ∨ m.role = .assistant))
instance (messages : List Message) : Decidable (ResultsThenAssistant messages) :=
  inferInstanceAs (Decidable
    (messages.IsChain fun m next => m.isToolResults = true → next.FollowsResults))

variable {m : Message}
private theorem resultsThenAssistant_other (h : m.isToolResults = false) (rest : List Message) :
    ResultsThenAssistant (m :: rest) ↔ ResultsThenAssistant rest := by
  simp [ResultsThenAssistant,isChain_cons,h]

variable {run : List Message}
private theorem resultsThenAssistant_run (hrun : ∀ m ∈ run, m.isToolResults = true) (hne : run ≠ [])
    (rest : List Message) :
    ResultsThenAssistant (run ++ rest) ↔
      (∀ next ∈ rest.head?, next.FollowsResults) ∧ ResultsThenAssistant rest := by
  induction run with
  | nil => exact absurd rfl hne
  | cons m run ih =>
    have hm := hrun m mem_cons_self
    cases run with
    | nil => simp [ResultsThenAssistant,isChain_cons,hm]
    | cons m' run =>
      have hm' := hrun m' (by simp)
      rw [← ih (fun x hx => hrun x (mem_cons_of_mem _ hx)) (cons_ne_nil _ _)]
      simp [ResultsThenAssistant,isChain_cons_cons,hm',Message.FollowsResults]

variable {rest : List Message}
private theorem mem_lastOfRuns_cons {x : Message} (h : x ∈ lastOfRuns (m :: rest)) :
    x = m ∨ x ∈ lastOfRuns rest := by
  cases rest with
  | nil => exact Or.inl (mem_singleton.mp h)
  | cons m' rest =>
    by_cases hrole : m'.role = m.role
    · rw [lastOfRuns_same hrole] at h
      exact Or.inr h
    · rw [lastOfRuns_other hrole] at h
      exact mem_cons.mp h

private theorem mem_lastOfRuns_tail {x : Message} (h : x ∈ lastOfRuns rest) :
    x ∈ lastOfRuns (m :: rest) := by
  cases rest with
  | nil => cases h
  | cons m' rest =>
    by_cases hrole : m'.role = m.role
    · rwa [lastOfRuns_same hrole]
    · rw [lastOfRuns_other hrole]
      exact mem_cons_of_mem _ h

private theorem head_mem_lastOfRuns (h : ∀ next ∈ rest.head?, next.role ≠ m.role) :
    m ∈ lastOfRuns (m :: rest) := by
  cases rest with
  | nil => exact mem_singleton_self m
  | cons m' rest =>
    rw [lastOfRuns_other (h m' rfl)]
    exact mem_cons_self

variable {messages : List Message}
theorem mem_of_mem_lastOfRuns {x : Message} (h : x ∈ lastOfRuns messages) : x ∈ messages := by
  induction messages with
  | nil => cases h
  | cons m rest ih =>
    rcases mem_lastOfRuns_cons h with rfl | h
    · exact mem_cons_self
    · exact mem_cons_of_mem _ (ih h)

private theorem mem_lastOfRuns_append (before : List Message)
    (h : ∀ next ∈ rest.head?, next.role ≠ m.role) : m ∈ lastOfRuns (before ++ m :: rest) := by
  induction before with
  | nil => exact head_mem_lastOfRuns h
  | cons _ _ ih => exact mem_lastOfRuns_tail ih

private theorem openingMessage_plain (messages : List Message) :
    ∀ m ∈ openingMessage messages, m.toolUses = [] ∧ m.resultIDs = [] := by
  intro m hm
  cases messages with
  | nil => cases hm
  | cons first rest =>
    rw [openingMessage] at hm
    split at hm
    · cases hm
    · rw [mem_singleton.mp hm]
      exact ⟨rfl,rfl⟩

private theorem keepsAnswers_remove (messages : List Message) :
    KeepsAnswers (normalizeMessages messages .remove) ↔ KeepsAnswers (lastOfRuns messages) := by
  have hids : resultIDs (openingMessage messages ++ lastOfRuns messages) =
      resultIDs (lastOfRuns messages) := by
    rw [resultIDs_append]
    have hnone : resultIDs (openingMessage messages) = [] :=
      flatMap_eq_nil_iff.mpr fun m hm => (openingMessage_plain messages m hm).2
    rw [hnone,nil_append]
  rw [normalizeMessages_remove,normRemove_opening,KeepsAnswers,KeepsAnswers,hids]
  constructor
  · intro h m hm
    exact h m (mem_append_right _ hm)
  · intro h m hm u hu
    rcases mem_append.mp hm with hm | hm
    · rw [(openingMessage_plain messages m hm).1] at hu
      cases hu
    · exact h m hm u hu

theorem StartsFresh.head_not_results (h : StartsFresh messages) (hm : m ∈ messages.head?) :
    m.isToolResults = false := by
  obtain ⟨rest,rfl⟩ := List.head?_eq_some_iff.mp hm
  cases hresults : m.isToolResults with
  | false => rfl
  | true =>
    rw [StartsFresh,takeWhile_cons_of_pos hresults] at h
    cases h

variable {es : List Exchange}
private theorem toolResults_results (results : List ToolResultBlock) :
    toolResults ⟨.user,results.map .toolResult⟩ = results := by
  rw [toolResults,filterMap_map]
  exact filterMap_some
private theorem resultIDs_results (results : List ToolResultBlock) :
    Message.resultIDs ⟨.user,results.map .toolResult⟩ = results.map (·.toolUseID) := by
  rw [Message.resultIDs,toolResults_results]

theorem Exchanged.paired (h : Exchanged messages es) : Paired messages es := by
  induction h with
  | nil => exact .nil
  | plain hasks hresults _ ih => exact .plain hasks hresults ih
  | batch e hrole huses hresults hanswered _ ih =>
    exact @Paired.batch _ [_] _ _ e hrole huses hresults
      (forall_mem_singleton.mpr (isToolResults_results hanswered.results_ne_nil))
      (by simp [toolResults_results]) hanswered ih

def Exchange.ids (e : Exchange) : List String := e.uses.map (·.toolUseID)

theorem mem_resultIDs_of_lastOfRuns {id : String} (h : id ∈ resultIDs (lastOfRuns messages)) :
    id ∈ resultIDs messages := by
  obtain ⟨m,hm,hid⟩ := mem_flatMap.mp h
  exact mem_flatMap.mpr ⟨m,mem_of_mem_lastOfRuns hm,hid⟩

theorem Exchanged.results_kept (h : Exchanged messages es) (hnext : ResultsThenAssistant messages)
    {e : Exchange} (he : e ∈ es) : ⟨.user,e.results.map .toolResult⟩ ∈ lastOfRuns messages := by
  induction h with
  | nil => cases he
  | plain _ hresults _ ih =>
    rw [resultsThenAssistant_other (not_isToolResults hresults)] at hnext
    exact mem_lastOfRuns_tail (ih hnext he)
  | @batch m rest es e' _ _ hresults hanswered hrest ih =>
    have hrun := @resultsThenAssistant_run [⟨.user,e'.results.map .toolResult⟩]
      (by simp [isToolResults_results hanswered.results_ne_nil]) (by simp) rest
    rw [resultsThenAssistant_other (not_isToolResults hresults)] at hnext
    obtain ⟨hhead,hnext⟩ := hrun.mp hnext
    apply mem_lastOfRuns_tail
    rcases mem_cons.mp he with rfl | he
    · apply head_mem_lastOfRuns
      intro next hmem hrole
      rcases hhead next hmem with hresults | hassistant
      · rw [hrest.paired.startsFresh.head_not_results hmem] at hresults
        cases hresults
      · cases hassistant.symm.trans hrole
    · exact mem_lastOfRuns_tail (ih hnext he)

theorem Exchanged.results_lost (h : Exchanged messages es) (hids : (es.flatMap Exchange.ids).Nodup)
    (hnext : ¬ ResultsThenAssistant messages) :
    ∃ e ∈ es, e.uses ≠ [] ∧ (∃ m ∈ lastOfRuns messages, m.toolUses = e.uses) ∧
      ∀ id ∈ e.ids, id ∉ resultIDs (lastOfRuns messages) := by
  induction h with
  | nil => exact absurd isChain_nil hnext
  | @plain m rest es _ hresults _ ih =>
    rw [resultsThenAssistant_other (not_isToolResults hresults)] at hnext
    obtain ⟨e,he,hne,⟨x,hx,huses⟩,hlost⟩ := ih hids hnext
    refine ⟨e,he,hne,⟨x,mem_lastOfRuns_tail hx,huses⟩,?_⟩
    intro id hid hkept
    obtain ⟨x,hx,hmem⟩ := mem_flatMap.mp hkept
    rcases mem_lastOfRuns_cons hx with rfl | hx
    · rw [Message.resultIDs,hresults] at hmem
      cases hmem
    · exact hlost id hid (mem_flatMap.mpr ⟨x,hx,hmem⟩)
  | @batch m rest es e hrole huses hresults hanswered hrest ih =>
    rw [flatMap_cons,nodup_append] at hids
    obtain ⟨-,hrestIDs,hdisjoint⟩ := hids

    have hrun := @resultsThenAssistant_run [⟨.user,e.results.map .toolResult⟩]
      (by simp [isToolResults_results hanswered.results_ne_nil]) (by simp) rest
    rw [resultsThenAssistant_other (not_isToolResults hresults)] at hnext
    by_cases hlater : ResultsThenAssistant rest
    · -- the message behind the results takes their place
      have hhead : ∃ next ∈ rest.head?, ¬ next.FollowsResults := by
        by_contra hall
        push Not at hall
        exact hnext (hrun.mpr ⟨hall,hlater⟩)
      obtain ⟨next,hmem,hother⟩ := hhead
      have huser : next.role = .user := by
        cases hrole : next.role with
        | user => rfl
        | assistant => exact absurd (Or.inr hrole) hother
      obtain ⟨others,rfl⟩ := List.head?_eq_some_iff.mp hmem
      refine ⟨e,mem_cons_self,hanswered.2.2,⟨m,?_,huses⟩,?_⟩
      · apply head_mem_lastOfRuns
        intro x hx hrole'
        cases hx
        cases hrole'.trans hrole
      · intro id hid hkept
        rw [lastOfRuns_other (by rw [hrole]; simp),lastOfRuns_same huser] at hkept
        obtain ⟨x,hx,hmem⟩ := mem_flatMap.mp hkept
        rcases mem_cons.mp hx with rfl | hx
        · rw [Message.resultIDs,hresults] at hmem
          cases hmem
        · have hother := mem_resultIDs_of_lastOfRuns (mem_flatMap.mpr ⟨x,hx,hmem⟩)
          exact hdisjoint id hid id (hrest.paired.resultIDs_perm.mem_iff.mp hother) rfl
    · obtain ⟨e',he',hne,⟨x,hx,huses'⟩,hlost⟩ := ih hrestIDs hlater
      refine ⟨e',mem_cons_of_mem _ he',hne,⟨x,mem_lastOfRuns_tail (mem_lastOfRuns_tail hx),huses'⟩,
        ?_⟩
      intro id hid hkept
      obtain ⟨x,hx,hmem⟩ := mem_flatMap.mp hkept
      rcases mem_lastOfRuns_cons hx with rfl | hx
      · rw [Message.resultIDs,hresults] at hmem
        cases hmem
      rcases mem_lastOfRuns_cons hx with rfl | hx
      · rw [resultIDs_results,hanswered.1] at hmem
        exact hdisjoint id hmem id (mem_flatMap.mpr ⟨e',he',hid⟩) rfl
      · exact hlost id hid (mem_flatMap.mpr ⟨x,hx,hmem⟩)

def AssistantCalls (messages : List Message) : Prop :=
  ∀ m ∈ messages, m.toolUses ≠ [] → m.role = .assistant

theorem Exchanged.keepsAnswers_iff (h : Exchanged messages es)
    (hids : (es.flatMap Exchange.ids).Nodup) (hcalls : AssistantCalls messages) :
    KeepsAnswers (normalizeMessages messages .remove) ↔ ResultsThenAssistant messages := by
  rw [keepsAnswers_remove]
  constructor
  · intro hkeeps
    by_contra hnext
    obtain ⟨e,-,hne,⟨m,hm,huses⟩,hlost⟩ := h.results_lost hids hnext
    obtain ⟨u,hu⟩ := exists_mem_of_ne_nil _ hne
    exact hlost u.toolUseID (mem_map_of_mem hu) (hkeeps m hm u (huses ▸ hu))
  · intro hnext m hm u hu
    have hmem := mem_of_mem_lastOfRuns hm
    have hne : m.toolUses ≠ [] := ne_nil_of_mem hu
    obtain ⟨e,he,huses,hanswered⟩ := h.paired.uses_mem hmem ⟨hcalls m hmem hne,hne⟩
    refine mem_flatMap.mpr ⟨_,h.results_kept hnext he,?_⟩
    rw [resultIDs_results,hanswered.1]
    exact mem_map_of_mem (huses ▸ hu)

private theorem stripWidgets_append (messages others : List Message) :
    stripWidgets (messages ++ others) = stripWidgets messages ++ stripWidgets others :=
  filterMap_append
private theorem stripWidgets_head (m : Message) (rest : List Message) :
    stripWidgets (m :: rest) = stripWidgets [m] ++ stripWidgets rest :=
  stripWidgets_append [m] rest
private theorem role_of_isToolResults (h : m.isToolResults = true) : m.role = .user := by
  simp only [isToolResults,Bool.and_eq_true,beq_iff_eq] at h
  exact h.1
private theorem eq_of_isToolResults (h : m.isToolResults = true) :
    m = ⟨.user,m.toolResults.map .toolResult⟩ := by
  rw [← role_of_isToolResults h,← content_of_isToolResults h]

theorem stripWidgets_run (h : ∀ m ∈ run, m.isToolResults = true) : stripWidgets run = run := by
  induction run with
  | nil => rfl
  | cons m run ih =>
    have hm := h m mem_cons_self
    rw [eq_of_isToolResults hm,stripWidgets_results (onlyToolResults_toolResults hm),
      ih fun x hx => h x (mem_cons_of_mem _ hx)]

private theorem stripWidgets_single (m : Message) : (stripWidgets [m] = [] ∧ m.toolUses = []) ∨
      ∃ m', stripWidgets [m] = [m'] ∧ m'.role = m.role ∧ m'.toolUses = m.toolUses ∧
        m'.toolResults = m.toolResults := by
  obtain ⟨content,huses,hresults,hstrip⟩ := stripWidgets_cons m []
  by_cases hcontent : content = []
  · rw [if_pos hcontent] at hstrip
    rw [hcontent] at huses
    exact Or.inl ⟨hstrip,huses.symm⟩
  · rw [if_neg hcontent] at hstrip
    exact Or.inr ⟨_,hstrip,rfl,huses,hresults⟩

theorem Paired.resultsThenAssistant_iff (h : Paired messages es) {tail tail' : List Message}
    (hhead : tail.head? = tail'.head?)
    (hiff : ResultsThenAssistant tail ↔ ResultsThenAssistant tail') :
    (stripWidgets (projectToolResultOrder messages) ++ tail).head? =
        (stripWidgets messages ++ tail').head? ∧
      (ResultsThenAssistant (stripWidgets (projectToolResultOrder messages) ++ tail) ↔
        ResultsThenAssistant (stripWidgets messages ++ tail')) := by
  induction h with
  | nil => exact ⟨hhead,hiff⟩
  | @plain m rest es hasks hresults _ ih =>
    rw [projectToolResultOrder_plain hasks,stripWidgets_head m,stripWidgets_head m rest]
    rcases stripWidgets_single m with ⟨hnone,-⟩ | ⟨m',hsingle,-,-,hresults'⟩
    · rw [hnone]
      exact ih
    · rw [hsingle]
      have hother := not_isToolResults (hresults'.trans hresults)
      refine ⟨rfl,?_⟩
      rw [singleton_append,singleton_append,cons_append,cons_append,
        resultsThenAssistant_other hother,resultsThenAssistant_other hother]
      exact ih.2
  | @batch m run rest es e hrole huses hresults hrun hperm hanswered hrest ih =>
    rw [projectToolResultOrder_batch hrole huses hrun hperm hanswered hrest.startsFresh,
      stripWidgets_head m,stripWidgets_results hanswered.results_ne_nil,
      stripWidgets_head m (run ++ rest),stripWidgets_append run,stripWidgets_run hrun]
    rcases stripWidgets_single m with ⟨-,hnone⟩ | ⟨m',hsingle,-,-,hresults'⟩
    · exact absurd (huses.symm.trans hnone) hanswered.2.2
    · rw [hsingle]
      have hother := not_isToolResults (hresults'.trans hresults)
      have hne : run ≠ [] := by
        rintro rfl
        exact hanswered.results_ne_nil hperm.eq_nil
      have hgroup := @resultsThenAssistant_run [⟨.user,e.results.map .toolResult⟩]
        (by simp [isToolResults_results hanswered.results_ne_nil]) (by simp)
      refine ⟨rfl,?_⟩
      simp only [cons_append,append_assoc,nil_append] at hgroup ⊢
      rw [resultsThenAssistant_other hother,resultsThenAssistant_other hother,
        resultsThenAssistant_run hrun hne,← ih.1,← ih.2]
      exact hgroup _

private theorem toolUses_of_isToolResults (h : m.isToolResults = true) : m.toolUses = [] := by
  rw [toolUses,content_of_isToolResults h,filterMap_map]
  exact filterMap_eq_nil_iff.mpr fun _ _ => rfl

section
variable (h : AssistantCalls messages)
include h
theorem AssistantCalls.append {others : List Message} (hothers : AssistantCalls others) :
    AssistantCalls (messages ++ others) := by
  intro m hm
  rcases mem_append.mp hm with hm | hm
  · exact h m hm
  · exact hothers m hm

theorem AssistantCalls.sublist {others : List Message} (hsub : others.Sublist messages) :
    AssistantCalls others :=
  fun m hm => h m (hsub.subset hm)

theorem AssistantCalls.projected : AssistantCalls (projectToolResultOrder messages) := by
  induction messages using grouping_induction with
  | nil => exact h
  | groups m rest hgroups ih =>
    have hsub := dropWhile_sublist (l := rest) isToolResults
    rw [projectToolResultOrder_groups hgroups]
    intro x hx hne
    rcases mem_cons.mp hx with rfl | hx
    · exact hgroups.1
    rcases mem_cons.mp hx with rfl | hx
    · exact absurd (toolUses_of_isToolResults hgroups.isToolResults_grouped) hne
    · exact ih (h.sublist (hsub.trans (sublist_cons_self _ _))) x hx hne
  | single m rest hsingle ih =>
    rw [projectToolResultOrder_single hsingle]
    intro x hx
    rcases mem_cons.mp hx with rfl | hx
    · exact h x mem_cons_self
    · exact ih (h.sublist (sublist_cons_self _ _)) x hx

theorem AssistantCalls.stripped : AssistantCalls (stripWidgets messages) := by
  induction messages with
  | nil => exact h
  | cons m rest ih =>
    rw [stripWidgets_head]
    refine AssistantCalls.append ?_ (ih (h.sublist (sublist_cons_self _ _)))
    rcases stripWidgets_single m with ⟨hnone,-⟩ | ⟨m',hsingle,hrole,huses,-⟩
    · rw [hnone]
      nofun
    · rw [hsingle]
      intro x hx hne
      rw [mem_singleton.mp hx] at hne ⊢
      rw [hrole]
      exact h m mem_cons_self (huses ▸ hne)
end
/-- A conversation in which every call is answered behind it, by exchanges with distinct calls. -/
structure Settled (messages : List Message) : Prop where
  paired : ∃ es, Paired messages es
  distinct : (resultIDs messages).Nodup
  assistant : AssistantCalls messages

/-- The transient messages: none, or a context and the answer that closes it. -/
def ContextPair (transient : List Message) : Prop :=
  transient = [] ∨ ∃ context, transient = [contextMessage context,okMessage]

variable {transient : List Message}
theorem ContextPair.plain (h : ContextPair transient) :
    ∀ m ∈ transient, m.toolUses = [] ∧ m.toolResults = [] := by
  rcases h with rfl | ⟨context,rfl⟩
  · simp
  · simp only [mem_cons,not_mem_nil,or_false]
    rintro m (rfl | rfl)
    · exact ⟨rfl,rfl⟩
    · exact ⟨rfl,rfl⟩

theorem ContextPair.stripped (h : ContextPair transient) : stripWidgets transient = transient := by
  rcases h with rfl | ⟨context,rfl⟩
  · rfl
  · rfl

theorem ContextPair.resultsThenAssistant_iff (h : ContextPair transient) {tail tail' : List Message}
    (hhead : tail.head? = tail'.head?)
    (hiff : ResultsThenAssistant tail ↔ ResultsThenAssistant tail') :
    (transient ++ tail).head? = (transient ++ tail').head? ∧
      (ResultsThenAssistant (transient ++ tail) ↔ ResultsThenAssistant (transient ++ tail')) := by
  rcases h with rfl | ⟨context,rfl⟩
  · exact ⟨hhead,hiff⟩
  · refine ⟨rfl,?_⟩
    have htext : ∀ rest, ResultsThenAssistant ([contextMessage context,okMessage] ++ rest) ↔
        ResultsThenAssistant rest := by
      intro rest
      exact (resultsThenAssistant_other (not_isToolResults rfl) _).trans
        (resultsThenAssistant_other (not_isToolResults rfl) _)
    rw [htext,htext]
    exact hiff

private theorem assistantCalls_plain (h : ∀ m ∈ messages, m.toolUses = [] ∧ m.toolResults = []) :
    AssistantCalls messages :=
  fun m hm hne => absurd (h m hm).1 hne

variable {k : Nat}
theorem Settled.exchanged {messages : TurnMessages} (h : Settled messages.canonical)
    (hcontext : ContextPair messages.transient) (hcut : StartsFresh (messages.canonical.drop k)) :
    ∃ es, Exchanged (stripWidgets (messages.providerMessages k)) es ∧
      (es.flatMap Exchange.ids).Nodup := by
  obtain ⟨es,hpaired⟩ := h.paired
  obtain ⟨es1,es2,rfl,htake,hdrop⟩ := hpaired.split k hcut
  refine ⟨es1 ++ es2,?_,hpaired.resultIDs_perm.nodup_iff.mp h.distinct⟩
  have happend := (htake.projected.append (exchanged_plain hcontext.plain)).append hdrop.projected
  rw [append_nil] at happend
  rw [providerMessages_cut]
  exact happend.stripped

theorem AssistantCalls.provided {messages : TurnMessages} (h : AssistantCalls messages.canonical)
    (hcontext : ContextPair messages.transient) (k : Nat) :
    AssistantCalls (stripWidgets (messages.providerMessages k)) := by
  rw [providerMessages_cut]
  have htake := (h.sublist (take_sublist k _)).projected
  have hdrop := (h.sublist (drop_sublist k _)).projected
  exact ((htake.append (assistantCalls_plain hcontext.plain)).append hdrop).stripped

def TurnMessages.inserted (messages : TurnMessages) (persistedCount : Nat) : List Message :=
  messages.canonical.take persistedCount ++ messages.transient ++
    messages.canonical.drop persistedCount

theorem Settled.keepsAnswers_iff {messages : TurnMessages} (h : Settled messages.canonical)
    (hcontext : ContextPair messages.transient) (hcut : StartsFresh (messages.canonical.drop k)) :
    KeepsAnswers (normalizeMessages (stripWidgets (messages.providerMessages k)) .remove) ↔
      ResultsThenAssistant (stripWidgets (messages.inserted k)) := by
  obtain ⟨es,hexchanged,hids⟩ := h.exchanged hcontext hcut
  rw [hexchanged.keepsAnswers_iff hids (h.assistant.provided hcontext k),
    providerMessages_cut,inserted]
  obtain ⟨es',hpaired⟩ := h.paired
  obtain ⟨es1,es2,-,htake,hdrop⟩ := hpaired.split k hcut
  obtain ⟨hhead,hiff⟩ := @Paired.resultsThenAssistant_iff _ _ hdrop [] [] rfl Iff.rfl
  rw [append_nil,append_nil] at hhead hiff
  obtain ⟨hhead,hiff⟩ := hcontext.resultsThenAssistant_iff hhead hiff
  simp only [stripWidgets_append,hcontext.stripped,append_assoc]
  exact (htake.resultsThenAssistant_iff hhead hiff).2

private theorem resultIDs_eq_content (messages : List Message) : resultIDs messages =
      ((messages.flatMap Message.content).filterMap ContentBlock.toolResult?).map (·.toolUseID) := by
  rw [resultIDs_eq_map,filterMap_flatMap]
  rfl
private theorem mem_resultIDs_projected {id : String} :
    id ∈ resultIDs (projectToolResultOrder messages) ↔ id ∈ resultIDs messages := by
  rw [resultIDs_eq_content,resultIDs_eq_content]
  exact (((projectToolResultOrder_content messages).filterMap _).map _).mem_iff

private theorem resultIDs_stripWidgets (messages : List Message) :
    resultIDs (stripWidgets messages) = resultIDs messages := by
  induction messages with
  | nil => rfl
  | cons m rest ih =>
    obtain ⟨content,-,hresults,hstrip⟩ := stripWidgets_cons m rest
    have hids : Message.resultIDs { m with content := content } = m.resultIDs := by
      rw [Message.resultIDs,Message.resultIDs,← hresults]
      rfl
    have hcons : resultIDs (m :: rest) = m.resultIDs ++ resultIDs rest := flatMap_cons
    rw [hstrip,hcons,← hids,← ih]
    split
    · rename_i hcontent
      rw [hcontent]
      rfl
    · rfl

private theorem mem_resultIDs_provided {id : String} {messages : TurnMessages}
    (hcontext : ContextPair messages.transient)
    (h : id ∈ resultIDs (lastOfRuns (stripWidgets (messages.providerMessages k)))) :
    id ∈ resultIDs messages.canonical := by
  have hmem := mem_resultIDs_of_lastOfRuns h
  rw [resultIDs_stripWidgets,providerMessages_cut,resultIDs_append,resultIDs_append,
    mem_append,mem_append,mem_resultIDs_projected,mem_resultIDs_projected] at hmem
  rw [← take_append_drop k messages.canonical,resultIDs_append,mem_append]
  rcases hmem with (hmem | hmem) | hmem
  · exact Or.inl hmem
  · obtain ⟨m,hm,hid⟩ := mem_flatMap.mp hmem
    rw [Message.resultIDs,(hcontext.plain m hm).2] at hid
    cases hid
  · exact Or.inr hmem

theorem OpenBatch.projected (h : OpenBatch m run) :
    ∃ tail, projectToolResultOrder (m :: run) = m :: tail ∧ ∀ x ∈ tail, x.isToolResults = true := by
  have hall : run.takeWhile isToolResults = run :=
    takeWhile_eq_self_iff.mpr h.results
  by_cases hrun : run = []
  · have hsingle : ¬ m.Groups run := fun hgroups => hgroups.2.2 (hall.trans hrun)
    refine ⟨[],?_,by simp⟩
    rw [projectToolResultOrder_single hsingle,hrun]
    rfl
  · have hgroups : m.Groups run :=
      ⟨h.role,useOrder_ne_nil.mpr h.uses,by rw [hall]; exact hrun⟩
    refine ⟨[m.grouped run],?_,?_⟩
    · rw [projectToolResultOrder_groups hgroups,hall,dropWhile_eq_nil_iff.mpr h.results]
      rfl
    · intro x hx
      rw [mem_singleton.mp hx]
      have hgrouped := hgroups.isToolResults_grouped
      rwa [hall] at hgrouped

theorem OpenBatch.provided {messages : TurnMessages} {done : List Message} (h : OpenBatch m run)
    (hcanonical : messages.canonical = done ++ m :: run) (hcontext : ContextPair messages.transient)
    (hcut : StartsFresh (messages.canonical.drop k)) :
    ∃ before after, messages.providerMessages k = before ++ m :: after ∧
      ∀ x ∈ (stripWidgets after).head?, x.role = .user := by
  obtain ⟨tail,htail,hresults⟩ := h.projected
  have hfresh : StartsFresh (m :: run) := startsFresh_cons (not_isToolResults h.noResults) run
  rw [providerMessages_cut]
  rw [hcanonical] at hcut ⊢
  rcases Nat.lt_or_ge done.length k with hlt | hle
  · -- nothing is left behind the cut, which would start with results
    have hnone : (done ++ m :: run).drop k = [] := by
      rw [drop_append,drop_of_length_le (Nat.le_of_lt hlt),nil_append,
        show k - done.length = (k - done.length - 1) + 1 by omega,drop_succ_cons] at hcut ⊢
      rw [← append_nil (run.drop _)] at hcut
      exact hcut.run_nil fun x hx => h.results x (mem_of_mem_drop hx)
    refine ⟨projectToolResultOrder done,tail ++ messages.transient,?_,?_⟩
    · rw [hnone,take_of_length_le (drop_eq_nil_iff.mp hnone),projectToolResultOrder_append hfresh,
        htail]
      simp
    · rw [stripWidgets_append,stripWidgets_run hresults,hcontext.stripped]
      intro x hx
      cases tail with
      | nil =>
        rcases hcontext with hnil | ⟨context,hpair⟩
        · rw [hnil] at hx
          cases hx
        · rw [hpair] at hx
          cases hx
          rfl
      | cons answer others =>
        cases hx
        exact role_of_isToolResults (hresults _ mem_cons_self)
  · refine ⟨projectToolResultOrder ((done ++ m :: run).take k) ++ messages.transient ++
      projectToolResultOrder (done.drop k),tail,?_,?_⟩
    · rw [drop_append_of_le_length hle,projectToolResultOrder_append hfresh,htail]
      simp
    · rw [stripWidgets_run hresults]
      intro x hx
      exact role_of_isToolResults (hresults x (mem_of_mem_head? hx))

theorem OpenBatch.not_keepsAnswers {messages : TurnMessages} {done : List Message}
    (h : OpenBatch m run) (hcanonical : messages.canonical = done ++ m :: run) {u : ToolUseBlock}
    (hu : u ∈ m.toolUses) (hopen : u.toolUseID ∉ resultIDs messages.canonical)
    (hcontext : ContextPair messages.transient) (hcut : StartsFresh (messages.canonical.drop k)) :
    ¬ KeepsAnswers (normalizeMessages (stripWidgets (messages.providerMessages k)) .remove) := by
  rw [keepsAnswers_remove]
  intro hkeeps
  obtain ⟨before,after,hprovided,hafter⟩ := h.provided hcanonical hcontext hcut
  rcases stripWidgets_single m with ⟨-,hnone⟩ | ⟨m',hsingle,hrole,huses,-⟩
  · exact h.uses hnone
  have hkept : m' ∈ lastOfRuns (stripWidgets (messages.providerMessages k)) := by
    rw [hprovided,stripWidgets_append,stripWidgets_head,hsingle,singleton_append]
    apply mem_lastOfRuns_append
    intro x hx heq
    rw [hafter x hx,hrole,h.role] at heq
    cases heq
  exact hopen (mem_resultIDs_provided hcontext (hkeeps m' hkept u (huses ▸ hu)))

theorem World.messages_eq_added (s : World) : s.messages = s.seedMessages ++ s.added := by
  rw [World.added,World.messages,drop_left]

section
variable [Host] {s : World}
theorem LegalAppend.assistantCalls {w : Nat} {e : Execution} {label : AppendLabel}
    {ms : List Message} (h : LegalAppend s w e label ms) : AssistantCalls ms := by
  cases h with
  | turn nonempty text base => exact assistantCalls_plain text
  | toolUse batch planned uses nodup behind =>
    intro m hm _
    rw [mem_singleton.mp hm]
    exact (Bool.and_eq_true_iff.mp uses).1 |> beq_iff_eq.mp
  | results batch dispatchable dispatched nonempty pending boundary nodup unanswered =>
    intro m hm hne
    rw [mem_singleton.mp hm] at hne
    exact absurd (toolUses_of_isToolResults (isToolResults_resultBlocks nonempty)) hne
  | resolution batch launched resolution boundary known unanswered =>
    intro m hm hne
    rw [mem_singleton.mp hm] at hne
    exact absurd rfl hne

theorem Valid.assistantCalls (hv : Valid s) : AssistantCalls s.added := by
  apply hv.added_induction
  · intro m hm
    cases hm
  · intro l w e label ms _ _ _ hl h
    exact h.append hl.assistantCalls

theorem Valid.settled (hv : Valid s) (hidle : s.AnswersIdle) (hold : Settled s.seedMessages)
    (hnew : ∀ m ∈ s.added, ∀ u ∈ m.toolUses, u.toolUseID ∉ resultIDs s.seedMessages)
    (hclosed : s.Closed) : Settled s.messages := by
  obtain ⟨es,hpaired⟩ := (hv.exchanging hidle).paired hv.resultIDs_nodup hclosed
  obtain ⟨es',hpaired'⟩ := hold.paired
  rw [s.messages_eq_added]
  refine ⟨⟨_,hpaired'.append hpaired⟩,?_,hold.assistant.append hv.assistantCalls⟩
  rw [resultIDs_append]
  refine nodup_append.mpr ⟨hold.distinct,hv.resultIDs_nodup,?_⟩
  rintro id hid id' hid' rfl
  rw [hpaired.resultIDs_perm.mem_iff] at hid'
  obtain ⟨e,he,hmem⟩ := mem_flatMap.mp hid'
  obtain ⟨u,hu,rfl⟩ := mem_map.mp hmem
  obtain ⟨m,hm,huses⟩ := hpaired.exchange_mem he
  exact hnew m hm u (huses ▸ hu) hid

theorem Valid.openBatch (hv : Valid s) (hidle : s.AnswersIdle) (hopen : ¬ s.Closed) :
    ∃ done m run, s.added = done ++ m :: run ∧ OpenBatch m run ∧
      ∃ u ∈ m.toolUses, u.toolUseID ∉ resultIDs s.added := by
  simp only [World.Closed,not_forall] at hopen
  obtain ⟨m,hm,u,hu,hid⟩ := hopen
  have hasks : m.Asks :=
    ⟨hv.assistantCalls m hm (ne_nil_of_mem hu),ne_nil_of_mem hu⟩
  obtain ⟨done,es,hpaired,hdone | ⟨m',run,hadded,hbatch,-⟩⟩ := hv.exchanging hidle
  · rw [hdone] at hm hid
    exact absurd (hpaired.answered hm hasks hu) hid
  · refine ⟨done,m',run,hadded,hbatch,u,?_,hid⟩
    rw [hadded] at hm
    rcases mem_append.mp hm with hm | hm
    · refine absurd ?_ hid
      rw [hadded,resultIDs_append]
      exact mem_append_left _ (hpaired.answered hm hasks hu)
    rcases mem_cons.mp hm with rfl | hm
    · exact hu
    · exact absurd (toolUses_of_isToolResults (hbatch.results m hm)) hasks.2

/-- In every run in which a human answer only ever claims a record without an active batch, and
wherever the persisted messages end: removal keeps a result for every call it keeps exactly when
every call has its result and only the assistant follows results. -/
theorem remove_keeps_answers_iff {seed : World} (h : Reaches seed s) (hidle : s.AnswersIdle)
    (hold : Settled s.seedMessages)
    (hnew : ∀ m ∈ s.added, ∀ u ∈ m.toolUses, u.toolUseID ∉ resultIDs s.seedMessages)
    {messages : TurnMessages} (hcanonical : messages.canonical = s.messages)
    (hcontext : ContextPair messages.transient) {persistedCount : Nat}
    (hcut : StartsFresh (s.messages.drop persistedCount)) :
    KeepsAnswers (normalizeMessages (stripWidgets (messages.providerMessages persistedCount))
        .remove) ↔
      s.Closed ∧ ResultsThenAssistant (stripWidgets (messages.inserted persistedCount)) := by
  have hv := h.valid
  rw [← hcanonical] at hcut
  by_cases hclosed : s.Closed
  · have hsettled := hv.settled hidle hold hnew hclosed
    rw [← hcanonical] at hsettled
    rw [hsettled.keepsAnswers_iff hcontext hcut]
    exact (and_iff_right hclosed).symm
  · obtain ⟨done,m,run,hadded,hbatch,u,hu,hid⟩ := hv.openBatch hidle hclosed
    have hmem : m ∈ s.added := by
      rw [hadded]
      simp
    refine iff_of_false ?_ fun hboth => hclosed hboth.1
    have hplace : messages.canonical = (s.seedMessages ++ done) ++ m :: run := by
      rw [hcanonical,s.messages_eq_added,hadded,append_assoc]
    apply hbatch.not_keepsAnswers hplace hu ?_ hcontext hcut
    · rw [hcanonical,s.messages_eq_added,resultIDs_append,mem_append]
      rintro (hseed | hadded)
      · exact hnew m hmem u hu hseed
      · exact hid hadded
end
namespace Scenario
def removed (s : World) : List Message :=
  normalizeMessages (stripWidgets (providerMessages ⟨s.messages,[]⟩ s.messages.length)) .remove
def toolReturns : Script :=
  let a : Agent := { tools := [{ name := "t" }] }
  [enter a (.invoke "hi"),.run 0 99,.step 0 (callsTools ["c1"]),.run 0 99,
    .step 0 (returns "one"),.run 0 99,.step 0 (answers "bye"),.run 0 99]
end Scenario
/-- The human's answer is a user message directly behind the results: the calls stay and their
results go. -/
theorem remove_loses_answers : ∃ s, @Reaches plainHost {} s ∧ s.AnswersIdle ∧ s.Closed ∧
    ¬ KeepsAnswers (removed s) := by
  obtain ⟨s,hs,hP⟩ := @exists_reaches plainHost {} answeredInTime
    (fun s => decide (s.AnswersIdle ∧ s.Closed ∧ ¬ KeepsAnswers (removed s))) rfl
    (by decide +kernel)
  exact ⟨s,hs,of_decide_eq_true hP⟩

theorem remove_keeps_answers_returned : ∃ s, @Reaches plainHost {} s ∧ s.AnswersIdle ∧
    s.messages.length = 4 ∧ KeepsAnswers (removed s) := by
  obtain ⟨s,hs,hP⟩ := @exists_reaches plainHost {} toolReturns
    (fun s => decide (s.AnswersIdle ∧ s.messages.length = 4 ∧ s.seedMessages = [] ∧ s.Closed ∧
      ResultsThenAssistant (stripWidgets (inserted ⟨s.messages,[]⟩
        s.messages.length)))) rfl (by decide +kernel)
  obtain ⟨hidle,hlength,hseed,hclosed,hnext⟩ := of_decide_eq_true hP
  have hold : Settled s.seedMessages := by
    rw [hseed]
    exact ⟨⟨[],.nil⟩,nodup_nil,by simp [AssistantCalls]⟩
  refine ⟨s,hs,hidle,hlength,?_⟩
  exact (@remove_keeps_answers_iff plainHost s {} hs hidle hold (by simp [hseed,resultIDs])
    ⟨s.messages,[]⟩ rfl (Or.inl rfl) s.messages.length (by simp [StartsFresh])).mpr
    ⟨hclosed,hnext⟩
end GudeAgents
