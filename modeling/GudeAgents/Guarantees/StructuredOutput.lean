import GudeAgents.Guarantees.Pairing
import GudeAgents.Guarantees.PreparedTurns
/-!
# The structured request

The structured request is projected twice and neither stripped of widgets nor normalized.
-/
namespace GudeAgents
open Framework List Logic Scenario Engine ContentBlock GudeAgents
def ContentBlock.isWidget : ContentBlock → Bool
  | .widget _ => true
  | _ => false
def Message.Plain (m : Message) : Prop := m.content ≠ [] ∧ ∀ b ∈ m.content, b.isWidget = false

instance (m : Message) : Decidable m.Plain := inferInstanceAs (Decidable (_ ∧ _))

variable {messages : List Message} {keep : ContentBlock → Bool}
private theorem stripBlocks_kept {m : Message} (h : m ∈ stripBlocks keep messages) :
    m.content ≠ [] ∧ ∀ b ∈ m.content, keep b = true := by
  unfold stripBlocks at h
  rw [mem_filterMap] at h
  obtain ⟨m',-,hm⟩ := h
  dsimp only at hm
  split at hm
  · cases hm
  · next hne =>
    cases hm
    refine ⟨hne,?_⟩
    intro b hb
    exact (mem_filter.mp hb).2

theorem stripBlocks_eq_self (h : ∀ m ∈ messages, m.content ≠ [] ∧ ∀ b ∈ m.content, keep b = true) :
    stripBlocks keep messages = messages := by
  induction messages with
  | nil => rfl
  | cons m rest ih =>
    have hm := h m mem_cons_self
    have hsame : m.content.filter keep = m.content := filter_eq_self.mpr hm.2
    rw [stripBlocks_cons,hsame,if_neg hm.1,ih fun m' hm' => h m' (mem_cons_of_mem _ hm')]

theorem ContentBlock.isWidget_iff (b : ContentBlock) : b.isWidget = false ↔ (match b with
    | .widget _ => false
    | _ => true) = true := by
  cases b <;> simp [isWidget]
private theorem stripWidgets_plain : ∀ m ∈ stripWidgets messages, m.Plain := by
  intro m hm
  have hkept := stripBlocks_kept hm
  exact ⟨hkept.1,fun b hb => b.isWidget_iff.mpr (hkept.2 b hb)⟩
theorem stripWidgets_eq_self (h : ∀ m ∈ messages, m.Plain) : stripWidgets messages = messages := by
  apply stripBlocks_eq_self
  intro m hm
  exact ⟨(h m hm).1,fun b hb => b.isWidget_iff.mp ((h m hm).2 b hb)⟩

/-- Messages joined or inserted by a pass keep what single messages have. -/
structure JoinsAndFills (P : Message → Prop) : Prop where
  joined : ∀ m m', P m → P m' → P { m with content := m.content ++ m'.content }
  continued : P continueMessage
  understood : P understoodMessage

theorem Message.joinsAndFills_plain : JoinsAndFills Message.Plain where
  joined m m' h h' := by
    refine ⟨by simp [h.1],?_⟩
    intro b hb
    rcases mem_append.mp hb with hb | hb
    · exact h.2 b hb
    · exact h'.2 b hb
  continued := by decide
  understood := by decide

section
variable {P : Message → Prop} {last : Message} {rest : List Message}
theorem JoinsAndFills.normMergeFrom (hP : JoinsAndFills P) (hlast : P last)
    (hrest : ∀ m ∈ rest, P m) : ∀ m ∈ normMergeFrom last rest, P m := by
  induction rest generalizing last with
  | nil => simpa [normMergeFrom] using hlast
  | cons m rest ih =>
    rw [forall_mem_cons] at hrest
    unfold normMergeFrom
    by_cases h : m.role = last.role
    · rw [if_pos h]
      exact ih (hP.joined _ _ hlast hrest.1) hrest.2
    · rw [if_neg h,forall_mem_cons]
      exact ⟨hlast,ih hrest.1 hrest.2⟩

private theorem forall_mem_normRemoveFrom (hlast : P last) (hrest : ∀ m ∈ rest, P m) :
    ∀ m ∈ normRemoveFrom last rest, P m := by
  induction rest generalizing last with
  | nil => simpa [normRemoveFrom] using hlast
  | cons m rest ih =>
    rw [forall_mem_cons] at hrest
    unfold normRemoveFrom
    by_cases h : m.role = last.role
    · rw [if_pos h]
      exact ih hrest.1 hrest.2
    · rw [if_neg h,forall_mem_cons]
      exact ⟨hlast,ih hrest.1 hrest.2⟩

theorem JoinsAndFills.normFillFrom (hP : JoinsAndFills P) (hlast : P last)
    (hrest : ∀ m ∈ rest, P m) : ∀ m ∈ normFillFrom last rest, P m := by
  induction rest generalizing last with
  | nil => simpa [normFillFrom] using hlast
  | cons m rest ih =>
    rw [forall_mem_cons] at hrest
    have hbehind := ih hrest.1 hrest.2
    unfold normFillFrom
    by_cases h : m.role = last.role
    · rw [if_pos h,forall_mem_cons,forall_mem_cons]
      refine ⟨hlast,?_,hbehind⟩
      split
      · exact hP.understood
      · exact hP.continued
    · rw [if_neg h,forall_mem_cons]
      exact ⟨hlast,hbehind⟩

theorem JoinsAndFills.normalizeMessages (hP : JoinsAndFills P) (h : ∀ m ∈ messages, P m)
    (strategy : NormStrategy) : ∀ m ∈ normalizeMessages messages strategy, P m := by
  unfold GudeAgents.normalizeMessages
  cases messages with
  | nil => cases strategy <;> simp [normMerge,normFill,normRemove]
  | cons m rest =>
    by_cases hrole : m.role = .user
    · simp only [hrole,if_true]
      rw [forall_mem_cons] at h
      cases strategy with
      | merge => exact hP.normMergeFrom h.1 h.2
      | fill => exact hP.normFillFrom h.1 h.2
      | remove => exact forall_mem_normRemoveFrom h.1 h.2
    · simp only [hrole,if_false]
      cases strategy with
      | merge => exact hP.normMergeFrom hP.continued h
      | fill => exact hP.normFillFrom hP.continued h
      | remove => exact forall_mem_normRemoveFrom hP.continued h
end
private theorem modelRequest_eq_self_iff {a : Agent} {tools : List Tool} (htools : tools ≠ [])
    {projected : List Message} :
    projected = (modelRequest a tools projected).messages ↔
      (∀ m ∈ projected, m.Plain) ∧ (a.normDisabled = false → Alternates projected) := by
  simp only [modelRequest,if_neg htools]
  cases hnorm : a.normDisabled with
  | true =>
    simp only [if_true,Bool.true_eq_false,false_implies,and_true]
    constructor
    · intro h
      rw [h]
      exact stripWidgets_plain
    · intro h
      exact (stripWidgets_eq_self h).symm
  | false =>
    simp only [Bool.false_eq_true,if_false,true_implies]
    constructor
    · intro h
      refine ⟨?_,?_⟩
      · rw [h]
        exact Message.joinsAndFills_plain.normalizeMessages stripWidgets_plain _
      · rw [h]
        exact normalizeMessages_alternates _ _
    · rintro ⟨hplain,halternates⟩
      rw [stripWidgets_eq_self hplain,normalizeMessages_of_alternates halternates]

theorem Context.userMessage_isToolResults (c : Context) (message : String) :
    (c.userMessage message).isToolResults = false := by
  simp [Message.isToolResults,onlyToolResults,Context.userMessage,toolResult?]

private theorem projectToolResultOrder_text (h : ∀ m ∈ messages, m.isToolResults = false) :
    projectToolResultOrder messages = messages := by
  induction messages with
  | nil => rfl
  | cons m rest ih =>
    rw [forall_mem_cons] at h
    have hfresh : StartsFresh rest := by
      cases rest with
      | nil => rfl
      | cons m' rest => exact startsFresh_cons (h.2 m' mem_cons_self) rest
    rw [projectToolResultOrder_single fun hgroups => hgroups.2.2 hfresh,ih h.2]

private theorem projectToolResultOrder_behind (history : List Message)
    (h : ∀ m ∈ messages, m.isToolResults = false) :
    projectToolResultOrder (projectToolResultOrder history ++ messages) =
      projectToolResultOrder history ++ messages := by
  have hfresh : StartsFresh messages := by
    cases messages with
    | nil => rfl
    | cons m rest => exact startsFresh_cons (h m mem_cons_self) rest
  rw [projectToolResultOrder_append hfresh,projectToolResultOrder_idempotent,
    projectToolResultOrder_text h]

theorem Prepared.providerMessages_eq {c : Context} {history : List Message} {message : String}
    {messages : TurnMessages} {r : Run} {seen : Seen}
    (h : Prepared c history message messages r seen) :
    messages.providerMessages r.persistedCount =
      projectToolResultOrder history ++ messages.transient ++ [c.userMessage message] := by
  have htext : ∀ m ∈ [c.userMessage message], m.isToolResults = false := by
    simp [c.userMessage_isToolResults]
  rw [TurnMessages.providerMessages_cut,h.persisted,h.canonical,take_left,drop_left,
    projectToolResultOrder_text htext]

theorem Seen.transient_plain (seen : Seen) : ∀ m ∈ seen.transient, m.Plain := by
  intro m hm
  unfold Seen.transient at hm
  split at hm
  · cases hm
  · split at hm
    · cases hm
    · simp only [mem_cons,not_mem_nil,or_false] at hm
      rcases hm with rfl | rfl
      · exact ⟨by simp [contextMessage],by simp [contextMessage,isWidget]⟩
      · decide

theorem Prepared.forall_plain_iff {c : Context} {history : List Message} {message : String}
    {messages : TurnMessages} {r : Run} {seen : Seen}
    (h : Prepared c history message messages r seen) :
    (∀ m ∈ messages.providerMessages r.persistedCount, m.Plain) ↔
      ∀ m ∈ projectToolResultOrder history, m.Plain := by
  have huser : (c.userMessage message).Plain := by
    refine ⟨by simp [Context.userMessage],?_⟩
    simp only [Context.userMessage,mem_append,mem_map,mem_singleton]
    rintro b ((⟨d,-,rfl⟩ | ⟨i,-,rfl⟩) | rfl) <;> rfl
  rw [h.providerMessages_eq,h.transient]
  simp only [forall_mem_append,forall_mem_singleton]
  constructor
  · intro hall
    exact hall.1.1
  · intro hhistory
    exact ⟨⟨hhistory,seen.transient_plain⟩,huser⟩

namespace Engine
variable {a : Agent} {c : Context} {history : List Message} {message : String}
  {messages : TurnMessages} {r : Run} {seen : Seen}
/-- The messages of the request for structured output. -/
def structuredMessages (a : Agent) (messages : TurnMessages) : Engine (List Message) := do
  let (flat,ragStart) ← flattenTurn messages
  modelMessages a flat ragStart

private theorem modelTurnMessages_eq (hmanager : a.contextManager = false)
    (h : r.persistedCount ≤ messages.canonical.length) :
    modelTurnMessages a messages r =
      .done (.ok (messages.providerMessages r.persistedCount),r) := by
  show (if r.persistedCount > messages.canonical.length then _ else _ : Engine (List Message)) r = _
  rw [if_neg (Nat.not_lt.mpr h)]
  rw [hmanager]
  rfl

private theorem modelTurnMessages_regressed (h : messages.canonical.length < r.persistedCount) :
    modelTurnMessages a messages r =
      .done (.error (.text "context projection: canonical history regressed"),r) := by
  show (if r.persistedCount > messages.canonical.length then _ else _ : Engine (List Message)) r = _
  rw [if_pos h]
  rfl

theorem exists_flattenTurn (a : Agent) (messages : TurnMessages) (r : Run) : ∃ flat ragStart,
    flattenTurn messages r = .done (.ok (flat,ragStart),r) ∧
      structuredMessages a messages r = modelMessages a flat ragStart r := by
  unfold structuredMessages flattenTurn
  by_cases htransient : messages.transient = []
  · rw [if_pos htransient]
    exact ⟨_,_,rfl,rfl⟩
  · rw [if_neg htransient]
    exact ⟨_,_,rfl,rfl⟩

private theorem structuredMessages_eq_of_transient_nil (hmanager : a.contextManager = false)
    (h : Prepared c history message messages r seen) (htransient : messages.transient = []) :
    structuredMessages a messages r =
      .done (.ok (messages.providerMessages r.persistedCount),r) := by
  have hflat : structuredMessages a messages r = modelTurnMessages a messages r := by
    unfold structuredMessages flattenTurn
    rw [if_pos htransient]
    show modelTurnMessages a { canonical := messages.canonical, transient := [] } r = _
    rw [← htransient]
  rw [hflat,modelTurnMessages_eq hmanager]
  simp [h.canonical,h.persisted]

/-- Where the flat list is cut depends on how many messages the projection merged away.  Up to
three, the pieces still join to the same list. -/
private theorem recut_eq {recent : List Message} {m m' u : Message} {merged : Nat}
    (hrecent : ∀ texts, (∀ x ∈ texts, x.isToolResults = false) →
      projectToolResultOrder (recent ++ texts) = recent ++ texts) (hm : m.isToolResults = false)
    (hm' : m'.isToolResults = false) (hu : u.isToolResults = false) (hmerged : merged ≤ 3) :
    ∃ canonical transient,
      unflatten (recent ++ [m,m',u]) (some (recent.length + merged)) = ⟨canonical,transient⟩ ∧
      recent.length + merged ≤ canonical.length ∧
      projectToolResultOrder (canonical.take (recent.length + merged)) ++ transient ++
        projectToolResultOrder (canonical.drop (recent.length + merged)) = recent ++ [m,m',u] := by
  have hnil : projectToolResultOrder recent = recent := by simpa using hrecent [] (by simp)
  have hone := hrecent [m] (by simp [hm])
  have htwo := hrecent [m,m'] (by simp [hm,hm'])
  have hthree := hrecent [m,m',u] (by simp [hm,hm',hu])
  have huser : projectToolResultOrder [u] = [u] := projectToolResultOrder_text (by simp [hu])
  obtain rfl | rfl | rfl | rfl : merged = 0 ∨ merged = 1 ∨ merged = 2 ∨ merged = 3 := by omega
  · refine ⟨recent ++ [u],[m,m'],?_,by simp,?_⟩
    · simp [unflatten,persisted,drop_length_add_append]
    · simp [hnil,huser]
  · refine ⟨recent ++ [m],[m',u],?_,by simp,?_⟩
    · simp [unflatten,persisted,Nat.add_assoc,take_length_add_append,drop_length_add_append]
    · simp [take_length_add_append,drop_length_add_append,hone]
  · refine ⟨recent ++ [m,m',u],[],?_,by simp,?_⟩
    · simp [unflatten,persisted]
    · simp [take_length_add_append,drop_length_add_append,htwo,huser]
  · refine ⟨recent ++ [m,m',u],[],?_,by simp,?_⟩
    · simp [unflatten,persisted]
    · simp [take_length_add_append,drop_length_add_append,hthree]

section
variable (hmanager : a.contextManager = false) (h : Prepared c history message messages r seen)
include hmanager h
private theorem structuredMessages_eq_of_transient_pair {m m' : Message}
    (htransient : messages.transient = [m,m']) (hm : m.isToolResults = false)
    (hm' : m'.isToolResults = false) :
    structuredMessages a messages r = .done
      (if history.length ≤ (projectToolResultOrder history).length + 3
        then .ok (messages.providerMessages r.persistedCount)
        else .error (.text "context projection: canonical history regressed"),r) := by
  have hu := c.userMessage_isToolResults message
  have hlist : messages.providerMessages r.persistedCount =
      projectToolResultOrder history ++ [m,m',c.userMessage message] := by
    rw [h.providerMessages_eq,htransient,append_assoc]
    rfl
  have hflat : structuredMessages a messages r = modelTurnMessages a (unflatten
      (projectToolResultOrder history ++ [m,m',c.userMessage message])
      (some r.persistedCount)) r := by
    rw [← hlist]
    unfold structuredMessages flattenTurn
    rw [if_neg (by simp [htransient])]
    rfl
  obtain ⟨merged,hmerged⟩ := Nat.exists_eq_add_of_le (projectToolResultOrder_length_le history)
  have hcount := h.persisted
  rw [hmerged] at hcount
  rw [hflat,hlist]
  by_cases hthree : merged ≤ 3
  · obtain ⟨canonical,transient,hturn,hle,hrecut⟩ :=
      recut_eq (fun texts => projectToolResultOrder_behind history) hm hm' hu hthree
    rw [← hcount] at hturn hle hrecut
    rw [if_pos (by omega),hturn,modelTurnMessages_eq hmanager hle,
      TurnMessages.providerMessages_cut,hrecut]
  · have hshort : (unflatten (projectToolResultOrder history ++ [m,m',c.userMessage message])
        (some r.persistedCount)).canonical.length < r.persistedCount := by
      have hlast : r.persistedCount + 2 >
          (projectToolResultOrder history ++ [m,m',c.userMessage message]).length := by
        simp only [length_append,length_cons,length_nil]
        omega
      show (persisted _ (some _)).length < _
      rw [persisted,if_pos hlast]
      simp only [length_append,length_cons,length_nil]
      omega
    rw [if_neg (by omega),modelTurnMessages_regressed hshort]

private theorem structuredMessages_eq : structuredMessages a messages r = .done
      (if messages.transient = [] ∨ history.length ≤ (projectToolResultOrder history).length + 3
        then .ok (messages.providerMessages r.persistedCount)
        else .error (.text "context projection: canonical history regressed"),r) := by
  by_cases htransient : messages.transient = []
  · rw [structuredMessages_eq_of_transient_nil hmanager h htransient,if_pos (.inl htransient)]
  · have hpair : ∃ context, messages.transient = [contextMessage context,okMessage] := by
      rw [h.transient] at htransient ⊢
      unfold Seen.transient at htransient ⊢
      split at htransient
      · exact absurd rfl htransient
      · next context _ =>
        split at htransient
        · exact absurd rfl htransient
        · next hne => exact ⟨context,if_neg hne⟩
    obtain ⟨context,hpair⟩ := hpair
    rw [structuredMessages_eq_of_transient_pair hmanager h hpair rfl rfl]
    simp [htransient]
end
variable {Fine : ModelRequest → Seen → Prop} {Resp : ModelResponse → Prop}
private theorem keeps_inferenceConfig {J : Run → Prop} : Keeps Resp Fine J inferenceConfig := by
  refine .bind (keeps_ask rfl) fun answer => ?_
  split
  · exact .throw _
  · exact .pure _

private theorem silent_structuredAnswer (a : Agent) (schema : OutputSchema) (flat : List Message)
    (ragStart : Option Nat) (rawText : RawMessage) :
    Silent Resp Fine (structuredAnswer a schema flat ragStart rawText) := by
  unfold structuredAnswer
  split
  · exact .throw _
  · split
    · exact .throw _
    · split
      · exact .throw _
      · refine .bind ?_ fun _ => .pure _
        intro r n _
        rw [wp_mapError]
        exact silent_saveConversation a _ _ r n trivial

private theorem requests_structuredTurn {input : String} {schema : OutputSchema}
    (hmanager : a.contextManager = false) (hr : r.persistedCount = 0)
    (hfine : ∀ history message messages r n request, Prepared c history message messages r n →
      structuredMessages a messages r = .done (.ok request.messages,r) → Fine request n) :
    (requests Resp Fine).wp (structuredTurn a c input schema) r {} (fun _ _ _ => True)
      (fun _ _ _ => True) := by
  have hsilent : ∀ {α : Type} {m : Engine α} {r n}, Silent Resp Fine m →
      (requests Resp Fine).wp m r n (fun _ _ _ => True) (fun _ _ _ => True) := by
    intro α m r n hm
    exact wp_mono (hm r n trivial) (fun _ _ _ _ => trivial) (fun _ _ _ _ => trivial)
  unfold structuredTurn prepareTurn
  rw [wp_bind,wp_mapError,wp_bind]
  refine wp_mono (requests_prepareTurnMessages hr) ?_ (fun _ _ _ _ => trivial)
  rintro messages r1 n1 ⟨-,history,message,hprepared⟩
  obtain ⟨flat,ragStart,hflat,hmessages⟩ := exists_flattenTurn a messages r1
  refine wp_of_done hflat ?_ (fun _ _ => trivial)
  rintro _ ⟨⟩
  rw [wp_bind,wp_mapError]
  refine wp_mono (keeps_inferenceConfig (J := (· = r1)) r1 n1 rfl) ?_ (fun _ _ _ _ => trivial)
  rintro _ r2 n2 ⟨rfl,rfl⟩
  rw [wp_bind,wp_mapError]
  rw [structuredMessages_eq hmanager hprepared] at hmessages
  refine wp_of_done hmessages.symm ?_ (fun _ _ => trivial)
  intro projected hprojected
  rw [wp_bind,wp_attempt]
  have hrequest := hfine _ _ _ _ _
    { messages := projected, system := a.instructions, tools := [structuredOutputToolName] } hprepared
    (by rw [structuredMessages_eq hmanager hprepared,hprojected])
  refine wp_mono (requests_callProvider hrequest) ?_ (fun _ _ _ _ => trivial)
  intro resp r3 n3 _
  apply hsilent
  refine .bind (keeps_addUsage Frame.true _) fun cumulative => ?_
  split
  · exact .throw _
  · split
    · exact .throw _
    · split
      · exact .throw _
      · exact .bind (keeps_guardrails _ _ _) fun rawText =>
          silent_structuredAnswer a schema flat ragStart rawText

/-- The first request of the loop, with `tools` visible, carries `sent`. -/
def LoopSends (a : Agent) (tools : List Tool) (messages : TurnMessages) (r : Run)
    (sent : List Message) : Prop :=
  ∃ projected, modelTurnMessages a messages r = .done (.ok projected,r) ∧
    sent = (modelRequest a tools projected).messages
end Engine
/-- What a structured turn sends is what the loop would send in its first iteration exactly if the
projection merged at most three messages away (where there is transient context), no message of
the history is empty or has a widget, and the roles alternate or need not. -/
theorem structured_request_same_iff {a : Agent} (hmanager : a.contextManager = false) :
    (∀ c input schema r request next seen, r.persistedCount = 0 →
      Program.Runs (Op.Sees fun _ => True) (structuredTurn a c input schema r) {}
        (.call (.callModel request) next) seen →
      ∃ history message messages r', Prepared c history message messages r' seen ∧
        structuredMessages a messages r' = .done (.ok request.messages,r')) ∧
    ∀ c history message messages r seen tools, Prepared c history message messages r seen →
      tools ≠ [] →
      ((∃ sent, structuredMessages a messages r = .done (.ok sent,r) ∧
        Engine.LoopSends a tools messages r sent) ↔
      (messages.transient = [] ∨ history.length ≤ (projectToolResultOrder history).length + 3) ∧
        (∀ m ∈ projectToolResultOrder history, m.Plain) ∧
        (a.normDisabled = false → Alternates (projectToolResultOrder history ++
          messages.transient ++ [c.userMessage message]))) := by
  constructor
  · intro c input schema r request next seen hr hrun
    have hsafe : (requests (fun _ => True) fun request seen =>
        ∃ history message messages r', Prepared c history message messages r' seen ∧
          structuredMessages a messages r' = .done (.ok request.messages,r')).wp
        (structuredTurn a c input schema) r {} (fun _ _ _ => True) (fun _ _ _ => True) := by
      apply requests_structuredTurn hmanager hr
      intro history message messages r' n request hprepared hsent
      exact ⟨history,message,messages,r',hprepared,hsent⟩
    exact (Logic.Safe.runs hsafe hrun).1
  · intro c history message messages r seen tools hprepared htools
    have hcount : r.persistedCount ≤ messages.canonical.length := by
      simp [hprepared.canonical,hprepared.persisted]
    rw [← hprepared.forall_plain_iff,← hprepared.providerMessages_eq,
      ← modelRequest_eq_self_iff htools]
    unfold Engine.LoopSends
    rw [structuredMessages_eq hmanager hprepared,modelTurnMessages_eq hmanager hcount]
    by_cases hcut : messages.transient = [] ∨
        history.length ≤ (projectToolResultOrder history).length + 3
    · simp [hcut]
    · simp [hcut]

namespace Scenario
def historyAnswer (history : List Message) (op : Op) (seen : Seen) : Option (op.Answer × Seen) :=
  match op with
  | .loadAfter .. => some (.ok ⟨history,{ revision := 1, lastSequence := history.length }⟩,seen)
  | op => turnAnswer 0 "" {} ⟨[],.failed "" false⟩ op seen

theorem historyAnswer_sees (history : List Message) (op : Op) (seen : Seen) (answer : op.Answer)
    (seen' : Seen) (h : historyAnswer history op seen = some (answer,seen')) :
    op.Sees (fun _ => True) seen answer seen' := by
  cases op with
  | loadAfter label boundary =>
    cases h
    rfl
  | _ =>
    exact @turnAnswer_sees (fun _ => True) 0 "" {} ⟨[],.failed "" false⟩ trivial _ seen seen'
      answer h

def widgetHistory : List Message :=
  [⟨.user,[.text "hello"]⟩,⟨.assistant,[.text "see",.widget ⟨"chart","\x7b\x7d"⟩]⟩]
def secondTurn : TurnMessages where
  canonical := [⟨.user,[.text "hello"]⟩,⟨.assistant,[.text "see"]⟩, context.userMessage "and now"]

private theorem secondTurn_prepared : Prepared context
    [⟨.user,[.text "hello"]⟩,⟨.assistant,[.text "see"]⟩] "and now" secondTurn
    { persistedCount := 2 } {} where
  canonical := rfl
  persisted := rfl
  transient := rfl
  retrieved _ _ h := nomatch h

def storingAgent : Agent := { conversation := true, tools := [{ name := "t" }] }
def anySchema : OutputSchema := ⟨fun _ => true,fun _ => none,fun _ => none⟩
end Scenario
theorem structured_request_keeps_widget : ∃ request next seen request' next' seen',
    Program.Runs (Op.Sees fun _ => True) (structuredTurn storingAgent
      context "and now" anySchema { convID := "conv" }) {}
      (.call (.callModel request) next) seen ∧
    Program.Runs (Op.Sees fun _ => True) (@freshTurn plainHost storingAgent
      context "and now" { convID := "conv" }) {} (.call (.callModel request') next') seen' ∧
    ¬ (∀ m ∈ request.messages, m.Plain) ∧ request.messages ≠ request'.messages := by
  obtain ⟨request,next,hrun,hP⟩ := exists_request_of
    (p := structuredTurn storingAgent context "and now" anySchema { convID := "conv" })
    (historyAnswer_sees widgetHistory) 9
    (P := fun request => decide (¬ ∀ m ∈ request.messages, m.Plain)) (by decide +kernel)
  obtain ⟨request',next',hrun',hP'⟩ := exists_request_of
    (p := @freshTurn plainHost storingAgent context "and now"
      { convID := "conv" })
    (historyAnswer_sees widgetHistory) 9
    (P := fun request => decide (∀ m ∈ request.messages, m.Plain)) (by decide +kernel)
  have hwidget := of_decide_eq_true hP
  have hplain := of_decide_eq_true hP'
  refine ⟨request,next,_,request',next',_,hrun,hrun',hwidget,?_⟩
  intro hsame
  rw [hsame] at hwidget
  exact hwidget hplain

theorem structured_request_same_plain : ∃ sent,
    structuredMessages storingAgent secondTurn { persistedCount := 2 } =
      .done (.ok sent,{ persistedCount := 2 }) ∧
    Engine.LoopSends storingAgent [{ name := "t" }] secondTurn
      { persistedCount := 2 } sent := by
  have hiff := (structured_request_same_iff (a := storingAgent) rfl).2 _ _ _ _ _ _
    [{ name := "t" }] secondTurn_prepared (by simp)
  apply hiff.mpr
  exact ⟨.inl rfl,by decide,fun _ => by decide⟩
end GudeAgents
