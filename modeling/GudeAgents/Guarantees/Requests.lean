import Mathlib.Algebra.Group.Nat.Even
import GudeAgents.Guarantees.ProviderCalls
namespace GudeAgents
open Framework Logic Scenario Engine Role
def Role.other : Role → Role
  | .user => .assistant
  | .assistant => .user

@[simp] theorem Role.other_other (r : Role) : r.other.other = r := by cases r <;> rfl

theorem Role.ne_iff {r r' : Role} : r ≠ r' ↔ r = r'.other := by
  cases r <;> cases r' <;> simp [other]

def AlternatesFrom : Role → List Message → Prop
  | _, [] => True
  | role, m :: rest => m.role = role ∧ AlternatesFrom role.other rest
/-- User and assistant messages in turn, the user first. -/
def Alternates (messages : List Message) : Prop := AlternatesFrom .user messages

instance decidableAlternatesFrom : (role : Role) → (messages : List Message) →
    Decidable (AlternatesFrom role messages)
  | _, [] => .isTrue trivial
  | role, m :: rest =>
    have := decidableAlternatesFrom role.other rest
    inferInstanceAs (Decidable (m.role = role ∧ AlternatesFrom role.other rest))

instance (messages : List Message) : Decidable (Alternates messages) :=
  decidableAlternatesFrom .user messages

section
variable (last : Message) (rest : List Message)
include last rest
theorem normMergeFrom_alternates : AlternatesFrom last.role (normMergeFrom last rest) := by
  induction rest generalizing last with
  | nil => exact ⟨rfl,trivial⟩
  | cons m rest ih =>
    unfold normMergeFrom
    by_cases h : m.role = last.role
    · rw [if_pos h]
      exact ih { last with content := last.content ++ m.content }
    · rw [if_neg h]
      have hrest := ih m
      rw [ne_iff.mp h] at hrest
      exact ⟨rfl,hrest⟩

theorem normRemoveFrom_alternates : AlternatesFrom last.role (normRemoveFrom last rest) := by
  induction rest generalizing last with
  | nil => exact ⟨rfl,trivial⟩
  | cons m rest ih =>
    unfold normRemoveFrom
    have hrest := ih m
    by_cases h : m.role = last.role
    · rw [if_pos h,← h]
      exact hrest
    · rw [if_neg h]
      rw [ne_iff.mp h] at hrest
      exact ⟨rfl,hrest⟩

theorem normFillFrom_alternates : AlternatesFrom last.role (normFillFrom last rest) := by
  induction rest generalizing last with
  | nil => exact ⟨rfl,trivial⟩
  | cons m rest ih =>
    unfold normFillFrom
    have hrest := ih m
    by_cases h : m.role = last.role
    · rw [if_pos h]
      -- the synthetic message has the other role
      refine ⟨rfl,?_,?_⟩
      · rw [← h]
        cases m.role <;> rfl
      · rw [← h,other_other]
        exact hrest
    · rw [if_neg h]
      rw [ne_iff.mp h] at hrest
      exact ⟨rfl,hrest⟩
end
theorem normalizeMessages_alternates (messages : List Message) (strategy : NormStrategy) :
    Alternates (normalizeMessages messages strategy) := by
  have hworking : ∀ (m : Message) (rest : List Message), m.role = .user →
      Alternates (normMerge (m :: rest)) ∧ Alternates (normFill (m :: rest)) ∧
        Alternates (normRemove (m :: rest)) := by
    intro m rest hrole
    unfold Alternates
    rw [← hrole]
    exact ⟨normMergeFrom_alternates m rest,normFillFrom_alternates m rest,
      normRemoveFrom_alternates m rest⟩
  have hchosen : ∀ (m : Message) (rest : List Message), m.role = .user →
      Alternates (normalizeMessages (m :: rest) strategy) := by
    intro m rest hrole
    simp only [normalizeMessages,hrole,if_true]
    cases strategy with
    | merge => exact (hworking m rest hrole).1
    | fill => exact (hworking m rest hrole).2.1
    | remove => exact (hworking m rest hrole).2.2
  cases messages with
  | nil => cases strategy <;> trivial
  | cons m rest =>
    by_cases h : m.role = .user
    · exact hchosen m rest h
    · have hcontinued := hchosen continueMessage (m :: rest) rfl
      simp only [normalizeMessages,h,if_false]
      exact hcontinued

def Message.toolOnly (m : Message) : Bool :=
  m.content.all fun
    | .toolUse _ | .toolResult _ => true
    | _ => false

/-- Every message with other blocks has an even number of tool-only messages before it. -/
def EvenlyToolOnly (messages : List Message) : Prop :=
  ∀ before m after, messages = before ++ m :: after → m.toolOnly = false →
    Even (before.countP Message.toolOnly)

theorem forall_split_cons {α : Type} {P : α → Prop} {Q : List α → Prop} {x : α} {xs : List α} :
    (∀ before y after, x :: xs = before ++ y :: after → P y → Q before) ↔
      (P x → Q []) ∧ ∀ before y after, xs = before ++ y :: after → P y → Q (x :: before) := by
  constructor
  · intro h
    refine ⟨fun hx => h [] x xs rfl hx,?_⟩
    intro before y after hxs hy
    exact h (x :: before) y after (by rw [hxs]; rfl) hy
  · rintro ⟨hfirst,hrest⟩ before y after hxs hy
    cases before with
    | nil =>
      cases hxs
      exact hfirst hy
    | cons z before =>
      simp only [List.cons_append,List.cons.injEq] at hxs
      obtain ⟨rfl,hxs⟩ := hxs
      exact hrest before y after hxs hy

theorem stripBlocks_cons (keep : ContentBlock → Bool) (m : Message) (rest : List Message) :
    stripBlocks keep (m :: rest) = if m.content.filter keep = [] then stripBlocks keep rest
      else { m with content := m.content.filter keep } :: stripBlocks keep rest := by
  unfold stripBlocks
  rw [List.filterMap_cons]
  by_cases h : m.content.filter keep = []
  · simp [h]
  · simp [h]

theorem stripBlocks_alternates_iff {keep : ContentBlock → Bool} {drop : Message → Bool}
    (hdrop : ∀ m, drop m = true ↔ m.content.filter keep = []) {role : Role}
    {messages : List Message} (n : Nat) (h : AlternatesFrom role messages) :
    AlternatesFrom (if Even n then role else role.other) (stripBlocks keep messages) ↔
      ∀ before m after, messages = before ++ m :: after → drop m = false →
        Even (n + before.countP drop) := by
  induction messages generalizing role n with
  | nil =>
    refine ⟨fun _ before m after hnil => ?_,fun _ => trivial⟩
    simp at hnil
  | cons m rest ih =>
    obtain ⟨hrole,hrest⟩ := h
    rw [stripBlocks_cons,forall_split_cons (P := fun m => drop m = false)
      (Q := fun before => Even (n + before.countP drop))]
    by_cases hdropped : drop m = true
    · have hdeleted := ih (n + 1) hrest
      have hturn : (if Even (n + 1) then role.other else role.other.other) =
          if Even n then role else role.other := by
        by_cases hn : Even n <;> simp [Nat.even_add_one,hn]
      rw [hturn] at hdeleted
      rw [if_pos ((hdrop m).mp hdropped),hdeleted]
      simp [hdropped,Nat.add_assoc,Nat.add_comm 1]
    · have hkept := ih n hrest
      rw [if_neg fun hnil => hdropped ((hdrop m).mpr hnil)]
      by_cases hn : Even n
      · rw [if_pos hn] at hkept ⊢
        simp [AlternatesFrom,hrole,hdropped,hn,hkept]
      · rw [if_neg hn]
        have hout : role ≠ role.other := by cases role <;> simp [other]
        simp [AlternatesFrom,hrole,hdropped,hn,hout]

theorem Message.toolOnly_iff (m : Message) : m.toolOnly = true ↔ m.content.filter (fun
    | .toolUse _ | .toolResult _ => false
    | _ => true) = [] := by
  rw [Message.toolOnly,List.all_eq_true,List.filter_eq_nil_iff]
  refine forall₂_congr fun b _ => ?_
  cases b <;> simp

theorem stripToolBlocks_alternates_iff {messages : List Message} (h : Alternates messages) :
    Alternates (stripToolBlocks messages) ↔ EvenlyToolOnly messages := by
  have hstrip := stripBlocks_alternates_iff Message.toolOnly_iff 0 h
  simp only [Nat.zero_add] at hstrip
  exact hstrip

theorem modelRequest_alternates_iff {a : Agent} (hnorm : a.normDisabled = false) (tools : List Tool)
    (projected : List Message) :
    Alternates (modelRequest a tools projected).messages ↔ tools ≠ [] ∨
      EvenlyToolOnly (normalizeMessages (stripWidgets projected) (a.normStrategy.getD .merge)) := by
  have halternates :=
    normalizeMessages_alternates (stripWidgets projected) (a.normStrategy.getD .merge)
  simp only [modelRequest,hnorm,Bool.false_eq_true,if_false]
  by_cases htools : tools = []
  · rw [if_pos htools,stripToolBlocks_alternates_iff halternates]
    simp [htools]
  · rw [if_neg htools]
    simp [htools,halternates]

section
variable [Host] {a : Agent} {c : Context}
theorem Engine.requests_loopTurn {Resp : ModelResponse → Prop} {Fine : ModelRequest → Seen → Prop}
    (hfine : ∀ tools projected seen, Fine (modelRequest a tools projected) seen) (fuel : Nat)
    (messages : TurnMessages) (r : Run) (n : Seen) :
    (requests Resp Fine).wp (loopTurn a c fuel messages) r n (fun _ _ _ => True)
      (fun _ _ _ => True) := by
  have hsilent : ∀ {α : Type} {m : Engine α} {r n}, Silent Resp Fine m →
      (requests Resp Fine).wp m r n (fun _ _ _ => True) (fun _ _ _ => True) := by
    intro α m r n hm
    exact wp_mono (hm r n trivial) (fun _ _ _ _ => trivial) (fun _ _ _ _ => trivial)
  induction fuel generalizing messages r n with
  | zero => trivial
  | succ fuel ih =>
    unfold loopTurn
    rw [wp_bind,wp_modify,wp_bind]
    refine wp_mono (requests_modelStep Frame.true trivial fun tools projected _ =>
      hfine tools projected n) ?_ (fun _ _ _ h => h)
    rintro ⟨resp,available⟩ r1 n1 -
    dsimp only
    split
    · exact hsilent (silent_finalAnswer a resp messages)
    · rw [wp_bind]
      refine wp_mono (hsilent (silent_persistToolUses a resp messages)) ?_ (fun _ _ _ h => h)
      intro messages r2 n2 _
      rw [wp_bind]
      refine wp_mono (hsilent (keeps_coordinateToolBatch Frame.true a c _ _ _ _)) ?_
        (fun _ _ _ h => h)
      intro batch r3 n3 _
      rw [wp_bind,wp_get,wp_bind]
      refine wp_mono (hsilent keeps_checkContext) ?_ (fun _ _ _ h => h)
      intro _ r4 n4 _
      split
      · exact hsilent (silent_interrupt a c _ _)
      · exact ih _ _ _

/-- When normalization is enabled, the list that the loop passes to the provider alternates
exactly if some tool is visible, or the messages that lose all their blocks stand in even numbers
before each message that is kept. -/
theorem provider_request_alternates_iff (hnorm : a.normDisabled = false) {fuel : Nat}
    {messages : TurnMessages} {r : Run} {request : ModelRequest} {seen : Seen}
    {next : Op.Answer (.callModel request) → Program effects (Except Error Result × Run)}
    (hrun : Program.Runs (Op.Sees fun _ => True) (loopTurn a c fuel messages r) {}
      (.call (.callModel request) next) seen) :
    ∃ tools projected, request = modelRequest a tools projected ∧
      (Alternates request.messages ↔ request.tools ≠ [] ∨ EvenlyToolOnly
        (normalizeMessages (stripWidgets projected) (a.normStrategy.getD .merge))) := by
  have hsafe : (requests (fun _ => True) fun request _ =>
      ∃ tools projected, request = modelRequest a tools projected).wp
      (loopTurn a c fuel messages) r {} (fun _ _ _ => True) (fun _ _ _ => True) :=
    requests_loopTurn (fun tools projected _ => ⟨tools,projected,rfl⟩) fuel messages r {}
  obtain ⟨⟨tools,projected,rfl⟩,-⟩ := Logic.Safe.runs hsafe hrun
  refine ⟨tools,projected,rfl,?_⟩
  rw [modelRequest_alternates_iff hnorm]
  simp [modelRequest]
end
namespace Scenario
def textAfterResults : TurnMessages where
  canonical := [⟨.user,[.text "hello"]⟩,⟨.assistant,[.toolUse ⟨"c1","t","\x7b\x7d"⟩]⟩,
    ⟨.user,[.toolResult { toolUseID := "c1", content := "ok" }]⟩,⟨.user,[.text "and now"]⟩]
end Scenario
theorem provider_request_two_users : ∃ request next seen, Program.Runs (Op.Sees fun _ => True)
      (@loopTurn plainHost {} context 1 textAfterResults
        { persistedCount := 3 }) {} (.call (.callModel request) next) seen ∧
    ¬ Alternates request.messages := by
  obtain ⟨request,next,hrun,hP⟩ := @exists_request (fun _ => True) _
    (@loopTurn plainHost {} context 1 textAfterResults
      { persistedCount := 3 }) 0 "" {} ⟨[],.failed "" false⟩ trivial 9
    (fun request => decide (¬ Alternates request.messages)) (by decide +kernel)
  exact ⟨request,next,_,hrun,of_decide_eq_true hP⟩

theorem provider_request_alternates_tools : ∃ request next seen,
    Program.Runs (Op.Sees fun _ => True)
      (@loopTurn plainHost { tools := [{ name := "t" }] } context 1
        textAfterResults { persistedCount := 3 }) {} (.call (.callModel request) next) seen ∧
    ∃ tools projected, request = modelRequest { tools := [{ name := "t" }] } tools projected ∧
      (Alternates request.messages ↔ request.tools ≠ [] ∨ EvenlyToolOnly
        (normalizeMessages (stripWidgets projected) .merge)) := by
  obtain ⟨request,next,hrun,-⟩ := @exists_request (fun _ => True) _
    (@loopTurn plainHost { tools := [{ name := "t" }] } context 1
      textAfterResults { persistedCount := 3 }) 0 "" {} ⟨[],.failed "" false⟩ trivial 9
    (fun _ => true) (by decide +kernel)
  exact ⟨request,next,_,hrun,@provider_request_alternates_iff plainHost
    { tools := [{ name := "t" }] } context rfl 1 textAfterResults
    { persistedCount := 3 } request _ next hrun⟩
end GudeAgents
