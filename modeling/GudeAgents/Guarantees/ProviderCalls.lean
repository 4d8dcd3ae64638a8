import GudeAgents.Agent.Simulation
import GudeAgents.Guarantees.Dispatching
/-!
# Where the provider is called

Only the model step of the loop calls the provider.
-/
namespace GudeAgents
open Framework Logic Routine
structure Seen where
  calls : Nat := 0
  retrieved : Option (String × String) := none
  deriving DecidableEq, Repr

/-- Any answer, but provider responses have the property `Resp`. -/
def Op.Sees (Resp : ModelResponse → Prop) : (op : Op) → Seen → op.Answer → Seen → Prop
  | .callModel _, seen, answer, seen' =>
    (∀ resp, answer = .ok resp → Resp resp) ∧ seen' = { seen with calls := seen.calls + 1 }
  | .ask (.retrieve message), seen, answer, seen' =>
    match (answer : Except Error (Option String)) with
    | .ok (some context) => seen' = { seen with retrieved := some (message,context) }
    | _ => seen' = seen
  | _, seen, _, seen' => seen' = seen

def Op.plain : Op → Bool
  | .callModel _ | .ask (.retrieve _) => false
  | _ => true

variable {Resp : ModelResponse → Prop}
theorem Op.Sees.of_plain {op : Op} (h : op.plain = true) {seen seen' : Seen} {answer : op.Answer}
    (hs : op.Sees Resp seen answer seen') : seen' = seen := by
  cases op with
  | callModel request => cases h
  | ask query =>
    cases query with
    | retrieve message => cases h
    | _ => exact hs
  | _ => exact hs

namespace Engine
def requests (Resp : ModelResponse → Prop) (Fine : ModelRequest → Seen → Prop) :
    Logic effects Seen :=
  @Logic.always effects Seen (Op.Sees Resp) fun op seen =>
    match op with
    | .callModel request => Fine request seen
    | _ => True

variable {Resp : ModelResponse → Prop} {Fine : ModelRequest → Seen → Prop} {J : Run → Prop}
  {α β : Type} {n : Seen} {r : Run}
def Keeps (Resp : ModelResponse → Prop) (Fine : ModelRequest → Seen → Prop) (J : Run → Prop) (m : Engine α) : Prop :=
  ∀ r n, J r → (requests Resp Fine).wp m r n (fun _ r' n' => J r' ∧ n' = n) (fun _ r' n' => J r' ∧ n' = n)

variable {m : Engine α} {f : α → Engine β}
namespace Keeps
theorem pure (value : α) : Keeps Resp Fine J (Pure.pure value : Engine α) := fun _ _ h => ⟨h,rfl⟩
theorem throw (err : Error) : Keeps Resp Fine J (throw err : Engine α) := fun _ _ h => ⟨h,rfl⟩
theorem get : Keeps Resp Fine J (Routine.get : Engine Run) := fun _ _ h => ⟨h,rfl⟩
theorem modify {f : Run → Run} (h : ∀ r, J r → J (f r)) :
    Keeps Resp Fine J (modify f : Engine Unit) := fun r _ hr => ⟨h r hr,rfl⟩
theorem ofExcept (x : Except Error α) : Keeps Resp Fine J (ofExcept x : Engine α) := by
  cases x with
  | error err => exact throw err
  | ok value => exact pure value

theorem bind (hm : Keeps Resp Fine J m) (hf : ∀ value, Keeps Resp Fine J (f value)) :
    Keeps Resp Fine J (m >>= f) := by
  intro r n hr
  rw [wp_bind]
  refine wp_mono (hm r n hr) ?_ (fun _ _ _ h => h)
  rintro value r' n' ⟨hr',rfl⟩
  exact hf value r' n' hr'

theorem get_bind {f : Run → Engine β}
    (hf : ∀ r n, J r → (requests Resp Fine).wp (f r) r n (fun _ r' n' => J r' ∧ n' = n)
      (fun _ r' n' => J r' ∧ n' = n)) : Keeps Resp Fine J (Routine.get >>= f) := by
  intro r n hr
  exact hf r n hr

theorem attempt (hm : Keeps Resp Fine J m) : Keeps Resp Fine J m.attempt := by
  intro r n hr
  rw [wp_attempt]
  exact hm r n hr

theorem call {op : Op} (h : op.plain = true) : Keeps Resp Fine J (Engine.call op) := by
  intro r n hr
  refine ⟨?_,fun answer n' hn => ⟨hr,Op.Sees.of_plain h hn⟩⟩
  cases op with
  | callModel request => cases h
  | _ => trivial
end Keeps
def Gives (Resp : ModelResponse → Prop) (Fine : ModelRequest → Seen → Prop) (J : Run → Prop)
    (m : Engine α) (P : α → Prop) : Prop :=
  ∀ r n, J r → (requests Resp Fine).wp m r n (fun value r' n' => (J r' ∧ n' = n) ∧ P value)
    (fun _ r' n' => J r' ∧ n' = n)

namespace Gives
variable {P : α → Prop} {P' : β → Prop}
theorem pure {value : α} (h : P value) : Gives Resp Fine J (Pure.pure value : Engine α) P :=
  fun _ _ hr => ⟨⟨hr,rfl⟩,h⟩
theorem throw (err : Error) : Gives Resp Fine J (throw err : Engine α) P :=
  fun _ _ hr => ⟨hr,rfl⟩

theorem bind (hm : Gives Resp Fine J m P) (hf : ∀ value, P value → Gives Resp Fine J (f value) P') :
    Gives Resp Fine J (m >>= f) P' := by
  intro r n hr
  rw [wp_bind]
  refine wp_mono (hm r n hr) ?_ (fun _ _ _ h => h)
  rintro value r' n' ⟨⟨hr',rfl⟩,hvalue⟩
  exact hf value hvalue r' n' hr'

theorem mono {P' : α → Prop} (hm : Gives Resp Fine J m P) (hP : ∀ value, P value → P' value) :
    Gives Resp Fine J m P' := by
  intro r n hr
  refine wp_mono (hm r n hr) ?_ (fun _ _ _ h => h)
  intro value r' n' h
  exact ⟨h.1,hP value h.2⟩

theorem keeps (hm : Gives Resp Fine J m P) : Keeps Resp Fine J m := by
  intro r n hr
  exact wp_mono (hm r n hr) (fun _ _ _ h => h.1) (fun _ _ _ h => h)
end Gives
theorem Keeps.gives (hm : Keeps Resp Fine J m) : Gives Resp Fine J m fun _ => True := by
  intro r n hr
  exact wp_mono (hm r n hr) (fun _ _ _ h => ⟨h,trivial⟩) (fun _ _ _ h => h)
theorem Keeps.gives_bind {P : β → Prop} (hm : Keeps Resp Fine J m)
    (hf : ∀ value, Gives Resp Fine J (f value) P) :
    Gives Resp Fine J (m >>= f) P := hm.gives.bind fun value _ => hf value

abbrev Silent (Resp : ModelResponse → Prop) (Fine : ModelRequest → Seen → Prop) (m : Engine α) : Prop :=
  Keeps Resp Fine (fun _ => True) m

structure Frame (J : Run → Prop) : Prop where
  durable : ∀ r r', r.executionDurable = true → J r → J r'
  usage : ∀ r u, J r → J { r with usage := u }

theorem Frame.true : Frame fun _ => True := ⟨fun _ _ _ _ => trivial,fun _ _ _ => trivial⟩

theorem Silent.durable (hJ : Frame J) (hm : Silent Resp Fine m) (hd : r.executionDurable = true)
    (hr : J r) :
    (requests Resp Fine).wp m r n (fun _ r' n' => J r' ∧ n' = n) (fun _ r' n' => J r' ∧ n' = n) := by
  refine wp_mono (hm r n trivial) ?_ ?_
  · intro value r' n' h
    exact ⟨hJ.durable r r' hd hr,h.2⟩
  · intro err r' n' h
    exact ⟨hJ.durable r r' hd hr,h.2⟩

theorem keeps_ask {query : Query} (h : (Op.ask query).plain = true) :
    Keeps Resp Fine J (ask query) := .call h
theorem keeps_note (note : Note) : Keeps Resp Fine J (Engine.note note) := .call rfl
theorem keeps_contextErr : Keeps Resp Fine J contextErr := .call rfl

theorem keeps_checkContext : Keeps Resp Fine J checkContext := by
  refine .bind keeps_contextErr fun cause => ?_
  cases cause with
  | none => exact .pure ()
  | some cause => exact .throw _

theorem keeps_addUsage (hJ : Frame J) (u : TokenUsage) : Keeps Resp Fine J (addUsage u) := by
  refine .bind (keeps_note _) fun _ => .bind (.modify ?_) fun _ => .bind .get fun r => .pure _
  intro r hr
  exact hJ.usage r _ hr
theorem silent_modify (f : Run → Run) : Silent Resp Fine (modify f : Engine Unit) :=
  .modify fun _ _ => trivial

section
variable (hJ : ∀ r e, J r → J { r with execution := some e }) (label : SaveLabel)
include hJ label
theorem keeps_saveExecution (next : Execution) : Keeps Resp Fine J (saveExecution label next) := by
  refine .bind (.call rfl) fun answer => ?_
  cases answer with
  | error fault => exact .pure _
  | ok updated => exact .bind (.modify fun r => hJ r updated) fun _ => .pure _

theorem keeps_persistExecution (change : Execution → Except Error Execution) :
    Keeps Resp Fine J (persistExecution label change) := by
  refine .bind .get fun r => ?_
  split
  · split
    · exact .throw _
    · refine .bind (.ofExcept _) fun next =>
        .bind (keeps_saveExecution hJ label next) fun result => ?_
      cases result with
      | error fault => exact .throw _
      | ok value => exact .pure _
  · exact .pure _
end
theorem silent_persistExecution (label : SaveLabel) (change : Execution → Except Error Execution) :
    Silent Resp Fine (persistExecution label change) :=
  keeps_persistExecution (fun _ _ _ => trivial) label change

theorem keeps_persistExecutionStartCursor (hJ : ∀ r e, J r → J { r with execution := some e }) :
    Keeps Resp Fine J persistExecutionStartCursor := by
  refine .bind .get fun r => ?_
  split
  · exact .pure _
  · split
    · exact keeps_persistExecution hJ _ _
    · exact .pure _

theorem silent_saveConversation (a : Agent) (label : AppendLabel) (messages : List Message) :
    Silent Resp Fine (saveConversation a label messages) := by
  refine .bind .get fun r => ?_
  split
  · split
    · exact .throw _
    · split
      · exact .pure _
      · refine .bind (.call rfl) fun answer => ?_
        cases answer with
        | error fault => exact .throw _
        | ok cursor => exact silent_modify _
  · exact .pure _

theorem silent_markToolBatchReady : Silent Resp Fine markToolBatchReady :=
  .bind .get fun _ => silent_persistExecution _ _
theorem silent_removeToolCalls (completed : List String) :
    Silent Resp Fine (removeToolCalls completed) :=
  .bind .get fun _ => silent_persistExecution _ _

theorem silent_completeCanonicalToolResults (completed : List String) :
    Silent Resp Fine (completeCanonicalToolResults completed) := by
  unfold completeCanonicalToolResults
  split
  · exact .pure _
  · exact silent_removeToolCalls _

theorem keeps_persistRuntimeProgress (hJ : Frame J) : Keeps Resp Fine J persistRuntimeProgress := by
  refine .get_bind fun r n hr => ?_
  by_cases hd : r.executionDurable = true
  · exact (silent_persistExecution _ _).durable hJ hd hr
  · unfold persistExecution
    rw [wp_bind,wp_get,if_neg hd]
    exact ⟨hr,rfl⟩

theorem keeps_persistPendingPause (hJ : Frame J) (i : Interrupt) :
    Keeps Resp Fine J (persistPendingPause i) := by
  refine .get_bind fun r n hr => ?_
  by_cases hd : r.executionDurable = true
  · exact (silent_persistExecution _ _).durable hJ hd hr
  · unfold persistExecution
    rw [wp_bind,wp_get,if_neg hd]
    exact ⟨hr,rfl⟩

theorem keeps_commitToolResults (hJ : Frame J) (a : Agent) (messages : List Message)
    (outcomes : List ToolOutcome) : Keeps Resp Fine J (commitToolResults a messages outcomes) := by
  refine .get_bind fun r n hr => ?_
  by_cases hd : r.executionDurable = true
  · rw [if_pos hd]
    refine Silent.durable hJ ?_ hd hr
    dsimp only
    split
    · exact .pure _
    · exact .bind (silent_saveConversation _ _ _) fun _ => silent_removeToolCalls _
  · rw [if_neg hd]
    exact ⟨hr,rfl⟩

section
variable [Host] (a : Agent)

theorem silent_priorToolUses : Silent Resp Fine (priorToolUses a) := by
  refine .bind .get fun r => ?_
  split
  · exact .throw _
  · split
    · refine .bind (.call rfl) fun answer => ?_
      cases answer with
      | error fault => exact .throw _
      | ok snapshot => exact .ofExcept _
    · exact .throw _

theorem silent_planToolBatch (calls : List ToolCall) :
    Silent Resp Fine (planToolBatch a calls) := by
  refine .bind .get fun r => ?_
  split
  · split
    · exact .throw _
    · split
      · exact .throw _
      · exact .bind (keeps_persistExecutionStartCursor fun _ _ _ => trivial) fun _ =>
          .bind (silent_priorToolUses a) fun _ => silent_persistExecution _ _
  · exact .pure _

omit [Host] in
theorem keeps_beginToolExecution (hJ : Frame J) (callID toolName : String) :
    Keeps Resp Fine J (beginToolExecution callID toolName) := by
  refine .get_bind fun r n hr => ?_
  by_cases hd : r.executionDurable = true
  · rw [if_pos hd]
    refine Silent.durable hJ ?_ hd hr
    split
    · exact .throw _
    · exact .bind (.ofExcept _) fun _ => .bind (silent_persistExecution _ _) fun _ => .pure _
  · rw [if_neg hd]
    exact ⟨hr,rfl⟩

omit [Host] in
theorem Works.gives {P : α → Prop} (h : ∀ n, Works (requests Resp Fine) (· = n) J m P) :
    Gives Resp Fine J m P := by
  intro r n hr
  refine wp_mono (h n r n hr rfl) ?_ (fun _ _ _ hfalse => hfalse.elim)
  intro value r' n' hv
  exact ⟨⟨hv.1,hv.2.1⟩,hv.2.2⟩

theorem dispatching_requests (hJ : Frame J) (n : Seen) :
    Dispatching (requests Resp Fine) (· = n) J Reports where
  asks {query s} hquery hs := by
    have hplain : (Op.ask query).plain = true := by
      cases query with
      | retrieve message => exact absurd rfl (hquery message)
      | _ => rfl
    exact ⟨trivial,fun answer s' hsees => ⟨(Op.Sees.of_plain hplain hsees).trans hs,trivial⟩⟩
  checks hs := ⟨trivial,fun _ _ hsees => ⟨Eq.trans hsees hs,trivial⟩⟩
  claims job := by
    intro r s hr hs
    rw [wp_attempt]
    refine wp_mono (keeps_beginToolExecution hJ _ _ r s hr) ?_ ?_
    · intro claimed r' s' h
      exact ⟨h.1,h.2.trans hs,fun err herr => nomatch herr⟩
    · intro err r' s' h
      refine ⟨h.1,h.2.trans hs,fun err' _ => ⟨⟨?_,?_⟩,?_⟩⟩ <;> dsimp only <;> split <;> simp
  handles hcall hs :=
    ⟨trivial,fun reply _ hsees => ⟨Eq.trans hsees hs,fun _ _ => handlerOutcome_fits _ _ _ reply⟩⟩
  fails _ _ := failed_fits _ _
  pends _ _ _ _ _ := by simp [Reports,ToolOutcome.Fits]

theorem gives_executeBatch (hJ : Frame J) (a : Agent) (c : Context) (calls : List ToolCall)
    (available : List Tool) (decisions : Option (List (Option Decision))) :
    Gives Resp Fine J (executeBatch a c calls available decisions) (Outcomes calls) :=
  Works.gives fun n => (dispatching_requests hJ n).works_executeBatch a c calls available decisions

theorem silent_prepareToolBatch (messages : List Message) (requested : List ToolCall)
    (decisions : Option (List (Option Decision))) :
    Silent Resp Fine (prepareToolBatch messages requested decisions) := by
  refine .bind .get fun r => ?_
  split
  · split
    · exact .throw _
    · refine .bind (.ofExcept _) fun active => ?_
      dsimp only
      split
      · exact .throw _
      · refine .bind (silent_completeCanonicalToolResults _) fun _ => .bind .get fun r => ?_
        split
        · exact .pure _
        · split
          · exact .pure _
          · split <;> exact .pure _
  · exact .ofExcept _

theorem keeps_prepareToolBatch (hJ : Frame J) (messages : List Message) (requested : List ToolCall)
    (decisions : Option (List (Option Decision))) :
    Keeps Resp Fine J (prepareToolBatch messages requested decisions) := by
  intro r n hr
  by_cases hd : r.executionDurable = true
  · exact (silent_prepareToolBatch messages requested decisions).durable hJ hd hr
  · unfold prepareToolBatch
    rw [wp_bind,wp_get,if_neg hd]
    exact Keeps.ofExcept _ r n hr

theorem keeps_coordinateToolBatch (hJ : Frame J) (a : Agent) (c : Context) (calls : List ToolCall)
    (available : List Tool) (decisions : Option (List (Option Decision)))
    (messages : TurnMessages) :
    Keeps Resp Fine J (coordinateToolBatch a c calls available decisions messages) := by
  refine .bind (keeps_prepareToolBatch hJ _ _ _) fun prepared => ?_
  dsimp only
  split
  · exact .pure _
  · refine .bind (gives_executeBatch hJ a c _ _ _).keeps fun outcomes => .bind (keeps_note _) fun _ => ?_
    split
    · exact .throw _
    · split
      · refine .bind (keeps_commitToolResults hJ _ _ _).attempt fun committed => ?_
        split <;> exact .throw _
      · split
        · exact .bind (keeps_persistPendingPause hJ _) fun _ =>
            .bind (keeps_commitToolResults hJ _ _ _) fun _ => .pure _
        · exact .bind (keeps_commitToolResults hJ _ _ _) fun _ => .pure _

omit [Host] in
theorem keeps_guardrails (direction : Direction) (indices : List Nat) (message : String) :
    Keeps Resp Fine J (guardrails direction indices message) := by
  induction indices generalizing message with
  | nil => exact .pure _
  | cons index rest ih =>
    refine .bind (keeps_ask rfl) fun answer => ?_
    cases answer with
    | error cause => exact .throw _
    | ok message => exact ih message

omit [Host] in
theorem keeps_isVisible (t : Tool) : Keeps Resp Fine J (isVisible a t) := by
  have hask : Keeps Resp Fine J (ask (.isVisible t.name)) := keeps_ask rfl
  unfold isVisible
  cases a.toolVisibility with
  | true => exact hask
  | false => exact .pure true

omit [Host] in
theorem keeps_visibleTools (tools : List Tool) : Keeps Resp Fine J (visibleTools a tools) := by
  induction tools with
  | nil => exact .pure _
  | cons t rest ih =>
    exact .bind (keeps_isVisible a t) fun visible => .bind ih fun _ => .pure _

omit [Host] in
theorem silent_interrupt (c : Context) (i : Interrupt) (snapshot : List Message) :
    Silent Resp Fine (interrupt a c i snapshot) := by
  refine .bind .get fun r => ?_
  split
  · refine .bind keeps_checkContext fun _ => .bind (silent_saveConversation _ _ _) fun _ =>
      .bind .get fun r => ?_
    split
    · exact .throw _
    · refine .bind (keeps_saveExecution (fun _ _ _ => trivial) _ _) fun saved => ?_
      split <;> exact .pure _
  · exact .throw _

theorem silent_persistToolUses (resp : ModelResponse) (messages : TurnMessages) :
    Silent Resp Fine (persistToolUses a resp messages) := by
  have planned : ∀ messages : TurnMessages, Silent Resp Fine (do
      planToolBatch a resp.toolCalls
      let messages := messages.appendCanonical (toolUseMessage { toolCalls := resp.toolCalls })
      saveConversation a .toolUse messages.canonical
      markToolBatchReady
      Pure.pure messages) := fun messages =>
    .bind (silent_planToolBatch a _) fun _ => .bind (silent_saveConversation _ _ _) fun _ =>
      .bind silent_markToolBatchReady fun _ => .pure _
  refine .bind .get fun r => ?_
  split
  · refine .bind (silent_saveConversation _ _ _) fun _ => ?_
    split
    · exact .bind (silent_saveConversation _ _ _) fun _ => .bind (.pure _) fun _ => planned _
    · exact .bind (.pure _) fun _ => planned _
  · exact .pure _

omit [Host] in
theorem silent_finalAnswer (resp : ModelResponse) (messages : TurnMessages) :
    Silent Resp Fine (finalAnswer a resp messages) := by
  refine .bind (keeps_guardrails _ _ _) fun finalText => ?_
  exact .bind keeps_checkContext fun _ => .bind (silent_saveConversation _ _ _) fun _ => .pure _

omit [Host] in
theorem keeps_reserveLease : Keeps Resp Fine J (reserveLease a) := by
  unfold reserveLease
  split
  · refine .bind (keeps_ask rfl) fun err => ?_
    split
    · exact .throw _
    · exact .pure _
  · exact .pure _

omit [Host] in
theorem gives_settleResponse (resp : ModelResponse) :
    Gives Resp Fine J (settleResponse a resp) (· = resp) := by
  unfold settleResponse
  split
  · refine Keeps.gives_bind (.call rfl) fun err => ?_
    split
    · exact .throw _
    · exact .pure rfl
  · exact .pure rfl

omit [Host] in
theorem gives_settleFailure (err : Error) :
    Gives Resp Fine J (settleFailure a err) fun _ => False := by
  unfold settleFailure
  split
  · refine Keeps.gives_bind (keeps_ask rfl) fun releaseErr => ?_
    split <;> exact .throw _
  · exact .throw _

omit [Host] in
theorem requests_callProvider {a : Agent} {request : ModelRequest} (hfine : Fine request n) :
    (requests Resp Fine).wp (callProvider a request) r n
      (fun resp r' n' => r' = r ∧ n' = { n with calls := n.calls + 1 } ∧ Resp resp)
      (fun _ r' n' => r' = r ∧ n'.retrieved = n.retrieved) := by
  unfold callProvider
  rw [wp_bind]
  refine wp_mono (keeps_reserveLease a r n rfl) ?_ ?_
  · rintro _ r' n' ⟨rfl,rfl⟩
    refine ⟨hfine,?_⟩
    rintro answer n' ⟨hresp,rfl⟩
    cases answer with
    | error err =>
      refine wp_mono (gives_settleFailure (J := (· = r)) a err r _ rfl) ?_ ?_
      · rintro _ r'' n'' ⟨-,hfalse⟩
        exact hfalse.elim
      · rintro _ r'' n'' ⟨rfl,rfl⟩
        exact ⟨rfl,rfl⟩
    | ok resp =>
      refine wp_mono (gives_settleResponse (J := (· = r)) a resp r _ rfl) ?_ ?_
      · rintro _ r'' n'' ⟨⟨rfl,rfl⟩,rfl⟩
        exact ⟨rfl,rfl,hresp _ rfl⟩
      · rintro _ r'' n'' ⟨rfl,rfl⟩
        exact ⟨rfl,rfl⟩
  · rintro _ r' n' ⟨rfl,rfl⟩
    exact ⟨rfl,rfl⟩

omit [Host] in
theorem gives_modelTurnMessages {a : Agent} {messages : TurnMessages} {k : Nat} :
    Gives Resp Fine (fun r => J r ∧ r.persistedCount = k) (modelTurnMessages a messages)
      fun projected => a.contextManager = false → k ≤ messages.canonical.length ∧
        projected = (messages.projectedCanonical k).1 ++ messages.transient ++
          (messages.projectedCanonical k).2 := by
  intro r n hr
  obtain ⟨hJ,rfl⟩ := hr
  unfold modelTurnMessages
  rw [wp_bind,wp_get]
  split
  · exact ⟨⟨hJ,rfl⟩,rfl⟩
  · next hle =>
    dsimp only
    split
    · next hmanager =>
      refine Keeps.gives_bind (keeps_ask rfl) (fun answer => ?_) r n ⟨hJ,rfl⟩
      split
      · exact .pure (by simp [hmanager])
      · exact .throw _
    · exact ⟨⟨⟨hJ,rfl⟩,rfl⟩,fun _ => ⟨by omega,rfl⟩⟩

omit [Host] in
theorem requests_modelStep (hJ : Frame J) {a : Agent} {messages : TurnMessages} (hr : J r)
    (hfine : ∀ available projected, (a.contextManager = false →
      r.persistedCount ≤ messages.canonical.length ∧
      projected = (messages.projectedCanonical r.persistedCount).1 ++ messages.transient ++
        (messages.projectedCanonical r.persistedCount).2) →
      Fine (modelRequest a available projected) n) :
    (requests Resp Fine).wp (modelStep a messages) r n
      (fun out r' n' => J r' ∧ n' = { n with calls := n.calls + 1 } ∧ Resp out.1)
      (fun _ _ _ => True) := by
  have hafter : ∀ resp (available : List Tool), Gives Resp Fine J (do
      let cumulative ← addUsage resp.usage
      persistRuntimeProgress
      note (.testedBudget cumulative)
      if a.tokenBudget > 0 ∧ cumulative.total > a.tokenBudget then
        throw .tokenBudgetExceeded
      else Pure.pure (resp,available) : Engine (ModelResponse × List Tool))
      fun out => out.1 = resp := by
    intro resp available
    refine (keeps_addUsage hJ _).gives_bind fun cumulative =>
      (keeps_persistRuntimeProgress hJ).gives_bind fun _ => (keeps_note _).gives_bind fun _ => ?_
    split
    · exact .throw _
    · exact .pure rfl
  unfold modelStep
  rw [wp_bind]
  refine wp_mono (keeps_checkContext (J := (· = r)) r n rfl) ?_ (fun _ _ _ _ => trivial)
  rintro _ r1 n1 ⟨rfl,rfl⟩
  rw [wp_bind]
  refine wp_mono (keeps_visibleTools (J := (· = r1)) a a.tools r1 n1 rfl) ?_
    (fun _ _ _ _ => trivial)
  rintro available r2 n2 ⟨rfl,rfl⟩
  rw [wp_bind]
  refine wp_mono (gives_modelTurnMessages (J := (· = r2)) r2 n2 ⟨rfl,rfl⟩) ?_
    (fun _ _ _ _ => trivial)
  rintro projected r3 n3 ⟨⟨⟨rfl,-⟩,rfl⟩,hprojected⟩
  rw [wp_bind,wp_attempt]
  refine wp_mono (requests_callProvider (hfine available projected hprojected)) ?_ ?_
  · rintro resp r4 n4 ⟨rfl,rfl,hresp⟩
    refine wp_mono (hafter resp available r4 _ hr) ?_ (fun _ _ _ _ => trivial)
    rintro out r5 n5 ⟨⟨hr5,rfl⟩,rfl⟩
    exact ⟨hr5,rfl,hresp⟩
  · rintro err r4 n4 ⟨rfl,-⟩
    rw [wp_bind]
    exact wp_mono (keeps_contextErr (J := (· = r4)) r4 n4 rfl) (fun _ _ _ _ => trivial)
      (fun _ _ _ _ => trivial)
end
end Engine
namespace Scenario
/-- Everything succeeds; the retriever returns `context`, and the provider answers its first
`limit` calls with `resp`. -/
def turnAnswer (limit : Nat) (context : String) (resp : ModelResponse) (handled : HandlerReply) (op : Op)
    (seen : Seen) : Option (op.Answer × Seen) :=
  match op with
  | .create e => some (.ok { e with version := 1 },seen)
  | .load => none
  | .save _ e expected => some (.ok { e with version := expected + 1 },seen)
  | .loadAfter .. => some (.ok ⟨[],{}⟩,seen)
  | .append _ messages expected => some (.ok ⟨expected + 1,messages.length⟩,seen)
  | .contextErr => some ((none : Option ContextError),seen)
  | .callModel _ =>
    if seen.calls < limit then some (.ok resp,{ seen with calls := seen.calls + 1 }) else none
  | .commitLease _ => some ((none : Option Error),seen)
  | .handler _ => some (handled,seen)
  | .ask (.retrieve message) =>
    some (.ok (some context),{ seen with retrieved := some (message,context) })
  | .ask query => (World.reply query .usual).map fun answer => (answer,seen)
  | .note _ => some ((),seen)

theorem turnAnswer_sees {limit : Nat} {context : String} {resp : ModelResponse}
    {handled : HandlerReply} (hresp : Resp resp) {op : Op} {seen seen' : Seen} {answer : op.Answer}
    (h : turnAnswer limit context resp handled op seen = some (answer,seen')) :
    op.Sees Resp seen answer seen' := by
  cases op with
  | load => cases h
  | callModel request =>
    simp only [turnAnswer] at h
    split at h
    · cases h
      refine ⟨?_,rfl⟩
      intro resp' hok
      cases hok
      exact hresp
    · cases h
  | ask query =>
    cases query with
    | retrieve message =>
      cases h
      rfl
    | _ =>
      cases h
      rfl
  | _ =>
    cases h
    rfl

theorem exists_request_of {α : Type} {p : Program effects α}
    {script : (op : Op) → Seen → Option (op.Answer × Seen)}
    (hscript : ∀ op seen answer seen', script op seen = some (answer,seen') →
      op.Sees Resp seen answer seen') (calls : Nat) {P : ModelRequest → Bool}
    (h : (p.drive script calls {}).1.op?.any (fun op : Op => match op with
      | .callModel request => P request
      | _ => false) = true) :
    ∃ request next, p.Runs (Op.Sees Resp) {} (.call (.callModel request) next)
      (p.drive script calls {}).2 ∧ P request = true := by
  have hrun : p.Runs (Op.Sees Resp) {} (p.drive script calls {}).1 (p.drive script calls {}).2 := by
    apply Program.runs_drive
    intro op seen answer seen' hanswer
    exact hscript op seen answer seen' hanswer
  obtain ⟨op,hop,hP⟩ := (Option.any_eq_true _ _).mp h
  obtain ⟨next,hnext⟩ := Program.exists_call hop
  rw [hnext] at hrun
  split at hP
  · next request => exact ⟨request,next,hrun,hP⟩
  · cases hP

theorem exists_request {α : Type} {p : Program effects α} (limit : Nat) (context : String)
    (resp : ModelResponse) (handled : HandlerReply) (hresp : Resp resp) (calls : Nat)
    {P : ModelRequest → Bool}
    (h : (p.drive (turnAnswer limit context resp handled) calls {}).1.op?.any (fun op : Op => match op with
      | .callModel request => P request
      | _ => false) = true) :
    ∃ request next, p.Runs (Op.Sees Resp) {} (.call (.callModel request) next)
      (p.drive (turnAnswer limit context resp handled) calls {}).2 ∧ P request = true :=
  exists_request_of (fun _ _ _ _ => turnAnswer_sees hresp) calls h
end Scenario
end GudeAgents
