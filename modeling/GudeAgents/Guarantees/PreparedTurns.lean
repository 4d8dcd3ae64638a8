import GudeAgents.Guarantees.ProviderCalls
/-!
# Prepared turns

What `prepareTurnMessages` hands to the loop.
-/
namespace GudeAgents
open Framework Logic
def Context.userMessage (c : Context) (message : String) : Message :=
  ⟨.user,c.documents.map .document ++ c.images.map .image ++ [.text message]⟩
def contextMessage (context : String) : Message :=
  ⟨.user,[.text (Engine.ragPreamble ++ context)]⟩
def okMessage : Message := ⟨.assistant,[.text "OK"]⟩
def Seen.transient (seen : Seen) : List Message :=
  match seen.retrieved with
  | none => []
  | some (_,context) => if context = "" then [] else [contextMessage context,okMessage]

/-- A turn at the beginning of its loop: exactly the history is persisted. -/
structure Prepared (c : Context) (history : List Message) (message : String)
    (messages : TurnMessages) (r : Run) (seen : Seen) : Prop where
  canonical : messages.canonical = history ++ [c.userMessage message]
  persisted : r.persistedCount = history.length
  transient : messages.transient = seen.transient
  retrieved : ∀ query context, seen.retrieved = some (query,context) → query = message

namespace Engine
variable {Resp : ModelResponse → Prop} {Fine : ModelRequest → Seen → Prop} {a : Agent}
  {c : Context} {r : Run} {n : Seen}
theorem keeps_historyBoundary {J : Run → Prop} : Keeps Resp Fine J (historyBoundary a) := by
  unfold historyBoundary
  split
  · refine .bind (keeps_ask rfl) fun answer => ?_
    split
    · exact .pure _
    · exact .throw _
  · exact .pure _

theorem requests_loadHistory (hr : r.persistedCount = 0) :
    (requests Resp Fine).wp (loadHistory a) r n
      (fun history r' n' => r'.persistedCount = history.length ∧ n' = n)
      (fun _ _ n' => n' = n) := by
  unfold loadHistory
  rw [wp_bind,wp_get]
  split
  · rw [wp_bind]
    refine wp_mono (keeps_historyBoundary (J := (· = r)) r n rfl) ?_ (fun _ _ _ h => h.2)
    rintro boundary r1 n1 ⟨rfl,rfl⟩
    rw [wp_bind]
    have hload : Keeps Resp Fine (· = r1) (loadAfter .turn boundary) := .call rfl
    refine wp_mono (hload r1 n1 rfl) ?_ (fun _ _ _ h => h.2)
    rintro answer r2 n2 ⟨rfl,rfl⟩
    cases answer with
    | error fault => rfl
    | ok snapshot =>
      dsimp only
      rw [adoptSnapshot,wp_bind,wp_modify,wp_bind]
      have hcursor : Keeps Resp Fine (·.persistedCount = snapshot.messages.length)
          persistExecutionStartCursor := keeps_persistExecutionStartCursor fun _ _ h => h
      refine wp_mono (hcursor _ n2 rfl) ?_ (fun _ _ _ h => h.2)
      intro _ r3 n3 h
      exact h
  · exact ⟨hr,rfl⟩

theorem requests_retrieveContext {message : String} (hn : n.retrieved = none) :
    (requests Resp Fine).wp (retrieveContext a message) r n
      (fun transient r' n' => r' = r ∧ n'.calls = n.calls ∧ transient = n'.transient ∧
        ∀ query context, n'.retrieved = some (query,context) → query = message)
      (fun _ _ _ => True) := by
  have hnone : [] = n.transient ∧
      ∀ query context, n.retrieved = some (query,context) → query = message := by
    unfold Seen.transient
    rw [hn]
    exact ⟨rfl,fun _ _ h => nomatch h⟩
  unfold retrieveContext
  split
  · rw [wp_bind]
    refine ⟨trivial,?_⟩
    intro answer n' hsees
    cases answer with
    | error err => trivial
    | ok found =>
      cases found with
      | none =>
        have hsame : n' = n := hsees
        subst hsame
        exact ⟨rfl,rfl,hnone⟩
      | some context =>
        have hseen : n' = { n with retrieved := some (message,context) } := hsees
        subst hseen
        have hquery : ∀ query found, some (message,context) = some (query,found) →
            query = message := by
          intro query found h
          cases h
          rfl
        show (requests Resp Fine).wp (if context = "" then pure []
          else pure [contextMessage context,okMessage] : Engine (List Message)) r _ _ _
        by_cases hempty : context = ""
        · rw [if_pos hempty]
          exact ⟨rfl,rfl,(if_pos hempty).symm,hquery⟩
        · rw [if_neg hempty]
          exact ⟨rfl,rfl,(if_neg hempty).symm,hquery⟩
  · exact ⟨rfl,rfl,hnone⟩

theorem requests_prepareTurnMessages {input : String} (hr : r.persistedCount = 0) :
    (requests Resp Fine).wp (prepareTurnMessages a c input) r {}
      (fun messages r' n' => n'.calls = 0 ∧
        ∃ history message, Prepared c history message messages r' n')
      (fun _ _ _ => True) := by
  unfold prepareTurnMessages
  rw [wp_bind]
  refine wp_mono (keeps_guardrails (J := (· = r)) _ _ _ r {} rfl) ?_ (fun _ _ _ _ => trivial)
  rintro message r1 n1 ⟨rfl,rfl⟩
  rw [wp_bind]
  refine wp_mono (requests_loadHistory hr) ?_ (fun _ _ _ _ => trivial)
  rintro history r2 n2 ⟨hpersisted,rfl⟩
  rw [wp_bind]
  refine wp_mono (requests_retrieveContext rfl) ?_ (fun _ _ _ _ => trivial)
  rintro transient r3 n3 ⟨rfl,hcalls,htransient,hquery⟩
  cases validateAttachments c with
  | error err => trivial
  | ok _ => exact ⟨hcalls,history,message,rfl,hpersisted,htransient,hquery⟩
end Engine
end GudeAgents
