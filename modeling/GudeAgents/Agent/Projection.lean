import GudeAgents.Agent.Content
/-!
# Provider projections

The disposable views of canonical history that a provider sees: `turn_messages.go`,
`normalize.go`, `stripWidgets` of `widget.go` and `stripToolBlocks` of `engine.go`.
-/
namespace GudeAgents
def onlyToolResults (blocks : List ContentBlock) : Bool :=
  !blocks.isEmpty && blocks.all fun b => b.toolResult?.isSome
def Message.isToolResults (m : Message) : Bool :=
  m.role == .user && onlyToolResults m.content

structure TurnMessages where
  canonical : List Message := []
  transient : List Message := []
  deriving DecidableEq, Repr

namespace TurnMessages
def appendCanonical (m : TurnMessages) (message : Message) : TurnMessages :=
  { m with canonical := m.canonical ++ [message] }

@[simp] theorem appendCanonical_canonical (m : TurnMessages) (message : Message) :
    (m.appendCanonical message).canonical = m.canonical ++ [message] := rfl
end TurnMessages
def regroup (order : List String) (results : List ToolResultBlock) : List ContentBlock :=
  ((order.flatMap fun id => results.filter fun r => r.toolUseID == id) ++
    results.filter fun r => !order.contains r.toolUseID).map .toolResult

def projectFrom : Nat → List Message → List Message
  | 0, _ => []
  | _ + 1, [] => []
  | fuel + 1, message :: rest =>
    let order := (message.toolUses.map (·.toolUseID)).eraseDups
    let run := rest.takeWhile Message.isToolResults
    if message.role = .assistant ∧ order ≠ [] ∧ run ≠ [] then
      message :: ⟨.user,regroup order (run.flatMap Message.toolResults)⟩ ::
        projectFrom fuel (rest.dropWhile Message.isToolResults)
    else message :: projectFrom fuel rest

def projectToolResultOrder (messages : List Message) : List Message :=
  projectFrom messages.length messages
def TurnMessages.projectedCanonical (m : TurnMessages) (persistedCount : Nat) :
    List Message × List Message :=
  let count := if persistedCount > m.canonical.length then m.canonical.length else persistedCount
  (projectToolResultOrder (m.canonical.take count),projectToolResultOrder (m.canonical.drop count))
def stripBlocks (keep : ContentBlock → Bool) (messages : List Message) : List Message :=
  messages.filterMap fun m =>
    let filtered := m.content.filter keep
    if filtered = [] then none else some { m with content := filtered }
def stripWidgets (messages : List Message) : List Message :=
  stripBlocks (fun
    | .widget _ => false
    | _ => true) messages
def stripToolBlocks (messages : List Message) : List Message :=
  stripBlocks (fun
    | .toolUse _ | .toolResult _ => false
    | _ => true) messages

inductive NormStrategy where
  | merge
  | fill
  | remove
  deriving DecidableEq, Repr

def continueMessage : Message := ⟨.user,[.text "Continue."]⟩
def understoodMessage : Message := ⟨.assistant,[.text "Understood."]⟩

/-- The loops below carry the last message of the result so far. -/
def normFillFrom (last : Message) : List Message → List Message
  | [] => [last]
  | m :: rest =>
    if m.role = last.role then
      last :: (if m.role = .user then understoodMessage else continueMessage) :: normFillFrom m rest
    else last :: normFillFrom m rest

def normMergeFrom (last : Message) : List Message → List Message
  | [] => [last]
  | m :: rest =>
    if m.role = last.role then
      normMergeFrom { last with content := last.content ++ m.content } rest
    else last :: normMergeFrom m rest

def normRemoveFrom (last : Message) : List Message → List Message
  | [] => [last]
  | m :: rest =>
    if m.role = last.role then normRemoveFrom m rest
    else last :: normRemoveFrom m rest

def normFill : List Message → List Message
  | [] => []
  | m :: rest => normFillFrom m rest
def normMerge : List Message → List Message
  | [] => []
  | m :: rest => normMergeFrom m rest
def normRemove : List Message → List Message
  | [] => []
  | m :: rest => normRemoveFrom m rest

def normalizeMessages (messages : List Message) (strategy : NormStrategy) : List Message :=
  let working := match messages with
    | [] => []
    | m :: rest => if m.role = .user then m :: rest else continueMessage :: m :: rest
  match strategy with
  | .merge => normMerge working
  | .fill => normFill working
  | .remove => normRemove working
end GudeAgents
