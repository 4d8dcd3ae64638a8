import GudeAgents.Agent.Entry
import GudeAgents.Framework.Script
/-!
# An executable world

Computed answers to the engine's calls: faults, responses and replies are chosen, the rest is usual.
-/
namespace GudeAgents
open Framework
inductive Choice where
  | usual
  | lost (fault : StoreFault)
  | refused (fault : StoreFault)
  | model (response : ModelResponse)
  | modelError (err : Error)
  | reply (reply : HandlerReply)
  | retrieved (context : String)
  | hidden
  | denied
  deriving DecidableEq, Repr

namespace World
def write (s : World) (w : Nat) (label : SaveLabel) (e : Execution) (expected : Nat) :
    Choice → Option (Except StoreFault Execution × World)
  | .usual =>
    if expected = s.version then
      some (.ok { e with version := expected + 1 },
        s.record (.save w label { e with version := expected + 1 } .acked))
    else
      some (.error .conflict,s.record (.save w label { e with version := expected + 1 } .refused))
  | .lost fault =>
    if expected = s.version then
      some (.error fault,s.record (.save w label { e with version := expected + 1 } .lost))
    else none
  | .refused fault =>
    some (.error fault,s.record (.save w label { e with version := expected + 1 } .refused))
  | _ => none

def extend (s : World) (w : Nat) (label : AppendLabel) (messages : List Message) (expected : Nat) :
    Choice → Option (Except StoreFault ConversationCursor × World)
  | .usual =>
    let c : ConversationCursor := ⟨expected + 1,s.messages.length + messages.length⟩
    if expected = s.revision then some (.ok c,s.record (.append w label messages c .acked))
    else some (.error .conflict,s.record (.append w label messages c .refused))
  | .lost fault =>
    let c : ConversationCursor := ⟨expected + 1,s.messages.length + messages.length⟩
    if expected = s.revision then some (.error fault,s.record (.append w label messages c .lost))
    else none
  | .refused fault =>
    some (.error fault,s.record (.append w label messages
      ⟨expected + 1,s.messages.length + messages.length⟩ .refused))
  | _ => none

def reply (query : Query) : Choice → Option query.Answer :=
  match query with
  | .guardrail _ _ message => fun
    | .usual => some (.ok message)
    | _ => none
  | .historyBoundary => fun
    | .usual => some (.ok (0 : Nat))
    | _ => none
  | .prepareContext recent current transient => fun
    | .usual => some (.ok (recent ++ transient ++ current))
    | _ => none
  | .retrieve _ => fun
    | .usual => some (.ok none)
    | .retrieved context => some (.ok (some context))
    | _ => none
  | .inferenceConfig | .reserveLease | .releaseLease => fun
    | .usual => some (none : Option Error)
    | _ => none
  | .isVisible _ => fun
    | .usual => some true
    | .hidden => some false
    | _ => none
  | .allowedForPrincipal _ => fun
    | .usual => some .allowed
    | .denied => some .deniedByRole
    | _ => none
  | .validateToolInput .. => fun
    | .usual => some (none : Option String)
    | _ => none
  | .guard .. => fun
    | .usual => some (.ok ⟨true,""⟩)
    | _ => none
  | .schedule _ => fun
    | .usual => some (0 : Nat)
    | _ => none

def answer (w : Nat) (op : Op) (choice : Choice) (s : World) : Option (op.Answer × World) :=
  match op with
  | .create e => s.write w .create e 0 choice
  | .load =>
    match choice, s.current? with
    | .usual, some e => some (.ok e,s.record (.load w e))
    | .usual, none => some (.error .notFound,s)
    | .refused fault, _ => some (.error fault,s)
    | _, _ => none
  | .save label e expected => s.write w label e expected choice
  | .loadAfter label after =>
    match choice with
    | .usual => some (.ok (s.loadAfter after),s.record (.read w label after s.cursor))
    | .refused fault => some (.error fault,s)
    | _ => none
  | .append label messages expected => s.extend w label messages expected choice
  | .contextErr =>
    match choice with
    | .usual => some (s.cancellation? w,s)
    | _ => none
  | .callModel _ =>
    match choice with
    | .model resp => some (.ok resp,s.record (.called w (some resp.usage)))
    | .modelError err => some (.error err,s.record (.called w none))
    | _ => none
  | .commitLease _ =>
    match choice with
    | .usual => some ((none : Option Error),s.record (.leaseCommit w true))
    | .modelError err => some ((some err : Option Error),s.record (.leaseCommit w false))
    | _ => none
  | .handler start =>
    match choice with
    | .reply r => some (r,s.record (.handler w start r))
    | _ => none
  | .ask query =>
    match reply query choice with
    | some a => some (a,s)
    | none => none
  | .note n =>
    match choice with
    | .usual => some ((),s.record (.note w n))
    | _ => none

theorem write_saves {s s' : World} {w : Nat} {label : SaveLabel} {e : Execution} {expected : Nat}
    {choice : Choice} {a : Except StoreFault Execution}
    (h : s.write w label e expected choice = some (a,s')) : Saves w label e expected s a s' := by
  cases choice with
  | usual =>
    simp only [write] at h
    split at h
    · next hver =>
      cases h
      exact ⟨.acked,fun _ => hver,rfl,rfl⟩
    · cases h
      exact ⟨.refused,by simp [Verdict.committed],rfl,_,rfl⟩
  | lost fault =>
    simp only [write] at h
    split at h
    · next hver =>
      cases h
      exact ⟨.lost,fun _ => hver,rfl,_,rfl⟩
    · cases h
  | refused fault =>
    cases h
    exact ⟨.refused,by simp [Verdict.committed],rfl,_,rfl⟩
  | model | modelError | reply | retrieved | hidden | denied => cases h

theorem extend_appends {s s' : World} {w : Nat} {label : AppendLabel} {messages : List Message}
    {expected : Nat} {choice : Choice} {a : Except StoreFault ConversationCursor}
    (h : s.extend w label messages expected choice = some (a,s')) :
    Appends w label messages expected s a s' := by
  cases choice with
  | usual =>
    simp only [extend] at h
    split at h
    · next hrev =>
      cases h
      exact ⟨.acked,fun _ => hrev,rfl,rfl⟩
    · cases h
      exact ⟨.refused,by simp [Verdict.committed],rfl,_,rfl⟩
  | lost fault =>
    simp only [extend] at h
    split at h
    · next hrev =>
      cases h
      exact ⟨.lost,fun _ => hrev,rfl,_,rfl⟩
    · cases h
  | refused fault =>
    cases h
    exact ⟨.refused,by simp [Verdict.committed],rfl,_,rfl⟩
  | model | modelError | reply | retrieved | hidden | denied => cases h

theorem answer_perform {w : Nat} {op : Op} {choice : Choice} {s s' : World} {a : op.Answer}
    (h : s.answer w op choice = some (a,s')) : Perform w op s a s' := by
  cases op with
  | create e | save label e expected => exact write_saves h
  | append label messages expected => exact extend_appends h
  | load =>
    simp only [answer] at h
    split at h
    · next e hcurrent =>
      cases h
      exact .inl ⟨e,hcurrent,rfl,rfl⟩
    · cases h
      exact .inr ⟨⟨_,rfl⟩,rfl⟩
    · cases h
      exact .inr ⟨⟨_,rfl⟩,rfl⟩
    · cases h
  | loadAfter label after =>
    simp only [answer] at h
    split at h
    · cases h
      exact .inl ⟨rfl,rfl⟩
    · cases h
      exact .inr ⟨⟨_,rfl⟩,rfl⟩
    · cases h
  | contextErr =>
    simp only [answer] at h
    split at h
    · cases h
      exact ⟨rfl,rfl⟩
    · cases h
  | callModel request =>
    simp only [answer] at h
    split at h
    · cases h
      exact .inl ⟨_,rfl,rfl⟩
    · cases h
      exact .inr ⟨⟨_,rfl⟩,rfl⟩
    · cases h
  | commitLease usage =>
    simp only [answer] at h
    split at h
    · cases h
      rfl
    · cases h
      rfl
    · cases h
  | handler start | ask query | note n =>
    simp only [answer] at h
    split at h
    · cases h
      rfl
    · cases h
end World
section
variable [Host]
def player : Player system where
  Choice := Choice
  Joiner := Entry
  Outer := Nat × ContextError
  answer := World.answer
  join entry w s :=
    if entry.agent.conversation = true ∧ entry.agent.executionStore = true then
      some (entry.request.program entry.agent entry.context,s.record (.began w entry))
    else none
  outer o s := s.record (.cancelled o.1 o.2)
  usual := .usual
  answer_sound h := World.answer_perform h
  join_sound := by
    intro entry w s p s' h
    split at h
    · next hstores =>
      cases h
      exact ⟨entry.agent,entry.context,entry.request,hstores.1,hstores.2,rfl,rfl⟩
    · cases h
  outer_sound o s := ⟨o.1,o.2,rfl⟩

def played (seed : World) (script : List player.Move) : Option World :=
  (player.play script ⟨seed,[]⟩).map (·.shared)

theorem reaches_played {seed s : World} {script : List player.Move} (hseed : seed.log = [])
    (h : played seed script = some s) : Reaches seed s := by
  obtain ⟨pool,hplay,rfl⟩ := Option.map_eq_some_iff.mp h
  exact ⟨hseed,pool.workers,Player.play_reachable hplay⟩

/-- What a script shows about the world it plays is true of some reachable world. -/
theorem exists_reaches {seed : World} {script : List player.Move} {P : World → Bool}
    (hseed : seed.log = []) (h : (played seed script).any P = true) :
    ∃ s, Reaches seed s ∧ P s = true := by
  cases hplayed : played seed script with
  | none => simp [hplayed] at h
  | some s =>
    rw [hplayed] at h
    exact ⟨s,reaches_played hseed hplayed,h⟩
end
/-- A host that leaves text as it is; scripts use it on text that is already canonical. -/
@[reducible] def plainHost : Host := ⟨id,fun s => .ok s,id,id⟩

abbrev Script := List (@player plainHost).Move

namespace Scenario
def context : Context := { conversationID := "conversation", executionID := "execution" }
def toolCall (id : String) : ToolCall := ⟨id,"t","\x7b\x7d"⟩
def callsTools (ids : List String) : Choice :=
  .model { toolCalls := ids.map toolCall, usage := { inputTokens := 1 } }
def answers (text : String) : Choice := .model { text := text, usage := { inputTokens := 1 } }
def returns (text : String) : Choice := .reply { result := .returned text false [] none }
def asks (question : String) : Choice :=
  .reply { result := .returned question false [] (some ⟨"reason",question⟩) }
def enter (a : Agent) (request : Request) : (@player plainHost).Move := .join ⟨a,context,request⟩
end Scenario
end GudeAgents
