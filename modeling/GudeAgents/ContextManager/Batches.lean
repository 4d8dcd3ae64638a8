import GudeAgents.Agent.Content
/-!
# Batches of a conversation

A message with tool uses and the messages with its results behind it; others are pieces of their own.
-/
namespace GudeAgents.ContextManager
open List
def callIDs (blocks : List ContentBlock) : List String :=
  (blocks.filterMap ContentBlock.toolUse?).map (·.toolUseID)
def answerIDs (blocks : List ContentBlock) : List String :=
  (blocks.filterMap ContentBlock.toolResult?).map (·.toolUseID)
def blocks (messages : List Message) : List ContentBlock := messages.flatMap Message.content

@[simp] theorem callIDs_append (xs ys : List ContentBlock) :
    callIDs (xs++ys)=callIDs xs++callIDs ys := by
  simp [callIDs]

@[simp] theorem answerIDs_append (xs ys : List ContentBlock) :
    answerIDs (xs++ys)=answerIDs xs++answerIDs ys := by
  simp [answerIDs]

@[simp] theorem blocks_append (messages others : List Message) :
    blocks (messages++others)=blocks messages++blocks others :=
  flatMap_append

@[simp] theorem blocks_cons (m : Message) (messages : List Message) :
    blocks (m::messages)=m.content++blocks messages :=
  flatMap_cons

theorem callIDs_eq_nil {messages : List Message} (h : ∀ m∈messages, callIDs m.content=[]) :
    callIDs (blocks messages)=[] := by
  induction messages with
  | nil => rfl
  | cons m rest ih =>
    rw [blocks_cons,callIDs_append,h m mem_cons_self,ih fun m' hm' => h m' (mem_cons_of_mem _ hm'),
      append_nil]

/-- A message and the messages with results of its calls that stand directly behind it. Every one of
them has a result, and none makes calls. -/
structure Batch where
  head : Message
  answers : List Message
  noUses : ∀ m∈answers, callIDs m.content=[]
  answering : ∀ m∈answers, answerIDs m.content≠[]
  own : ∀ m∈answers, ∀ id∈answerIDs m.content, id∈callIDs head.content

namespace Batch
def messages (x : Batch) : List Message := x.head::x.answers
def length (x : Batch) : Nat := x.messages.length

theorem callIDs_messages (x : Batch) : callIDs (blocks x.messages)=callIDs x.head.content := by
  rw [messages,blocks_cons,callIDs_append,callIDs_eq_nil x.noUses,append_nil]
end Batch
def conversation (batches : List Batch) : List Message := batches.flatMap Batch.messages

@[simp] theorem conversation_append (batches others : List Batch) :
    conversation (batches++others)=conversation batches++conversation others :=
  flatMap_append

@[simp] theorem conversation_cons (x : Batch) (batches : List Batch) :
    conversation (x::batches)=x.messages++conversation batches :=
  flatMap_cons

theorem callIDs_conversation (batches : List Batch) :
    callIDs (blocks (conversation batches))=batches.flatMap fun x => callIDs x.head.content := by
  induction batches with
  | nil => rfl
  | cons x batches ih =>
    rw [conversation_cons,blocks_append,callIDs_append,x.callIDs_messages,ih,flatMap_cons]

theorem mem_callIDs {id : String} {messages : List Message} :
    id∈callIDs (blocks messages) ↔ ∃ m∈messages, id∈callIDs m.content := by
  induction messages with
  | nil => simp [blocks,callIDs]
  | cons m messages ih => simp [ih]

theorem mem_answerIDs {id : String} {messages : List Message} :
    id∈answerIDs (blocks messages) ↔ ∃ m∈messages, id∈answerIDs m.content := by
  induction messages with
  | nil => simp [blocks,answerIDs]
  | cons m messages ih => simp [ih]

theorem exists_batch_at {batches : List Batch} {k : Nat} (h : k<(conversation batches).length) :
    ∃ before x after, batches=before++x::after ∧ (conversation before).length≤k ∧
      k<(conversation before).length+x.length := by
  induction batches generalizing k with
  | nil => cases h
  | cons y batches ih =>
    rcases Nat.lt_or_ge k y.length with hlt | hge
    · exact ⟨[],y,batches,rfl,Nat.zero_le k,by simpa [conversation] using hlt⟩
    · rw [conversation_cons,length_append] at h
      obtain ⟨before,x,after,rfl,hle,hlt⟩ := ih (k := k - y.length)
        (by unfold Batch.length at hge ⊢; omega)
      refine ⟨y::before,x,after,rfl,?_,?_⟩
      · rw [conversation_cons,length_append]
        unfold Batch.length at hge hle
        omega
      · rw [conversation_cons,length_append]
        unfold Batch.length at hge hlt ⊢
        omega

def longestBatch (batches : List Batch) : Nat := (batches.map Batch.length).foldr max 0

theorem length_le_longestBatch {batches : List Batch} {x : Batch} (h : x∈batches) :
    x.length≤longestBatch batches := by
  induction batches with
  | nil => cases h
  | cons y batches ih =>
    rcases mem_cons.mp h with rfl | h
    · exact Nat.le_max_left _ _
    · exact Nat.le_trans (ih h) (Nat.le_max_right _ _)

namespace Scenario
def lookup : Batch where
  head := ⟨.assistant,[.toolUse ⟨"c1","search","\x7b\x7d"⟩]⟩
  answers := [⟨.user,[.toolResult { toolUseID := "c1", content := "found" }]⟩]
  noUses := by decide
  answering := by decide
  own := by decide

def alone (head : Message) : Batch where
  head := head
  answers := []
  noUses := nofun
  answering := nofun
  own := nofun

def text (text : String) : Batch := alone ⟨.user,[.text text]⟩
end Scenario
end GudeAgents.ContextManager
