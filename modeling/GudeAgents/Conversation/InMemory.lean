import GudeAgents.Conversation.Log
import GudeAgents.Framework.FiniteMap
import GudeAgents.Framework.Runs
/-!
# The in-memory conversation store

Model of `InMemory` in `conversation/conversation.go`: a map from IDs to logs. Every operation holds
the mutex, so calls are sequential.
-/
namespace GudeAgents.Conversation
open Framework List UInt64
/-- `ContextStateSnapshot`; the zero value stands for a missing state. -/
structure ContextState where
  data : String := ""
  revision : UInt64 := 0
deriving DecidableEq

inductive Call (M : Type) where
  | append (id : String) (messages : List M) (expectedRevision : UInt64)
  | loadAfter (id : String) (afterSequence : UInt64)
  | saveContextState (id key data : String) (expectedRevision : UInt64)
  | loadContextState (id key : String)
  | list
  | delete (id : String)

inductive Result (M : Type) where
  | cursor (cursor : Cursor)
  | conversationConflict (id : String) (expectedRevision currentRevision : UInt64)
  /-- The runtime panic of a slice that would be longer than the largest `int`. -/
  | lengthOutOfRange
  | snapshot (snapshot : Snapshot M)
  | savedRevision (revision : UInt64)
  | invalidJSON (key : String)
  | contextStateConflict (key : String) (expectedRevision currentRevision : UInt64)
  | contextState (state : ContextState)
  | ids (ids : List String)
  | deleted

structure ConversationState (M : Type) where
  log : Log M := {}
  states : String → ContextState := fun _ => {}

/-- The abstract map; every ID that was never used has the empty conversation. -/
abbrev Conversations (M : Type) : Type := String → ConversationState M

/-- The contract of the operations. `valid` is `json.Valid`. -/
inductive Conversations.Step {M : Type} (valid : String → Bool) :
    Conversations M → Call M × Result M → Conversations M → Prop where
  | append {c : Conversations M} {id : String} {messages : List M} {expected : UInt64}
      (current : (c id).log.revision = expected) (nonempty : messages ≠ [])
      (fits : (c id).log.messages.length + messages.length ≤ maxInt) :
      Step valid c (.append id messages expected,
          .cursor ⟨expected + 1,((c id).log.extend messages).lastSequence⟩)
        (Function.update c id { c id with log := (c id).log.extend messages })
  | appendNothing {c : Conversations M} {id : String} {expected : UInt64}
      (current : (c id).log.revision = expected) :
      Step valid c (.append id [] expected,.cursor ⟨expected,(c id).log.lastSequence⟩) c
  | appendStale {c : Conversations M} {id : String} {messages : List M} {expected : UInt64}
      (stale : (c id).log.revision ≠ expected) :
      Step valid c
        (.append id messages expected,.conversationConflict id expected (c id).log.revision) c
  | appendTooMany {c : Conversations M} {id : String} {messages : List M} {expected : UInt64}
      (current : (c id).log.revision = expected) (nonempty : messages ≠ [])
      (tooMany : maxInt < (c id).log.messages.length + messages.length) :
      Step valid c (.append id messages expected,.lengthOutOfRange) c
  | loadAfter (c : Conversations M) (id : String) (k : UInt64) :
      Step valid c (.loadAfter id k,.snapshot ((c id).log.snapshot k)) c
  | save {c : Conversations M} {id key data : String} {expected : UInt64}
      (wellFormed : valid data = true) (current : ((c id).states key).revision = expected) :
      Step valid c (.saveContextState id key data expected,.savedRevision (expected + 1))
        (Function.update c id
          { c id with states := Function.update (c id).states key ⟨data,expected + 1⟩ })
  | saveInvalid {c : Conversations M} {id key data : String} {expected : UInt64}
      (illFormed : valid data = false) :
      Step valid c (.saveContextState id key data expected,.invalidJSON key) c
  | saveStale {c : Conversations M} {id key data : String} {expected : UInt64}
      (wellFormed : valid data = true) (stale : ((c id).states key).revision ≠ expected) :
      Step valid c (.saveContextState id key data expected,
          .contextStateConflict key expected ((c id).states key).revision) c
  | loadContextState (c : Conversations M) (id key : String) :
      Step valid c (.loadContextState id key,.contextState ((c id).states key)) c
  | list {c : Conversations M} {ids : List String} (nodup : ids.Nodup)
      (listed : ∀ id, id ∈ ids ↔ 0 < (c id).log.revision) : Step valid c (.list,.ids ids) c
  | delete (c : Conversations M) (id : String) :
      Step valid c (.delete id,.deleted) (Function.update c id {})

/-- `memoryEntry`. A slice is not longer than the largest `int`, and the last sequence counts the
messages. -/
structure MemoryEntry (M : Type) where
  messages : List M := []
  revision : UInt64 := 0
  lastSequence : UInt64 := 0
  contextState : FiniteMap String ContextState := ∅
  length_le : messages.length ≤ maxInt := by exact Nat.zero_le maxInt
  lastSequence_eq : lastSequence = ofNat messages.length := by rfl

def MemoryEntry.state {M : Type} (entry : MemoryEntry M) : ConversationState M where
  log := ⟨entry.messages,entry.revision⟩
  states := fun key => (entry.contextState.lookup key).getD {}

structure InMemory (M : Type) where
  data : FiniteMap String (MemoryEntry M)

namespace InMemory
variable {M : Type}
def newInMemory : InMemory M := ⟨∅⟩
def entry (m : InMemory M) (id : String) : MemoryEntry M :=
  (m.data.lookup id).getD {}
def store (m : InMemory M) (id : String) (entry : MemoryEntry M) : InMemory M :=
  ⟨m.data.insert id entry⟩

def loadAfter (m : InMemory M) (id : String) (afterSequence : UInt64) : Snapshot M :=
  match m.data.lookup id with
  | none => ⟨[],0,0⟩
  | some entry =>
    let start := if afterSequence > entry.lastSequence then entry.lastSequence else afterSequence
    ⟨entry.messages.drop start.toNat,entry.revision,entry.lastSequence⟩

def append (m : InMemory M) (id : String) (msgs : List M) (expectedRevision : UInt64) :
    InMemory M × Result M :=
  let entry := m.entry id
  if entry.revision ≠ expectedRevision then
    (m,.conversationConflict id expectedRevision entry.revision)
  else if msgs.length = 0 then
    (m,.cursor ⟨entry.revision,entry.lastSequence⟩)
  else if hfits : entry.messages.length + msgs.length ≤ maxInt then
    let extended : MemoryEntry M :=
      { messages := entry.messages ++ msgs
        revision := entry.revision + 1
        lastSequence := entry.lastSequence + ofNat msgs.length
        contextState := entry.contextState
        length_le := by rw [length_append]; exact hfits
        lastSequence_eq := by
          rw [length_append,ofNat_add,entry.lastSequence_eq] }
    (m.store id extended,.cursor ⟨extended.revision,extended.lastSequence⟩)
  else (m,.lengthOutOfRange)

def loadContextState (m : InMemory M) (id key : String) : ContextState :=
  ((m.entry id).contextState.lookup key).getD {}

/-- `SaveContextState`. Both branches at its end store the entry. -/
def saveContextState (valid : String → Bool) (m : InMemory M) (id key data : String)
    (expectedRevision : UInt64) : InMemory M × Result M :=
  if !valid data then (m,.invalidJSON key)
  else
    let entry := m.entry id
    let current := (entry.contextState.lookup key).getD {}
    if current.revision ≠ expectedRevision then
      (m,.contextStateConflict key expectedRevision current.revision)
    else
      let saved : ContextState := ⟨data,current.revision + 1⟩
      (m.store id { entry with contextState := entry.contextState.insert key saved },
        .savedRevision saved.revision)

def list (m : InMemory M) : List String :=
  (m.data.entries.filter fun e => 0 < e.2.revision).map Sigma.fst
def delete (m : InMemory M) (id : String) : InMemory M :=
  ⟨m.data.erase id⟩

/-- One call. Go ranges a map in any order, so the IDs that `List` returns may be permuted. -/
inductive Step (valid : String → Bool) : InMemory M → Call M × Result M → InMemory M → Prop where
  | append (m : InMemory M) (id : String) (messages : List M) (expected : UInt64) :
      Step valid m (.append id messages expected,(m.append id messages expected).2)
        (m.append id messages expected).1
  | loadAfter (m : InMemory M) (id : String) (k : UInt64) :
      Step valid m (.loadAfter id k,.snapshot (m.loadAfter id k)) m
  | saveContextState (m : InMemory M) (id key data : String) (expected : UInt64) : Step valid m
        (.saveContextState id key data expected,(m.saveContextState valid id key data expected).2)
        (m.saveContextState valid id key data expected).1
  | loadContextState (m : InMemory M) (id key : String) :
      Step valid m (.loadContextState id key,.contextState (m.loadContextState id key)) m
  | list {m : InMemory M} {ids : List String} (order : ids.Perm m.list) :
      Step valid m (.list,.ids ids) m
  | delete (m : InMemory M) (id : String) : Step valid m (.delete id,.deleted) (m.delete id)

/-- The conversations a store holds, without its representation. -/
def conversations (m : InMemory M) : Conversations M :=
  fun id => (m.entry id).state

theorem conversations_store (m : InMemory M) (id : String) (entry : MemoryEntry M) :
    (m.store id entry).conversations = Function.update m.conversations id entry.state := by
  funext other
  by_cases h : other = id
  · subst h
    simp [conversations,InMemory.entry,store]
  · simp [conversations,InMemory.entry,store,AList.lookup_insert_ne h,h]

theorem conversations_delete (m : InMemory M) (id : String) :
    (m.delete id).conversations = Function.update m.conversations id {} := by
  funext other
  by_cases h : other = id
  · subst h
    simp [conversations,InMemory.entry,delete,MemoryEntry.state]
  · simp [conversations,InMemory.entry,delete,AList.lookup_erase_ne h,h]

theorem lastSequence_state (entry : MemoryEntry M) :
    entry.state.log.lastSequence = entry.lastSequence :=
  entry.lastSequence_eq.symm

theorem toNat_lastSequence (entry : MemoryEntry M) :
    entry.lastSequence.toNat = entry.messages.length := by
  have hle := entry.length_le
  rw [entry.lastSequence_eq,toNat_ofNat']
  apply Nat.mod_eq_of_lt
  unfold maxInt at hle
  omega

theorem loadAfter_eq (m : InMemory M) (id : String) (k : UInt64) :
    m.loadAfter id k = (m.conversations id).log.snapshot k := by
  rw [loadAfter,conversations,InMemory.entry]
  cases hentry : m.data.lookup id with
  | none => rfl
  | some entry =>
    have hlast := toNat_lastSequence entry
    simp only [Option.getD_some,Log.snapshot,Log.above_eq_drop,lastSequence_state]
    show (⟨entry.messages.drop _,entry.revision,entry.lastSequence⟩ : Snapshot M) =
      ⟨entry.messages.drop k.toNat,entry.revision,entry.lastSequence⟩
    congr 1
    by_cases hpast : k > entry.lastSequence
    · rw [if_pos hpast,hlast,drop_length]
      have hk : entry.lastSequence.toNat < k.toNat := lt_iff_toNat_lt.mp hpast
      rw [drop_eq_nil_of_le (by omega)]
    · rw [if_neg hpast]

theorem step_append (valid : String → Bool) (m : InMemory M) (id : String) (messages : List M)
    (expected : UInt64) :
    Conversations.Step valid m.conversations
      (.append id messages expected,(m.append id messages expected).2)
      (m.append id messages expected).1.conversations := by
  rw [append]
  by_cases hstale : (m.entry id).revision ≠ expected
  · rw [if_pos hstale]
    exact .appendStale hstale
  · rw [if_neg hstale]
    have hcurrent : (m.entry id).revision = expected := not_not.mp hstale
    by_cases hempty : messages.length = 0
    · rw [if_pos hempty]
      have hnil := length_eq_zero_iff.mp hempty
      subst hnil
      rw [hcurrent,← lastSequence_state]
      exact .appendNothing hcurrent
    · rw [if_neg hempty]
      have hne : messages ≠ [] := fun h => hempty (length_eq_zero_iff.mpr h)
      by_cases hfits : (m.entry id).messages.length + messages.length ≤ maxInt
      · rw [dif_pos hfits]
        have hlast : (m.entry id).lastSequence + ofNat messages.length =
            ((m.conversations id).log.extend messages).lastSequence := by
          show _ = ofNat ((m.entry id).messages ++ messages).length
          rw [length_append,ofNat_add,(m.entry id).lastSequence_eq]
        simp only [conversations_store,hcurrent,hlast,MemoryEntry.state]
        rw [← hcurrent]
        exact @Conversations.Step.append M valid m.conversations id messages _ rfl hne hfits
      · rw [dif_neg hfits]
        exact .appendTooMany hcurrent hne (Nat.lt_of_not_le hfits)

theorem step_saveContextState (valid : String → Bool) (m : InMemory M) (id key data : String)
    (expected : UInt64) :
    Conversations.Step valid m.conversations
      (.saveContextState id key data expected,(m.saveContextState valid id key data expected).2)
      (m.saveContextState valid id key data expected).1.conversations := by
  rw [saveContextState]
  cases hvalid : valid data with
  | false => exact .saveInvalid hvalid
  | true =>
    simp only [Bool.not_true,Bool.false_eq_true,if_false]
    by_cases hstale : (((m.entry id).contextState.lookup key).getD {}).revision ≠ expected
    · rw [if_pos hstale]
      exact .saveStale hvalid hstale
    · rw [if_neg hstale]
      have hcurrent : ((m.conversations id).states key).revision = expected := not_not.mp hstale
      simp only [conversations_store]
      have hstates : (fun other => (((m.entry id).contextState.insert key
            ⟨data,expected + 1⟩).lookup other).getD {}) =
          Function.update (m.conversations id).states key ⟨data,expected + 1⟩ := by
        funext other
        by_cases h : other = key
        · subst h
          simp
        · simp [AList.lookup_insert_ne h,h,conversations,MemoryEntry.state]
      have hrevision : (((m.entry id).contextState.lookup key).getD {}).revision = expected :=
        hcurrent
      rw [hrevision]
      simp only [MemoryEntry.state]
      rw [hstates]
      exact Conversations.Step.save hvalid hcurrent

theorem mem_list {m : InMemory M} {id : String} :
    id ∈ m.list ↔ 0 < (m.conversations id).log.revision := by
  simp only [list,mem_map,mem_filter,decide_eq_true_eq,conversations,entry]
  constructor
  · rintro ⟨⟨id',entry⟩,⟨hmem,hpos⟩,rfl⟩
    rw [FiniteMap.mem_entries_iff.mp hmem]
    exact hpos
  · intro hpos
    cases hentry : m.data.lookup id with
    | none =>
      rw [hentry] at hpos
      exact absurd hpos (lt_irrefl 0)
    | some entry =>
      rw [hentry] at hpos
      exact ⟨⟨id,entry⟩,⟨FiniteMap.mem_entries_iff.mpr hentry,hpos⟩,rfl⟩

theorem nodup_list (m : InMemory M) : m.list.Nodup :=
  List.NodupKeys.sublist filter_sublist m.data.nodupKeys

theorem Step.simulates {valid : String → Bool} {m m' : InMemory M} {label : Call M × Result M}
    (h : Step valid m label m') :
    Conversations.Step valid m.conversations label m'.conversations := by
  cases h with
  | append id messages expected => exact step_append valid m id messages expected
  | loadAfter id k =>
    rw [loadAfter_eq]
    exact .loadAfter m.conversations id k
  | saveContextState id key data expected => exact step_saveContextState valid m id key data expected
  | loadContextState id key => exact .loadContextState m.conversations id key
  | list order =>
    apply Conversations.Step.list (order.nodup_iff.mpr m.nodup_list)
    intro id
    rw [order.mem_iff,mem_list]
  | delete id =>
    rw [conversations_delete]
    exact .delete m.conversations id

/-- In every interleaving of calls on a new store, the results are those of the abstract map. -/
theorem refines_conversations {valid : String → Bool} {m : InMemory M}
    {calls : List (Call M × Result M)} (h : Trace (Step valid) newInMemory calls m) :
    Trace (Conversations.Step valid) (fun _ => {}) calls m.conversations := by
  have hsimulated := h.image (f := conversations) Step.simulates
  exact hsimulated

theorem refines_conversations_stale_append :
    ∃ m, Trace (Conversations.Step fun _ => true) (fun _ => {})
      [(.append "c" ["hello"] 0,.cursor ⟨1,1⟩),
        (.append "c" ["again"] 0,.conversationConflict "c" 0 1),
        (.loadAfter "c" 18446744073709551615,.snapshot ⟨[],1,1⟩),
        (.saveContextState "d" "summary" "null" 0,.savedRevision 1),
        (.list,.ids ["c"])] (conversations m) :=
  ⟨_,refines_conversations (.cons (.append _ "c" ["hello"] 0)
    (.cons (.append _ "c" ["again"] 0) (.cons (.loadAfter _ "c" 18446744073709551615)
      (.cons (.saveContextState _ "d" "summary" "null" 0)
        (.cons (.list (List.Perm.refl ["c"])) (.nil _))))))⟩
end InMemory
end GudeAgents.Conversation
