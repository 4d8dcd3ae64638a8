import Mathlib.Data.Nat.Find
import GudeAgents.ContextManager.Batches
import GudeAgents.Conversation.InMemory
import GudeAgents.Conversation.Snapshots
/-!
# The window over a conversation

Model of `Window` in `contextmanager/contextmanager.go`: the boundary is searched downwards until no
kept result has lost its call.
-/
namespace GudeAgents.ContextManager
open Conversation List Scenario UInt64 Stored
def orphanedFrom (uses : List String) : List ContentBlock → Bool
  | [] => false
  | .toolUse x::rest => orphanedFrom (x.toolUseID::uses) rest
  | .toolResult x::rest => if x.toolUseID∉uses then true else orphanedFrom uses rest
  | _ :: rest => orphanedFrom uses rest

def hasOrphanedToolResult (messages : List Message) : Bool := orphanedFrom [] (blocks messages)

structure Window where
  count : UInt64
  count_pos : 0<count.toNat

private theorem toUInt64_pos {messages : Int64} (h : ¬ messages<1) : 0 < messages.toUInt64.toNat := by
  rw [Int64.lt_iff_toInt_lt] at h
  apply Nat.pos_of_ne_zero
  intro hzero
  have hbits : messages.toBitVec=0#64 := BitVec.eq_of_toNat_eq hzero
  have hint : messages.toInt=0 := by
    rw [← Int64.toInt_toBitVec,hbits]
    rfl
  rw [hint] at h
  exact h (by decide)

def newWindow (messages : Int64) : Except String Window :=
  if h : messages<1 then
    .error ("contextmanager: window messages must be >= 1, got "++toString messages)
  else .ok ⟨messages.toUInt64,toUInt64_pos h⟩
def maxUint64 : UInt64 := 18446744073709551615
abbrev LoadAfter : Type := UInt64 → Except String (Snapshot Message)

def boundaryFrom (loadAfter : LoadAfter) : Nat → Except String UInt64
  | 0 => do
      let _ ← loadAfter 0
      return 0
  | start+1 => do
      let tail ← loadAfter (ofNat (start+1))
      if !hasOrphanedToolResult tail.messages then return ofNat (start+1)
      else boundaryFrom loadAfter start

def Window.historyBoundary (w : Window) (loadAfter : LoadAfter) : Except String UInt64 := do
  let metadata ← loadAfter maxUint64
  if metadata.lastSequence≤w.count then return 0
  else boundaryFrom loadAfter (metadata.lastSequence-w.count).toNat

variable {uses : List String}
private theorem orphanedFrom_toolResult {x : ToolResultBlock} {rest : List ContentBlock} :
    orphanedFrom uses (.toolResult x::rest)=false ↔
      x.toolUseID∈uses ∧ orphanedFrom uses rest=false := by
  rw [orphanedFrom]
  by_cases hmem : x.toolUseID∈uses
  · rw [if_neg (not_not.mpr hmem)]
    exact (and_iff_right hmem).symm
  · rw [if_pos hmem]
    simp [hmem]

variable {bs : List ContentBlock}
private theorem orphanedFrom_of_subset (uses uses' : List String)
    (hsub : ∀ id∈answerIDs bs, id∈uses → id∈uses') (h : orphanedFrom uses bs=false) :
    orphanedFrom uses' bs=false := by
  induction bs generalizing uses uses' with
  | nil => rfl
  | cons block rest ih =>
    cases block with
    | toolUse x =>
      refine ih (x.toolUseID::uses) (x.toolUseID::uses') ?_ h
      intro id hid hmem
      rcases mem_cons.mp hmem with rfl | hmem
      · exact mem_cons_self
      · exact mem_cons_of_mem _ (hsub id hid hmem)
    | toolResult x =>
      rw [orphanedFrom_toolResult] at h ⊢
      exact ⟨hsub _ mem_cons_self h.1,
        ih uses uses' (fun id hid => hsub id (mem_cons_of_mem _ hid)) h.2⟩
    | _ => exact ih uses uses' hsub h

private theorem orphanedFrom_congr {uses' : List String} (h : ∀ id, id∈uses ↔ id∈uses')
    (bs : List ContentBlock) : orphanedFrom uses bs=false ↔ orphanedFrom uses' bs=false :=
  ⟨orphanedFrom_of_subset uses uses' fun id _ => (h id).mp,
    orphanedFrom_of_subset uses' uses fun id _ => (h id).mpr⟩

private theorem orphanedFrom_append (uses : List String) (xs ys : List ContentBlock) :
    orphanedFrom uses (xs++ys)=false ↔
      orphanedFrom uses xs=false ∧ orphanedFrom (callIDs xs++uses) ys=false := by
  induction xs generalizing uses with
  | nil => simp [orphanedFrom,callIDs]
  | cons block rest ih =>
    cases block with
    | toolUse x =>
      rw [cons_append,orphanedFrom,orphanedFrom,ih]
      refine and_congr_right fun _ => orphanedFrom_congr ?_ ys
      intro id
      show id∈callIDs rest++x.toolUseID::uses ↔ id∈x.toolUseID::(callIDs rest++uses)
      simp only [mem_append,mem_cons]
      exact or_left_comm
    | toolResult x =>
      rw [cons_append,orphanedFrom_toolResult,orphanedFrom_toolResult,ih,and_assoc]
      rfl
    | _ => exact ih uses

private theorem orphanedFrom_of_known (h : ∀ id∈answerIDs bs, id∈uses) :
    orphanedFrom uses bs=false := by
  induction bs generalizing uses with
  | nil => rfl
  | cons block rest ih =>
    cases block with
    | toolUse x => exact ih fun id hid => mem_cons_of_mem _ (h id hid)
    | toolResult x =>
      rw [orphanedFrom_toolResult]
      exact ⟨h _ mem_cons_self,ih fun id hid => h id (mem_cons_of_mem _ hid)⟩
    | _ => exact ih h

private theorem orphanedFrom_first (hcalls : callIDs bs=[]) (hanswers : answerIDs bs≠[]) :
    orphanedFrom [] bs=true := by
  induction bs with
  | nil => exact absurd rfl hanswers
  | cons block rest ih =>
    cases block with
    | toolUse x => cases hcalls
    | toolResult x => rfl
    | _ => exact ih hcalls hanswers

/-- No kept result has lost its call when the messages from number `b + 1` on are kept. -/
def KeepsCalls (messages : List Message) (b : Nat) : Prop :=
  hasOrphanedToolResult (messages.drop b)=false

instance (messages : List Message) : DecidablePred (KeepsCalls messages) :=
  fun b => inferInstanceAs (Decidable (hasOrphanedToolResult (messages.drop b)=false))

private theorem toNat_ofNat_of_le {k n : Nat} (hk : k≤n) (hn : n ≤ maxInt) : (ofNat k).toNat=k := by
  unfold maxInt at hn
  rw [toNat_ofNat',Nat.mod_eq_of_lt (by omega)]

section
variable {log : Log Message} {loadAfter : LoadAfter}
private theorem boundaryFrom_eq (hstore : ∀ k, loadAfter k=.ok (log.snapshot k)) {start : Nat}
    (hstart : start ≤ maxInt) :
    boundaryFrom loadAfter start =
      .ok (ofNat (Nat.findGreatest (KeepsCalls log.messages) start)) := by
  induction start with
  | zero =>
    rw [boundaryFrom,hstore]
    rfl
  | succ start ih =>
    have htail : (log.snapshot (ofNat (start+1))).messages=log.messages.drop (start+1) := by
      rw [Log.snapshot,Log.above_eq_drop,toNat_ofNat_of_le (Nat.le_refl _) hstart]
    rw [boundaryFrom,hstore]
    simp only [bind,Except.bind,htail]
    by_cases hkeeps : KeepsCalls log.messages (start+1)
    · rw [Nat.findGreatest_eq hkeeps,show hasOrphanedToolResult _ = false from hkeeps]
      rfl
    · have horphaned : hasOrphanedToolResult (log.messages.drop (start+1))=true := by
        simpa [KeepsCalls] using hkeeps
      rw [Nat.findGreatest_of_not hkeeps,horphaned]
      exact ih (by omega)

theorem Window.historyBoundary_eq (w : Window) (hstore : ∀ k, loadAfter k=.ok (log.snapshot k))
    (hlength : log.messages.length ≤ maxInt) :
    w.historyBoundary loadAfter=.ok (ofNat
      (Nat.findGreatest (KeepsCalls log.messages) (log.messages.length-w.count.toNat))) := by
  have hlast : (log.snapshot maxUint64).lastSequence.toNat=log.messages.length :=
    toNat_ofNat_of_le (Nat.le_refl _) hlength
  rw [historyBoundary,hstore]
  simp only [bind,Except.bind]
  by_cases hle : (log.snapshot maxUint64).lastSequence≤w.count
  · rw [if_pos hle]
    rw [UInt64.le_iff_toNat_le,hlast] at hle
    rw [Nat.sub_eq_zero_of_le hle]
    rfl
  · rw [if_neg hle]
    rw [UInt64.le_iff_toNat_le,hlast,Nat.not_le] at hle
    rw [UInt64.toNat_sub_of_le _ _ (UInt64.le_iff_toNat_le.mpr (by omega)),hlast]
    exact boundaryFrom_eq hstore (by omega)

/-- The results of every batch stand directly behind its calls: a result elsewhere answers no
earlier batch. Calls of later batches may have the same IDs. -/
structure Batched (messages : List Message) (batches : List Batch) : Prop where
  messages_eq : messages=conversation batches
  elsewhere : batches.Pairwise fun x y =>
    ∀ id∈answerIDs y.head.content, id∉callIDs x.head.content

variable {messages : List Message} {batches before after : List Batch} {x : Batch}
private theorem orphanedFrom_batches (uses uses' : List String)
    (hheads : ∀ y∈batches, ∀ id∈answerIDs y.head.content, id∈uses → id∈uses')
    (h : orphanedFrom uses (blocks (conversation batches))=false) :
    orphanedFrom uses' (blocks (conversation batches))=false := by
  induction batches generalizing uses uses' with
  | nil => rfl
  | cons y batches ih =>
    rw [conversation_cons,Batch.messages,cons_append,blocks_cons,blocks_append,orphanedFrom_append,
      orphanedFrom_append] at h ⊢
    obtain ⟨hhead,-,hrest⟩ := h
    refine ⟨orphanedFrom_of_subset uses uses' (hheads y mem_cons_self) hhead,?_,?_⟩
    · apply orphanedFrom_of_known
      intro id hid
      obtain ⟨m,hm,hmem⟩ := mem_answerIDs.mp hid
      exact mem_append_left _ (y.own m hm id hmem)
    · refine ih _ _ ?_ hrest
      intro y' hy' id hid hmem
      rcases mem_append.mp hmem with hmem | hmem
      · exact mem_append_left _ hmem
      rcases mem_append.mp hmem with hmem | hmem
      · exact mem_append_right _ (mem_append_left _ hmem)
      · exact mem_append_right _ (mem_append_right _
          (hheads y' (mem_cons_of_mem _ hy') id hid hmem))

theorem Batched.not_split (h : Batched messages batches) (hat : batches=before++x::after)
    {b : Nat} (hkeeps : KeepsCalls messages b) :
    ¬ ((conversation before).length<b ∧ b<(conversation before).length+x.length) := by
  rintro ⟨hlt,hlt'⟩
  obtain ⟨j,hj⟩ : ∃ j, b=(conversation before).length + (j + 1) :=
    ⟨b-(conversation before).length-1,by omega⟩
  have hindex : j<x.answers.length := by
    unfold Batch.length Batch.messages at hlt'
    rw [length_cons] at hlt'
    omega
  have hdrop : messages.drop b =
      x.answers[j]::(x.answers.drop (j+1)++conversation after) := by
    rw [h.messages_eq,hat,conversation_append,conversation_cons,Batch.messages,hj,
      drop_length_add_append,cons_append,drop_succ_cons,
      drop_append_of_le_length (Nat.le_of_lt hindex),drop_eq_getElem_cons hindex]
    rfl
  have hmem := getElem_mem hindex
  rw [KeepsCalls,hdrop,hasOrphanedToolResult,blocks_cons,orphanedFrom_append] at hkeeps
  rw [orphanedFrom_first (x.noUses _ hmem) (x.answering _ hmem)] at hkeeps
  cases hkeeps.1

theorem Batched.keepsCalls_between (h : Batched messages batches) (hat : batches=before++after)
    {b : Nat} (hle : b≤(conversation before).length) (hkeeps : KeepsCalls messages b) :
    KeepsCalls messages (conversation before).length := by
  have helsewhere := h.elsewhere
  rw [hat,pairwise_append] at helsewhere
  rw [KeepsCalls,h.messages_eq,hat,conversation_append] at hkeeps ⊢
  rw [drop_left,hasOrphanedToolResult]
  rw [drop_append_of_le_length hle,hasOrphanedToolResult,blocks_append,
    orphanedFrom_append] at hkeeps
  refine orphanedFrom_batches _ _ ?_ hkeeps.2
  intro y hy id hid hmem
  rw [append_nil] at hmem
  obtain ⟨m,hm,hcall⟩ := mem_callIDs.mp hmem
  have hall := mem_callIDs.mpr ⟨m,mem_of_mem_drop hm,hcall⟩
  rw [callIDs_conversation] at hall
  obtain ⟨z,hz,hcall⟩ := mem_flatMap.mp hall
  exact absurd hcall (helsewhere.2.2 z hz y hy id hid)

/-- The boundary is the greatest one that keeps at least `count` messages and no orphaned result, or
0. If the results of every batch stand directly behind its calls, it splits no batch and keeps fewer
than `count` and the longest batch together. -/
theorem historyBoundary_keeps_batches (w : Window)
    (hstore : ∀ k, loadAfter k=.ok (log.snapshot k)) (hlength : log.messages.length ≤ maxInt) :
    ∃ b : Nat, w.historyBoundary loadAfter=.ok (ofNat b) ∧
      b=Nat.findGreatest (fun b => hasOrphanedToolResult (log.messages.drop b)=false)
        (log.messages.length-w.count.toNat) ∧
      ∀ batches, Batched log.messages batches → (∀ before x after, batches=before++x::after →
          ¬ ((conversation before).length<b ∧
            b<(conversation before).length+x.messages.length)) ∧
        (0<b → log.messages.length-b<w.count.toNat+longestBatch batches) := by
  refine ⟨_,w.historyBoundary_eq hstore hlength,rfl,?_⟩
  intro batches hbatched
  generalize hb : Nat.findGreatest (KeepsCalls log.messages)
    (log.messages.length-w.count.toNat)=b
  have hspec : b≠0 → KeepsCalls log.messages b := Nat.findGreatest_of_ne_zero hb
  constructor
  · intro before x after hat hsplit
    exact hbatched.not_split hat (hspec (by omega)) hsplit
  · intro hpos
    have hcount := w.count_pos
    have hle : b≤log.messages.length-w.count.toNat := hb ▸ Nat.findGreatest_le _
    -- the batch in which the last `count` messages begin
    have hinside : log.messages.length-w.count.toNat<(conversation batches).length := by
      rw [← hbatched.messages_eq]
      omega
    obtain ⟨before,x,after,hat,hstart,hend⟩ := exists_batch_at hinside
    have hbound : (conversation before).length≤b := by
      by_contra hlt
      have hkeeps := hbatched.keepsCalls_between hat (Nat.le_of_not_le hlt) (hspec (by omega))
      exact hlt (hb ▸ Nat.le_findGreatest hstart hkeeps)
    have hlongest : x.length≤longestBatch batches :=
      length_le_longestBatch (hat ▸ mem_append_right _ mem_cons_self)
    omega
end
namespace Scenario
def reused : List Batch := [text "hi",lookup,text "again",lookup]
def lastMessage : Window := ⟨1,by decide⟩
end Scenario
theorem historyBoundary_keeps_batches_reused : ∃ b : Nat, lastMessage.historyBoundary
        (fun k => .ok (Log.snapshot k ⟨conversation reused,2⟩))=.ok (ofNat b) ∧
      b=4 ∧ (conversation reused).length-b<1+longestBatch reused := by
  obtain ⟨b,hboundary,hgreatest,hbatches⟩ := @historyBoundary_keeps_batches
    ⟨conversation reused,2⟩ _ lastMessage (fun _ => rfl) (by decide)
  have hb : b=4 := hgreatest.trans (by decide)
  exact ⟨b,hboundary,hb,(hbatches reused ⟨rfl,by decide⟩).2 (by omega)⟩

def storedLoadAfter (backend : Backend) (s : Conversation.Stored Message) : LoadAfter :=
  fun k => ((loadAfter Message backend k).eval (fun op s => (s.answer op,s)) s).1

variable {s : Conversation.Stored Message}
private theorem storedLoadAfter_of_missing (h : s.metadata=none) (backend : Backend) (k : UInt64) :
    storedLoadAfter backend s k=.ok (s.log.snapshot k) := by
  rw [log_of_missing h]
  simp only [storedLoadAfter,loadAfter,Framework.Program.eval,answer,h]
  rfl

private theorem storedLoadAfter_of_metadata {cursor : Cursor} (h : s.metadata=some cursor)
    (backend : Backend) (k : UInt64) :
    storedLoadAfter backend s k=(backend.rangeStart k).map fun _ => s.log.snapshot k := by
  obtain ⟨hrevision,hlast⟩ := s.metadata_log h
  simp only [storedLoadAfter,loadAfter,Framework.Program.eval,answer,h]
  cases hstart : backend.rangeStart k with
  | error err => rfl
  | ok start =>
    have hrange := s.answer_range hstart
    rw [← hrevision,← hlast]
    show Except.ok (Snapshot.mk (s.answer (.range start)) _ _)=_
    rw [hrange]
    rfl

private theorem rangeStart_maxUint64 {backend : Backend} (h : backend≠.redis) :
    ∃ err, backend.rangeStart maxUint64=.error err := by
  cases backend with
  | sqlite | postgres => exact ⟨_,rfl⟩
  | redis => exact absurd rfl h

/-- Over a persistent store the window has the boundary that it has over the in-memory store with
the same log exactly when the store is Redis or the conversation was never written. -/
theorem historyBoundary_stored_iff (w : Window) (backend : Backend)
    (s : Conversation.Stored Message) (m : InMemory Message) (id : String)
    (hsame : (m.conversations id).log=s.log) :
    w.historyBoundary (storedLoadAfter backend s) =
        w.historyBoundary (fun k => .ok (m.loadAfter id k)) ↔
      backend=.redis ∨ s.metadata=none := by
  have hmemory : (fun k => Except.ok (m.loadAfter id k))=fun k =>
      (Except.ok (s.log.snapshot k) : Except String (Snapshot Message)) := by
    funext k
    rw [InMemory.loadAfter_eq,hsame]
  rw [hmemory]
  constructor
  · intro hequal
    by_contra hneither
    rw [not_or] at hneither
    obtain ⟨cursor,hcursor⟩ := Option.ne_none_iff_exists'.mp hneither.2
    obtain ⟨err,herr⟩ := rangeStart_maxUint64 hneither.1
    have hlength : s.log.messages.length ≤ maxInt := by
      rw [log,length_map]
      exact s.length_le
    rw [w.historyBoundary_eq (fun _ => rfl) hlength,Window.historyBoundary,
      storedLoadAfter_of_metadata hcursor,herr] at hequal
    cases hequal
  · rintro (rfl | hmissing)
    · cases hmeta : s.metadata with
      | none => exact congrArg _ (funext fun k => storedLoadAfter_of_missing hmeta _ k)
      | some cursor =>
        exact congrArg _ (funext fun k => storedLoadAfter_of_metadata hmeta _ k)
    · exact congrArg _ (funext fun k => storedLoadAfter_of_missing hmissing _ k)

namespace Scenario
def greeting : Message := ⟨.user,[.text "hi"]⟩
def storedGreeting : Conversation.Stored Message := (missing.append [greeting] 0).2
def memoryGreeting : InMemory Message := (InMemory.newInMemory.append "c" [greeting] 0).1
end Scenario
theorem historyBoundary_stored_refused :
    (memoryGreeting.conversations "c").log=storedGreeting.log ∧ lastMessage.historyBoundary
        (fun k => .ok (memoryGreeting.loadAfter "c" k))=.ok 0 ∧
      lastMessage.historyBoundary (storedLoadAfter .postgres storedGreeting) =
        .error "postgres conversation: load range: value is greater than maximum value for int8" ∧
      lastMessage.historyBoundary (storedLoadAfter .sqlite storedGreeting) =
        .error ("sqlite conversation: load range: sql: converting argument $2 type: " ++
          "uint64 values with high bit set are not supported") :=
  ⟨rfl,rfl,rfl,rfl⟩

theorem historyBoundary_stored_redis :
    lastMessage.historyBoundary (storedLoadAfter .redis storedGreeting) =
      lastMessage.historyBoundary (fun k => .ok (memoryGreeting.loadAfter "c" k)) :=
  (historyBoundary_stored_iff lastMessage .redis storedGreeting
    memoryGreeting "c" rfl).mpr (Or.inl rfl)
end GudeAgents.ContextManager
