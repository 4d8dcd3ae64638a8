import GudeAgents.Protocol.Records
namespace GudeAgents
open List Message
def Message.resultIDs (m : Message) : List String := m.toolResults.map (·.toolUseID)
def resultIDs (messages : List Message) : List String := messages.flatMap Message.resultIDs
/-- The messages appended after the seed. -/
def World.added (s : World) : List Message := s.messages.drop s.seedMessages.length

theorem World.added_record {s : World} {ev : Event} :
    (s.record ev).added=s.added++ev.appended?.toList.flatMap (·.messages) := by
  have hle : s.seedMessages.length ≤ s.messages.length := by simp [World.messages]
  rw [World.added,World.messages_record,World.record_seedMessages,drop_append_of_le_length hle]
  rfl

theorem resultIDs_append (ms ms' : List Message) :
    resultIDs (ms++ms')=resultIDs ms++resultIDs ms' := by
  simp [resultIDs]

variable {id : String}
theorem mem_resultIDs {ms : List Message} : id∈resultIDs ms ↔ ∃ m∈ms, id∈m.resultIDs := by
  simp [resultIDs]

def AnsweredAfter (messages : List Message) (T : Nat) (id : String) : Prop :=
  ∃ j m, T≤j ∧ messages[j]?=some m ∧ id∈m.resultIDs

theorem AnsweredAfter.mono {ms ms' : List Message} {T : Nat} (h : ms <+: ms')
    (ha : AnsweredAfter ms T id) : AnsweredAfter ms' T id := by
  obtain ⟨j,m,hj,hm,hid⟩ := ha
  exact ⟨j,m,hj,getElem?_of_isPrefix h hm,hid⟩

theorem Message.resultIDs_ne_nil {m : Message} (h : m.isToolResults=true) : m.resultIDs≠[] := by
  simp only [isToolResults,onlyToolResults,Bool.and_eq_true,all_eq_true] at h
  obtain ⟨-,hne,hall⟩ := h
  cases hc : m.content with
  | nil => simp [hc] at hne
  | cons block rest =>
    obtain ⟨r,hr⟩ := Option.isSome_iff_exists.mp (hall block (by simp [hc]))
    simp [Message.resultIDs,Message.toolResults,hc,hr]

theorem collectResults_ok {known seen out : List String} {results : List ToolResultBlock}
    (h : collectResults known seen results=.ok out) :
    out=(results.map (·.toolUseID)).reverse++seen ∧
      (∀ id∈results.map (·.toolUseID), id∈known) ∧ (seen.Nodup → out.Nodup) := by
  induction results generalizing seen with
  | nil =>
    simp only [collectResults,Except.ok.injEq] at h
    simp [h]
  | cons result rest ih =>
    unfold collectResults at h
    split at h
    · cases h
    · next hknown =>
      split at h
      · cases h
      · next hseen =>
        obtain ⟨hout,hids,hnodup⟩ := ih h
        refine ⟨by simp [hout],?_,?_⟩
        · intro id hid
          rcases mem_cons.mp hid with rfl | hid
          · exact not_not.mp hknown
          · exact hids id hid
        · intro hs
          exact hnodup (nodup_cons.mpr ⟨hseen,hs⟩)

theorem collectMessages_ok {known seen out : List String} {messages : List Message}
    (h : collectMessages known seen messages=.ok out) :
    (∀ m∈messages, m.isToolResults=true) ∧ out=(resultIDs messages).reverse++seen ∧
      (∀ id∈resultIDs messages, id∈known) ∧ (seen.Nodup → out.Nodup) := by
  induction messages generalizing seen with
  | nil =>
    simp only [collectMessages,Except.ok.injEq] at h
    simp [h,resultIDs]
  | cons message rest ih =>
    unfold collectMessages at h
    split at h
    · next hresults =>
      split at h
      · next seen' hseen' =>
        obtain ⟨hout',hids',hnodup'⟩ := collectResults_ok hseen'
        obtain ⟨hall,hout,hids,hnodup⟩ := ih h
        refine ⟨?_,?_,?_,fun hs => hnodup (hnodup' hs)⟩
        · intro m hm
          rcases mem_cons.mp hm with rfl | hm
          · exact hresults
          · exact hall m hm
        · rw [hout,hout']
          simp [resultIDs,Message.resultIDs]
        · intro id hid
          rcases mem_append.mp (show id∈message.resultIDs++resultIDs rest from hid) with
            hid | hid
          · exact hids' id hid
          · exact hids id hid
      · cases h
    · cases h

theorem resultIDs_answeredAfter {before rest : List Message} {T : Nat} {first : Message}
    (hT : T≤before.length+1) (hid : id∈resultIDs rest) :
    AnsweredAfter (before++first::rest) T id := by
  obtain ⟨m,hm,hid⟩ := mem_flatMap.mp hid
  obtain ⟨i,hi⟩ := mem_iff_getElem?.mp hm
  refine ⟨before.length+(i+1),m,by omega,?_,hid⟩
  rw [List.getElem?_append_right (Nat.le_add_right _ _),Nat.add_sub_cancel_left,
    List.getElem?_cons_succ]
  exact hi

section
variable [Host] {ms ms' : List Message} {b b' : ToolBatchExecution} {T : Nat}
structure UseAt (messages : List Message) (T : Nat) (b : ToolBatchExecution) : Prop where
  pos : 1≤T
  use : ∃ m, messages[T-1]?=some m ∧ m.isUseOf b=true

theorem UseAt.mono (h : ms <+: ms') (hu : UseAt ms T b) : UseAt ms' T b := by
  obtain ⟨m,hm,hb⟩ := hu.use
  exact ⟨hu.pos,m,getElem?_of_isPrefix h hm,hb⟩

theorem UseAt.restrict (h : ms <+: ms') (hu : UseAt ms' T b) (hT : T ≤ ms.length) : UseAt ms T b := by
  obtain ⟨m,hm,hb⟩ := hu.use
  obtain ⟨rest,rfl⟩ := h
  have hpos := hu.pos
  rw [List.getElem?_append_left (by omega)] at hm
  exact ⟨hpos,m,hm,hb⟩

theorem UseAt.same (h : b.Same b') (hu : UseAt ms T b) : UseAt ms T b' := by
  obtain ⟨m,hm,hb⟩ := hu.use
  exact ⟨hu.pos,m,hm,by rw [h.isUseOf]; exact hb⟩
theorem UseAt.le_length (hu : UseAt ms T b) : T ≤ ms.length := by
  obtain ⟨m,hm,-⟩ := hu.use
  have := (List.getElem?_eq_some_iff.mp hm).1
  omega

variable {answered : List String}
theorem activeToolBatch_ok {calls : List ToolCall} (h : activeToolBatch ms b=.ok (calls,answered)) :
    ∃ first rest, ms=first::rest ∧ first.isUseOf b=true ∧ b.callIDs.Nodup ∧
      calls=first.toolUses.map ToolUseBlock.call ∧ (∀ m∈rest, m.isToolResults=true) ∧
      answered=(resultIDs rest).reverse ∧ (∀ id∈resultIDs rest, id∈b.callIDs) ∧
      answered.Nodup := by
  unfold activeToolBatch at h
  split at h
  · cases h
  · next first rest =>
    split at h
    · next huse =>
      split at h
      · next results hresults =>
        obtain ⟨hall,hout,hids,hnodup⟩ := collectMessages_ok hresults
        obtain ⟨rfl,rfl⟩ := h
        exact ⟨first,rest,rfl,huse.1,huse.2,rfl,hall,by simpa using hout,hids,hnodup nodup_nil⟩
      · cases h
    · cases h

theorem Boundary.split (h : Boundary ms b answered) (hu : UseAt ms T b) :
    ∃ before first rest, ms=before++first::rest ∧ T≤before.length+1 ∧
      first.isUseOf b=true ∧ (∀ m∈rest, m.isToolResults=true) ∧
      answered=(resultIDs rest).reverse ∧ answered.Nodup := by
  obtain ⟨before,suffix,calls,rfl,hactive⟩ := h
  obtain ⟨first,rest,rfl,hfirst,-,-,hrest,hanswered,-,hnodup⟩ :=
    activeToolBatch_ok hactive
  refine ⟨before,first,rest,rfl,?_,hfirst,hrest,hanswered,hnodup⟩
  obtain ⟨m,hm,hmb⟩ := hu.use
  by_contra hlt
  -- otherwise the assistant turn would be one of the result messages
  have hmem : m∈rest := by
    have hidx : T-1=before.length+(T-1-before.length-1+1) := by omega
    rw [hidx,List.getElem?_append_right (Nat.le_add_right _ _),Nat.add_sub_cancel_left,
      List.getElem?_cons_succ] at hm
    exact mem_of_getElem? hm
  have := hrest m hmem
  rw [not_isToolResults_of_isUseOf hmb] at this
  cases this

theorem Boundary.answeredAfter (h : Boundary ms b answered) (hu : UseAt ms T b)
    (hid : id∈answered) : AnsweredAfter ms T id := by
  obtain ⟨before,first,rest,rfl,hT,-,-,rfl,-⟩ := h.split hu
  exact resultIDs_answeredAfter hT (mem_reverse.mp hid)
end
theorem resultIDs_resultBlocks (role : Role) (outcomes : List ToolOutcome) :
    Message.resultIDs ⟨role,resultBlocks outcomes⟩ =
      outcomes.filterMap fun o => o.resultBlock?.map (·.toolUseID) := by
  simp only [Message.resultIDs,Message.toolResults,resultBlocks,filterMap_map]
  induction outcomes with
  | nil => rfl
  | cons o rest ih => cases h : o.resultBlock? <;> simp_all [ContentBlock.toolResult?]

theorem toolUses_resultBlocks (role : Role) (outcomes : List ToolOutcome) :
    toolUses ⟨role,resultBlocks outcomes⟩=[] := by
  simp [toolUses,resultBlocks,ContentBlock.toolUse?]

theorem pendingInterrupt_approval {outcomes outcomes' : List ToolOutcome} {calls : List ToolCall}
    {i : Interrupt} (h : pendingInterrupt outcomes calls=(some i,outcomes'))
    {approval : ApprovalInterrupt} (ha : i.approval=some approval) {c : ApprovalCall}
    (hc : c∈approval.calls) : ∃ call∈calls, c=⟨call.toolUseID,call.name,call.input⟩ := by
  unfold pendingInterrupt at h
  split at h
  · simp only [Prod.mk.injEq,Option.some.injEq] at h
    rw [← h.1] at ha
    cases ha
  · simp only at h
    split at h
    · cases h
    · simp only [Prod.mk.injEq,Option.some.injEq] at h
      rw [← h.1] at ha
      cases ha
      obtain ⟨⟨o,call⟩,hmem,hcall⟩ := mem_filterMap.mp hc
      split at hcall
      · exact ⟨call,(of_mem_zip hmem).2,(Option.some.inj hcall).symm⟩
      · cases hcall
end GudeAgents
