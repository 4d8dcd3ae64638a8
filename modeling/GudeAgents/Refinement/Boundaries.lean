import GudeAgents.Protocol.CrossStore
/-!
# The boundary of a dispatched batch
-/
namespace GudeAgents
open List ToolBatchExecution ToolExecution
section
variable [Host] {ms ms' : List Message} {b b' : ToolBatchExecution} {answered : List String}
def ToolExecution.Describes (stored : ToolExecution) (call : ToolCall) : Prop :=
  stored.callID=call.toolUseID ∧ stored.name=call.name ∧
    toolInputHash call.input=.ok stored.inputHash

theorem useMatches_eq_true {block : ContentBlock} {stored : ToolExecution}
    (h : useMatches block stored=true) :
    ∃ use, block=.toolUse use ∧ stored.Describes use.call := by
  cases block with
  | toolUse use =>
    simp only [useMatches] at h
    split at h
    · next hash hhash =>
      simp only [Bool.and_eq_true,beq_iff_eq] at h
      exact ⟨use,rfl,h.1.1.symm,h.1.2.symm,by rw [← h.2]; exact hhash⟩
    · cases h
  | _ => simp [useMatches] at h

theorem usesMatch_describes {blocks : List ContentBlock} {calls : List ToolExecution}
    (h : usesMatch blocks calls=true) :
    List.Forall₂ (fun call stored => ToolExecution.Describes stored call)
      ((blocks.filterMap ContentBlock.toolUse?).map ToolUseBlock.call) calls := by
  induction blocks generalizing calls with
  | nil =>
    cases calls with
    | nil => exact .nil
    | cons _ _ => simp [usesMatch] at h
  | cons block blocks ih =>
    cases calls with
    | nil => simp [usesMatch] at h
    | cons stored calls =>
      simp only [usesMatch,Bool.and_eq_true] at h
      obtain ⟨use,rfl,hdesc⟩ := useMatches_eq_true h.1
      exact .cons hdesc (ih h.2)

theorem Message.describes_of_isUseOf {m : Message} (h : m.isUseOf b=true) :
    List.Forall₂ (fun call stored => ToolExecution.Describes stored call)
      (m.toolUses.map ToolUseBlock.call) b.calls := by
  simp only [Message.isUseOf,Bool.and_eq_true] at h
  exact usesMatch_describes h.2

theorem ToolExecution.Describes.of_core {stored stored' : ToolExecution} {call : ToolCall}
    (h : stored.Describes call) (hcore : stored'.core=stored.core) : stored'.Describes call := by
  have hname : stored'.name=stored.name := by
    have := congrArg name hcore
    exact this
  exact ⟨(callID_of_core hcore).trans h.1,hname.trans h.2.1,
    by rw [inputHash_of_core hcore]; exact h.2.2⟩

theorem ToolBatchExecution.Holds.same {call : ToolCall} (h : b.Holds call) (hs : b.Same b') :
    b'.Holds call := by
  obtain ⟨stored,hmem,hdesc⟩ := h
  obtain ⟨stored',hmem',hcore⟩ := hs.symm.exists_left hmem
  exact ⟨stored',hmem',ToolExecution.Describes.of_core hdesc hcore⟩

omit [Host] in
theorem ToolBatchExecution.approvalFor_eq_some {id : String} {d : Decision}
    (hnodup : b.callIDs.Nodup) (h : b.approvalFor id=some d) :
    ∃ stored a, b.find? id=some stored ∧ stored.approval=some a ∧ a.decision=d := by
  unfold approvalFor at h
  unfold find? callIDs at *
  generalize b.calls=calls at *
  induction calls with
  | nil => cases h
  | cons call rest ih =>
    simp only [map_cons,nodup_cons] at hnodup
    by_cases hid : call.callID=id
    · rw [List.findSome?_cons,if_pos hid] at h
      cases ha : call.approval with
      | some a =>
        simp only [ha,Option.map_some] at h
        exact ⟨call,a,by simp [hid],ha,Option.some.inj h⟩
      | none =>
        simp only [ha,Option.map_none] at h
        obtain ⟨stored,a,hfind,-⟩ := ih hnodup.2 h
        have hsid : stored.callID=id := by simpa using List.find?_some hfind
        refine absurd ?_ hnodup.1
        rw [hid,← hsid]
        exact mem_map_of_mem (mem_of_find?_eq_some hfind)
    · rw [List.findSome?_cons,if_neg hid] at h
      obtain ⟨stored,a,hfind,hrest⟩ := ih hnodup.2 h
      exact ⟨stored,a,by rw [List.find?_cons_of_neg (by simpa using hid)]; exact hfind,hrest⟩

theorem activeToolBatch_same (hs : b.Same b') : activeToolBatch ms b'=activeToolBatch ms b := by
  unfold activeToolBatch
  cases ms with
  | nil => rfl
  | cons first rest => simp only [hs.isUseOf,hs.callIDs]

theorem Boundary.same (h : Boundary ms b answered) (hs : b.Same b') : Boundary ms b' answered := by
  obtain ⟨before,suffix,calls,hms,hactive⟩ := h
  exact ⟨before,suffix,calls,hms,by rw [activeToolBatch_same hs]; exact hactive⟩

variable {calls : List ToolCall}
theorem Boundary.of_active (h : activeToolBatch ms b=.ok (calls,answered)) (hs : ms <:+ ms') :
    Boundary ms' b answered := by
  obtain ⟨before,rfl⟩ := hs
  exact ⟨before,ms,calls,rfl,h⟩

theorem fromLastUse_suffix {suffix : List Message} (h : fromLastUse b ms=some suffix) :
    suffix <:+ ms := by
  induction ms with
  | nil => cases h
  | cons m rest ih =>
    unfold fromLastUse at h
    split at h
    · next suffix' hs =>
      cases h
      exact (ih hs).trans (suffix_cons m rest)
    · split at h
      · cases h
        exact suffix_rfl
      · cases h

theorem activeToolBatchFromMessages_ok
    (h : activeToolBatchFromMessages ms b=.ok (calls,answered)) :
    ∃ suffix, suffix <:+ ms ∧ activeToolBatch suffix b=.ok (calls,answered) := by
  unfold activeToolBatchFromMessages at h
  split at h
  · next suffix hs => exact ⟨suffix,fromLastUse_suffix hs,h⟩
  · cases h

theorem activeToolBatch_calls (h : activeToolBatch ms b=.ok (calls,answered)) :
    List.Forall₂ (fun call stored => ToolExecution.Describes stored call) calls b.calls := by
  obtain ⟨first,rest,-,huse,-,rfl,-⟩ := activeToolBatch_ok h
  exact Message.describes_of_isUseOf huse

omit [Host] in
theorem collectResults_append {known seen : List String} {results : List ToolResultBlock}
    (hknown : ∀ id∈results.map (·.toolUseID), id∈known ∧ id∉seen)
    (hnodup : (results.map (·.toolUseID)).Nodup) :
    ∃ out, collectResults known seen results=.ok out ∧
      ∀ id, id∈out ↔ id∈seen ∨ id∈results.map (·.toolUseID) := by
  induction results generalizing seen with
  | nil => exact ⟨seen,rfl,by simp⟩
  | cons result rest ih =>
    simp only [map_cons,nodup_cons] at hnodup
    obtain ⟨hk,hs⟩ := hknown result.toolUseID (by simp)
    have hrest : ∀ id∈rest.map (·.toolUseID), id∈known ∧ id∉result.toolUseID::seen := by
      intro id hid
      obtain ⟨hk',hs'⟩ := hknown id (by simp only [map_cons,mem_cons]; exact .inr hid)
      refine ⟨hk',fun hin => ?_⟩
      rcases mem_cons.mp hin with rfl | hin
      · exact hnodup.1 hid
      · exact hs' hin
    obtain ⟨out,hout,hmem⟩ := ih hrest hnodup.2
    refine ⟨out,?_,?_⟩
    · rw [collectResults,if_neg (not_not.mpr hk),if_neg hs]
      exact hout
    · intro id
      rw [hmem]
      simp only [mem_cons,map_cons]
      tauto

omit [Host] in
theorem collectMessages_append {known seen answered : List String} {rest : List Message}
    {m : Message} (h : collectMessages known seen rest=.ok answered) (hm : m.isToolResults=true)
    (hknown : ∀ id∈m.resultIDs, id∈known ∧ id∉answered) (hnodup : m.resultIDs.Nodup) :
    ∃ out, collectMessages known seen (rest++[m])=.ok out ∧
      ∀ id, id∈out ↔ id∈answered ∨ id∈m.resultIDs := by
  induction rest generalizing seen with
  | nil =>
    simp only [collectMessages,Except.ok.injEq] at h
    subst h
    obtain ⟨out,hout,hmem⟩ := collectResults_append hknown hnodup
    exact ⟨out,by simp [collectMessages,hm,hout],hmem⟩
  | cons first rest ih =>
    simp only [collectMessages] at h
    split at h
    · next hfirst =>
      split at h
      · next seen' hseen' =>
        obtain ⟨out,hout,hmem⟩ := ih h
        exact ⟨out,by simp [collectMessages,hfirst,hseen',hout],hmem⟩
      · cases h
    · cases h

theorem Boundary.append (h : Boundary ms b answered) {m : Message} (hm : m.isToolResults=true)
    (hknown : ∀ id∈m.resultIDs, id∈b.callIDs ∧ id∉answered) (hnodup : m.resultIDs.Nodup) :
    ∃ answered', Boundary (ms++[m]) b answered' ∧
      ∀ id, id∈answered' ↔ id∈answered ∨ id∈m.resultIDs := by
  obtain ⟨before,suffix,calls,rfl,hactive⟩ := h
  unfold activeToolBatch at hactive
  split at hactive
  · cases hactive
  · next first rest =>
    split at hactive
    · next huse =>
      split at hactive
      · next results hresults =>
        obtain ⟨rfl,rfl⟩ := hactive
        obtain ⟨out,hout,hmem⟩ := collectMessages_append hresults hm hknown hnodup
        refine ⟨out,⟨before,first::(rest++[m]),first.toolUses.map ToolUseBlock.call,by simp,
          ?_⟩,hmem⟩
        simp only [activeToolBatch,if_pos huse,hout]
      · cases hactive
    · cases hactive
end
end GudeAgents
