import GudeAgents.Guarantees.Pairing
import GudeAgents.Guarantees.Transcript
namespace GudeAgents
open List Message
variable {es : List Exchange}
theorem Paired.append {left right : List Message} {es' : List Exchange} (hleft : Paired left es)
    (hright : Paired right es') : Paired (left ++ right) (es ++ es') := by
  induction hleft with
  | nil => exact hright
  | plain hasks hresults _ ih => exact .plain hasks hresults ih
  | batch e hrole huses hresults hrun hperm hanswered _ ih =>
    rw [cons_append,append_assoc]
    exact .batch e hrole huses hresults hrun hperm hanswered ih

variable {messages : List Message}
theorem paired_text (h : ∀ m ∈ messages, m.IsText) : Paired messages [] := by
  induction messages with
  | nil => exact .nil
  | cons m rest ih =>
    obtain ⟨huses,hresults⟩ := h m mem_cons_self
    exact .plain (fun hasks => hasks.2 huses) hresults
      (ih fun m' hm' => h m' (mem_cons_of_mem _ hm'))

theorem resultIDs_eq_map (messages : List Message) :
    resultIDs messages = (messages.flatMap toolResults).map (·.toolUseID) := by
  rw [map_flatMap]
  rfl

theorem Paired.resultIDs_perm (h : Paired messages es) :
    (resultIDs messages).Perm (es.flatMap fun e => e.uses.map (·.toolUseID)) := by
  induction h with
  | nil => exact List.Perm.refl _
  | @plain m rest es hasks hresults _ ih =>
    have hnone : resultIDs (m :: rest) = resultIDs rest := by
      rw [resultIDs,flatMap_cons,Message.resultIDs,hresults]
      rfl
    rwa [hnone]
  | @batch m run rest es e hrole huses hresults hrun hperm hanswered _ ih =>
    have hnone : resultIDs (m :: (run ++ rest)) = resultIDs run ++ resultIDs rest := by
      rw [← resultIDs_append,resultIDs,flatMap_cons,Message.resultIDs,hresults]
      rfl
    rw [hnone,flatMap_cons,resultIDs_eq_map run,← hanswered.1]
    exact (hperm.symm.map _).append ih

variable {m : Message}
theorem Paired.uses_mem (h : Paired messages es) (hm : m ∈ messages) (hasks : m.Asks) :
    ∃ e ∈ es, m.toolUses = e.uses ∧ e.Answered := by
  induction h with
  | nil => cases hm
  | plain hnot _ _ ih =>
    rcases mem_cons.mp hm with rfl | hm
    · exact absurd hasks hnot
    · exact ih hm
  | batch e hrole huses _ hrun _ hanswered _ ih =>
    rcases mem_cons.mp hm with rfl | hm
    · exact ⟨e,mem_cons_self,huses,hanswered⟩
    · rcases mem_append.mp hm with hm | hm
      · have hresults := hrun m hm
        simp only [isToolResults,hasks.1] at hresults
        cases hresults
      · obtain ⟨e',he',huses'⟩ := ih hm
        exact ⟨e',mem_cons_of_mem _ he',huses'⟩

theorem Paired.answered (h : Paired messages es) (hm : m ∈ messages) (hasks : m.Asks)
    {u : ToolUseBlock} (hu : u ∈ m.toolUses) : u.toolUseID ∈ resultIDs messages := by
  obtain ⟨e,he,huses,-⟩ := h.uses_mem hm hasks
  rw [h.resultIDs_perm.mem_iff,mem_flatMap]
  exact ⟨e,he,mem_map_of_mem (huses ▸ hu)⟩

theorem Paired.exchange_mem (h : Paired messages es) {e : Exchange} (he : e ∈ es) :
    ∃ m ∈ messages, m.toolUses = e.uses := by
  induction h with
  | nil => cases he
  | plain _ _ _ ih =>
    obtain ⟨m,hm,huses⟩ := ih he
    exact ⟨m,mem_cons_of_mem _ hm,huses⟩
  | batch _ _ huses _ _ _ _ _ ih =>
    rcases mem_cons.mp he with rfl | he
    · exact ⟨_,mem_cons_self,huses⟩
    · obtain ⟨m,hm,huses⟩ := ih he
      exact ⟨m,mem_cons_of_mem _ (mem_append_right _ hm),huses⟩

theorem StartsFresh.run_nil {run rest : List Message} (h : StartsFresh (run ++ rest))
    (hrun : ∀ m ∈ run, m.isToolResults = true) : run = [] := by
  cases run with
  | nil => rfl
  | cons m run =>
    rw [cons_append,StartsFresh,takeWhile_cons_of_pos (hrun m mem_cons_self)] at h
    cases h

theorem Paired.split (h : Paired messages es) (k : Nat) (hfresh : StartsFresh (messages.drop k)) :
    ∃ es1 es2, es = es1 ++ es2 ∧ Paired (messages.take k) es1 ∧ Paired (messages.drop k) es2 := by
  induction h generalizing k with
  | nil => exact ⟨[],[],rfl,by simpa using .nil,by simpa using .nil⟩
  | @plain m rest es hasks hresults hrest ih =>
    cases k with
    | zero => exact ⟨[],es,rfl,.nil,.plain hasks hresults hrest⟩
    | succ k =>
      obtain ⟨es1,es2,hes,htake,hdrop⟩ := ih k hfresh
      exact ⟨es1,es2,hes,.plain hasks hresults htake,hdrop⟩
  | @batch m run rest es e hrole huses hresults hrun hperm hanswered hrest ih =>
    cases k with
    | zero =>
      exact ⟨[],e :: es,rfl,.nil,.batch e hrole huses hresults hrun hperm hanswered hrest⟩
    | succ k =>
      rw [drop_succ_cons,drop_append] at hfresh ⊢
      rw [take_succ_cons,take_append]
      have hpast := hfresh.run_nil fun x hx => hrun x (mem_of_mem_drop hx)
      rw [hpast,nil_append] at hfresh ⊢
      obtain ⟨es1,es2,hes,htake,hdrop⟩ := ih _ hfresh
      rw [take_of_length_le (drop_eq_nil_iff.mp hpast)]
      exact ⟨e :: es1,es2,by rw [hes]; rfl,.batch e hrole huses hresults hrun hperm hanswered htake,
        hdrop⟩

structure OpenBatch (m : Message) (run : List Message) : Prop where
  role : m.role = .assistant
  uses : m.toolUses ≠ []
  noResults : m.toolResults = []
  nodup : (m.toolUses.map (·.toolUseID)).Nodup
  results : ∀ x ∈ run, x.isToolResults = true
  known : ∀ id ∈ resultIDs run, id ∈ m.toolUses.map (·.toolUseID)

/-- Complete exchanges, and possibly an open batch behind them whose calls are new. -/
def Exchanging (messages : List Message) : Prop :=
  ∃ done es, Paired done es ∧ (messages = done ∨ ∃ m run, messages = done ++ m :: run ∧
    OpenBatch m run ∧ ∀ u ∈ m.toolUses, u.toolUseID ∉ resultIDs done)

theorem map_regrouped {ids : List String} (hids : ids.Nodup) {results : List ToolResultBlock}
    (hperm : (results.map (·.toolUseID)).Perm ids) :
    (regrouped ids results).map (·.toolUseID) = ids := by
  have hsame : ((regrouped ids results).map (·.toolUseID)).Perm ids := by
    rw [regrouped_eq_stableSort hids]
    exact ((Framework.stableSort_perm _ _).map _).trans hperm
  refine hsame.eq_of_pairwise ?_ (pairwise_map.mpr (regrouped_sorted hids results))
    (idxOf_sorted hids)
  intro a b ha _ hle hle'
  exact (idxOf_inj (hsame.mem_iff.mp ha)).mp (Nat.le_antisymm hle hle')

theorem OpenBatch.paired {run : List Message} (h : OpenBatch m run) (hnodup : (resultIDs run).Nodup)
    (hclosed : ∀ u ∈ m.toolUses, u.toolUseID ∈ resultIDs run) : ∃ e, Paired (m :: run) [e] := by
  have hperm : ((run.flatMap toolResults).map (·.toolUseID)).Perm
      (m.toolUses.map (·.toolUseID)) := by
    rw [← resultIDs_eq_map]
    apply (perm_ext_iff_of_nodup hnodup h.nodup).mpr
    intro id
    refine ⟨h.known id,?_⟩
    intro hid
    obtain ⟨u,hu,rfl⟩ := mem_map.mp hid
    exact hclosed u hu
  have hbatch := Paired.batch
    ⟨m.toolUses,regrouped (m.toolUses.map (·.toolUseID)) (run.flatMap toolResults)⟩
    h.role rfl h.noResults h.results ?_ ⟨map_regrouped h.nodup hperm,h.nodup,h.uses⟩ Paired.nil
  · rw [append_nil] at hbatch
    exact ⟨_,hbatch⟩
  · rw [regrouped_eq_stableSort h.nodup]
    exact Framework.stableSort_perm _ _

theorem Exchanging.paired (h : Exchanging messages) (hnodup : (resultIDs messages).Nodup)
    (hclosed : ∀ m ∈ messages, ∀ u ∈ m.toolUses, u.toolUseID ∈ resultIDs messages) :
    ∃ es, Paired messages es := by
  obtain ⟨done,es,hpaired,rfl | ⟨m,run,rfl,hopen,hnew⟩⟩ := h
  · exact ⟨es,hpaired⟩
  · have hids : resultIDs (done ++ m :: run) = resultIDs done ++ resultIDs run := by
      rw [resultIDs_append]
      congr 1
      rw [resultIDs,flatMap_cons,Message.resultIDs,hopen.noResults]
      rfl
    rw [hids] at hnodup hclosed
    have hrun : ∀ u ∈ m.toolUses, u.toolUseID ∈ resultIDs run := by
      intro u hu
      rcases mem_append.mp (hclosed m (by simp) u hu) with hdone | hrun
      · exact absurd hdone (hnew u hu)
      · exact hrun
    obtain ⟨e,hbatch⟩ := hopen.paired (nodup_append.mp hnodup).2.1 hrun
    exact ⟨_,hpaired.append hbatch⟩

section
variable [Host] {s : World} {w : Nat} {e : Execution} {b : ToolBatchExecution}
  {label : AppendLabel} {ms : List Message}
theorem Valid.use_added (hv : Valid s) (hh : s.hand? w = some e) (hb : e.toolBatch = some b)
    (hl : b.Launched) : ∃ m ∈ s.added, m.isUseOf b = true := by
  have hplaced := hv.crossStore.placed (hv.hand_stored hh).2.2 hb
  obtain ⟨hstart,-,huse⟩ := hplaced.launched hl
  obtain ⟨m,hm,hisUse⟩ := huse.use
  have hseed := hplaced.seed
  refine ⟨m,mem_of_getElem? (i := b.toolUseLastSequence - 1 - s.seedMessages.length) ?_,hisUse⟩
  rw [World.added,List.getElem?_drop,show s.seedMessages.length +
    (b.toolUseLastSequence - 1 - s.seedMessages.length) = b.toolUseLastSequence - 1 by omega]
  exact hm

theorem asks_of_isUseOf (h : m.isUseOf b = true) (hne : b.calls ≠ []) : m.Asks := by
  have hids := toolUses_of_isUseOf h
  simp only [isUseOf,Bool.and_eq_true,beq_iff_eq] at h
  refine ⟨h.1,?_⟩
  intro hnil
  rw [hnil] at hids
  exact hne (map_eq_nil_iff.mp hids.symm)

theorem Exchanging.append_results (hv : Valid s) (hh : s.hand? w = some e)
    (hb : e.toolBatch = some b) (hl : b.Launched) {m' : Message} (hm' : m'.isToolResults = true)
    (hnew : ∀ id ∈ m'.resultIDs, id ∈ b.callIDs ∧ id ∉ resultIDs s.added) (h : Exchanging s.added) :
    Exchanging (s.added ++ [m']) := by
  obtain ⟨use,huse,hisUse⟩ := hv.use_added hh hb hl
  have hasks := asks_of_isUseOf hisUse (hv.sound (hv.hand_stored hh).2.2 hb).nonempty
  have hids := toolUses_of_isUseOf hisUse
  obtain ⟨id,hid⟩ := exists_mem_of_ne_nil _ (resultIDs_ne_nil hm')
  -- the calls of the new results are not answered yet, so their assistant turn is the open one
  have hunanswered : ∀ done es, Paired done es → (∀ x ∈ resultIDs done, x ∈ resultIDs s.added) →
      use ∉ done := by
    intro done es hpaired hsub hmem
    obtain ⟨hknown,hopen⟩ := hnew id hid
    rw [← hids] at hknown
    obtain ⟨u,hu,rfl⟩ := mem_map.mp hknown
    exact hopen (hsub _ (hpaired.answered hmem hasks hu))
  obtain ⟨done,es,hpaired,hdone | ⟨m,run,hadded,hopen,hfresh⟩⟩ := h
  · exact absurd (hdone ▸ huse) (hunanswered done es hpaired fun x hx => hdone ▸ hx)
  · have hnot := hunanswered done es hpaired fun x hx => by
      rw [hadded,resultIDs_append]
      exact mem_append_left _ hx
    have heq : use = m := by
      rw [hadded] at huse
      rcases mem_append.mp huse with hmem | hmem
      · exact absurd hmem hnot
      · rcases mem_cons.mp hmem with heq | hmem
        · exact heq
        · have hresults := hopen.results use hmem
          rw [not_isToolResults_of_isUseOf hisUse] at hresults
          cases hresults
    refine ⟨done,es,hpaired,Or.inr ⟨m,run ++ [m'],by rw [hadded]; simp,?_,hfresh⟩⟩
    refine ⟨hopen.role,hopen.uses,hopen.noResults,hopen.nodup,?_,?_⟩
    · intro x hx
      rcases mem_append.mp hx with hx | hx
      · exact hopen.results x hx
      · rw [mem_singleton.mp hx]
        exact hm'
    · intro x hx
      rw [resultIDs_append] at hx
      rcases mem_append.mp hx with hx | hx
      · exact hopen.known x hx
      · rw [← heq,hids]
        exact (hnew x (by simpa [resultIDs] using hx)).1

theorem LegalAppend.exchanging (hv : Valid s) (hidle : s.AnswersIdle) (hh : s.hand? w = some e)
    (hl : LegalAppend s w e label ms) (h : Exchanging s.added) : Exchanging (s.added ++ ms) := by
  have hnodup := hv.resultIDs_nodup
  cases hl with
  | turn nonempty text base =>
    obtain ⟨l,ρ,hbase⟩ := base.idle hv hidle
    obtain ⟨es,hpaired⟩ := h.paired hnodup (hbase.closed hv)
    exact ⟨_,_,hpaired.append (paired_text text),Or.inl rfl⟩
  | @toolUse b m batch planned uses nodup behind =>
    have hclosed := LegalAppend.closed_of_use hv hh (.toolUse batch planned uses nodup behind)
    obtain ⟨es,hpaired⟩ := h.paired hnodup hclosed
    have hasks := asks_of_isUseOf uses (hv.sound (hv.hand_stored hh).2.2 batch).nonempty
    have hids := toolUses_of_isUseOf uses
    refine ⟨_,_,hpaired,Or.inr ⟨m,[],rfl,?_,?_⟩⟩
    · exact ⟨hasks.1,hasks.2,toolResults_of_isUseOf uses,hids ▸ nodup,by simp, by simp [resultIDs]⟩
    · intro u hu
      apply hv.unanswered_of_planned hh batch planned behind
      rw [← hids]
      exact mem_map_of_mem hu
  | @results b calls outcomes answered batch dispatchable dispatched nonempty pending boundary nodup
      unanswered =>
      have hlaunched := hv.crossStore.launched_of_dispatchable hv hh batch dispatchable
      refine Exchanging.append_results hv hh batch hlaunched ?_ ?_ h
      · exact isToolResults_resultBlocks nonempty
      · intro id hid
        rw [resultIDs_resultBlocks] at hid
        obtain ⟨hknown,hopen⟩ := unanswered id hid
        exact ⟨hknown,hv.unanswered hh batch hlaunched boundary hknown hopen⟩
  | @resolution b claim answered batch launched resolution boundary known unanswered =>
    refine Exchanging.append_results hv hh batch launched rfl ?_ h
    intro id hid
    rw [show id = claim.callID from mem_singleton.mp hid]
    exact ⟨known,hv.unanswered hh batch launched boundary known unanswered⟩

theorem Valid.exchanging (hv : Valid s) (hidle : s.AnswersIdle) : Exchanging s.added := by
  apply hv.added_induction
  · exact ⟨[],[],.nil,Or.inl rfl⟩
  · intro l w e label ms hlog hv hh hl
    exact hl.exchanging hv (hidle.upto hlog) hh
end
end GudeAgents
