import GudeAgents.Protocol.CrossStore
/-!
# What a worker knows

A worker's memory is a view of its own events.
-/
namespace GudeAgents
open List World Event
/-- What the steps of everybody else do to a world, seen from worker `w`. -/
structure Others (w : Nat) (s s' : World) : Prop where
  seedRevision : s'.seedRevision=s.seedRevision
  seedMessages : s'.seedMessages=s.seedMessages
  log : ∃ l, s'.log=s.log++l ∧ ∀ ev∈l, ev.worker?≠some w

variable {kind : RequestKind}
namespace Others
variable {w : Nat} {s s' s'' : World}
theorem refl (w : Nat) (s : World) : Others w s s := ⟨rfl,rfl,[],by simp,by simp⟩

theorem trans (h : Others w s s') (h' : Others w s' s'') : Others w s s'' := by
  obtain ⟨l,hl,hw⟩ := h.log
  obtain ⟨l',hl',hw'⟩ := h'.log
  refine ⟨h'.seedRevision.trans h.seedRevision,h'.seedMessages.trans h.seedMessages,l++l',
    by rw [hl',hl,append_assoc],?_⟩
  intro ev hev
  rcases mem_append.mp hev with hev | hev
  · exact hw ev hev
  · exact hw' ev hev

theorem record {ev : Event} (h : ev.worker?≠some w) : Others w s (s.record ev) :=
  ⟨rfl,rfl,[ev],rfl,by simpa using h⟩

section
variable (h : Others w s s')
include h
theorem isPrefix : s.log <+: s'.log := by
  obtain ⟨l,hl,-⟩ := h.log
  exact ⟨l,hl.symm⟩
theorem upto : s'.upto s.log=s := by
  cases s
  simp only [upto,mk.injEq]
  exact ⟨h.seedRevision,h.seedMessages,trivial⟩
theorem own : s'.own w=s.own w := by
  obtain ⟨l,hl,hw⟩ := h.log
  have : l.filter (fun ev => ev.worker? == some w)=[] := by simpa using hw
  simp [World.own,hl,this]
theorem mem_iff (ev : Event) (hev : ev.worker?=some w) : ev∈s'.log ↔ ev∈s.log := by
  have := congrArg (ev ∈ ·) h.own
  simpa [hev] using this
theorem hand? : s'.hand? w=s.hand? w := by
  simp only [World.hand?,h.own]
theorem cursorOf : s'.cursorOf w=s.cursorOf w := by
  simp only [World.cursorOf,h.own]
theorem usageOf : s'.usageOf w=s.usageOf w := by
  simp only [World.usageOf,h.own]
theorem responses : s'.responses w=s.responses w := by
  simp only [World.responses,h.own]
theorem addedUsages : s'.addedUsages w=s.addedUsages w := by
  simp only [World.addedUsages,h.own]
theorem begins (id : String) : s'.begins w id=s.begins w id := by
  simp only [World.begins,h.own]
theorem starts (id : String) : s'.starts w id=s.starts w id := by
  simp only [World.starts,h.own]
theorem lastDispatch? : s'.lastDispatch? w=s.lastDispatch? w := by
  simp only [World.lastDispatch?,h.own]
theorem iterationOf : s'.iterationOf w=s.iterationOf w := by
  simp only [World.iterationOf,h.own]
theorem entered {entry : Entry} : s'.Entered w entry ↔ s.Entered w entry :=
  h.mem_iff _ rfl
theorem isKind : s'.IsKind w kind ↔ s.IsKind w kind := by
  simp only [World.IsKind,h.entered]
theorem opened : s'.Open w ↔ s.Open w := by
  simp only [World.Open,h.mem_iff (.save w _ _ _) rfl]
theorem unpaused : s'.Unpaused w ↔ s.Unpaused w := by
  simp only [World.Unpaused,h.mem_iff (.save w _ _ _) rfl]
theorem unplanned : s'.Unplanned w ↔ s.Unplanned w := by
  simp only [World.Unplanned,h.mem_iff (.save w _ _ _) rfl]
theorem synced : s'.Synced w ↔ s.Synced w := by
  simp only [World.Synced,h.mem_iff (.save w _ _ _) rfl,h.mem_iff (.append w _ _ _ _) rfl]
theorem balanced : s'.Balanced w ↔ s.Balanced w := by
  simp only [World.Balanced,h.responses,h.addedUsages]
theorem claimed {i : Interrupt} {resp : ResumeResponse} :
    s'.Claimed w i resp ↔ s.Claimed w i resp := by
  simp only [World.Claimed,h.mem_iff (.save w _ _ _) rfl]
theorem isTurn : s'.IsTurn w ↔ s.IsTurn w := by
  simp only [World.IsTurn,h.isKind]
theorem dispatchable {b : ToolBatchExecution} : s'.Dispatchable w b ↔ s.Dispatchable w b := by
  simp only [World.Dispatchable,h.claimed]
end
end Others
namespace World
variable {w : Nat} {s : World} {ev : Event}
theorem usageOf_record : (s.record ev).usageOf w =
    if ev.worker?=some w then addUsageEvent (s.usageOf w) ev else s.usageOf w := by
  unfold usageOf
  rw [own_record]
  by_cases h : ev.worker?=some w <;> simp [h]

theorem iterationOf_record : (s.record ev).iterationOf w =
    if ev.worker?=some w then addIterationEvent (s.iterationOf w) ev else s.iterationOf w := by
  unfold iterationOf
  rw [own_record]
  by_cases h : ev.worker?=some w <;> simp [h]

theorem Entered.mono {entry : Entry} (h : s.Entered w entry) {s' : World} (hl : s.log <+: s'.log) :
    s'.Entered w entry := hl.subset h
theorem IsKind.mono (h : s.IsKind w kind) {s' : World} (hl : s.log <+: s'.log) :
    s'.IsKind w kind := by
  obtain ⟨entry,he,hk⟩ := h
  exact ⟨entry,he.mono hl,hk⟩
theorem isKind_record (hev : ∀ entry, began w entry≠ev) :
    (s.record ev).IsKind w kind ↔ s.IsKind w kind := by
  simp only [IsKind,Entered,record_log,mem_append,mem_singleton,hev,or_false]
theorem opened_record : (s.record ev).Open w ↔
    s.Open w ∧ ∀ label e v, save w label e v=ev → label.closing=false := by
  simp only [Open,record_log,mem_append,mem_singleton,or_imp,forall_and]
theorem unpaused_record : (s.record ev).Unpaused w ↔
    s.Unpaused w ∧ ∀ e v, save w .pendingPause e v≠ev := by
  simp only [Unpaused,record_log,mem_append,mem_singleton,not_or,forall_and,ne_eq]
theorem unplanned_record : (s.record ev).Unplanned w ↔
    s.Unplanned w ∧ ∀ e v, save w .plan e v≠ev := by
  simp only [Unplanned,record_log,mem_append,mem_singleton,not_or,forall_and,ne_eq]

theorem synced_record : (s.record ev).Synced w ↔ s.Synced w ∧
    (∀ label e, save w label e .lost≠ev) ∧ ∀ label ms c, append w label ms c .lost≠ev := by
  simp only [Synced,record_log,mem_append,mem_singleton,not_or,forall_and,ne_eq]
  tauto

theorem Synced.saved (h : s.Synced w) (label : SaveLabel) (e : Execution) :
    (s.record (.save w label e .acked)).Synced w :=
  synced_record.mpr ⟨h,by simp,by simp⟩
theorem Synced.handled (h : s.Synced w) (start : HandlerStart) (reply : HandlerReply) :
    (s.record (.handler w start reply)).Synced w :=
  synced_record.mpr ⟨h,by simp,by simp⟩
theorem version_saved {label : SaveLabel} {e : Execution} :
    (s.record (.save w label e .acked)).version=s.version+1 := by
  simp [version_record,stored?,Verdict.committed]

theorem responses_record : (s.record ev).responses w =
    s.responses w++if ev.worker?=some w then ev.response?.toList else [] := by
  unfold responses
  rw [own_record]
  by_cases h : ev.worker?=some w
  · cases hr : ev.response? <;> simp [h,hr]
  · simp [h]

theorem addedUsages_record : (s.record ev).addedUsages w =
    s.addedUsages w++if ev.worker?=some w then ev.addedUsage?.toList else [] := by
  unfold addedUsages
  rw [own_record]
  by_cases h : ev.worker?=some w
  · cases hr : ev.addedUsage? <;> simp [h,hr]
  · simp [h]

theorem balanced_record (hr : ev.response?=none) (ha : ev.addedUsage?=none) :
    (s.record ev).Balanced w ↔ s.Balanced w := by
  simp [Balanced,responses_record,addedUsages_record,hr,ha]

theorem lastDispatch?_record : (s.record ev).lastDispatch? w =
    if ev.worker?=some w then ev.dispatched?.or (s.lastDispatch? w) else s.lastDispatch? w := by
  unfold lastDispatch?
  rw [own_record]
  by_cases h : ev.worker?=some w
  · cases hd : ev.dispatched? <;> simp [h,hd,List.getLast?_append]
  · simp [h]

theorem begins_record {id : String} : (s.record ev).begins w id =
    s.begins w id+if ev.worker?=some w ∧ ev.begins id then 1 else 0 := by
  unfold begins
  rw [own_record]
  by_cases h : ev.worker?=some w <;> simp [h,countP_cons]

theorem starts_record {id : String} : (s.record ev).starts w id =
    s.starts w id+if ev.worker?=some w ∧ ev.starts id then 1 else 0 := by
  unfold starts
  rw [own_record]
  by_cases h : ev.worker?=some w <;> simp [h,countP_cons]
end World
section
variable {w : Nat} {s : World} {l : List Event}
theorem World.TextBase.mono {R : Nat} (hl : l <+: s.log) (h : (s.upto l).TextBase w R) :
    s.TextBase w R := by
  obtain ⟨label,e,ρ,hmem,hbase,hseed,hle,hall⟩ := h
  refine ⟨label,e,ρ,hl.subset hmem,hbase,hseed,hle,?_⟩
  intro k hk hkR
  obtain ⟨messages,hget⟩ := hall k hk hkR
  exact ⟨messages, appended_of_prefix hl hget⟩

theorem World.Quiet.mono {R v : Nat} (hl : l <+: s.log) (hv : v≤(s.upto l).version)
    (h : (s.upto l).Quiet w R v) : s.Quiet w R v := by
  obtain ⟨before,event,hpre,hanchor,hall⟩ := h
  refine ⟨before,event,hpre.trans hl,hanchor,?_⟩
  intro k st hk hkv hst
  exact hall k st hk hkv (stored_prefix_of_lt hl hst (by omega))

theorem World.Dispatchable.mono {s s' : World} {b : ToolBatchExecution} (h : s.Dispatchable w b)
    (hl : s.log <+: s'.log) : s'.Dispatchable w b := by
  rcases h with h | ⟨i,resp,approval,⟨e,hc⟩,hrest⟩
  · exact .inl h
  · exact .inr ⟨i,resp,approval,⟨e,hl.subset hc⟩,hrest⟩

theorem World.Unused.mono {e : Execution} {ids : List String} (hl : l <+: s.log)
    (h : (s.upto l).Unused w e ids) : s.Unused w e ids := by
  obtain ⟨before,hpre,hh,hids⟩ := h
  exact ⟨before,hpre.trans hl,hh,hids⟩
end
section
variable [Host] {s : World}
theorem Valid.starts_le_begins (h : Valid s) (w : Nat) (id : String) :
    s.starts w id ≤ s.begins w id := by
  induction h with
  | start empty => simp [World.starts,World.own,empty]
  | @step s ev valid legal ih =>
    rw [starts_record,begins_record]
    by_cases hs : ev.worker?=some w ∧ ev.starts id=true
    · cases ev with
      | handler w' start reply =>
        obtain ⟨hw,hid⟩ := hs
        cases hw
        have hid' : start.call.toolUseID=id := by simpa [Event.starts] using hid
        have hlt := legal.claimed
        rw [hid'] at hlt
        split <;> omega
      | _ => simp [Event.starts] at hs
    · rw [if_neg hs]
      omega
end
end GudeAgents
