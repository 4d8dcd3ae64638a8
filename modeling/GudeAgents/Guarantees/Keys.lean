import Mathlib.Data.Set.Lattice
import GudeAgents.Framework.LengthDelimited
import GudeAgents.Guarantees.Handlers
namespace GudeAgents
open Framework List Scenario Event ToolExecution
def toolExecutionPreimage (executionID callID : String) : String :=
  delimited executionID ++ delimited callID

section
variable [Host]
theorem toolExecutionKey_eq (executionID callID : String) : toolExecutionKey executionID callID =
      "gude/tool/v1/" ++ Host.sha256Hex (toolExecutionPreimage executionID callID) := by
  simp only [toolExecutionKey,toolExecutionPreimage,delimited,String.append_assoc]

theorem planCalls_keys {executionID : String} {prior : List (String × PriorToolUse)}
    {replaySafe : String → Bool} {i : Nat} {seen : List String} {calls : List ToolCall}
    {planned : List ToolExecution}
    (h : planCalls executionID prior replaySafe i seen calls = .ok planned) :
    ∀ call ∈ planned, call.idempotencyKey = toolExecutionKey executionID call.callID := by
  induction calls generalizing i seen planned with
  | nil =>
    cases h
    simp
  | cons c rest ih =>
    simp only [planCalls] at h
    split at h
    · cases h
    · next first hfirst =>
      split at h
      · cases h
      · next others hothers =>
        cases h
        intro call hcall
        rcases mem_cons.mp hcall with rfl | hcall
        · simp only [planCall] at hfirst
          split at hfirst
          · cases hfirst
          · split at hfirst
            · cases hfirst
            · split at hfirst
              · cases hfirst
              · split at hfirst
                · split at hfirst <;> cases hfirst
                · cases hfirst
                  rfl
        · exact ih hothers call hcall

variable {s : World} {w p n k : Nat} {e : Execution} {b : ToolBatchExecution}
  {call : ToolExecution} {start : HandlerStart}
theorem Valid.plan_key (hv : Valid s) (hp : s.Plans p e b) (hc : call ∈ b.calls) :
    call.idempotencyKey = toolExecutionKey e.id call.callID := by
  obtain ⟨w,hst,hb⟩ := hp
  cases p with
  | zero => exact absurd (hv.created hst).1 (by simp)
  | succ p =>
    obtain ⟨l,v,prev,hl,-,-,hprev,hhand,hlegal⟩ := hv.commit hst
    generalize hlabel : SaveLabel.plan = label at hlegal
    cases hlegal with
    | create | resumeClaim | projectPause | retry | resolution => cases hlabel
    | body hand started opened guarded =>
      cases guarded with
      | plan planned =>
        obtain ⟨-,calls,hcalls,rfl⟩ := Execution.plan_ok planned
        cases hb
        exact planCalls_keys hcalls call hc
      | _ => cases hlabel

/-- The handler start of worker `w` belongs to the call at position `n` of the batch that the save
at `p` planned. -/
def World.Serves (s : World) (w : Nat) (start : HandlerStart) (p n : Nat) : Prop :=
  ∃ before reply e ep bp call, before ++ [handler w start reply] <+: s.log ∧
    (s.upto before).hand? w = some e ∧ s.PlannedAt p (e.version - 1) ep bp ∧
    bp.calls[n]? = some call ∧ call.callID = start.call.toolUseID

theorem Valid.handler_record (hv : Valid s) {before : List Event} {reply : HandlerReply}
    (hl : before ++ [handler w start reply] <+: s.log) :
    ∃ e b stored, (s.upto before).hand? w = some e ∧ s.At (e.version - 1) e ∧
      e.toolBatch = some b ∧ b.find? start.call.toolUseID = some stored ∧
      start.idempotencyKey = stored.idempotencyKey := by
  have hlegal : LegalHandler (s.upto before) w start := hv.legal hl
  obtain ⟨e,b,stored,hhand,hb,hfind,-,-,hkey,-⟩ := hlegal.held
  have hat := ((hv.upto (prefix_of_concat hl)).hand_stored hhand).2.2
  exact ⟨e,b,stored,hhand,hat.mono (World.stored_isPrefix (prefix_of_concat hl)),hb,hfind,hkey⟩

theorem Valid.serves (hv : Valid s) {reply : HandlerReply}
    (h : handler w start reply ∈ s.log) : ∃ p n, s.Serves w start p n := by
  obtain ⟨before,hl⟩ := exists_prefix_of_mem h
  obtain ⟨e,b,stored,hhand,hat,hb,hfind,-⟩ := hv.handler_record hl
  obtain ⟨p,ep,bp,hlife,-,hsame⟩ := hv.plannedAt hat hb
  obtain ⟨call,hcall,hcore⟩ := hsame.exists_left (mem_of_find?_eq_some hfind)
  obtain ⟨n,hn⟩ := mem_iff_getElem?.mp hcall
  have hid : stored.callID = start.call.toolUseID := by simpa using List.find?_some hfind
  have hid' : call.callID = stored.callID := callID_of_core hcore
  exact ⟨p,n,before,reply,e,ep,bp,call,hl,hhand,hlife,hn,hid'.trans hid⟩

theorem World.Serves.key (hv : Valid s) (h : s.Serves w start p n) :
    ∃ ep bp call, s.Plans p ep bp ∧ bp.calls[n]? = some call ∧ call.callID = start.call.toolUseID ∧
      start.idempotencyKey = toolExecutionKey ep.id call.callID := by
  obtain ⟨before,reply,e,ep,bp,call,hl,hhand,hlife,hn,hid⟩ := h
  obtain ⟨e',b,stored,hhand',hat,hb,hfind,hkey⟩ := hv.handler_record hl
  cases hhand.symm.trans hhand'
  obtain ⟨p',ep',bp',hlife',-,hsame⟩ := hv.plannedAt hat hb
  obtain ⟨rfl,rfl,rfl⟩ := hlife.unique hlife'
  obtain ⟨call0,hcall0,hcore⟩ := hsame.exists_left (mem_of_find?_eq_some hfind)
  refine ⟨ep,bp,call,hlife.plans,hn,hid,?_⟩
  have hid0 : call0.callID = call.callID := by
    have hstored : stored.callID = start.call.toolUseID := by simpa using List.find?_some hfind
    exact (callID_of_core hcore).trans (hstored.trans hid.symm)
  have hkey0 := congrArg idempotencyKey hcore
  change call0.idempotencyKey = stored.idempotencyKey at hkey0
  rw [hkey,← hkey0,hv.plan_key hlife.plans hcall0,hid0]

def World.keyPreimages (s : World) : Set String :=
  {text | ∃ p e b call, s.Plans p e b ∧ call ∈ b.calls ∧
    text = toolExecutionPreimage e.id call.callID}

theorem Valid.call_unique (hv : Valid s) {q m : Nat} {e' : Execution} {b' : ToolBatchExecution}
    {call' : ToolExecution} (hp : s.Plans p e b) (hq : s.Plans q e' b')
    (hn : b.calls[n]? = some call) (hm : b'.calls[m]? = some call')
    (hid : call.callID = call'.callID) : p = q ∧ n = m := by
  have hmem : call.callID ∈ b.callIDs := mem_map_of_mem (mem_of_getElem? hn)
  have hmem' : call.callID ∈ b'.callIDs := hid ▸ mem_map_of_mem (mem_of_getElem? hm)
  rcases Nat.lt_trichotomy p q with hlt | rfl | hlt
  · exact absurd hmem' (hv.crossStore.disjoint hlt hp hq hmem)
  · cases hp.at.unique hq.at
    cases hp.batch.symm.trans hq.batch
    have hnodup := (hv.sound hp.at hp.batch).nodup
    have hn' : b.callIDs[n]? = some call.callID := by simp [ToolBatchExecution.callIDs,hn]
    have hm' : b.callIDs[m]? = some call.callID := by simp [ToolBatchExecution.callIDs,hm,hid]
    obtain ⟨hlt,-⟩ := List.getElem?_eq_some_iff.mp hn'
    exact ⟨rfl,(List.getElem?_inj hlt hnodup).mp (hn'.trans hm'.symm)⟩
  · exact absurd hmem (hv.crossStore.disjoint hlt hq hp hmem')

/-- Over any family of executions with distinct IDs, every handler start belongs to a planned call,
and two starts get the same key exactly when they belong to the same call of the same execution.
SHA-256 is taken to be injective on the texts that are hashed. -/
theorem idempotencyKey_identifies_call {ι : Type} {seeds worlds : ι → World}
    (hruns : ∀ i, Reaches (seeds i) (worlds i))
    (hdistinct : ∀ i j e e', e ∈ (worlds i).records → e' ∈ (worlds j).records → e.id = e'.id → i = j)
    (hsha : Set.InjOn Host.sha256Hex (⋃ i, (worlds i).keyPreimages)) {i j : ι} {v w : Nat}
    {start start' : HandlerStart} {reply reply' : HandlerReply}
    (h : handler v start reply ∈ (worlds i).log)
    (h' : handler w start' reply' ∈ (worlds j).log) :
    (∃ p n, (worlds i).Serves v start p n) ∧ (∃ q m, (worlds j).Serves w start' q m) ∧
      ∀ p n q m, (worlds i).Serves v start p n → (worlds j).Serves w start' q m →
        (start.idempotencyKey = start'.idempotencyKey ↔ i = j ∧ p = q ∧ n = m) := by
  have hv := fun i => (hruns i).valid
  refine ⟨(hv i).serves h,(hv j).serves h',?_⟩
  intro p n q m hserves hserves'
  obtain ⟨e,b,call,hp,hn,hid,hkey⟩ := hserves.key (hv i)
  obtain ⟨e',b',call',hq,hm,hid',hkey'⟩ := hserves'.key (hv j)
  rw [hkey,hkey']
  constructor
  · intro heq
    rw [toolExecutionKey_eq,toolExecutionKey_eq,String.append_right_inj] at heq
    have hpre : toolExecutionPreimage e.id call.callID ∈ ⋃ i, (worlds i).keyPreimages :=
      Set.mem_iUnion.mpr ⟨i,p,e,b,call,hp,mem_of_getElem? hn,rfl⟩
    have hpre' : toolExecutionPreimage e'.id call'.callID ∈ ⋃ i, (worlds i).keyPreimages :=
      Set.mem_iUnion.mpr ⟨j,q,e',b',call',hq,mem_of_getElem? hm,rfl⟩
    obtain ⟨hexec,hcall⟩ := delimited_pair_inj (hsha hpre hpre' heq)
    have hmem : ∀ {s : World} {k : Nat} {e : Execution}, s.At k e → e ∈ s.records := by
      intro s k e hat
      obtain ⟨w,label,hst⟩ := hat.stored
      exact mem_map.mpr ⟨_,mem_of_getElem? hst,rfl⟩
    cases hdistinct i j e e' (hmem hp.at) (hmem hq.at) hexec
    exact ⟨rfl,(hv i).call_unique hp hq hn hm hcall⟩
  · rintro ⟨rfl,rfl,rfl⟩
    cases hp.at.unique hq.at
    cases hp.batch.symm.trans hq.batch
    cases hn.symm.trans hm
    rfl
end
namespace Scenario
def oneCall (executionID : String) : Script :=
  let a : Agent := { tools := [{ name := "t" }] }
  [.join ⟨a,{ conversationID := "conversation", executionID := executionID },.invoke "hi"⟩,
    .run 0 99,.step 0 (callsTools ["c1"]),.run 0 99,.step 0 (returns "one")]
def executionNamed (second : Bool) : World :=
  (@played plainHost {} (oneCall (if second then "second" else "first"))).getD {}

theorem executionNamed_reaches (second : Bool) : @Reaches plainHost {} (executionNamed second) := by
  have hsome : (@played plainHost {} (oneCall (if second then "second" else "first"))).isSome := by
    cases second <;> decide +kernel
  obtain ⟨s,hs⟩ := Option.isSome_iff_exists.mp hsome
  have hworld : executionNamed second = s := by rw [executionNamed,hs,Option.getD_some]
  rw [hworld]
  exact @reaches_played plainHost {} s _ rfl hs
end Scenario
theorem idempotencyKey_two_executions : (∀ second, @Reaches plainHost {} (executionNamed second)) ∧
      ∃ start start' reply reply', handler 0 start reply ∈ (executionNamed false).log ∧
        handler 0 start' reply' ∈ (executionNamed true).log ∧
        start.call = start'.call ∧ start.idempotencyKey ≠ start'.idempotencyKey := by
  let := plainHost
  let start (executionID : String) : HandlerStart :=
    { call := toolCall "c1"
      idempotencyKey := toolExecutionKey executionID "c1"
      recoveryReplay := false, needsApproval := false }
  have hfirst : handler 0 (start "first") { result := .returned "one" false [] none } ∈
      (executionNamed false).log := by decide +kernel
  have hsecond : handler 0 (start "second") { result := .returned "one" false [] none } ∈
      (executionNamed true).log := by decide +kernel
  have hids : ∀ second, ∀ e ∈ (executionNamed second).records,
      e.id = if second then "second" else "first" := by
    intro second
    cases second <;> decide +kernel
  have hdistinct : ∀ i j e e', e ∈ (executionNamed i).records →
      e' ∈ (executionNamed j).records → e.id = e'.id → i = j := by
    intro i j e e' he he' heq
    rw [hids i e he,hids j e' he'] at heq
    cases i <;> cases j <;> first | rfl | exact absurd heq (by decide)
  obtain ⟨⟨p,n,hserves⟩,⟨q,m,hserves'⟩,hiff⟩ :=
    idempotencyKey_identifies_call executionNamed_reaches hdistinct
      (fun _ _ _ _ h => h) hfirst hsecond
  refine ⟨executionNamed_reaches,_,_,_,_,hfirst,hsecond,rfl,?_⟩
  intro hkey
  exact absurd ((hiff p n q m hserves hserves').mp hkey).1 (by decide)
end GudeAgents
