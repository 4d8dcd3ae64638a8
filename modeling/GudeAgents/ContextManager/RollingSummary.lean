import Mathlib.Data.Nat.Find
import GudeAgents.ContextManager.Batches
import GudeAgents.Framework.FiniteMap
/-!
# The rolling summary

Model of `RollingSummary` in `contextmanager/contextmanager.go`.
-/
namespace GudeAgents.ContextManager
open Framework List AList Scenario
/-- The map of `hasUnresolved` after some more blocks. A missing key counts 0. -/
def pendingFrom (pending : FiniteMap String Nat) : List ContentBlock → FiniteMap String Nat
  | [] => pending
  | .toolUse x::rest =>
    pendingFrom (pending.insert x.toolUseID ((pending.lookup x.toolUseID).getD 0+1)) rest
  | .toolResult x::rest =>
    let count := (pending.lookup x.toolUseID).getD 0
    if 0<count then
      if count-1=0 then pendingFrom (pending.erase x.toolUseID) rest
      else pendingFrom (pending.insert x.toolUseID (count-1)) rest
    else pendingFrom pending rest
  | _ :: rest => pendingFrom pending rest

def hasUnresolved (messages : List Message) : Bool :=
  0<(pendingFrom ∅ (blocks messages)).entries.length

structure RollingState where
  version : Int := 0
  summary : String := ""
  coveredThrough : UInt64 := 0
  sourceRevision : UInt64 := 0
deriving DecidableEq

/-- The context state under the manager's key. Stored text stands for what it decodes to; `none` is
the empty text. -/
structure SavedState where
  data : Option (Except String RollingState) := none
  revision : UInt64 := 0

structure Summarized where
  existing : String
  messages : List Message
  result : Except String String

structure Stores where
  saved : SavedState := {}
  summarized : List Summarized := []

/-- What answers a call of `Prepare`: estimator, summarizer and the outcome of the store's calls. -/
structure Services where
  estimateTokens : List Message → Except String Int
  summarizer : String → List Message → Except String String
  loadError : Option String := none
  saveError : Option String := none

structure RollingSummary where
  maxInput : Int := 100000
  preserve : UInt64 := 20

structure Input where
  boundary : UInt64
  revision : UInt64
  recent : List Message
  current : List Message
  transient : List Message

def summaryMessage (text : String) : Message :=
  ⟨.user,[.text ("[Automated summary of earlier messages in this conversation — not a new user" ++
    " message]\n\n"++text)]⟩
def Input.build (input : Input) (s : RollingState) : List Message :=
  (if s.summary≠"" then [summaryMessage s.summary] else [])++input.recent ++
    input.transient++input.current

def Input.uncovered (input : Input) (state : RollingState) : Except String Input :=
  if input.boundary<state.coveredThrough then
    let skip := (state.coveredThrough-input.boundary).toNat
    if input.recent.length<skip then
      .error ("contextmanager: state covers sequence "++toString state.coveredThrough ++
        " beyond loaded recent history")
    else .ok { input with recent := input.recent.drop skip, boundary := state.coveredThrough }
  else .ok input

def Stores.load (stores : Stores) (services : Services) :
    Except String (RollingState×UInt64) :=
  match services.loadError, stores.saved.data with
  | some err, _ => .error err
  | none, none => .ok ({ version := 1 },stores.saved.revision)
  | none, some (.error err) => .error ("contextmanager: decode rolling state: "++err)
  | none, some (.ok state) => .ok (state,stores.saved.revision)

def Stores.save (stores : Stores) (services : Services) (state : RollingState)
    (expectedRevision : UInt64) : Except String Stores :=
  match services.saveError with
  | some err => .error err
  | none =>
    if stores.saved.revision≠expectedRevision then .error "context state revision conflict"
    else .ok { stores with saved := ⟨some (.ok state),expectedRevision + 1⟩ }

def cutFrom (recent : List Message) : Nat → Nat
  | 0 => 0
  | cut+1 => if hasUnresolved (recent.take (cut+1)) then cutFrom recent cut else cut+1

def summarize (services : Services) (stores : Stores) (input : Input) (state : RollingState)
    (stateRev : UInt64) (cut : Nat) : Except String (List Message)×Stores :=
  let covered := input.recent.take cut
  let result := services.summarizer state.summary covered
  let stores :=
    { stores with summarized := stores.summarized++[⟨state.summary,covered,result⟩] }
  match result with
  | .error err => (.error ("contextmanager: summarize: "++err),stores)
  | .ok newSummary =>
    let state : RollingState :=
      { version := 1
        summary := newSummary
        coveredThrough := input.boundary+UInt64.ofNat cut
        sourceRevision := input.revision }
    match stores.save services state stateRev with
    | .error err => (.error ("contextmanager: save summary state: "++err),stores)
    | .ok stores =>
      (.ok ({ input with
        recent := input.recent.drop cut
        boundary := state.coveredThrough }.build state),stores)

def RollingSummary.prepare (r : RollingSummary) (services : Services) (stores : Stores)
    (input : Input) : Except String (List Message)×Stores :=
  match stores.load services with
  | .error err => (.error err,stores)
  | .ok (state,stateRev) =>
    match input.uncovered state with
    | .error err => (.error err,stores)
    | .ok input =>
      let messages := input.build state
      match services.estimateTokens messages with
      | .error err => (.error ("contextmanager: estimate tokens: "++err),stores)
      | .ok estimate =>
        if estimate≤r.maxInput then (.ok messages,stores)
        else if input.recent.length≤r.preserve.toNat then (.ok messages,stores)
        else
          let cut := cutFrom input.recent (input.recent.length-r.preserve.toNat)
          if cut=0 then (.ok messages,stores)
          else summarize services stores input state stateRev cut

/-- From some block on there are more calls with an ID than results: one of them has no result of its
own behind it. -/
def Unanswered (bs : List ContentBlock) : Prop :=
  ∃ id tail, tail <:+ bs ∧ (answerIDs tail).count id<(callIDs tail).count id

def openCalls (id : String) (n : Nat) : List ContentBlock → Nat
  | [] => n
  | .toolUse x::rest => openCalls id (if x.toolUseID=id then n+1 else n) rest
  | .toolResult x::rest => openCalls id (if x.toolUseID=id then n-1 else n) rest
  | _ :: rest => openCalls id n rest

private theorem openCalls_eq_zero_iff (id : String) (n : Nat) (bs : List ContentBlock) :
    openCalls id n bs=0 ↔ n+(callIDs bs).count id≤(answerIDs bs).count id ∧
      ∀ tail, tail <:+ bs → (callIDs tail).count id≤(answerIDs tail).count id := by
  induction bs generalizing n with
  | nil =>
    simp only [openCalls,suffix_nil,forall_eq]
    simp [callIDs,answerIDs]
  | cons block rest ih =>
    have hsuffix : ∀ P : List ContentBlock → Prop, (∀ tail, tail <:+ block::rest → P tail) ↔
          P (block::rest) ∧ ∀ tail, tail <:+ rest → P tail := by
      intro P
      simp only [suffix_cons_iff]
      exact ⟨fun h => ⟨h _ (Or.inl rfl),fun tail ht => h tail (Or.inr ht)⟩,
        fun h tail ht => ht.elim (fun heq => heq ▸ h.1) (h.2 tail)⟩
    rw [hsuffix]
    cases block with
    | toolUse x =>
      have hcalls : (callIDs (.toolUse x::rest)).count id =
          (callIDs rest).count id+if x.toolUseID=id then 1 else 0 := by
        simp [callIDs,ContentBlock.toolUse?,count_cons]
      have hanswers : answerIDs (.toolUse x::rest)=answerIDs rest := rfl
      rw [openCalls,ih,hcalls,hanswers]
      by_cases hid : x.toolUseID=id
      · rw [if_pos hid,if_pos hid]
        exact ⟨fun h => ⟨by omega,by omega,h.2⟩,fun h => ⟨by omega,h.2.2⟩⟩
      · rw [if_neg hid,if_neg hid]
        exact ⟨fun h => ⟨by omega,by omega,h.2⟩,fun h => ⟨by omega,h.2.2⟩⟩
    | toolResult x =>
      have hcalls : callIDs (.toolResult x::rest)=callIDs rest := rfl
      have hanswers : (answerIDs (.toolResult x::rest)).count id =
          (answerIDs rest).count id+if x.toolUseID=id then 1 else 0 := by
        simp [answerIDs,ContentBlock.toolResult?,count_cons]
      rw [openCalls,ih,hcalls,hanswers]
      by_cases hid : x.toolUseID=id
      · rw [if_pos hid,if_pos hid]
        refine ⟨fun h => ⟨by omega,by omega,h.2⟩,fun h => ⟨?_,h.2.2⟩⟩
        have hrest := h.2.2 rest (suffix_refl _)
        omega
      · rw [if_neg hid,if_neg hid]
        exact ⟨fun h => ⟨by omega,by omega,h.2⟩,fun h => ⟨by omega,h.2.2⟩⟩
    | _ =>
      refine (ih n).trans ⟨fun h => ⟨h.1,?_,h.2⟩,fun h => ⟨h.1,h.2.2⟩⟩
      exact h.2 rest (suffix_refl _)

def Positive (pending : FiniteMap String Nat) : Prop := ∀ id, pending.lookup id≠some 0
def countOf (pending : FiniteMap String Nat) (id : String) : Nat := (pending.lookup id).getD 0

private theorem countOf_insert (pending : FiniteMap String Nat) (key id : String) (n : Nat) :
    countOf (pending.insert key n) id=if key=id then n else countOf pending id := by
  unfold countOf
  by_cases h : key=id
  · rw [if_pos h,← h,lookup_insert]
    rfl
  · rw [if_neg h,lookup_insert_ne (Ne.symm h)]

private theorem countOf_erase (pending : FiniteMap String Nat) (key id : String) :
    countOf (pending.erase key) id=if key=id then 0 else countOf pending id := by
  unfold countOf
  by_cases h : key=id
  · rw [if_pos h,← h,lookup_erase]
    rfl
  · rw [if_neg h,lookup_erase_ne (Ne.symm h)]

variable {pending : FiniteMap String Nat}
section
variable (h : Positive pending)
include h
theorem Positive.insert (key : String) {n : Nat} (hn : 0<n) :
    Positive (pending.insert key n) := by
  intro id hid
  rcases FiniteMap.of_lookup_insert hid with ⟨-,heq⟩ | ⟨-,hold⟩
  · omega
  · exact h id hold

theorem Positive.erase (key : String) : Positive (pending.erase key) :=
  fun id hid => h id (FiniteMap.of_lookup_erase hid).2

private theorem pendingFrom_toolResult (x : ToolResultBlock) (rest : List ContentBlock) :
    ∃ pending', pendingFrom pending (.toolResult x::rest)=pendingFrom pending' rest ∧
      Positive pending' ∧ ∀ id, countOf pending' id =
        if x.toolUseID=id then countOf pending id-1 else countOf pending id := by
  have hstep : pendingFrom pending (.toolResult x::rest) =
      if 0<countOf pending x.toolUseID then
        if countOf pending x.toolUseID-1=0 then pendingFrom (pending.erase x.toolUseID) rest
        else pendingFrom (pending.insert x.toolUseID (countOf pending x.toolUseID-1)) rest
      else pendingFrom pending rest := rfl
  rw [hstep]
  by_cases hopen : 0<countOf pending x.toolUseID
  · rw [if_pos hopen]
    by_cases hlast : countOf pending x.toolUseID-1=0
    · rw [if_pos hlast]
      refine ⟨_,rfl,h.erase _,?_⟩
      intro id
      rw [countOf_erase]
      split
      · rename_i hid
        rw [← hid,hlast]
      · rfl
    · rw [if_neg hlast]
      refine ⟨_,rfl,h.insert _ (Nat.pos_of_ne_zero hlast),?_⟩
      intro id
      rw [countOf_insert]
      split
      · rename_i hid
        rw [← hid]
      · rfl
  · rw [if_neg hopen]
    refine ⟨_,rfl,h,?_⟩
    intro id
    split
    · rename_i hid
      rw [← hid]
      omega
    · rfl

private theorem pendingFrom_counts (bs : List ContentBlock) : Positive (pendingFrom pending bs) ∧
      ∀ id, countOf (pendingFrom pending bs) id=openCalls id (countOf pending id) bs := by
  induction bs generalizing pending with
  | nil => exact ⟨h,fun id => rfl⟩
  | cons block rest ih =>
    cases block with
    | toolUse x =>
      obtain ⟨hpositive,hcounts⟩ := ih (h.insert x.toolUseID (Nat.succ_pos _))
      refine ⟨hpositive,?_⟩
      intro id
      rw [pendingFrom,openCalls,hcounts,countOf_insert]
      congr 1
      split
      · rename_i hid
        rw [← hid]
        rfl
      · rfl
    | toolResult x =>
      obtain ⟨pending',hstep,hpositive,hcounts⟩ := pendingFrom_toolResult h x rest
      rw [hstep]
      refine ⟨(ih hpositive).1,?_⟩
      intro id
      rw [(ih hpositive).2,hcounts,openCalls]
    | _ => exact ih h

theorem Positive.eq_empty_iff : pending.entries.length=0 ↔ ∀ id, countOf pending id=0 := by
  constructor
  · intro hlength id
    have hempty : pending=∅ := AList.ext (length_eq_zero_iff.mp hlength)
    rw [hempty]
    rfl
  · intro hzero
    rw [FiniteMap.eq_empty_of_lookup (m := pending)]
    · rfl
    · intro id
      cases hlookup : pending.lookup id with
      | none => rfl
      | some n =>
        have hn := hzero id
        rw [countOf,hlookup,Option.getD_some] at hn
        exact absurd (hn ▸ hlookup) (h id)
end
private theorem hasUnresolved_iff (messages : List Message) :
    hasUnresolved messages=true ↔ Unanswered (blocks messages) := by
  have hempty : Positive ∅ := by
    intro id
    simp
  obtain ⟨hpositive,hcounts⟩ := pendingFrom_counts hempty (blocks messages)
  have hnone := hpositive.eq_empty_iff
  simp only [hcounts,openCalls_eq_zero_iff] at hnone
  rw [hasUnresolved,decide_eq_true_eq,Nat.pos_iff_ne_zero,Ne,hnone]
  constructor
  · intro hopen
    by_contra hall
    apply hopen
    intro id
    have hsuffixes : ∀ tail, tail <:+ blocks messages →
        (callIDs tail).count id≤(answerIDs tail).count id := by
      intro tail htail
      by_contra hlt
      exact hall ⟨id,tail,htail,Nat.lt_of_not_le hlt⟩
    refine ⟨?_,hsuffixes⟩
    rw [countOf,lookup_empty,Option.getD_none,Nat.zero_add]
    exact hsuffixes _ (suffix_refl _)
  · rintro ⟨id,tail,htail,hlt⟩ hclosed
    exact absurd ((hclosed id).2 tail htail) (Nat.not_le.mpr hlt)

/-- No call before the cut is unanswered. -/
def Resolved (recent : List Message) (cut : Nat) : Prop := ¬ Unanswered (blocks (recent.take cut))

instance (recent : List Message) : DecidablePred (Resolved recent) := fun cut =>
  decidable_of_iff (hasUnresolved (recent.take cut)=false) (by
    rw [Resolved,← hasUnresolved_iff,Bool.not_eq_true])

private theorem cutFrom_eq (recent : List Message) (cut : Nat) :
    cutFrom recent cut=Nat.findGreatest (Resolved recent) cut := by
  induction cut with
  | zero => rfl
  | succ cut ih =>
    rw [cutFrom]
    by_cases h : hasUnresolved (recent.take (cut+1))=true
    · rw [if_pos h,ih,Nat.findGreatest_of_not]
      rw [Resolved,← hasUnresolved_iff]
      exact not_not.mpr h
    · rw [if_neg h,Nat.findGreatest_eq]
      rwa [Resolved,← hasUnresolved_iff]

def Batch.AnsweredOnce (x : Batch) : Prop :=
  callIDs x.head.content≠[] → (answerIDs (blocks x.messages)).Subperm (callIDs x.head.content)

theorem Resolved.not_split {batches before after : List Batch} {x : Batch} {cut : Nat}
    (h : Resolved (conversation batches) cut) (hat : batches=before++x::after)
    (honce : x.AnsweredOnce) :
    ¬ ((conversation before).length<cut ∧ cut<(conversation before).length+x.length) := by
  rintro ⟨hlt,hlt'⟩
  obtain ⟨j,hj⟩ : ∃ j, cut=(conversation before).length + (j + 1) :=
    ⟨cut-(conversation before).length-1,by omega⟩
  have hindex : j<x.answers.length := by
    unfold Batch.length Batch.messages at hlt'
    rw [length_cons] at hlt'
    omega
  have htake : (conversation batches).take cut =
      conversation before++(x.head::x.answers.take j) := by
    rw [hat,conversation_append,conversation_cons,Batch.messages,hj,take_length_add_append,
      cons_append,take_succ_cons,take_append_of_le_length (Nat.le_of_lt hindex)]
  -- the calls that the cut leaves behind have as many results as there are calls
  have hcalls : callIDs (blocks (x.head::x.answers.take j))=callIDs x.head.content := by
    rw [blocks_cons,callIDs_append,callIDs_eq_nil fun m hm => x.noUses m (mem_of_mem_take hm),
      append_nil]
  have hanswered : (callIDs x.head.content).Subperm
      (answerIDs (blocks (x.head::x.answers.take j))) := by
    rw [subperm_ext_iff]
    intro id _
    by_contra hfew
    apply h
    refine ⟨id,blocks (x.head::x.answers.take j),?_,?_⟩
    · rw [htake,blocks_append]
      exact suffix_append _ _
    · rw [hcalls]
      exact Nat.lt_of_not_le hfew
  -- but at least one more result follows
  have hmem := getElem_mem hindex
  have hnext := length_pos_of_ne_nil (x.answering _ hmem)
  have hall : answerIDs (blocks x.messages)=answerIDs (blocks (x.head::x.answers.take j)) ++
        (answerIDs x.answers[j].content++answerIDs (blocks (x.answers.drop (j+1)))) := by
    rw [← answerIDs_append,← blocks_cons,← drop_eq_getElem_cons hindex,← answerIDs_append,
      ← blocks_append,cons_append,take_append_drop]
    rfl
  obtain ⟨id,hid⟩ := exists_mem_of_ne_nil _ (x.answering _ hmem)
  have hle := (honce (ne_nil_of_mem (x.own _ hmem id hid))).length_le
  rw [hall,length_append,length_append] at hle
  have hge := hanswered.length_le
  omega

section
variable {r : RollingSummary} {services : Services} {stores : Stores} {input : Input}
theorem RollingSummary.prepare_eq {state : RollingState} {stateRev : UInt64} {rest : Input}
    {estimate : Int} (hload : stores.load services=.ok (state,stateRev))
    (hrest : input.uncovered state=.ok rest)
    (hestimate : services.estimateTokens (rest.build state)=.ok estimate)
    (hover : r.maxInput<estimate) :
    r.prepare services stores input =
      let cut := Nat.findGreatest (Resolved rest.recent) (rest.recent.length-r.preserve.toNat)
      if cut=0 then (.ok (rest.build state),stores)
      else summarize services stores rest state stateRev cut := by
  simp only [RollingSummary.prepare,hload,hrest,hestimate]
  rw [if_neg (not_le.mpr hover),cutFrom_eq]
  split
  · rename_i hfew
    rw [Nat.sub_eq_zero_of_le hfew]
    rfl
  · rfl

private theorem summarize_summarized (input : Input) (state : RollingState) (stateRev : UInt64)
    (cut : Nat) :
    (summarize services stores input state stateRev cut).2.summarized.map Summarized.messages =
      stores.summarized.map Summarized.messages++[input.recent.take cut] := by
  unfold summarize Stores.save
  dsimp only
  cases services.summarizer state.summary (input.recent.take cut) with
  | error err => simp
  | ok newSummary =>
    cases services.saveError with
    | some err => simp
    | none =>
      split_ifs <;> simp

theorem summarize_messages {input : Input} {state : RollingState} {stateRev : UInt64} {cut : Nat}
    {messages : List Message}
    (h : (summarize services stores input state stateRev cut).1=.ok messages) :
    ∃ state, messages={ input with recent := input.recent.drop cut }.build state := by
  unfold summarize at h
  dsimp only at h
  cases hresult : services.summarizer state.summary (input.recent.take cut) with
  | error err =>
    rw [hresult] at h
    cases h
  | ok newSummary =>
    rw [hresult] at h
    dsimp only at h
    split at h
    · cases h
    · rw [Except.ok.injEq] at h
      exact ⟨_,h.symm⟩

/-- Whatever is persisted and whatever the estimate above the limit: `Prepare` summarizes the longest
beginning of the messages not yet covered that leaves `preserve` of them and no call unanswered. It
summarizes nothing else, changes the stored state only then, and splits no batch. -/
theorem prepare_cut {state : RollingState} {stateRev : UInt64} {rest : Input} {estimate : Int}
    (hload : stores.load services=.ok (state,stateRev))
    (hrest : input.uncovered state=.ok rest)
    (hestimate : services.estimateTokens (rest.build state)=.ok estimate)
    (hover : r.maxInput<estimate) :
    ∃ cut, cut=Nat.findGreatest (Resolved rest.recent) (rest.recent.length-r.preserve.toNat) ∧
      (r.prepare services stores input).2.summarized.map Summarized.messages =
        stores.summarized.map Summarized.messages ++
          (if cut=0 then [] else [rest.recent.take cut]) ∧
      (∀ messages, (r.prepare services stores input).1=.ok messages →
        ∃ state, messages={ rest with recent := rest.recent.drop cut }.build state) ∧
      min r.preserve.toNat rest.recent.length≤(rest.recent.drop cut).length ∧
      ((r.prepare services stores input).2.saved≠stores.saved → 0<cut) ∧
      ∀ batches, rest.recent=conversation batches → (∀ x∈batches, x.AnsweredOnce) →
        ∀ before x after, batches=before++x::after → ¬ ((conversation before).length<cut ∧
            cut<(conversation before).length+x.messages.length) := by
  rw [RollingSummary.prepare_eq hload hrest hestimate hover]
  refine ⟨_,rfl,?_⟩
  generalize hcut : Nat.findGreatest (Resolved rest.recent)
    (rest.recent.length-r.preserve.toNat)=cut
  have hle : cut≤rest.recent.length-r.preserve.toNat := hcut ▸ Nat.findGreatest_le _
  refine ⟨?_,?_,?_,?_,?_⟩
  · by_cases hzero : cut=0
    · simp [hzero]
    · simp only [hzero,if_false]
      exact summarize_summarized rest state stateRev cut
  · intro messages hok
    by_cases hzero : cut=0
    · simp only [hzero,if_true,Except.ok.injEq] at hok
      rw [hzero]
      exact ⟨state,hok.symm⟩
    · simp only [hzero,if_false] at hok
      exact summarize_messages hok
  · rw [length_drop]
    omega
  · intro hchanged
    apply Nat.pos_of_ne_zero
    intro hzero
    simp [hzero] at hchanged
  · intro batches hbatches honce before x after hat hsplit
    have hresolved : Resolved rest.recent cut := Nat.findGreatest_of_ne_zero hcut (by omega)
    rw [hbatches] at hresolved
    have hx : x∈batches := hat ▸ mem_append_right _ mem_cons_self
    exact hresolved.not_split hat (honce x hx) hsplit
end
namespace Scenario
def waiting : Batch := alone lookup.head
def overfull : Services where
  estimateTokens := fun _ => .ok 1
  summarizer := fun _ _ => .ok "greeting"

def persisted : Input where
  boundary := 0
  revision := 2
  recent := conversation [text "hi",lookup,waiting]
  current := [⟨.user,[.text "now"]⟩]
  transient := []
end Scenario
theorem prepare_cut_waiting : ∃ cut,
    (RollingSummary.prepare ⟨0,2⟩ overfull {} persisted).2.summarized.map
      Summarized.messages=[persisted.recent.take cut] ∧
    persisted.recent.take cut=conversation [text "hi"] := by
  obtain ⟨cut,-,h,-⟩ := @prepare_cut ⟨0,2⟩ overfull {} persisted _ _ _ _ rfl rfl
    rfl (by decide)
  split at h
  · cases h
  · exact ⟨cut,h,(List.cons.inj h).1.symm⟩
end GudeAgents.ContextManager
