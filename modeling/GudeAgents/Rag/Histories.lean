import GudeAgents.Rag.Ingest
namespace GudeAgents.Rag
open Framework List MemoryStore
variable {E : Type}
def MemoryStore.delete (ids : List String) (s : MemoryStore E) : MemoryStore E :=
  if ids.length=0 then s else s.compacted fun e => e.id∉ids
def Metadata.Contains (metadata : Metadata) (filter : Filter) : Prop :=
  ∀ entry∈filter, metadata entry.1=some entry.2

instance (metadata : Metadata) (filter : Filter) : Decidable (metadata.Contains filter) :=
  inferInstanceAs (Decidable (∀ entry∈filter, metadata entry.1=some entry.2))

theorem metadataMatchesFilter_iff {metadata : Metadata} {filter : Filter} :
    metadataMatchesFilter metadata filter=true ↔ ∀ entry∈filter, metadata.read entry.1=entry.2 := by
  simp [metadataMatchesFilter]

theorem matches_iff_contains {metadata : Metadata} {filter : Filter} :
    (metadataMatchesFilter metadata filter=true ↔ metadata.Contains filter) ↔
      ∀ key, (key,"")∈filter → metadata key=none →
        ∃ entry∈filter, metadata.read entry.1≠entry.2 := by
  rw [metadataMatchesFilter_iff]
  constructor
  · intro h key hkey hnone
    by_contra hall
    push Not at hall
    have := h.mp hall (key,"") hkey
    simp [hnone] at this
  · intro h
    constructor
    · intro hall entry hentry
      cases hvalue : metadata entry.1 with
      | some value =>
        have := hall entry hentry
        simpa [Metadata.read,hvalue] using this
      | none =>
        have hempty : entry.2="" := by
          rw [← hall entry hentry]
          simp [Metadata.read,hvalue]
        obtain ⟨other,hother,hne⟩ := h entry.1 (by rwa [← hempty]) hvalue
        exact absurd (hall other hother) hne
    · intro hall entry hentry
      simp [Metadata.read,hall entry hentry]

theorem filter_eq_filter_iff {α : Type*} {p q : α → Bool} {l : List α} :
    l.filter p=l.filter q ↔ ∀ x∈l, p x=q x := by
  refine ⟨?_,filter_congr⟩
  intro h x hx
  have hmem : x∈l.filter p ↔ x∈l.filter q := by rw [h]
  simpa [hx] using hmem

/-- Deletion is exact unless a document matches for lack of a key whose filter value is empty. -/
theorem deleteByMetadata_exact_iff (s : MemoryStore E) (filter : Filter) (hne : filter≠[]) :
    (s.deleteByMetadata filter).1=none ∧ ((s.deleteByMetadata filter).2.entries =
          s.entries.filter (fun e => ¬ e.doc.metadata.Contains filter) ↔
        ∀ e∈s.entries, ∀ key, (key,"")∈filter → e.doc.metadata key=none →
          ∃ entry∈filter, e.doc.metadata.read entry.1≠entry.2) := by
  rw [deleteByMetadata,if_neg (by simpa using hne),entries_compacted, filter_eq_filter_iff]
  refine ⟨rfl,forall₂_congr ?_⟩
  intro e _
  rw [← matches_iff_contains,Bool.eq_iff_iff,Bool.not_eq_true',decide_eq_true_iff,
    ← Bool.not_eq_true,not_iff_not]

namespace Scenario
def note (id content : String) (metadata : Metadata) : Document := ⟨id,content,metadata⟩
def plainNote : MemoryStore Unit := (newMemoryStore Unit).upsertOne (note "1" "a" fun _ => none) ()
end Scenario
theorem deleteByMetadata_absent_key :
    Scenario.plainNote.entries.map (fun e => e.doc.metadata "tag")=[none] ∧
      (Scenario.plainNote.deleteByMetadata [("tag","")]).2.entries.map StoreEntry.id=[] := by
  decide

theorem deleteByMetadata_exact_note :
    (Scenario.plainNote.deleteByMetadata [("tag","x")]).2.entries =
      Scenario.plainNote.entries.filter (fun e => ¬ e.doc.metadata.Contains [("tag","x")]) := by
  refine (deleteByMetadata_exact_iff Scenario.plainNote [("tag","x")] (by simp)).2.mpr ?_
  simp

inductive Call (E : Type) where
  | upsert (docs : List Document) (embeddings : List E)
  | delete (ids : List String)
  | deleteByMetadata (filter : Filter)

def Call.apply : Call E → MemoryStore E → MemoryStore E
  | upsert docs embeddings, s => (s.upsert docs embeddings).2
  | delete ids, s => s.delete ids
  | deleteByMetadata filter, s => (s.deleteByMetadata filter).2
def after (calls : List (Call E)) : MemoryStore E :=
  calls.foldl (fun s call => call.apply s) (newMemoryStore E)

variable {s : MemoryStore E}
def MemoryStore.Adds (s : MemoryStore E) (item : Document×E) : Prop :=
  ∃ new, (s.upsertOne item.1 item.2).entries=s.entries++[new]

/-- No document without ID takes the place of a stored one or of one before it in the call. -/
def Call.Fresh (s : MemoryStore E) : Call E → Prop
  | upsert docs embeddings => docs.length=embeddings.length →
      ∀ earlier item later, docs.zip embeddings=earlier++item::later → item.1.id="" →
        (s.upsertAll earlier).Adds item
  | _ => True

def dueID (s : MemoryStore E) (earlier : List (Document×E)) : String :=
  toString (s.nextID+earlier.countP (fun item => item.1.id="")+1)

/-- No stored document and no document before it in the call comes with the number. -/
def Call.Unclaimed (s : MemoryStore E) : Call E → Prop
  | upsert docs embeddings => docs.length=embeddings.length →
      ∀ earlier item later, docs.zip embeddings=earlier++item::later → item.1.id="" →
        (∀ e∈s.entries, e.id≠dueID s earlier) ∧ ∀ i∈earlier, i.1.id≠dueID s earlier
  | _ => True

variable {entries : List (StoreEntry E)}
theorem mem_ids_put {new : StoreEntry E} {id : String} :
    id∈(put new entries).map StoreEntry.id ↔ id=new.id ∨ id∈entries.map StoreEntry.id := by
  induction entries with
  | nil => simp [put]
  | cons e rest ih =>
    rw [put]
    split_ifs with hid
    · simp [hid]
    · rw [map_cons,mem_cons,ih,map_cons,mem_cons,or_left_comm]

theorem put_adds_iff {new : StoreEntry E} :
    (∃ e, put new entries=entries++[e]) ↔ ∀ e∈entries, e.id≠new.id := by
  induction entries with
  | nil => simp [put]
  | cons e rest ih =>
    rw [put,forall_mem_cons]
    split_ifs with hid
    · simp [hid]
    · simp [hid,ih]

theorem nextID_upsertAll (items : List (Document×E)) (s : MemoryStore E) :
    (s.upsertAll items).nextID=s.nextID+items.countP (fun item => item.1.id="") := by
  induction items generalizing s with
  | nil => rfl
  | cons item rest ih =>
    rw [upsertAll,ih,countP_cons]
    by_cases hid : item.1.id=""
    · simp [nextID_upsertOne_empty hid,hid]
      omega
    · simp [nextID_upsertOne_supplied hid,hid]

theorem mem_ids_upsertAll {items : List (Document×E)} {s : MemoryStore E} {n : Nat}
    (hn : (s.upsertAll items).nextID<n) :
    toString n∈(s.upsertAll items).entries.map StoreEntry.id ↔
      toString n∈s.entries.map StoreEntry.id ∨ ∃ item∈items, item.1.id=toString n := by
  induction items generalizing s with
  | nil => simp [upsertAll]
  | cons item rest ih =>
    have hlt : (s.upsertOne item.1 item.2).nextID<n := by
      have hle := nextID_upsertAll rest (s.upsertOne item.1 item.2)
      rw [upsertAll] at hn
      omega
    rw [upsertAll,ih hn,exists_mem_cons_iff]
    by_cases hid : item.1.id=""
    · rw [nextID_upsertOne_empty hid] at hlt
      have hdue : toString n≠toString (s.nextID+1) := by
        intro heq
        have hdigits := congrArg (fun text => Nat.ofDigitChars 10 text.toList 0) heq
        simp only [Nat.toString_eq_ofList_toDigits,String.toList_ofList,
          Nat.ofDigitChars_ten_toDigits] at hdigits
        omega
      have hempty : ""≠toString n := Nat.repr_ne_empty.symm
      rw [entries_upsertOne_empty hid,mem_ids_put,hid]
      simp only [hdue,hempty,false_or]
    · rw [entries_upsertOne_supplied hid,mem_ids_put,eq_comm,or_assoc,or_left_comm]

theorem Call.fresh_iff_unclaimed (call : Call E) (s : MemoryStore E) :
    call.Fresh s ↔ call.Unclaimed s := by
  cases call with
  | upsert docs embeddings =>
    refine forall_congr' fun _ => forall_congr' fun earlier => forall_congr' fun item =>
      forall_congr' fun later => forall_congr' fun _ => forall_congr' fun hid => ?_
    have hmem := mem_ids_upsertAll (Nat.lt_succ_self (s.upsertAll earlier).nextID)
    rw [MemoryStore.Adds,entries_upsertOne_empty hid,put_adds_iff]
    rw [dueID,← nextID_upsertAll]
    have hforall : (∀ e∈(s.upsertAll earlier).entries,
        e.id≠toString ((s.upsertAll earlier).nextID+1)) ↔
          toString ((s.upsertAll earlier).nextID+1) ∉
            (s.upsertAll earlier).entries.map StoreEntry.id := by
      simp
    rw [hforall,hmem,not_or]
    simp
  | delete ids | deleteByMetadata filter => exact Iff.rfl

/-- In every history: the stored IDs are distinct, and the documents without ID are all added if and
only if no number is taken before it is due. -/
theorem generated_ids_fresh_iff (calls : List (Call E)) :
    (∀ before later, calls=before++later → ((after before).entries.map StoreEntry.id).Nodup) ∧
    ((∀ before call later, calls=before++call::later → call.Fresh (after before)) ↔
      ∀ before call later, calls=before++call::later → call.Unclaimed (after before)) := by
  refine ⟨fun before _ _ => (after before).nodup_ids,?_⟩
  simp only [Call.fresh_iff_unclaimed]

theorem generated_id_replaces : (after [.upsert [Scenario.note "1" "mine" fun _ => none] [()],
      .upsert [Scenario.note "" "new" fun _ => none] [()]]).entries.map
        (fun e => (e.id,e.doc.content))=[("1","new")] := by
  decide
end GudeAgents.Rag
