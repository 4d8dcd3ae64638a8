import Mathlib
import GudeAgents.Rag.Ingest
namespace GudeAgents.Rag
open List MemoryStore Document
def partsOf (cfg : IngestConfig) (text : String) : List String :=
  match idealSplitText text cfg.chunkSize cfg.chunkOverlap with
  | .ok parts => parts
  | .error _ => []
def allChunks (cfg : IngestConfig) (texts : List String) (metadata : List Metadata) :
    List Document :=
  texts.zipIdx.flatMap fun text => chunksOf metadata text.2 (partsOf cfg text.1)

def chunksNaming (cfg : IngestConfig) (texts : List String) (metadata : List Metadata)
    (source : String) : List (String×Metadata) :=
  texts.zipIdx.flatMap fun text =>
    if (metadataAt metadata text.2).read "source"=source then
      (chunksOf metadata text.2 (partsOf cfg text.1)).map payload
    else []

variable {cfg : IngestConfig} {texts : List String} {metadata : List Metadata}
  {docs : List Document} {doc : Document}
private theorem source_of_mem_chunksOf {sourceIndex : Nat} {parts : List String}
    (h : doc∈chunksOf metadata sourceIndex parts) :
    doc.source=(metadataAt metadata sourceIndex).read "source" := by
  obtain ⟨part,-,rfl⟩ := mem_map.mp h
  simp [Document.source,chunkDocument,Metadata.read,Function.update]

private theorem chunkTexts_cons_ok {n : Nat} {text : String}
    (h : chunkTexts cfg metadata n (text::texts)=.ok docs) :
    ∃ parts rest, idealSplitText text cfg.chunkSize cfg.chunkOverlap=.ok parts ∧
      chunkTexts cfg metadata (n+1) texts=.ok rest ∧ docs=chunksOf metadata n parts++rest := by
  rw [chunkTexts] at h
  cases hsplit : idealSplitText text cfg.chunkSize cfg.chunkOverlap with
  | error err => simp [hsplit] at h
  | ok parts =>
    cases hrest : chunkTexts cfg metadata (n + 1) texts with
    | error err => simp [hsplit,hrest] at h
    | ok rest =>
      simp only [hsplit,hrest,Except.ok.injEq] at h
      exact ⟨parts,rest,rfl,rfl,h.symm⟩

private theorem chunkTexts_ok {n : Nat} (h : chunkTexts cfg metadata n texts=.ok docs) :
    docs=(texts.zipIdx n).flatMap fun text => chunksOf metadata text.2 (partsOf cfg text.1) := by
  induction texts generalizing n docs with
  | nil =>
    cases h
    rfl
  | cons text texts ih =>
    obtain ⟨parts,rest,hsplit,hrest,rfl⟩ := chunkTexts_cons_ok h
    rw [zipIdx_cons,flatMap_cons,← ih hrest]
    simp [partsOf,hsplit]

private theorem filter_source_allChunks (cfg : IngestConfig) (texts : List String)
    (metadata : List Metadata) (source : String) :
    ((allChunks cfg texts metadata).filter fun doc => doc.source=source).map payload =
      chunksNaming cfg texts metadata source := by
  rw [allChunks,chunksNaming,filter_flatMap,map_flatMap]
  congr 1
  funext text
  split_ifs with hsource
  · congr 1
    apply filter_eq_self.mpr
    intro doc hdoc
    simpa [source_of_mem_chunksOf hdoc] using hsource
  · rw [map_eq_nil_iff,filter_eq_nil_iff]
    intro doc hdoc
    simpa [source_of_mem_chunksOf hdoc] using hsource

private theorem source_eq_empty_of_mem_allChunks (h : doc∈allChunks cfg texts metadata)
    (hother : doc.source∉sources metadata) : doc.source="" := by
  obtain ⟨text,-,hdoc⟩ := mem_flatMap.mp h
  by_contra hne
  apply hother
  have hsource := source_of_mem_chunksOf hdoc
  rw [sources,mem_dedup,mem_filter]
  refine ⟨?_,by simpa using hne⟩
  rw [hsource] at hne ⊢
  cases hitem : metadata[text.2]? with
  | none => simp [metadataAt,hitem,Metadata.read] at hne
  | some item =>
    rw [show metadataAt metadata text.2=item by simp [metadataAt,hitem]]
    exact mem_map_of_mem (mem_of_getElem? hitem)

private theorem allChunks_eq_nil_iff {n : Nat} (h : chunkTexts cfg metadata n texts=.ok docs) :
    docs=[] ↔ ∀ text∈texts, text="" := by
  induction texts generalizing n docs with
  | nil =>
    cases h
    simp
  | cons text texts ih =>
    obtain ⟨parts,rest,hsplit,hrest,rfl⟩ := chunkTexts_cons_ok h
    rw [append_eq_nil_iff,ih hrest,forall_mem_cons]
    simp [chunksOf,idealSplitText_eq_nil_iff hsplit]

section Memory
variable {E : Type}
def numbered : Nat → List (Document×E) → List (StoreEntry E)
  | _, [] => []
  | next, (doc,embedding)::rest =>
    ⟨toString (next+1),doc.withID (toString (next+1)),embedding⟩::numbered (next+1) rest

variable {items : List (Document×E)}
private theorem mem_numbered {next : Nat} {e : StoreEntry E} : e∈numbered next items ↔
      ∃ i item, items[i]?=some item ∧
        e=⟨toString (next+i+1),item.1.withID (toString (next+i+1)),item.2⟩ := by
  induction items generalizing next with
  | nil => simp [numbered]
  | cons item rest ih =>
    rw [numbered,mem_cons,ih]
    constructor
    · intro h
      rcases h with rfl | ⟨i,item',hi,rfl⟩
      · exact ⟨0,item,rfl,rfl⟩
      · refine ⟨i+1,item',by simpa using hi,?_⟩
        rw [Nat.add_right_comm next 1 i,Nat.add_assoc next i 1]
    · rintro ⟨i,item',hi,rfl⟩
      cases i with
      | zero =>
        left
        simp only [List.getElem?_cons_zero,Option.some.injEq] at hi
        subst hi
        rfl
      | succ i =>
        right
        refine ⟨i,item',by simpa using hi,?_⟩
        rw [Nat.add_right_comm next 1 i,Nat.add_assoc next i 1]

private theorem id_numbered_ne {next : Nat} {e : StoreEntry E} (h : e∈numbered (next+1) items) :
    e.id≠toString (next+1) := by
  obtain ⟨i,item,-,rfl⟩ := mem_numbered.mp h
  intro hid
  have := Nat.repr_inj.mp hid
  omega

private theorem upsertAll_perm (s : MemoryStore E) (hids : ∀ item∈items, item.1.id="") :
    (s.upsertAll items).entries.Perm (numbered s.nextID items ++
        s.entries.filter fun e => e.id∉(numbered s.nextID items).map StoreEntry.id) := by
  induction items generalizing s with
  | nil => simp [upsertAll,numbered]
  | cons item rest ih =>
    obtain ⟨doc,embedding⟩ := item
    have hdoc : doc.id="" := hids (doc,embedding) mem_cons_self
    have hrest := ih (s.upsertOne doc embedding)
      (fun item hitem => hids item (mem_cons_of_mem _ hitem))
    rw [nextID_upsertOne_empty hdoc] at hrest
    let new : StoreEntry E :=
      ⟨toString (s.nextID+1),doc.withID (toString (s.nextID+1)),embedding⟩
    have hfresh : new.id∉(numbered (s.nextID+1) rest).map StoreEntry.id := by
      intro hmem
      obtain ⟨e,he,hid⟩ := mem_map.mp hmem
      exact id_numbered_ne he hid
    rw [entries_upsertOne_empty hdoc] at hrest
    have hput := (put_perm new s.nodup_ids).filter
      fun e => decide (e.id∉(numbered (s.nextID+1) rest).map StoreEntry.id)
    rw [filter_cons_of_pos (by simpa using hfresh),filter_filter] at hput
    rw [upsertAll,numbered]
    refine hrest.trans (((List.Perm.refl _).append hput).trans (perm_middle.trans ?_))
    apply List.Perm.cons
    apply List.Perm.append_left
    apply List.Perm.of_eq
    congr 1
    funext e
    rw [map_cons]
    simp only [mem_cons,not_or,Bool.decide_and]
    exact Bool.and_comm _ _

def MemoryStore.documents (s : MemoryStore E) : List Document :=
  s.entries.map StoreEntry.doc

private theorem deleteSources_memory (order : List String) (s : MemoryStore E) :
    ∃ s', deleteSources deleteByMetadata order s=(none,s') ∧
      s'.nextID=s.nextID ∧ s'.entries=s.entries.filter fun e => e.doc.source∉order := by
  induction order generalizing s with
  | nil => exact ⟨s,rfl,rfl,by simp⟩
  | cons source rest ih =>
    obtain ⟨s',hrun,hnext,hentries⟩ := ih (deleteByMetadata [("source",source)] s).2
    refine ⟨s',hrun,hnext,?_⟩
    rw [hentries]
    simp only [deleteByMetadata,length_cons,Nat.add_one_ne_zero,if_false,
      entries_compacted,filter_filter]
    congr 1
    funext e
    rw [Bool.eq_iff_iff,Bool.and_eq_true,decide_eq_true_iff,decide_eq_true_iff]
    simp [metadataMatchesFilter,Document.source,and_comm]

variable {embeddings : List E}
theorem collect_length {outcomes : List (Except String E)} (h : collect outcomes=.ok embeddings) :
    embeddings.length=outcomes.length := by
  induction outcomes generalizing embeddings with
  | nil =>
    cases h
    rfl
  | cons outcome rest ih =>
    cases outcome with
    | error err => cases h
    | ok embedding =>
      rw [collect] at h
      cases hrest : collect rest with
      | error err => simp [hrest,Except.map] at h
      | ok others =>
        simp only [hrest,Except.map,Except.ok.injEq] at h
        rw [← h,length_cons,length_cons,ih hrest]

private theorem embedAll_length {env : Embedding E} {concurrency : Int}
    (h : env.embedAll concurrency docs=.ok embeddings) : embeddings.length=docs.length := by
  rw [collect_length h,length_map,length_zipIdx]
private theorem id_of_mem_allChunks (h : doc∈allChunks cfg texts metadata) : doc.id="" := by
  obtain ⟨text,-,hdoc⟩ := mem_flatMap.mp h
  obtain ⟨part,-,rfl⟩ := mem_map.mp hdoc
  rfl

/-- The store after the deletion of some sources and the upsert of items without IDs. -/
def Stores (order : List String) (items : List (Document×E)) (s s' : MemoryStore E) : Prop :=
  s'.entries.Perm (numbered s.nextID items ++
    (s.entries.filter fun e => e.doc.source∉order).filter fun e =>
      e.id∉(numbered s.nextID items).map StoreEntry.id)

variable {order : List String} {s s' : MemoryStore E}
private theorem ingest_memory {env : Embedding E}
    (h : ingest (memoryStore E) env cfg order texts metadata s=(none,s')) :
    chunkTexts cfg metadata 0 texts=.ok (allChunks cfg texts metadata) ∧
      (allChunks cfg texts metadata=[] → s'=s) ∧
      (allChunks cfg texts metadata≠[] → ∃ embeddings : List E,
        embeddings.length=(allChunks cfg texts metadata).length ∧
        Stores order ((allChunks cfg texts metadata).zip embeddings) s s') := by
  rw [ingest] at h
  cases hchunks : chunkTexts cfg metadata 0 texts with
  | error err => simp [hchunks] at h
  | ok docs =>
    have hdocs : docs=allChunks cfg texts metadata := chunkTexts_ok hchunks
    rw [← hdocs]
    refine ⟨rfl,?_,?_⟩
    · intro hnil
      subst hnil
      simpa [hchunks] using h.symm
    · intro hne
      cases docs with
      | nil => exact absurd rfl hne
      | cons doc rest =>
        simp only [hchunks] at h
        cases hembed : env.embedAll cfg.concurrency (doc::rest) with
        | error err => simp [hembed] at h
        | ok embeddings =>
          have hlength := embedAll_length hembed
          obtain ⟨s1,hdelete,hnext,hentries⟩ := deleteSources_memory order s
          simp only [hembed,Store.deleteOld,memoryStore,hdelete,upsert,hlength,ne_eq,
            not_true_eq_false,if_false,Prod.mk.injEq,true_and] at h
          refine ⟨embeddings,hlength,?_⟩
          have hids : ∀ item∈(doc::rest).zip embeddings, item.1.id="" := by
            intro item hitem
            have hmem : item.1∈allChunks cfg texts metadata := by
              rw [← hdocs]
              exact (of_mem_zip hitem).1
            exact id_of_mem_allChunks hmem
          have hperm := upsertAll_perm s1 hids
          rw [hnext,hentries,h] at hperm
          exact hperm

/-- The named sources hold exactly the new chunks, each once; the documents of other sources are
still there, and the only other new ones are the chunks of texts that name no source. -/
structure Replaces (cfg : IngestConfig) (texts : List String) (metadata : List Metadata)
    (before after : List Document) : Prop where
  replaced : ∀ source∈sources metadata,
    ((after.filter fun doc => doc.source=source).map payload).Perm
      (chunksNaming cfg texts metadata source)
  kept : ∀ doc∈before, doc.source∉sources metadata → doc∈after
  added : ∀ doc∈after, doc.source∉sources metadata →
    doc∈before ∨ doc.payload∈chunksNaming cfg texts metadata ""

/-- What makes the ingestion of documents replace their sources. -/
structure Replaceable (cfg : IngestConfig) (texts : List String) (metadata : List Metadata)
    (s : MemoryStore E) : Prop where
  nothing_stale : (∀ text∈texts, text="") → ∀ doc∈s.documents, doc.source∉sources metadata
  /-- A document of another source does not have a number that a chunk will get, unless it is
  that chunk already. -/
  numbers_free : ∀ doc∈s.documents, doc.source∉sources metadata →
    ∀ i chunk, (allChunks cfg texts metadata)[i]?=some chunk →
      doc.id=toString (s.nextID+i+1) → doc.payload=chunk.payload

theorem MemoryStore.mem_documents : doc∈s.documents ↔ ∃ e∈s.entries, e.doc=doc ∧ e.id=doc.id := by
  rw [documents,mem_map]
  constructor
  · rintro ⟨e,he,rfl⟩
    exact ⟨e,he,rfl,(s.id_doc e he).symm⟩
  · rintro ⟨e,he,hdoc,-⟩
    exact ⟨e,he,hdoc⟩

private theorem filter_source_numbered (next : Nat) (hlength : embeddings.length=docs.length)
    (source : String) :
    ((numbered next (docs.zip embeddings)).map StoreEntry.doc |>.filter fun doc =>
        doc.source=source).map payload =
      (docs.filter fun doc => doc.source=source).map payload := by
  induction docs generalizing next embeddings with
  | nil => simp [numbered]
  | cons doc docs ih =>
    cases embeddings with
    | nil => simp at hlength
    | cons embedding embeddings =>
      have hrest := ih (next+1) (by simpa using hlength)
      rw [zip_cons_cons,numbered,map_cons,filter_cons,filter_cons]
      have hsource : (doc.withID (toString (next+1))).source=doc.source := rfl
      rw [hsource]
      split_ifs
      · rw [map_cons,map_cons,hrest]
        rfl
      · exact hrest

section Numbered
variable {embeddings : List E} (horder : order.Perm (sources metadata))
  (hlength : embeddings.length=docs.length) (hperm : Stores order (docs.zip embeddings) s s')
include horder hlength hperm
private theorem mem_documents_after (doc : Document) : doc∈s'.documents ↔
      (∃ (i : Nat) (chunk : Document), docs[i]?=some chunk ∧
        doc=chunk.withID (toString (s.nextID+i+1))) ∨
      (doc∈s.documents ∧ doc.source∉sources metadata ∧
        ∀ (i : Nat) (chunk : Document), docs[i]?=some chunk → doc.id≠toString (s.nextID+i+1)) := by
  have hitem : ∀ (i : Nat) (chunk : Document), docs[i]?=some chunk →
      ∃ embedding, (docs.zip embeddings)[i]?=some (chunk,embedding) := by
    intro i chunk hchunk
    have hi : i<embeddings.length := by
      rw [hlength]
      exact (List.getElem?_eq_some_iff.mp hchunk).1
    exact ⟨embeddings[i],List.getElem?_zip_eq_some.mpr ⟨hchunk,List.getElem?_eq_getElem hi⟩⟩
  have hnumber : ∀ id, id∈(numbered s.nextID (docs.zip embeddings)).map StoreEntry.id ↔
      ∃ (i : Nat) (chunk : Document), docs[i]?=some chunk ∧ id=toString (s.nextID+i+1) := by
    intro id
    rw [mem_map]
    constructor
    · rintro ⟨e,he,rfl⟩
      obtain ⟨i,item,hi,rfl⟩ := mem_numbered.mp he
      exact ⟨i,item.1,(List.getElem?_zip_eq_some.mp hi).1,rfl⟩
    · rintro ⟨i,chunk,hchunk,rfl⟩
      obtain ⟨embedding,hi⟩ := hitem i chunk hchunk
      exact ⟨_,mem_numbered.mpr ⟨i,(chunk,embedding),hi,rfl⟩,rfl⟩
  rw [mem_documents]
  constructor
  · rintro ⟨e,he,rfl,hid⟩
    rcases mem_append.mp (hperm.mem_iff.mp he) with hnew | hold
    · left
      obtain ⟨i,item,hi,rfl⟩ := mem_numbered.mp hnew
      exact ⟨i,item.1,(List.getElem?_zip_eq_some.mp hi).1,rfl⟩
    · right
      obtain ⟨hsurvives,hfree⟩ := mem_filter.mp hold
      obtain ⟨hmem,hsource⟩ := mem_filter.mp hsurvives
      simp only [decide_eq_true_eq,hnumber,horder.mem_iff] at hfree hsource
      refine ⟨mem_documents.mpr ⟨e,hmem,rfl,hid⟩,hsource,?_⟩
      intro i chunk hchunk hsame
      exact hfree ⟨i,chunk,hchunk,hid.trans hsame⟩
  · rintro (⟨i,chunk,hchunk,rfl⟩ | ⟨hmem,hsource,hfree⟩)
    · obtain ⟨embedding,hi⟩ := hitem i chunk hchunk
      exact ⟨_,hperm.mem_iff.mpr (mem_append_left _
        (mem_numbered.mpr ⟨i,(chunk,embedding),hi,rfl⟩)),rfl,rfl⟩
    · obtain ⟨e,he,rfl,hid⟩ := mem_documents.mp hmem
      refine ⟨e,hperm.mem_iff.mpr (mem_append_right _ ?_),rfl,hid⟩
      simp only [mem_filter,decide_eq_true_eq,hnumber,horder.mem_iff]
      refine ⟨⟨he,hsource⟩,?_⟩
      rintro ⟨i,chunk,hchunk,hsame⟩
      exact hfree i chunk hchunk (hid.symm.trans hsame)

private theorem replaced_after {source : String} (hsource : source∈sources metadata) :
    ((s'.documents.filter fun doc => doc.source=source).map payload).Perm
      ((docs.filter fun doc => doc.source=source).map payload) := by
  have hdocs := ((hperm.map StoreEntry.doc).filter
    fun doc => decide (doc.source=source)).map payload
  rw [map_append,filter_append,map_append,filter_source_numbered s.nextID hlength source] at hdocs
  have hnone : (((s.entries.filter fun e => e.doc.source∉order).filter fun e =>
      e.id∉(numbered s.nextID (docs.zip embeddings)).map StoreEntry.id).map
        StoreEntry.doc).filter (fun doc => decide (doc.source=source))=[] := by
    rw [filter_eq_nil_iff]
    intro doc hdoc
    obtain ⟨e,he,rfl⟩ := mem_map.mp hdoc
    have hother := (mem_filter.mp (mem_filter.mp he).1).2
    simp only [decide_eq_true_eq,horder.mem_iff] at hother ⊢
    intro hsame
    exact hother (hsame ▸ hsource)
  rwa [hnone,map_nil,append_nil] at hdocs
end Numbered
/-- A successful ingestion into the in-memory store replaces the sources it names exactly when the
store was fit for it. -/
theorem ingest_replaces_iff {env : Embedding E} {cfg : IngestConfig} {order texts : List String}
    {metadata : List Metadata} {s s' : MemoryStore E} (horder : order.Perm (sources metadata))
    (h : ingest (memoryStore E) env cfg order texts metadata s=(none,s')) :
    Replaces cfg texts metadata s.documents s'.documents ↔ Replaceable cfg texts metadata s := by
  obtain ⟨hsplit,hempty,hchunks⟩ := ingest_memory h
  have hnil := allChunks_eq_nil_iff hsplit
  by_cases hnone : allChunks cfg texts metadata=[]
  · -- Without chunks the call returned before the deletion.
    rw [hempty hnone]
    have hnaming : ∀ source, chunksNaming cfg texts metadata source=[] := by
      intro source
      rw [← filter_source_allChunks,hnone]
      rfl
    constructor
    · intro hreplaces
      refine ⟨fun _ doc hdoc hsource => ?_,fun doc _ _ i chunk hchunk => by simp [hnone] at hchunk⟩
      have hperm := hreplaces.replaced doc.source hsource
      rw [hnaming,perm_nil,map_eq_nil_iff,filter_eq_nil_iff] at hperm
      exact hperm doc hdoc (by simp)
    · intro hfit
      refine ⟨?_,fun doc hdoc _ => hdoc,fun doc hdoc _ => Or.inl hdoc⟩
      intro source hsource
      have hstale := hfit.nothing_stale (hnil.mp hnone)
      rw [hnaming,perm_nil,map_eq_nil_iff,filter_eq_nil_iff]
      intro doc hdoc hsame
      rw [decide_eq_true_eq] at hsame
      exact hstale doc hdoc (hsame ▸ hsource)
  · obtain ⟨embeddings,hlength,hperm⟩ := hchunks hnone
    have hafter := mem_documents_after horder hlength hperm
    constructor
    · intro hreplaces
      refine ⟨fun hall => absurd (hnil.mpr hall) hnone,?_⟩
      intro doc hdoc hsource i chunk hchunk hid
      rcases (hafter doc).mp (hreplaces.kept doc hdoc hsource) with hnew | hold
      · obtain ⟨j,other,hother,hsame⟩ := hnew
        have hij : s.nextID+i+1=s.nextID+j+1 := by
          apply Nat.repr_inj.mp
          rw [hsame] at hid
          exact hid.symm
        have hindex : i=j := by omega
        subst hindex
        rw [hchunk,Option.some.injEq] at hother
        rw [hsame,hother]
        rfl
      · exact absurd hid (hold.2.2 i chunk hchunk)
    · intro hfit
      refine ⟨?_,?_,?_⟩
      · intro source hsource
        rw [← filter_source_allChunks]
        exact replaced_after horder hlength hperm hsource
      · intro doc hdoc hsource
        rw [hafter]
        by_cases htaken : ∃ i chunk, (allChunks cfg texts metadata)[i]?=some chunk ∧
            doc.id=toString (s.nextID+i+1)
        · -- The number was taken by a chunk that is the same document.
          obtain ⟨i,chunk,hchunk,hid⟩ := htaken
          have hpayload := hfit.numbers_free doc hdoc hsource i chunk hchunk hid
          left
          refine ⟨i,chunk,hchunk,?_⟩
          obtain ⟨id,content,map⟩ := doc
          simp only [payload,Prod.mk.injEq] at hpayload hid
          simp only [Document.withID,Document.mk.injEq]
          exact ⟨hid,hpayload⟩
        · right
          exact ⟨hdoc,hsource,fun i chunk hchunk hid => htaken ⟨i,chunk,hchunk,hid⟩⟩
      · intro doc hdoc hsource
        rcases (hafter doc).mp hdoc with ⟨i,chunk,hchunk,rfl⟩ | hold
        · right
          have hmem := mem_of_getElem? hchunk
          have hsourceless := source_eq_empty_of_mem_allChunks hmem hsource
          rw [← filter_source_allChunks]
          exact mem_map.mpr ⟨chunk,mem_filter.mpr ⟨hmem,by simpa using hsourceless⟩,rfl⟩
        · exact Or.inl hold.1
end Memory
def sourceOnly (source : String) : Metadata :=
  fun key => if key="source" then some source else none
def steady : Embedding Unit :=
  ⟨fun _ => none,fun _ _ => .ok ()⟩
def ingestedOnce : MemoryStore Unit :=
  (ingest (memoryStore Unit) steady {} ["a"] ["old"] [sourceOnly "a"] (newMemoryStore Unit)).2
def storedByHand : MemoryStore Unit :=
  (upsert [⟨"1","by hand",fun _ => none⟩] [()] (newMemoryStore Unit)).2

theorem ingest_replaces_new_text : Replaces {} ["new"] [sourceOnly "a"] ingestedOnce.documents
      (ingest (memoryStore Unit) steady {} ["a"] ["new"] [sourceOnly "a"] ingestedOnce).2.documents := by
  have hdocs : ∀ doc∈ingestedOnce.documents, doc.source="a" := by
    have hall : ingestedOnce.documents.all (fun doc => doc.source="a")=true := by decide
    simpa using all_eq_true.mp hall
  have hsources : sources [sourceOnly "a"]=["a"] := by decide
  apply (ingest_replaces_iff (E := Unit) (List.Perm.of_eq hsources.symm) (Prod.ext rfl rfl)).mpr
  refine ⟨?_,?_⟩
  · intro hempty
    exact absurd (hempty "new" mem_cons_self) (by decide)
  · intro doc hdoc hother
    rw [hsources,hdocs doc hdoc] at hother
    exact absurd mem_cons_self hother

/-- Ingesting an empty text of a known source keeps the old chunk of that source, and the first
chunk of any ingestion overwrites a document that a caller stored under the ID 1. -/
theorem ingest_does_not_replace :
    ((ingest (memoryStore Unit) steady {} ["a"] [""] [sourceOnly "a"] ingestedOnce).1=none ∧
      ¬ Replaces {} [""] [sourceOnly "a"] ingestedOnce.documents
        (ingest (memoryStore Unit) steady {} ["a"] [""] [sourceOnly "a"] ingestedOnce).2.documents) ∧
    ((ingest (memoryStore Unit) steady {} ["a"] ["new"] [sourceOnly "a"] storedByHand).1=none ∧
      ¬ Replaces {} ["new"] [sourceOnly "a"] storedByHand.documents
        (ingest (memoryStore Unit) steady {} ["a"] ["new"] [sourceOnly "a"]
          storedByHand).2.documents) := by
  refine ⟨⟨by decide,?_⟩,by decide,?_⟩
  · intro hreplaces
    have hlength := (hreplaces.replaced "a" (by decide)).length_eq
    revert hlength
    decide
  · intro hreplaces
    have hkept := hreplaces.kept ⟨"1","by hand",fun _ => none⟩
      (by simp [storedByHand,upsert,upsertAll,upsertOne,
        documents,newMemoryStore,put,Document.withID]) (by decide)
    have hcontent := mem_map_of_mem (f := content) hkept
    revert hcontent
    decide

section Failure
variable {S E : Type}
/-- What is assumed of a store: a failing operation changes nothing, and a deletion keeps the
documents that do not match the filter and adds none. -/
structure Store.Lawful (store : Store S E) (documents : S → Set Document) : Prop where
  upsert_failed : ∀ docs embeddings s err s',
    store.upsert docs embeddings s=(some err,s') → documents s'=documents s
  delete_failed : ∀ delete, store.deleteByMetadata=some delete → ∀ filter s err s',
    delete filter s=(some err,s') → documents s'=documents s
  deleted : ∀ delete, store.deleteByMetadata=some delete → ∀ filter s s',
    delete filter s=(none,s') → documents s' ⊆ documents s ∧
      ∀ doc∈documents s, metadataMatchesFilter doc.metadata filter=false → doc∈documents s'

private theorem memoryStore_lawful : (memoryStore E).Lawful fun s => {doc | doc∈s.documents} := by
  refine ⟨?_,?_,?_⟩
  · intro docs embeddings s err s' h
    simp only [memoryStore,upsert] at h
    split_ifs at h <;> cases h
    rfl
  · intro delete hdelete filter s err s' h
    cases hdelete
    rw [deleteByMetadata] at h
    split_ifs at h <;> cases h
    rfl
  · intro delete hdelete filter s s' h
    cases hdelete
    rw [deleteByMetadata] at h
    split_ifs at h with hempty
    · cases h
    · cases h
      simp only [documents,entries_compacted]
      constructor
      · exact (filter_sublist.map StoreEntry.doc).subset
      · intro doc hdoc hmatch
        obtain ⟨e,he,rfl⟩ := mem_map.mp hdoc
        exact mem_map_of_mem (mem_filter.mpr ⟨he,by simpa using hmatch⟩)

/-- Where a failing ingestion into a manager stopped, with the sources it had deleted by then. -/
inductive FailedAfter (store : Store S E) (delete : Filter → S → Option String×S)
    (env : Embedding E) (cfg : IngestConfig) (order texts : List String)
    (metadata : List Metadata) (s : S) : List String → Prop where
  | splitting {err : String} (h : chunkTexts cfg metadata 0 texts=.error err) :
      FailedAfter store delete env cfg order texts metadata s []
  | embedding {docs : List Document} {err : String}
      (hchunks : chunkTexts cfg metadata 0 texts=.ok docs)
      (h : env.embedAll cfg.concurrency docs=.error err) :
      FailedAfter store delete env cfg order texts metadata s []
  | deleting {docs : List Document} {embeddings : List E} {deleted rest : List String}
      {source err : String} {s1 s2 : S} (hchunks : chunkTexts cfg metadata 0 texts=.ok docs)
      (hembed : env.embedAll cfg.concurrency docs=.ok embeddings)
      (horder : order=deleted++source::rest)
      (hdone : deleteSources delete deleted s=(none,s1))
      (h : delete [("source",source)] s1=(some err,s2)) :
      FailedAfter store delete env cfg order texts metadata s deleted
  | storing {docs : List Document} {embeddings : List E} {err : String} {s1 s2 : S}
      (hchunks : chunkTexts cfg metadata 0 texts=.ok docs)
      (hembed : env.embedAll cfg.concurrency docs=.ok embeddings)
      (hdone : deleteSources delete order s=(none,s1))
      (h : store.upsert docs embeddings s1=(some err,s2)) :
      FailedAfter store delete env cfg order texts metadata s order

variable {store : Store S E} {documents : S → Set Document}
  {delete : Filter → S → Option String×S}
private theorem matches_source_iff (doc : Document) (source : String) :
    metadataMatchesFilter doc.metadata [("source",source)]=false ↔ doc.source≠source := by
  simp [metadataMatchesFilter,Document.source]

private theorem deleteSources_done (hlaw : store.Lawful documents)
    (hdelete : store.deleteByMetadata=some delete) {order : List String} {s s' : S}
    (h : deleteSources delete order s=(none,s')) : documents s' ⊆ documents s ∧
      ∀ doc∈documents s, doc.source∉order → doc∈documents s' := by
  induction order generalizing s with
  | nil =>
    cases h
    exact ⟨subset_rfl,fun _ hdoc _ => hdoc⟩
  | cons source rest ih =>
    rw [deleteSources] at h
    cases hstep : delete [("source",source)] s with
    | mk err s1 =>
      cases err with
      | some err => simp [hstep] at h
      | none =>
        simp only [hstep] at h
        have hlaw := hlaw.deleted delete hdelete _ _ _ hstep
        refine ⟨(ih h).1.trans hlaw.1,fun doc hdoc hsource => ?_⟩
        rw [mem_cons,not_or] at hsource
        exact (ih h).2 doc (hlaw.2 doc hdoc ((matches_source_iff doc source).mpr hsource.1)) hsource.2

private theorem deleteSources_failed {order : List String} {s s' : S} {err : String}
    (h : deleteSources delete order s=(some err,s')) :
    ∃ deleted source rest cause s1, order=deleted++source::rest ∧
      deleteSources delete deleted s=(none,s1) ∧
      delete [("source",source)] s1=(some cause,s') := by
  induction order generalizing s with
  | nil => cases h
  | cons source rest ih =>
    rw [deleteSources] at h
    cases hstep : delete [("source",source)] s with
    | mk failure s1 =>
      cases failure with
      | some cause =>
        simp only [hstep,Prod.mk.injEq] at h
        exact ⟨[],source,rest,cause,s,rfl,rfl,by rw [hstep,h.2]⟩
      | none =>
        simp only [hstep] at h
        obtain ⟨deleted,next,others,cause,s2,horder,hdone,hfail⟩ := ih h
        refine ⟨source::deleted,next,others,cause,s2,by rw [horder]; rfl,?_,hfail⟩
        rw [deleteSources,hstep]
        exact hdone

theorem FailedAfter.started {env : Embedding E} {cfg : IngestConfig} {order texts deleted : List String}
    {metadata : List Metadata} {s : S}
    (h : FailedAfter store delete env cfg order texts metadata s deleted) (hsome : deleted≠[]) :
    ∃ docs embeddings source rest s1, chunkTexts cfg metadata 0 texts=.ok docs ∧
      env.embedAll cfg.concurrency docs=.ok embeddings ∧ order=source::rest ∧
      delete [("source",source)] s=(none,s1) := by
  have hfirst : ∀ {l : List String} {s1 : S}, deleteSources delete l s=(none,s1) → l≠[] →
      ∃ source rest s2, l=source::rest ∧ delete [("source",source)] s=(none,s2) := by
    intro l s1 h hl
    cases l with
    | nil => exact absurd rfl hl
    | cons source rest =>
      rw [deleteSources] at h
      split at h
      · cases h
      · next s2 hstep => exact ⟨source,rest,s2,rfl,hstep⟩
  cases h with
  | splitting | embedding => exact absurd rfl hsome
  | deleting hchunks hembed horder hdone =>
    obtain ⟨source,rest,s2,rfl,hstep⟩ := hfirst hdone hsome
    exact ⟨_,_,source,_,s2,hchunks,hembed,horder,hstep⟩
  | storing hchunks hembed hdone =>
    obtain ⟨source,rest,s2,rfl,hstep⟩ := hfirst hdone hsome
    exact ⟨_,_,source,_,s2,hchunks,hembed,rfl,hstep⟩

/-- A failed ingestion into a manager keeps the documents of all sources but those that it had
deleted when it failed. It deletes the first one after all texts are split and embedded. -/
theorem failed_ingest_loses_deleted_sources (hlaw : store.Lawful documents)
    (hdelete : store.deleteByMetadata=some delete) {env : Embedding E} {cfg : IngestConfig}
    {order texts : List String} {metadata : List Metadata} (horder : order.Perm (sources metadata))
    {s s' : S} {err : String} (h : ingest store env cfg order texts metadata s=(some err,s')) :
    ∃ deleted, FailedAfter store delete env cfg order texts metadata s deleted ∧
      (∀ source∈deleted, source∈sources metadata) ∧ documents s' ⊆ documents s ∧
      (∀ doc∈documents s, doc.source∉deleted → doc∈documents s') ∧
      (deleted≠[] → ∃ docs embeddings source rest s1, chunkTexts cfg metadata 0 texts=.ok docs ∧
        env.embedAll cfg.concurrency docs=.ok embeddings ∧ order=source::rest ∧
        delete [("source",source)] s=(none,s1)) := by
  suffices hfailed : ∃ deleted, FailedAfter store delete env cfg order texts metadata s deleted ∧
      (∀ source∈deleted, source∈sources metadata) ∧ documents s' ⊆ documents s ∧
      ∀ doc∈documents s, doc.source∉deleted → doc∈documents s' by
    obtain ⟨deleted,hafter,hsources,hsub,hkept⟩ := hfailed
    exact ⟨deleted,hafter,hsources,hsub,hkept,hafter.started⟩
  rw [ingest] at h
  cases hchunks : chunkTexts cfg metadata 0 texts with
  | error cause =>
    simp only [hchunks,Prod.mk.injEq] at h
    rw [← h.2]
    exact ⟨[],.splitting hchunks,by simp,subset_rfl,fun _ hdoc _ => hdoc⟩
  | ok docs =>
    cases docs with
    | nil => simp [hchunks] at h
    | cons doc rest =>
      simp only [hchunks] at h
      cases hembed : env.embedAll cfg.concurrency (doc::rest) with
      | error cause =>
        simp only [hembed,Prod.mk.injEq] at h
        rw [← h.2]
        exact ⟨[],.embedding hchunks hembed,by simp,subset_rfl,fun _ hdoc _ => hdoc⟩
      | ok embeddings =>
        simp only [hembed,Store.deleteOld,hdelete] at h
        cases hrun : deleteSources delete order s with
        | mk failure s1 =>
          cases failure with
          | some cause =>
            simp only [hrun,Prod.mk.injEq] at h
            obtain ⟨deleted,source,others,reason,s2,hsplit,hdone,hfail⟩ :=
              deleteSources_failed hrun
            refine ⟨deleted,.deleting hchunks hembed hsplit hdone hfail,?_,?_⟩
            · intro name hname
              apply horder.mem_iff.mp
              rw [hsplit]
              exact mem_append_left _ hname
            · rw [← h.2,hlaw.delete_failed delete hdelete _ _ _ _ hfail]
              exact deleteSources_done hlaw hdelete hdone
          | none =>
            simp only [hrun] at h
            cases hstore : store.upsert (doc::rest) embeddings s1 with
            | mk failure s2 =>
              cases failure with
              | none => simp [hstore] at h
              | some cause =>
                simp only [hstore,Prod.mk.injEq] at h
                refine ⟨order,.storing hchunks hembed hrun hstore,
                  fun name hname => horder.mem_iff.mp hname,?_⟩
                rw [← h.2,hlaw.upsert_failed _ _ _ _ _ hstore]
                exact deleteSources_done hlaw hdelete hrun
end Failure
def rejecting : Store (MemoryStore Unit) Unit :=
  ⟨fun _ _ s => (some "dimension mismatch",s),some deleteByMetadata⟩

private theorem rejecting_lawful : rejecting.Lawful fun s => {doc | doc∈s.documents} where
  upsert_failed := by
    intro docs embeddings s err s' h
    cases h
    rfl
  delete_failed := memoryStore_lawful.delete_failed
  deleted := memoryStore_lawful.deleted

theorem failed_ingest_loses_source_a :
    ∃ deleted, FailedAfter rejecting deleteByMetadata steady {} ["a"] ["new"]
        [sourceOnly "a"] ingestedOnce deleted ∧
      (∀ source∈deleted, source∈sources [sourceOnly "a"]) := by
  have hrun : ingest rejecting steady {} ["a"] ["new"] [sourceOnly "a"] ingestedOnce =
    (some "ingest: store.Upsert: dimension mismatch",_) := Prod.ext rfl rfl
  obtain ⟨deleted,hafter,hsources,-⟩ := failed_ingest_loses_deleted_sources rejecting_lawful rfl
    (List.Perm.of_eq (by decide)) hrun
  exact ⟨deleted,hafter,hsources⟩

theorem failed_ingest_lost_document :
    (ingest rejecting steady {} ["a"] ["new"] [sourceOnly "a"] ingestedOnce).1 =
        some "ingest: store.Upsert: dimension mismatch" ∧
      ingestedOnce.documents.map content=["old"] ∧
      (ingest rejecting steady {} ["a"] ["new"] [sourceOnly "a"] ingestedOnce).2.documents.map
        content=[] := by
  decide
end GudeAgents.Rag
