import Mathlib.Data.List.Dedup
import Mathlib.Data.List.Nodup
import Mathlib.Data.Nat.Digits.Defs
import GudeAgents.Framework.Lists
/-!
# Document ingestion

Model of `rag/rag.go`: splitting texts, the in-memory vector store, and `Ingest`. Embedding answers,
context errors and the iteration order of the map of sources are parameters.
-/
namespace GudeAgents.Rag
open Framework List
/-- A metadata map. Reading a missing key gives the empty text. -/
abbrev Metadata : Type := String → Option String

def Metadata.read (metadata : Metadata) (key : String) : String :=
  (metadata key).getD ""

structure Document where
  id : String
  content : String
  metadata : Metadata

def Document.source (doc : Document) : String :=
  doc.metadata.read "source"
def Document.withID (doc : Document) (id : String) : Document :=
  { doc with id := id }
def Document.payload (doc : Document) : String×Metadata :=
  (doc.content,doc.metadata)

/-- The loop of `SplitText` from position `i`: windows of `size` runes, `step` apart. Every
iteration advances, so as many iterations as there are runes are enough. -/
def windows (size step : Nat) (runes : List Char) : Nat → Nat → List String
  | 0, _ => []
  | fuel+1, i =>
    if i<runes.length then
      String.ofList ((runes.drop i).take size)::windows size step runes fuel (i+step)
    else []

/-- `SplitText`, as long as no sum leaves the 64-bit integers. -/
def idealSplitText (text : String) (chunkSize overlap : Int) : Except String (List String) :=
  if chunkSize<1 then
    .error s!"splittext: chunkSize must be >= 1, got {chunkSize}"
  else if overlap<0 then
    .error s!"splittext: overlap must be >= 0, got {overlap}"
  else if chunkSize≤overlap then
    .error s!"splittext: overlap ({overlap}) must be < chunkSize ({chunkSize})"
  else
    let runes := text.toList
    .ok (windows chunkSize.toNat (chunkSize-overlap).toNat runes runes.length 0)

theorem idealSplitText_eq_nil_iff {text : String} {chunkSize overlap : Int} {parts : List String}
    (h : idealSplitText text chunkSize overlap=.ok parts) : parts=[] ↔ text="" := by
  unfold idealSplitText at h
  split_ifs at h
  simp only [Except.ok.injEq] at h
  subst h
  cases hrunes : text.toList with
  | nil =>
    have htext : text="" := String.toList_eq_nil_iff.mp hrunes
    simp [windows,htext]
  | cons c rest =>
    have htext : text≠"" := by
      intro hempty
      rw [hempty] at hrunes
      cases hrunes
    simp [windows,htext]

structure StoreEntry (E : Type) where
  id : String
  doc : Document
  embedding : E

def put {E : Type} (new : StoreEntry E) : List (StoreEntry E) → List (StoreEntry E)
  | [] => [new]
  | e::rest => if e.id=new.id then new::rest else e::put new rest

/-- `MemoryStore`. IDs are unique, and an entry has the ID of its document. -/
structure MemoryStore (E : Type) where
  entries : List (StoreEntry E)
  nextID : Nat
  nodup_ids : (entries.map StoreEntry.id).Nodup
  id_doc : ∀ e∈entries, e.doc.id=e.id

def newMemoryStore (E : Type) : MemoryStore E :=
  ⟨[],0,nodup_nil,fun _ h => absurd h not_mem_nil⟩

section Entries
variable {E : Type}
variable {entries : List (StoreEntry E)}
theorem mem_put {new e : StoreEntry E} (h : e∈put new entries) : e=new ∨ e∈entries := by
  induction entries with
  | nil => exact Or.inl (mem_singleton.mp h)
  | cons a rest ih =>
    rw [put] at h
    split_ifs at h with hid
    · rcases mem_cons.mp h with hnew | hrest
      · exact Or.inl hnew
      · exact Or.inr (mem_cons_of_mem a hrest)
    · rcases mem_cons.mp h with ha | hput
      · exact Or.inr (ha ▸ mem_cons_self)
      · rcases ih hput with hnew | hrest
        · exact Or.inl hnew
        · exact Or.inr (mem_cons_of_mem a hrest)

theorem put_perm (new : StoreEntry E) (hnodup : (entries.map StoreEntry.id).Nodup) :
    (put new entries).Perm (new::entries.filter fun e => e.id≠new.id) := by
  induction entries with
  | nil => simp [put]
  | cons a rest ih =>
    rw [map_cons,nodup_cons] at hnodup
    rw [put]
    by_cases hid : a.id=new.id
    · have hrest : rest.filter (fun e => e.id≠new.id)=rest := by
        apply filter_eq_self.mpr
        intro e he
        simp only [decide_eq_true_eq]
        intro hsame
        exact hnodup.1 (hid.trans hsame.symm ▸ mem_map_of_mem he)
      rw [if_pos hid,filter_cons_of_neg (by simpa using hid),hrest]
    · rw [if_neg hid,filter_cons_of_pos (by simpa using hid)]
      exact ((ih hnodup.2).cons a).trans (List.Perm.swap new a _)

theorem nodup_put (new : StoreEntry E) (hnodup : (entries.map StoreEntry.id).Nodup) :
    ((put new entries).map StoreEntry.id).Nodup := by
  rw [((put_perm new hnodup).map StoreEntry.id).nodup_iff,map_cons,nodup_cons]
  constructor
  · intro hmem
    obtain ⟨e,he,hid⟩ := mem_map.mp hmem
    have hne := (mem_filter.mp he).2
    simp [hid] at hne
  · exact (hnodup.sublist (filter_sublist.map StoreEntry.id))
end Entries
namespace MemoryStore
variable {E : Type}
def upsertOne (s : MemoryStore E) (doc : Document) (embedding : E) : MemoryStore E :=
  let nextID := if doc.id="" then s.nextID+1 else s.nextID
  let id := if doc.id="" then toString nextID else doc.id
  { entries := put ⟨id,doc.withID id,embedding⟩ s.entries
    nextID := nextID
    nodup_ids := nodup_put _ s.nodup_ids
    id_doc := by
      intro e he
      rcases mem_put he with rfl | hold
      · rfl
      · exact s.id_doc e hold }

section
variable {s : MemoryStore E} {doc : Document} {embedding : E}
theorem nextID_upsertOne_empty (h : doc.id="") : (s.upsertOne doc embedding).nextID=s.nextID+1 := by
  simp [upsertOne,h]
theorem nextID_upsertOne_supplied (h : doc.id≠"") :
    (s.upsertOne doc embedding).nextID=s.nextID := by
  simp [upsertOne,h]
theorem entries_upsertOne_empty (h : doc.id="") : (s.upsertOne doc embedding).entries =
      put ⟨toString (s.nextID+1),doc.withID (toString (s.nextID+1)),embedding⟩ s.entries := by
  simp [upsertOne,h]
theorem entries_upsertOne_supplied (h : doc.id≠"") :
    (s.upsertOne doc embedding).entries=put ⟨doc.id,doc,embedding⟩ s.entries := by
  simp [upsertOne,h,Document.withID]
end
def upsertAll : MemoryStore E → List (Document×E) → MemoryStore E
  | s, [] => s
  | s, (doc,embedding)::rest => upsertAll (s.upsertOne doc embedding) rest

def upsert (docs : List Document) (embeddings : List E) (s : MemoryStore E) :
    Option String×MemoryStore E :=
  if docs.length≠embeddings.length then
    (some ("vectorstore: docs and embeddings length mismatch: "++toString docs.length++" vs " ++
      toString embeddings.length),s)
  else (none,s.upsertAll (docs.zip embeddings))
end MemoryStore
abbrev Filter : Type := List (String×String)

def metadataMatchesFilter (metadata : Metadata) (filter : Filter) : Bool :=
  filter.all fun entry => metadata.read entry.1=entry.2

namespace MemoryStore
variable {E : Type}
section
variable (keep : StoreEntry E → Bool) (s : MemoryStore E)
include keep s
theorem nodup_compact : ((compact keep s.entries).map StoreEntry.id).Nodup := by
  rw [compact_eq_filter]
  exact s.nodup_ids.sublist (filter_sublist.map StoreEntry.id)
theorem id_doc_compact : ∀ e∈compact keep s.entries, e.doc.id=e.id := by
  intro e he
  rw [compact_eq_filter] at he
  exact s.id_doc e (mem_filter.mp he).1

def compacted (keep : StoreEntry E → Bool) (s : MemoryStore E) : MemoryStore E :=
  ⟨compact keep s.entries,s.nextID,s.nodup_compact keep,s.id_doc_compact keep⟩

@[simp] theorem entries_compacted : (s.compacted keep).entries=s.entries.filter keep :=
  compact_eq_filter keep s.entries
end
def deleteByMetadata (filter : Filter) (s : MemoryStore E) : Option String×MemoryStore E :=
  if filter.length=0 then (some "vectorstore: filter must not be empty",s)
  else (none,s.compacted fun e => !metadataMatchesFilter e.doc.metadata filter)
end MemoryStore
/-- The operations of a `Store` that `Ingest` uses, on states `S`; the error is `none` for nil. A
store that implements `Manager` also deletes by metadata. -/
structure Store (S E : Type) where
  upsert : List Document → List E → S → Option String×S
  deleteByMetadata : Option (Filter → S → Option String×S)

def memoryStore (E : Type) : Store (MemoryStore E) E :=
  ⟨MemoryStore.upsert,some MemoryStore.deleteByMetadata⟩

structure IngestConfig where
  chunkSize : Int := 512
  chunkOverlap : Int := 64
  concurrency : Int := 1

def metadataAt (metadata : List Metadata) (sourceIndex : Nat) : Metadata :=
  (metadata[sourceIndex]?).getD fun _ => none

/-- The document of one chunk, with the positions merged into the metadata of its text. -/
def chunkDocument (sourceMetadata : Metadata) (sourceIndex chunkIndex : Nat) (part : String) :
    Document where
  id := ""
  content := part
  metadata := Function.update
    (Function.update sourceMetadata "source_index" (some (toString sourceIndex)))
    "chunk_index" (some (toString chunkIndex))

def chunksOf (metadata : List Metadata) (sourceIndex : Nat) (parts : List String) :
    List Document :=
  parts.zipIdx.map fun part =>
    chunkDocument (metadataAt metadata sourceIndex) sourceIndex part.2 part.1

def chunkTexts (cfg : IngestConfig) (metadata : List Metadata) :
    Nat → List String → Except String (List Document)
  | _, [] => .ok []
  | sourceIndex, text::texts =>
    match idealSplitText text cfg.chunkSize cfg.chunkOverlap with
    | .error err => .error s!"ingest: split text {sourceIndex}: {err}"
    | .ok parts =>
      match chunkTexts cfg metadata (sourceIndex + 1) texts with
      | .error err => .error err
      | .ok docs => .ok (chunksOf metadata sourceIndex parts++docs)

/-- What the embedder and the context answer for the chunk with a given index. The context is only
read by the workers of a concurrent ingestion. -/
structure Embedding (E : Type) where
  ctxErr : Nat → Option String
  embed : Nat → String → Except String E

def Embedding.outcome {E : Type} (env : Embedding E) (concurrency : Int) (chunk : Document×Nat) :
    Except String E :=
  match if concurrency≤1 then none else env.ctxErr chunk.2 with
  | some err => .error err
  | none =>
    match env.embed chunk.2 chunk.1.content with
    | .error err => .error ("ingest: embed chunk "++toString chunk.2++": "++err)
    | .ok embedding => .ok embedding

/-- The first error in index order, or all embeddings. The sequential loop stops at its first
error; the workers of the concurrent one all finish and then the errors are read in index order. -/
def collect {E : Type} : List (Except String E) → Except String (List E)
  | [] => .ok []
  | .error err::_ => .error err
  | .ok embedding::rest => (collect rest).map (embedding :: ·)
def Embedding.embedAll {E : Type} (env : Embedding E) (concurrency : Int)
    (docs : List Document) : Except String (List E) :=
  collect (docs.zipIdx.map (env.outcome concurrency))
def sources (metadata : List Metadata) : List String :=
  ((metadata.map fun item => item.read "source").filter (· ≠ "")).dedup

def deleteSources {S : Type} (delete : Filter → S → Option String×S) :
    List String → S → Option String×S
  | [], s => (none,s)
  | source::rest, s =>
    match delete [("source",source)] s with
    | (some err,s') => (some s!"ingest: delete old chunks: {err}",s')
    | (none,s') => deleteSources delete rest s'

def Store.deleteOld {S E : Type} (store : Store S E) (order : List String) (s : S) :
    Option String×S :=
  match store.deleteByMetadata with
  | none => (none,s)
  | some delete => deleteSources delete order s

def ingest {S E : Type} (store : Store S E) (env : Embedding E) (cfg : IngestConfig)
    (order : List String) (texts : List String) (metadata : List Metadata) (s : S) :
    Option String×S :=
  match chunkTexts cfg metadata 0 texts with
  | .error err => (some err,s)
  | .ok [] => (none,s)
  | .ok docs =>
    match env.embedAll cfg.concurrency docs with
    | .error err => (some err,s)
    | .ok embeddings =>
      match store.deleteOld order s with
      | (some err,s') => (some err,s')
      | (none,s') =>
        match store.upsert docs embeddings s' with
        | (some err,s'') => (some s!"ingest: store.Upsert: {err}",s'')
        | (none,s'') => (none,s'')
end GudeAgents.Rag
