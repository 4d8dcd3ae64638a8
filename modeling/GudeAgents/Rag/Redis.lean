import GudeAgents.Rag.Histories
/-!
# Deletion from the Redis vector store

Model of `DeleteByMetadata` in `rag/redis/vectorstore.go`. Which documents match a query, and in
which order, is up to RediSearch.
-/
namespace GudeAgents.Rag.Redis
open List
/-- A reply as the client returns it. Only string keys of a map are read. -/
inductive Reply where
  | int (n : Nat)
  | string (text : String)
  | array (items : List Reply)
  | map (entries : List (String×Reply))

def Reply.key? : Reply → Option String
  | .string text => if text≠"" then some text else none
  | _ => none
def Reply.id? : Reply → Option String
  | .map entry => (entry.lookup "id").bind Reply.key?
  | _ => none
def parseSearchKeysRESP3 (m : List (String×Reply)) : List String :=
  match m.lookup "results" with
  | some (.array items) => items.filterMap Reply.id?
  | _ => []
def parseSearchKeysRESP2 (results : List Reply) : List String :=
  if results.length<2 then [] else results.tail.filterMap Reply.key?
def parseSearchKeys : Reply → List String
  | .map m => parseSearchKeysRESP3 m
  | .array results => parseSearchKeysRESP2 results
  | _ => []
def special : List String :=
  [",",".","<",">","\x7b","\x7d","[","]","\"","'",":",";","!","@","#","$","%","^",
    "&","*","(",")","-","+","=","~","/","|"]
def escapeRedisSearchTerm (s : String) : String :=
  special.foldl (fun result ch => result.replace ch ("\\"++ch)) s
def metadataClause (entry : String×String) : String :=
  "@metadata:("++escapeRedisSearchTerm ("\""++entry.1++"\":\""++entry.2++"\"")++")"
def metadataQuery (filter : Filter) : String :=
  " ".intercalate ((filter.map metadataClause).mergeSort)

structure Store where
  indexName : String
  hits : String → List Document → List Document

structure Server where
  resp3 : Bool := true
  searchErr : Option String := none
  delErr : Option String := none

def Server.render (server : Server) (total : Nat) (keys : List String) : Reply :=
  if server.resp3 then
    .map [("total_results",.int total),
      ("results",.array (keys.map fun key => .map [("id",.string key)]))]
  else .array (.int total::keys.map .string)

namespace Store
variable (s : Store)
def documentKey (doc : Document) : String := s.indexName++":"++doc.id
def searchKeys (query : String) (offset count : Nat) (docs : List Document) : List String :=
  (((s.hits query docs).drop offset).take count).map s.documentKey
def del (keys : List String) (docs : List Document) : List Document :=
  docs.filter fun doc => s.documentKey doc∉keys

def deleteByMetadata (server : Server) (filter : Filter) (docs : List Document) :
    Option String×List Document :=
  if filter.length=0 then (some "vectorstore: filter must not be empty",docs)
  else match server.searchErr with
    | some err => (some ("redis vectorstore: delete by metadata: search: "++err),docs)
    | none =>
      let query := metadataQuery filter
      let res := server.render (s.hits query docs).length (s.searchKeys query 0 10000 docs)
      let keys := parseSearchKeys res
      if keys.length=0 then (none,docs)
      else match server.delErr with
        | some err => (some ("redis vectorstore: delete by metadata: del: "++err),docs)
        | none => (none,s.del keys docs)

/-- The query of a filter finds exactly the documents that the filter matches. -/
def Finds (filter : Filter) : Prop :=
  ∀ docs, (s.hits (metadataQuery filter) docs).Perm (docs.filter (·.metadata.Contains filter))

variable {s} {filter : Filter} {docs docs' : List Document} {server : Server}
theorem parseSearchKeys_render (total : Nat) {keys : List String} (hkeys : ∀ key∈keys, key≠"") :
    parseSearchKeys (server.render total keys)=keys := by
  have hread : keys.filterMap (fun key => Reply.key? (.string key))=keys :=
    (filterMap_congr fun key hkey => if_pos (hkeys key hkey)).trans filterMap_some
  unfold Server.render
  split
  · exact filterMap_map.trans hread
  · cases keys with
    | nil => rfl
    | cons key rest => exact filterMap_map.trans hread

theorem deleteByMetadata_nil_iff : s.deleteByMetadata server filter docs=(none,docs') ↔
    filter≠[] ∧ server.searchErr=none ∧
      (s.searchKeys (metadataQuery filter) 0 10000 docs=[] ∨ server.delErr=none) ∧
      s.del (s.searchKeys (metadataQuery filter) 0 10000 docs) docs=docs' := by
  have hkeys : ∀ key∈s.searchKeys (metadataQuery filter) 0 10000 docs, key≠"" := by
    intro key hkey
    obtain ⟨doc,-,rfl⟩ := mem_map.mp hkey
    simp [documentKey]
  by_cases hfilter : filter=[]
  · simp [deleteByMetadata,hfilter]
  · cases hsearch : server.searchErr with
    | some err => simp [deleteByMetadata,hfilter,hsearch]
    | none =>
      simp only [deleteByMetadata,length_eq_zero_iff,hfilter,hsearch,parseSearchKeys_render _ hkeys,
        if_false]
      split
      · next hnone => simp [hnone,hfilter,del]
      · cases server.delErr <;> simp_all

theorem exists_left (hfinds : s.Finds filter) (hnodup : (docs.map Document.id).Nodup)
    (hmany : 10000<(docs.filter (·.metadata.Contains filter)).length) :
    ∃ doc∈s.del (s.searchKeys (metadataQuery filter) 0 10000 docs) docs,
      doc.metadata.Contains filter := by
  have hperm := hfinds docs
  have hids := (hperm.map _).nodup_iff.mpr (hnodup.sublist (filter_sublist.map _))
  rw [← hperm.length_eq] at hmany
  -- any hit behind those that are returned
  obtain ⟨doc,hdoc⟩ := exists_mem_of_ne_nil _ (drop_eq_nil_iff.not.mpr (Nat.not_le.mpr hmany))
  have hmem := mem_filter.mp (hperm.subset (mem_of_mem_drop hdoc))
  refine ⟨doc,mem_filter.mpr ⟨hmem.1,?_⟩,by simpa using hmem.2⟩
  rw [decide_eq_true_iff]
  intro hkey
  obtain ⟨doc',hdoc',hsame⟩ := mem_map.mp hkey
  rw [← take_append_drop 10000 (s.hits _ docs),map_append,nodup_append] at hids
  exact hids.2.2 _ (mem_map_of_mem hdoc') _ (mem_map_of_mem hdoc) (by simpa [documentKey] using hsame)
end Store
section
variable {s : Store} {filter : Filter} {docs : List Document}
/-- Whatever the server answers, a deletion that returns nil leaves no match exactly if the filter
is empty, which is refused, or matches at most 10000 documents. -/
theorem deletion_complete_iff (hfinds : s.Finds filter) (hnodup : (docs.map Document.id).Nodup) :
    (∀ server docs', s.deleteByMetadata server filter docs=(none,docs') →
      ∀ doc∈docs', ¬ doc.metadata.Contains filter) ↔
      filter=[] ∨ (docs.filter (·.metadata.Contains filter)).length≤10000 := by
  constructor
  · intro hcomplete
    by_contra! hnot
    obtain ⟨doc,hleft,hcontains⟩ := Store.exists_left hfinds hnodup hnot.2
    exact hcomplete {} _ (Store.deleteByMetadata_nil_iff.mpr ⟨hnot.1,rfl,.inr rfl,rfl⟩) doc hleft
      hcontains
  · intro hfew server docs' hnil doc hdoc hcontains
    obtain ⟨hfilter,-,-,rfl⟩ := Store.deleteByMetadata_nil_iff.mp hnil
    obtain ⟨hmem,hkey⟩ := mem_filter.mp hdoc
    have hperm := hfinds docs
    have hhit := hperm.symm.subset (mem_filter.mpr ⟨hmem,decide_eq_true hcontains⟩)
    have hall : (s.hits (metadataQuery filter) docs).take 10000=s.hits (metadataQuery filter) docs :=
      take_of_length_le (hperm.length_eq ▸ hfew.resolve_left hfilter)
    refine of_decide_eq_true hkey ?_
    rw [Store.searchKeys,drop_zero,hall]
    exact mem_map_of_mem hhit

def guide : Store := ⟨"docs",fun _ docs => docs.filter (·.metadata.Contains [("source","guide")])⟩
def chunk (n : Nat) : Document := ⟨String.ofList (replicate n 'x'),"",fun _ => some "guide"⟩

theorem deletion_complete_few : guide.Finds [("source","guide")] ∧
    ∀ server docs', guide.deleteByMetadata server [("source","guide")] [chunk 0,chunk 1] =
      (none,docs') → ∀ doc∈docs', ¬ doc.metadata.Contains [("source","guide")] :=
  ⟨fun _ => .refl _,(deletion_complete_iff (fun _ => .refl _) (by decide)).mpr (by decide)⟩

theorem deletion_leaves_chunks : ∃ docs',
    guide.deleteByMetadata {} [("source","guide")] ((range 10001).map chunk)=(none,docs') ∧
      ∃ doc∈docs', doc.metadata.Contains [("source","guide")] := by
  refine ⟨_,Store.deleteByMetadata_nil_iff.mpr ⟨by simp,rfl,.inr rfl,rfl⟩,?_⟩
  apply Store.exists_left fun _ => .refl _
  · rw [map_map]
    exact nodup_range.map fun _ _ h => by simpa [chunk] using congrArg String.length h
  · rw [filter_eq_self.mpr]
    · simp
    · intro doc hdoc
      obtain ⟨n,-,rfl⟩ := mem_map.mp hdoc
      rfl
end
end GudeAgents.Rag.Redis
