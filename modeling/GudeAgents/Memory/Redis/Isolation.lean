import GudeAgents.Memory.Redis.Store
/-!
# Isolation of tenants in the Redis memory store

A recall or a removal reaches the entries whose stored identifier has the given one among its tags.
-/
namespace GudeAgents.Memory.Redis
open Framework List
variable {E : Type}
/-- The runes of `i` make up a tag of `j`. -/
def Confusable (u : Unicode) (i j : Text) : Prop :=
  u.fold (utf8 (runes i))∈tags u j

instance (u : Unicode) (i j : Text) : Decidable (Confusable u i j) :=
  inferInstanceAs (Decidable (_∈_))

private theorem lookup_mapM_encoded {fields : List FieldInfo} {values : List FieldValue} {i : Nat}
    {field : FieldInfo} {text : Text} {built : List (String×Text)}
    (hnodup : (fields.map FieldInfo.hashField).Nodup) (hfield : fields[i]?=some field)
    (hvalue : values[i]?=some (.string text))
    (h : (fields.zip values).mapM (fun field => match field.2.encoded with
      | some text => Except.ok (field.1.hashField,text)
      | none => Except.error field.1.hashField)=.ok built) :
    built.lookup field.hashField=some text := by
  induction fields generalizing values i built with
  | nil => simp at hfield
  | cons head fields ih =>
    cases values with
    | nil => simp at hvalue
    | cons value values =>
      rw [map_cons,nodup_cons] at hnodup
      rw [zip_cons_cons,mapM_cons] at h
      cases hencoded : value.encoded with
      | none => simp [hencoded,bind,Except.bind] at h
      | some encoded =>
        cases hrest : (fields.zip values).mapM (fun field => match field.2.encoded with
            | some text => Except.ok (field.1.hashField,text)
            | none => Except.error field.1.hashField) with
        | error name => simp [hencoded,hrest,bind,Except.bind] at h
        | ok rest =>
          simp only [hencoded,hrest,bind,Except.bind,pure,Except.pure,Except.ok.injEq] at h
          subst h
          cases i with
          | zero =>
            simp only [List.getElem?_cons_zero,Option.some.injEq] at hfield hvalue
            subst hfield hvalue
            rw [lookup_cons_self]
            exact hencoded.symm
          | succ i =>
            have hne : field.hashField≠head.hashField := by
              intro hsame
              exact hnodup.1 (hsame ▸ mem_map_of_mem (mem_of_getElem? hfield))
            rw [lookup_cons,beq_false_of_ne hne]
            exact ih hnodup.2 hfield hvalue hrest

variable {identifier : Text} {fields : List (String×Text)}
theorem Schema.lookup_identField {schema : Schema} {value : Record schema}
    (h : schema.buildHashFields (schema.setRedisIdentifier value identifier)=.ok fields) :
    fields.lookup schema.identField=some identifier := by
  have hlt : schema.identifierIdx.val<value.val.length := by
    rw [value.property]
    exact schema.identifierIdx.isLt
  exact lookup_mapM_encoded schema.nodup (List.getElem?_eq_getElem schema.identifierIdx.isLt)
    (List.getElem?_set_self hlt) h

namespace Store
variable {s : Store E}
def owner (s : Store E) (db : Keyspace E) (key : Text) : Option Text :=
  (db.lookup key).bind fun hash => hash.fields.lookup s.schema.identField

private theorem prepare_ok {value value' : Record s.schema} {embedding : E}
    (h : s.prepare identifier value=.ok (value',fields,embedding)) :
    fields.lookup s.schema.identField=some identifier := by
  rw [prepare] at h
  by_cases hcontent : s.schema.extractContent (s.schema.setRedisIdentifier value identifier)=[]
  · simp [hcontent] at h
  · simp only [hcontent,if_false] at h
    cases hembed : s.embed (s.schema.extractContent
        (s.schema.setRedisIdentifier value identifier)) with
    | none => simp [hembed] at h
    | some e =>
      cases hbuilt : s.schema.buildHashFields (s.schema.setRedisIdentifier value identifier) with
      | error field => simp [hembed,hbuilt] at h
      | ok built =>
        simp only [hembed,hbuilt,Except.ok.injEq,Prod.mk.injEq] at h
        obtain ⟨-,rfl,-⟩ := h
        exact Schema.lookup_identField hbuilt

variable {db : Keyspace E}
private theorem owner_hset {key : Text} {embedding : E}
    (h : fields.lookup s.schema.identField=some identifier) :
    s.owner (hset db key fields embedding)=Function.update (s.owner db) key (some identifier) := by
  funext other
  by_cases hkey : other=key
  · subst hkey
    simp [owner,hset,lookup_append,h]
  · simp [owner,hset,AList.lookup_insert_ne hkey,hkey]

/-- The histories of a store: the keyspace, and for every entry the identifier under which it was
remembered or updated last. -/
inductive Run (s : Store E) : Keyspace E → (Text → Option Text) → Prop where
  | new : Run s ∅ fun _ => none
  | remember {db db' : Keyspace E} {author : Text → Option Text} (before : Run s db author)
      {uuid : Option Text} {identifier key : Text} {value : Record s.schema}
      (done : s.remember uuid identifier value db=(.ok key,db')) :
      Run s db' (Function.update author key (some identifier))
  | update {db db' : Keyspace E} {author : Text → Option Text} (before : Run s db author)
      {identifier id : Text} {value : Record s.schema}
      (done : s.update identifier id value db=(.ok (),db')) :
      Run s db' (Function.update author id (some identifier))
  | forget {db db' : Keyspace E} {author : Text → Option Text} (before : Run s db author)
      {identifier id : Text} (done : s.forget identifier id db=(.ok (),db')) :
      Run s db' (Function.update author id none)

theorem Run.owner_eq {author : Text → Option Text} (h : Run s db author) : s.owner db=author := by
  induction h with
  | new => rfl
  | @remember db db' author before uuid identifier key value done ih =>
    rw [Store.remember] at done
    split at done
    · cases done
    · split at done
      · cases done
      · rename_i value' fields embedding hprepare
        split at done
        · cases done
        · cases done
          rw [owner_hset (prepare_ok hprepare),ih]
  | @update db db' author before identifier id value done ih =>
    rw [Store.update] at done
    split at done
    · cases done
    · split at done
      · cases done
      · split at done
        · cases done
        · split at done
          · cases done
          · rename_i value' fields embedding hprepare
            cases done
            rw [owner_hset (prepare_ok hprepare),ih]
  | @forget db db' author before identifier id done ih =>
    rw [Store.forget] at done
    split at done
    · cases done
    · split at done
      · cases done
      · split at done
        · cases done
        · cases done
          funext key
          by_cases hkey : key=id
          · subst hkey
            simp [owner]
          · rw [Function.update_of_ne hkey,← ih]
            simp [owner,AList.lookup_erase_ne hkey]

theorem holds_identifierClause {u : Unicode} {engine : Engine E} {field : String} {hash : Hash E} :
    (identifierClause u field identifier).holds u engine hash=true ↔
      ∃ stored, hash.fields.lookup field=some stored ∧ Confusable u identifier stored := by
  rw [identifierClause,Clause.holds,readTokens_escapeTag]
  cases hash.fields.lookup field <;> simp [Confusable]

theorem mem_matching_identifier {u : Unicode} {engine : Engine E} {field : String} {key : Text}
    {rest : List Clause}
    (h : key∈(matching u engine (identifierClause u field identifier::rest) db).map Prod.fst) :
    ∃ hash stored, db.lookup key=some hash ∧ hash.fields.lookup field=some stored ∧
      Confusable u identifier stored := by
  obtain ⟨doc,hdoc,rfl⟩ := mem_map.mp h
  obtain ⟨e,he,rfl⟩ := mem_map.mp hdoc
  obtain ⟨hmem,hholds⟩ := mem_filter.mp he
  simp only [all_cons,Bool.and_eq_true] at hholds
  obtain ⟨stored,hstored,hconf⟩ := holds_identifierClause.mp hholds.1
  exact ⟨e.2,stored,FiniteMap.mem_entries_iff.mp hmem,hstored,hconf⟩

private theorem mem_matching_of_confusable {u : Unicode} {engine : Engine E} {field : String}
    {stored key : Text} {hash : Hash E} (hlookup : db.lookup key=some hash)
    (hstored : hash.fields.lookup field=some stored) (h : Confusable u identifier stored) :
    key∈(matching u engine [identifierClause u field identifier] db).map Prod.fst := by
  refine mem_map.mpr ⟨(key,hash),mem_map.mpr ⟨⟨key,hash⟩,?_,rfl⟩,rfl⟩
  refine mem_filter.mpr ⟨FiniteMap.mem_entries_iff.mpr hlookup,?_⟩
  simpa using holds_identifierClause.mpr ⟨stored,hstored,h⟩

private theorem collectPagedKeys_eq (keys : List Text) {pageSize : Nat} (hsize : 0<pageSize)
    {fuel offset : Nat} (hfuel : keys.length<fuel+offset) :
    collectPagedKeys pageSize (fun offset limit => (keys.drop offset).take limit) fuel offset =
      keys.drop offset := by
  induction fuel generalizing offset with
  | zero =>
    rw [drop_eq_nil_of_le (by omega)]
    rfl
  | succ fuel ih =>
    rw [collectPagedKeys]
    by_cases hshort : (((keys.drop offset).take pageSize).length<pageSize)
    · rw [if_pos hshort]
      apply take_of_length_le
      rw [length_take] at hshort
      omega
    · have hfull : ((keys.drop offset).take pageSize).length=pageSize := by
        rw [length_take] at hshort ⊢
        omega
      rw [if_neg hshort,hfull,ih (by omega),← drop_drop,take_append_drop]

theorem lookup_deleteBatches {batch : Nat} (hbatch : 0<batch) {fuel : Nat} {keys : List Text}
    (hfuel : keys.length<fuel) (db : Keyspace E) (key : Text) :
    (deleteBatches batch fuel keys db).lookup key=if key∈keys then none else db.lookup key := by
  induction fuel generalizing keys db with
  | zero => omega
  | succ fuel ih =>
    rw [deleteBatches]
    by_cases hempty : keys.length=0
    · rw [if_pos hempty,length_eq_zero_iff.mp hempty,if_neg not_mem_nil]
    · have hshorter : (keys.drop batch).length<fuel := by
        rw [length_drop]
        omega
      rw [if_neg hempty,ih hshorter,FiniteMap.lookup_eraseAll]
      have hsplit : key∈keys ↔ key∈keys.take batch ∨ key∈keys.drop batch := by
        rw [← mem_append,take_append_drop]
      by_cases hlater : key∈keys.drop batch
      · rw [if_pos hlater,if_pos (hsplit.mpr (Or.inr hlater))]
      · rw [if_neg hlater]
        by_cases hnow : key∈keys.take batch
        · rw [if_pos hnow,if_pos (hsplit.mpr (Or.inl hnow))]
        · rw [if_neg hnow,if_neg fun h => (hsplit.mp h).elim hnow hlater]

private theorem lookup_forgetAll {i : Text} (hi : i≠[]) (db : Keyspace E) (key : Text) :
    (s.forgetAll i db).2.lookup key =
      if key∈(matching s.unicode s.engine
        [identifierClause s.unicode s.schema.identField i] db).map Prod.fst
      then none else db.lookup key := by
  let keys := (matching s.unicode s.engine
    [identifierClause s.unicode s.schema.identField i] db).map Prod.fst
  have hlength : keys.length≤db.entries.length := by
    simp only [keys,matching,length_map]
    exact length_filter_le _ _
  have hkeys : collectPagedKeys pageSize (s.forgetAllPage i db) (db.entries.length+1) 0 =
      keys := by
    have hall := collectPagedKeys_eq keys (show 0<pageSize by decide)
      (show keys.length<db.entries.length+1+0 by omega)
    exact hall.trans drop_zero
  rw [forgetAll,if_neg hi]
  simp only [hkeys]
  exact lookup_deleteBatches (by decide) (Nat.lt_succ_self _) db key

theorem mem_of_mem_parseResults {entries : List (Entry E)} {least : ℚ} {sorted : Bool} {e : Entry E}
    (h : e∈parseResults entries least sorted) : e∈entries := by
  rw [parseResults] at h
  split_ifs at h
  · exact (mem_filter.mp ((mem_insertionSort _).mp h)).1
  · exact (mem_insertionSort _).mp h
  · exact (mem_filter.mp h).1
  · exact h

private theorem mem_recall {i : Text} {query : RecallQuery} {entries : List (Entry E)}
    (h : s.recallEntries i query db=.ok entries) {e : Entry E} (he : e∈entries) :
    ∃ stored, s.owner db e.id=some stored ∧ Confusable s.unicode i stored := by
  rw [recallEntries] at h
  split at h
  · cases h
  · split at h
    · cases h
    · split at h
      · cases h
      · rename_i filterQuery hfilter
        obtain ⟨rest,rfl⟩ : ∃ rest, identifierClause s.unicode s.schema.identField i::rest =
            filterQuery := by
          rw [buildRecallFilter] at hfilter
          cases hrest : query.filters.mapM (compileFilter s.unicode s.schema.fields) with
          | error cause => simp [hrest,Except.map] at hfilter
          | ok rest => exact ⟨rest,by simpa [hrest,Except.map] using hfilter⟩
        split at h
        · cases h
        · split at h
          · cases h
            cases he
          · split at h
            · cases h
            · cases h
              obtain ⟨found,hnear,hentry⟩ := mem_filterMap.mp (mem_of_mem_parseResults he)
              obtain ⟨hash,-,rfl⟩ := Option.map_eq_some_iff.mp hentry
              have hmatch := s.engine.nearest_mem _ _ _ found hnear
              obtain ⟨hash',stored,hlookup,hstored,hconf⟩ := mem_matching_identifier hmatch
              exact ⟨stored,by simp [owner,hlookup,hstored],hconf⟩

/-- No call for one identifier sees or removes an entry of the other. -/
def Isolates (s : Store E) (db : Keyspace E) (author : Text → Option Text) (i j : Text) : Prop :=
  (∀ query entries, s.recallEntries i query db=.ok entries → ∀ e∈entries, author e.id≠some j) ∧
    ∀ key, author key=some j → (s.forgetAll i db).2.lookup key=db.lookup key

end Store
def ascii : Unicode where
  isLetter := Char.isAlpha
  isDigit := Char.isDigit
  fold := map fun b => if 65≤b ∧ b≤90 then b+32 else b
  isAlphanum_of_ascii := by
    intro c _ h
    exact h

def notes : Schema where
  fields := [⟨"user",.tag⟩,⟨"text",.text⟩,⟨"id",.tag⟩]
  pkIdx := some 2
  identifierIdx := ⟨0,by decide⟩
  contentIdx := ⟨1,by decide⟩
  nodup := by decide

def exhaustive : Engine Unit where
  inRange := fun _ _ _ => false
  nearest := fun _ _ docs => docs.map fun doc => (doc.1,1)
  nearest_mem := by
    intro query limit docs found hfound
    obtain ⟨doc,hdoc,rfl⟩ := mem_map.mp hfound
    exact mem_map_of_mem hdoc

def noteStore : Store Unit where
  schema := notes
  keyPrefix := text "note:"
  unicode := ascii
  engine := exhaustive
  embed := fun _ => some ()

def note : Record noteStore.schema :=
  ⟨[.string [],.string (text "hello"),.string (text "n")],rfl⟩
def afterNote (user : Text) : Keyspace Unit :=
  (noteStore.remember none user note ∅).2
def noteKey (user : Text) : Text := noteStore.entryKey user (text "n")
def noteAuthor (user : Text) : Text → Option Text :=
  Function.update (fun _ => none) (noteKey user) (some user)
def anyNote : Store.RecallQuery :=
  ⟨text "hello",0,some 0,[],[]⟩

private theorem run_afterNote {user : Text}
    (h : noteStore.remember none user note ∅=(.ok (noteKey user),afterNote user)) :
    noteStore.Run (afterNote user) (noteAuthor user) :=
  .remember .new h
/-- A recall of `i` finds the entry of `j`, and it is gone after a removal for `i`. -/
def Reaches (i j : Text) : Prop :=
  noteStore.Run (afterNote j) (noteAuthor j) ∧
    ((noteStore.recallEntries i anyNote (afterNote j)).toOption.getD []).map Store.Entry.id =
      [noteKey j] ∧
    (noteStore.forgetAll i (afterNote j)).2.lookup (noteKey j)=none

end GudeAgents.Memory.Redis
