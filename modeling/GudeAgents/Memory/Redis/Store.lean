import GudeAgents.Framework.FiniteMap
import GudeAgents.Memory.Redis.Query
import Mathlib.Algebra.Order.Ring.Rat
import Mathlib.Data.List.Sort
/-!
# The Redis memory store

Model of `Store` in `memory/redis/store.go` over a keyspace of hashes and a RediSearch index. The
identifier is a TAG field. What Redis answers beyond that is a parameter.
-/
namespace GudeAgents.Memory.Redis
open Framework
/-- The value of a struct field: a string, or a value of another kind with its `%v` text and with
what `buildHashFields` writes for it, if it can be encoded. -/
inductive FieldValue where
  | string (text : Text)
  | other (shown : Text) (encoded : Option Text)

def FieldValue.shown : FieldValue → Text
  | .string text => text
  | .other shown _ => shown
def FieldValue.encoded : FieldValue → Option Text
  | .string text => some text
  | .other _ encoded => encoded

/-- `redisSchema`. `FT.CREATE` refuses a schema that names a field twice. -/
structure Schema where
  fields : List FieldInfo
  pkIdx : Option Nat
  identifierIdx : Fin fields.length
  contentIdx : Fin fields.length
  nodup : (fields.map FieldInfo.hashField).Nodup

def Record (schema : Schema) : Type :=
  { values : List FieldValue // values.length=schema.fields.length }

namespace Schema
variable (schema : Schema)
def identField : String := (schema.fields.get schema.identifierIdx).hashField
def setRedisIdentifier (value : Record schema) (identifier : Text) : Record schema :=
  ⟨value.val.set schema.identifierIdx (.string identifier),by
    rw [List.length_set]
    exact value.property⟩
def extractContent (value : Record schema) : Text :=
  (value.val.get (schema.contentIdx.cast value.property.symm)).shown

/-- `extractPK`: the primary key, or a random UUID if there is none or it is empty. -/
def extractPK (value : Record schema) (uuid : Option Text) : Option Text :=
  match schema.pkIdx.bind fun i => value.val[i]? with
  | some pk => if pk.shown≠[] then some pk.shown else uuid
  | none => uuid

def buildHashFields (value : Record schema) : Except String (List (String×Text)) :=
  (schema.fields.zip value.val).mapM fun field =>
    match field.2.encoded with
    | some text => .ok (field.1.hashField,text)
    | none => .error field.1.hashField
end Schema
structure Hash (E : Type) where
  fields : List (String×Text)
  embedding : E

abbrev Keyspace (E : Type) : Type := FiniteMap Text (Hash E)

def hset {E : Type} (db : Keyspace E) (key : Text) (fields : List (String×Text)) (embedding : E) :
    Keyspace E :=
  let old := ((db.lookup key).map Hash.fields).getD []
  db.insert key ⟨fields++old.filter (fun field => field.1∉fields.map Prod.fst),embedding⟩
def isSpace (b : UInt8) : Bool := b=32 ∨ 9≤b ∧ b≤13
def trim (value : Text) : Text := ((value.dropWhile isSpace).reverse.dropWhile isSpace).reverse
/-- The tags of a stored value: its parts between commas, trimmed and with their case folded. -/
def tags (u : Unicode) (value : Text) : List Text :=
  (value.splitOn 44).map fun part => u.fold (trim part)

/-- What Redis answers beyond the model of its tags. -/
structure Engine (E : Type) where
  /-- A stored number lies between two bounds. -/
  inRange : Text → List Char → List Char → Bool
  /-- The nearest of the documents with their similarity, in some order; the index is approximate. -/
  nearest : E → Nat → List (Text×Hash E) → List (Text×ℚ)
  nearest_mem : ∀ query limit docs found, found∈nearest query limit docs →
    found.1∈docs.map Prod.fst

def Clause.holds {E : Type} (u : Unicode) (engine : Engine E) (hash : Hash E) : Clause → Bool
  | .tag negated field tokens =>
    negated != ((readTokens tokens).getD []).any fun token =>
      u.fold (utf8 token)∈((hash.fields.lookup field).map (tags u)).getD []
  | .range negated field low high =>
    negated != ((hash.fields.lookup field).map fun text => engine.inRange text low high).getD false
  | .anyRange ranges =>
    ranges.any fun range => ((hash.fields.lookup range.1).map fun text =>
      engine.inRange text range.2.1 range.2.2).getD false

def matching {E : Type} (u : Unicode) (engine : Engine E) (clauses : List Clause)
    (db : Keyspace E) : List (Text×Hash E) :=
  (db.entries.filter fun e => clauses.all (Clause.holds u engine e.2)).map fun e => (e.1,e.2)

/-- `Store`, with its embedder; an embedding that `validateEmbedding` rejects is a failed one. -/
structure Store (E : Type) where
  schema : Schema
  keyPrefix : Text
  unicode : Unicode
  engine : Engine E
  embed : Text → Option E

inductive StoreError where
  | identifierEmpty
  | idEmpty
  | contentEmpty
  | embedding
  | encodeField (field : String)
  | primaryKey
  | notFound (id : Text)
  | textEmpty
  | limitNegative
  | minSimilarity
  | filter (cause : QueryError)
  | orderClauses (count : Nat)
  | orderField (field : Text)
  | orderDirection (direction : Text)

def base64Alphabet : List Char :=
  "ABCDEFGHIJKLMNOPQRSTUVWXYZabcdefghijklmnopqrstuvwxyz0123456789-_".toList
def base64Symbol (bits : Nat) : Char := base64Alphabet.getD (bits % 64) 'A'

/-- `base64.RawURLEncoding`, without padding. -/
def base64 : List Nat → List Char
  | [] => []
  | [a] => [base64Symbol (a / 4),base64Symbol (a % 4*16)]
  | [a,b] =>
    [base64Symbol (a / 4),base64Symbol (a % 4*16+b / 16),base64Symbol (b % 16*4)]
  | a::b::c::rest =>
    base64Symbol (a / 4)::base64Symbol (a % 4*16+b / 16) ::
      base64Symbol (b % 16*4+c / 64)::base64Symbol (c % 64)::base64 rest

namespace Store
variable {E : Type} (s : Store E)
def entryKey (identifier pk : Text) : Text :=
  s.keyPrefix++text "id:"++utf8 (base64 (identifier.map UInt8.toNat))++text ":"++pk

/-- The part that `Remember` and `Update` share: the value with its identifier is embedded and
encoded. -/
def prepare (identifier : Text) (value : Record s.schema) :
    Except StoreError (Record s.schema×List (String×Text)×E) :=
  let value := s.schema.setRedisIdentifier value identifier
  let content := s.schema.extractContent value
  if content=[] then .error .contentEmpty
  else
    match s.embed content with
    | none => .error .embedding
    | some embedding =>
      match s.schema.buildHashFields value with
      | .error field => .error (.encodeField field)
      | .ok fields => .ok (value,fields,embedding)

def remember (uuid : Option Text) (identifier : Text) (value : Record s.schema)
    (db : Keyspace E) : Except StoreError Text×Keyspace E :=
  if identifier=[] then (.error .identifierEmpty,db)
  else
    match s.prepare identifier value with
    | .error err => (.error err,db)
    | .ok (value,fields,embedding) =>
      match s.schema.extractPK value uuid with
      | none => (.error .primaryKey,db)
      | some pk =>
        let key := s.entryKey identifier pk
        (.ok key,hset db key fields embedding)

def entryOwnedBy (identifier id : Text) (db : Keyspace E) : Bool :=
  (db.lookup id).bind (fun hash => hash.fields.lookup s.schema.identField)=some identifier

def update (identifier id : Text) (value : Record s.schema) (db : Keyspace E) :
    Except StoreError Unit×Keyspace E :=
  if identifier=[] then (.error .identifierEmpty,db)
  else if id=[] then (.error .idEmpty,db)
  else if !s.entryOwnedBy identifier id db then (.error (.notFound id),db)
  else
    match s.prepare identifier value with
    | .error err => (.error err,db)
    | .ok (_,fields,embedding) => (.ok (),hset db id fields embedding)

def forget (identifier id : Text) (db : Keyspace E) : Except StoreError Unit×Keyspace E :=
  if identifier=[] then (.error .identifierEmpty,db)
  else if id=[] then (.error .idEmpty,db)
  else if !s.entryOwnedBy identifier id db then (.error (.notFound id),db)
  else (.ok (),db.erase id)

def collectPagedKeys (pageSize : Nat) (fetch : Nat → Nat → List Text) : Nat → Nat → List Text
  | 0, _ => []
  | fuel+1, offset =>
    let page := fetch offset pageSize
    if page.length<pageSize then page
    else page++collectPagedKeys pageSize fetch fuel (offset+page.length)

def deleteBatches (batch : Nat) : Nat → List Text → Keyspace E → Keyspace E
  | 0, _, db => db
  | fuel+1, keys, db =>
    if keys.length=0 then db
    else deleteBatches batch fuel (keys.drop batch)
      ((keys.take batch).foldl (fun db key => db.erase key) db)

def pageSize : Nat := 1000

def forgetAllPage (identifier : Text) (db : Keyspace E) (offset limit : Nat) : List Text :=
  let query := [identifierClause s.unicode s.schema.identField identifier]
  (((matching s.unicode s.engine query db).map Prod.fst).drop offset).take limit

/-- `ForgetAll`. A keyspace of `n` entries has less than `n + 1` full pages. -/
def forgetAll (identifier : Text) (db : Keyspace E) : Except StoreError Unit×Keyspace E :=
  if identifier=[] then (.error .identifierEmpty,db)
  else
    let keys := collectPagedKeys pageSize (s.forgetAllPage identifier db) (db.entries.length+1) 0
    (.ok (),deleteBatches pageSize (keys.length+1) keys db)

structure Order where
  field : Text
  direction : Text

/-- `RecallQuery`. The minimum similarity is `none` if it is not finite. -/
structure RecallQuery where
  text : Text
  limit : Int
  minSimilarity : Option ℚ
  filters : List Filter
  order : List Order

def validateRecallQuery (query : RecallQuery) : Option StoreError :=
  if query.text=[] then some .textEmpty
  else if query.limit<0 then some .limitNegative
  else
    match query.minSimilarity with
    | none => some .minSimilarity
    | some least => if least≠0 ∧ (least≤0 ∨ 1<least) then some .minSimilarity else none

/-- `compileOrder`: the one numeric field to sort by, ascending or not, if any. -/
def compileOrder (orders : List Order) : Except StoreError (Option (Text×Bool)) :=
  match orders with
  | [] => .ok none
  | [order] =>
    match (schemaField s.schema.fields order.field).map FieldInfo.fieldType with
    | some .numeric =>
      if order.direction=text "asc" then .ok (some (order.field,true))
      else if order.direction=text "desc" then .ok (some (order.field,false))
      else .error (.orderDirection order.direction)
    | _ => .error (.orderField order.field)
  | _ => .error (.orderClauses orders.length)

structure Entry (E : Type) where
  id : Text
  hash : Hash E
  score : ℚ

def recallMatchCount (filterQuery : List Clause) (db : Keyspace E) : Nat :=
  (matching s.unicode s.engine filterQuery db).length

def search (embedding : E) (filterQuery : List Clause) (limit : Nat) (db : Keyspace E) :
    List (Entry E) :=
  (s.engine.nearest embedding limit (matching s.unicode s.engine filterQuery db)).filterMap
    fun found => (db.lookup found.1).map fun hash => ⟨found.1,hash,found.2⟩

/-- `parseResults`: entries below the minimum similarity are dropped, and without an order the
others are sorted by similarity. -/
def parseResults (entries : List (Entry E)) (minSimilarity : ℚ) (sortBySimilarity : Bool) :
    List (Entry E) :=
  let kept := if 0 < minSimilarity then entries.filter fun e => minSimilarity≤e.score else entries
  if sortBySimilarity then kept.insertionSort fun a b => b.score≤a.score else kept

def recallEntries (identifier : Text) (query : RecallQuery) (db : Keyspace E) :
    Except StoreError (List (Entry E)) :=
  if identifier=[] then .error .identifierEmpty
  else
    match validateRecallQuery query with
    | some err => .error err
    | none =>
      match buildRecallFilter s.unicode s.schema.fields s.schema.identField identifier
          query.filters with
      | .error cause => .error (.filter cause)
      | .ok filterQuery =>
        match s.compileOrder query.order with
        | .error err => .error err
        | .ok order =>
          match if query.limit=0 then s.recallMatchCount filterQuery db
              else query.limit.toNat with
          | 0 => .ok []
          | limit =>
            match s.embed query.text with
            | none => .error .embedding
            | some embedding =>
              .ok (parseResults (s.search embedding filterQuery limit db)
                (query.minSimilarity.getD 0) order.isNone)
end Store
end GudeAgents.Memory.Redis
