import GudeAgents.Framework.FiniteMap
import GudeAgents.Schema.Validate
/-!
# Generated schemas and encoded values

`GenerateSchema` of `agent/tool/tool.go` on Go types, and values as `encoding/json` encodes them.
-/
namespace GudeAgents.Schema
open Framework
inductive IntKind where
  | int | int8 | int16 | int32 | int64
  | uint | uint8 | uint16 | uint32 | uint64 | uintptr
  deriving DecidableEq, Repr

def IntKind.bounds : IntKind → Int×Int
  | .int | .int64 => (-2^63,2^63-1)
  | .int8 => (-2^7,2^7-1)
  | .int16 => (-2^15,2^15-1)
  | .int32 => (-2^31,2^31-1)
  | .uint | .uint64 | .uintptr => (0,2^64-1)
  | .uint8 => (0,2^8-1)
  | .uint16 => (0,2^16-1)
  | .uint32 => (0,2^32-1)

/-- A struct field without its type. A `json` tag is given by its parts between commas: the name
and the options; an `enum` tag by its trimmed parts. -/
structure FieldInfo where
  name : String
  exported : Bool := true
  embedded : Bool := false
  json : Option (String×List String) := none
  description : String := ""
  enum : List String := []
  required : Bool := false
  deriving DecidableEq, Repr

inductive GoType where
  | string
  | bool
  | int (kind : IntKind)
  | float
  | slice (elem : GoType)
  | array (length : Nat) (elem : GoType)
  | map (elem : GoType)
  | struct (fields : List (FieldInfo×GoType))
  | pointer (elem : GoType)
  | rawMessage
  | time

/-- A value without nil pointers, slices and maps. A raw message is given by the payload it decodes
to, a time by its text and whether it is the zero time. -/
inductive GoValue where
  | string (s : String)
  | bool (b : Bool)
  | int (n : Int)
  | float (n : Int)
  | fraction (text : String)
  | list (items : List GoValue)
  | map (entries : List (String×GoValue))
  | struct (values : List GoValue)
  | pointer (value : GoValue)
  | raw (payload : Any)
  | time (text : String) (zero : Bool)

mutual

/-- The values of a Go type. -/
def HasType : GoType → GoValue → Prop
  | .string, .string _ => True
  | .bool, .bool _ => True
  | .int kind, .int n => kind.bounds.1≤n ∧ n≤kind.bounds.2
  | .float, .float _ => True
  | .float, .fraction _ => True
  | .slice elem, .list items => ∀ v∈items, HasType elem v
  | .array length elem, .list items => items.length=length ∧ ∀ v∈items, HasType elem v
  | .map elem, .map entries => (entries.map Prod.fst).Nodup ∧ ∀ e∈entries, HasType elem e.2
  | .struct fields, .struct values => HaveTypes fields values
  | .pointer elem, .pointer value => HasType elem value
  | .rawMessage, .raw _ => True
  | .time, .time _ _ => True
  | _, _ => False

def HaveTypes : List (FieldInfo×GoType) → List GoValue → Prop
  | [], [] => True
  | (_,t)::fields, v::values => HasType t v ∧ HaveTypes fields values
  | _, _ => False
end
def FieldInfo.property (f : FieldInfo) : Option String :=
  if !f.exported then none
  else
    match f.json with
    | none => some f.name
    | some (name,_) =>
      if name="-" then none else if name="" then some f.name else some name

def FieldInfo.annotate (f : FieldInfo) (prop : Fields) : Fields :=
  let prop := if f.description≠"" then assign prop "description" (.string f.description) else prop
  if f.enum≠[] then assign prop "enum" (.list (f.enum.map .string)) else prop
def requiredFields (fields : List (FieldInfo×GoType)) : List String :=
  fields.filterMap fun f => if f.1.required then f.1.property else none
def objectSchema (properties : Fields) (required : List String) : Fields :=
  let schema : Fields := [("type",.string "object"),("properties",.map properties)]
  if required≠[] then assign schema "required" (.strings required) else schema

mutual

/-- A raw message is a slice of bytes and a time is a struct without exported fields. -/
def goTypeToSchema : GoType → Fields
  | .pointer elem => goTypeToSchema elem
  | .string => [("type",.string "string")]
  | .int .uintptr => [("type",.string "string")]
  | .int _ => [("type",.string "integer")]
  | .float => [("type",.string "number")]
  | .bool => [("type",.string "boolean")]
  | .slice elem => [("type",.string "array"),("items",.map (goTypeToSchema elem))]
  | .array _ elem => [("type",.string "array"),("items",.map (goTypeToSchema elem))]
  | .struct fields => objectSchema (buildProperties [] fields) (requiredFields fields)
  | .map elem => [("type",.string "object"),("additionalProperties",.map (goTypeToSchema elem))]
  | .rawMessage =>
    [("type",.string "array"),("items",.map [("type",.string "integer")])]
  | .time => objectSchema [] []

def buildProperties (properties : Fields) : List (FieldInfo×GoType) → Fields
  | [] => properties
  | (f,t)::rest =>
    match f.property with
    | none => buildProperties properties rest
    | some name => buildProperties (assign properties name (.map (f.annotate (goTypeToSchema t)))) rest
end
/-- The schema of a struct is built in the same way at the top and below. -/
def generateSchema (t : GoType) : Fields := goTypeToSchema t
def base64Digit (n : Nat) : Char :=
  "ABCDEFGHIJKLMNOPQRSTUVWXYZabcdefghijklmnopqrstuvwxyz0123456789+/".toList.getD n '='

def base64 : List Nat → List Char
  | [] => []
  | [a] => [base64Digit (a / 4),base64Digit (a % 4*16), '=', '=']
  | [a,b] =>
    [base64Digit (a / 4),base64Digit (a % 4*16+b / 16),base64Digit (b % 16*4), '=']
  | a::b::c::rest =>
    base64Digit (a / 4)::base64Digit (a % 4*16+b / 16) ::
      base64Digit (b % 16*4+c / 64)::base64Digit (c % 64)::base64 rest

def byteOf : GoValue → Nat
  | .int n => n.toNat
  | _ => 0

/-- A tag name the encoder honours; letters and digits beyond ASCII are not told apart. -/
def isValidTag (name : String) : Bool :=
  name≠"" && name.toList.all fun c =>
    "!#$%&()*+-./:;<=>?@[]^_\x7b|\x7d~ ".toList.contains c || c.isAlphanum || decide (127<c.toNat)

namespace FieldInfo
def tagName (f : FieldInfo) : Option String :=
  f.json.bind fun tag => if isValidTag tag.1 then some tag.1 else none
def options (f : FieldInfo) : List String := (f.json.map Prod.snd).getD []
end FieldInfo
namespace GoType
def deref : GoType → GoType
  | .pointer elem => elem
  | t => t
def isStruct : GoType → Bool
  | .struct _ => true
  | .time => true
  | _ => false
def quotable : GoType → Bool
  | .string | .bool | .int _ | .float => true
  | _ => false
end GoType
namespace FieldInfo
def ignored (f : FieldInfo) (t : GoType) : Bool :=
  (!f.exported && !(f.embedded && t.deref.isStruct)) || f.json=some ("-",[])
def flattened (f : FieldInfo) (t : GoType) : Bool :=
  f.embedded && f.tagName.isNone && t.deref.isStruct
def quoted (f : FieldInfo) (t : GoType) : Bool :=
  f.options.contains "string" && t.deref.quotable
end FieldInfo
def quotedText : GoValue → String
  | .pointer v => quotedText v
  | .string s => "\""++s++"\""
  | .bool b => if b then "true" else "false"
  | .int n => toString n
  | .float n => formatFloat n
  | .fraction text => text
  | _ => ""

def isEmptyValue : GoValue → Bool
  | .string s => s=""
  | .bool b => !b
  | .int n => n=0
  | .float n => n=0
  | .list items => items.isEmpty
  | .map entries => entries.isEmpty
  | _ => false

mutual

def isZero : GoType → GoValue → Bool
  | .string, .string s => s=""
  | .bool, .bool b => !b
  | .int _, .int n => n=0
  | .float, .float n => n=0
  | .array _ elem, .list items => items.all fun v => isZero elem v
  | .struct fields, .struct values => areZero fields values
  | .time, .time _ zero => zero
  | _, _ => false

def areZero : List (FieldInfo×GoType) → List GoValue → Bool
  | (_,t)::fields, v::values => isZero t v && areZero fields values
  | _, _ => true
end
mutual

/-- What a selector finds in a value, with its depth: a value that has the method, or a field. -/
def selectIn (name : String) (depth : Nat) : GoType → GoValue → List (Nat×Option GoValue)
  | .time, v | .pointer .time, .pointer v =>
    if name∈["MarshalJSON","MarshalText","IsZero"] then [(depth,some v)] else []
  | .rawMessage, v | .pointer .rawMessage, .pointer v =>
    if name="MarshalJSON" then [(depth,some v)] else []
  | .struct fields, .struct values | .pointer (.struct fields), .pointer (.struct values) =>
    select name depth fields values
  | _, _ => []

def select (name : String) (depth : Nat) :
    List (FieldInfo×GoType) → List GoValue → List (Nat×Option GoValue)
  | (f,t)::fields, v::values =>
    (if f.name=name then [(depth,none)] else []) ++
      (if f.embedded then selectIn name (depth+1) t v else [])++select name depth fields values
  | _, _ => []
end
/-- The time or raw message whose method a value has: its own, or one promoted from an embedded
field, the only one of the name at the least depth. -/
def method (name : String) (t : GoType) (v : GoValue) : Option GoValue :=
  let found := selectIn name 0 t v
  match found.filter fun x => found.all fun y => decide (x.1≤y.1) with
  | [(_,some v)] => some v
  | _ => none
def marshaler (t : GoType) (v : GoValue) : Option GoValue :=
  method "MarshalJSON" t v <|> method "MarshalText" t v
def marshaled : GoValue → Any
  | .raw payload => payload
  | .time text _ => .string text
  | _ => .nil

def FieldInfo.omitted (f : FieldInfo) (t : GoType) (v : GoValue) : Bool :=
  (f.options.contains "omitempty" && isEmptyValue v) || (f.options.contains "omitzero" &&
    match method "IsZero" t v with
    | some (.time _ zero) => zero
    | _ => isZero t v)

/-- A field that may be encoded, at its path through embedded structs. -/
structure Candidate where
  index : List Nat
  name : String
  tagged : Bool
  omitted : Bool
  json : Any

namespace Candidate
def rank (c : Candidate) : Nat := 2*c.index.length+if c.tagged then 0 else 1
def dominant (cs : List Candidate) (c : Candidate) : Bool :=
  (cs.filter fun c' => c'.name=c.name ∧ c'.rank≤c.rank).length=1
def emitted (cs : List Candidate) (c : Candidate) : Bool := dominant cs c && !c.omitted
end Candidate
def members (cs : List Candidate) : List (String×Any) :=
  (cs.filter (Candidate.emitted cs)).map fun c => (c.name,c.json)

mutual

def encode : GoType → GoValue → Any
  | .string, .string s => .string s
  | .bool, .bool b => .bool b
  | .int _, .int n => .float (toFloat64 n)
  | .float, .float n => .float n
  | .float, .fraction text => .fraction text
  | .slice (.int .uint8), .list items => .string (String.ofList (base64 (items.map byteOf)))
  | .slice elem, .list items => .list (items.map fun v => encode elem v)
  | .array _ elem, .list items => .list (items.map fun v => encode elem v)
  | .map elem, .map entries => .map (entries.map fun e => (e.1,encode elem e.2))
  | .struct fields, .struct values =>
    match marshaler (.struct fields) (.struct values) with
    | some v => marshaled v
    | none => .map (members (candidates [] 0 fields values))
  | .pointer elem, .pointer value => encode elem value
  | .rawMessage, .raw payload => payload
  | .time, .time text _ => .string text
  | _, _ => .nil

def candidates (path : List Nat) (i : Nat) :
    List (FieldInfo×GoType) → List GoValue → List Candidate
  | (f,t)::fields, v::values =>
    (if f.ignored t then []
      else if f.flattened t then promoted (path++[i]) t v
      else
        [{ index := path++[i]
           name := f.tagName.getD f.name
           tagged := f.tagName.isSome
           omitted := f.omitted t v
           json := if f.quoted t then .string (quotedText v) else encode t v }]) ++
      candidates path (i+1) fields values
  | _, _ => []

def promoted (path : List Nat) : GoType → GoValue → List Candidate
  | .struct fields, .struct values => candidates path 0 fields values
  | .pointer (.struct fields), .pointer (.struct values) => candidates path 0 fields values
  | _, _ => []
end
def marshal (t : GoType) (v : GoValue) : Option Any := some (encode t v)
end GudeAgents.Schema
