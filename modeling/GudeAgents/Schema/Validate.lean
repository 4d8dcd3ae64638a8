import GudeAgents.Framework.MachineInt
import Mathlib.Data.List.Sort
/-!
# Go values behind `any`

What a schema is written with and what `json.Unmarshal` decodes a payload to, and how the `%v` verb
of `fmt` prints it.
-/
namespace GudeAgents.Schema
open Framework
section
/-- A value of type `any`. A JSON number decodes to a `float64`: `float` if it is integral, otherwise
`fraction` with the text that `%v` prints for it. There is no negative zero. -/
inductive Any where
  | nil
  | bool (b : Bool)
  | float (n : Int)
  | fraction (text : String)
  | int (n : Int)
  | string (s : String)
  | list (items : List Any)
  | strings (items : List String)
  | map (entries : List (String×Any))

/-- A `map[string]any`; the entries stand in the order in which a `range` visits them. -/
abbrev Fields : Type := List (String×Any)

/-- The conversion of an integral `float64` to an `int64`; out of range it gives the least one. -/
def toInt64 (f : Int) : Int := if -2^63≤f ∧ f<2^63 then f else -2^63
def trimZeros (digits : List Char) : List Char :=
  (digits.reverse.dropWhile (· == '0')).reverse

/-- `n` rounded to `p` significant digits, as a number again. -/
def roundDigits (p n : Nat) : Nat :=
  let e := (Nat.toDigits 10 n).length-p
  let q := n / 10^e
  let q := if 10^e≤2*(n % 10^e) then q+1 else q
  q*10^e

/-- The integer whose digits are the shortest that read back as the `float64` `n`. -/
def shortest (n : Nat) : Nat :=
  if n<2^53 then n
  else
    match (List.range 18).find? fun p => roundFloat (roundDigits p n) == n with
    | some p => roundDigits p n
    | none => n

/-- The `g` format of a positive integral `float64`: with an exponent from seven digits on. -/
def formatDigits (n : Nat) : String :=
  let digits := Nat.toDigits 10 n
  let e := digits.length-1
  if e<6 then String.ofList digits
  else
    let mantissa := match trimZeros digits with
      | [] => ""
      | [d] => String.ofList [d]
      | d::rest => String.ofList (d :: '.'::rest)
    let exponent := Nat.toDigits 10 e
    let exponent := if exponent.length<2 then '0'::exponent else exponent
    mantissa++"e+"++String.ofList exponent

def formatFloat (n : Int) : String :=
  (if n<0 then "-" else "")++formatDigits (shortest n.natAbs)
def sortEntries (entries : List (String×String)) : List (String×String) :=
  entries.insertionSort fun a b => a.1<b.1 ∨ a.1=b.1

mutual

/-- `fmt.Sprintf("%v", v)`. -/
def sprint : Any → String
  | .nil => "<nil>"
  | .bool b => if b then "true" else "false"
  | .float n => formatFloat n
  | .fraction text => text
  | .int n => toString n
  | .string s => s
  | .list items => "["++" ".intercalate (sprintItems items)++"]"
  | .strings items => "["++" ".intercalate items++"]"
  | .map entries =>
    "map["++" ".intercalate ((sortEntries (sprintEntries entries)).map fun e => e.1++":"++e.2)++"]"

def sprintItems : List Any → List String
  | [] => []
  | v::rest => sprint v::sprintItems rest
def sprintEntries : List (String×Any) → List (String×String)
  | [] => []
  | (k,v)::rest => (k,sprint v)::sprintEntries rest
end
example : sprint (.list [.float 999999,.float 1000000,.int 1000000]) =
    "[999999 1e+06 1000000]" := by decide
example : sprint (.map [("b",.float 123456789),("a",.nil)]) =
    "map[a:<nil> b:1.23456789e+08]" := by decide
example : toFloat64 (2^63-1)=2^63 := by decide
end
/-!
## Validation of tool input

`ValidateToolInput` of `agent/validate.go`, for a payload that `json.Unmarshal` has decoded. An
error carries what its text is built from.
-/
open List
inductive ValidationError where
  | invalidJSON
  | null (label : String) (types : List String)
  | mismatch (label : String) (expected : String) (value : Any)
  | fractional (label : String) (value : Any)
  | notInEnum (label : String) (value : Any) (values : List Any)
  | missing (fieldPath : String)

def schemaTypes (schema : Fields) : Option (List String) :=
  match schema.lookup "type" with
  | some (.string t) => some [t]
  | some (.list names) =>
    match names.filterMap fun v => match v with
      | .string s => some s
      | _ => none with
    | [] => none
    | types => some types
  | some (.strings []) => none
  | some (.strings types) => some types
  | _ => none

namespace Any
def isString : Any → Bool
  | .string _ => true
  | _ => false

/-- `f == float64(int64(f))`, where the conversion back is exact. -/
def isInteger : Any → Bool
  | .float f => decide (f=toInt64 f)
  | _ => false
def isNumber : Any → Bool
  | .float _ => true
  | .fraction _ => true
  | _ => false
def isBool : Any → Bool
  | .bool _ => true
  | _ => false
def isList : Any → Bool
  | .list _ => true
  | _ => false
def isMap : Any → Bool
  | .map _ => true
  | _ => false
def isNil : Any → Bool
  | .nil => true
  | _ => false
end Any
def typeMatches (schemaType : String) (value : Any) : Bool :=
  match schemaType with
  | "string" => value.isString
  | "integer" => value.isInteger
  | "number" => value.isNumber
  | "boolean" => value.isBool
  | "array" => value.isList
  | "object" => value.isMap
  | "null" => value.isNil
  | _ => true

def checkSingleType (label : String) (value : Any) (schemaType : String) :
    Option ValidationError :=
  if typeMatches schemaType value then none
  else
    match schemaType, value with
    | "integer", .float _ => some (.fractional label value)
    | "integer", .fraction _ => some (.fractional label value)
    | schemaType, value => some (.mismatch label schemaType value)

def checkAny (label : String) (value : Any) (types : List String) : Option ValidationError :=
  let errors := types.map (checkSingleType label value)
  if errors.any Option.isNone then none else errors.getLast?.join
def labelOf (path : String) : String := if path="" then "value" else path
def checkType (types : List String) (value : Any) (path : String) : Option ValidationError :=
  match value with
  | .nil => if "null"∈types then none else some (.null (labelOf path) types)
  | value => checkAny (labelOf path) value types

def checkEnum (schema : Fields) (value : Any) (path : String) : Option ValidationError :=
  match schema.lookup "enum", value with
  | _, .nil => none
  | some (.list values), value =>
    if values.any fun v => sprint v == sprint value then none
    else some (.notInEnum (labelOf path) value values)
  | _, _ => none

def requiredNames (schema : Fields) : List String :=
  match schema.lookup "required" with
  | some (.list names) => names.map fun v => match v with
    | .string s => s
    | _ => ""
  | some (.strings names) => names
  | _ => []

def joinPath (path field : String) : String := if path="" then field else path++"."++field

def checkRequired (schema : Fields) (value : Any) (path : String) : Option ValidationError :=
  match value with
  | .map members =>
    ((requiredNames schema).find? fun field => (members.lookup field).isNone).map fun field =>
      .missing (joinPath path field)
  | _ => none

def checkNode (schema : Fields) (value : Any) (path : String) : Option ValidationError :=
  ((schemaTypes schema).bind fun types => checkType types value path).or
    ((checkEnum schema value path).or (checkRequired schema value path))

mutual

def validateValue (schema : Fields) (path : String) : Any → Option ValidationError
  | .map members =>
    (checkNode schema (.map members) path).or (match schema.lookup "properties" with
        | some (.map properties) => validateMembers properties path members
        | _ => none)
  | .list items =>
    (checkNode schema (.list items) path).or (match schema.lookup "items" with
        | some (.map item) => validateItems item path 0 items
        | _ => none)
  | value => checkNode schema value path

/-- The members that have a subschema, in the order of the value; the code takes the properties
in the random order of a map. -/
def validateMembers (properties : Fields) (path : String) :
    List (String×Any) → Option ValidationError
  | [] => none
  | (name,value)::rest =>
    (match properties.lookup name with
      | some (.map schema) => validateValue schema (joinPath path name) value
      | _ => none).or (validateMembers properties path rest)

def validateItems (item : Fields) (path : String) (i : Nat) :
    List Any → Option ValidationError
  | [] => none
  | value::rest =>
    (validateValue item (path++"["++toString i++"]") value).or (validateItems item path (i+1) rest)
end
/-- The payload is missing when the input is not valid JSON. -/
def validateToolInput (schema : Fields) (input : Option Any) : Option ValidationError :=
  match input with
  | none => some .invalidJSON
  | some payload => validateValue schema "" payload

variable {value : Any}
theorem checkSingleType_eq_none {label schemaType : String} :
    checkSingleType label value schemaType=none ↔ typeMatches schemaType value=true := by
  unfold checkSingleType
  split
  · simp_all
  · rename_i h
    simp only [h,Bool.false_eq_true,iff_false]
    split <;> simp

variable {types : List String}
theorem checkAny_eq_none {label : String} (h : types≠[]) :
    checkAny label value types=none ↔ ∃ t∈types, typeMatches t value=true := by
  unfold checkAny
  by_cases hany : ∃ t∈types, typeMatches t value=true
  · rw [if_pos]
    · exact iff_of_true rfl hany
    · obtain ⟨t,ht,hmatch⟩ := hany
      apply any_eq_true.mpr
      refine ⟨_,mem_map_of_mem ht,?_⟩
      rw [checkSingleType_eq_none.mpr hmatch]
      rfl
  · rw [if_neg]
    · refine iff_of_false ?_ hany
      obtain ⟨last,hlast⟩ := Option.isSome_iff_exists.mp (List.getLast?_isSome.mpr h)
      have hmem := mem_of_getLast? hlast
      rw [List.getLast?_map,hlast]
      intro hnone
      exact hany ⟨last,hmem,checkSingleType_eq_none.mp hnone⟩
    · intro hsome
      obtain ⟨err,hmem,hnone⟩ := any_eq_true.mp hsome
      obtain ⟨t,ht,rfl⟩ := mem_map.mp hmem
      exact hany ⟨t,ht,checkSingleType_eq_none.mp (Option.isNone_iff_eq_none.mp hnone)⟩

def typesMatch (types : List String) : Any → Prop
  | .nil => "null"∈types
  | value => ∃ t∈types, typeMatches t value=true

variable {path : String}
theorem checkType_eq_none (h : types≠[]) :
    checkType types value path=none ↔ typesMatch types value := by
  cases value with
  | nil =>
    unfold checkType
    dsimp only
    split
    · rename_i hmem
      exact iff_of_true rfl hmem
    · rename_i hmem
      exact iff_of_false (by simp) hmem
  | _ => exact checkAny_eq_none h

variable {schema : Fields}
theorem schemaTypes_ne_nil (h : schemaTypes schema=some types) : types≠[] := by
  rintro rfl
  unfold schemaTypes at h
  split at h
  · cases h
  · split at h
    · cases h
    · rename_i hne
      exact hne (Option.some.inj h)
  · cases h
  · rename_i hne _
    cases h
    exact hne rfl
  · cases h

structure NodeAccepts (schema : Fields) (value : Any) : Prop where
  types : ∀ types, schemaTypes schema=some types → typesMatch types value
  enum : ∀ values, schema.lookup "enum"=some (.list values) → value≠.nil →
    ∃ v∈values, sprint v=sprint value
  required : ∀ members, value=.map members → ∀ field∈requiredNames schema,
    (members.lookup field).isSome=true

theorem checkEnum_eq_none : checkEnum schema value path=none ↔
      ∀ values, schema.lookup "enum"=some (.list values) → value≠.nil →
        ∃ v∈values, sprint v=sprint value := by
  unfold checkEnum
  split
  · simp
  · rename_i values hvalues hnil
    constructor
    · intro h values' hvalues' _
      rw [hvalues] at hvalues'
      cases hvalues'
      split at h
      · rename_i hany
        obtain ⟨v,hv,heq⟩ := any_eq_true.mp hany
        exact ⟨v,hv,beq_iff_eq.mp heq⟩
      · cases h
    · intro h
      obtain ⟨v,hv,heq⟩ := h values hvalues hnil
      exact if_pos (any_eq_true.mpr ⟨v,hv,by simpa using heq⟩)
  · rename_i hnot
    refine iff_of_true rfl ?_
    intro values hvalues hne
    exact absurd hvalues (hnot values)

theorem checkRequired_eq_none : checkRequired schema value path=none ↔
      ∀ members, value=.map members → ∀ field∈requiredNames schema,
        (members.lookup field).isSome=true := by
  unfold checkRequired
  split
  · rename_i members
    rw [Option.map_eq_none_iff,List.find?_eq_none]
    constructor
    · intro h members' heq field hfield
      cases heq
      have hsome := h field hfield
      simpa [Option.isSome_iff_ne_none] using hsome
    · intro h field hfield
      have hsome := h members rfl field hfield
      simpa [Option.isSome_iff_ne_none] using hsome
  · rename_i hnot
    refine iff_of_true rfl ?_
    intro members heq
    exact absurd heq (hnot members)

theorem checkNode_eq_none : checkNode schema value path=none ↔ NodeAccepts schema value := by
  unfold checkNode
  rw [Option.or_eq_none_iff,Option.or_eq_none_iff,checkEnum_eq_none,checkRequired_eq_none]
  have htypes : ((schemaTypes schema).bind fun types => checkType types value path)=none ↔
      ∀ types, schemaTypes schema=some types → typesMatch types value := by
    cases h : schemaTypes schema with
    | none => simp
    | some types =>
      rw [Option.bind_some,checkType_eq_none (schemaTypes_ne_nil h)]
      constructor
      · intro hmatch types' heq
        cases heq
        exact hmatch
      · intro hmatch
        exact hmatch types rfl
  rw [htypes]
  constructor
  · rintro ⟨htypes,henum,hrequired⟩
    exact ⟨htypes,henum,hrequired⟩
  · rintro ⟨htypes,henum,hrequired⟩
    exact ⟨htypes,henum,hrequired⟩

def Accepts (schema : Fields) (value : Any) : Prop := validateValue schema "" value=none

mutual

theorem validateValue_eq_none (schema : Fields) (path : String) :
    ∀ value, validateValue schema path value=none ↔ Accepts schema value
  | .map members => by
      unfold Accepts
      rw [validateValue,validateValue,Option.or_eq_none_iff,Option.or_eq_none_iff,checkNode_eq_none,
        checkNode_eq_none]
      apply and_congr_right
      intro _
      split
      · rw [validateMembers_eq_none,validateMembers_eq_none]
      · rfl
  | .list items => by
      unfold Accepts
      rw [validateValue,validateValue,Option.or_eq_none_iff,Option.or_eq_none_iff,checkNode_eq_none,
        checkNode_eq_none]
      apply and_congr_right
      intro _
      split
      · rw [validateItems_eq_none,validateItems_eq_none]
      · rfl
  | .nil | .bool _ | .float _ | .fraction _ | .int _ | .string _ | .strings _ => by
      simp only [Accepts,validateValue,checkNode_eq_none]

theorem validateMembers_eq_none (properties : Fields) (path : String) :
    ∀ members, validateMembers properties path members=none ↔
      ∀ name value, (name,value)∈members → ∀ schema,
        properties.lookup name=some (.map schema) → Accepts schema value
  | [] => by simp [validateMembers]
  | (name,value)::rest => by
      rw [validateMembers,Option.or_eq_none_iff,validateMembers_eq_none properties path rest]
      constructor
      · rintro ⟨hhead,hrest⟩ name' value' hmem schema hschema
        rcases mem_cons.mp hmem with heq | hmem
        · cases heq
          rw [hschema] at hhead
          exact (validateValue_eq_none schema _ value).mp hhead
        · exact hrest name' value' hmem schema hschema
      · intro h
        constructor
        · split
          · rename_i schema hschema
            exact (validateValue_eq_none schema _ value).mpr
              (h name value mem_cons_self schema hschema)
          · rfl
        · intro name' value' hmem
          exact h name' value' (mem_cons_of_mem _ hmem)

theorem validateItems_eq_none (item : Fields) (path : String) :
    ∀ (items : List Any) (i : Nat), validateItems item path i items=none ↔
      ∀ value∈items, Accepts item value
  | [], i => by simp [validateItems]
  | value::rest, i => by
      rw [validateItems,Option.or_eq_none_iff,validateItems_eq_none item path rest,
        validateValue_eq_none item _ value,forall_mem_cons]
end
theorem accepts_map {members : List (String×Any)} :
    Accepts schema (.map members) ↔ NodeAccepts schema (.map members) ∧
      ∀ properties, schema.lookup "properties"=some (.map properties) →
        ∀ name value, (name,value)∈members → ∀ sub,
          properties.lookup name=some (.map sub) → Accepts sub value := by
  unfold Accepts
  rw [validateValue,Option.or_eq_none_iff,checkNode_eq_none]
  apply and_congr_right
  intro _
  split
  · rename_i properties hproperties
    rw [validateMembers_eq_none]
    constructor
    · intro h properties' heq
      rw [hproperties] at heq
      cases heq
      exact h
    · intro h
      exact h properties hproperties
  · rename_i hnot
    refine iff_of_true rfl ?_
    intro properties hproperties
    exact absurd hproperties (hnot properties)

theorem accepts_list {items : List Any} :
    Accepts schema (.list items) ↔ NodeAccepts schema (.list items) ∧
      ∀ item, schema.lookup "items"=some (.map item) → ∀ value∈items, Accepts item value := by
  unfold Accepts
  rw [validateValue,Option.or_eq_none_iff,checkNode_eq_none]
  apply and_congr_right
  intro _
  split
  · rename_i item hitem
    rw [validateItems_eq_none]
    constructor
    · intro h item' heq
      rw [hitem] at heq
      cases heq
      exact h
    · intro h
      exact h item hitem
  · rename_i hnot
    refine iff_of_true rfl ?_
    intro item hitem
    exact absurd hitem (hnot item)

theorem accepts_leaf (hmap : ∀ members, value≠.map members)
    (hlist : ∀ items, value≠.list items) : Accepts schema value ↔ NodeAccepts schema value := by
  cases value with
  | map members => exact absurd rfl (hmap members)
  | list items => exact absurd rfl (hlist items)
  | _ => simp only [Accepts,validateValue,checkNode_eq_none]
end GudeAgents.Schema
