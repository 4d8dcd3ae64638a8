import Mathlib.Order.WellFounded
import GudeAgents.Schema.Generate
/-!
# Recursive types

`GoTypeToSchema` follows every reference of a Go type and does not remember where it has been.
-/
namespace GudeAgents.Schema
open Framework GoType
/-- One level of a type as `reflect.Type` shows it. The types it refers to are given by name. -/
inductive Node (ι : Type) where
  | string
  | bool
  | int (kind : IntKind)
  | float
  | slice (elem : ι)
  | array (elem : ι)
  | map (elem : ι)
  | struct (fields : List (FieldInfo×ι))
  | pointer (elem : ι)
  | other

variable {ι : Type}
/-- The loop of `buildObjectSchema`, over a function that gives the schema of a field's type if it
returns. -/
def propertiesOf (schema : ι → Option Fields) (properties : Fields) :
    List (FieldInfo×ι) → Option Fields
  | [] => some properties
  | (f,t)::rest =>
    match f.property with
    | none => propertiesOf schema properties rest
    | some name =>
      match schema t with
      | none => none
      | some prop => propertiesOf schema (assign properties name (.map (f.annotate prop))) rest

/-- `GoTypeToSchema` with at most `fuel` references followed in a row; `none` if it needs more. -/
def schemaOf (types : ι → Node ι) : Nat → ι → Option Fields
  | 0, _ => none
  | fuel+1, t =>
    match types t with
    | .pointer elem => schemaOf types fuel elem
    | .string | .other | .int .uintptr => some [("type",.string "string")]
    | .int _ => some [("type",.string "integer")]
    | .float => some [("type",.string "number")]
    | .bool => some [("type",.string "boolean")]
    | .slice elem | .array elem =>
      (schemaOf types fuel elem).map fun items => [("type",.string "array"),("items",.map items)]
    | .struct fields =>
      (propertiesOf (schemaOf types fuel) [] fields).map fun properties =>
        objectSchema properties
          (fields.filterMap fun f => if f.1.required then f.1.property else none)
    | .map elem =>
      (schemaOf types fuel elem).map fun values =>
        [("type",.string "object"),("additionalProperties",.map values)]

def Node.visited : Node ι → List ι
  | slice elem | array elem | map elem | pointer elem => [elem]
  | struct fields => (fields.filter fun f => f.1.property.isSome).map Prod.snd
  | _ => []

variable {types : ι → Node ι}
theorem isSome_propertiesOf {schema : ι → Option Fields} {fields : List (FieldInfo×ι)}
    (properties : Fields) :
    (propertiesOf schema properties fields).isSome ↔
      ∀ t∈(Node.struct fields).visited, (schema t).isSome := by
  induction fields generalizing properties with
  | nil => simp [propertiesOf,Node.visited]
  | cons field rest ih =>
    obtain ⟨f,t⟩ := field
    simp only [Node.visited] at ih ⊢
    rw [propertiesOf]
    cases hproperty : f.property with
    | none => simp [hproperty,ih]
    | some name =>
      cases hschema : schema t with
      | none => simp [hproperty,hschema]
      | some prop => simp [hproperty,hschema,ih]

variable {fuel : Nat}
theorem isSome_schemaOf {t : ι} : (schemaOf types (fuel+1) t).isSome ↔
      ∀ u∈(types t).visited, (schemaOf types fuel u).isSome := by
  rw [schemaOf]
  cases htype : types t with
  | struct fields =>
    rw [Option.isSome_map]
    exact isSome_propertiesOf []
  | int kind => cases kind <;> simp [Node.visited]
  | _ => simp [Node.visited]

theorem isSome_schemaOf_mono {fuel' : Nat} (hle : fuel≤fuel') {t : ι}
    (h : (schemaOf types fuel t).isSome) : (schemaOf types fuel' t).isSome := by
  induction fuel generalizing fuel' t with
  | zero => cases h
  | succ fuel ih =>
    cases fuel' with
    | zero => cases hle
    | succ fuel' =>
      rw [isSome_schemaOf] at h ⊢
      intro u hu
      exact ih (Nat.le_of_succ_le_succ hle) (h u hu)

theorem acc_of_isSome {t : ι} (h : (schemaOf types fuel t).isSome) :
    Acc (fun u t => u∈(types t).visited) t := by
  induction fuel generalizing t with
  | zero => cases h
  | succ fuel ih =>
    rw [isSome_schemaOf] at h
    exact Acc.intro t fun u hu => ih (h u hu)

theorem exists_fuel {targets : List ι} (h : ∀ u∈targets, ∃ fuel, (schemaOf types fuel u).isSome) :
    ∃ fuel, ∀ u∈targets, (schemaOf types fuel u).isSome := by
  induction targets with
  | nil => exact ⟨0,by simp⟩
  | cons u rest ih =>
    obtain ⟨fuel,hu⟩ := h u List.mem_cons_self
    obtain ⟨fuel',hrest⟩ := ih fun v hv => h v (List.mem_cons_of_mem u hv)
    refine ⟨max fuel fuel',?_⟩
    intro v hv
    rcases List.mem_cons.mp hv with rfl | hv
    · exact isSome_schemaOf_mono (Nat.le_max_left _ _) hu
    · exact isSome_schemaOf_mono (Nat.le_max_right _ _) (hrest v hv)

theorem exists_schema_of_acc {t : ι} (h : Acc (fun u t => u∈(types t).visited) t) :
    ∃ fuel, (schemaOf types fuel t).isSome := by
  induction h with
  | intro t _ ih =>
    obtain ⟨fuel,hall⟩ := exists_fuel ih
    exact ⟨fuel+1,isSome_schemaOf.mpr hall⟩

/-- The generator returns a schema unless an endless path of references starts at the type. -/
theorem generateSchema_terminates_iff (types : ι → Node ι) (t : ι) :
    (∃ fuel schema, schemaOf types fuel t=some schema) ↔
      ¬ ∃ path : Nat → ι, path 0=t ∧ ∀ n, path (n+1)∈(types (path n)).visited := by
  rw [← not_acc_iff_exists_descending_chain (r := fun u t => u∈(types t).visited),not_not]
  simp only [← Option.isSome_iff_exists]
  constructor
  · rintro ⟨fuel,h⟩
    exact acc_of_isSome h
  · exact exists_schema_of_acc

def treeType : Bool → Node Bool
  | false => .struct [({ name := "Children" },true)]
  | true => .slice false

theorem schemaOf_treeType (fuel : Nat) (t : Bool) : schemaOf treeType fuel t=none := by
  induction fuel generalizing t with
  | zero => rfl
  | succ fuel ih =>
    cases t with
    | false => simp [schemaOf,treeType,propertiesOf,FieldInfo.property,ih]
    | true => simp [schemaOf,treeType,ih]

theorem generateSchema_tree_diverges : ¬ ∃ fuel schema, schemaOf treeType fuel false=some schema := by
  simp [schemaOf_treeType]

/-- A type that is written out is one whose parts name themselves. -/
def GoType.node : GoType → Node GoType
  | string => .string
  | bool => .bool
  | int kind => .int kind
  | float => .float
  | slice elem => .slice elem
  | array _ elem => .array elem
  | map elem => .map elem
  | struct fields => .struct fields
  | pointer elem => .pointer elem
  | rawMessage => .slice (.int .uint8)
  | time => .struct []

theorem propertiesOf_node {schema : GoType → Option Fields} {fields : List (FieldInfo×GoType)}
    (h : ∀ f∈fields, schema f.2=some (goTypeToSchema f.2)) (properties : Fields) :
    propertiesOf schema properties fields=some (buildProperties properties fields) := by
  induction fields generalizing properties with
  | nil => simp [propertiesOf,buildProperties]
  | cons field rest ih =>
    obtain ⟨f,t⟩ := field
    have ht := h (f,t) List.mem_cons_self
    have hrest := ih fun g hg => h g (List.mem_cons_of_mem _ hg)
    rw [propertiesOf,buildProperties]
    cases f.property with
    | none => exact hrest properties
    | some name =>
      simp only [ht]
      exact hrest _

end GudeAgents.Schema
