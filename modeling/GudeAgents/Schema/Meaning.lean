import GudeAgents.Framework.FiniteMap
import GudeAgents.Framework.Runs
import GudeAgents.Schema.Validate
/-!
# The meaning of a schema

The five keywords as JSON Schema reads them, and where the validator reads them otherwise.
-/
namespace GudeAgents.Schema
open Framework List Any
/-- What `json.Unmarshal` makes of a payload whose numbers are integers below `2 ^ 53`. -/
inductive Json : Any → Prop where
  | nil : Json .nil
  | bool (b : Bool) : Json (.bool b)
  | float {n : Int} (exact : n.natAbs<2^53) : Json (.float n)
  | string (s : String) : Json (.string s)
  | list {items : List Any} (parts : ∀ v∈items, Json v) : Json (.list items)
  | map {members : List (String×Any)} (unique : (members.map Prod.fst).Nodup)
      (parts : ∀ name v, (name,v)∈members → Json v) : Json (.map members)

def elements : Any → Option (List Any)
  | .list items => some items
  | .strings items => some (items.map .string)
  | _ => none

mutual

/-- The same JSON value; a Go integer and a float are the same number. -/
def Same : Any → Any → Prop
  | .nil, v => v=.nil
  | .bool b, v => v=.bool b
  | .float n, v => v=.float n ∨ v=.int n
  | .int n, v => v=.float n ∨ v=.int n
  | .fraction text, v => v=.fraction text
  | .string s, v => v=.string s
  | .list items, v => ∃ others, elements v=some others ∧ SameItems items others
  | .strings items, v => elements v=some (items.map .string)
  | .map entries, v =>
    ∃ others, v=.map others ∧ others.length=entries.length ∧ SameEntries entries others

def SameItems : List Any → List Any → Prop
  | [], others => others=[]
  | v::rest, others => ∃ w more, others=w::more ∧ Same v w ∧ SameItems rest more
def SameEntries : List (String×Any) → List (String×Any) → Prop
  | [], _ => True
  | (key,v)::rest, others =>
    (∃ w, others.lookup key=some w ∧ Same v w) ∧ SameEntries rest others
end
def jsonTypes : Any → List String
  | .nil => ["null"]
  | .bool _ => ["boolean"]
  | .float _ => ["integer","number"]
  | .fraction _ => ["number"]
  | .string _ => ["string"]
  | .list _ => ["array"]
  | .map _ => ["object"]
  | _ => []

def knownTypes : List String :=
  ["string","integer","number","boolean","array","object","null"]
def stringOf : Any → Option String
  | .string s => some s
  | _ => none

def typeNames (schema : Fields) : Option (List String) :=
  match schema.lookup "type" with
  | some (.string t) => some [t]
  | some (.list names) => some (names.filterMap stringOf)
  | some (.strings names) => some names
  | _ => none

def enumValues (schema : Fields) : Option (List Any) := (schema.lookup "enum").bind elements

/-- A node of the value meets `type`, `enum` and `required`. -/
structure NodeSatisfies (schema : Fields) (value : Any) : Prop where
  types : ∀ names, typeNames schema=some names → ∃ t∈jsonTypes value, t∈names
  enum : ∀ values, enumValues schema=some values → ∃ v∈values, Same v value
  required : ∀ members, value=.map members → ∀ field∈requiredNames schema,
    (members.lookup field).isSome=true

/-- The schema and the value of a property that is present, or of an item. -/
inductive Below : Fields×Any → Fields×Any → Prop where
  | property {schema properties sub : Fields} {members : List (String×Any)} {name : String}
      {value : Any} (described : schema.lookup "properties"=some (.map properties))
      (found : properties.lookup name=some (.map sub))
      (present : members.lookup name=some value) : Below (schema,.map members) (sub,value)
  | item {schema sub : Fields} {items : List Any} {value : Any}
      (described : schema.lookup "items"=some (.map sub)) (present : value∈items) :
      Below (schema,.list items) (sub,value)

/-- A value satisfies a schema: its own keywords, and everything below. -/
inductive Satisfies : Fields → Any → Prop where
  | intro {schema : Fields} {value : Any} (node : NodeSatisfies schema value)
      (below : ∀ sub part, Below (schema,value) (sub,part) → Satisfies sub part) :
      Satisfies schema value

def Visits : Fields×Any → Fields×Any → Prop := Relation.ReflTransGen Below

theorem Below.sizeOf_lt {p q : Fields×Any} (h : Below p q) : sizeOf q.2<sizeOf p.2 := by
  cases h with
  | @property _ _ _ members name value _ _ present =>
    have hmem := sizeOf_lt_of_mem (mem_of_lookup present)
    simp only [Prod.mk.sizeOf_spec] at hmem
    simp only [map.sizeOf_spec]
    omega
  | item _ present =>
    have hmem := sizeOf_lt_of_mem present
    simp only [list.sizeOf_spec]
    omega

theorem Below.json {p q : Fields×Any} (hp : Json p.2) (h : Below p q) : Json q.2 := by
  cases h with
  | property _ _ present =>
    cases hp with
    | map _ parts => exact parts _ _ (mem_of_lookup present)
  | item _ present =>
    cases hp with
    | list parts => exact parts _ present

variable {schema : Fields} {value : Any}
private theorem satisfies_iff (hjson : Json value) :
    Satisfies schema value ↔ ∀ node, Visits (schema,value) node → NodeSatisfies node.1 node.2 := by
  refine forall_reached_iff (P := fun p : Fields×Any => Satisfies p.1 p.2)
    (N := fun p => NodeSatisfies p.1 p.2) (D := fun p => Json p.2) (fun p => sizeOf p.2)
    (fun _ _ => Below.sizeOf_lt) (fun _ _ => Below.json) ?_ (schema,value) hjson
  intro p _
  constructor
  · intro h
    cases h with
    | intro node below => exact ⟨node,fun q hq => below q.1 q.2 hq⟩
  · intro h
    exact .intro h.1 fun sub part hbelow => h.2 (sub,part) hbelow

private theorem accepts_iff_visits (hjson : Json value) :
    Accepts schema value ↔ ∀ node, Visits (schema,value) node → NodeAccepts node.1 node.2 := by
  refine forall_reached_iff (P := fun p : Fields×Any => Accepts p.1 p.2)
    (N := fun p => NodeAccepts p.1 p.2) (D := fun p => Json p.2) (fun p => sizeOf p.2)
    (fun _ _ => Below.sizeOf_lt) (fun _ _ => Below.json) ?_ (schema,value) hjson
  rintro ⟨schema,value⟩ hp
  cases hp with
  | list parts =>
    rw [accepts_list]
    apply and_congr_right
    intro _
    constructor
    · intro h q hq
      cases hq with
      | item described present => exact h _ described _ present
    · intro h item hitem v hv
      exact h (item,v) (.item hitem hv)
  | map unique parts =>
    rw [accepts_map]
    apply and_congr_right
    intro _
    constructor
    · intro h q hq
      cases hq with
      | property described found present =>
        exact h _ described _ _ (mem_of_lookup present) _ found
    · intro h properties hproperties name v hv sub hsub
      exact h (sub,v) (.property hproperties hsub (lookup_of_mem unique hv))
  | _ =>
    rw [accepts_leaf (by simp) (by simp)]
    constructor
    · intro h
      exact ⟨h,fun q hq => by cases hq⟩
    · intro h
      exact h.1

/-- A violation at a node that the validator reports. -/
inductive Violates (schema : Fields) (value : Any) : Prop where
  | type {names : List String} (given : typeNames schema=some names) (nonempty : names≠[])
      (other : ∀ t∈jsonTypes value, t∉names)
      (known : value=.nil ∨ ∀ t∈names, t∈knownTypes) : Violates schema value
  | enum {values : List Any} (given : schema.lookup "enum"=some (.list values))
      (notNil : value≠.nil) (other : ∀ v∈values, ¬ Same v value)
      (printed : ∀ v∈values, sprint v≠sprint value) : Violates schema value
  | required {members : List (String×Any)} {field : String} (object : value=.map members)
      (given : field∈requiredNames schema) (missing : members.lookup field=none) :
      Violates schema value

/-- The validator does not see that the node has another type or another value than those listed. -/
inductive Slips (schema : Fields) (value : Any) : Prop where
  | noType (given : typeNames schema=some []) : Slips schema value
  | unknownType {names : List String} (given : typeNames schema=some names)
      (other : ∀ t∈jsonTypes value, t∉names) (notNil : value≠.nil)
      (unknown : ∃ t∈names, t∉knownTypes) : Slips schema value
  | goStrings {names : List String} (given : schema.lookup "enum"=some (.strings names))
      (other : ∀ s∈names, ¬ Same (.string s) value) : Slips schema value
  | null {values : List Any} (given : schema.lookup "enum"=some (.list values))
      (other : ∀ v∈values, ¬ Same v value) (isNil : value=.nil) : Slips schema value
  | sameText {values : List Any} (given : schema.lookup "enum"=some (.list values))
      (other : ∀ v∈values, ¬ Same v value) (printed : ∃ v∈values, sprint v=sprint value) :
      Slips schema value

/-- The validator does not find the value among those listed, since it is printed otherwise. -/
inductive Misses (schema : Fields) (value : Any) : Prop where
  | intro {values : List Any} (given : schema.lookup "enum"=some (.list values))
      (notNil : value≠.nil) (listed : ∃ v∈values, Same v value)
      (printed : ∀ v∈values, sprint v≠sprint value) : Misses schema value

private theorem schemaTypes_eq (schema : Fields) :
    schemaTypes schema=(typeNames schema).filter (· ≠ []) := by
  unfold schemaTypes typeNames
  cases schema.lookup "type" with
  | none => rfl
  | some v =>
    cases v with
    | list names =>
      dsimp only
      split
      · rename_i hnil
        have hnames : names.filterMap stringOf=[] := hnil
        rw [hnames]
        rfl
      · rename_i hne
        have hnames : names.filterMap stringOf≠[] := hne
        rw [Option.filter_some,if_pos (decide_eq_true hnames)]
        rfl
    | strings names => cases names <;> rfl
    | _ => rfl

private theorem isInteger_float {n : Int} (h : n.natAbs<2^53) : (float n).isInteger=true := by
  have hsame : n=toInt64 n := by
    rw [toInt64,if_pos]
    omega
  exact decide_eq_true hsame

private theorem typeMatches_of_unknown {t : String} (h : t∉knownTypes) (value : Any) :
    typeMatches t value=true := by
  unfold typeMatches
  split
  case h_8 => rfl
  all_goals exact absurd (by decide) h

private theorem typeMatches_iff (hjson : Json value) (t : String) :
    typeMatches t value=true ↔ t∈jsonTypes value ∨ t∉knownTypes := by
  by_cases h : t∈knownTypes
  · have hfloat := @isInteger_float
    have hother : ∀ v : Any, (∀ n, v≠.float n) → v.isInteger=false := by
      intro v hv
      cases v with
      | float n => exact absurd rfl (hv n)
      | _ => rfl
    simp only [knownTypes,mem_cons,not_mem_nil,or_false] at h
    rcases h with rfl | rfl | rfl | rfl | rfl | rfl | rfl <;> cases hjson <;>
      simp_all [typeMatches,jsonTypes,knownTypes,isString,isNumber,isBool,isList, isMap,isNil]
  · exact iff_of_true (typeMatches_of_unknown h value) (Or.inr h)

private theorem typesMatch_iff (hjson : Json value) (names : List String) : typesMatch names value ↔
      (∃ t∈jsonTypes value, t∈names) ∨ value≠.nil ∧ ∃ t∈names, t∉knownTypes := by
  cases hjson with
  | nil => simp [typesMatch,jsonTypes]
  | _ =>
    constructor
    · rintro ⟨t,ht,hmatch⟩
      rcases (typeMatches_iff (by constructor <;> assumption) t).mp hmatch with htype | hunknown
      · exact Or.inl ⟨t,htype,ht⟩
      · exact Or.inr ⟨by simp,t,ht,hunknown⟩
    · rintro (⟨t,htype,ht⟩ | ⟨-,t,ht,hunknown⟩)
      · exact ⟨t,ht,(typeMatches_iff (by constructor <;> assumption) t).mpr (Or.inl htype)⟩
      · exact ⟨t,ht,typeMatches_of_unknown hunknown _⟩

private theorem nodeSatisfies_iff :
    NodeSatisfies schema value ↔ ¬ Violates schema value ∧ ¬ Slips schema value := by
  constructor
  · intro h
    constructor
    · intro hviolates
      cases hviolates with
      | type given _ other _ =>
        obtain ⟨t,ht,hlisted⟩ := h.types _ given
        exact other t ht hlisted
      | enum given _ other _ =>
        obtain ⟨v,hv,hsame⟩ := h.enum _ (by rw [enumValues,given]; rfl)
        exact other v hv hsame
      | required object given missing =>
        have hpresent := h.required _ object _ given
        rw [missing] at hpresent
        cases hpresent
    · intro hslips
      cases hslips with
      | noType given =>
        obtain ⟨t,_,hlisted⟩ := h.types _ given
        cases hlisted
      | unknownType given other _ _ =>
        obtain ⟨t,ht,hlisted⟩ := h.types _ given
        exact other t ht hlisted
      | goStrings given other =>
        obtain ⟨v,hv,hsame⟩ := h.enum _ (by rw [enumValues,given]; rfl)
        obtain ⟨s,hs,rfl⟩ := mem_map.mp hv
        exact other s hs hsame
      | null given other _ | sameText given other _ =>
        obtain ⟨v,hv,hsame⟩ := h.enum _ (by rw [enumValues,given]; rfl)
        exact other v hv hsame
  · rintro ⟨hviolates,hslips⟩
    refine ⟨?_,?_,?_⟩
    · intro names hnames
      by_contra hother
      have hother' : ∀ t∈jsonTypes value, t∉names := fun t ht hlisted => hother ⟨t,ht,hlisted⟩
      by_cases hempty : names=[]
      · exact hslips (.noType (hempty ▸ hnames))
      · by_cases hknown : value=.nil ∨ ∀ t∈names, t∈knownTypes
        · exact hviolates (.type hnames hempty hother' hknown)
        · rw [not_or] at hknown
          refine hslips (.unknownType hnames hother' hknown.1 ?_)
          by_contra hall
          exact hknown.2 fun t ht => by_contra fun hnot => hall ⟨t,ht,hnot⟩
    · intro values hvalues
      by_contra hother
      have hother' : ∀ v∈values, ¬ Same v value := fun v hv hsame => hother ⟨v,hv,hsame⟩
      obtain ⟨given,hgiven,helements⟩ := Option.bind_eq_some_iff.mp hvalues
      cases given with
      | list items =>
        cases helements
        by_cases hnil : value=.nil
        · exact hslips (.null hgiven hother' hnil)
        · by_cases hprinted : ∃ v∈values, sprint v=sprint value
          · exact hslips (.sameText hgiven hother' hprinted)
          · exact hviolates (.enum hgiven hnil hother' fun v hv heq => hprinted ⟨v,hv,heq⟩)
      | strings names =>
        cases helements
        exact hslips (.goStrings hgiven fun s hs => hother' _ (mem_map_of_mem hs))
      | _ => cases helements
    · intro members hobject field hfield
      rw [Option.isSome_iff_ne_none]
      intro hmissing
      exact hviolates (.required hobject hfield hmissing)

private theorem nodeAccepts_iff_reading (hjson : Json value) :
    NodeAccepts schema value ↔ ¬ Violates schema value ∧ ¬ Misses schema value := by
  have htypes : (∀ types, schemaTypes schema=some types → typesMatch types value) ↔
      ∀ names, typeNames schema=some names → names≠[] →
        (∃ t∈jsonTypes value, t∈names) ∨ value≠.nil ∧ ∃ t∈names, t∉knownTypes := by
    rw [schemaTypes_eq]
    simp only [Option.filter_eq_some_iff,typesMatch_iff hjson,decide_eq_true_eq,and_imp]
  constructor
  · intro h
    constructor
    · intro hviolates
      cases hviolates with
      | type given nonempty other known =>
        rcases htypes.mp h.types _ given nonempty with ⟨t,ht,hlisted⟩ | ⟨hnil,t,ht,hunknown⟩
        · exact other t ht hlisted
        · rcases known with hnil' | hall
          · exact hnil hnil'
          · exact hunknown (hall t ht)
      | enum given notNil _ printed =>
        obtain ⟨v,hv,heq⟩ := h.enum _ given notNil
        exact printed v hv heq
      | required object given missing =>
        have hpresent := h.required _ object _ given
        rw [missing] at hpresent
        cases hpresent
    · intro hmisses
      cases hmisses with
      | intro given notNil _ printed =>
        obtain ⟨v,hv,heq⟩ := h.enum _ given notNil
        exact printed v hv heq
  · rintro ⟨hviolates,hmisses⟩
    refine ⟨htypes.mpr ?_,?_,?_⟩
    · intro names hnames hnonempty
      by_contra hreject
      rw [not_or] at hreject
      refine hviolates (.type hnames hnonempty (fun t ht hlisted => hreject.1 ⟨t,ht,hlisted⟩) ?_)
      by_cases hnil : value=.nil
      · exact Or.inl hnil
      · exact Or.inr fun t ht => by_contra fun hunknown => hreject.2 ⟨hnil,t,ht,hunknown⟩
    · intro values hvalues hnil
      by_contra hprinted
      have hprinted' : ∀ v∈values, sprint v≠sprint value := fun v hv heq => hprinted ⟨v,hv,heq⟩
      by_cases hlisted : ∃ v∈values, Same v value
      · exact hmisses (.intro hvalues hnil hlisted hprinted')
      · exact hviolates (.enum hvalues hnil (fun v hv hsame => hlisted ⟨v,hv,hsame⟩) hprinted')
    · intro members hobject field hfield
      rw [Option.isSome_iff_ne_none]
      intro hmissing
      exact hviolates (.required hobject hfield hmissing)

def Somewhere (N : Fields → Any → Prop) (schema : Fields) (value : Any) : Prop :=
  ∃ node, Visits (schema,value) node ∧ N node.1 node.2

private theorem accepts_iff_somewhere (hjson : Json value) :
    Accepts schema value ↔ ¬ Somewhere Violates schema value ∧ ¬ Somewhere Misses schema value := by
  have hjsons : ∀ node, Visits (schema,value) node → Json node.2 := by
    intro node hvisits
    induction hvisits with
    | refl => exact hjson
    | tail _ hlast ih => exact Below.json ih hlast
  rw [accepts_iff_visits hjson]
  constructor
  · intro h
    constructor
    · rintro ⟨node,hvisits,hviolates⟩
      exact ((nodeAccepts_iff_reading (hjsons node hvisits)).mp (h node hvisits)).1 hviolates
    · rintro ⟨node,hvisits,hmisses⟩
      exact ((nodeAccepts_iff_reading (hjsons node hvisits)).mp (h node hvisits)).2 hmisses
  · rintro ⟨hviolates,hmisses⟩ node hvisits
    exact (nodeAccepts_iff_reading (hjsons node hvisits)).mpr
      ⟨fun h => hviolates ⟨node,hvisits,h⟩,fun h => hmisses ⟨node,hvisits,h⟩⟩

private theorem satisfies_iff_somewhere (hjson : Json value) : Satisfies schema value ↔
      ¬ Somewhere Violates schema value ∧ ¬ Somewhere Slips schema value := by
  rw [satisfies_iff hjson]
  constructor
  · intro h
    constructor
    · rintro ⟨node,hvisits,hviolates⟩
      exact (nodeSatisfies_iff.mp (h node hvisits)).1 hviolates
    · rintro ⟨node,hvisits,hslips⟩
      exact (nodeSatisfies_iff.mp (h node hvisits)).2 hslips
  · rintro ⟨hviolates,hslips⟩ node hvisits
    exact nodeSatisfies_iff.mpr
      ⟨fun h => hviolates ⟨node,hvisits,h⟩,fun h => hslips ⟨node,hvisits,h⟩⟩

/-- The validator agrees with the meaning exactly if some node breaks a keyword in both readings, or
it slips somewhere exactly if it misses somewhere. -/
theorem validateToolInput_agrees_iff (schema : Fields) {value : Any} (hjson : Json value) :
    (validateToolInput schema (some value)=none ↔ Satisfies schema value) ↔
      Somewhere Violates schema value ∨
        (Somewhere Misses schema value ↔ Somewhere Slips schema value) := by
  show (Accepts schema value ↔ _) ↔ _
  rw [accepts_iff_somewhere hjson,satisfies_iff_somewhere hjson]
  tauto

private theorem somewhere_string {N : Fields → Any → Prop} {s : String}
    (h : Somewhere N schema (.string s)) : N schema (.string s) := by
  obtain ⟨node,hvisits,hnode⟩ := h
  rcases hvisits.cases_head with rfl | ⟨_,hfirst,_⟩
  · exact hnode
  · cases hfirst

theorem validateToolInput_agrees_listed :
    validateToolInput [("enum",.list [.string "a",.string "b"])] (some (.string "a"))=none ↔
      Satisfies [("enum",.list [.string "a",.string "b"])] (.string "a") := by
  refine (validateToolInput_agrees_iff _ (.string "a")).mpr (Or.inr (iff_of_false ?_ ?_))
  · intro hmisses
    cases somewhere_string hmisses with
    | intro given _ _ printed =>
      cases given
      exact printed (.string "a") mem_cons_self rfl
  · intro hslips
    cases somewhere_string hslips with
    | noType given | unknownType given _ _ _ | goStrings given _ => cases given
    | null _ _ isNil => cases isNil
    | sameText given other _ =>
      cases given
      exact other (.string "a") mem_cons_self (by rw [Same])

theorem validateToolInput_disagrees :
    (validateToolInput [("enum",.strings ["a"])] (some (.string "c"))=none ∧
      ¬ Satisfies [("enum",.strings ["a"])] (.string "c")) ∧
    (validateToolInput [("enum",.list [.string "a"])] (some .nil)=none ∧
      ¬ Satisfies [("enum",.list [.string "a"])] .nil) ∧
    (validateToolInput [("enum",.list [.int 1000000])] (some (.float 1000000))≠none ∧
      Satisfies [("enum",.list [.int 1000000])] (.float 1000000)) := by
  refine ⟨⟨rfl,?_⟩,⟨rfl,?_⟩,?_,?_⟩
  · rintro ⟨node,_⟩
    obtain ⟨v,hv,hsame⟩ := node.enum [.string "a"] rfl
    cases mem_singleton.mp hv
    rw [Same,string.injEq] at hsame
    exact absurd hsame (by decide)
  · rintro ⟨node,_⟩
    obtain ⟨v,hv,hsame⟩ := node.enum [.string "a"] rfl
    cases mem_singleton.mp hv
    cases hsame
  · intro haccepted
    obtain ⟨v,hv,hprinted⟩ :=
      ((accepts_iff_visits (.float (by decide))).mp haccepted _ .refl).enum _ rfl nofun
    cases mem_singleton.mp hv
    exact absurd hprinted (by decide)
  · have hnode : NodeSatisfies [("enum",.list [.int 1000000])] (.float 1000000) := by
      constructor
      · intro names hnames
        cases hnames
      · intro values hvalues
        cases hvalues
        exact ⟨.int 1000000,mem_singleton_self _,by rw [Same]; exact Or.inl rfl⟩
      · intro members hobject
        cases hobject
    refine .intro hnode ?_
    intro sub part hbelow
    cases hbelow
end GudeAgents.Schema
