import GudeAgents.Schema.Generate
/-!
# Generated schemas and what Go encodes
-/
namespace GudeAgents.Schema
open Framework List Any
def declared (fields : List (FieldInfo×GoType)) : List String :=
  fields.filterMap fun f => f.1.property
def Integral (j : Any) : Prop := ∃ f, j=.float f ∧ f=toInt64 f

mutual

/-- The payloads that fit the schema of a type. A property is described by its last field. -/
def Admits : GoType → Any → Prop
  | .pointer elem, j => Admits elem j
  | .string, j => ∃ s, j=.string s
  | .int .uintptr, j => ∃ s, j=.string s
  | .int _, j => Integral j
  | .float, j => (∃ n, j=.float n) ∨ ∃ text, j=.fraction text
  | .bool, j => ∃ b, j=.bool b
  | .slice elem, j => ∃ items, j=.list items ∧ ∀ x∈items, Admits elem x
  | .array _ elem, j => ∃ items, j=.list items ∧ ∀ x∈items, Admits elem x
  | .struct fields, j => ∃ ms, j=.map ms ∧ AdmitsFields ms fields
  | .map _, j => ∃ ms, j=.map ms
  | .rawMessage, j => ∃ items, j=.list items ∧ ∀ x∈items, Integral x
  | .time, j => ∃ ms, j=.map ms

def AdmitsFields (ms : List (String×Any)) : List (FieldInfo×GoType) → Prop
  | [] => True
  | (f,t)::rest =>
    (∀ name, f.property=some name → name∉declared rest → ∀ j, (name,j)∈ms → Admits t j) ∧
      AdmitsFields ms rest
end
mutual

def JsonTagged : GoType → Prop
  | .pointer elem => JsonTagged elem
  | .slice elem => JsonTagged elem
  | .array _ elem => JsonTagged elem
  | .map elem => JsonTagged elem
  | .struct fields => AllJsonTagged fields
  | _ => True

def AllJsonTagged : List (FieldInfo×GoType) → Prop
  | [] => True
  | (f,t)::rest =>
    f.description="" ∧ f.enum=[] ∧ f.required=false ∧ JsonTagged t ∧ AllJsonTagged rest
end
section schema
variable {schema : Fields} {name : String} {j : Any}
private theorem nodeAccepts_iff (htype : schema.lookup "type"=some (.string name))
    (henum : schema.lookup "enum"=none) (hrequired : schema.lookup "required"=none) :
    NodeAccepts schema j ↔ typesMatch [name] j := by
  have htypes : schemaTypes schema=some [name] := by rw [schemaTypes,htype]
  constructor
  · intro h
    exact h.types [name] htypes
  · intro h
    constructor
    · intro types heq
      rw [htypes] at heq
      cases heq
      exact h
    · intro values heq
      rw [henum] at heq
      cases heq
    · intro ms _ field hfield
      rw [requiredNames,hrequired] at hfield
      cases hfield

private theorem typesMatch_singleton (h : name≠"null") :
    typesMatch [name] j ↔ j.isNil=false ∧ typeMatches name j=true := by
  cases j <;> simp [typesMatch,isNil,h.symm]
private theorem typesMatch_string : typesMatch ["string"] j ↔ ∃ s, j=.string s := by
  rw [typesMatch_singleton (by decide)]
  show _ ∧ j.isString=true ↔ _
  cases j <;> simp [isNil,isString]
private theorem typesMatch_integer : typesMatch ["integer"] j ↔ Integral j := by
  rw [typesMatch_singleton (by decide)]
  show _ ∧ j.isInteger=true ↔ _
  cases j <;> simp [isNil,isInteger,Integral]

private theorem typesMatch_number :
    typesMatch ["number"] j ↔ (∃ n, j=.float n) ∨ ∃ text, j=.fraction text := by
  rw [typesMatch_singleton (by decide)]
  show _ ∧ j.isNumber=true ↔ _
  cases j <;> simp [isNil,isNumber]

private theorem typesMatch_boolean : typesMatch ["boolean"] j ↔ ∃ b, j=.bool b := by
  rw [typesMatch_singleton (by decide)]
  show _ ∧ j.isBool=true ↔ _
  cases j <;> simp [isNil,isBool]
private theorem typesMatch_array : typesMatch ["array"] j ↔ ∃ items, j=.list items := by
  rw [typesMatch_singleton (by decide)]
  show _ ∧ j.isList=true ↔ _
  cases j <;> simp [isNil,isList]
private theorem typesMatch_object : typesMatch ["object"] j ↔ ∃ ms, j=.map ms := by
  rw [typesMatch_singleton (by decide)]
  show _ ∧ j.isMap=true ↔ _
  cases j <;> simp [isNil,isMap]

private theorem accepts_iff (htype : schema.lookup "type"=some (.string name))
    (henum : schema.lookup "enum"=none) (hrequired : schema.lookup "required"=none) :
    Accepts schema j ↔ typesMatch [name] j ∧
      (∀ ms, j=.map ms → ∀ properties, schema.lookup "properties"=some (.map properties) →
        ∀ name value, (name,value)∈ms → ∀ sub,
          properties.lookup name=some (.map sub) → Accepts sub value) ∧
      ∀ items, j=.list items → ∀ item, schema.lookup "items"=some (.map item) →
        ∀ value∈items, Accepts item value := by
  have hnode := nodeAccepts_iff (j := j) htype henum hrequired
  cases j with
  | map ms =>
    rw [accepts_map,hnode]
    simp
  | list items =>
    rw [accepts_list,hnode]
    simp
  | _ =>
    rw [accepts_leaf (by simp) (by simp),hnode]
    simp

private theorem accepts_typed (name : String) :
    Accepts [("type",.string name)] j ↔ typesMatch [name] j := by
  rw [accepts_iff rfl rfl rfl]
  simp [lookup_cons]

theorem accepts_array (item : Fields) : Accepts [("type",.string "array"),("items",.map item)] j ↔
      ∃ items, j=.list items ∧ ∀ x∈items, Accepts item x := by
  rw [accepts_iff rfl rfl rfl,typesMatch_array]
  constructor
  · rintro ⟨⟨items,rfl⟩,_,hitems⟩
    exact ⟨items,rfl,hitems items rfl item rfl⟩
  · rintro ⟨items,rfl,hitems⟩
    refine ⟨⟨items,rfl⟩,(fun ms h => by cases h),?_⟩
    intro items' heq item' hitem
    cases heq
    cases hitem
    exact hitems

private theorem accepts_object (properties : Fields) :
    Accepts (objectSchema properties []) j ↔ ∃ ms, j=.map ms ∧
      ∀ name value, (name,value)∈ms → ∀ sub,
        properties.lookup name=some (.map sub) → Accepts sub value := by
  have hsame : objectSchema properties [] =
      [("type",.string "object"),("properties",.map properties)] := rfl
  rw [hsame,accepts_iff rfl rfl rfl,typesMatch_object]
  constructor
  · rintro ⟨⟨ms,rfl⟩,hms,_⟩
    exact ⟨ms,rfl,hms ms rfl properties rfl⟩
  · rintro ⟨ms,rfl,hms⟩
    refine ⟨⟨ms,rfl⟩,?_,fun items h => by cases h⟩
    intro ms' heq properties' hproperties
    cases heq
    cases hproperties
    exact hms

private theorem accepts_dictionary (value : Any) :
    Accepts [("type",.string "object"),("additionalProperties",value)] j ↔ ∃ ms, j=.map ms := by
  rw [accepts_iff rfl rfl rfl,typesMatch_object]
  simp [lookup_cons]
end schema
private theorem requiredFields_of_jsonTagged : ∀ {fields : List (FieldInfo×GoType)},
    AllJsonTagged fields → requiredFields fields=[]
  | [], _ => rfl
  | (f,t)::rest, h => by
      obtain ⟨_,_,hrequired,_,hrest⟩ := h
      rw [requiredFields,filterMap_cons,hrequired]
      exact requiredFields_of_jsonTagged hrest

private theorem annotate_of_jsonTagged {f : FieldInfo} (hdescription : f.description="")
    (henum : f.enum=[]) (prop : Fields) : f.annotate prop=prop := by
  simp [FieldInfo.annotate,hdescription,henum]

mutual

private theorem accepts_goTypeToSchema :
    ∀ (t : GoType), JsonTagged t → ∀ j, Accepts (goTypeToSchema t) j ↔ Admits t j
  | .pointer elem, h, j => by
      exact accepts_goTypeToSchema elem h j
  | .string, _, j => by
      rw [goTypeToSchema,Admits,accepts_typed,typesMatch_string]
  | .int kind, _, j => by
      cases kind with
      | uintptr => rw [goTypeToSchema,Admits,accepts_typed,typesMatch_string]
      | _ =>
        simp only [goTypeToSchema,Admits]
        rw [accepts_typed,typesMatch_integer]
  | .float, _, j => by
      rw [goTypeToSchema,Admits,accepts_typed,typesMatch_number]
  | .bool, _, j => by
      rw [goTypeToSchema,Admits,accepts_typed,typesMatch_boolean]
  | .slice elem, h, j | .array _ elem, h, j => by
      rw [goTypeToSchema,Admits,accepts_array]
      simp only [accepts_goTypeToSchema elem h]
  | .struct fields, h, j => by
      rw [goTypeToSchema,Admits,requiredFields_of_jsonTagged h,accepts_object]
      apply exists_congr
      intro ms
      apply and_congr_right
      intro _
      rw [accepts_buildProperties fields h ms []]
      exact and_iff_left fun name value _ _ sub hsub => by cases hsub
  | .map elem, _, j => by
      rw [goTypeToSchema,Admits,accepts_dictionary]
  | .rawMessage, _, j => by
      rw [goTypeToSchema,Admits,accepts_array]
      simp only [accepts_typed,typesMatch_integer]
  | .time, _, j => by
      rw [goTypeToSchema,Admits,accepts_object]
      simp

theorem accepts_buildProperties : ∀ (fields : List (FieldInfo×GoType)), AllJsonTagged fields →
      ∀ (ms : List (String×Any)) (properties : Fields), (∀ name value, (name,value)∈ms → ∀ sub,
          (buildProperties properties fields).lookup name=some (.map sub) → Accepts sub value) ↔
        AdmitsFields ms fields ∧ ∀ name value, (name,value)∈ms → name∉declared fields →
          ∀ sub, properties.lookup name=some (.map sub) → Accepts sub value
  | [], _, ms, properties => by
      simp [buildProperties,AdmitsFields,declared]
  | (f,t)::rest, h, ms, properties => by
      obtain ⟨hdescription,henum,_,htagged,hrest⟩ := h
      rw [buildProperties,AdmitsFields]
      cases hproperty : f.property with
      | none =>
        have hdeclared : declared ((f,t)::rest)=declared rest := by
          rw [declared,filterMap_cons,hproperty]
          rfl
        rw [hdeclared]
        simp only [reduceCtorEq,false_implies,implies_true,true_and]
        exact accepts_buildProperties rest hrest ms properties
      | some key =>
        have hdeclared : declared ((f,t)::rest)=key::declared rest := by
          rw [declared,filterMap_cons,hproperty]
          rfl
        rw [accepts_buildProperties rest hrest,annotate_of_jsonTagged hdescription henum,hdeclared]
        constructor
        · rintro ⟨hfields,hothers⟩
          refine ⟨⟨?_,hfields⟩,?_⟩
          · rintro name hname hlast value hmem
            cases hname
            rw [← accepts_goTypeToSchema t htagged]
            exact hothers key value hmem hlast _ (lookup_assign _ _ _)
          · intro name value hmem hnot sub hsub
            rw [mem_cons,not_or] at hnot
            apply hothers name value hmem hnot.2
            rw [lookup_assign_ne _ hnot.1]
            exact hsub
        · rintro ⟨⟨hlast,hfields⟩,hothers⟩
          refine ⟨hfields,?_⟩
          intro name value hmem hnot sub hsub
          by_cases hname : name=key
          · subst hname
            rw [lookup_assign] at hsub
            cases hsub
            rw [accepts_goTypeToSchema t htagged]
            exact hlast name rfl hnot value hmem
          · rw [lookup_assign_ne _ hname] at hsub
            apply hothers name value hmem _ sub hsub
            rw [mem_cons,not_or]
            exact ⟨hname,hnot⟩
end
def GoType.describedAsString : GoType → Bool
  | .string => true
  | .int .uintptr => true
  | _ => false

mutual

/-- The values whose encoding the generated schema admits. -/
def Fits : GoType → GoValue → Prop
  | .pointer elem, .pointer v => Fits elem v
  -- a number, described as a string
  | .int .uintptr, _ => False
  | .int _, .int n => Integral (.float (toFloat64 n))
  -- base64 text, described as an array
  | .slice (.int .uint8), _ => False
  | .slice elem, .list items => ∀ v∈items, Fits elem v
  | .array _ elem, .list items => ∀ v∈items, Fits elem v
  | .struct fields, .struct values =>
    match marshaler (.struct fields) (.struct values) with
    -- encoded by an embedded time or raw message
    | some v => Admits (.struct fields) (marshaled v)
    | none => FitsFields (candidates [] 0 fields values) 0 fields values
  -- any payload, described as an array of integers
  | .rawMessage, .raw payload => ∃ items, payload=.list items ∧ ∀ x∈items, Integral x
  -- text, described as an object
  | .time, _ => False
  | _, _ => True

/-- A property is checked against the field of its name that is encoded: itself, or another one. -/
def FitsFields (cs : List Candidate) (i : Nat) :
    List (FieldInfo×GoType) → List GoValue → Prop
  | (f,t)::fields, v::values =>
    (∀ name, f.property=some name → name∉declared fields → ∀ c∈cs, c.emitted cs=true → c.name=name →
        if c.index=[i] then
          if f.quoted t then t.deref.describedAsString=true else Fits t v
        else Admits t c.json) ∧
      FitsFields cs (i+1) fields values
  | _, _ => True
end
mutual

private theorem length_lt_of_mem_candidates :
    ∀ (fields : List (FieldInfo×GoType)) (path : List Nat) (i : Nat) (values : List GoValue),
      ∀ c∈candidates path i fields values, path.length<c.index.length
  | [], _, _, _ => by
      intro c hc
      cases hc
  | _ :: _, _, _, [] => by
      intro c hc
      cases hc
  | (f,t)::fields, path, i, v::values => by
      intro c hc
      rw [candidates,mem_append] at hc
      rcases hc with hc | hc
      · split at hc
        · cases hc
        · split at hc
          · have hlt := length_lt_of_mem_promoted t (path++[i]) v c hc
            rw [length_append] at hlt
            omega
          · rw [mem_singleton] at hc
            subst hc
            simp
      · exact length_lt_of_mem_candidates fields path (i+1) values c hc

private theorem length_lt_of_mem_promoted :
    ∀ (t : GoType) (path : List Nat) (v : GoValue), ∀ c∈promoted path t v,
      path.length<c.index.length
  | t, path, v => by
      intro c hc
      unfold promoted at hc
      split at hc
      · exact length_lt_of_mem_candidates _ path 0 _ c hc
      · exact length_lt_of_mem_candidates _ path 0 _ c hc
      · cases hc
end
def encodeField (f : FieldInfo) (t : GoType) (v : GoValue) : Any :=
  if f.quoted t then .string (quotedText v) else encode t v

private theorem json_of_mem_candidates (fields : List (FieldInfo×GoType)) (values : List GoValue)
    (i : Nat) (c : Candidate) (hc : c∈candidates [] i fields values) (j : Nat)
    (hindex : c.index=[j]) : ∃ k, j=i+k ∧
      ∃ f t v, fields[k]?=some (f,t) ∧ values[k]?=some v ∧ c.json=encodeField f t v := by
  induction fields generalizing values i with
  | nil => cases hc
  | cons field rest ih =>
    obtain ⟨f,t⟩ := field
    cases values with
    | nil => cases hc
    | cons v values =>
      rw [candidates,mem_append] at hc
      rcases hc with hc | hc
      · split at hc
        · cases hc
        · split at hc
          · have hlt := length_lt_of_mem_promoted t ([]++[i]) v c hc
            rw [hindex] at hlt
            simp at hlt
          · rw [mem_singleton] at hc
            subst hc
            refine ⟨0,?_,f,t,v,rfl,rfl,rfl⟩
            simpa using hindex.symm
      · obtain ⟨k,hj,hfield⟩ := ih values (i + 1) hc
        exact ⟨k+1,by omega,hfield⟩

private theorem mem_members {cs : List Candidate} {name : String} {j : Any} :
    (name,j)∈members cs ↔ ∃ c∈cs, c.emitted cs=true ∧ c.name=name ∧ c.json=j := by
  unfold members
  simp only [mem_map,mem_filter,Prod.mk.injEq]
  constructor
  · rintro ⟨c,⟨hc,hemitted⟩,hname,hjson⟩
    exact ⟨c,hc,hemitted,hname,hjson⟩
  · rintro ⟨c,hc,hemitted,hname,hjson⟩
    exact ⟨c,⟨hc,hemitted⟩,hname,hjson⟩

private theorem admits_string {t : GoType} (h : t.quotable=true) (s : String) :
    Admits t (.string s) ↔ t.describedAsString=true := by
  cases t with
  | string | bool | float => simp [Admits,GoType.describedAsString]
  | int kind => cases kind <;> simp [Admits,GoType.describedAsString,Integral]
  | _ => cases h

private theorem admits_quoted {f : FieldInfo} {t : GoType} (h : f.quoted t=true) (s : String) :
    Admits t (.string s) ↔ t.deref.describedAsString=true := by
  have hquotable : t.deref.quotable=true := (Bool.and_eq_true_iff.mp h).2
  cases t with
  | pointer elem =>
    exact admits_string hquotable s
  | _ => exact admits_string hquotable s

private theorem admits_items {elem : GoType} {items : List GoValue}
    (h : ∀ v∈items, (Admits elem (encode elem v) ↔ Fits elem v)) :
    (∃ encoded, list (items.map fun v => encode elem v)=.list encoded ∧
      ∀ x∈encoded, Admits elem x) ↔ ∀ v∈items, Fits elem v := by
  constructor
  · rintro ⟨encoded,heq,hadmits⟩ v hv
    cases heq
    exact (h v hv).mp (hadmits _ (mem_map_of_mem hv))
  · intro hfits
    refine ⟨_,rfl,?_⟩
    intro x hx
    obtain ⟨v,hv,rfl⟩ := mem_map.mp hx
    exact (h v hv).mpr (hfits v hv)

mutual

private theorem admits_encode :
    ∀ (t : GoType) (v : GoValue), HasType t v → (Admits t (encode t v) ↔ Fits t v)
  | .string, .string s, _ | .bool, .bool b, _ | .float, .float n, _ | .float, .fraction text, _
  | .map elem, .map entries, _ | .rawMessage, .raw payload, _ | .time, .time text _, _ => by
      simp [Admits,encode,Fits]
  | .int kind, .int n, _ => by
      cases kind with
      | uintptr => simp [Admits,encode,Fits]
      | _ => simp only [Admits,encode,Fits]
  | .slice elem, .list items, h => by
      have hitems : ∀ v∈items, (Admits elem (encode elem v) ↔ Fits elem v) :=
        fun v hv => admits_encode elem v (h v hv)
      by_cases hbyte : elem=.int .uint8
      · subst hbyte
        simp [Admits,encode,Fits]
      · rw [Admits,encode,Fits,admits_items hitems]
        · exact hbyte
        · exact hbyte
  | .array _ elem, .list items, h => by
      exact admits_items fun v hv => admits_encode elem v (h.2 v hv)
  | .struct fields, .struct values, h => by
      rw [encode,Fits]
      cases marshaler (.struct fields) (.struct values) with
      | some _ => rfl
      | none =>
      rw [Admits,← admitsFields_members fields values h (candidates [] 0 fields values) 0]
      · simp
      · intro c hc k hindex f t v hfield hvalue
        obtain ⟨k',hk,f',t',v',hfield',hvalue',hjson⟩ :=
          json_of_mem_candidates fields values 0 c hc _ hindex
        have hsame : k'=k := by omega
        rw [hsame,hfield] at hfield'
        rw [hsame,hvalue] at hvalue'
        cases hfield'
        cases hvalue'
        exact hjson
  | .pointer elem, .pointer v, h => by
      exact admits_encode elem v h

private theorem admitsFields_members :
    ∀ (fields : List (FieldInfo×GoType)) (values : List GoValue), HaveTypes fields values →
      ∀ (cs : List Candidate) (i : Nat),
        (∀ c∈cs, ∀ k, c.index=[i+k] → ∀ f t v, fields[k]?=some (f,t) →
          values[k]?=some v → c.json=encodeField f t v) →
        (AdmitsFields (members cs) fields ↔ FitsFields cs i fields values)
  | [], [], _, cs, i, _ => by simp [AdmitsFields,FitsFields]
  | (f,t)::fields, v::values, h, cs, i, hcs => by
      have hself : ∀ c∈cs, c.index=[i] → (Admits t c.json ↔
          if f.quoted t then t.deref.describedAsString=true else Fits t v) := by
        intro c hc hindex
        rw [hcs c hc 0 hindex f t v rfl rfl,encodeField]
        split
        · rename_i hquoted
          exact admits_quoted hquoted _
        · exact admits_encode t v h.1
      rw [AdmitsFields,FitsFields,admitsFields_members fields values h.2 cs (i+1)]
      · apply and_congr_left
        intro _
        apply forall_congr'
        intro name
        apply forall_congr'
        intro _
        apply forall_congr'
        intro _
        constructor
        · intro hadmits c hc hemitted hname
          have hjson := hadmits c.json (mem_members.mpr ⟨c,hc,hemitted,hname,rfl⟩)
          split
          · rename_i hindex
            exact (hself c hc hindex).mp hjson
          · exact hjson
        · intro hfits j hj
          obtain ⟨c,hc,hemitted,hname,rfl⟩ := mem_members.mp hj
          have hfit := hfits c hc hemitted hname
          split at hfit
          · rename_i hindex
            exact (hself c hc hindex).mpr hfit
          · exact hfit
      · intro c hc k hindex f' t' v' hfield hvalue
        apply hcs c hc (k+1) _ f' t' v' hfield hvalue
        rw [hindex,Nat.add_assoc,Nat.add_comm 1 k]
end
def order : GoType := .struct
  [({ name := "Name", json := some ("name",[]) },.string),
    ({ name := "Counts", json := some ("counts",["omitempty"]) },.slice (.pointer (.int .int)))]

def blob : GoType := .struct
  [({ name := "Data", json := some ("data",[]) },.slice (.int .uint8))]

end GudeAgents.Schema
