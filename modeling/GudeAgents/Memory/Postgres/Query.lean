import GudeAgents.Memory.Redis.Query
/-!
# Recall queries of the PostgreSQL memory store

Model of `memory/postgres/recall_options.go`. SQL is given by its pieces: fixed text, identifiers,
written as `pgx.Identifier.Sanitize` quotes them, and placeholders.
-/
namespace GudeAgents.Memory.Postgres
open List
open Redis (FilterOperator)
inductive Piece where
  | text (s : String)
  | ident (name : String)
  | param (n : Nat)

inductive Metric where
  | cosine | l2 | innerProduct

structure Store where
  tableName : String
  embeddingCol : String
  distMetric : Metric
  columns : List String
  identifierIdx : Fin columns.length

inductive ValueType where
  | scalar | other
  | ptr (elem : ValueType)
  | slice (elem : ValueType)
  | array (elem : ValueType)

/-- A value behind `any`: nil has no type, and `isNil` is what `isNilValue` returns. -/
structure Value where
  type : Option ValueType
  isNil : Bool
  content : String

inductive OrderDirection where
  | ascending | descending
  | unknown (name : String)

structure Filter where
  field : String
  operator : FilterOperator
  value : Value

structure Order where
  field : String
  direction : OrderDirection

/-- `RecallQuery`. The minimum similarity is `none` if it is not finite. -/
structure RecallQuery where
  text : String
  limit : Int
  minSimilarity : Option Rat
  filters : List Filter
  order : List Order

inductive ValueError where
  | nilValue | notList | nilSlice | type

inductive QueryError where
  | emptyText | negativeLimit | minSimilarity
  | filterField (i : Nat) (field : String)
  | operator (i : Nat) (operator : FilterOperator)
  | filterValue (i : Nat) (field : String) (cause : ValueError)
  | orderField (i : Nat) (field : String)
  | direction (i : Nat) (direction : OrderDirection)

inductive Arg where
  | similarity (x : Option Rat)
  | value (v : Value)
  | limit (n : Int)

/-- A condition with its argument, as a function of the placeholder. -/
structure Clause where
  sql : Nat → List Piece
  arg : Arg

structure Built where
  sql : List Piece
  args : List Arg
  paramIdx : Nat

def Built.and (built : Built) (clause : Clause) : Built :=
  ⟨built.sql++.text " AND "::clause.sql built.paramIdx,built.args++[clause.arg],
    built.paramIdx+1⟩

def validateRecallQuery (q : RecallQuery) : Option QueryError :=
  if q.text="" then some .emptyText
  else if q.limit<0 then some .negativeLimit
  else if q.minSimilarity.all (fun x => decide (x<0 ∨ 1<x)) then some .minSimilarity
  else none

def supportedScalarType : ValueType → Bool
  | .scalar => true
  | .ptr elem => supportedScalarType elem
  | _ => false
def supportedArrayElement : ValueType → Bool
  | .slice _ => false
  | .ptr elem => supportedScalarType elem
  | t => supportedScalarType t

def validateFilterValue (operator : FilterOperator) (value : Value) : Option ValueError :=
  match operator, value.type with
  | _, none => some .nilValue
  | .isIn, some (.slice elem) =>
    if value.isNil then some .nilSlice
    else if supportedArrayElement elem then none else some .type
  | .isIn, some (.array elem) => if supportedArrayElement elem then none else some .type
  | .isIn, some _ => some .notList
  | _, some t => if value.isNil ∨ supportedScalarType t=false then some .type else none

def postgresFilterOperator : FilterOperator → Option String
  | .equal => "="
  | .notEqual => "<>"
  | .greaterThan => ">"
  | .greaterThanOrEqual => ">="
  | .lessThan => "<"
  | .lessThanOrEqual => "<="
  | .isIn => "= ANY"
  | .unknown _ => none

def postgresOrderDirection : OrderDirection → Option String
  | .ascending => "ASC"
  | .descending => "DESC"
  | .unknown _ => none
def filterSql (field : String) (operator : FilterOperator) (n : Nat) : List Piece :=
  if operator=.isIn then [.ident field,.text " = ANY(",.param n,.text ")"]
  else [.ident field,.text (" "++(postgresFilterOperator operator).getD ""++" "),.param n]
def filterClause (filter : Filter) : Clause :=
  ⟨filterSql filter.field filter.operator,.value filter.value⟩
def joined (parts : List (List Piece)) : List Piece :=
  (parts.flatMap (.text ", " :: ·)).tail
def limitClause (q : RecallQuery) (n : Nat) : List Piece×List Arg :=
  if 0<q.limit then ([.text " LIMIT ",.param n],[.limit q.limit]) else ([],[])

/-- The conditions joined to the identity's, with placeholders from `n` on. -/
def conjuncts (n : Nat) (clauses : List Clause) : List Piece :=
  ((clauses.map Clause.sql).zipIdx n).flatMap fun c => .text " AND "::c.1 c.2

namespace Store
variable (s : Store)
/-- The column of a field; it has the field's name. -/
def recallColumn (field : String) : Option String :=
  if field="" then none else s.columns.find? (· = field)

def distanceOp : String :=
  match s.distMetric with
  | .l2 => "<->"
  | .innerProduct => "<#>"
  | .cosine => "<=>"

def scoreExpr : List Piece :=
  let distance := [.ident s.embeddingCol,.text (" "++s.distanceOp++" "),.param 1]
  match s.distMetric with
  | .l2 => .text "1 / (1 + ("::distance++[.text "))"]
  | .innerProduct => .text "-("::distance++[.text ")"]
  | .cosine => .text "1 - ("::distance++[.text ")"]

/-- The query up to the condition that the row belongs to the identity `$2`. -/
def select : List Piece :=
  .text "SELECT "::joined (s.columns.map fun name => [.ident name])++.text ", "::s.scoreExpr ++
    [.text " AS _similarity FROM ",.ident s.tableName,.text " WHERE ",
      .ident s.columns[s.identifierIdx],.text " = ",.param 2]
def similarityClauses (q : RecallQuery) : List Clause :=
  if q.minSimilarity≠some 0 then
    [⟨fun n => s.scoreExpr++[.text " >= ",.param n],.similarity q.minSimilarity⟩] else []
def checkFilter (i : Nat) (filter : Filter) : Option QueryError :=
  if s.recallColumn filter.field=none then some (.filterField i filter.field)
  else if postgresFilterOperator filter.operator=none then some (.operator i filter.operator)
  else (validateFilterValue filter.operator filter.value).map (.filterValue i filter.field)

def addFilters : Nat → List Filter → Built → Except QueryError Built
  | _, [], built => .ok built
  | i, filter::rest, built =>
    match s.checkFilter i filter with
    | some err => .error err
    | none => addFilters (i+1) rest (built.and (filterClause filter))

def checkOrders : Nat → List Order → Option QueryError
  | _, [] => none
  | i, order::rest =>
    if s.recallColumn order.field=none then some (.orderField i order.field)
    else if postgresOrderDirection order.direction=none then some (.direction i order.direction)
    else checkOrders (i+1) rest

def orderBy (q : RecallQuery) : List Piece :=
  .text " ORDER BY " ::
    if q.order.isEmpty then [.ident s.embeddingCol,.text (" "++s.distanceOp++" "),.param 1]
    else joined (q.order.map fun order =>
      [.ident order.field,.text (" "++(postgresOrderDirection order.direction).getD "")])

def buildRecallQuery (q : RecallQuery) : Except QueryError (List Piece×List Arg) :=
  match validateRecallQuery q with
  | some err => .error err
  | none =>
    match s.addFilters 0 q.filters ((s.similarityClauses q).foldl .and ⟨s.select,[],3⟩) with
    | .error err => .error err
    | .ok built =>
      match s.checkOrders 0 q.order with
      | some err => .error err
      | none => .ok (built.sql++s.orderBy q++(limitClause q built.paramIdx).1,
          built.args++(limitClause q built.paramIdx).2)

/-- The conditions beside the identity's. -/
def clauses (q : RecallQuery) : List Clause :=
  s.similarityClauses q++q.filters.map filterClause

/-- The query of `q`, clause by clause. -/
def recallSql (q : RecallQuery) : List Piece :=
  s.select++conjuncts 3 (s.clauses q)++s.orderBy q ++
    (limitClause q (3+(s.clauses q).length)).1
def recallArgs (q : RecallQuery) : List Arg :=
  (s.clauses q).map Clause.arg++(limitClause q (3+(s.clauses q).length)).2
end Store
theorem Built.foldl_and (clauses : List Clause) (built : Built) :
    clauses.foldl .and built=⟨built.sql++conjuncts built.paramIdx clauses,
      built.args++clauses.map Clause.arg,built.paramIdx+clauses.length⟩ := by
  induction clauses generalizing built with
  | nil => simp [conjuncts]
  | cons clause rest ih => simp [ih,Built.and,conjuncts,Nat.add_comm,Nat.add_left_comm]

namespace Store
variable {s : Store} {q q' : RecallQuery} {sql : List Piece} {args : List Arg}
private theorem addFilters_eq {i : Nat} {filters : List Filter} {built result : Built}
    (h : s.addFilters i filters built=.ok result) :
    result=(filters.map filterClause).foldl .and built := by
  induction filters generalizing i built with
  | nil =>
    cases h
    rfl
  | cons filter rest ih =>
    unfold addFilters at h
    split at h
    · cases h
    · exact ih h

private theorem buildRecallQuery_eq (h : s.buildRecallQuery q=.ok (sql,args)) :
    0≤q.limit ∧ sql=s.recallSql q ∧ args=s.recallArgs q := by
  unfold buildRecallQuery at h
  split at h
  · cases h
  · next hvalid =>
    have hlimit : 0≤q.limit := by
      unfold validateRecallQuery at hvalid
      grind
    refine ⟨hlimit,?_⟩
    split at h
    · cases h
    · next built hbuilt =>
      split at h
      · cases h
      · cases h
        rw [addFilters_eq hbuilt,← foldl_append,← clauses,Built.foldl_and]
        simp [recallSql,recallArgs]

@[simp]
private theorem param_mem_scoreExpr {n : Nat} : .param n∈s.scoreExpr ↔ n=1 := by
  unfold scoreExpr
  split <;> simp

private theorem param_notMem_joined {parts : List (List Piece)} {n : Nat}
    (h : ∀ part∈parts, .param n∉part) : .param n∉joined parts := by
  intro hmem
  obtain ⟨part,hpart,hparam⟩ := mem_flatMap.mp (mem_of_mem_tail hmem)
  exact h part hpart (by simpa using hparam)

private theorem param_mem_select {n : Nat} : .param n∈s.select ↔ n=1 ∨ n=2 := by
  simp [select,param_notMem_joined]

private theorem param_mem_orderBy {n : Nat} (h : .param n∈s.orderBy q) : n=1 := by
  unfold orderBy at h
  split at h
  · simpa using h
  · simp [param_notMem_joined] at h

/-- A condition uses its own placeholder and at most the vector's. -/
private theorem param_mem_clauses (n : Nat) {clause : Clause} (h : clause∈s.clauses q) :
    .param n∈clause.sql n ∧ ∀ m, .param m∈clause.sql n → m=1 ∨ m=n := by
  unfold clauses similarityClauses filterClause filterSql at h
  grind [param_mem_scoreExpr]

private theorem param_mem_conjuncts (clauses : List Clause) (n : Nat)
    (h : ∀ clause∈clauses, ∀ n, .param n∈clause.sql n ∧
      ∀ m, .param m∈clause.sql n → m=1 ∨ m=n) (m : Nat) :
    (m=1 ∨ .param m∈conjuncts n clauses) ↔ m=1 ∨ n ≤ m ∧ m<n+clauses.length := by
  induction clauses generalizing n with
  | nil =>
    simp only [conjuncts,map_nil,zipIdx_nil,flatMap_nil,not_mem_nil,or_false,length_nil,Nat.add_zero]
    omega
  | cons clause rest ih =>
    have hrest := ih (n+1) fun clause hclause => h clause (mem_cons_of_mem _ hclause)
    have hfirst := h clause mem_cons_self n
    simp only [conjuncts,map_cons,zipIdx_cons,flatMap_cons,mem_append,mem_cons,length_cons] at hrest ⊢
    grind

/-- The queries differ at most in their text, the values of their filters and the values of their
similarity and limit. -/
structure SameShape (q q' : RecallQuery) : Prop where
  order : q.order=q'.order
  filters : q.filters.map (fun f => (f.field,f.operator)) =
    q'.filters.map fun f => (f.field,f.operator)
  minSimilarity : q.minSimilarity=some 0 ↔ q'.minSimilarity=some 0
  limit : q.limit=0 ↔ q'.limit=0

theorem SameShape.clauses_sql (h : SameShape q q') :
    (s.clauses q).map Clause.sql=(s.clauses q').map Clause.sql := by
  have hfilters : map Clause.sql (q.filters.map filterClause) =
      map Clause.sql (q'.filters.map filterClause) := by
    simpa [filterClause,Function.comp_def] using congrArg (map fun f => filterSql f.1 f.2) h.filters
  rw [clauses,clauses,map_append,map_append,hfilters]
  unfold similarityClauses
  simp only [ne_eq,h.minSimilarity]
  split <;> rfl

/-- The condition that ties a row to the identity. -/
def identityCondition (s : Store) : List Piece :=
  [.ident s.columns[s.identifierIdx],.text " = ",.param 2]

private theorem exists_select (s : Store) :
    ∃ head, .text " WHERE "∉head ∧ s.select=head++.text " WHERE "::s.identityCondition := by
  refine ⟨.text "SELECT "::joined (s.columns.map fun name => [.ident name])++.text ", " ::
    s.scoreExpr++[.text " AS _similarity FROM ",.ident s.tableName],?_,?_⟩
  swap
  · simp [select,identityCondition]
  have hcolumns : .text " WHERE "∉joined (s.columns.map fun name => [.ident name]) := by
    intro h
    simpa using mem_of_mem_tail h
  have hscore : .text " WHERE "∉s.scoreExpr := by
    unfold scoreExpr distanceOp
    split <;> simp
  simp [hcolumns,hscore]

/-- A condition of `q` whose placeholder `n` stands for the argument that belongs there. -/
inductive Binds (s : Store) (q : RecallQuery) (n : Nat) : List Piece → Arg → Prop where
  | similarity (positive : q.minSimilarity≠some 0) :
      Binds s q n (s.scoreExpr++[.text " >= ",.param n]) (.similarity q.minSimilarity)
  | compared {f : Filter} (mem : f∈q.filters) (single : f.operator≠.isIn) :
      Binds s q n [.ident f.field,.text (" "++(postgresFilterOperator f.operator).getD ""++" "),
        .param n] (.value f.value)
  | listed {f : Filter} (mem : f∈q.filters) (several : f.operator=.isIn) :
      Binds s q n [.ident f.field,.text " = ANY(",.param n,.text ")"] (.value f.value)

private theorem binds_clause {clause : Clause} (h : clause∈s.clauses q) (n : Nat) :
    Binds s q n (clause.sql n) clause.arg := by
  rcases mem_append.mp h with h | h
  · unfold similarityClauses at h
    split at h
    · next hpositive =>
      rw [mem_singleton.mp h]
      exact .similarity hpositive
    · cases h
  · obtain ⟨f,hf,rfl⟩ := mem_map.mp h
    show Binds s q n (filterSql f.field f.operator n) (.value f.value)
    unfold filterSql
    split
    · next hin => exact .listed hf hin
    · next hin => exact .compared hf hin

/-- The placeholders are numbered without a gap, the condition on the identity is the first conjunct
of the only WHERE clause, every further conjunct and the limit have their own argument, and values
never reach the text. -/
theorem recall_sql_bound (h : s.buildRecallQuery q=.ok (sql,args)) :
    (∀ n, .param n∈sql ↔ 1≤n ∧ n≤2+args.length) ∧
    (∃ (head : List Piece) (conditions : List (List Piece)), .text " WHERE "∉head ∧
      sql=head++.text " WHERE "::s.identityCondition ++
        conditions.flatMap (.text " AND " :: ·)++s.orderBy q ++
        (if 0<q.limit then [.text " LIMIT ",.param (3+conditions.length)] else []) ∧
      args.drop conditions.length=(if 0<q.limit then [.limit q.limit] else []) ∧
      ∀ i condition, conditions[i]?=some condition →
        ∃ arg, args[i]?=some arg ∧ Binds s q (3+i) condition arg) ∧
    sql=s.recallSql q ∧ args=s.recallArgs q ∧
    ∀ q' sql' args', s.buildRecallQuery q'=.ok (sql',args') → SameShape q q' → sql'=sql := by
  obtain ⟨hlimit,hsql,hargs⟩ := buildRecallQuery_eq h
  refine ⟨fun n => ?_,?_,hsql,hargs,fun q' sql' args' h' hshape => ?_⟩
  · have hconj := param_mem_conjuncts (s.clauses q) 3 (fun _ hc n => param_mem_clauses n hc) n
    have horder := @param_mem_orderBy s q n
    rw [hsql,hargs,recallSql,recallArgs]
    unfold limitClause
    simp only [mem_append,param_mem_select,length_append,length_map]
    split <;> grind
  · obtain ⟨head,hhead,hselect⟩ := exists_select s
    refine ⟨head,((s.clauses q).map Clause.sql).zipIdx 3 |>.map fun c => c.1 c.2,hhead,?_,?_,?_⟩
    · rw [hsql,recallSql,hselect,conjuncts,limitClause]
      split <;> simp [flatMap_map]
    · rw [hargs,recallArgs,limitClause]
      split <;> simp
    · intro i condition hi
      rw [getElem?_map,getElem?_zipIdx,getElem?_map] at hi
      simp only [Option.map_map,Option.map_eq_some_iff] at hi
      obtain ⟨clause,hclause,rfl⟩ := hi
      refine ⟨clause.arg,?_,binds_clause (mem_of_getElem? hclause) (3+i)⟩
      have hlt := (List.getElem?_eq_some_iff.mp hclause).1
      rw [hargs,recallArgs,getElem?_append_left (by simpa using hlt),getElem?_map,hclause,
        Option.map_some]
  · obtain ⟨hlimit',hsql',-⟩ := buildRecallQuery_eq h'
    have hclauses := hshape.clauses_sql (s := s)
    have hlen : (s.clauses q').length=(s.clauses q).length := by
      simpa using (congrArg length hclauses).symm
    have horder : s.orderBy q'=s.orderBy q := by rw [orderBy,orderBy,hshape.order]
    have hzero := hshape.limit
    have hpositive : 0<q'.limit ↔ 0<q.limit := by omega
    rw [hsql',hsql,recallSql,recallSql,conjuncts,conjuncts,← hclauses,horder,hlen]
    simp only [limitClause,hpositive]
    split <;> rfl

private theorem mem_columns {field : String} (h : s.recallColumn field≠none) : field∈s.columns := by
  unfold recallColumn at h
  grind

private theorem addFilters_fields {i : Nat} {filters : List Filter} {built result : Built}
    (h : s.addFilters i filters built=.ok result) : ∀ f∈filters, f.field∈s.columns := by
  induction filters generalizing i built with
  | nil => simp
  | cons filter rest ih =>
    unfold addFilters checkFilter at h
    grind [mem_columns]

private theorem checkOrders_fields {i : Nat} {order : List Order} (h : s.checkOrders i order=none) :
    ∀ o∈order, o.field∈s.columns := by
  induction order generalizing i with
  | nil => simp
  | cons first rest ih =>
    unfold checkOrders at h
    grind [mem_columns]

private theorem fields_mem_columns (h : s.buildRecallQuery q=.ok (sql,args)) :
    (∀ f∈q.filters, f.field∈s.columns) ∧ ∀ o∈q.order, o.field∈s.columns := by
  unfold buildRecallQuery at h
  grind [addFilters_fields,checkOrders_fields]

/-- Whatever fields a query names, the identifiers in its SQL are those of the store. -/
theorem recall_identifiers (h : s.buildRecallQuery q=.ok (sql,args)) {name : String}
    (hname : .ident name∈sql) : name∈s.tableName::s.embeddingCol::s.columns := by
  have hfields := fields_mem_columns h
  have hjoined : ∀ parts, .ident name∈joined parts → ∃ part∈parts, .ident name∈part :=
    fun _ h => by simpa using mem_of_mem_tail h
  have hscore : .ident name∈s.scoreExpr → name=s.embeddingCol := by
    unfold scoreExpr
    split <;> simp
  rw [(buildRecallQuery_eq h).2.1,recallSql,mem_append,mem_append,mem_append] at hname
  rcases hname with ((hselect | hconj) | horder) | hlimit
  · have hidentifier := getElem_mem s.identifierIdx.isLt
    unfold select at hselect
    grind
  · obtain ⟨⟨sql,n⟩,hmem,hident⟩ := mem_flatMap.mp hconj
    obtain ⟨clause,hclause,rfl⟩ := mem_map.mp (fst_mem_of_mem_zipIdx hmem)
    unfold clauses similarityClauses filterClause filterSql at hclause
    grind
  · unfold orderBy at horder
    grind
  · unfold limitClause at hlimit
    grind

def notes : Store where
  tableName := "notes"
  embeddingCol := "embedding"
  distMetric := .cosine
  columns := ["id","owner"]
  identifierIdx := ⟨1,by decide⟩

def recent : RecallQuery where
  text := "tea"
  limit := 5
  minSimilarity := some 1
  filters := [⟨"id",.isIn,⟨some (.slice .scalar),false,"7, 8"⟩⟩]
  order := []

theorem recall_sql_bound_recent : ∃ sql args, notes.buildRecallQuery recent=.ok (sql,args) ∧
    ∀ n, .param n∈sql ↔ 1≤n ∧ n≤2+args.length :=
  ⟨_,_,rfl,(recall_sql_bound (s := notes) (q := recent) rfl).1⟩

theorem recall_identifiers_recent : ∃ sql args, notes.buildRecallQuery recent=.ok (sql,args) ∧
    ∀ name, .ident name∈sql → name∈["notes","embedding","id","owner"] :=
  ⟨_,_,rfl,fun _ => recall_identifiers (s := notes) (q := recent) rfl⟩
end Store
end GudeAgents.Memory.Postgres
