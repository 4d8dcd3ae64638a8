import Mathlib.Data.List.Basic
/-!
# Search queries of the Redis memory store

How `memory/redis/store.go` writes the conditions of a RediSearch query, and how RediSearch reads
the tokens of a tag condition. A query is the list of its conditions, which stand in parentheses one
behind the other. Names of fields are UTF-8, and a query names them as the schema does.
-/
namespace GudeAgents.Memory.Redis
open List
/-- A Go string: any bytes. -/
abbrev Text : Type := List UInt8
def utf8 (chars : List Char) : Text := chars.flatMap String.utf8EncodeChar
def text (s : String) : Text := utf8 s.toList

def runesFrom : Nat → Text → List Char
  | 0, _ => []
  | fuel+1, s =>
    match s with
    | [] => []
    | _ :: rest =>
      match (ByteArray.mk s.toArray).utf8DecodeChar? 0 with
      | some c => c::runesFrom fuel (s.drop c.utf8Size)
      | none => '�'::runesFrom fuel rest

/-- The runes over which `range` goes; a byte that is no part of an encoded rune gives U+FFFD. -/
def runes (s : Text) : List Char := runesFrom s.length s

/-- The character tables of the `unicode` package that are used here, and the case folding of tags.
Of the characters below 128, letters and digits are the alphanumeric ones. -/
structure Unicode where
  isLetter : Char → Bool
  isDigit : Char → Bool
  fold : Text → Text
  isAlphanum_of_ascii : ∀ c : Char, c.toNat<128 → (isLetter c || isDigit c)=true →
    c.isAlphanum=true

def Unicode.keeps (u : Unicode) (c : Char) : Bool :=
  u.isLetter c || u.isDigit c || c = '_'

/-- `escapeTag`; the names of fields are not escaped here, a condition carries them as data. -/
def escapeTag (u : Unicode) (value : Text) : List Char :=
  (runes value).flatMap fun c => if u.keeps c then [c] else ['\\',c]

/-- The text of a number as `strconv` writes it. -/
def Numeral : Type :=
  { literal : List Char // ∀ c∈literal, c.isDigit ∨ c = '+' ∨ c = '-' ∨ c = '.' ∨ c = 'e' }

/-- One condition of a query: escaped tokens between bars for a tag, and for a number bounds, each a
number, one in front of which an opening parenthesis excludes it, or an infinity. -/
inductive Clause where
  | tag (negated : Bool) (field : String) (tokens : List Char)
  | range (negated : Bool) (field : String) (low high : List Char)
  | anyRange (ranges : List (String×List Char×List Char))

inductive FilterOperator where
  | equal
  | notEqual
  | greaterThan
  | greaterThanOrEqual
  | lessThan
  | lessThanOrEqual
  | isIn
  | unknown (name : String)
deriving DecidableEq

/-- The value of a filter: a string, a finite number or time with its text, a number that is not
finite, nil, a slice, or a value of another type. -/
inductive FilterValue where
  | string (text : Text)
  | number (literal : Numeral)
  | notFinite
  | absent
  | slice (values : List FilterValue)
  | other

structure Filter where
  field : Text
  operator : FilterOperator
  value : FilterValue

inductive QueryError where
  | tagValueNotString
  | numericValueAbsent
  | numericValueNotFinite
  | numericValueNotNumber
  | emptyIn
  | inValue (index : Nat) (cause : QueryError)
  | tagOperator (operator : FilterOperator)
  | numericOperator (operator : FilterOperator)
  | unknownField (field : Text)
  | textField
  | unsupportedFilter (field : Text) (cause : QueryError)

inductive FieldType where
  | tag
  | numeric
  | text
deriving DecidableEq

/-- `redisFieldInfo`, as far as the operations use it. -/
structure FieldInfo where
  hashField : String
  fieldType : FieldType

def tagLiteral (u : Unicode) : FilterValue → Except QueryError (List Char)
  | .string text => .ok (escapeTag u text)
  | _ => .error .tagValueNotString

def numericLiteral : FilterValue → Except QueryError Numeral
  | .number literal => .ok literal
  | .notFinite => .error .numericValueNotFinite
  | .absent => .error .numericValueAbsent
  | _ => .error .numericValueNotNumber

def encodeValues {α : Type} (encode : FilterValue → Except QueryError α) :
    Nat → List FilterValue → Except QueryError (List α)
  | _, [] => .ok []
  | i, value::values =>
    match encode value with
    | .error cause => .error (.inValue i cause)
    | .ok literal => (encodeValues encode (i+1) values).map (literal :: ·)

def filterValues {α : Type} (encode : FilterValue → Except QueryError α) :
    FilterValue → Except QueryError (List α)
  | .slice (value::values) => encodeValues encode 0 (value::values)
  | _ => .error .emptyIn

def compileTagFilter (u : Unicode) (field : String) (operator : FilterOperator)
    (value : FilterValue) : Except QueryError Clause :=
  match operator with
  | .equal => (tagLiteral u value).map fun literal => .tag false field literal
  | .notEqual => (tagLiteral u value).map fun literal => .tag true field literal
  | .isIn => (filterValues (tagLiteral u) value).map fun literals =>
    .tag false field (intercalate ['|'] literals)
  | other => .error (.tagOperator other)

def compileNumericFilter (field : String) (operator : FilterOperator) (value : FilterValue) :
    Except QueryError Clause :=
  match operator with
  | .isIn =>
    (filterValues numericLiteral value).map fun literals =>
      .anyRange (literals.map fun literal => (field,literal.val,literal.val))
  | .unknown name => (numericLiteral value).bind fun _ => .error (.numericOperator (.unknown name))
  | other => (numericLiteral value).map fun literal =>
    match other with
    | .notEqual => .range true field literal.val literal.val
    | .greaterThan => .range false field ('('::literal.val) "+inf".toList
    | .greaterThanOrEqual => .range false field literal.val "+inf".toList
    | .lessThan => .range false field "-inf".toList ('('::literal.val)
    | .lessThanOrEqual => .range false field "-inf".toList literal.val
    | _ => .range false field literal.val literal.val

def schemaField (fields : List FieldInfo) (name : Text) : Option FieldInfo :=
  fields.find? fun field => text field.hashField=name

def compileFilter (u : Unicode) (fields : List FieldInfo) (filter : Filter) :
    Except QueryError Clause :=
  match schemaField fields filter.field with
  | none => .error (.unknownField filter.field)
  | some field =>
    (match field.fieldType with
      | .tag => compileTagFilter u field.hashField filter.operator filter.value
      | .numeric => compileNumericFilter field.hashField filter.operator filter.value
      | .text => .error .textField).mapError (.unsupportedFilter filter.field)

/-- The condition on the identifier, which is all of the query of `ForgetAll`. -/
def identifierClause (u : Unicode) (identField : String) (identifier : Text) : Clause :=
  .tag false identField (escapeTag u identifier)
def buildRecallFilter (u : Unicode) (fields : List FieldInfo) (identField : String)
    (identifier : Text) (filters : List Filter) : Except QueryError (List Clause) :=
  (filters.mapM (compileFilter u fields)).map (identifierClause u identField identifier :: ·)

/-- The characters that RediSearch takes as part of a token without a backslash. -/
def isPlain (c : Char) : Bool :=
  c.isAlphanum || c = '_' || 128≤c.toNat

def addRune (c : Char) : List (List Char) → List (List Char)
  | [] => [[c]]
  | token::tokens => (c::token)::tokens

/-- The tokens between the braces of a tag condition, unless they are no tokens. -/
def readTokens : List Char → Option (List (List Char))
  | [] => some [[]]
  | '\\'::c::rest => (readTokens rest).map (addRune c)
  | '|'::rest => (readTokens rest).map ([] :: ·)
  | c::rest => if isPlain c then (readTokens rest).map (addRune c) else none

theorem isPlain_of_keeps {u : Unicode} {c : Char} (h : u.keeps c=true) : isPlain c=true := by
  rw [Unicode.keeps,Bool.or_eq_true] at h
  by_cases hascii : c.toNat<128
  · rcases h with hword | hunder
    · simp [isPlain,u.isAlphanum_of_ascii c hascii hword]
    · simp [isPlain,of_decide_eq_true hunder]
  · simp [isPlain,Nat.le_of_not_lt hascii]

theorem readTokens_plain {c : Char} (h : isPlain c=true) (rest : List Char) :
    readTokens (c::rest)=(readTokens rest).map (addRune c) := by
  have hslash : c ≠ '\\' := by
    rintro rfl
    exact absurd h (by decide)
  have hbar : c ≠ '|' := by
    rintro rfl
    exact absurd h (by decide)
  rw [readTokens.eq_def]
  split <;> simp_all

/-- An escaped value is read as one token, whatever its characters. -/
theorem readTokens_escapeTag (u : Unicode) (value : Text) :
    readTokens (escapeTag u value)=some [runes value] := by
  unfold escapeTag
  induction runes value with
  | nil => rfl
  | cons c value ih =>
    rw [flatMap_cons]
    by_cases hkeeps : u.keeps c=true
    · rw [if_pos hkeeps,singleton_append,readTokens_plain (isPlain_of_keeps hkeeps),ih]
      rfl
    · rw [if_neg hkeeps]
      show (readTokens (flatMap _ value)).map (addRune c)=_
      rw [ih]
      rfl
end GudeAgents.Memory.Redis
