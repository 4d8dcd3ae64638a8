import Mathlib.Logic.Basic
/-!
# Messages and errors

The data of `provider.go`, `content.go`, `widget.go` and `tool/guard.go`, and the error values the
engine inspects.  JSON documents are text; everything that reads them goes through `Host`.
-/
namespace GudeAgents
abbrev RawMessage := String

/-- Functions of the Go standard library that the engine calls on text. -/
class Host where
  /-- `hex.EncodeToString` of `sha256.Sum256`. -/
  sha256Hex : String → String
  /-- Decode one JSON value with `UseNumber`, refuse trailing input, and marshal it again. -/
  canonicalJSON : RawMessage → Except String String
  /-- `json.Marshal` of a string. -/
  jsonString : String → String
  /-- The `%q` verb of `fmt`. -/
  quote : String → String

inductive Role where
  | user
  | assistant
  deriving DecidableEq, Repr

structure ImageSource where
  data : List UInt8 := []
  base64 : String := ""
  url : String := ""
  mimeType : String := ""
  deriving DecidableEq, Repr

private def countSet (fields : List Bool) : Nat := fields.count true
def validMIMETypes : List String := ["image/jpeg","image/png","image/gif","image/webp"]

def ImageSource.validate (s : ImageSource) : Except String Unit :=
  let sources := countSet [!s.data.isEmpty,s.base64 != "",s.url != ""]
  if sources = 0 then .error "image source: one of Data, Base64, or URL must be set"
  else if sources > 1 then .error "image source: only one of Data, Base64, or URL may be set"
  else if s.url != "" then .ok ()
  else if s.mimeType ∉ validMIMETypes then
    .error ("unsupported image MIME type " ++ s.mimeType ++
      ": must be one of image/jpeg, image/png, image/gif, image/webp")
  else .ok ()

structure ImageBlock where
  source : ImageSource
  deriving DecidableEq, Repr

structure DocumentSource where
  data : List UInt8 := []
  base64 : String := ""
  url : String := ""
  fileID : String := ""
  s3URI : String := ""
  s3BucketOwner : String := ""
  mimeType : String := ""
  name : String := ""
  deriving DecidableEq, Repr

def validDocMIMETypes : List String :=
  ["application/pdf","text/plain","text/html","text/csv","text/markdown",
    "application/vnd.openxmlformats-officedocument.wordprocessingml.document",
    "application/vnd.openxmlformats-officedocument.spreadsheetml.sheet",
    "application/msword","application/vnd.ms-excel"]

def DocumentSource.validate (s : DocumentSource) : Except String Unit :=
  let sources := countSet [!s.data.isEmpty,s.base64 != "",s.url != "",s.fileID != "",s.s3URI != ""]
  if sources = 0 then
    .error "document source: one of Data, Base64, URL, FileID, or S3URI must be set"
  else if sources > 1 then
    .error "document source: only one of Data, Base64, URL, FileID, or S3URI may be set"
  else if s.s3URI != "" then
    if s.s3URI.startsWith "s3://" then .ok ()
    else .error "document source: S3URI must start with s3://"
  else if s.url != "" || s.fileID != "" then .ok ()
  else if s.mimeType ∉ validDocMIMETypes then
    .error ("unsupported document MIME type " ++ s.mimeType)
  else .ok ()

structure DocumentBlock where
  source : DocumentSource
  deriving DecidableEq, Repr

structure ToolUseBlock where
  toolUseID : String
  name : String
  input : RawMessage
  deriving DecidableEq, Repr

structure ToolResultBlock where
  toolUseID : String
  content : String := ""
  isError : Bool := false
  images : List ImageBlock := []
  deriving DecidableEq, Repr

structure WidgetBlock where
  type : String
  payload : RawMessage
  deriving DecidableEq, Repr

inductive ContentBlock where
  | text (text : String)
  | toolUse (use : ToolUseBlock)
  | toolResult (result : ToolResultBlock)
  | image (image : ImageBlock)
  | document (document : DocumentBlock)
  | widget (widget : WidgetBlock)
  deriving DecidableEq, Repr

structure Message where
  role : Role
  content : List ContentBlock
  deriving DecidableEq, Repr

def ContentBlock.toolUse? : ContentBlock → Option ToolUseBlock
  | .toolUse use => some use
  | _ => none
def ContentBlock.toolResult? : ContentBlock → Option ToolResultBlock
  | .toolResult result => some result
  | _ => none
def Message.toolUses (m : Message) : List ToolUseBlock := m.content.filterMap ContentBlock.toolUse?
def Message.toolResults (m : Message) : List ToolResultBlock :=
  m.content.filterMap ContentBlock.toolResult?

structure TokenUsage where
  inputTokens : Int := 0
  outputTokens : Int := 0
  cacheReadTokens : Int := 0
  cacheWriteTokens : Int := 0
  deriving DecidableEq, Repr

namespace TokenUsage
def total (u : TokenUsage) : Int := u.inputTokens + u.outputTokens

instance : Zero TokenUsage := ⟨{}⟩

instance : Add TokenUsage where
  add u v :=
    { inputTokens := u.inputTokens + v.inputTokens
      outputTokens := u.outputTokens + v.outputTokens
      cacheReadTokens := u.cacheReadTokens + v.cacheReadTokens
      cacheWriteTokens := u.cacheWriteTokens + v.cacheWriteTokens }
end TokenUsage
structure ToolCall where
  toolUseID : String
  name : String
  input : RawMessage
  deriving DecidableEq, Repr

/-- `tool.Decision`; its zero value denies. -/
structure Decision where
  allow : Bool := false
  reason : String := ""
  deriving DecidableEq, Repr

structure ModelResponse where
  text : String := ""
  toolCalls : List ToolCall := []
  usage : TokenUsage := {}
  deriving DecidableEq, Repr

inductive ContextError where
  | canceled
  | deadlineExceeded
  deriving DecidableEq, Repr

def ContextError.message : ContextError → String
  | .canceled => "context canceled"
  | .deadlineExceeded => "context deadline exceeded"

/-- Error values.  `wrap` is `fmt.Errorf` with one `%w`, `text` an error without a cause. -/
inductive Error where
  | context (cause : ContextError)
  | executionNotFound
  | executionConflict
  | noExecutionStore
  | executionRecoveryUnsupported
  | conversationConflict
  | conversationIDRequired
  | pauseStorageRequired
  | interruptNotFound
  | toolExecutionUncertain (executionID callID toolName idempotencyKey : String)
  | tokenBudgetExceeded
  | rateLimitExceeded
  | maxIterations (limit : Nat)
  | guardrail (direction : String) (cause : Error)
  | provider (cause : Error)
  | text (message : String)
  | wrap (message : String) (cause : Error)
  | join (left right : Error)
  deriving DecidableEq, Repr

namespace Error
/-- `errors.Is` for a target that `p` recognises, along every `Unwrap` chain. -/
def is (p : Error → Bool) : Error → Bool
  | e@(guardrail _ cause) => p e || cause.is p
  | e@(provider cause) => p e || cause.is p
  | e@(wrap _ cause) => p e || cause.is p
  | e@(join left right) => p e || left.is p || right.is p
  | e => p e

def isCanceled (e : Error) : Bool := e.is (· == context .canceled)
def isDeadlineExceeded (e : Error) : Bool := e.is (· == context .deadlineExceeded)
def isRateLimitExceeded (e : Error) : Bool := e.is (· == rateLimitExceeded)
def isProvider (e : Error) : Bool := e.is fun
  | provider _ => true
  | _ => false
def isUncertain (e : Error) : Bool := e.is fun
  | toolExecutionUncertain .. => true
  | _ => false
end Error
inductive StoreFault where
  | conflict
  | notFound
  | context (cause : ContextError)
  | other (message : String)
  deriving DecidableEq, Repr

def StoreFault.execution : StoreFault → Error
  | .conflict => .executionConflict
  | .notFound => .executionNotFound
  | .context cause => .context cause
  | .other message => .text message

def StoreFault.conversation : StoreFault → Error
  | .conflict => .conversationConflict
  | .notFound => .text "conversation not found"
  | .context cause => .context cause
  | .other message => .text message

@[simp] theorem StoreFault.execution_isUncertain (f : StoreFault) :
    f.execution.isUncertain = false := by
  cases f <;> rfl
end GudeAgents
