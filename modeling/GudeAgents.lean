import GudeAgents.Guarantees.AnsweredCalls
import GudeAgents.Guarantees.Results
import GudeAgents.Guarantees.Keys
import GudeAgents.Guarantees.Realignment
import GudeAgents.Guarantees.Refusals
import GudeAgents.Guarantees.StructuredOutput
import GudeAgents.RateLimit.Fixed
import GudeAgents.RateLimit.Deadlines
import GudeAgents.RateLimit.Redis.Totals
import GudeAgents.RateLimit.Slots
import GudeAgents.Schema.Generated
import GudeAgents.Access.Roles
import GudeAgents.Rag.Replacement
import GudeAgents.Rag.Splitting
import GudeAgents.Rag.Histories
import GudeAgents.Rag.Redis
import GudeAgents.Mcp.Wakeups
import GudeAgents.Events.Parallel
import GudeAgents.Memory.Postgres.Query
import GudeAgents.Memory.Redis.Isolation
import GudeAgents.WebFetch.Fetch
import GudeAgents.Schema.Meaning
import GudeAgents.Schema.Recursion
import GudeAgents.Guarantees.Removal
import GudeAgents.ContextManager.Window
import GudeAgents.ContextManager.RollingSummary
import GudeAgents.Guarantees.Preflight
import GudeAgents.Guarantees.Shape
import GudeAgents.Guarantees.Idempotence
import GudeAgents.Provider.Fallback
import GudeAgents.Provider.Thinking
import GudeAgents.Provider.UrlFetch
import GudeAgents.RateLimit.Overflow
import GudeAgents.Guarantees.Preimages
