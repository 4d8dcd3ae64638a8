import GudeAgents.Conversation.Log
import GudeAgents.Framework.Runs
/-!
# Reading a stored conversation

Model of `LoadAfter` in the SQLite, PostgreSQL and Redis stores, among the writes of others. The
three read the cursor and then the messages, outside of a transaction.
-/
namespace GudeAgents.Conversation
open Framework List
inductive Backend where
  | sqlite
  | postgres
  | redis
deriving DecidableEq

/-- The rows of one conversation: its metadata and its messages with their sequences. The messages
are numbered from 1 and the metadata counts them. -/
structure Stored (M : Type) where
  /-- `revision` and `last_sequence`; a row or hash without them is missing. -/
  metadata : Option Cursor
  rows : List (M × Nat)
  numbered : rows = (rows.map Prod.fst).zipIdx 1
  lastSequence_eq : (metadata.getD ⟨0,0⟩).lastSequence = UInt64.ofNat rows.length
  length_le : rows.length ≤ maxInt

namespace Stored
variable {M : Type}
def missing : Stored M where
  metadata := none
  rows := []
  numbered := rfl
  lastSequence_eq := rfl
  length_le := Nat.zero_le maxInt

def log (s : Stored M) : Log M :=
  ⟨s.rows.map Prod.fst,(s.metadata.getD ⟨0,0⟩).revision⟩

inductive AppendError where
  | conflict
  | outOfRange

def append (s : Stored M) (messages : List M) (expected : UInt64) :
    Except AppendError Cursor × Stored M :=
  let cursor := s.metadata.getD ⟨0,0⟩
  if cursor.revision ≠ expected then (.error .conflict,s)
  else if messages.length = 0 then (.ok cursor,s)
  else if hfits : s.rows.length + messages.length ≤ maxInt ∧ cursor.revision.toNat + 1 ≤ maxInt then
    let next : Cursor := ⟨cursor.revision + 1,cursor.lastSequence + UInt64.ofNat messages.length⟩
    (.ok next,
      { metadata := some next
        rows := s.rows ++ messages.zipIdx (s.rows.length + 1)
        numbered := by
          rw [map_append,zipIdx_map_fst,zipIdx_append,← s.numbered,length_map,Nat.add_comm 1]
        lastSequence_eq := by
          rw [length_append,length_zipIdx,UInt64.ofNat_add,← s.lastSequence_eq]
          rfl
        length_le := by
          rw [length_append,length_zipIdx]
          exact hfits.1 })
  else (.error .outOfRange,s)

def delete (_ : Stored M) : Stored M := missing

/-- The part of `SaveContextState` that touches the metadata: the SQL stores insert a row without
messages if there is none. -/
def saveContextState (backend : Backend) (s : Stored M) : Stored M :=
  match backend with
  | .redis => s
  | _ => { s with metadata := some (s.metadata.getD ⟨0,0⟩), lastSequence_eq := s.lastSequence_eq }

inductive Write (backend : Backend) : Stored M → Stored M → Prop where
  | append (s : Stored M) (messages : List M) (expected : UInt64) :
      Write backend s (s.append messages expected).2
  | delete (s : Stored M) : Write backend s s.delete
  | saveContextState (s : Stored M) : Write backend s (s.saveContextState backend)
end Stored
inductive RangeStart where
  | first
  | above (sequence : UInt64)

inductive Statement where
  | metadata
  | range (start : RangeStart)

def reads (M : Type) : Effects where
  Op := Statement
  Ans
    | .metadata => Option Cursor
    | .range _ => List M

def Stored.answer {M : Type} : (op : (reads M).Op) → Stored M → (reads M).Ans op
  | .metadata, s => s.metadata
  | .range .first, s => s.rows.map Prod.fst
  | .range (.above k), s => (s.rows.filter fun row => k.toNat < row.2).map Prod.fst

/-- The range that each store asks for. The drivers of the SQL stores refuse an argument outside of
the signed range; the Redis store writes a stream position. -/
def Backend.rangeStart : Backend → UInt64 → Except String RangeStart
  | .sqlite, k =>
    if maxInt < k.toNat then
      .error ("sqlite conversation: load range: sql: converting argument $2 type: " ++
        "uint64 values with high bit set are not supported")
    else .ok (.above k)
  | .postgres, k =>
    if maxInt < k.toNat then
      .error "postgres conversation: load range: value is greater than maximum value for int8"
    else .ok (.above k)
  | .redis, k => .ok (if 0 < k then .above k else .first)

def loadAfter (M : Type) (backend : Backend) (k : UInt64) :
    Program (reads M) (Except String (Snapshot M)) :=
  .call Statement.metadata fun
    | none => .done (.ok ⟨[],0,0⟩)
    | some cursor =>
      match backend.rangeStart k with
      | .error err => .done (.error err)
      | .ok start =>
        .call (Statement.range start) fun messages =>
          .done (.ok ⟨messages,cursor.revision,cursor.lastSequence⟩)

namespace Stored
variable {M : Type}
theorem metadata_log (s : Stored M) {cursor : Cursor} (h : s.metadata = some cursor) :
    s.log.revision = cursor.revision ∧ s.log.lastSequence = cursor.lastSequence := by
  have hlast := s.lastSequence_eq
  rw [h] at hlast
  simp only [log,Log.lastSequence,h,Option.getD_some,length_map]
  exact ⟨trivial,hlast.symm⟩

theorem length_rows (s : Stored M) :
    s.rows.length = (s.metadata.getD ⟨0,0⟩).lastSequence.toNat := by
  have hle := s.length_le
  rw [s.lastSequence_eq,UInt64.toNat_ofNat']
  unfold maxInt at hle
  rw [Nat.mod_eq_of_lt (by omega)]

theorem log_of_missing {s : Stored M} (h : s.metadata = none) : s.log = {} := by
  have hrows := s.length_rows
  rw [h] at hrows
  have hnil : s.rows = [] := length_eq_zero_iff.mp hrows
  simp [log,h,hnil]

theorem answer_range (s : Stored M) {backend : Backend} {k : UInt64} {start : RangeStart}
    (h : backend.rangeStart k = .ok start) : s.answer (.range start) = s.log.above k := by
  have habove : s.answer (.range (.above k)) = s.log.above k := by
    rw [Log.above,log,← s.numbered]
    rfl
  cases backend with
  | sqlite | postgres =>
    simp only [Backend.rangeStart] at h
    split_ifs at h
    cases h
    exact habove
  | redis =>
    simp only [Backend.rangeStart] at h
    by_cases hpos : 0 < k
    · rw [if_pos hpos] at h
      cases h
      exact habove
    · rw [if_neg hpos] at h
      cases h
      have hzero : k.toNat = 0 := by
        exact Nat.eq_zero_of_not_pos hpos
      rw [Log.above_eq_drop,hzero,drop_zero]
      rfl
end Stored
variable {M : Type}
/-- A write that, if the reader has its cursor and not yet its messages, leaves the messages above
`k` alone. -/
def WritesApart (backend : Backend) (k : UInt64)
    (p : Program (reads M) (Except String (Snapshot M))) (s s' : Stored M) : Prop :=
  Stored.Write backend s s' ∧
    ((∃ start, p.op? = some (Statement.range start)) → s'.log.above k = s.log.above k)

theorem above_of_writesApart {backend : Backend} {k : UInt64} {start : RangeStart}
    {p : Program (reads M) (Except String (Snapshot M))}
    (hop : p.op? = some (Statement.range start)) {s s' : Stored M}
    (h : Relation.ReflTransGen (WritesApart backend k p) s s') :
    s'.log.above k = s.log.above k := by
  induction h with
  | refl => rfl
  | tail _ hwrite ih => rw [hwrite.2 ⟨start,hop⟩,ih]

/-- `LoadAfter` among writes that do not touch the messages above its cursor between its two reads
returns a snapshot of a state between its call and its return. -/
theorem loadAfter_returns_snapshot {backend : Backend} {k : UInt64} {states : List (Stored M)}
    {snapshot : Snapshot M}
    (h : (loadAfter M backend k).Among Stored.answer (WritesApart backend k) states (.ok snapshot)) :
    (∃ s ∈ states, snapshot = s.log.snapshot k) ∧ snapshot.messages.length =
        snapshot.lastSequence.toNat - min k.toNat snapshot.lastSequence.toNat := by
  suffices hsnapshot : ∃ s ∈ states, snapshot = s.log.snapshot k by
    refine ⟨hsnapshot,?_⟩
    obtain ⟨s,-,rfl⟩ := hsnapshot
    apply Log.length_snapshot_messages
    rw [Stored.log,length_map]
    exact s.length_le
  cases states with
  | nil => cases h
  | cons s0 later =>
    obtain ⟨s,rest,-,hsuffix,hrun⟩ := h.of_call
    have hvisited : s ∈ s0 :: later := hsuffix.subset mem_cons_self
    refine ⟨s,hvisited,?_⟩
    cases hmeta : s.metadata with
    | none =>
      simp only [Stored.answer,hmeta] at hrun
      have hvalue := hrun.of_done
      cases hvalue
      rw [Stored.log_of_missing hmeta]
      rfl
    | some cursor =>
      simp only [Stored.answer,hmeta] at hrun
      obtain ⟨hrevision,hlast⟩ := s.metadata_log hmeta
      cases hstart : backend.rangeStart k with
      | error err =>
        simp only [hstart] at hrun
        cases hrun.of_done
      | ok start =>
        simp only [hstart] at hrun
        obtain ⟨s',tail,hreach,-,hread⟩ := hrun.of_call
        have hvalue := hread.of_done
        rw [Except.ok.injEq] at hvalue
        rw [hvalue,s'.answer_range hstart,above_of_writesApart rfl hreach,← hrevision,← hlast]
        rfl

/-- Some run of `LoadAfter` among writes of others returns what no state between its call and its
return holds, and not as many messages as its cursor says. -/
def TornRead (backend : Backend) : Prop :=
  ∃ (k : UInt64) (states : List (Stored String)) (snapshot : Snapshot String),
    (loadAfter String backend k).Among Stored.answer (fun _ => Stored.Write backend) states
      (.ok snapshot) ∧
    (∀ s ∈ states, snapshot ≠ s.log.snapshot k) ∧
    snapshot.messages.length ≠ snapshot.lastSequence.toNat - min k.toNat snapshot.lastSequence.toNat

def oneMessage : Stored String := (Stored.missing.append ["hello"] 0).2
def twoMessages : Stored String := (oneMessage.append ["again"] 1).2

theorem loadAfter_mixes_states : TornRead .sqlite ∧ TornRead .postgres ∧ TornRead .redis := by
  have htorn : ∀ backend, TornRead backend := by
    intro backend
    refine ⟨0,[oneMessage,twoMessages],⟨["hello","again"],1,1⟩,?_,?_,?_⟩
    · apply Program.Among.call
      cases backend <;>
        exact .other (.append oneMessage ["again"] 1) (.call (.done _ twoMessages))
    · decide
    · decide
  exact ⟨htorn .sqlite,htorn .postgres,htorn .redis⟩

theorem loadAfter_returns_snapshot_past_end :
    (∃ s ∈ [oneMessage,twoMessages], (⟨[],1,1⟩ : Snapshot String) = s.log.snapshot 7) ∧
      ([] : List String).length = (1 : UInt64).toNat - min (7 : UInt64).toNat (1 : UInt64).toNat := by
  have hwrite : WritesApart .sqlite 7
      (.call (Statement.range (.above 7)) fun messages => .done (.ok ⟨messages,1,1⟩))
      oneMessage twoMessages :=
    ⟨.append oneMessage ["again"] 1,fun _ => by decide⟩
  have hrun : (loadAfter String .sqlite 7).Among Stored.answer (WritesApart .sqlite 7)
      [oneMessage,twoMessages] (.ok ⟨[],1,1⟩) :=
    .call (.other hwrite (.call (.done _ twoMessages)))
  exact loadAfter_returns_snapshot hrun
end GudeAgents.Conversation
