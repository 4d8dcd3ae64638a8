import GudeAgents.Framework.Runs
import GudeAgents.Net.Url
/-!
# URL media of the Bedrock adapter

Model of the fetches in `provider/bedrock/bedrock.go`. The resolver, the transport and the servers
answer as they like, and differently each time. An address is dialed as it is, and a parsed URL is
requested as it is.
-/
namespace GudeAgents.Provider.Bedrock
open Framework Net List
/-- `netip.Addr`; an IPv4 address is mapped into sixteen bytes. -/
structure Addr where
  ip : IP
  zone : Text := []
deriving DecidableEq

def Addr.unmap (addr : Addr) : Addr := if addr.ip.to4.isSome then ⟨addr.ip,[]⟩ else addr

def parseAddr (s : Text) : Option Addr :=
  match cut '%' s with
  | (_,none) => (parseIP s).map (⟨·,[]⟩)
  | (literal,some zone) =>
    if zone=[] ∨ literal.find? (fun c => c = '.' ∨ c = ':')≠some ':' then none
    else (parseIPv6 literal).map (⟨·,zone⟩)

def addrFromSlice (ip : IP) : Option Addr :=
  if ip.length=4 then some ⟨replicate 10 0++[255,255]++ip,[]⟩
  else if ip.length=16 then some ⟨ip,[]⟩
  else none

structure UrlFetchPolicy where
  allowPrivateNetworks : Bool := false

/-- `url.URL`, as far as it is checked. -/
structure Target where
  scheme : Text
  user : Option Text := none
  hostname : Text

inductive AddressKind where
  | metadata | loopback | linkLocal | privateIP | unspecified | multicast

inductive FetchError where
  | parse | scheme | credentials | noHost | redirects | send | tooLarge | read
  | base64 | noSource | fileID
  | address (kind : AddressKind) (addr : Addr)
  | lookup (host : Text)
  | noAddresses (host : Text)
  | invalidAddress (host : Text)
  | resolved (host : Text) (cause : FetchError)
  | redirect (cause : FetchError)
  | status (code : Int)
  | fetch (resource : String) (cause : FetchError)
  | block (name : String) (cause : FetchError)

structure Response where
  status : Int
  contentLength : Int
  /-- What can be read of the body, unless reading it fails. -/
  body : Option (List UInt8)

inductive Answer where
  | failed
  | response (r : Response)
  | redirect (target : Target)

inductive Op where
  | lookup (host : Text)
  /-- The transport is handed a request; it answers with the hosts that it dials for it. -/
  | request (target : Target)
  | connect (addr : Addr)
  | answer

def effects : Effects where
  Op := Op
  Ans
    | .lookup _ => Option (List IP)
    | .request _ => List Text
    | .connect _ => Unit
    | .answer => Answer

abbrev Fetch (α : Type) : Type := Routine effects Unit FetchError α
def ask (op : Op) : Fetch (effects.Ans op) := @Routine.perform effects Unit FetchError op

def validateURLFetchIP (addr : Addr) (policy : UrlFetchPolicy) : Option FetchError :=
  if addr=⟨replicate 10 0++[255,255,169,254,169,254],[]⟩ ∨
      addr=⟨[253,0,14,194]++replicate 10 0++[2,84],[]⟩ then
    some (.address .metadata addr)
  else if addr.ip.isLoopback then some (.address .loopback addr)
  else if addr.ip.isLinkLocalUnicast ∨ addr.ip.isLinkLocalMulticast then
    some (.address .linkLocal addr)
  else if addr.ip.isPrivate ∧ policy.allowPrivateNetworks=false then
    some (.address .privateIP addr)
  else if addr=⟨replicate 10 0++[255,255,0,0,0,0],[]⟩ ∨ addr=⟨replicate 16 0,[]⟩ then
    some (.address .unspecified addr)
  else if addr.ip.isMulticast then some (.address .multicast addr)
  else none

def checkResolved (policy : UrlFetchPolicy) (host : Text) : List IP → Except FetchError (List Addr)
  | [] => .ok []
  | ip::rest =>
    match addrFromSlice ip with
    | none => .error (.invalidAddress host)
    | some addr =>
      match validateURLFetchIP addr.unmap policy with
      | some err => .error (.resolved host err)
      | none => (checkResolved policy host rest).map (addr.unmap :: ·)

def resolveURLFetchHost (policy : UrlFetchPolicy) (host : Text) : Fetch (List Addr) :=
  match parseAddr host with
  | some addr =>
    match validateURLFetchIP addr.unmap policy with
    | some err => Routine.throw err
    | none => pure [addr.unmap]
  | none => do
    match ← ask (.lookup host) with
    | none => Routine.throw (.lookup host)
    | some [] => Routine.throw (.noAddresses host)
    | some resolved => Routine.ofExcept (checkResolved policy host resolved)

def validateURLFetchTarget (policy : UrlFetchPolicy) (target : Target) : Fetch Unit :=
  if target.scheme≠"https".toList then Routine.throw .scheme
  else if target.user.isSome then Routine.throw .credentials
  else if target.hostname=[] then Routine.throw .noHost
  else do
    let _ ← resolveURLFetchHost policy target.hostname

/-- `safeURLFetchDialContext`; the transport gets to know whether it failed. -/
def dial (policy : UrlFetchPolicy) (host : Text) : Fetch Unit := do
  match ← (resolveURLFetchHost policy host).attempt with
  | .ok (addr::_) => ask (.connect addr)
  | _ => pure ()

def dialAll (policy : UrlFetchPolicy) : List Text → Fetch Unit
  | [] => pure ()
  | host::rest => do
    dial policy host
    dialAll policy rest

/-- `client.Do` of a client that dials with the policy `client`, when so many redirects may still be
followed. -/
def send (client policy : UrlFetchPolicy) : Nat → Target → Fetch Response
  | left, target => do
    dialAll client (← ask (.request target))
    match ← ask .answer with
    | .failed => Routine.throw .send
    | .response r => pure r
    | .redirect next =>
      match left with
      | 0 => Routine.throw .redirects
      | left+1 => do
        (validateURLFetchTarget policy next).mapError .redirect
        send client policy left next

def defaultURLFetchMaxRedirects : Nat := 3
def defaultURLFetchMaxResponseBytes : Nat := 10*1024*1024

/-- `target` is what `url.Parse` makes of the raw URL. -/
def fetchURLBytesWithPolicy (client policy : UrlFetchPolicy) (target : Option Target)
    (resource : String) : Fetch (List UInt8) :=
  Routine.mapError (.fetch resource) do
    match target with
    | none => Routine.throw .parse
    | some target =>
      validateURLFetchTarget policy target
      let r ← send client policy defaultURLFetchMaxRedirects target
      if r.status<200 ∨ 300≤r.status then Routine.throw (.status r.status)
      else if (defaultURLFetchMaxResponseBytes : Int)<r.contentLength then
        Routine.throw .tooLarge
      else
        match r.body with
        | none => Routine.throw .read
        | some stream =>
          let body := stream.take (defaultURLFetchMaxResponseBytes+1)
          if defaultURLFetchMaxResponseBytes<body.length then Routine.throw .tooLarge
          else pure body

def Recorded (op : Op) (log : List Op) (_ : effects.Ans op) (log' : List Op) : Prop :=
  log'=log++[op]
def Op.isRequest : Op → Bool
  | .request _ => true
  | _ => false

/-- Connections go to accepted addresses, and requested URLs are `https` without credentials. -/
def Op.Checked (client : UrlFetchPolicy) : Op → Prop
  | .connect addr => validateURLFetchIP addr client=none
  | .request target => target.scheme="https".toList ∧ target.user=none
  | _ => True
def Confined (client : UrlFetchPolicy) (n : Nat) (log : List Op) : Prop :=
  (∀ op∈log, op.Checked client) ∧ log.countP Op.isRequest=n

/-- Runs with checked calls only and at most four requests. -/
def confined (client : UrlFetchPolicy) : Logic effects (List Op) :=
  @Logic.always effects (List Op) Recorded fun _ log => ∃ n≤4, Confined client n log

section specs
open Logic
variable {client policy : UrlFetchPolicy} {n left : Nat} {log : List Op} {host : Text}
  {target : Target} {hosts : List Text}
theorem Confined.record {op : Op} (h : Confined client n log) (hop : op.Checked client) :
    Confined client (n+if op.isRequest then 1 else 0) (log++[op]) := by
  constructor
  · exact forall_mem_append.mpr ⟨h.1,forall_mem_singleton.mpr hop⟩
  · rw [countP_append,h.2,countP_singleton]

private theorem checkResolved_accepted {resolved : List IP} {ips : List Addr}
    (h : checkResolved policy host resolved=.ok ips) :
    ∀ addr∈ips, validateURLFetchIP addr policy=none := by
  induction resolved generalizing ips with
  | nil =>
    cases h
    simp
  | cons ip rest ih =>
    rw [checkResolved] at h
    split at h
    · cases h
    · split at h
      · cases h
      · next hvalid =>
        cases hrest : checkResolved policy host rest with
        | error err =>
          rw [hrest] at h
          cases h
        | ok more =>
          rw [hrest] at h
          cases h
          exact forall_mem_cons.mpr ⟨hvalid,ih hrest⟩

section
variable (hn : n≤4) (h : Confined client n log)
include hn h
theorem wp_ask {op : Op} {Q : effects.Ans op → Unit → List Op → Prop}
    {X : FetchError → Unit → List Op → Prop} (hq : ∀ answer, Q answer () (log++[op])) :
    (confined client).wp (ask op) () log Q X := by
  refine ⟨⟨n,hn,h⟩,?_⟩
  rintro answer _ rfl
  exact hq answer

theorem wp_resolveURLFetchHost : (confined client).wp (resolveURLFetchHost policy host) () log
      (fun ips _ log' => Confined client n log' ∧
        ∀ addr∈ips, validateURLFetchIP addr policy=none)
      (fun _ _ log' => Confined client n log') := by
  unfold resolveURLFetchHost
  split
  · split
    · exact h
    · next hvalid => exact ⟨h,forall_mem_singleton.mpr hvalid⟩
  · refine wp_bind.mpr (wp_ask hn h fun answer => ?_)
    have h' : Confined client n (log++[.lookup host]) := h.record trivial
    split
    · exact h'
    · exact h'
    · next resolved _ =>
      cases hresolved : checkResolved policy host resolved with
      | error err => exact h'
      | ok ips => exact ⟨h',checkResolved_accepted hresolved⟩

private theorem wp_validateURLFetchTarget :
    (confined client).wp (validateURLFetchTarget policy target) () log
      (fun _ _ log' => Confined client n log' ∧ (Op.request target).Checked client)
      (fun _ _ log' => Confined client n log') := by
  unfold validateURLFetchTarget
  split_ifs with hscheme huser hhost
  · exact h
  · exact h
  · exact h
  · refine wp_bind.mpr (wp_mono (wp_resolveURLFetchHost hn h) ?_ fun _ _ _ hlog => hlog)
    intro ips _ log' hips
    exact ⟨hips.1,not_not.mp hscheme,by simpa using huser⟩

private theorem wp_dialAll : (confined client).wp (dialAll client hosts) () log
      (fun _ _ log' => Confined client n log') (fun _ _ _ => False) := by
  induction hosts generalizing log with
  | nil => exact h
  | cons host rest ih =>
    refine wp_bind.mpr (wp_bind.mpr (wp_attempt.mpr ?_))
    refine wp_mono (wp_resolveURLFetchHost hn h) ?_ fun _ _ _ hlog => ih hlog
    rintro (_ | ⟨addr,ips⟩) _ log' ⟨hlog,hips⟩
    · exact ih hlog
    · exact wp_ask hn hlog fun _ => ih (hlog.record (hips addr (mem_cons_self ..)))
end
private theorem wp_exchange {α : Type} {f : Answer → Fetch α} {Q : α → Unit → List Op → Prop}
    {X : FetchError → Unit → List Op → Prop} (hn : n<4) (h : Confined client n log)
    (htarget : (Op.request target).Checked client)
    (hf : ∀ answer log', Confined client (n+1) log' → (confined client).wp (f answer) () log' Q X) :
    (confined client).wp (do dialAll client (← ask (.request target)); f (← ask .answer))
      () log Q X := by
  refine wp_bind.mpr (wp_ask (by omega) h fun hosts => ?_)
  have hsent : Confined client (n+1) (log++[.request target]) := h.record htarget
  refine wp_bind.mpr (wp_mono (wp_dialAll hn hsent) ?_ fun _ _ _ hfalse => hfalse.elim)
  intro _ _ log' hdialed
  exact wp_bind.mpr (wp_ask hn hdialed fun answer => hf answer _ (hdialed.record trivial))

/-- After this request there are at most as many more as redirects are left. -/
private theorem wp_send (hn : n+left<4) (h : Confined client n log)
    (htarget : (Op.request target).Checked client) :
    (confined client).wp (send client policy left target) () log
      (fun _ _ log' => ∃ m≤4, Confined client m log')
      (fun _ _ log' => ∃ m≤4, Confined client m log') := by
  induction left generalizing n log target with
  | zero =>
    rw [send]
    refine wp_exchange hn h htarget fun answer log' hlog => ?_
    cases answer <;> exact ⟨_,hn,hlog⟩
  | succ left ih =>
    have hsent : n+1≤4 := by omega
    rw [send]
    refine wp_exchange hsent h htarget fun answer log' hlog => ?_
    cases answer with
    | failed | response r => exact ⟨_,hsent,hlog⟩
    | redirect next =>
      refine wp_bind.mpr ((wp_mapError _).mpr ?_)
      refine wp_mono (wp_validateURLFetchTarget hsent hlog) ?_ fun _ _ _ h' => ⟨_,hsent,h'⟩
      intro _ _ log2 hvalid
      exact ih (by omega) hvalid.1 hvalid.2

/-- Every request follows a check of its target, there are at most three redirects, and a body is at
most ten mebibytes. -/
theorem url_fetches_confined {target : Option Target} {resource : String}
    {p : Program effects (Except FetchError (List UInt8)×Unit)}
    (hrun : (fetchURLBytesWithPolicy policy policy target resource ()).Runs Recorded [] p log) :
    (∀ op∈log, op.Checked policy) ∧ log.countP Op.isRequest≤1+3 ∧
      ∀ body, p=.done (.ok body,()) → body.length≤10*1024*1024 := by
  have hstart : Confined policy 0 [] := ⟨forall_mem_nil _,rfl⟩
  have hwp : (confined policy).wp (fetchURLBytesWithPolicy policy policy target resource) () []
      (fun body _ log' => (∃ m≤4, Confined policy m log') ∧ body.length≤10*1024*1024)
      (fun _ _ log' => ∃ m≤4, Confined policy m log') := by
    refine (wp_mapError _).mpr ?_
    split
    · exact ⟨0,by omega,hstart⟩
    · refine wp_bind.mpr (wp_mono (wp_validateURLFetchTarget (by omega) hstart) ?_
        fun _ _ _ h => ⟨0,by omega,h⟩)
      intro _ _ log' hvalid
      refine wp_bind.mpr (wp_mono (wp_send (by decide) hvalid.1 hvalid.2) ?_ fun _ _ _ h => h)
      intro r _ log2 h2
      split_ifs
      · exact h2
      · exact h2
      · split
        · exact h2
        · dsimp only
          split_ifs with hlength
          · exact h2
          · exact ⟨h2,Nat.le_of_not_lt hlength⟩
  have hsafe := Safe.runs hwp hrun
  have hlog : ∃ m≤4, Confined policy m log := by
    cases p with
    | call op next => exact hsafe.1
    | done out =>
      obtain ⟨_ | body,_⟩ := out
      · exact hsafe
      · exact hsafe.1
  obtain ⟨m,hm,hall,rfl⟩ := hlog
  refine ⟨hall,hm,?_⟩
  rintro body rfl
  exact hsafe.2
end specs
def intranet : Target := ⟨"https".toList,none,"10.0.0.1".toList⟩

def reply : (op : Op) → effects.Ans op
  | .lookup _ => (none : Option (List IP))
  | .request target => ([target.hostname] : List Text)
  | .connect _ => ()
  | .answer => Answer.response ⟨200,1,some [7]⟩

theorem url_fetches_confined_intranet :
    let run := (fetchURLBytesWithPolicy ⟨true⟩ ⟨true⟩ (some intranet) "image" ()).drive
      (fun op (log : List Op) => some (reply op,log.append [op])) 3 []
    run.2.length=3 ∧ (∀ op∈run.2, op.Checked ⟨true⟩) ∧ run.2.countP Op.isRequest≤1+3 := by
  intro run
  have hrun := @Program.runs_drive effects (List Op) _ Recorded
    (fun op log => some (reply op,log.append [op])) (by rintro op log _ _ ⟨⟩; rfl) 3
    (fetchURLBytesWithPolicy ⟨true⟩ ⟨true⟩ (some intranet) "image" ()) []
  have h := url_fetches_confined hrun
  exact ⟨by decide +kernel,h.1,h.2.1⟩

/-- `ImageSource` and the part of `DocumentSource` that is like it. -/
structure Source where
  data : List UInt8 := []
  base64 : Text := []
  url : Text := []

structure DocumentSource extends Source where
  fileID : Text := []
  s3URI : Text := []

/-- The content blocks, without what no error depends on. -/
inductive ContentBlock where
  | text (text : Text)
  | toolUse
  | toolResult (images : List Source)
  | image (source : Source)
  | document (source : DocumentSource)
  | widget

inductive Block where
  | text (text : Text)
  | toolUse
  | toolResult (images : List (List UInt8))
  | image (bytes : List UInt8)
  | document (bytes : List UInt8)
  | s3Location (uri : Text)

section messages
variable (parse : Text → Option Target) (decode : Text → Option (List UInt8))
  (client policy : UrlFetchPolicy)
def sourceBytes (resource : String) (source : Source) : Fetch (List UInt8) :=
  if source.data≠[] then pure source.data
  else if source.base64≠[] then
    match decode source.base64 with
    | none => Routine.throw .base64
    | some bytes => pure bytes
  else if source.url≠[] then
    fetchURLBytesWithPolicy client policy (parse source.url) resource
  else Routine.throw .noSource

def imageBytesWithFetcherAndPolicy (source : Source) : Fetch (List UInt8) :=
  sourceBytes parse decode client policy "image" source
def imageBytesWithFetcher (source : Source) : Fetch (List UInt8) :=
  imageBytesWithFetcherAndPolicy parse decode client {} source
def documentBytesWithFetcherAndPolicy (source : Source) : Fetch (List UInt8) :=
  sourceBytes parse decode client policy "document" source

def toBedrockContentBlock : ContentBlock → Fetch (List Block)
  | .text text => pure (if text=[] then [] else [.text text])
  | .toolUse => pure [.toolUse]
  | .widget => pure []
  | .toolResult images => do
    return [.toolResult (← images.mapM fun source =>
      (imageBytesWithFetcherAndPolicy parse decode client policy source).mapError
        (.block "tool result ImageBlock"))]
  | .image source => do
    return [.image (← (imageBytesWithFetcher parse decode client source).mapError
      (.block "ImageBlock"))]
  | .document source =>
    if source.s3URI≠[] then pure [.s3Location source.s3URI]
    else if source.fileID≠[] then Routine.throw .fileID
    else do
      return [.document (← (documentBytesWithFetcherAndPolicy parse decode client policy
        source.toSource).mapError (.block "DocumentBlock"))]

def toBedrockContentBlocksWithFetcher (blocks : List ContentBlock) : Fetch (List Block) := do
  return (← blocks.mapM (toBedrockContentBlock parse decode client policy)).flatten

def toBedrockMessagesWithFetcher (messages : List (List ContentBlock)) :
    Fetch (List (List Block)) :=
  messages.mapM fun message => do
    let blocks ← toBedrockContentBlocksWithFetcher parse decode client policy message
    return if blocks.isEmpty then [.text "(no content)".toList] else blocks
end messages
def accepted {α : Type} (m : Fetch α) : Program effects Bool :=
  (m ()).bind fun out => .done out.1.isOk

section accepted
variable {α β : Type} {m : Fetch α} {f : α → Fetch β} {x x' : α}
private theorem accepted_bind {c : Program effects Bool} (hf : ∀ value, accepted (f value)=c) :
    accepted (m >>= f)=(accepted m).bind fun ok => if ok then c else .done false := by
  refine ((m ()).bind_assoc _ _).trans (Eq.trans ?_ ((m ()).bind_assoc _ _).symm)
  refine congrArg (m ()).bind (funext ?_)
  rintro ⟨_ | value,_⟩
  · rfl
  · exact hf value

theorem accepted_mapError (g : FetchError → FetchError) : accepted (m.mapError g)=accepted m := by
  refine ((m ()).bind_assoc _ _).trans (congrArg (m ()).bind (funext ?_))
  rintro ⟨_ | value,_⟩ <;> rfl
private theorem accepted_return (g : α → β) :
    accepted (m >>= fun value => pure (g value))=accepted m := by
  refine ((m ()).bind_assoc _ _).trans (congrArg (m ()).bind (funext ?_))
  rintro ⟨_ | value,_⟩ <;> rfl

/-- An element of a list is accepted like whatever is accepted as it is. -/
private theorem accepted_mapM {γ : Type} {n : Fetch γ} (h : accepted (f x)=accepted n)
    (front behind : List α) : accepted ((front++x::behind).mapM f) =
      accepted (do let _ ← front.mapM f; let _ ← n; behind.mapM f) := by
  simp only [mapM_append,mapM_cons,bind_assoc,pure_bind]
  have hrest : ∀ ys y, accepted (behind.mapM f >>= fun zs => pure (ys++y::zs)) =
      accepted (behind.mapM f) := fun ys y => accepted_return _
  rw [accepted_bind fun ys => accepted_bind (hrest ys),
    accepted_bind fun _ => accepted_bind fun _ => rfl,h]
end accepted
section requests
variable {σ α β : Type} (answer : (op : Op) → σ → effects.Ans op×σ)
/-- Whether a program makes a request when its calls are answered so. -/
def requests : Program effects α → σ → Bool
  | .done _, _ => false
  | .call op next, s => op.isRequest || requests (next (answer op s).1) (answer op s).2

private theorem requests_bind (f : α → Program effects β) (p : Program effects α) (s : σ) :
    requests answer (p.bind f) s =
      (requests answer p s || requests answer (f (p.eval answer s).1) (p.eval answer s).2) := by
  induction p generalizing s with
  | done => rfl
  | call op next ih =>
    show (_ || _)=((_ || _) || _)
    rw [ih,Bool.or_assoc]
    rfl

private theorem requests_bind_done {f : α → Program effects β}
    (hf : ∀ out s, requests answer (f out) s=false) (p : Program effects α) (s : σ) :
    requests answer (p.bind f) s=requests answer p s := by
  rw [requests_bind,hf,Bool.or_false]

/-- The policy allows the target, by what the resolver says now. -/
def allows (policy : UrlFetchPolicy) (s : σ) : Option Target → Bool
  | none => false
  | some target => ((validateURLFetchTarget policy target ()).eval answer s).1.1.isOk

variable {client policy : UrlFetchPolicy} (s : σ)
private theorem requests_validateURLFetchTarget (target : Target) :
    requests answer (validateURLFetchTarget policy target ()) s=false := by
  unfold validateURLFetchTarget
  split_ifs
  · rfl
  · rfl
  · rfl
  · refine (requests_bind_done answer (by rintro ⟨_ | _,_⟩ _ <;> rfl) _ s).trans ?_
    unfold resolveURLFetchHost
    cases parseAddr target.hostname with
    | some addr => cases h : validateURLFetchIP addr.unmap policy <;> simp only [h] <;> rfl
    | none =>
      refine (requests_bind answer _ _ s).trans (show (false || _)=false from ?_)
      generalize Program.eval answer (ask (.lookup target.hostname) ()) s=out
      rcases out with ⟨⟨_ | _ | _ | ⟨ip,rest⟩,_⟩,s'⟩
      · rfl
      · rfl
      · rfl
      · show requests answer (Routine.ofExcept (checkResolved policy _ (ip::rest)) ()) s'=false
        cases checkResolved policy target.hostname (ip::rest) <;> rfl

private theorem requests_fetch (target : Option Target) (resource : String) :
    requests answer (fetchURLBytesWithPolicy client policy target resource ()) s =
      allows answer policy s target := by
  refine (requests_bind_done answer (by rintro ⟨_ | _,_⟩ _ <;> rfl) _ s).trans ?_
  cases target with
  | none => rfl
  | some target =>
    refine (requests_bind answer _ _ s).trans ?_
    rw [requests_validateURLFetchTarget,Bool.false_or,allows]
    generalize Program.eval answer (validateURLFetchTarget policy target ()) s=out
    rcases out with ⟨⟨_ | _,_⟩,s'⟩
    · rfl
    · have hsend : requests answer (send client policy 3 target ()) s'=true := by
        rw [send]
        rfl
      refine (requests_bind answer _ _ s').trans ?_
      rw [defaultURLFetchMaxRedirects,hsend]
      rfl
end requests
inductive Place where
  | image | document | toolResult

def Place.block (url : Text) : Place → ContentBlock
  | .image => .image { url }
  | .document => .document { url }
  | .toolResult => .toolResult [{ url }]

/-- The policy under which a place fetches its URL. -/
def Place.policy (allow : Bool) : Place → UrlFetchPolicy
  | .image => {}
  | _ => ⟨allow⟩

section places
variable (allow : Bool) (parse : Text → Option Target) (decode : Text → Option (List UInt8))
  (before after : List (List ContentBlock)) (front behind : List ContentBlock) (url : Text)
private theorem toBedrockContentBlock_place (place : Place) :
    ∃ resource name, ∃ made : List UInt8 → List Block,
    toBedrockContentBlock parse decode ⟨allow⟩ ⟨allow⟩ (place.block url) =
      (sourceBytes parse decode ⟨allow⟩ (place.policy allow) resource { url }).mapError
        (.block name) >>= fun bytes => pure (made bytes) := by
  cases place with
  | image => exact ⟨_,_,_,rfl⟩
  | document => exact ⟨_,_,_,rfl⟩
  | toolResult =>
    refine ⟨"image","tool result ImageBlock",fun bytes => [.toolResult [bytes]],?_⟩
    show (mapM _ [_] >>= _)=_
    simp only [mapM_cons,mapM_nil,bind_assoc,pure_bind]
    rfl

/-- The conversion of messages with a URL at some place. -/
def acceptedAt (place : Place) : Program effects Bool :=
  accepted (toBedrockMessagesWithFetcher parse decode ⟨allow⟩ ⟨allow⟩
    (before++(front++place.block url::behind)::after))

/-- The same messages, but for the URL, which is fetched under the given policy. -/
def acceptedUnder (policy : UrlFetchPolicy) : Program effects Bool :=
  let messages := toBedrockMessagesWithFetcher parse decode ⟨allow⟩ ⟨allow⟩
  let blocks := mapM (toBedrockContentBlock parse decode ⟨allow⟩ ⟨allow⟩)
  accepted do
    let _ ← messages before
    let _ ← (do
      let _ ← blocks front
      let _ ← sourceBytes parse decode ⟨allow⟩ policy "image" { url }
      blocks behind)
    messages after

private theorem accepted_sourceBytes (client policy : UrlFetchPolicy) (resource resource' : String)
    (source : Source) : accepted (sourceBytes parse decode client policy resource source) =
      accepted (sourceBytes parse decode client policy resource' source) := by
  unfold sourceBytes
  split_ifs with hdata hbase64 hurl
  · rfl
  · cases decode source.base64 <;> rfl
  · exact (accepted_mapError _).trans (accepted_mapError _).symm
  · rfl

private theorem acceptedAt_eq (place : Place) :
    acceptedAt allow parse decode before after front behind url place =
      acceptedUnder allow parse decode before after front behind url (place.policy allow) := by
  obtain ⟨resource,name,made,h⟩ := toBedrockContentBlock_place allow parse decode url place
  apply accepted_mapM
  simp only [accepted_return,toBedrockContentBlocksWithFetcher]
  refine accepted_mapM ?_ front behind
  rw [h,accepted_return,accepted_mapError,accepted_sourceBytes]

variable {σ : Type} (answer : (op : Op) → σ → effects.Ans op×σ) (s : σ)
/-- A place fetches its URL exactly if its policy allows it. -/
private theorem requests_place (hurl : url≠[]) (place : Place) :
    requests answer (toBedrockContentBlock parse decode ⟨allow⟩ ⟨allow⟩ (place.block url) ()) s =
      allows answer (place.policy allow) s (parse url) := by
  obtain ⟨resource,name,made,h⟩ := toBedrockContentBlock_place allow parse decode url place
  have hsource : sourceBytes parse decode ⟨allow⟩ (place.policy allow) resource { url } =
      fetchURLBytesWithPolicy ⟨allow⟩ (place.policy allow) (parse url) resource := by
    simp [sourceBytes,hurl]
  rw [h,hsource,← requests_fetch answer s _ resource]
  refine (requests_bind_done answer ?_ _ s).trans (requests_bind_done answer ?_ _ s)
  all_goals rintro ⟨_ | _,_⟩ _ <;> rfl

private theorem forall_place_iff {P : UrlFetchPolicy → Bool} :
    (∀ place : Place, P (place.policy allow)=P ⟨allow⟩) ↔ P {}=P ⟨allow⟩ := by
  refine ⟨fun h => h .image,fun h place => ?_⟩
  cases place with
  | image => exact h
  | document | toolResult => rfl

end places
def intranetAccepted (place : Place) : Bool :=
  ((acceptedAt true (fun _ => some intranet) (fun _ => none) [] [] [] []
    "https://10.0.0.1".toList place).eval (fun op s => (reply op,s)) ()).1

end GudeAgents.Provider.Bedrock
