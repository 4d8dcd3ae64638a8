import GudeAgents.Net.Url
/-!
# The web fetch tool

Model of `tool/webfetch/webfetch.go` with its default client. `isPrivateURL` finds the host with an
extractor of its own, before any request.
-/
namespace GudeAgents.WebFetch
open Net List
def afterScheme (raw : Text) : Text :=
  let rec go : Text → Option Text
    | [] => none
    | ':' :: '/' :: '/'::rest => some rest
    | _ :: rest => go rest
  (go raw).getD raw

def blockedIP (ip : IP) : Bool :=
  ip.isLoopback || ip.isPrivate || ip.isLinkLocalUnicast || ip.isLinkLocalMulticast

def isPrivateURL (rawURL : Text) : Bool :=
  let host := afterScheme rawURL
  let host := (cut '/' host).1
  let host := (cut ':' host).1
  match parseIP host with
  | none => false
  | some ip => blockedIP ip

/-- What a server answers: a redirect, with the URL that it leads to, or a response. -/
inductive Answer where
  | redirect (target : Url)
  | response (status : Nat) (contentType : Text) (body : List UInt8)

inductive FetchError where
  | urlRequired
  | unsupportedScheme (url : Text)
  | privateAddress (url : Text)
  | createRequest
  | fetch
  | stoppedAfterRedirects (maxRedirects : Int)
  | status (code : Nat)
  | contentType (contentType : Text)
  | formatContent

def sendable (u : Url) : Bool :=
  (u.scheme="http".toList || u.scheme="https".toList) && u.host≠[]

/-- `client.Do` with the default client: the requests that are sent, given those before, and the last
answer. Without an answer the connection fails. -/
def send (maxRedirects : Int) : List Url → Url → List Answer →
    List Url×Except FetchError (Nat×Text×List UInt8)
  | via, u, answers =>
    if !sendable u then (via,.error .fetch)
    else
      match answers with
      | [] => (via++[u],.error .fetch)
      | .response status contentType body::_ => (via++[u],.ok (status,contentType,body))
      | .redirect target::rest =>
        if maxRedirects≤(via++[u]).length then
          (via++[u],.error (.stoppedAfterRedirects maxRedirects))
        else send maxRedirects (via++[u]) target rest
termination_by structural _ _ answers => answers

structure Config where
  maxBytes : Nat
  maxRedirects : Int
  maxChars : Nat
  format : List UInt8 → Option (List UInt8)

def contains (text part : Text) : Bool :=
  text.tails.any fun tail => part.isPrefixOf tail
def isTextContent (ct : Text) : Bool :=
  ct=[] || ["text/","application/json","application/xml","application/xhtml"].any fun part =>
    contains (ct.map Char.toLower) part.toList

def readPage (cfg : Config) (status : Nat) (contentType : Text) (body : List UInt8) :
    Except FetchError (List UInt8) :=
  if status≠200 then .error (.status status)
  else if !isTextContent contentType then .error (.contentType contentType)
  else
    match cfg.format (body.take cfg.maxBytes) with
    | none => .error .formatContent
    | some text =>
      let truncated := decide (cfg.maxBytes<body.length) || decide (cfg.maxChars<text.length)
      .ok (text.take cfg.maxChars++if truncated then "\n\n[truncated]".toUTF8.toList else [])

def hasHTTPScheme (url : Text) : Bool :=
  "http://".toList.isPrefixOf url || "https://".toList.isPrefixOf url

def fetchPage (cfg : Config) (pageURL : Text) (answers : List Answer) :
    List Url×Except FetchError (List UInt8) :=
  if pageURL=[] then ([],.error .urlRequired)
  else if !hasHTTPScheme pageURL then ([],.error (.unsupportedScheme pageURL))
  else if isPrivateURL pageURL then ([],.error (.privateAddress pageURL))
  else
    match parseUrl pageURL with
    | none => ([],.error .createRequest)
    | some u =>
      match send cfg.maxRedirects [] u answers with
      | (sent,.error err) => (sent,.error err)
      | (sent,.ok (status,contentType,body)) => (sent,readPage cfg status contentType body)

/-- Right after the scheme stands the dotted literal of a blocked address, up to a slash, a colon or
the end. -/
def WrittenPlainly (url : Text) : Prop :=
  ∃ scheme∈["http://","https://"], ∃ literal rest ip,
    url=scheme.toList++literal++rest ∧ ':'∉literal ∧ parseIP literal=some ip ∧
      blockedIP ip=true ∧ (rest=[] ∨ rest.head?=some '/' ∨ rest.head?=some ':')

theorem hasHTTPScheme_iff (url : Text) :
    hasHTTPScheme url=true ↔ ∃ scheme∈["http://","https://"], ∃ s, url=scheme.toList++s := by
  simp only [hasHTTPScheme,Bool.or_eq_true, isPrefixOf_iff_prefix,mem_cons,not_mem_nil,or_false,
    exists_eq_or_imp,exists_eq_left]
  constructor
  · rintro (⟨s,rfl⟩ | ⟨s,rfl⟩)
    · exact Or.inl ⟨s,rfl⟩
    · exact Or.inr ⟨s,rfl⟩
  · rintro (⟨s,rfl⟩ | ⟨s,rfl⟩)
    · exact Or.inl ⟨s,rfl⟩
    · exact Or.inr ⟨s,rfl⟩

theorem afterScheme_append {scheme : String} (h : scheme∈["http://","https://"]) (s : Text) :
    afterScheme (scheme.toList++s)=s := by
  simp only [mem_cons,not_mem_nil,or_false] at h
  rcases h with rfl | rfl <;> rfl

theorem cut_literal {literal rest : Text} (hcolon : ':'∉literal) {ip : IP}
    (hip : parseIP literal=some ip)
    (hrest : rest=[] ∨ rest.head?=some '/' ∨ rest.head?=some ':') :
    (cut ':' (cut '/' (literal++rest)).1).1=literal := by
  have hslash : '/'∉literal := by
    intro hmem
    exact absurd (parseIP_of_no_colon hcolon hip '/' hmem) (by decide)
  rcases hrest with rfl | hhead | hhead
  · rw [cut_append hslash (Or.inl rfl)]
    have hwhole := cut_append hcolon (Or.inl rfl)
    rwa [append_nil] at hwhole
  · rw [cut_append hslash (Or.inr hhead)]
    have hwhole := cut_append hcolon (Or.inl rfl)
    rwa [append_nil] at hwhole
  · -- The port is cut off after the path.
    cases rest with
    | nil => cases hhead
    | cons c rest =>
      rw [List.head?_cons,Option.some.injEq] at hhead
      subst hhead
      have hpath : (cut '/' (literal ++ ':'::rest)).1=literal ++ ':'::(cut '/' rest).1 := by
        clear hcolon hip
        induction literal with
        | nil => rfl
        | cons d literal ih =>
          rw [mem_cons,not_or] at hslash
          rw [cons_append,cut,if_neg fun hd => hslash.1 hd.symm,ih hslash.2]
          rfl
      rw [hpath,cut_append hcolon (Or.inr rfl)]

theorem isPrivateURL_iff {url : Text} (h : hasHTTPScheme url=true) :
    isPrivateURL url=true ↔ WrittenPlainly url := by
  obtain ⟨scheme,hscheme,s,rfl⟩ := (hasHTTPScheme_iff url).mp h
  constructor
  · intro hprivate
    rw [isPrivateURL,afterScheme_append hscheme] at hprivate
    obtain ⟨tail,hpath,htail⟩ := cut_spec '/' s
    obtain ⟨port,hhost,hport⟩ := cut_spec ':' (cut '/' s).1
    cases hip : parseIP (cut ':' (cut '/' s).1).1 with
    | none => simp [hip] at hprivate
    | some ip =>
      simp only [hip] at hprivate
      refine ⟨scheme,hscheme,(cut ':' (cut '/' s).1).1,port++tail,ip,?_,notMem_cut _ _,hip,
        hprivate,?_⟩
      · rw [append_assoc,← append_assoc _ port,← hhost,← hpath]
      · rcases hport with rfl | hport
        · rw [nil_append]
          exact htail.imp_right Or.inl
        · cases port with
          | nil => cases hport
          | cons c port => exact Or.inr (Or.inr hport)
  · rintro ⟨scheme',hscheme',literal,rest,ip,hurl,hcolon,hip,hblocked,hrest⟩
    rw [hurl,isPrivateURL,append_assoc,afterScheme_append hscheme',cut_literal hcolon hip hrest]
    simp only [hip,hblocked]

/-- The redirect targets that are requested after `n` requests: up to the limit, and up to a target
that is not sent. -/
def followed (maxRedirects : Int) : Nat → List Answer → List Url
  | n, .redirect target::rest =>
    if maxRedirects≤n then []
    else if sendable target then target::followed maxRedirects (n+1) rest
    else []
  | _, _ => []

theorem send_requests (maxRedirects : Int) (via : List Url) (u : Url) (answers : List Answer) :
    (send maxRedirects via u answers).1 =
      via++if sendable u then u::followed maxRedirects (via.length+1) answers else [] := by
  induction answers generalizing via u with
  | nil =>
    rw [send.eq_def]
    cases hu : sendable u <;> simp [hu,followed]
  | cons answer rest ih =>
    rw [send.eq_def]
    cases hu : sendable u with
    | false => simp [hu]
    | true =>
      cases answer with
      | response status contentType body => simp [hu,followed]
      | redirect target =>
        simp only [hu,Bool.not_true,Bool.false_eq_true,if_false,if_true,followed,length_append,
          length_singleton]
        by_cases hlimit : maxRedirects≤((via.length+1 : Nat) : Int)
        · rw [if_pos hlimit,if_pos hlimit]
        · rw [if_neg hlimit,if_neg hlimit,ih,append_assoc]
          cases sendable target <;> simp

/-- An address that is written as a literal and is not public. A literal with a zone counts as a
name. -/
def privateLiteral (u : Url) : Bool :=
  match parseIP u.hostname with
  | none => false
  | some ip => blockedIP ip

/-- No request of a fetch goes to a private literal, exactly when a URL that is sent has no private
literal as its host and no followed redirect leads to one. A URL is sent if it has the scheme, is a
URL, and is not written plainly. -/
theorem fetchPage_avoids_private_iff (cfg : Config) (pageURL : Text) (answers : List Answer) :
    (∀ u∈(fetchPage cfg pageURL answers).1, privateLiteral u=false) ↔
      ∀ u, hasHTTPScheme pageURL=true → parseUrl pageURL=some u → sendable u=true →
        ¬ WrittenPlainly pageURL →
        privateLiteral u=false ∧
          ∀ target∈followed cfg.maxRedirects 1 answers, privateLiteral target=false := by
  rw [fetchPage]
  by_cases hempty : pageURL=[]
  · subst hempty
    simp [hasHTTPScheme]
  · rw [if_neg hempty]
    cases hscheme : hasHTTPScheme pageURL with
    | false => simp
    | true =>
      simp only [Bool.not_true,Bool.false_eq_true,if_false]
      by_cases hplain : isPrivateURL pageURL=true
      · have hwritten := (isPrivateURL_iff hscheme).mp hplain
        rw [if_pos hplain]
        simp [hwritten]
      · have hwritten : ¬ WrittenPlainly pageURL :=
          fun h => hplain ((isPrivateURL_iff hscheme).mpr h)
        rw [if_neg hplain]
        cases hparse : parseUrl pageURL with
        | none => simp
        | some u =>
          have hrequests := send_requests cfg.maxRedirects [] u answers
          have hsent : (match send cfg.maxRedirects [] u answers with
              | (sent,.error err) => (sent,(.error err : Except FetchError (List UInt8)))
              | (sent,.ok (status,contentType,body)) =>
                (sent,readPage cfg status contentType body)).1 =
              (send cfg.maxRedirects [] u answers).1 := by
            split <;> simp_all
          simp only [hsent,hrequests,nil_append,length_nil,Nat.zero_add]
          cases hsendable : sendable u with
          | false => simp [hsendable]
          | true => simp [hsendable,hwritten]

def defaultConfig : Config := ⟨32*1024,3,4000,some⟩

theorem fetchPage_requests_private :
    (fetchPage defaultConfig "http://[::1]/".toList []).1.map Url.hostname=["::1".toList] ∧
    (fetchPage defaultConfig "http://user@127.0.0.1/".toList []).1.map Url.hostname =
      ["127.0.0.1".toList] ∧
    (fetchPage defaultConfig "http://169.254.169.254?x".toList []).1.map Url.hostname =
      ["169.254.169.254".toList] ∧
    (fetchPage defaultConfig "http://example.com/".toList
      [.redirect ⟨"http".toList,"10.0.0.1".toList⟩]).1.map Url.hostname =
      ["example.com".toList,"10.0.0.1".toList] ∧
    (["::1","127.0.0.1","169.254.169.254","10.0.0.1"].map fun literal =>
      (parseIP literal.toList).map blockedIP)=[some true,some true,some true,some true] := by
  decide +kernel

example : (fetchPage defaultConfig "http://127.0.0.1:8080/".toList []).1=[] := by decide +kernel
end GudeAgents.WebFetch
