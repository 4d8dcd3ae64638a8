import Mathlib.Data.List.Basic
/-!
# IP literals

`net.ParseIP` and the address classes of `net.IP`. An address is its sixteen bytes; an IPv4 address
is mapped into them.
-/
namespace GudeAgents.Net
open List
section
abbrev Text : Type := List Char
abbrev IP : Type := List Nat

/-- `parseIPv4Fields`: the character before, the value and the digits of the current field, and the
fields so far. A field has no leading zero and is at most 255. -/
def parseIPv4Loop : Text → Option Char → Nat → Nat → List Nat → Option (List Nat)
  | [], _, val, _, fields => if fields.length<3 then none else some (fields++[val])
  | c::rest, before, val, digLen, fields =>
    if c.isDigit then
      if digLen=1 ∧ val=0 then none
      else if 255<val*10+(c.toNat - '0'.toNat) then none
      else parseIPv4Loop rest (some c) (val*10+(c.toNat - '0'.toNat)) (digLen+1) fields
    else if c = '.' then
      if before=none ∨ rest=[] ∨ before=some '.' then none
      else if fields.length=3 then none
      else parseIPv4Loop rest (some c) 0 0 (fields++[val])
    else none

def parseIPv4Fields (s : Text) : Option (List Nat) :=
  parseIPv4Loop s none 0 0 []

def hexValue (c : Char) : Option Nat :=
  if c.isDigit then some (c.toNat - '0'.toNat)
  else if 'a'≤c ∧ c ≤ 'f' then some (c.toNat - 'a'.toNat+10)
  else if 'A'≤c ∧ c ≤ 'F' then some (c.toNat - 'A'.toNat+10)
  else none

def isHex (c : Char) : Bool := (hexValue c).isSome
def groupValue (digits : Text) : Nat :=
  digits.foldl (fun acc c => acc*16+(hexValue c).getD 0) 0

/-- The loop of `parseIPv6` over the groups: the bytes so far, the position of the ellipsis and what
is left of the text. -/
def parseIPv6Loop : Nat → Text → List Nat → Option Nat → Option (List Nat×Option Nat×Text)
  | 0, s, ip, ellipsis => some (ip,ellipsis,s)
  | fuel+1, s, ip, ellipsis =>
    let digits := s.takeWhile isHex
    let ip' := ip++[groupValue digits / 256,groupValue digits % 256]
    if digits.length=0 ∨ 4<digits.length then none
    else
      match s.drop digits.length with
      | '.'::_ =>
        if (ellipsis=none ∧ ip.length≠12) ∨ 16 < ip.length+4 then none
        else (parseIPv4Fields s).map fun fields => (ip++fields,ellipsis,[])
      | [] => some (ip',ellipsis,[])
      | [':'] => none
      | ':' :: ':'::rest =>
        if ellipsis.isSome then none
        else if rest=[] then some (ip',some ip'.length,[])
        else parseIPv6Loop fuel rest ip' (some ip'.length)
      | ':'::rest => parseIPv6Loop fuel rest ip' ellipsis
      | _ => none

def parseIPv6 (s : Text) : Option IP :=
  if s=[':', ':'] then some (replicate 16 0)
  else
    let start := match s with
      | ':' :: ':'::rest => (rest,some 0)
      | _ => (s,none)
    match parseIPv6Loop 8 start.1 [] start.2 with
    | some (ip,ellipsis,[]) =>
      if ip.length<16 then
        ellipsis.map fun at_ => ip.take at_++replicate (16-ip.length) 0++ip.drop at_
      else if ellipsis.isSome then none
      else some ip
    | _ => none

/-- `net.ParseIP`: the first dot, colon or percent sign decides; an address with a zone is none. -/
def parseIP (s : Text) : Option IP :=
  match s.find? fun c => c = '.' ∨ c = ':' ∨ c = '%' with
  | some '.' => (parseIPv4Fields s).map fun fields => replicate 10 0++[255,255]++fields
  | some ':' => if '%'∈s then none else parseIPv6 s
  | _ => none

namespace IP
/-- `To4`: the last four bytes of a mapped address. -/
def to4 (ip : IP) : Option (List Nat) :=
  if ip.take 12=replicate 10 0++[255,255] then some (ip.drop 12) else none
def isLoopback (ip : IP) : Bool :=
  match ip.to4 with
  | some v4 => v4.getD 0 0=127
  | none => ip=replicate 15 0++[1]

def isPrivate (ip : IP) : Bool :=
  match ip.to4 with
  | some v4 =>
    v4.getD 0 0=10 ∨ (v4.getD 0 0=172 ∧ v4.getD 1 0 / 16=1) ∨
      (v4.getD 0 0=192 ∧ v4.getD 1 0=168)
  | none => ip.getD 0 0 / 2=126

def isLinkLocalUnicast (ip : IP) : Bool :=
  match ip.to4 with
  | some v4 => v4.getD 0 0=169 ∧ v4.getD 1 0=254
  | none => ip.getD 0 0=254 ∧ ip.getD 1 0 / 64=2
def isLinkLocalMulticast (ip : IP) : Bool :=
  match ip.to4 with
  | some v4 => v4.getD 0 0=224 ∧ v4.getD 1 0=0 ∧ v4.getD 2 0=0
  | none => ip.getD 0 0=255 ∧ ip.getD 1 0 % 16=2
def isMulticast (ip : IP) : Bool :=
  match ip.to4 with
  | some v4 => v4.getD 0 0 / 16=14
  | none => ip.getD 0 0=255
end IP
theorem parseIPv4Loop_chars {s : Text} {before : Option Char} {val digLen : Nat}
    {fields result : List Nat} (h : parseIPv4Loop s before val digLen fields=some result) :
    ∀ c∈s, c.isDigit ∨ c = '.' := by
  induction s generalizing before val digLen fields with
  | nil => simp
  | cons c rest ih =>
    rw [parseIPv4Loop] at h
    split_ifs at h with hdigit _ _ hdot
    · intro d hd
      rcases mem_cons.mp hd with rfl | hin
      · exact Or.inl hdigit
      · exact ih h d hin
    · intro d hd
      rcases mem_cons.mp hd with rfl | hin
      · exact Or.inr hdot
      · exact ih h d hin

theorem parseIP_of_no_colon {s : Text} (hcolon : ':'∉s) {ip : IP} (h : parseIP s=some ip) :
    ∀ c∈s, c.isDigit ∨ c = '.' := by
  rw [parseIP] at h
  split at h
  · obtain ⟨fields,hfields,-⟩ := Option.map_eq_some_iff.mp h
    exact parseIPv4Loop_chars hfields
  · rename_i hfind
    exact absurd (mem_of_find?_eq_some hfind) hcolon
  · cases h

example : parseIP "127.0.0.1".toList=some [0,0,0,0,0,0,0,0,0,0,255,255,127,0,0,1] := by
  decide
example : parseIP "fe80::1:2".toList=some [254,128,0,0,0,0,0,0,0,0,0,0,0,1,0,2] := by
  decide
example : parseIP "010.0.0.1".toList=none := by decide
end
/-!
## URLs

`net/url.Parse`, as far as it decides whether a text is a URL and what its scheme and host are. A
host with percent-encoded bytes stays encoded; it is no IP literal before or after decoding.
-/
structure Url where
  scheme : Text
  host : Text
deriving DecidableEq

/-- `strings.Cut`: the text before the first occurrence and, if there is one, the text after it. -/
def cut (sep : Char) : Text → Text×Option Text
  | [] => ([],none)
  | c::rest =>
    if c=sep then ([],some rest) else (c::(cut sep rest).1,(cut sep rest).2)

theorem cut_spec (sep : Char) (s : Text) :
    ∃ rest, s=(cut sep s).1++rest ∧ (rest=[] ∨ rest.head?=some sep) := by
  induction s with
  | nil => exact ⟨[],rfl,Or.inl rfl⟩
  | cons c s ih =>
    rw [cut]
    by_cases h : c=sep
    · rw [if_pos h]
      exact ⟨c::s,rfl,Or.inr (by rw [h]; rfl)⟩
    · rw [if_neg h]
      obtain ⟨rest,hrest,hhead⟩ := ih
      exact ⟨rest,by rw [cons_append,← hrest],hhead⟩

theorem notMem_cut (sep : Char) (s : Text) : sep∉(cut sep s).1 := by
  induction s with
  | nil => exact not_mem_nil
  | cons c s ih =>
    rw [cut]
    by_cases h : c=sep
    · rw [if_pos h]
      exact not_mem_nil
    · rw [if_neg h,mem_cons,not_or]
      exact ⟨fun hc => h hc.symm,ih⟩

theorem cut_append {sep : Char} {text : Text} (h : sep∉text) {rest : Text}
    (hrest : rest=[] ∨ rest.head?=some sep) : (cut sep (text++rest)).1=text := by
  induction text with
  | nil =>
    rcases hrest with rfl | hhead
    · rfl
    · cases rest with
      | nil => cases hhead
      | cons c rest =>
        rw [head?_cons,Option.some.injEq] at hhead
        rw [nil_append,cut,if_pos hhead]
  | cons c text ih =>
    rw [mem_cons,not_or] at h
    rw [cons_append,cut,if_neg fun hc => h.1 hc.symm,ih h.2]

def cutLast (sep : Char) : Text → Option (Text×Text)
  | [] => none
  | c::rest =>
    match cutLast sep rest with
    | some (before,after) => some (c::before,after)
    | none => if c=sep then some ([],rest) else none

def percentOk : Text → Bool
  | [] => true
  | '%'::a::b::rest => isHex a && isHex b && percentOk rest
  | '%'::_ => false
  | _ :: rest => percentOk rest

/-- `getScheme`: the scheme and the rest, or none if there is a colon without a scheme. -/
def getScheme (raw : Text) : Option (Text×Text) :=
  let rec go : Text → Text → Option (Text×Text)
    | _, [] => some ([],raw)
    | seen, c::rest =>
      if c.isAlpha then go (seen++[c]) rest
      else if c.isDigit ∨ c = '+' ∨ c = '-' ∨ c = '.' then
        if seen=[] then some ([],raw) else go (seen++[c]) rest
      else if c = ':' then if seen=[] then none else some (seen,rest)
      else some ([],raw)
  go [] raw

def validOptionalPort : Text → Bool
  | [] => true
  | ':'::digits => digits.all Char.isDigit
  | _ => false

/-- `shouldEscape` is false for a byte of a host. -/
def isHostChar (c : Char) : Bool :=
  c.isAlphanum || c∈"!$&'()*+,;=:[]<>\"-_.~".toList

/-- `unescape` in a host succeeds: only bytes outside of ASCII and the percent sign are encoded. -/
def hostOk : Text → Bool
  | [] => true
  | '%'::a::b::rest =>
    (match hexValue a,hexValue b with
      | some high,some _ => decide (8≤high) || (a = '2' && b = '5')
      | _,_ => false) && hostOk rest
  | '%'::_ => false
  | c::rest => (128≤c.toNat || isHostChar c) && hostOk rest

def zoneOk : Text → Bool
  | [] => true
  | '%'::a::b::rest =>
    (match hexValue a,hexValue b with
      | some high,some low =>
        (a = '2' && b = '5') || high*16+low=32 || isHostChar (Char.ofNat (high*16+low))
      | _,_ => false) && zoneOk rest
  | '%'::_ => false
  | c::rest => (128≤c.toNat || isHostChar c) && zoneOk rest

/-- The text before the first `%25` and the text from it on. -/
def cutZone : Text → Text×Text
  | [] => ([],[])
  | '%' :: '2' :: '5'::rest => ([], '%' :: '2' :: '5'::rest)
  | c::rest => (c::(cutZone rest).1,(cutZone rest).2)

def parseHost (host : Text) : Option Text :=
  match host with
  | '['::_ =>
    match cutLast ']' host with
    | none => none
    | some (inner,colonPort) =>
      if !validOptionalPort colonPort then none
      else
        let (address,zone) := cutZone inner
        if hostOk address && zoneOk zone && hostOk (']'::colonPort) then some host else none
  | _ =>
    match cutLast ':' host with
    | some (_,port) => if validOptionalPort (':'::port) && hostOk host then some host else none
    | none => if hostOk host then some host else none

def validUserinfo (s : Text) : Bool :=
  s.all fun c => c.isAlphanum || c∈"-._:~!$&'()*+,;=%@".toList

def parseAuthority (authority : Text) : Option Text :=
  match cutLast '@' authority with
  | none => parseHost authority
  | some (userinfo,host) =>
    match parseHost host with
    | none => none
    | some host => if validUserinfo userinfo && percentOk userinfo then some host else none

def parseNoFragment (raw : Text) : Option Url :=
  if raw.any fun c => c.toNat<32 || c.toNat=127 then none
  else if raw=['*'] then some ⟨[],[]⟩
  else
    match getScheme raw with
    | none => none
    | some (scheme,rest) =>
      let path := (cut '?' rest).1
      match path with
      | '/' :: '/'::authority =>
        if scheme=[] ∧ authority.head?=some '/' then
          if percentOk path then some ⟨[],[]⟩ else none
        else
          match parseAuthority (cut '/' authority).1 with
          | none => none
          | some host =>
            if percentOk (((cut '/' authority).2.map ('/' :: ·)).getD []) then
              some ⟨scheme.map Char.toLower,host⟩
            else none
      | '/'::_ => if percentOk path then some ⟨scheme.map Char.toLower,[]⟩ else none
      | _ =>
        if scheme≠[] then some ⟨scheme.map Char.toLower,[]⟩
        else if ':'∈(cut '/' path).1 then none
        else if percentOk path then some ⟨[],[]⟩ else none

/-- What `url.Parse` answers. -/
def parseUrl (raw : Text) : Option Url :=
  let (url,fragment) := cut '#' raw
  if percentOk (fragment.getD []) then parseNoFragment url else none

/-- `(*URL).Hostname`: the host without a valid port and without brackets. -/
def Url.hostname (u : Url) : Text :=
  let host := match cutLast ':' u.host with
    | some (before,port) => if validOptionalPort (':'::port) then before else u.host
    | none => u.host
  match host with
  | '['::rest =>
    match rest.reverse with
    | ']'::inner => inner.reverse
    | _ => host
  | _ => host
end GudeAgents.Net
