import GudeAgents.Framework.LengthDelimited
import GudeAgents.Memory.Redis.Store
/-!
# Preimages of keys

The byte strings that `toolExecutionKey` and `childConversationID` hash and that the Redis stores
use as keys. A Go string is any list of bytes.
-/
namespace GudeAgents.Preimages
open Framework List
open Memory.Redis (base64 base64Symbol base64Alphabet)
abbrev GoString : Type := List UInt8
def values (s : GoString) : List Nat := s.map UInt8.toNat
def ascii (text : List Char) : List Nat := text.map Char.toNat
def decimalPart (s : GoString) : List Nat :=
  ascii (Nat.toDigits 10 s.length) ++ ':'.toNat :: values s
def toolExecutionKey (executionID callID : GoString) : List Nat :=
  decimalPart executionID ++ decimalPart callID
def part (s : GoString) : List Nat :=
  (range 8).map (fun i => (s.length >>> (8 * (7 - i))) % 256) ++ values s
def childConversationID (parentConversationID toolCallID toolName childName : GoString) : List Nat :=
  part "agent-as-tool/v1".toUTF8.toList ++ (part parentConversationID ++
    (part toolCallID ++ (part toolName ++ part childName)))
def encoded (s : GoString) : List Nat := ascii (base64 (values s))
def entryKey (keyPrefix identifier pk : GoString) : List Nat :=
  values keyPrefix ++ (ascii "id:".toList ++ (encoded identifier ++ ':'.toNat :: values pk))
def keyBase (keyPrefix id : GoString) (rest : List Char) : List Nat :=
  values keyPrefix ++ (ascii "conv:\x7b".toList ++ (encoded id ++ '\x7d'.toNat :: ascii rest))
def metaKey (keyPrefix id : GoString) : List Nat := keyBase keyPrefix id ":meta".toList
def streamKey (keyPrefix id : GoString) : List Nat := keyBase keyPrefix id ":messages".toList

theorem values_inj {s s' : GoString} (h : values s = values s') : s = s' :=
  map_injective_iff.mpr (fun _ _ => UInt8.toNat_inj.mp) h
theorem ascii_inj {t t' : List Char} (h : ascii t = ascii t') : t = t' :=
  map_injective_iff.mpr (fun _ _ => Char.toNat_inj.mp) h
theorem notMem_ascii {c : Char} {t : List Char} (h : c ∉ t) : c.toNat ∉ ascii t := by
  intro hmem
  obtain ⟨d,hd,heq⟩ := mem_map.mp hmem
  exact h (Char.toNat_inj.mp heq ▸ hd)

section parts
variable {a a' : GoString} {r r' : List Nat}
theorem values_append_inj (hlength : a.length = a'.length) (h : values a ++ r = values a' ++ r') :
    a = a' ∧ r = r' := by
  obtain ⟨ha,hr⟩ := append_inj h (by simpa [values] using hlength)
  exact ⟨values_inj ha,hr⟩

theorem decimalPart_inj (h : decimalPart a ++ r = decimalPart a' ++ r') : a = a' ∧ r = r' := by
  rw [decimalPart,decimalPart,append_assoc,append_assoc] at h
  obtain ⟨hdigits,hrest⟩ := append_separator_inj (notMem_ascii (colon_not_mem_digits _))
    (notMem_ascii (colon_not_mem_digits _)) h
  have hlength := congrArg (fun ds => Nat.ofDigitChars 10 ds 0) (ascii_inj hdigits)
  simp only [Nat.ofDigitChars_ten_toDigits] at hlength
  exact values_append_inj hlength hrest

theorem part_inj (ha : a.length < 2 ^ 64) (ha' : a'.length < 2 ^ 64)
    (h : part a ++ r = part a' ++ r') : a = a' ∧ r = r' := by
  rw [part,part,append_assoc,append_assoc] at h
  obtain ⟨hbytes,hrest⟩ := append_inj h rfl
  simp only [range,range.loop,map_cons,map_nil,List.cons.injEq,Nat.shiftRight_eq_div_pow,and_true]
    at hbytes
  obtain ⟨h7,h6,h5,h4,h3,h2,h1,h0⟩ := hbytes
  have hhigh : a.length / 2 ^ 32 = a'.length / 2 ^ 32 := by
    clear h3 h2 h1 h0
    omega
  have hlength : a.length = a'.length := by
    clear h7 h6 h5 h4
    omega
  exact values_append_inj hlength hrest
end parts
theorem mem_alphabet (l : List Nat) : ∀ c ∈ base64 l, c ∈ base64Alphabet := by
  have hsymbol : ∀ n, base64Symbol n ∈ base64Alphabet := by
    intro n
    have hlt : n % 64 < base64Alphabet.length := Nat.mod_lt n (by decide)
    rw [base64Symbol,← getElem_eq_getD 'A' (h := hlt)]
    exact getElem_mem hlt
  fun_induction base64 l with
  | case1 => simp
  | case2 a | case3 a b => simp [hsymbol]
  | case4 a b c rest ih => simpa [hsymbol] using ih

def symbolValue (c : Char) : Nat := base64Alphabet.idxOf c

theorem symbolValue_base64Symbol (n : Nat) : symbolValue (base64Symbol n) = n % 64 := by
  have hall : ∀ k < 64, symbolValue (base64Symbol k) = k := by decide +kernel
  have hsymbol : base64Symbol n = base64Symbol (n % 64) := by
    rw [base64Symbol,base64Symbol,Nat.mod_mod]
  rw [hsymbol]
  exact hall _ (Nat.mod_lt n (by decide))

/-- The bytes whose encoding has these symbols. -/
def decoded : List Nat → List Nat
  | a :: b :: c :: d :: rest =>
    (a * 4 + b / 16) :: (b % 16 * 16 + c / 4) :: (c % 4 * 64 + d) :: decoded rest
  | [a,b,c] => [a * 4 + b / 16,b % 16 * 16 + c / 4]
  | [a,b] => [a * 4 + b / 16]
  | _ => []

theorem decoded_base64 {l : List Nat} (h : ∀ b ∈ l, b < 256) :
    decoded ((base64 l).map symbolValue) = l := by
  fun_induction base64 l with
  | case1 => rfl
  | case2 a | case3 a b =>
    simp only [mem_cons,not_mem_nil,or_false,forall_eq_or_imp,forall_eq] at h
    simp only [map_cons,map_nil,decoded,symbolValue_base64Symbol,List.cons.injEq,and_true]
    omega
  | case4 a b c rest ih =>
    simp only [mem_cons,forall_eq_or_imp] at h
    obtain ⟨ha,hb,hc,hrest⟩ := h
    simp only [map_cons,decoded,symbolValue_base64Symbol,List.cons.injEq,ih hrest,and_true]
    omega

theorem encoded_append_inj {s s' : GoString} {c : Char} (hc : c ∉ base64Alphabet) {r r' : List Nat}
    (h : encoded s ++ c.toNat :: r = encoded s' ++ c.toNat :: r') : s = s' ∧ r = r' := by
  have hbytes : ∀ t : GoString, ∀ b ∈ values t, b < 256 := by
    intro t b hb
    obtain ⟨u,-,rfl⟩ := mem_map.mp hb
    exact u.toNat_lt
  have hout : ∀ t : GoString, c.toNat ∉ encoded t :=
    fun t => notMem_ascii fun hmem => hc (mem_alphabet _ c hmem)
  obtain ⟨hs,hr⟩ := append_separator_inj (hout s) (hout s') h
  have hdecoded := congrArg (fun t => decoded (t.map symbolValue)) (ascii_inj hs)
  simp only [decoded_base64 (hbytes _)] at hdecoded
  exact ⟨values_inj hdecoded,hr⟩

theorem keyBase_inj {keyPrefix id id' : GoString} {rest rest' : List Char}
    (h : keyBase keyPrefix id rest = keyBase keyPrefix id' rest') : id = id' ∧ rest = rest' := by
  obtain ⟨hid,hrest⟩ :=
    encoded_append_inj (by decide) (append_cancel_left (append_cancel_left h))
  exact ⟨hid,ascii_inj hrest⟩

/-- The texts that are hashed into keys, and the keys themselves, tell their parts apart. -/
theorem preimages_injective : (∀ executionID callID executionID' callID',
      toolExecutionKey executionID callID = toolExecutionKey executionID' callID' →
        executionID = executionID' ∧ callID = callID') ∧
    (∀ parent call tool child parent' call' tool' child',
      (∀ s ∈ [parent,call,tool,child,parent',call',tool',child'], s.length < 2 ^ 64) →
      childConversationID parent call tool child = childConversationID parent' call' tool' child' →
        parent = parent' ∧ call = call' ∧ tool = tool' ∧ child = child') ∧
    ∀ keyPrefix, (∀ identifier pk identifier' pk',
        entryKey keyPrefix identifier pk = entryKey keyPrefix identifier' pk' →
          identifier = identifier' ∧ pk = pk') ∧
      (∀ id id', metaKey keyPrefix id = metaKey keyPrefix id' → id = id') ∧
      (∀ id id', streamKey keyPrefix id = streamKey keyPrefix id' → id = id') ∧
      ∀ id id', metaKey keyPrefix id ≠ streamKey keyPrefix id' := by
  refine ⟨?_,?_,fun keyPrefix => ⟨?_,?_,?_,?_⟩⟩
  · intro executionID callID executionID' callID' h
    obtain ⟨hexecution,hrest⟩ := decimalPart_inj h
    rw [← append_nil (decimalPart callID),← append_nil (decimalPart callID')] at hrest
    exact ⟨hexecution,(decimalPart_inj hrest).1⟩
  · intro parent call tool child parent' call' tool' child' hlength h
    simp only [mem_cons,not_mem_nil,or_false,forall_eq_or_imp,forall_eq] at hlength
    obtain ⟨hp,hc,ht,hn,hp',hc',ht',hn'⟩ := hlength
    obtain ⟨hparent,h⟩ := part_inj hp hp' (append_cancel_left h)
    obtain ⟨hcall,h⟩ := part_inj hc hc' h
    obtain ⟨htool,h⟩ := part_inj ht ht' h
    rw [← append_nil (part child),← append_nil (part child')] at h
    exact ⟨hparent,hcall,htool,(part_inj hn hn' h).1⟩
  · intro identifier pk identifier' pk' h
    obtain ⟨hid,hpk⟩ :=
      encoded_append_inj (by decide) (append_cancel_left (append_cancel_left h))
    exact ⟨hid,values_inj hpk⟩
  · exact fun id id' h => (keyBase_inj h).1
  · exact fun id id' h => (keyBase_inj h).1
  · intro id id' h
    exact absurd (keyBase_inj h).2 (by decide)
end GudeAgents.Preimages
