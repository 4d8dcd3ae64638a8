import GudeAgents.Framework.RelyGuarantee
import GudeAgents.Refinement.Views
/-!
# The program logic of the engine

Rely-guarantee over the protocol: a worker records at most one legal event of its own per call.
-/
namespace GudeAgents
open Framework
def RecordedBelow (n : Nat) (s : World) : Prop :=
  ∀ ev∈s.log, ∀ w, ev.worker?=some w → w<n

variable {n : Nat}
theorem RecordedBelow.record {s : World} (h : RecordedBelow n s) {ev : Event}
    (hev : ∀ w, ev.worker?=some w → w<n) : RecordedBelow n (s.record ev) := by
  intro ev' hev'
  rcases List.mem_append.mp hev' with hold | hnew
  · exact h ev' hold
  · rw [List.mem_singleton.mp hnew]
    exact hev

theorem RecordedBelow.own_eq {s : World} (h : RecordedBelow n s) : s.own n=[] := by
  rw [List.eq_nil_iff_forall_not_mem]
  intro ev hev
  rw [World.mem_own] at hev
  exact Nat.lt_irrefl n (h ev hev.1 n hev.2)

section
variable [Host]
def Records (w : Nat) (s s' : World) : Prop :=
  s'=s ∨ ∃ ev, ev.worker?=some w ∧ Legal s ev ∧ s'=s.record ev

namespace Records
variable {w : Nat} {s s' : World}
theorem own {ev : Event} (hw : ev.worker?=some w) (h : Legal s ev) : Records w s (s.record ev) :=
  .inr ⟨ev,hw,h,rfl⟩
theorem valid (hv : Valid s) (h : Records w s s') : Valid s' := by
  rcases h with rfl | ⟨ev,-,hlegal,rfl⟩
  · exact hv
  · exact .step hv hlegal
theorem others {w' : Nat} (h : Records w s s') (hne : w≠w') : Others w' s s' := by
  rcases h with rfl | ⟨ev,hw,-,rfl⟩
  · exact .refl w' _
  · exact .record (by rw [hw]; simpa using hne)

theorem recordedBelow (hb : RecordedBelow n s) (hlt : w<n) (h : Records w s s') :
    RecordedBelow n s' := by
  rcases h with rfl | ⟨ev,hw,-,rfl⟩
  · exact hb
  · apply hb.record
    intro w' hw'
    rw [hw] at hw'
    cases hw'
    exact hlt
end Records
namespace Spawned
variable {n : Nat} {p : Program effects Response} {s s' : World}
theorem valid (hv : Valid s) (hb : RecordedBelow n s) (h : system.Spawn n p s s') : Valid s' := by
  obtain ⟨a,c,request,-,-,-,rfl⟩ := h
  exact .step hv hb.own_eq

theorem recordedBelow (hb : RecordedBelow n s) (h : system.Spawn n p s s') :
    RecordedBelow (n+1) s' := by
  obtain ⟨a,c,request,-,-,-,rfl⟩ := h
  apply RecordedBelow.record
  · intro ev hev w hw
    exact Nat.lt_succ_of_lt (hb ev hev w hw)
  · intro w hw
    cases hw
    exact Nat.lt_succ_self _

theorem others {j : Nat} (h : system.Spawn n p s s') (hlt : j<n) : Others j s s' := by
  obtain ⟨a,c,request,-,-,-,rfl⟩ := h
  apply Others.record
  simp only [Event.worker?,ne_eq,Option.some.injEq]
  omega
end Spawned
namespace Cancelled
variable {s s' : World}
theorem valid (hv : Valid s) (h : system.Environment s s') : Valid s' := by
  obtain ⟨w,cause,rfl⟩ := h
  exact .step hv trivial
theorem recordedBelow (hb : RecordedBelow n s) (h : system.Environment s s') :
    RecordedBelow n s' := by
  obtain ⟨w,cause,rfl⟩ := h
  exact hb.record nofun
theorem others {j : Nat} (h : system.Environment s s') : Others j s s' := by
  obtain ⟨w,cause,rfl⟩ := h
  exact .record (by simp [Event.worker?])
end Cancelled
def logic : RelyGuarantee system where
  Inv := Valid
  Bound := RecordedBelow
  Rely := Others
  Pre _ _ _ := True
  Guar := Records
  rely_refl := Others.refl
  rely_trans := Others.trans
  guar_inv := Records.valid
  guar_rely := Records.others
  guar_bound := Records.recordedBelow
  spawn_inv := Spawned.valid
  spawn_bound := Spawned.recordedBelow
  spawn_rely := Spawned.others
  environment_inv := Cancelled.valid
  environment_bound := Cancelled.recordedBelow
  environment_rely := Cancelled.others

namespace Engine
variable {w : Nat} {r : Run} {s : World} {X : Error → Run → World → Prop}
theorem wp_ask {query : Query} {Q : query.Answer → Run → World → Prop}
    (h : ∀ s', Others w s s' → Valid s' → ∀ answer, Q answer r s') :
    (logic.of w).wp (ask query) r s Q X := by
  refine fun s' ho hv => ⟨trivial,?_⟩
  rintro answer s'' rfl
  exact ⟨.inl rfl,h _ ho hv answer⟩

theorem wp_contextErr {Q : Option ContextError → Run → World → Prop}
    (h : ∀ s', Others w s s' → Valid s' → ∀ answer, Q answer r s') :
    (logic.of w).wp contextErr r s Q X := by
  refine fun s' ho hv => ⟨trivial,?_⟩
  rintro answer s'' ⟨-,rfl⟩
  exact ⟨.inl rfl,h _ ho hv answer⟩

theorem wp_note {n : Note} {Q : Unit → Run → World → Prop}
    (h : ∀ s', Others w s s' → Valid s' → Legal s' (.note w n) ∧ Q () r (s'.record (.note w n))) :
    (logic.of w).wp (note n) r s Q X := by
  refine fun s' ho hv => ⟨trivial,?_⟩
  rintro answer s'' rfl
  obtain ⟨hlegal,hq⟩ := h s' ho hv
  exact ⟨.own rfl hlegal,hq⟩

variable {Q : Except StoreFault Execution → Run → World → Prop}
theorem wp_load (hkind : ∃ kind, s.IsKind w kind ∧ kind≠.invoke) (hblind : s.Blind w)
    (hclaimed : s.OnlyClaimed w) (hok : ∀ s' e, Others w s s' → Valid s' → s'.current?=some e →
      Q (.ok e) r (s'.record (.load w e)))
    (herr : ∀ s' fault, Others w s s' → Valid s' → Q (.error fault) r s') :
    (logic.of w).wp loadExecution r s Q X := by
  refine fun s' ho hv => ⟨trivial,?_⟩
  rintro answer s'' (⟨e,hcur,rfl,rfl⟩ | ⟨⟨fault,rfl⟩,rfl⟩)
  · obtain ⟨kind,hk,hne⟩ := hkind
    have hblind' : s'.Blind w := by
      unfold World.Blind
      rw [ho.own]
      exact hblind
    have hclaimed' : s'.OnlyClaimed w := by
      intro label e v hm
      exact hclaimed label e v ((ho.mem_iff _ rfl).mp hm)
    exact ⟨.own rfl ⟨hcur,hblind',hclaimed',kind,ho.isKind.mpr hk,hne⟩,hok s' e ho hv hcur⟩
  · exact ⟨.inl rfl,herr _ fault ho hv⟩

theorem wp_loadAfter {label : ReadLabel} {after : Nat}
    {Q : Except StoreFault ConversationSnapshot → Run → World → Prop}
    (hok : ∀ s', Others w s s' → Valid s' →
      Q (.ok (s'.loadAfter after)) r (s'.record (.read w label after s'.cursor)))
    (herr : ∀ s' fault, Others w s s' → Valid s' → Q (.error fault) r s') :
    (logic.of w).wp (loadAfter label after) r s Q X := by
  refine fun s' ho hv => ⟨trivial,?_⟩
  rintro answer s'' (⟨rfl,rfl⟩ | ⟨⟨fault,rfl⟩,rfl⟩)
  · exact ⟨.own rfl rfl,hok s' ho hv⟩
  · exact ⟨.inl rfl,herr _ fault ho hv⟩

theorem wp_save {label : SaveLabel} {e : Execution} {expected : Nat}
    (hlegal : ∀ s', Others w s s' → Valid s' →
      LegalSave s' w label { e with version := expected + 1 })
    (hok : ∀ s', Others w s s' → Valid s' → expected=s'.version →
      Valid (s'.record (.save w label { e with version := expected + 1 } .acked)) →
      Q (.ok { e with version := expected + 1 }) r
        (s'.record (.save w label { e with version := expected + 1 } .acked)))
    (herr : ∀ s' v fault, Others w s s' → Valid s' → v≠.acked →
      Q (.error fault) r (s'.record (.save w label { e with version := expected + 1 } v))) :
    (logic.of w).wp (saveRecord label e expected) r s Q X := by
  refine fun s' ho hv => ⟨trivial,?_⟩
  rintro answer s'' ⟨v,hver,rfl,hanswer⟩
  have hl : Legal s' (.save w label { e with version := expected + 1 } v) :=
    ⟨fun hc => by rw [hver hc],hlegal s' ho hv⟩
  refine ⟨.own rfl hl,?_⟩
  cases v with
  | acked =>
    rw [hanswer]
    exact hok s' ho hv (hver rfl) (.step hv hl)
  | lost | refused =>
    obtain ⟨fault,rfl⟩ := hanswer
    exact herr s' _ fault ho hv (by simp)

theorem wp_create {e : Execution}
    (hlegal : ∀ s', Others w s s' → Valid s' → LegalSave s' w .create { e with version := 1 })
    (hok : ∀ s', Others w s s' → Valid s' → 0=s'.version →
      Valid (s'.record (.save w .create { e with version := 1 } .acked)) →
      Q (.ok { e with version := 1 }) r (s'.record (.save w .create { e with version := 1 } .acked)))
    (herr : ∀ s' v fault, Others w s s' → Valid s' → v≠.acked →
      Q (.error fault) r (s'.record (.save w .create { e with version := 1 } v))) :
    (logic.of w).wp (createRecord e) r s Q X := wp_save hlegal hok herr

theorem wp_append {label : AppendLabel} {messages : List Message} {expected : Nat}
    {Q : Except StoreFault ConversationCursor → Run → World → Prop}
    (hlegal : ∀ s', Others w s s' → Valid s' → expected=s'.revision →
      (s'.cursorOf w).revision=s'.revision ∧ s'.Synced w ∧ s'.Open w ∧
        ∃ e, s'.hand? w=some e ∧ s'.Started w e ∧ LegalAppend s' w e label messages)
    (hok : ∀ s', Others w s s' → Valid s' → expected=s'.revision →
      Q (.ok ⟨expected+1,s'.messages.length+messages.length⟩) r
        (s'.record (.append w label messages
          ⟨expected+1,s'.messages.length+messages.length⟩ .acked)))
    (herr : ∀ s' c v fault, Others w s s' → Valid s' → v≠.acked →
      Q (.error fault) r (s'.record (.append w label messages c v))) :
    (logic.of w).wp (appendMessages label messages expected) r s Q X := by
  refine fun s' ho hv => ⟨trivial,?_⟩
  rintro answer s'' ⟨v,hrev,rfl,hanswer⟩
  refine ⟨.own rfl ?_,?_⟩
  · intro hc
    have hexp := hrev hc
    obtain ⟨hcur,hsync,hopen,hrest⟩ := hlegal s' ho hv hexp
    exact ⟨hcur,by rw [hexp],hsync,hopen,hrest⟩
  · cases v with
    | acked =>
      rw [hanswer]
      exact hok s' ho hv (hrev rfl)
    | lost | refused =>
      obtain ⟨fault,rfl⟩ := hanswer
      exact herr s' _ _ fault ho hv (by simp)

theorem wp_callModel {request : ModelRequest} {Q : Except Error ModelResponse → Run → World → Prop}
    (hlegal : ∀ s' usage, Others w s s' → Valid s' → Legal s' (.called w usage))
    (hok : ∀ s' (resp : ModelResponse), Others w s s' → Valid s' →
      Q (.ok resp) r (s'.record (.called w (some resp.usage))))
    (herr : ∀ s' err, Others w s s' → Valid s' → Q (.error err) r (s'.record (.called w none))) :
    (logic.of w).wp (callModel request) r s Q X := by
  refine fun s' ho hv => ⟨trivial,?_⟩
  rintro answer s'' (⟨resp,rfl,rfl⟩ | ⟨⟨err,rfl⟩,rfl⟩)
  · exact ⟨.own rfl (hlegal s' _ ho hv),hok s' resp ho hv⟩
  · exact ⟨.own rfl (hlegal s' _ ho hv),herr s' err ho hv⟩

theorem wp_commitLease {usage : TokenUsage} {Q : Option Error → Run → World → Prop}
    (h : ∀ s' (answer : Option Error), Others w s s' → Valid s' →
      Q answer r (s'.record (.leaseCommit w answer.isNone))) :
    (logic.of w).wp (commitLease usage) r s Q X := by
  refine fun s' ho hv => ⟨trivial,?_⟩
  rintro answer s'' rfl
  exact ⟨.own rfl trivial,h s' answer ho hv⟩

theorem wp_handler {start : HandlerStart} {Q : HandlerReply → Run → World → Prop}
    (h : ∀ s' reply, Others w s s' → Valid s' →
      LegalHandler s' w start ∧ Q reply r (s'.record (.handler w start reply))) :
    (logic.of w).wp (startHandler start) r s Q X := by
  refine fun s' ho hv => ⟨trivial,?_⟩
  rintro answer s'' rfl
  obtain ⟨hlegal,hq⟩ := h s' answer ho hv
  exact ⟨.own rfl hlegal,hq⟩
end Engine
end
end GudeAgents
