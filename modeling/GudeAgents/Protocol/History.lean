import Mathlib.Data.List.Infix
import GudeAgents.Protocol.Legal
/-!
# Reading histories

How the views of a world change when one event is recorded.
-/
namespace GudeAgents
open List Event
theorem getElem?_of_isPrefix {α : Type} {xs ys : List α} {i : Nat} {x : α} (h : xs <+: ys)
    (hx : xs[i]?=some x) : ys[i]?=some x := by
  obtain ⟨rest,rfl⟩ := h
  rw [List.getElem?_append_left (List.getElem?_eq_some_iff.mp hx).1]
  exact hx

variable {c : ConversationCursor} {st : Stored}
variable {a : Appended}
namespace World
variable {s : World} {w : Nat} {ev : Event} {l l' : List Event}
@[simp] theorem record_log : (s.record ev).log=s.log++[ev] := rfl
@[simp] theorem record_seedRevision : (s.record ev).seedRevision=s.seedRevision := rfl
@[simp] theorem record_seedMessages : (s.record ev).seedMessages=s.seedMessages := rfl
@[simp] theorem upto_log : (s.upto l).log=l := rfl
@[simp] theorem upto_seedRevision : (s.upto l).seedRevision=s.seedRevision := rfl
@[simp] theorem upto_seedMessages : (s.upto l).seedMessages=s.seedMessages := rfl
@[simp] theorem upto_self : s.upto s.log=s := rfl
@[simp] theorem upto_upto : (s.upto l).upto l'=s.upto l' := rfl
@[simp] theorem record_upto : (s.record ev).upto l=s.upto l := rfl
theorem upto_record : (s.upto l).record ev=s.upto (l++[ev]) := rfl
theorem stored_record : (s.record ev).stored=s.stored++ev.stored?.toList := by
  simp only [stored,record_log,filterMap_append]
  cases h : ev.stored? <;> simp [h]
theorem appended_record : (s.record ev).appended=s.appended++ev.appended?.toList := by
  simp only [appended,record_log,filterMap_append]
  cases h : ev.appended? <;> simp [h]
theorem own_record : (s.record ev).own w=s.own w++if ev.worker?=some w then [ev] else [] := by
  simp only [own,record_log,filter_append]
  by_cases h : ev.worker?=some w <;> simp [h]
theorem own_record_self (h : ev.worker?=some w) : (s.record ev).own w=s.own w++[ev] := by
  rw [own_record,if_pos h]
@[simp] theorem mem_own : ev∈s.own w ↔ ev∈s.log ∧ ev.worker?=some w := by
  simp [own]

theorem hand?_record : (s.record ev).hand? w =
    if ev.worker?=some w then ev.held?.or (s.hand? w) else s.hand? w := by
  unfold hand?
  rw [own_record]
  by_cases h : ev.worker?=some w
  · cases hh : ev.held? <;> simp [h,hh,filterMap_append,List.getLast?_append]
  · simp [h]

theorem cursorOf_record : (s.record ev).cursorOf w =
    if ev.worker?=some w then ev.cursor?.getD (s.cursorOf w) else s.cursorOf w := by
  unfold cursorOf
  rw [own_record]
  by_cases h : ev.worker?=some w
  · cases hh : ev.cursor? <;> simp [h,hh,filterMap_append,List.getLast?_append]
  · simp [h]

theorem version_record : (s.record ev).version=s.version+ev.stored?.toList.length := by
  simp [version,stored_record]
theorem revision_record : (s.record ev).revision=s.revision+ev.appended?.toList.length := by
  simp [revision,appended_record,Nat.add_assoc]
theorem messages_record : (s.record ev).messages =
    s.messages++ev.appended?.toList.flatMap (·.messages) := by
  simp [messages,appended_record,flatMap_append]
theorem current?_eq : s.current?=(s.stored[s.version-1]?).map (·.execution) := by
  simp [current?,records,version,List.getLast?_eq_getElem?]

section
variable (h : l <+: s.log)
include h
theorem stored_isPrefix : (s.upto l).stored <+: s.stored :=
  List.IsPrefix.filterMap _ h
theorem appended_isPrefix : (s.upto l).appended <+: s.appended :=
  List.IsPrefix.filterMap _ h
theorem version_mono : (s.upto l).version ≤ s.version :=
  (stored_isPrefix h).length_le
theorem revision_mono : (s.upto l).revision ≤ s.revision :=
  Nat.add_le_add_left (appended_isPrefix h).length_le _
theorem messages_isPrefix : (s.upto l).messages <+: s.messages := by
  obtain ⟨rest,hrest⟩ := appended_isPrefix h
  refine ⟨rest.flatMap (·.messages),?_⟩
  simp only [messages,← hrest,flatMap_append,upto_seedMessages,append_assoc]

theorem stored_of_prefix {k : Nat} (hk : (s.upto l).stored[k]?=some st) : s.stored[k]?=some st := by
  obtain ⟨rest,hrest⟩ := stored_isPrefix h
  rw [← hrest,List.getElem?_append_left (List.getElem?_eq_some_iff.mp hk).1]
  exact hk

theorem stored_prefix_of_lt {k : Nat} (hk : s.stored[k]?=some st) (hlt : k<(s.upto l).version) :
    (s.upto l).stored[k]?=some st := by
  obtain ⟨rest,hrest⟩ := stored_isPrefix h
  rw [← hrest,List.getElem?_append_left hlt] at hk
  exact hk

theorem appended_of_prefix {k : Nat} (hk : (s.upto l).appended[k]?=some a) :
    s.appended[k]?=some a := by
  obtain ⟨rest,hrest⟩ := appended_isPrefix h
  rw [← hrest,List.getElem?_append_left (List.getElem?_eq_some_iff.mp hk).1]
  exact hk
end
theorem messagesAt_revision : s.messagesAt s.revision=s.messages := by
  simp [messagesAt,messages,revision]

variable {R : Nat}
theorem messagesAt_of_prefix (h : l <+: s.log) (hR : R≤(s.upto l).revision) :
    s.messagesAt R=(s.upto l).messagesAt R := by
  obtain ⟨rest,hrest⟩ := appended_isPrefix h
  have hle : R-s.seedRevision≤(s.upto l).appended.length := by
    simp only [revision,upto_seedRevision] at hR
    omega
  simp only [messagesAt,← hrest,upto_seedRevision,upto_seedMessages,take_append_of_le_length hle]

theorem messagesAt_record (h : R ≤ s.revision) : (s.record ev).messagesAt R=s.messagesAt R :=
  messagesAt_of_prefix (prefix_append _ _) h

theorem messagesAt_isPrefix {R' : Nat} (h : R≤R') : s.messagesAt R <+: s.messagesAt R' := by
  have htake : s.appended.take (R-s.seedRevision) <+: s.appended.take (R'-s.seedRevision) :=
    take_prefix_take_left (by omega)
  obtain ⟨rest,hrest⟩ := htake
  refine ⟨rest.flatMap (·.messages),?_⟩
  simp only [messagesAt,← hrest,flatMap_append,append_assoc]

theorem messagesAt_isPrefix_messages (h : R ≤ s.revision) : s.messagesAt R <+: s.messages := by
  have := messagesAt_isPrefix (s := s) h
  rwa [messagesAt_revision] at this
theorem Genuine.mono (h : l <+: s.log) (hc : (s.upto l).Genuine c) : s.Genuine c :=
  { seed_le := hc.seed_le
    le := hc.le.trans (revision_mono h)
    lastSequence := by rw [hc.lastSequence, messagesAt_of_prefix h hc.le] }
theorem Genuine.seed_length_le (h : s.Genuine c) : s.seedMessages.length≤c.lastSequence := by
  rw [h.lastSequence]
  simp [messagesAt]
theorem Genuine.le_length (h : s.Genuine c) : c.lastSequence ≤ s.messages.length := by
  rw [h.lastSequence]
  exact (messagesAt_isPrefix_messages h.le).length_le
theorem genuine_cursor : s.Genuine s.cursor :=
  { seed_le := Nat.le_add_right _ _
    le := le_refl _
    lastSequence := by simp [cursor,messagesAt_revision] }
end World
section
variable [Host] {s : World} {l : List Event} {ev : Event}
theorem Valid.upto (h : Valid s) (hl : l <+: s.log) : Valid (s.upto l) := by
  induction h generalizing l with
  | @start s empty =>
    rw [empty,prefix_nil] at hl
    exact .start (by simp [hl])
  | @step s ev valid legal ih =>
    rcases prefix_concat_iff.mp hl with rfl | hl'
    · exact .step valid legal
    · exact ih hl'

theorem Valid.legal (h : Valid s) (hl : l++[ev] <+: s.log) : Legal (s.upto l) ev := by
  have hv : Valid ((s.upto l).record ev) := h.upto hl
  generalize ht : (s.upto l).record ev=t at hv
  cases hv with
  | start empty => rw [← ht] at empty; simp at empty
  | @step s' ev' valid legal =>
    have hlog : l++[ev]=s'.log++[ev'] := congrArg World.log ht
    obtain ⟨rfl,hev⟩ := append_inj' hlog rfl
    have hs : s.upto s'.log=s' := by
      cases s'
      simp only [World.record,World.upto,World.mk.injEq] at ht ⊢
      exact ⟨ht.1,ht.2.1,trivial⟩
    rw [hs,singleton_inj.mp hev]
    exact legal
end
section
variable {s : World} {l : List Event} {ev : Event}
theorem exists_prefix_of_mem (h : ev∈s.log) : ∃ l, l++[ev] <+: s.log := by
  obtain ⟨l,r,hr⟩ := append_of_mem h
  exact ⟨l,r,by rw [hr]; simp⟩
theorem prefix_of_concat (h : l++[ev] <+: s.log) : l <+: s.log :=
  (prefix_append l [ev]).trans h
theorem mem_of_concat (h : l++[ev] <+: s.log) : ev∈s.log :=
  h.subset (by simp)
end
theorem exists_prefix_of_filterMap {α : Type} (f : Event → Option α) :
    ∀ (log : List Event) {k : Nat} {a : α}, (log.filterMap f)[k]?=some a →
      ∃ l ev, l++[ev] <+: log ∧ f ev=some a ∧ (l.filterMap f).length=k := by
  intro log
  induction log using List.reverseRecOn with
  | nil => intro k a h; simp at h
  | append_singleton log ev ih =>
    intro k a h
    rw [filterMap_append] at h
    by_cases hk : k<(log.filterMap f).length
    · rw [List.getElem?_append_left hk] at h
      obtain ⟨l,ev',hl,hf,hlen⟩ := ih h
      exact ⟨l,ev',hl.trans (prefix_append _ _),hf,hlen⟩
    · rw [List.getElem?_append_right (Nat.le_of_not_lt hk)] at h
      cases hf : f ev with
      | none => simp [hf] at h
      | some b =>
        have hk0 : k-(log.filterMap f).length=0 := by
          by_contra hne
          obtain ⟨n,hn⟩ := Nat.exists_eq_succ_of_ne_zero hne
          simp [hf,hn] at h
        have hb : b=a := by simpa [hf,hk0] using h
        exact ⟨log,ev,prefix_rfl,hb ▸ hf,by omega⟩

theorem Event.stored?_eq_some {ev : Event} (h : ev.stored?=some st) :
    ∃ v, ev=.save st.worker st.label st.execution v ∧ v.committed=true := by
  cases ev with
  | save w label e v =>
    have hv : v.committed=true := by
      by_contra hv
      simp [stored?,hv] at h
    have hst : Stored.mk w label e=st := by simpa [stored?,hv] using h
    exact ⟨v,by rw [← hst],hv⟩
  | _ => simp [stored?] at h

theorem Event.appended?_eq_some {ev : Event} (h : ev.appended?=some a) :
    ∃ c v, ev=.append a.worker a.label a.messages c v ∧ v.committed=true := by
  cases ev with
  | append w label messages c v =>
    have hv : v.committed=true := by
      by_contra hv
      simp [appended?,hv] at h
    have ha : Appended.mk w label messages=a := by simpa [appended?,hv] using h
    exact ⟨c,v,by rw [← ha],hv⟩
  | _ => simp [appended?] at h

namespace World
variable {s : World} {k : Nat}
theorem exists_save_of_stored (h : s.stored[k]?=some st) :
    ∃ l v, l++[save st.worker st.label st.execution v] <+: s.log ∧
      v.committed=true ∧ (s.upto l).version=k := by
  obtain ⟨l,ev,hl,hf,hlen⟩ := exists_prefix_of_filterMap stored? s.log h
  obtain ⟨v,rfl,hv⟩ := stored?_eq_some hf
  exact ⟨l,v,hl,hv,hlen⟩

theorem exists_append_of_appended (h : s.appended[k]?=some a) :
    ∃ l c v, l++[append a.worker a.label a.messages c v] <+: s.log ∧
      v.committed=true ∧ (s.upto l).appended.length=k := by
  obtain ⟨l,ev,hl,hf,hlen⟩ := exists_prefix_of_filterMap appended? s.log h
  obtain ⟨c,v,rfl,hv⟩ := appended?_eq_some hf
  exact ⟨l,c,v,hl,hv,hlen⟩

theorem stored_of_save {l : List Event} {w : Nat} {label : SaveLabel} {e : Execution} {v : Verdict}
    (hl : l++[save w label e v] <+: s.log) (hv : v.committed=true) :
    s.stored[(s.upto l).version]?=some ⟨w,label,e⟩ := by
  refine stored_of_prefix hl ?_
  rw [← upto_record,stored_record]
  simp [stored?,hv,version]

theorem appended_of_append {l : List Event} {w : Nat} {label : AppendLabel} {ms : List Message}
    {v : Verdict} (hl : l++[append w label ms c v] <+: s.log) (hv : v.committed=true) :
    s.appended[(s.upto l).appended.length]?=some ⟨w,label,ms⟩ := by
  refine appended_of_prefix hl ?_
  rw [← upto_record,appended_record]
  simp [appended?,hv]

variable {ev : Event}
theorem record_isPrefix : s.log <+: (s.record ev).log := prefix_append _ _

theorem stored_record_cases (h : (s.record ev).stored[k]?=some st) : s.stored[k]?=some st ∨
      k=s.version ∧ ∃ v, ev=.save st.worker st.label st.execution v ∧ v.committed=true := by
  rw [stored_record] at h
  rcases Nat.lt_or_ge k s.stored.length with hk | hk
  · rw [List.getElem?_append_left hk] at h
    exact .inl h
  · rw [List.getElem?_append_right hk] at h
    obtain ⟨hlt,-⟩ := List.getElem?_eq_some_iff.mp h
    have hlen : ev.stored?.toList.length≤1 := by cases ev.stored? <;> simp
    have hk0 : k=s.stored.length := by omega
    subst hk0
    have hev : ev.stored?=some st := by
      cases hs : ev.stored? <;> simp_all
    exact .inr ⟨rfl,stored?_eq_some hev⟩

theorem messages_record_cases {m : Message} (h : (s.record ev).messages[k]?=some m) :
    s.messages[k]?=some m ∨ s.messages.length≤k ∧ ∃ w label ms c v,
      ev=.append w label ms c v ∧ v.committed=true ∧ ms[k-s.messages.length]?=some m := by
  rw [messages_record] at h
  rcases Nat.lt_or_ge k s.messages.length with hk | hk
  · rw [List.getElem?_append_left hk] at h
    exact .inl h
  · rw [List.getElem?_append_right hk] at h
    refine .inr ⟨hk,?_⟩
    cases ev with
    | append w label ms c v =>
      cases hv : v.committed with
      | true => exact ⟨w,label,ms,c,v,rfl,hv,by simpa [appended?,hv] using h⟩
      | false => simp [appended?,hv] at h
    | _ => simp [appended?] at h
end World
end GudeAgents
