import GudeAgents.Refinement.Bodies
/-!
# Entry points

Each entry point starts with no memory but its own first event.
-/
namespace GudeAgents
open Framework List Logic World Event
variable {resp : ResumeResponse} {i : Interrupt}
section
variable {w : Nat} {t : Loop} {s : World} {l : List Event} {entry : Entry}
theorem World.mem_log_of_own (h : s.own w=l) {ev : Event} (hev : ev.worker?=some w) :
    ev∈s.log ↔ ev∈l := by
  rw [← h,mem_own]
  simp [hev]
theorem World.entered_of_own (h : s.own w=.began w entry::l) : s.Entered w entry :=
  (mem_log_of_own h rfl).mpr (by simp)

theorem World.isKind_of_own (h : s.own w=.began w entry::l)
    (hl : ∀ entry', began w entry'∉l) {kind : RequestKind} :
    s.IsKind w kind ↔ entry.request.kind=kind := by
  constructor
  · rintro ⟨entry',hentered,hkind⟩
    rw [World.Entered,mem_log_of_own h rfl] at hentered
    rcases mem_cons.mp hentered with heq | hin
    · cases heq
      exact hkind
    · exact absurd hin (hl entry')
  · exact fun hkind => ⟨entry,entered_of_own h,hkind⟩

section
variable (h : s.own w=l)
include h
theorem World.iterationOf_of_own : s.iterationOf w=l.foldl World.addIterationEvent 0 := by
  rw [World.iterationOf,h]
theorem World.synced_of_own (hsave : ∀ label e, save w label e .lost∉l)
    (happend : ∀ label ms c, append w label ms c .lost∉l) : s.Synced w :=
  ⟨fun label e => by rw [mem_log_of_own h rfl]; exact hsave label e,
    fun label ms c => by rw [mem_log_of_own h rfl]; exact happend label ms c⟩
theorem World.unwritten_of_own (hsave : ∀ label e v, save w label e v∉l) :
    ∀ label e v, save w label e v∉s.log := fun label e v => by
  rw [mem_log_of_own h rfl]
  exact hsave label e v
theorem World.blind_of_own (hl : ∀ ev∈l, ev.cursor?=none) : s.Blind w := by
  unfold World.Blind
  rw [h]
  exact hl

theorem World.onlyClaimed_of_own
    (hl : ∀ label e v, save w label e v∈l → ∃ i resp, label=.resumeClaim i resp) :
    s.OnlyClaimed w := by
  intro label e v hm
  rw [mem_log_of_own h rfl] at hm
  exact hl label e v hm

theorem World.open_of_own (hl : ∀ label e v, save w label e v∈l → label.closing=false) :
    s.Open w := by
  intro label e v hm
  rw [mem_log_of_own h rfl] at hm
  exact hl label e v hm

theorem World.hand?_of_own : s.hand? w=(l.filterMap held?).getLast? := by
  rw [World.hand?,h]
theorem World.cursorOf_of_own : s.cursorOf w=((l.filterMap cursor?).getLast?).getD {} := by
  rw [World.cursorOf,h]
theorem World.usageOf_of_own : s.usageOf w=l.foldl World.addUsageEvent 0 := by
  rw [World.usageOf,h]
theorem World.balanced_of_own (hl : l.filterMap response?=l.filterMap addedUsage?) :
    s.Balanced w := by
  rw [World.Balanced,World.responses,World.addedUsages,h]
  exact hl
end
variable {e : Execution}
theorem Opened.of_own {r : Run} (hown : s.own w=l) (hlive : Live w (.turn t) r e s)
    (hb : s.Balanced w)
    (hsave : ∀ label e v, save w label e v∈l → v=.acked ∧ label≠.pendingPause ∧
      label≠.plan) (happend : ∀ label ms c v, append w label ms c v∉l) :
    Opened w t r e s := by
  refine ⟨hlive,hb,?_,?_,?_⟩
  · refine synced_of_own hown (fun label e hm => ?_) fun label ms c => happend label ms c _
    cases (hsave label e _ hm).1
  · intro e v hm
    rw [mem_log_of_own hown rfl] at hm
    exact (hsave _ e v hm).2.1 rfl
  · intro e v hm
    rw [mem_log_of_own hown rfl] at hm
    exact (hsave _ e v hm).2.2 rfl

variable {id : String} (hnamed : id≠"")
include hnamed
theorem Opened.created (hentry : entry.request.kind=.invoke)
    (hown : s.own w=[.began w entry,.save w .create e .acked]) :
    Opened w ⟨entry.agent.maxIterations,0⟩
      { convID := id, execution := some e, executionDurable := true } e s := by
  have hkind : s.IsKind w .invoke := ⟨entry,entered_of_own hown,hentry⟩
  refine .of_own hown ?_ (balanced_of_own hown rfl) (by simp +contextual) (by simp)
  exact { durable := rfl, named := hnamed, execution := rfl, hand := World.hand?_of_own hown
          cursor := cursorOf_of_own hown, usage := usageOf_of_own hown
          started := .invoke e hkind ((mem_log_of_own hown rfl).mpr (by simp))
          opened := open_of_own hown (by simp +contextual [SaveLabel.closing]), iterated := by simp
          fits := { recovering := rfl, turn := .inl hkind, iteration := rfl
                    counted := (iterationOf_of_own hown).le
                    entered := ⟨entry,entered_of_own hown,rfl⟩ } }

theorem Opened.resumed {e0 e1 : Execution} (hentry : entry.request.kind=.resume)
    (hown : s.own w=[.began w entry,.load w e0,.save w (.resumeClaim i resp) e1 .acked,
      .load w e,.note w (.seededUsage e.usage)]) :
    Opened w ⟨entry.agent.maxIterations,e.iteration⟩
      { convID := id, execution := some e, executionDurable := true, iteration := e.iteration
        usage := e.usage } e s := by
  have hkind : s.IsKind w .resume := ⟨entry,entered_of_own hown,hentry⟩
  refine .of_own hown ?_ (balanced_of_own hown rfl) (by simp +contextual) (by simp)
  exact { durable := rfl, named := hnamed, execution := rfl, hand := World.hand?_of_own hown
          cursor := cursorOf_of_own hown, usage := usageOf_of_own hown
          started := .resume i resp hkind ⟨e1,(mem_log_of_own hown rfl).mpr (by simp)⟩
            ⟨e.usage,(mem_log_of_own hown rfl).mpr (by simp)⟩
          opened := open_of_own hown (by simp +contextual [SaveLabel.closing]), iterated := by simp
          fits := { recovering := rfl, turn := .inr hkind, iteration := rfl
                    counted := (iterationOf_of_own hown).le
                    entered := ⟨entry,entered_of_own hown,rfl⟩ } }
end
section
variable [Host] {w : Nat} {s : World} {a : Agent} {entry : Entry}
abbrev Returns (w : Nat) {α : Type} (m : Engine α) (r : Run) (s : World) : Prop :=
  (logic.of w).wp m r s (fun _ _ _ => True) (fun _ _ _ => True)

namespace Engine
theorem wp_load_of_own {r : Run} {Q : Except StoreFault Execution → Run → World → Prop}
    {X : Error → Run → World → Prop} {l : List Event} (hown : s.own w=.began w entry::l)
    (hentry : entry.request.kind≠.invoke) (hblind : ∀ ev∈l, ev.cursor?=none)
    (hclaimed : ∀ label e v, save w label e v∈l → ∃ i resp, label=.resumeClaim i resp)
    (hok : ∀ s' e, (s'.record (.load w e)).own w=.began w entry::(l++[.load w e]) →
      Valid s' → s'.current?=some e → Q (.ok e) r (s'.record (.load w e)))
    (herr : ∀ s' fault, Q (.error fault) r s') : (logic.of w).wp loadExecution r s Q X := by
  refine wp_load ⟨_,⟨entry,entered_of_own hown,rfl⟩,hentry⟩ (blind_of_own hown ?_)
    (onlyClaimed_of_own hown ?_) ?_ (fun s' fault _ _ => herr s' fault)
  · simpa [cursor?] using hblind
  · simpa using hclaimed
  · intro s' e ho
    apply hok
    rw [own_record_self rfl,ho.own,hown]
    rfl

theorem returns_invoke (ha : a.conversation=true) (hs : a.executionStore=true) {c : Context}
    {input : String} (hown : s.own w=[.began w entry]) (hentry : entry.request.kind=.invoke)
    (hagent : entry.agent=a) : Returns w (invoke a c input) {} s := by
  unfold Returns invoke lifecycle
  split
  · trivial
  · simp only [wp_bind,wp_modify,requireConversationID,ha,true_and]
    split
    · trivial
    · next hnamed =>
      simp only [wp_pure,openExecution,hs,↓reduceIte,Bool.false_eq_true,wp_bind]
      refine wp_create ?_ ?_ ?_
      · intro s' ho _
        refine .create _ _ ?_ ?_ hnamed
        · exact (isKind_of_own (ho.own.trans hown) (by simp)).mpr hentry
        · exact World.hand?_of_own (ho.own.trans hown)
      · intro s' ho _ _ _
        generalize he : ({ id := c.executionID, conversationID := c.conversationID
                           status := .running, phase := .model, version := 1 } : Execution)=e
        have hown' : (s'.record (.save w .create e .acked)).own w =
            [.began w entry,.save w .create e .acked] := by
          rw [own_record_self rfl,ho.own,hown]
          rfl
        refine wp_finishing (wp_freshTurn ha (by rw [hagent])
          (Opened.created hnamed hentry hown') ?_ ?_ (fun _ _ _ h => h) (fun _ _ _ h => h)) (fun _ _ _ => trivial) (fun _ _ _ => trivial)
        · rw [← he]
        · rw [← he]
      · intro s' v fault _ _ _
        trivial

def Won (w : Nat) (entry : Entry) (resp : ResumeResponse) (i : Interrupt) (r : Run) (s : World) :
    Prop :=
  ∃ e0 e1 v, s.own w=[.began w entry,.load w e0,
      .save w (.resumeClaim { i with executionVersion := v } resp) e1 .acked] ∧
    e1.revision=i.revision ∧ r={ execution := some e1 }

private theorem wp_claimPause (hown : s.own w=[.began w entry])
    (hentry : entry.request=.resume i resp) :
    (logic.of w).wp (claimPause a i resp) {} s (fun canonical r s' => Won w entry resp canonical r s')
      (fun _ _ _ => True) := by
  unfold claimPause
  split
  · trivial
  · split
    · trivial
    · rw [wp_bind]
      refine wp_load_of_own hown (by simp [hentry,Request.kind]) (by simp) (by simp) ?_
        (fun _ _ => trivial)
      intro s1 e hown1 _ _
      simp only
      split
      · trivial
      · next p hpause =>
        split
        · trivial
        · next hpaused =>
          simp only [not_or,not_not] at hpaused
          simp only [requireConversationID,wp_bind,wp_mapError]
          split
          · trivial
          · rw [wp_pure,wp_ofExcept]
            split
            · next hvalid =>
              refine wp_saveExecution ?_ ?_ (fun _ _ _ _ _ _ => trivial)
              · intro s2 ho2 _
                have hown2 := ho2.own.trans hown1
                have hentered := entered_of_own hown2
                exact .resumeClaim ⟨entry,hentered,by rw [hentry]; rfl⟩
                  (World.hand?_of_own hown2) hpaused.1 hpause hvalid
                  (unwritten_of_own hown2 (by simp))
                  ⟨entry,i,hentered,hentry,hpaused.2.symm⟩
              · intro s2 ho2 _ _ _
                refine ⟨e,{ e with status := .running, phase := .tools, pause := none,
                                    version := e.version+1 },e.version,?_,rfl,rfl⟩
                rw [own_record_self rfl,ho2.own,hown1]
                rfl
            · trivial

theorem returns_resume (ha : a.conversation=true) (hs : a.executionStore=true) {c : Context}
    (hown : s.own w=[.began w entry]) (hentry : entry.request=.resume i resp)
    (hagent : entry.agent=a) : Returns w (resume a c i resp) {} s := by
  unfold Returns resume
  rw [wp_bind]
  have hk : entry.request.kind=.resume := by rw [hentry]; rfl
  refine wp_mono (wp_claimPause hown hentry) ?_ (fun _ _ _ _ => trivial)
  rintro canonical r s1 ⟨e0,e1,v,hown1,hrev,rfl⟩
  simp only
  unfold lifecycle
  split
  · trivial
  · simp only [wp_bind,wp_modify,requireConversationID,ha,true_and]
    split
    · trivial
    · next hnamed =>
      simp only [wp_pure,openExecution,hs,↓reduceIte,wp_bind]
      refine wp_load_of_own hown1 (by simp [hk]) (by simp [cursor?])
        (by simp +contextual) ?_ (fun _ _ => trivial)
      intro s2 e hown2 _ _
      refine wp_note fun s3 ho3 _ => ?_
      have hown3 := ho3.own.trans hown2
      refine ⟨⟨⟨entry,entered_of_own hown3,hk⟩,
        ⟨{ canonical with executionVersion := v },resp,e1,(mem_log_of_own hown3 rfl).mpr ?_⟩,
        ⟨e,World.hand?_of_own hown3,rfl⟩,?_,?_,?_⟩,?_⟩
      · simp
      · rw [World.responses,hown3]
        rfl
      · rw [World.addedUsages,hown3]
        rfl
      · intro u hm
        rw [mem_log_of_own hown3 rfl] at hm
        simp at hm
      · have hown4 : (s3.record (.note w (.seededUsage e.usage))).own w=[.began w entry,
            .load w e0,.save w (.resumeClaim { canonical with executionVersion := v } resp) e1 .acked,
            .load w e,.note w (.seededUsage e.usage)] := by
          rw [own_record_self rfl,hown3]
          rfl
        refine wp_finishing (wp_resumeTurn ha (by rw [hagent])
          (Opened.resumed hnamed hk hown4) ?_ rfl
          (fun _ _ _ h => h) (fun _ _ _ h => h)) (fun _ _ _ => trivial) (fun _ _ _ => trivial)
        exact ⟨v,e1,(mem_log_of_own hown4 rfl).mpr (by simp),hrev⟩
end Engine
end
end GudeAgents
