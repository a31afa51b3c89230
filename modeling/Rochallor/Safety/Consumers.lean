import Rochallor.Safety.Acknowledged

/-! # The invariants of the three consumers

    Each consumer keeps, in its own way, every record below the position of an
    owned partition acknowledged, but for the one it is working on.  So when a
    record is polled, everything before it is acknowledged, and what is left to
    a commit is the record itself and the ownership of its partition.
-/

namespace Rochallor

variable {w w' : Ledger} {v : View}

/-! ## Go -/

/-- The one record the loop works on is the only gap, as long as the loop
    runs. -/
structure GoConsumer.Sound (c : GoConsumer) (w : Ledger) : Prop where
  member : c.member.Sound
  record : ∀ {d : PolledRecord} {phase : WorkPhase}, c.loop = .dispatching d phase →
    d.Sound c.member w ∧ phase.Sound d w
  behind : c.loop ≠ .returned → ∀ {tp : TopicPartition} {e o : Nat},
    c.member.owners tp = some e → o < c.member.position tp →
    w.Acked tp o ∨ ∃ d phase, c.loop = .dispatching d phase ∧ d.partition = tp ∧
      d.offset = o ∧ d.owner = e

namespace GoConsumer

variable {c : GoConsumer}

theorem sound_empty (w : Ledger) : GoConsumer.Sound {} w where
  member := membership_sound_empty
  record := fun h => by cases h
  behind := fun _ _ _ _ h => by cases h

theorem Sound.mono (h : c.Sound w) (hw : w.Extends w') : c.Sound w' where
  member := h.member
  record := fun hloop => ⟨(h.record hloop).1.later (.refl _) hw, (h.record hloop).2.later hw⟩
  behind := fun hloop _ _ _ howner ho => (h.behind hloop howner ho).imp_left hw.acked

/-- Between two records everything polled is acknowledged. -/
theorem Sound.covered (h : c.Sound w) (hloop : c.loop = .polling) {tp : TopicPartition} {e : Nat}
    (howner : c.member.owners tp = some e) : w.Covered tp (c.member.position tp) := by
  intro o ho
  rcases h.behind (by simp [hloop]) howner ho with hacked | ⟨d, phase, hd, -⟩
  · exact hacked
  · rw [hloop] at hd
    cases hd

private theorem assigned_sound (h : c.Sound w) (hv : v.Sound w) (tp : TopicPartition) :
    ({ c with member := c.member.assigned tp (v.committed tp) } : GoConsumer).Sound w where
  member := Membership.assigned_sound h.member tp _
  record := fun hloop =>
    ⟨(h.record hloop).1.later (Membership.assigned_later h.member tp _) (.refl w),
      (h.record hloop).2⟩
  behind := by
    intro hloop tp' e o howner ho
    cases ha : c.member.assignment tp with
    | some a =>
      rw [Membership.assigned_of_some ha] at howner ho
      exact h.behind hloop howner ho
    | none =>
      rw [Membership.assigned_eq h.member ha] at howner ho
      by_cases heq : tp' = tp
      · -- a new assignment starts at the committed offset
        subst heq
        simp only [Function.update_self] at ho
        exact .inl (hv.committed tp' o ho)
      · simp only [Function.update_of_ne heq] at howner ho
        exact h.behind hloop howner ho

private theorem revoked_sound (h : c.Sound w) (tp : TopicPartition) :
    ({ c with member := c.member.revoked tp } : GoConsumer).Sound w where
  member := Membership.revoked_sound h.member tp
  record := fun hloop =>
    ⟨(h.record hloop).1.later (Membership.revoked_later _ tp) (.refl w), (h.record hloop).2⟩
  behind := by
    intro hloop tp' e o howner ho
    have ho' : o < c.member.position tp' := by simpa [Membership.revoked, Membership.unassign] using ho
    exact h.behind hloop (Membership.disown_kept howner).2 ho'

/-- A polled record: everything before it is acknowledged. -/
private theorem polled_sound (h : c.Sound w) (hv : v.Sound w) (tp : TopicPartition) :
    (c.step v (.polled tp)).1.Sound w ∧ (c.step v (.polled tp)).2 = [] := by
  simp only [step]
  split
  · rename_i a msg hloop hnext
    obtain ⟨-, ha, hmsg⟩ := Membership.next_eq hnext
    rw [hv.log] at hmsg
    split
    · rename_i hnone
      refine ⟨⟨Membership.seek_sound h.member tp _, fun hl => ?_, ?_⟩, rfl⟩
      · have hl' : c.loop = .dispatching _ _ := hl
        rw [hloop] at hl'
        cases hl'
      · intro _ tp' e o howner ho
        have howner' : c.member.owners tp' = some e := howner
        have hne : tp' ≠ tp := by
          rintro rfl
          rw [hnone] at howner'
          cases howner'
        simp only [Membership.seek, Function.update_of_ne hne] at ho
        exact .inl (h.covered hloop howner' o ho)
    · rename_i owner howner
      have hcovered := h.covered hloop howner
      refine ⟨⟨?_, ?_, ?_⟩, rfl⟩
      · exact Membership.deliver_sound (Membership.seek_sound h.member tp _) _
      · intro d phase hd
        cases hd
        refine ⟨⟨hmsg, hcovered, h.member.owner_lt howner, fun _ => ha, ?_⟩, trivial⟩
        exact List.mem_cons_self ..
      · intro _ tp' e o howner' ho
        have howner'' : c.member.owners tp' = some e := howner'
        by_cases heq : tp' = tp
        · subst heq
          simp only [Membership.deliver, Membership.seek, Function.update_self] at ho
          by_cases hlast : o = c.member.position tp'
          · rw [howner] at howner''
            cases howner''
            exact .inr ⟨_, _, rfl, rfl, hlast.symm, rfl⟩
          · exact .inl (hcovered o (by omega))
        · simp only [Membership.deliver, Membership.seek, Function.update_of_ne heq] at ho
          exact .inl (h.covered hloop howner'' o ho)
  · exact ⟨h, rfl⟩

private theorem work_sound (h : c.Sound w) (hv : v.Sound w) (e : WorkEvent) :
    (∀ x ∈ (c.step v (.work e)).2, x.Sound w c.member) ∧
      (c.step v (.work e)).1.Sound (w.after (c.step v (.work e)).2) := by
  simp only [step]
  split
  · rename_i d phase hloop
    obtain ⟨hd, hphase⟩ := h.record hloop
    obtain ⟨heff, hnew⟩ := dispatchWork_sound false (v.owned c.member d) hv hd
      hphase e
    have hext := w.extends_after (dispatchRecord v (v.owned c.member d) d phase e).2
    refine ⟨heff, h.member, ?_, ?_⟩
    · intro d' phase' hd'
      cases hd'
      exact ⟨hd.later (.refl _) hext, hnew⟩
    · intro _ tp e' o howner ho
      rcases h.behind (by simp [hloop]) howner ho with hacked | ⟨d', phase', hd', htp, ho', he⟩
      · exact .inl (hext.acked hacked)
      · rw [hloop] at hd'
        cases hd'
        exact .inr ⟨d, _, rfl, htp, ho', he⟩
  · exact ⟨by simp, h⟩

/-- Giving up a record: if the loop goes on, its partition has another owner. -/
private theorem giveUp_sound (h : c.Sound w) {d : PolledRecord} {phase : WorkPhase}
    (hloop : c.loop = .dispatching d phase) :
    (∀ x ∈ (c.giveUp v d).2, x.Sound w c.member) ∧ (c.giveUp v d).1.Sound w := by
  unfold giveUp
  split
  · rename_i hended
    simp only [Bool.and_eq_true, decide_eq_true_eq] at hended
    refine ⟨by simp, h.member, fun hd => (by cases hd), ?_⟩
    intro _ tp e o howner ho
    rcases h.behind (by simp [hloop]) howner ho with hacked | ⟨d', phase', hd', -, -, he⟩
    · exact .inl hacked
    · rw [hloop] at hd'
      cases hd'
      exact absurd (he ▸ hended.1) (h.member.alive howner)
  · refine ⟨?_, h.member, fun hd => (by cases hd), fun hne => absurd rfl hne⟩
    intro x hx
    obtain rfl := List.mem_singleton.mp hx
    trivial

private theorem proceed_sound (h : c.Sound w) (outcome : CommitOutcome) :
    (∀ x ∈ (c.step v (.proceed outcome)).2, x.Sound w c.member) ∧
      (c.step v (.proceed outcome)).1.Sound w := by
  simp only [step]
  split
  · rename_i d hloop
    exact giveUp_sound h hloop
  · rename_i d hloop
    obtain ⟨hd, hacked⟩ := h.record hloop
    have hgive := giveUp_sound (v := v) h hloop
    split
    · exact hgive
    · rename_i howned
      simp only [ne_eq, Bool.or_eq_true, decide_eq_true_eq, not_or, not_not] at howned
      have hcommit := commit_effects hd hacked howned.1 outcome
      split
      · refine ⟨hcommit, h.member, fun hd => (by cases hd), ?_⟩
        intro _ tp e o howner ho
        rcases h.behind (by simp [hloop]) howner ho with hold | ⟨d', phase', hd', htp, ho', -⟩
        · exact .inl hold
        · rw [hloop] at hd'
          cases hd'
          exact .inl (htp ▸ ho' ▸ hacked)
      · refine ⟨?_, hgive.2⟩
        intro x hx
        rcases List.mem_append.mp hx with hx | hx
        · exact hcommit x hx
        · exact hgive.1 x hx
  · exact ⟨by simp, h⟩

/-- Every event of a Go consumer is harmless and keeps its invariant. -/
theorem step_sound (h : c.Sound w) (hv : v.Sound w) (e : GoEvent) :
    (∀ x ∈ (c.step v e).2, x.Sound w c.member) ∧ (c.step v e).1.Sound (w.after (c.step v e).2) := by
  cases e with
  | assigned tp => exact ⟨by simp [step], assigned_sound h hv tp⟩
  | revoked tp => exact ⟨by simp [step], revoked_sound h tp⟩
  | polled tp =>
    obtain ⟨hsound, hnil⟩ := polled_sound h hv tp
    rw [hnil]
    exact ⟨by simp, hsound⟩
  | work e => exact work_sound h hv e
  | proceed outcome =>
    obtain ⟨heff, hsound⟩ := proceed_sound (v := v) h outcome
    exact ⟨heff, hsound.mono (w.extends_after _)⟩
  | exit =>
    simp only [step]
    split
    · rename_i hloop
      split
      · exact ⟨by simp, h.member, fun hd => (by cases hd), fun hne => absurd rfl hne⟩
      · exact ⟨by simp, h⟩
    · exact ⟨by simp, h⟩

end GoConsumer

/-! ## Java -/

/-- The one gap below the position of an owned partition is the record of its
    pending entry, as long as the loop runs. -/
structure JavaConsumer.Sound (c : JavaConsumer) (w : Ledger) : Prop where
  member : c.member.Sound
  thread_lt : ∀ {thread : Nat}, c.works thread ≠ none → thread < c.nextWork
  record : ∀ {thread : Nat} {d : PolledRecord} {phase : WorkPhase},
    c.works thread = some (d, phase) → d.Sound c.member w ∧ phase.Sound d w
  pending : ∀ {tp : TopicPartition} {thread : Nat}, c.pending tp = some thread →
    ∃ d phase, c.works thread = some (d, phase) ∧ d.partition = tp ∧
      c.member.owners tp = some d.owner
  behind : c.closed = false → ∀ {tp : TopicPartition} {e o : Nat},
    c.member.owners tp = some e → o < c.member.position tp →
    w.Acked tp o ∨ ∃ thread d phase, c.pending tp = some thread ∧
      c.works thread = some (d, phase) ∧ d.offset = o

namespace JavaConsumer

variable {c : JavaConsumer}

theorem sound_empty (w : Ledger) : JavaConsumer.Sound {} w where
  member := membership_sound_empty
  thread_lt := fun h => absurd rfl h
  record := fun h => by cases h
  pending := fun h => by cases h
  behind := fun _ _ _ _ h => by cases h

theorem Sound.mono (h : c.Sound w) (hw : w.Extends w') : c.Sound w' where
  member := h.member
  thread_lt := h.thread_lt
  record := fun hwork => ⟨(h.record hwork).1.later (.refl _) hw, (h.record hwork).2.later hw⟩
  pending := h.pending
  behind := fun hopen _ _ _ howner ho => (h.behind hopen howner ho).imp_left hw.acked

/-- A partition without an entry is acknowledged up to its position. -/
theorem Sound.covered (h : c.Sound w) (hopen : c.closed = false) {tp : TopicPartition} {e : Nat}
    (howner : c.member.owners tp = some e) (hnone : c.pending tp = none) :
    w.Covered tp (c.member.position tp) := by
  intro o ho
  rcases h.behind hopen howner ho with hacked | ⟨thread, d, phase, hp, -⟩
  · exact hacked
  · rw [hnone] at hp
    cases hp

/-- After `consume` nothing is owned, wherever the client stood. -/
private theorem close_sound (h : c.Sound w) {m : Membership}
    (hnext : m.nextOwner = c.member.nextOwner) (hdel : m.delivered = c.member.delivered) :
    ({ c with member := m } : JavaConsumer).close.Sound w where
  member := by
    refine ⟨fun he => (by cases he), ?_, fun he => (by cases he), fun he => (by cases he),
      fun he => (by cases he)⟩
    intro e he
    exact List.mem_range.mp he
  thread_lt := h.thread_lt
  record := by
    intro thread d phase hwork
    obtain ⟨hd, hphase⟩ := h.record hwork
    refine ⟨hd.later ⟨?_, ?_, fun _ he => by cases he⟩ (.refl w), hphase⟩
    · exact Nat.le_of_eq hnext.symm
    · exact fun x hx => hdel ▸ hx
  pending := fun hp => by cases hp
  behind := fun hopen => by cases hopen

private theorem stop_harmless {m : Membership} : ∀ x ∈ [Effect.stop], x.Sound w m := by
  intro x hx
  obtain rfl := List.mem_singleton.mp hx
  trivial

private theorem assigned_sound (h : c.Sound w) (hv : v.Sound w) (tp : TopicPartition) :
    ({ c with member := c.member.assigned tp (v.committed tp) } : JavaConsumer).Sound w := by
  cases ha : c.member.assignment tp with
  | some a =>
    rw [Membership.assigned_of_some ha]
    exact h
  | none =>
    have hlater := Membership.assigned_later h.member tp (v.committed tp)
    have hsound := Membership.assigned_sound h.member tp (v.committed tp)
    rw [Membership.assigned_eq h.member ha] at hlater hsound ⊢
    refine ⟨hsound, h.thread_lt, fun hwork =>
      ⟨(h.record hwork).1.later hlater (.refl w), (h.record hwork).2⟩, ?_, ?_⟩
    · intro tp' thread hp
      obtain ⟨d, phase, hwork, hd, howner⟩ := h.pending hp
      have hne : tp' ≠ tp := by
        rintro rfl
        exact h.member.assigned howner ha
      exact ⟨d, phase, hwork, hd, by simpa only [Function.update_of_ne hne] using howner⟩
    · intro hopen tp' e o howner ho
      by_cases heq : tp' = tp
      · subst heq
        simp only [Function.update_self] at ho
        exact .inl (hv.committed tp' o ho)
      · simp only [Function.update_of_ne heq] at howner ho
        exact h.behind hopen howner ho

private theorem setPaused_sound (h : c.Sound w) (tp : TopicPartition) (b : Bool) :
    ({ c with member := c.member.setPaused tp b } : JavaConsumer).Sound w where
  member := Membership.setPaused_sound h.member tp b
  thread_lt := h.thread_lt
  record := fun hwork => ⟨(h.record hwork).1.later (Membership.setPaused_later _ tp b) (.refl w),
    (h.record hwork).2⟩
  pending := h.pending
  behind := h.behind

private theorem revoked_sound (h : c.Sound w) (tp : TopicPartition) :
    ({ c with
        member := c.member.revoked tp
        pending := Function.update c.pending tp none } : JavaConsumer).Sound w where
  member := Membership.revoked_sound h.member tp
  thread_lt := h.thread_lt
  record := fun hwork => ⟨(h.record hwork).1.later (Membership.revoked_later _ tp) (.refl w),
    (h.record hwork).2⟩
  pending := by
    intro tp' thread hp
    by_cases heq : tp' = tp
    · subst heq
      simp at hp
    · simp only [Function.update_of_ne heq] at hp
      obtain ⟨d, phase, hwork, hd, howner⟩ := h.pending hp
      refine ⟨d, phase, hwork, hd, ?_⟩
      show (c.member.disown tp).owners tp' = _
      rw [Membership.disown_owners, Function.update_of_ne heq]
      exact howner
  behind := by
    intro hopen tp' e o howner ho
    obtain ⟨hne, hold⟩ := Membership.disown_kept howner
    have ho' : o < c.member.position tp' := by simpa [Membership.revoked, Membership.unassign] using ho
    simp only [Function.update_of_ne hne]
    exact h.behind hopen hold ho'

private theorem polled_sound (h : c.Sound w) (hv : v.Sound w) (tp : TopicPartition) :
    (∀ x ∈ (c.step v (.polled tp)).2, x.Sound w c.member) ∧ (c.step v (.polled tp)).1.Sound w := by
  simp only [step]
  split
  · exact ⟨by simp, h⟩
  · rename_i hopen
    simp only [Bool.not_eq_true] at hopen
    split
    · exact ⟨by simp, h⟩
    · rename_i a msg hnext
      obtain ⟨-, ha, hmsg⟩ := Membership.next_eq hnext
      rw [hv.log] at hmsg
      split
      · rename_i owner howner hnone
        have hcovered := h.covered hopen howner hnone
        split
        · exact ⟨stop_harmless, close_sound h rfl rfl⟩
        · refine ⟨by simp, ?_, ?_, ?_, ?_, ?_⟩
          · exact Membership.deliver_sound (Membership.setPaused_sound
              (Membership.seek_sound h.member tp _) tp true) _
          · intro thread hthread
            by_cases heq : thread = c.nextWork
            · exact heq ▸ Nat.lt_succ_self _
            · simp only [Function.update_of_ne heq] at hthread
              exact Nat.lt_succ_of_lt (h.thread_lt hthread)
          · intro thread d phase hwork
            by_cases heq : thread = c.nextWork
            · subst heq
              simp only [Function.update_self, Option.some.injEq, Prod.mk.injEq] at hwork
              obtain ⟨rfl, rfl⟩ := hwork
              refine ⟨⟨hmsg, hcovered, h.member.owner_lt howner, fun _ => ha, ?_⟩, trivial⟩
              exact List.mem_cons_self ..
            · simp only [Function.update_of_ne heq] at hwork
              obtain ⟨hd, hphase⟩ := h.record hwork
              refine ⟨hd.later ?_ (.refl w), hphase⟩
              exact ((Membership.seek_later _ tp _).trans (Membership.setPaused_later _ tp true)).trans
                (Membership.deliver_later _ _)
          · intro tp' thread hp
            by_cases heq : tp' = tp
            · subst heq
              simp only [Function.update_self, Option.some.injEq] at hp
              subst hp
              exact ⟨_, _, Function.update_self .., rfl, howner⟩
            · simp only [Function.update_of_ne heq] at hp
              obtain ⟨d, phase, hwork, hd, howner'⟩ := h.pending hp
              have hold : thread ≠ c.nextWork := by
                have : thread < c.nextWork := h.thread_lt (by simp [hwork])
                omega
              refine ⟨d, phase, ?_, hd, howner'⟩
              simpa only [Function.update_of_ne hold] using hwork
          · intro _ tp' e o howner' ho
            have howner'' : c.member.owners tp' = some e := howner'
            by_cases heq : tp' = tp
            · subst heq
              simp only [Membership.deliver, Membership.setPaused, Membership.seek,
                Function.update_self] at ho
              by_cases hlast : o = c.member.position tp'
              · exact .inr ⟨c.nextWork, _, _, Function.update_self .., Function.update_self ..,
                  hlast.symm⟩
              · exact .inl (hcovered o (by omega))
            · simp only [Membership.deliver, Membership.setPaused, Membership.seek,
                Function.update_of_ne heq] at ho
              rcases h.behind hopen howner'' ho with hacked | ⟨thread, d, phase, hp, hwork, hoff⟩
              · exact .inl hacked
              · have hold : thread ≠ c.nextWork := by
                  have : thread < c.nextWork := h.thread_lt (by simp [hwork])
                  omega
                refine .inr ⟨thread, d, phase, ?_, ?_, hoff⟩
                · simpa only [Function.update_of_ne heq] using hp
                · simpa only [Function.update_of_ne hold] using hwork
      · exact ⟨stop_harmless, close_sound h rfl rfl⟩

private theorem work_sound (h : c.Sound w) (hv : v.Sound w) (thread : Nat) (e : WorkEvent) :
    (∀ x ∈ (c.step v (.work thread e)).2, x.Sound w c.member) ∧
      (c.step v (.work thread e)).1.Sound (w.after (c.step v (.work thread e)).2) := by
  simp only [step]
  split
  · exact ⟨by simp, h⟩
  · rename_i d phase hwork
    obtain ⟨hd, hphase⟩ := h.record hwork
    obtain ⟨heff, hnew⟩ := dispatchWork_sound true (v.owned c.member d) hv hd
      hphase e
    have hext := w.extends_after (dispatch v (v.owned c.member d) d phase e).2
    refine ⟨heff, h.member, ?_, ?_, ?_, ?_⟩
    · intro t ht
      by_cases heq : t = thread
      · exact h.thread_lt (heq ▸ by simp [hwork])
      · simp only [Function.update_of_ne heq] at ht
        exact h.thread_lt ht
    · intro t d' phase' ht
      by_cases heq : t = thread
      · subst heq
        simp only [Function.update_self, Option.some.injEq, Prod.mk.injEq] at ht
        obtain ⟨rfl, rfl⟩ := ht
        exact ⟨hd.later (.refl _) hext, hnew⟩
      · simp only [Function.update_of_ne heq] at ht
        exact ⟨(h.record ht).1.later (.refl _) hext, (h.record ht).2.later hext⟩
    · intro tp t hp
      obtain ⟨d', phase', ht, hd', howner⟩ := h.pending hp
      by_cases heq : t = thread
      · subst heq
        rw [hwork] at ht
        cases ht
        exact ⟨_, _, Function.update_self .., hd', howner⟩
      · exact ⟨d', phase', by simpa only [Function.update_of_ne heq] using ht, hd', howner⟩
    · intro hopen tp e' o howner ho
      rcases h.behind hopen howner ho with hacked | ⟨t, d', phase', hp, ht, hoff⟩
      · exact .inl (hext.acked hacked)
      · by_cases heq : t = thread
        · subst heq
          rw [hwork] at ht
          cases ht
          exact .inr ⟨_, _, _, hp, Function.update_self .., hoff⟩
        · exact .inr ⟨t, d', phase', hp, by simpa only [Function.update_of_ne heq] using ht, hoff⟩

/-- A finished thread: its record is committed, or nothing is. -/
private theorem complete_sound (h : c.Sound w) (tp : TopicPartition) (outcome : CommitOutcome) :
    (∀ x ∈ (c.complete v tp outcome).2, x.Sound w c.member) ∧
      (c.complete v tp outcome).1.Sound w := by
  unfold complete
  split
  · exact ⟨by simp, h⟩
  · rename_i thread hp
    obtain ⟨d, phase, hwork, rfl, howner⟩ := h.pending hp
    obtain ⟨hd, hphase⟩ := h.record hwork
    simp only [hwork]
    split
    · exact ⟨by simp, h⟩
    · rename_i hdone
      split
      · -- a pending entry is always that of the current owner
        rename_i hgone
        simp only [Bool.or_eq_true, decide_eq_true_eq, ne_eq] at hgone
        rcases hgone with hended | hother
        · exact absurd hended (h.member.alive howner)
        · exact absurd howner hother
      · split
        · exact ⟨stop_harmless, close_sound h rfl rfl⟩
        · rename_i hnotfailed
          have hacked : w.Acked d.partition d.offset := by
            cases phase with
            | acknowledged => exact hphase
            | failed => exact (hnotfailed rfl).elim
            | _ => simp [isDone] at hdone
          have hcommit := commit_effects hd hacked howner outcome
          split
          · exact ⟨by simp, close_sound h rfl rfl⟩
          · split
            · refine ⟨hcommit, Membership.setPaused_sound h.member _ _, h.thread_lt, ?_, ?_, ?_⟩
              · intro t d' phase' ht
                obtain ⟨hd', hphase'⟩ := h.record ht
                exact ⟨hd'.later (Membership.setPaused_later _ _ _) (.refl w), hphase'⟩
              · intro tp' t hp'
                by_cases heq : tp' = d.partition
                · subst heq
                  simp at hp'
                · simp only [Function.update_of_ne heq] at hp'
                  exact h.pending hp'
              · intro hopen tp' e o howner' ho
                rcases h.behind hopen howner' ho with hold | ⟨t, d', phase', hp', ht, hoff⟩
                · exact .inl hold
                · by_cases heq : tp' = d.partition
                  · subst heq
                    rw [hp] at hp'
                    cases hp'
                    rw [hwork] at ht
                    cases ht
                    exact .inl (hoff ▸ hacked)
                  · exact .inr ⟨t, d', phase', by simpa only [Function.update_of_ne heq] using hp',
                      ht, hoff⟩
            · refine ⟨?_, close_sound h rfl rfl⟩
              intro x hx
              rcases List.mem_append.mp hx with hx | hx
              · exact hcommit x hx
              · exact stop_harmless x hx

/-- Every event of a Java consumer is harmless and keeps its invariant. -/
theorem step_sound (h : c.Sound w) (hv : v.Sound w) (e : JavaEvent) :
    (∀ x ∈ (c.step v e).2, x.Sound w c.member) ∧ (c.step v e).1.Sound (w.after (c.step v e).2) := by
  cases e with
  | assigned tp =>
    simp only [step]
    split
    · exact ⟨by simp, h⟩
    · split
      · exact ⟨by simp, setPaused_sound (assigned_sound h hv tp) tp true⟩
      · exact ⟨by simp, assigned_sound h hv tp⟩
  | revoked tp => exact ⟨by simp [step], revoked_sound h tp⟩
  | polled tp =>
    obtain ⟨heff, hsound⟩ := polled_sound h hv tp
    exact ⟨heff, hsound.mono (w.extends_after _)⟩
  | work thread e => exact work_sound h hv thread e
  | completed tp outcome =>
    simp only [step]
    split
    · exact ⟨by simp, h⟩
    · obtain ⟨heff, hsound⟩ := complete_sound (v := v) h tp outcome
      exact ⟨heff, hsound.mono (w.extends_after _)⟩
  | exit error =>
    simp only [step]
    split
    · exact ⟨by simp, h⟩
    · split
      · exact ⟨stop_harmless, close_sound h rfl rfl⟩
      · split
        · exact ⟨by simp, close_sound h rfl rfl⟩
        · exact ⟨by simp, h⟩

end JavaConsumer

/-! ## Node -/

def NodeTask.Sound (w : Ledger) : NodeTask → Prop
  | .dispatching d phase => phase.Sound d w
  | .committing d => w.Acked d.partition d.offset

/-- The client rewinds to the record of an open task, so there is no gap below
    the position of an owned partition. -/
structure NodeConsumer.Sound (c : NodeConsumer) (w : Ledger) : Prop where
  member : c.member.Sound
  record : ∀ {task : Nat} {t : NodeTask}, c.tasks task = some t →
    t.record.Sound c.member w ∧ t.Sound w
  behind : ∀ {tp : TopicPartition} {e : Nat}, c.member.owners tp = some e →
    w.Covered tp (c.member.position tp)

theorem NodeTask.Sound.mono {t : NodeTask} (h : t.Sound w) (hw : w.Extends w') : t.Sound w' := by
  cases t with
  | dispatching d phase => exact WorkPhase.Sound.later h hw
  | committing d => exact hw.acked h

namespace NodeConsumer

variable {c : NodeConsumer}

theorem sound_empty (w : Ledger) : NodeConsumer.Sound {} w where
  member := membership_sound_empty
  record := fun h => by cases h
  behind := fun h => by cases h

theorem Sound.mono (h : c.Sound w) (hw : w.Extends w') : c.Sound w' where
  member := h.member
  record := fun ht => ⟨(h.record ht).1.later (.refl _) hw, (h.record ht).2.mono hw⟩
  behind := fun howner => hw.covered (h.behind howner)

/-- Another membership that stands no further back. -/
private theorem Sound.member_later (h : c.Sound w) {m : Membership} (hm : m.Sound)
    (hlater : c.member.Later m)
    (hbehind : ∀ {tp : TopicPartition} {e : Nat}, m.owners tp = some e →
      w.Covered tp (m.position tp)) :
    ({ c with member := m } : NodeConsumer).Sound w where
  member := hm
  record := fun ht => ⟨(h.record ht).1.later hlater (.refl w), (h.record ht).2⟩
  behind := hbehind

private theorem assigned_sound (h : c.Sound w) (hv : v.Sound w) (tp : TopicPartition) :
    ({ c with member := c.member.assigned tp (v.committed tp) } : NodeConsumer).Sound w := by
  cases ha : c.member.assignment tp with
  | some a =>
    rw [Membership.assigned_of_some ha]
    exact h
  | none =>
    refine h.member_later (Membership.assigned_sound h.member tp _)
      (Membership.assigned_later h.member tp _) ?_
    intro tp' e howner
    rw [Membership.assigned_eq h.member ha] at howner ⊢
    by_cases heq : tp' = tp
    · subst heq
      simp only [Function.update_self]
      exact hv.committed tp'
    · simp only [Function.update_of_ne heq] at howner ⊢
      exact h.behind howner

private theorem disown_sound (h : c.Sound w) (tp : TopicPartition) :
    ({ c with member := c.member.disown tp } : NodeConsumer).Sound w := by
  refine h.member_later (Membership.disown_sound h.member tp) (Membership.disown_later _ tp) ?_
  intro tp' e howner
  rw [Membership.disown_position]
  exact h.behind (Membership.disown_kept howner).2

private theorem finish_sound (h : c.Sound w) (task : Nat) (d : PolledRecord) :
    (c.finish task d).Sound w where
  member := h.member
  record := by
    intro task' t ht
    by_cases heq : task' = task
    · subst heq
      simp [finish] at ht
    · simp only [finish, Function.update_of_ne heq] at ht
      exact h.record ht
  behind := h.behind

private theorem eachBatch_sound (h : c.Sound w) (hv : v.Sound w) (tp : TopicPartition)
    (stale : Bool) :
    (c.step v (.eachBatch tp stale)).1.Sound w ∧ (c.step v (.eachBatch tp stale)).2 = [] := by
  simp only [step]
  split
  · rename_i a msg owner hnext howner
    obtain ⟨-, ha, hmsg⟩ := Membership.next_eq hnext
    rw [hv.log] at hmsg
    split
    · exact ⟨h, rfl⟩
    · split
      · exact ⟨h, rfl⟩
      · have hlater : ∀ d, c.member.Later ((c.member.setPaused tp true).deliver d) := fun d =>
          (Membership.setPaused_later _ tp true).trans (Membership.deliver_later _ d)
        refine ⟨⟨?_, ?_, h.behind⟩, rfl⟩
        · exact Membership.deliver_sound (Membership.setPaused_sound h.member tp true) _
        · intro task t ht
          by_cases heq : task = c.nextTask
          · subst heq
            simp only [Function.update_self, Option.some.injEq] at ht
            subst ht
            refine ⟨⟨hmsg, h.behind howner, h.member.owner_lt howner, fun _ => ha, ?_⟩, trivial⟩
            exact List.mem_cons_self ..
          · simp only [Function.update_of_ne heq] at ht
            exact ⟨(h.record ht).1.later (hlater _) (.refl w), (h.record ht).2⟩
  · exact ⟨h, rfl⟩

/-- A task goes on to something that is settled. -/
private theorem setTask_sound (h : c.Sound w) (task : Nat) {t : NodeTask}
    (hrecord : t.record.Sound c.member w) (ht : t.Sound w) (commits : TopicPartition → Bool) :
    ({ c with commits := commits, tasks := Function.update c.tasks task (some t) } :
      NodeConsumer).Sound w where
  member := h.member
  record := by
    intro task' t' ht'
    by_cases heq : task' = task
    · subst heq
      simp only [Function.update_self, Option.some.injEq] at ht'
      subst ht'
      exact ⟨hrecord, ht⟩
    · simp only [Function.update_of_ne heq] at ht'
      exact h.record ht'
  behind := h.behind

private theorem work_sound (h : c.Sound w) (hv : v.Sound w) (task : Nat) (e : WorkEvent) :
    (∀ x ∈ (c.step v (.work task e)).2, x.Sound w c.member) ∧
      (c.step v (.work task e)).1.Sound (w.after (c.step v (.work task e)).2) := by
  simp only [step]
  split
  · rename_i d phase ht
    obtain ⟨hd, hphase⟩ := h.record ht
    obtain ⟨heff, hnew⟩ := dispatchWork_sound true (v.owned c.member d) hv hd
      hphase e
    have hext := w.extends_after (dispatch v (v.owned c.member d) d phase e).2
    exact ⟨heff, setTask_sound (h.mono hext) task
      (t := .dispatching d (dispatch v (v.owned c.member d) d phase e).1)
      (hd.later (.refl _) hext) hnew c.commits⟩
  · exact ⟨by simp, h⟩

private theorem submit_sound (h : c.Sound w) (task : Nat) :
    (∀ x ∈ (c.step v (.submit task)).2, x.Sound w c.member) ∧
      (c.step v (.submit task)).1.Sound w := by
  simp only [step]
  split
  · rename_i d ht
    exact ⟨by simp, finish_sound h task d⟩
  · rename_i d ht
    obtain ⟨hd, hacked⟩ := h.record ht
    split
    · exact ⟨by simp, finish_sound h task d⟩
    · split
      · exact ⟨by simp, finish_sound h task d⟩
      · rename_i howner
        rw [not_not] at howner
        refine ⟨?_, setTask_sound h task (t := .committing d) hd hacked _⟩
        intro x hx
        obtain rfl := List.mem_singleton.mp hx
        exact commit_safe hd hacked howner
  · exact ⟨by simp, h⟩

private theorem settled_sound (h : c.Sound w) (task : Nat) (outcome : CommitOutcome) :
    (∀ x ∈ (c.step v (.settled task outcome)).2, x.Sound w c.member) ∧
      (c.step v (.settled task outcome)).1.Sound w := by
  simp only [step]
  split
  · rename_i d ht
    obtain ⟨hd, hacked⟩ := h.record ht
    have hcovered : w.Covered d.partition (d.offset + 1) := hd.covered.succ hacked
    have heff : ∀ x ∈ (if outcome.stored then [Effect.stored d.partition (d.offset + 1)] else []),
        x.Sound w c.member := by
      intro x hx
      split at hx
      · obtain rfl := List.mem_singleton.mp hx
        exact hcovered
      · cases hx
    have hsettled : ({ c with commits := Function.update c.commits d.partition false } :
        NodeConsumer).Sound w := ⟨h.member, h.record, h.behind⟩
    split
    · refine ⟨heff, ?_⟩
      refine (finish_sound hsettled task d).member_later
        (Membership.setPaused_sound (Membership.seek_sound h.member _ _) _ _)
        ((Membership.seek_later _ _ _).trans (Membership.setPaused_later _ _ _)) ?_
      intro tp e howner
      by_cases heq : tp = d.partition
      · subst heq
        simp only [Membership.setPaused, Membership.seek, Function.update_self]
        exact hcovered
      · simp only [Membership.setPaused, Membership.seek, Function.update_of_ne heq]
        exact h.behind howner
    · exact ⟨heff, finish_sound hsettled task d⟩
  · exact ⟨by simp, h⟩

/-- Every event of a Node consumer is harmless and keeps its invariant. -/
theorem step_sound (h : c.Sound w) (hv : v.Sound w) (e : NodeEvent) :
    (∀ x ∈ (c.step v e).2, x.Sound w c.member) ∧ (c.step v e).1.Sound (w.after (c.step v e).2) := by
  cases e with
  | assigned tp => exact ⟨by simp [step], assigned_sound h hv tp⟩
  | revoked tp => exact ⟨by simp [step], disown_sound h tp⟩
  | handedOff tp =>
    simp only [step]
    split
    · rename_i hfree
      simp only [Bool.and_eq_true, Option.isNone_iff_eq_none] at hfree
      exact ⟨by simp, h.member_later (Membership.unassign_sound h.member hfree.1)
        (Membership.unassign_later hfree.1) h.behind⟩
    · exact ⟨by simp, h⟩
  | eachBatch tp stale =>
    obtain ⟨hsound, hnil⟩ := eachBatch_sound h hv tp stale
    rw [hnil]
    exact ⟨by simp, hsound⟩
  | work task e => exact work_sound h hv task e
  | submit task =>
    obtain ⟨heff, hsound⟩ := submit_sound (v := v) h task
    exact ⟨heff, hsound.mono (w.extends_after _)⟩
  | settled task outcome =>
    obtain ⟨heff, hsound⟩ := settled_sound (v := v) h task outcome
    exact ⟨heff, hsound.mono (w.extends_after _)⟩

end NodeConsumer

end Rochallor
