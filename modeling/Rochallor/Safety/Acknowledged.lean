import Rochallor.Kafka.Group

/-! # Acknowledged records

    A record may be passed over once the engine has confirmed its callback or
    a confirmed record carries the same dedup id.  Both only ever become true.
    Here is what a polled record, the dispatch of it and the owners of the
    partitions have to do with that, for all three runners alike.
-/

namespace Rochallor

/-- The records and the confirmed ones among them. -/
structure Ledger where
  log : PartitionLog
  confirmed : List (TopicPartition × Nat)

namespace Ledger

/-- The dedup id is that of a confirmed record. -/
def Answered (w : Ledger) (id : Nat) : Prop :=
  ∃ p ∈ w.confirmed, ∃ event : DispatchEvent,
    (w.log p.1)[p.2]? = some (some event) ∧ event.dedupID = some id

/-- The record is confirmed, or a duplicate of a confirmed one. -/
def Acked (w : Ledger) (tp : TopicPartition) (offset : Nat) : Prop :=
  (tp, offset) ∈ w.confirmed ∨
    ∃ (event : DispatchEvent) (id : Nat), (w.log tp)[offset]? = some (some event) ∧
      event.dedupID = some id ∧ w.Answered id

/-- Every record below the offset is acknowledged. -/
def Covered (w : Ledger) (tp : TopicPartition) (offset : Nat) : Prop :=
  ∀ o < offset, w.Acked tp o

/-- Records are only appended and only confirmed. -/
structure Extends (w w' : Ledger) : Prop where
  log : ∀ {tp : TopicPartition} {o : Nat} {m : Message}, (w.log tp)[o]? = some m →
    (w'.log tp)[o]? = some m
  confirmed : w.confirmed ⊆ w'.confirmed

/-- What an effect adds. -/
def effect (w : Ledger) : Effect → Ledger
  | .confirm tp offset => { w with confirmed := (tp, offset) :: w.confirmed }
  | _ => w

def after (w : Ledger) (effects : List Effect) : Ledger :=
  effects.foldl effect w

variable {w w' : Ledger} {tp : TopicPartition}

theorem Extends.refl (w : Ledger) : w.Extends w :=
  ⟨id, List.Subset.refl _⟩

theorem Extends.answered (h : w.Extends w') {id : Nat} (ha : w.Answered id) : w'.Answered id := by
  obtain ⟨p, hp, event, hlog, hid⟩ := ha
  exact ⟨p, h.confirmed hp, event, h.log hlog, hid⟩

theorem Extends.acked (h : w.Extends w') {o : Nat} (ha : w.Acked tp o) : w'.Acked tp o := by
  rcases ha with hconf | ⟨event, id, hlog, hid, ha⟩
  · exact .inl (h.confirmed hconf)
  · exact .inr ⟨event, id, h.log hlog, hid, h.answered ha⟩

theorem Extends.covered (h : w.Extends w') {n : Nat} (hc : w.Covered tp n) : w'.Covered tp n :=
  fun o ho => h.acked (hc o ho)

theorem extends_effect (w : Ledger) (x : Effect) : w.Extends (w.effect x) := by
  cases x with
  | confirm tp offset => exact ⟨id, List.subset_cons_self ..⟩
  | _ => exact .refl w

theorem extends_after (w : Ledger) (effects : List Effect) : w.Extends (w.after effects) := by
  induction effects generalizing w with
  | nil => exact .refl w
  | cons x rest ih =>
    have hx := w.extends_effect x
    have hrest := ih (w.effect x)
    exact ⟨fun h => hrest.log (hx.log h), fun p hp => hrest.confirmed (hx.confirmed hp)⟩

/-- One record more. -/
theorem Covered.succ {n : Nat} (hc : w.Covered tp n) (ha : w.Acked tp n) :
    w.Covered tp (n + 1) := by
  intro o ho
  by_cases h : o = n
  · subst h
    exact ha
  · exact hc o (by omega)

end Ledger

/-! ## Owners -/

/-- What the owners of a consumer say about its assignments. -/
structure Membership.Sound (m : Membership) : Prop where
  owner_lt : ∀ {tp : TopicPartition} {e : Nat}, m.owners tp = some e → e < m.nextOwner
  ended_lt : ∀ e ∈ m.ended, e < m.nextOwner
  alive : ∀ {tp : TopicPartition} {e : Nat}, m.owners tp = some e → e ∉ m.ended
  apart : ∀ {tp tp' : TopicPartition} {e : Nat}, m.owners tp = some e → m.owners tp' = some e →
    tp = tp'
  assigned : ∀ {tp : TopicPartition} {e : Nat}, m.owners tp = some e → m.assignment tp ≠ none

/-- A polled record: where it stands in the log, that everything before it is
    acknowledged, and which assignment its owner stands for. -/
structure PolledRecord.Sound (d : PolledRecord) (m : Membership) (w : Ledger) : Prop where
  reads : (w.log d.partition)[d.offset]? = some d.message
  covered : w.Covered d.partition d.offset
  owner_lt : d.owner < m.nextOwner
  current : m.owners d.partition = some d.owner → m.assignment d.partition = some d.assignment
  delivered : d ∈ m.delivered

/-- What has been settled in a phase of a dispatch. -/
def WorkPhase.Sound (d : PolledRecord) (w : Ledger) : WorkPhase → Prop
  | .answered | .checked => (d.partition, d.offset) ∈ w.confirmed
  | .acknowledged => w.Acked d.partition d.offset
  | _ => True

/-- The commit of a record is in order: the record and all before it are
    acknowledged, and its assignment is the current one. -/
structure CommitSafe (w : Ledger) (m : Membership) (tp : TopicPartition) (offset : Nat) : Prop where
  acked : w.Acked tp offset
  covered : w.Covered tp offset
  current : ∃ d ∈ m.delivered, d.partition = tp ∧ d.offset = offset ∧
    m.assignment tp = some d.assignment

/-- An effect does no harm. -/
def Effect.Sound (w : Ledger) (m : Membership) : Effect → Prop
  | .mark id => w.Answered id
  | .commit tp offset => CommitSafe w m tp offset
  | .stored tp offset => w.Covered tp offset
  | _ => True

/-- The surroundings a consumer sees are those of the ledger. -/
structure View.Sound (v : View) (w : Ledger) : Prop where
  log : v.log = w.log
  dedup : ∀ id ∈ v.dedup, w.Answered id
  committed : ∀ tp, w.Covered tp (v.committed tp)

theorem membership_sound_empty : Membership.Sound {} where
  owner_lt := fun h => by cases h
  ended_lt := fun _ h => by cases h
  alive := fun h => by cases h
  apart := fun h => by cases h
  assigned := fun h => by cases h

namespace Membership

variable {m m' : Membership} {tp : TopicPartition}

/-- Old owners still stand for what they stood for, and new owners are new. -/
structure Later (m m' : Membership) : Prop where
  nextOwner : m.nextOwner ≤ m'.nextOwner
  delivered : m.delivered ⊆ m'.delivered
  kept : ∀ {tp : TopicPartition} {e : Nat}, e < m.nextOwner → m'.owners tp = some e →
    m.owners tp = some e ∧ m'.assignment tp = m.assignment tp

theorem Later.refl (m : Membership) : m.Later m :=
  ⟨Nat.le_refl _, List.Subset.refl _, fun _ h => ⟨h, rfl⟩⟩

theorem Later.trans {m'' : Membership} (h : m.Later m') (h' : m'.Later m'') : m.Later m'' := by
  refine ⟨Nat.le_trans h.nextOwner h'.nextOwner, List.Subset.trans h.delivered h'.delivered, ?_⟩
  intro tp e he howner
  obtain ⟨hmid, hassign⟩ := h'.kept (Nat.lt_of_lt_of_le he h.nextOwner) howner
  obtain ⟨hold, hassign'⟩ := h.kept he hmid
  exact ⟨hold, hassign.trans hassign'⟩

/-- A partition that is not assigned gets a fresh owner with its assignment. -/
theorem assigned_eq (h : m.Sound) (hnone : m.assignment tp = none) (n : Nat) :
    m.assigned tp n = { m with
      assignment := Function.update m.assignment tp (some m.assignments)
      assignments := m.assignments + 1
      position := Function.update m.position tp n
      paused := Function.update m.paused tp false
      owners := Function.update m.owners tp (some m.nextOwner)
      nextOwner := m.nextOwner + 1 } := by
  have howner : m.owners tp = none := by
    cases ho : m.owners tp with
    | none => rfl
    | some e => exact absurd hnone (h.assigned ho)
  simp [assigned, hnone, howner]

theorem assigned_of_some {a : Nat} (ha : m.assignment tp = some a) (n : Nat) :
    m.assigned tp n = m := by
  simp [assigned, ha]

theorem assigned_sound (h : m.Sound) (tp : TopicPartition) (n : Nat) : (m.assigned tp n).Sound := by
  cases ha : m.assignment tp with
  | some a =>
    rw [assigned_of_some ha]
    exact h
  | none =>
    rw [assigned_eq h ha]
    -- the new owner is not an old one
    have hfresh : ∀ {tp' : TopicPartition}, m.owners tp' ≠ some m.nextOwner := fun he =>
      absurd (h.owner_lt he) (Nat.lt_irrefl _)
    refine ⟨?_, ?_, ?_, ?_, ?_⟩
    · intro tp' e he
      show e < m.nextOwner + 1
      by_cases heq : tp' = tp
      · subst heq
        simp only [Function.update_self, Option.some.injEq] at he
        omega
      · simp only [Function.update_of_ne heq] at he
        exact Nat.lt_succ_of_lt (h.owner_lt he)
    · exact fun e he => Nat.lt_succ_of_lt (h.ended_lt e he)
    · intro tp' e he hended
      by_cases heq : tp' = tp
      · subst heq
        simp only [Function.update_self, Option.some.injEq] at he
        have := h.ended_lt e hended
        omega
      · simp only [Function.update_of_ne heq] at he
        exact h.alive he hended
    · intro tp₁ tp₂ e h₁ h₂
      simp only [Function.update_apply] at h₁ h₂
      split at h₁ <;> split at h₂
      · simp [*]
      · cases h₁
        exact absurd h₂ hfresh
      · cases h₂
        exact absurd h₁ hfresh
      · exact h.apart h₁ h₂
    · intro tp' e he
      by_cases heq : tp' = tp
      · subst heq
        simp
      · simp only [Function.update_of_ne heq] at he ⊢
        exact h.assigned he

theorem assigned_later (h : m.Sound) (tp : TopicPartition) (n : Nat) :
    m.Later (m.assigned tp n) := by
  cases ha : m.assignment tp with
  | some a =>
    rw [assigned_of_some ha]
    exact .refl m
  | none =>
    rw [assigned_eq h ha]
    refine ⟨Nat.le_succ _, List.Subset.refl _, ?_⟩
    intro tp' e hlt he
    by_cases heq : tp' = tp
    · subst heq
      simp only [Function.update_self, Option.some.injEq] at he
      omega
    · simp only [Function.update_of_ne heq] at he ⊢
      exact ⟨he, trivial⟩

@[simp] theorem disown_owners (m : Membership) (tp : TopicPartition) :
    (m.disown tp).owners = Function.update m.owners tp none := by
  cases ho : m.owners tp with
  | none =>
    have hself := Function.update_eq_self tp m.owners
    rw [ho] at hself
    simp [disown, ho, hself]
  | some e => simp [disown, ho]

@[simp] theorem disown_assignment (m : Membership) (tp : TopicPartition) :
    (m.disown tp).assignment = m.assignment := by
  unfold disown
  split <;> rfl

@[simp] theorem disown_position (m : Membership) (tp : TopicPartition) :
    (m.disown tp).position = m.position := by
  unfold disown
  split <;> rfl

@[simp] theorem disown_paused (m : Membership) (tp : TopicPartition) :
    (m.disown tp).paused = m.paused := by
  unfold disown
  split <;> rfl

@[simp] theorem disown_delivered (m : Membership) (tp : TopicPartition) :
    (m.disown tp).delivered = m.delivered := by
  unfold disown
  split <;> rfl

@[simp] theorem disown_nextOwner (m : Membership) (tp : TopicPartition) :
    (m.disown tp).nextOwner = m.nextOwner := by
  unfold disown
  split <;> rfl

/-- An owner that remains is an old one, of another partition. -/
theorem disown_kept {e : Nat} {tp' : TopicPartition} (he : (m.disown tp).owners tp' = some e) :
    tp' ≠ tp ∧ m.owners tp' = some e := by
  rw [disown_owners] at he
  by_cases heq : tp' = tp
  · subst heq
    simp at he
  · rw [Function.update_of_ne heq] at he
    exact ⟨heq, he⟩

theorem disown_sound (h : m.Sound) (tp : TopicPartition) : (m.disown tp).Sound := by
  refine ⟨?_, ?_, ?_, ?_, ?_⟩
  · intro tp' e he
    rw [disown_nextOwner]
    exact h.owner_lt (disown_kept he).2
  · intro e he
    rw [disown_nextOwner]
    unfold disown at he
    split at he
    · exact h.ended_lt e he
    · rename_i owner ho
      rcases List.mem_cons.mp he with rfl | he
      · exact h.owner_lt ho
      · exact h.ended_lt e he
  · intro tp' e he hended
    obtain ⟨hne, hold⟩ := disown_kept he
    unfold disown at hended
    split at hended
    · exact h.alive hold hended
    · rename_i owner ho
      rcases List.mem_cons.mp hended with rfl | hended
      · exact hne (h.apart hold ho)
      · exact h.alive hold hended
  · intro tp₁ tp₂ e h₁ h₂
    exact h.apart (disown_kept h₁).2 (disown_kept h₂).2
  · intro tp' e he
    rw [disown_assignment]
    exact h.assigned (disown_kept he).2

theorem disown_later (m : Membership) (tp : TopicPartition) : m.Later (m.disown tp) := by
  refine ⟨by simp, by simp, ?_⟩
  intro tp' e _ he
  exact ⟨(disown_kept he).2, by simp⟩

/-- Without an owner a partition can be given up. -/
theorem unassign_sound (h : m.Sound) (hnone : m.owners tp = none) : (m.unassign tp).Sound := by
  refine ⟨h.owner_lt, h.ended_lt, h.alive, h.apart, ?_⟩
  intro tp' e he
  have hne : tp' ≠ tp := by
    rintro rfl
    have he' : m.owners tp' = some e := he
    rw [hnone] at he'
    cases he'
  simp only [unassign, Function.update_of_ne hne]
  exact h.assigned he

theorem unassign_later (hnone : m.owners tp = none) : m.Later (m.unassign tp) := by
  refine ⟨Nat.le_refl _, List.Subset.refl _, ?_⟩
  intro tp' e _ he
  have hne : tp' ≠ tp := by
    rintro rfl
    have he' : m.owners tp' = some e := he
    rw [hnone] at he'
    cases he'
  exact ⟨he, by simp [unassign, Function.update_of_ne hne]⟩

theorem revoked_sound (h : m.Sound) (tp : TopicPartition) : (m.revoked tp).Sound :=
  unassign_sound (disown_sound h tp) (by simp)

theorem revoked_later (m : Membership) (tp : TopicPartition) : m.Later (m.revoked tp) :=
  (disown_later m tp).trans (unassign_later (by simp))

theorem seek_sound (h : m.Sound) (tp : TopicPartition) (n : Nat) : (m.seek tp n).Sound :=
  ⟨h.owner_lt, h.ended_lt, h.alive, h.apart, h.assigned⟩

theorem seek_later (m : Membership) (tp : TopicPartition) (n : Nat) : m.Later (m.seek tp n) :=
  ⟨Nat.le_refl _, List.Subset.refl _, fun _ he => ⟨he, rfl⟩⟩

theorem setPaused_sound (h : m.Sound) (tp : TopicPartition) (b : Bool) :
    (m.setPaused tp b).Sound :=
  ⟨h.owner_lt, h.ended_lt, h.alive, h.apart, h.assigned⟩

theorem setPaused_later (m : Membership) (tp : TopicPartition) (b : Bool) :
    m.Later (m.setPaused tp b) :=
  ⟨Nat.le_refl _, List.Subset.refl _, fun _ he => ⟨he, rfl⟩⟩

theorem deliver_sound (h : m.Sound) (d : PolledRecord) : (m.deliver d).Sound :=
  ⟨h.owner_lt, h.ended_lt, h.alive, h.apart, h.assigned⟩

theorem deliver_later (m : Membership) (d : PolledRecord) : m.Later (m.deliver d) :=
  ⟨Nat.le_refl _, List.subset_cons_self .., fun _ he => ⟨he, rfl⟩⟩

theorem next_eq {log : PartitionLog} {a : Nat} {msg : Message}
    (h : m.next log tp = some (a, msg)) :
    m.paused tp = false ∧ m.assignment tp = some a ∧ (log tp)[m.position tp]? = some msg := by
  unfold next at h
  split at h
  · cases h
  · rename_i hp
    split at h
    · rename_i ha hm
      cases h
      exact ⟨by simpa using hp, ha, hm⟩
    · cases h

end Membership

/-! ## Records and their dispatch -/

section Record

variable {m m' : Membership} {w w' : Ledger} {d : PolledRecord}

theorem PolledRecord.Sound.later (h : d.Sound m w) (hm : m.Later m') (hw : w.Extends w') :
    d.Sound m' w' where
  reads := hw.log h.reads
  covered := hw.covered h.covered
  owner_lt := Nat.lt_of_lt_of_le h.owner_lt hm.nextOwner
  current := by
    intro howner
    obtain ⟨hold, hassign⟩ := hm.kept h.owner_lt howner
    rw [hassign]
    exact h.current hold
  delivered := hm.delivered h.delivered

theorem WorkPhase.Sound.later {phase : WorkPhase} (h : phase.Sound d w) (hw : w.Extends w') :
    phase.Sound d w' := by
  cases phase with
  | answered => exact hw.confirmed h
  | checked => exact hw.confirmed h
  | acknowledged => exact hw.acked h
  | _ => trivial

/-- A commit under the ownership of the record is in order. -/
theorem commit_safe (h : d.Sound m w) (hacked : w.Acked d.partition d.offset)
    (howner : m.owners d.partition = some d.owner) : CommitSafe w m d.partition d.offset :=
  ⟨hacked, h.covered, d, h.delivered, rfl, rfl, h.current howner⟩

theorem commit_effects (h : d.Sound m w) (hacked : w.Acked d.partition d.offset)
    (howner : m.owners d.partition = some d.owner) (outcome : CommitOutcome) :
    ∀ x ∈ outcome.effects d, x.Sound w m := by
  have hcommit := commit_safe h hacked howner
  unfold CommitOutcome.effects
  intro x hx
  split at hx
  · rcases List.mem_cons.mp hx with rfl | hx
    · exact hcommit
    · obtain rfl := List.mem_singleton.mp hx
      exact h.covered.succ hacked
  · obtain rfl := List.mem_singleton.mp hx
    exact hcommit

/-- One step of a dispatch settles what its new phase says, and marks the ids
    of confirmed records only. -/
theorem dispatchWork_sound (recheck owned : Bool) {v : View} (hv : v.Sound w)
    (h : d.Sound m w) {phase : WorkPhase} (hphase : phase.Sound d w) (e : WorkEvent) :
    (∀ x ∈ (dispatchWork recheck v owned d phase e).2, x.Sound w m) ∧
      (dispatchWork recheck v owned d phase e).1.Sound d
        (w.after (dispatchWork recheck v owned d phase e).2) := by
  unfold dispatchWork
  split
  · split
    · exact ⟨by simp, trivial⟩
    · split
      · exact ⟨by simp, trivial⟩
      · rename_i event hmsg
        split
        · exact ⟨by simp, trivial⟩
        · split
          · rename_i hseen
            -- a duplicate of a confirmed record
            cases hid : event.dedupID with
            | none =>
              rw [hid] at hseen
              cases hseen
            | some id =>
              rw [hid] at hseen
              have hmem : id ∈ v.dedup := of_decide_eq_true hseen
              exact ⟨by simp, .inr ⟨event, id, hmsg ▸ h.reads, hid, hv.dedup id hmem⟩⟩
          · exact ⟨by simp, trivial⟩
  · exact ⟨by simp, trivial⟩
  · split
    · exact ⟨by simp, trivial⟩
    · split
      · refine ⟨by simp [Effect.Sound], ?_⟩
        exact List.mem_cons_self ..
      · exact ⟨by simp, trivial⟩
      · exact ⟨by simp, trivial⟩
  · split
    · exact ⟨by simp, trivial⟩
    · exact ⟨by simp, hphase⟩
  · have hconf : (d.partition, d.offset) ∈ w.confirmed := hphase
    cases hmsg : d.message with
    | none => exact ⟨by simp, .inl hconf⟩
    | some event =>
      cases hid : event.dedupID with
      | none =>
        simp only [Option.bind_some, hid]
        exact ⟨by simp, .inl hconf⟩
      | some id =>
        simp only [Option.bind_some, hid]
        refine ⟨?_, .inl hconf⟩
        intro x hx
        obtain rfl := List.mem_singleton.mp hx
        exact ⟨_, hconf, event, hmsg ▸ h.reads, hid⟩
  · exact ⟨by simp, hphase⟩

end Record

end Rochallor
