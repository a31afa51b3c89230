import Mathlib.Logic.Relation
import Mathlib.Order.Defs.PartialOrder

/-! # A queue of leased tasks

    Tasks are numbered.  A task that has been put into the queue is offered in
    one attempt at a time until it leaves the queue for good.  An attempt waits
    until it is leased to an owner, who may renew the lease while it holds.  It
    ends when the task leaves the queue or when a new attempt takes its place:
    the task has been handed back, somebody has replaced the attempt, or its
    lease has run out.

    Attempts are numbered too, and no number is used twice.  So an owner who
    still holds an attempt has held it all the time: nobody else has been given
    the task in between.
-/

universe u v

namespace WorkQueue

variable {ω : Type u} {τ : Type v}

/-- An attempt at a task. -/
structure Attempt (ω : Type u) (τ : Type v) where
  id : Nat
  /-- How often the task can still be handed back. -/
  retries : Int
  /-- Who works on it, and until when. -/
  lease : Option (ω × τ)

/-- A report on the attempt counts: it is the owner's under a lease that holds,
    or nobody has leased the attempt. -/
def Attempt.Accepts [LT τ] (a : Attempt ω τ) (owner : ω) (now : τ) : Prop :=
  ∀ {owner' expiry}, a.lease = some (owner', expiry) → owner' = owner ∧ now < expiry

/-- A task that has been put into the queue. -/
inductive Task (ω : Type u) (τ : Type v) where
  | offered (a : Attempt ω τ)
  | closed

/-- What is done to a queue. -/
inductive Action (ω : Type u) (τ : Type v) where
  /-- Leases waiting attempts. -/
  | lease (owner : ω) (expiry : τ)
  | renew (id : Nat) (owner : ω) (now : τ)
  | handBack (id : Nat) (owner : ω) (now : τ)
  /-- Replaces an attempt whose lease has run out. -/
  | recover (id : Nat) (now : τ)
  /-- Replaces a leased attempt whatever its lease. -/
  | replace (id : Nat)
  /-- Puts tasks into the queue or takes them out. -/
  | other

/-- A queue: its tasks and the first number that no attempt has had. -/
structure Queue (ω : Type u) (τ : Type v) where
  task : Nat → Option (Task ω τ)
  fresh : Nat
  used : ∀ {n a}, task n = some (.offered a) → a.id < fresh
  distinct : ∀ {n m a b}, task n = some (.offered a) → task m = some (.offered b) →
    a.id = b.id → n = m

variable [Preorder τ]

/-- What an action makes of one task. -/
inductive Turn (act : Action ω τ) (fresh : Nat) :
    Option (Task ω τ) → Option (Task ω τ) → Prop
  | same (t : Option (Task ω τ)) : Turn act fresh t t
  | put (a : Attempt ω τ) (hid : fresh ≤ a.id) (hwaits : a.lease = none) :
      Turn act fresh none (some (.offered a))
  | left (t : Task ω τ) : Turn act fresh (some t) (some .closed)
  | leased (a : Attempt ω τ) (owner : ω) (expiry : τ) (hwaits : a.lease = none)
      (hact : act = .lease owner expiry) :
      Turn act fresh (some (.offered a)) (some (.offered { a with lease := some (owner, expiry) }))
  | renewed (a : Attempt ω τ) (owner : ω) (expiry expiry' now : τ)
      (hlease : a.lease = some (owner, expiry)) (hholds : now < expiry) (hlonger : expiry ≤ expiry')
      (hact : act = .renew a.id owner now) :
      Turn act fresh (some (.offered a)) (some (.offered { a with lease := some (owner, expiry') }))
  | handedBack (a b : Attempt ω τ) (owner : ω) (now : τ)
      (haccepts : a.Accepts owner now) (hretries : 0 < a.retries)
      (hact : act = .handBack a.id owner now) (hid : fresh ≤ b.id) (hwaits : b.lease = none)
      (hspent : b.retries = a.retries - 1) :
      Turn act fresh (some (.offered a)) (some (.offered b))
  | recovered (a b : Attempt ω τ) (owner : ω) (expiry now : τ)
      (hlease : a.lease = some (owner, expiry)) (hlost : ¬ now < expiry)
      (hact : act = .recover a.id now) (hid : fresh ≤ b.id) (hwaits : b.lease = none)
      (hkept : b.retries = a.retries) :
      Turn act fresh (some (.offered a)) (some (.offered b))
  | replaced (a b : Attempt ω τ) (owner : ω) (expiry : τ)
      (hlease : a.lease = some (owner, expiry)) (hact : act = .replace a.id)
      (hid : fresh ≤ b.id) (hwaits : b.lease = none) (hkept : b.retries = a.retries) :
      Turn act fresh (some (.offered a)) (some (.offered b))

/-- One action on the whole queue. -/
structure Move (act : Action ω τ) (q q' : Queue ω τ) : Prop where
  fresh : q.fresh ≤ q'.fresh
  turn : ∀ n, Turn act q.fresh (q.task n) (q'.task n)

/-- Any number of actions. -/
def Reaches : Queue ω τ → Queue ω τ → Prop :=
  Relation.ReflTransGen fun q q' => ∃ act, Move act q q'

/-! ## Attempts that go on -/

/-- The same attempt later: a lease stays with its owner. -/
structure Attempt.Continues (a b : Attempt ω τ) : Prop where
  id : b.id = a.id
  retries : b.retries = a.retries
  lease : ∀ {owner expiry}, a.lease = some (owner, expiry) →
    ∃ expiry', b.lease = some (owner, expiry') ∧ expiry ≤ expiry'

theorem Attempt.Continues.refl (a : Attempt ω τ) : a.Continues a :=
  ⟨rfl, rfl, fun {_ expiry} h => ⟨expiry, h, le_refl expiry⟩⟩

theorem Attempt.Continues.trans {a b c : Attempt ω τ} (hab : a.Continues b)
    (hbc : b.Continues c) : a.Continues c := by
  refine ⟨hbc.id.trans hab.id, hbc.retries.trans hab.retries, ?_⟩
  intro owner expiry hlease
  obtain ⟨expiry₁, hlease₁, hle₁⟩ := hab.lease hlease
  obtain ⟨expiry₂, hlease₂, hle₂⟩ := hbc.lease hlease₁
  exact ⟨expiry₂, hlease₂, le_trans hle₁ hle₂⟩

/-- An attempt with an old number has been there before, for the same task. -/
theorem Turn.back {act : Action ω τ} {fresh : Nat} {t : Option (Task ω τ)} {b : Attempt ω τ}
    (h : Turn act fresh t (some (.offered b))) (hold : b.id < fresh) :
    ∃ a, t = some (.offered a) ∧ a.Continues b := by
  cases h with
  | same => exact ⟨b, rfl, .refl b⟩
  | put _ hid => omega
  | leased a owner expiry hwaits =>
    refine ⟨a, rfl, rfl, rfl, fun hlease => ?_⟩
    rw [hwaits] at hlease
    cases hlease
  | renewed a owner expiry expiry' now hlease hholds hlonger =>
    refine ⟨a, rfl, rfl, rfl, fun hlease' => ?_⟩
    rw [hlease] at hlease'
    cases hlease'
    exact ⟨expiry', rfl, hlonger⟩
  | handedBack _ _ _ _ _ _ _ hid => omega
  | recovered _ _ _ _ _ _ _ _ hid => omega
  | replaced _ _ _ _ _ _ hid => omega

theorem Reaches.fresh {q q' : Queue ω τ} (h : Reaches q q') : q.fresh ≤ q'.fresh := by
  induction h with
  | refl => exact Nat.le_refl _
  | tail _ hmove ih =>
    obtain ⟨_, hmove⟩ := hmove
    exact Nat.le_trans ih hmove.fresh

theorem Reaches.back {q q' : Queue ω τ} (h : Reaches q q') {n : Nat} {b : Attempt ω τ}
    (hb : q'.task n = some (.offered b)) (hold : b.id < q.fresh) :
    ∃ a, q.task n = some (.offered a) ∧ a.Continues b := by
  induction h generalizing b with
  | refl => exact ⟨b, hb, .refl b⟩
  | @tail q₁ q₂ hreach hmove ih =>
    obtain ⟨_, hmove⟩ := hmove
    have hturn := hmove.turn n
    rw [hb] at hturn
    obtain ⟨c, hc, hcb⟩ := hturn.back (Nat.lt_of_lt_of_le hold (Reaches.fresh hreach))
    obtain ⟨a, ha, hac⟩ := ih hc (hcb.id ▸ hold)
    exact ⟨a, ha, hac.trans hcb⟩

/-- An old attempt on offer has been on offer all the time, for the same task
    and with the same owner. -/
theorem Reaches.unbroken {q₁ q₂ q₃ : Queue ω τ} (h₁₂ : Reaches q₁ q₂) (h₂₃ : Reaches q₂ q₃)
    {n : Nat} {b : Attempt ω τ} (hb : q₃.task n = some (.offered b)) (hold : b.id < q₁.fresh) :
    ∃ a c, q₁.task n = some (.offered a) ∧ q₂.task n = some (.offered c) ∧ a.Continues c ∧
      c.Continues b := by
  obtain ⟨c, hc, hcb⟩ := h₂₃.back hb (Nat.lt_of_lt_of_le hold h₁₂.fresh)
  obtain ⟨a, ha, hac⟩ := h₁₂.back hc (hcb.id ▸ hold)
  exact ⟨a, c, ha, hc, hac, hcb⟩

end WorkQueue
