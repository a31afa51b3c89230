import Rochallor.Framework.Run
import Rochallor.Safety.Consumers

/-! # Commits follow confirmations

    The three consumers keep their invariants whatever the others do, since
    what they rest on only grows.  So in any run of a group, every commit is in
    order, and no record below a committed offset is left behind.
-/

namespace Rochallor

/-- The invariant of a consumer, in its language. -/
def Consumer.Sound (w : Ledger) : Consumer → Prop
  | go c => c.Sound w
  | java c => c.Sound w
  | node c => c.Sound w

section Consumer

variable {w w' : Ledger} {v : View} {c : Consumer}

theorem Consumer.Sound.mono (h : c.Sound w) (hw : w.Extends w') : c.Sound w' := by
  cases c with
  | go c => exact GoConsumer.Sound.mono h hw
  | java c => exact JavaConsumer.Sound.mono h hw
  | node c => exact NodeConsumer.Sound.mono h hw

theorem Consumer.restarted_sound (c : Consumer) (w : Ledger) : c.restarted.Sound w := by
  cases c with
  | go c => exact GoConsumer.sound_empty w
  | java c => exact JavaConsumer.sound_empty w
  | node c => exact NodeConsumer.sound_empty w

theorem Consumer.step_sound (h : c.Sound w) (hv : v.Sound w) (e : ConsumerEvent) :
    (∀ x ∈ (c.step v e).2, x.Sound w c.member) ∧ (c.step v e).1.Sound (w.after (c.step v e).2) := by
  cases c with
  | go c =>
    cases e with
    | go e => exact GoConsumer.step_sound h hv e
    | _ => exact ⟨by simp [step], h⟩
  | java c =>
    cases e with
    | java e => exact JavaConsumer.step_sound h hv e
    | _ => exact ⟨by simp [step], h⟩
  | node c =>
    cases e with
    | node e => exact NodeConsumer.step_sound h hv e
    | _ => exact ⟨by simp [step], h⟩

theorem Effect.Sound.mono {x : Effect} {m : Membership} (h : x.Sound w m) (hw : w.Extends w') :
    x.Sound w' m := by
  cases x with
  | mark id => exact hw.answered h
  | commit tp offset => exact ⟨hw.acked h.acked, hw.covered h.covered, h.current⟩
  | stored tp offset => exact hw.covered h
  | _ => trivial

end Consumer

namespace Group

def ledger (g : Group) : Ledger :=
  ⟨g.log, g.confirmed⟩

/-- What the consumers take from their surroundings. -/
structure Surroundings (g : Group) : Prop where
  dedup : ∀ runner, ∀ id ∈ (g.runners runner).dedup, g.ledger.Answered id
  committed : ∀ tp, g.ledger.Covered tp (g.committed tp)

structure Sound (g : Group) : Prop where
  surroundings : g.Surroundings
  consumers : ∀ runner index, ((g.runners runner).consumers index).Sound g.ledger

variable {g : Group}

theorem Surroundings.view (h : g.Surroundings) (runner : Nat) : (g.view runner).Sound g.ledger where
  log := rfl
  dedup := h.dedup runner
  committed := h.committed

theorem init_sound (consumers : Nat → Nat → Consumer) : (init consumers).Sound where
  surroundings := by
    refine ⟨?_, ?_⟩
    · intro runner id hid
      cases hid
    · intro tp o ho
      cases ho
  consumers := fun runner index => (consumers runner index).restarted_sound _

/-- A runner is exchanged for one with confirmed dedup ids. -/
theorem setRunner_surroundings (h : g.Surroundings) (runner : Nat) {r : Runner}
    (hdedup : ∀ id ∈ r.dedup, g.ledger.Answered id) : (g.setRunner runner r).Surroundings := by
  refine ⟨?_, h.committed⟩
  intro r' id hid
  by_cases hr : r' = runner
  · subst hr
    simp only [setRunner, Function.update_self] at hid
    exact hdedup id hid
  · simp only [setRunner, Function.update_of_ne hr] at hid
    exact h.dedup r' id hid

theorem setRunner_sound (h : g.Sound) (runner : Nat) {r : Runner}
    (hdedup : ∀ id ∈ r.dedup, g.ledger.Answered id)
    (hcons : ∀ index, (r.consumers index).Sound g.ledger) : (g.setRunner runner r).Sound := by
  refine ⟨setRunner_surroundings h.surroundings runner hdedup, ?_⟩
  intro r' index
  by_cases hr : r' = runner
  · subst hr
    simp only [setRunner, Function.update_self]
    exact hcons index
  · simp only [setRunner, Function.update_of_ne hr]
    exact h.consumers r' index

/-- A runner exchanged for one with the same consumers. -/
theorem setRunner_consumers (runner : Nat) {r : Runner}
    (hr : r.consumers = (g.runners runner).consumers) (r' : Nat) :
    ((g.setRunner runner r).runners r').consumers = (g.runners r').consumers := by
  by_cases heq : r' = runner
  · subst heq
    simp [setRunner, hr]
  · simp [setRunner, Function.update_of_ne heq]

/-- An effect adds to the ledger what it says and leaves the consumers alone. -/
theorem effect_spec (h : g.Surroundings) (runner : Nat) {x : Effect} {m : Membership}
    (hx : x.Sound g.ledger m) :
    (effect runner g x).ledger = g.ledger.effect x ∧ (effect runner g x).Surroundings ∧
      ∀ r, ((effect runner g x).runners r).consumers = (g.runners r).consumers := by
  cases x with
  | confirm tp offset =>
    have hext := g.ledger.extends_effect (.confirm tp offset)
    exact ⟨rfl, ⟨fun r id hid => hext.answered (h.dedup r id hid),
      fun tp => hext.covered (h.committed tp)⟩, fun _ => rfl⟩
  | mark id =>
    exact ⟨rfl, setRunner_surroundings h runner
      (List.forall_mem_cons.mpr ⟨hx, h.dedup runner⟩), setRunner_consumers runner rfl⟩
  | stop => exact ⟨rfl, setRunner_surroundings h runner (h.dedup runner), setRunner_consumers runner rfl⟩
  | commit tp offset => exact ⟨rfl, h, fun _ => rfl⟩
  | stored tp offset =>
    refine ⟨rfl, ⟨h.dedup, ?_⟩, fun _ => rfl⟩
    intro tp'
    by_cases heq : tp' = tp
    · subst heq
      simp only [effect, Function.update_self]
      exact hx
    · simp only [effect, Function.update_of_ne heq]
      exact h.committed tp'

theorem effects_spec (runner : Nat) {m : Membership} (effects : List Effect) :
    ∀ {g : Group}, g.Surroundings → (∀ x ∈ effects, x.Sound g.ledger m) →
      (effects.foldl (effect runner) g).ledger = g.ledger.after effects ∧
      (effects.foldl (effect runner) g).Surroundings ∧
      ∀ r, ((effects.foldl (effect runner) g).runners r).consumers = (g.runners r).consumers := by
  induction effects with
  | nil => exact fun h _ => ⟨rfl, h, fun _ => rfl⟩
  | cons x rest ih =>
    intro g h hx
    obtain ⟨hledger, hsur, hcons⟩ := effect_spec h runner (hx x (List.mem_cons_self ..))
    have hrest : ∀ y ∈ rest, y.Sound (effect runner g x).ledger m := by
      intro y hy
      rw [hledger]
      exact (hx y (List.mem_cons_of_mem _ hy)).mono (g.ledger.extends_effect x)
    obtain ⟨hledger', hsur', hcons'⟩ := ih hsur hrest
    refine ⟨?_, hsur', fun r => (hcons' r).trans (hcons r)⟩
    rw [List.foldl_cons, hledger', hledger]
    rfl

theorem setConsumer_consumers (g : Group) (runner index : Nat) (c : Consumer) (r k : Nat) :
    ((g.setConsumer runner index c).runners r).consumers k =
      if r = runner ∧ k = index then c else (g.runners r).consumers k := by
  by_cases hr : r = runner
  · subst hr
    by_cases hk : k = index
    · subst hk
      simp [setConsumer, setRunner]
    · simp [setConsumer, setRunner, hk]
  · simp [setConsumer, setRunner, hr]

theorem log_append (g : Group) (tp tp' : TopicPartition) (message : Message) :
    (g.step (.append tp message)).log tp' =
      g.log tp' ++ if tp = tp' then [message] else [] := by
  by_cases heq : tp = tp'
  · simp [log, step, heq]
  · simp [log, step, heq]

theorem extends_append (g : Group) (tp : TopicPartition) (message : Message) :
    g.ledger.Extends (g.step (.append tp message)).ledger := by
  refine ⟨?_, List.Subset.refl _⟩
  intro tp' o m hm
  have hlt : o < (g.log tp').length := (List.getElem?_eq_some_iff.mp hm).1
  show ((g.step (.append tp message)).log tp')[o]? = some m
  rw [log_append, List.getElem?_append_left hlt]
  exact hm

/-- One event. -/
theorem step_sound (h : g.Sound) (e : GroupEvent) : (g.step e).Sound := by
  cases e with
  | append tp message =>
    have hext := g.extends_append tp message
    exact ⟨⟨fun r id hid => hext.answered (h.surroundings.dedup r id hid),
      fun tp => hext.covered (h.surroundings.committed tp)⟩,
      fun r k => (h.consumers r k).mono hext⟩
  | consumer runner index e =>
    obtain ⟨heff, hsound⟩ :=
      Consumer.step_sound (h.consumers runner index) (h.surroundings.view runner) e
    have hset : (g.setConsumer runner index (g.react runner index e).1).Surroundings :=
      setRunner_surroundings h.surroundings runner (h.surroundings.dedup runner)
    obtain ⟨hledger, hsur, hcons⟩ := effects_spec runner (g.react runner index e).2 hset heff
    refine ⟨hsur, fun r k => ?_⟩
    show Consumer.Sound (List.foldl (effect runner) _ _).ledger _
    have hext := g.ledger.extends_after (g.react runner index e).2
    rw [hledger]
    have hk := congrFun (hcons r) k
    rw [setConsumer_consumers] at hk
    show Consumer.Sound _ (((List.foldl (effect runner) _ _).runners r).consumers k)
    rw [hk]
    split
    · exact hsound
    · exact (h.consumers r k).mono hext
  | forget runner id =>
    refine setRunner_sound h runner ?_ (h.consumers runner)
    intro id' hid'
    exact h.surroundings.dedup runner id' (List.mem_filter.mp hid').1
  | shutdown runner =>
    exact setRunner_sound h runner (h.surroundings.dedup runner) (h.consumers runner)
  | restart runner =>
    refine setRunner_sound h runner ?_ fun index => Consumer.restarted_sound _ _
    intro id hid
    cases hid

theorem run_sound (consumers : Nat → Nat → Consumer) (events : List GroupEvent) :
    (Run.after step (init consumers) events).Sound :=
  Run.invariant (I := Sound) (fun _ e h _ => Group.step_sound h e) (init_sound consumers)
    (Run.guarded_true _ _)

end Group

/-- Kafka workers never acknowledge unconfirmed work.  In any run of a group of
    Go, Java and Node runners, every commit is that of an acknowledged record,
    made in the assignment the record was delivered in, and skips no record
    that is not acknowledged; nor does any offset the broker stores. -/
theorem commits_acknowledged (consumers : Nat → Nat → Consumer) (events : List GroupEvent) :
    let g := Run.after Group.step (Group.init consumers) events
    (∀ e runner index tp offset, (runner, index, tp, offset) ∈ g.commits e →
      g.ledger.Acked tp offset ∧
      (∃ d ∈ ((g.runners runner).consumers index).member.delivered,
        d.partition = tp ∧ d.offset = offset ∧
        ((g.runners runner).consumers index).member.assignment tp = some d.assignment) ∧
      ∀ o < offset, g.ledger.Acked tp o) ∧
    ∀ tp, ∀ o < g.committed tp, g.ledger.Acked tp o := by
  intro g
  have h : g.Sound := Group.run_sound consumers events
  refine ⟨?_, h.surroundings.committed⟩
  intro e runner index tp offset hcommit
  cases e with
  | consumer i k e =>
    obtain ⟨x, hx, hsome⟩ := List.mem_filterMap.mp hcommit
    cases x with
    | commit tp' offset' =>
      cases hsome
      obtain ⟨heff, -⟩ := Consumer.step_sound (h.consumers runner index)
        (h.surroundings.view runner) e
      have hsafe : CommitSafe _ _ tp offset := heff _ hx
      exact ⟨hsafe.acked, hsafe.current, hsafe.covered⟩
    | _ => cases hsome
  | _ => cases hcommit

/-- A record is polled by a Go consumer while the partition comes and goes: the
    handler's work in the first assignment is not committed in the second. -/
example :
    let tp : TopicPartition := ⟨"workflow.jobs.charge", 0⟩
    let go := fun e => GroupEvent.consumer 0 0 (.go e)
    let work := fun e => go (.work e)
    let record := [go (.polled tp), work .begin, work (.handled (.complete [])),
      work (.attempt .confirmed), work .check, work .mark]
    let g := Run.after Group.step (Group.init fun _ _ => .go {})
      ([.append tp (some ⟨some 2, some 3⟩), go (.assigned tp)] ++ record)
    let g' := Run.after Group.step g [go (.revoked tp), go (.assigned tp)]
    g.commits (go (.proceed ⟨true, true⟩)) = [(0, 0, tp, 0)] ∧
      g'.commits (go (.proceed ⟨true, true⟩)) = [] := by
  decide +kernel

end Rochallor
