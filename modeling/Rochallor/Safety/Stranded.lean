import Rochallor.Kafka.Deployment
import Rochallor.Safety.Commits
import Rochallor.Safety.Finished
import Rochallor.Safety.Outbox

/-! # Jobs between engine, broker and consumers

    A record is committed once its callback has been answered, and an answered
    callback leaves its job finished, with one exception: the engine also
    answers the callback of a job whose instance has failed, and ignores it.
    `RetryFailedStep` makes such an instance active again and enqueues the
    retried step only, so the job is waiting and no record of it is left.
-/

namespace Rochallor

/-! ## What consumers confirm -/

theorem dispatchWork_confirms {recheck owned : Bool} {v : View} {d : PolledRecord}
    {phase : WorkPhase} {e : WorkEvent} {tp : TopicPartition} {offset : Nat}
    (h : .confirm tp offset ∈ (dispatchWork recheck v owned d phase e).2) :
    ∃ callback, phase = .sending callback ∧ e = .attempt .confirmed ∧ owned = true ∧
      d.partition = tp ∧ d.offset = offset := by
  unfold dispatchWork at h
  split at h
  · repeat' split at h
    all_goals cases h
  · cases h
  · rename_i callback result
    split at h
    · cases h
    · rename_i howned
      split at h
      · obtain ⟨rfl, rfl⟩ := by simpa using h
        exact ⟨callback, rfl, rfl, by simpa using howned, rfl, rfl⟩
      · cases h
      · cases h
  · split at h <;> cases h
  · split at h
    · cases h
    · cases List.mem_singleton.mp h
  · cases h

theorem GoConsumer.giveUp_confirms {v : View} {c : GoConsumer} {d : PolledRecord}
    {tp : TopicPartition} {offset : Nat} : .confirm tp offset ∉ (c.giveUp v d).2 := by
  unfold giveUp
  split <;> simp

theorem CommitOutcome.effects_confirms {outcome : CommitOutcome} {d : PolledRecord}
    {tp : TopicPartition} {offset : Nat} : .confirm tp offset ∉ outcome.effects d := by
  unfold effects
  split <;> simp

/-- The Go consumer confirms the record whose callback has been answered. -/
theorem GoConsumer.step_confirms {v : View} {c : GoConsumer} {e : GoEvent} {tp : TopicPartition}
    {offset : Nat} (h : .confirm tp offset ∈ (c.step v e).2) :
    ∃ d callback, e = .work (.attempt .confirmed) ∧ c.loop = .dispatching d (.sending callback) ∧
      v.owned c.member d = true ∧ d.partition = tp ∧ d.offset = offset := by
  cases e with
  | assigned tp' => cases h
  | revoked tp' => cases h
  | polled tp' =>
    simp only [step] at h
    split at h
    · split at h <;> cases h
    · cases h
  | work e =>
    simp only [step] at h
    split at h
    · rename_i d phase hloop
      obtain ⟨callback, rfl, rfl, howned, hpart, hoff⟩ := dispatchWork_confirms h
      exact ⟨d, callback, rfl, hloop, howned, hpart, hoff⟩
    · cases h
  | proceed outcome =>
    simp only [step] at h
    split at h
    · exact absurd h giveUp_confirms
    · split at h
      · exact absurd h giveUp_confirms
      · split at h
        · exact absurd h CommitOutcome.effects_confirms
        · rcases List.mem_append.mp h with h | h
          · exact absurd h CommitOutcome.effects_confirms
          · exact absurd h giveUp_confirms
    · cases h
  | exit =>
    simp only [step] at h
    split at h
    · split at h <;> cases h
    · cases h

/-- What the effects of an event add to the ledger. -/
theorem Ledger.after_eq (w : Ledger) (effects : List Effect) :
    (w.after effects).log = w.log ∧ ∀ p, p ∈ (w.after effects).confirmed ↔
      p ∈ w.confirmed ∨ .confirm p.1 p.2 ∈ effects := by
  induction effects generalizing w with
  | nil => exact ⟨rfl, by simp [after]⟩
  | cons x rest ih =>
    obtain ⟨hlog, hconf⟩ := ih (w.effect x)
    refine ⟨?_, fun p => ?_⟩
    · show ((w.effect x).after rest).log = w.log
      rw [hlog]
      cases x <;> rfl
    · show p ∈ ((w.effect x).after rest).confirmed ↔ _
      rw [hconf p]
      cases x with
      | confirm tp offset =>
        have hp : p = (tp, offset) ↔ Effect.confirm p.1 p.2 = .confirm tp offset := by
          simp [Prod.ext_iff]
        simp only [effect, List.mem_cons, hp]
        tauto
      | _ => simp [effect]

namespace Group

variable {g : Group}

theorem mem_log {tp : TopicPartition} {m : Message} : m ∈ g.log tp ↔ (tp, m) ∈ g.records := by
  simp [log]

theorem ledger_effects (runner : Nat) (effects : List Effect) :
    ∀ g : Group, (effects.foldl (effect runner) g).ledger = g.ledger.after effects := by
  induction effects with
  | nil => exact fun _ => rfl
  | cons x rest ih =>
    intro g
    have hx : (effect runner g x).ledger = g.ledger.effect x := by
      cases x <;> rfl
    rw [List.foldl_cons, ih, hx]
    rfl

theorem records_effects (runner : Nat) (effects : List Effect) :
    ∀ g : Group, (effects.foldl (effect runner) g).records = g.records := by
  induction effects with
  | nil => exact fun _ => rfl
  | cons x rest ih =>
    intro g
    rw [List.foldl_cons, ih]
    cases x <;> rfl

/-- An event of a Go consumer stores no record, and it confirms the record
    whose callback has been answered, if any. -/
theorem step_go (g : Group) (runner index : Nat) (e : GoEvent) :
    (g.step (.consumer runner index (.go e))).records = g.records ∧
    (g.step (.consumer runner index (.go e))).log = g.log ∧
    ∀ p ∈ (g.step (.consumer runner index (.go e))).confirmed, p ∈ g.confirmed ∨
      ∃ c d callback, (g.runners runner).consumers index = .go c ∧
        e = .work (.attempt .confirmed) ∧ c.loop = .dispatching d (.sending callback) ∧
        (g.view runner).owned c.member d = true ∧ p = (d.partition, d.offset) := by
  have hledger : (g.step (.consumer runner index (.go e))).ledger =
      g.ledger.after (g.react runner index (.go e)).2 := ledger_effects runner _ _
  obtain ⟨hlog, hconf⟩ := g.ledger.after_eq (g.react runner index (.go e)).2
  refine ⟨records_effects runner _ _, ?_, ?_⟩
  · show (g.step (.consumer runner index (.go e))).ledger.log = g.log
    rw [hledger]
    exact hlog
  · intro p hp
    have hp' : p ∈ (g.step (.consumer runner index (.go e))).ledger.confirmed := hp
    rw [hledger, hconf] at hp'
    refine hp'.imp_right fun hnew => ?_
    unfold react at hnew
    cases hc : (g.runners runner).consumers index with
    | go c =>
      rw [hc] at hnew
      obtain ⟨d, callback, he, hloop, howned, hpart, hoff⟩ := GoConsumer.step_confirms hnew
      exact ⟨c, d, callback, rfl, he, hloop, howned, by rw [hpart, hoff]⟩
    | java c =>
      rw [hc] at hnew
      cases hnew
    | node c =>
      rw [hc] at hnew
      cases hnew

end Group

/-! ## The invariant -/

namespace Deployment

/-- The record at the place is that of a finished job. -/
def Served (s : Deployment) (p : TopicPartition × Nat) : Prop :=
  ∃ event jobID, (s.group.log p.1)[p.2]? = some (some event) ∧ event.jobID = some jobID ∧
    Finished s.relays.db jobID

/-- What is assumed of the broker's client, of the cycles of the relays. -/
def Reports (s : Deployment) : DeploymentEvent → Prop
  | .relay e => ProduceSyncReports s.relays e
  | _ => True

/-- The event is not the answer to a callback that is ignored although its job
    is `UNLOCKED` and its step `RUNNING`: one for a failed instance. -/
def heeds (s : Deployment) : DeploymentEvent → Bool
  | .callback runner index _ _ (.answered _) =>
    (s.sending runner index).all fun x => (s.relays.db.getJob x.1).all fun job =>
      !s.relays.db.awaits (fun status => decide (status = .failed)) job
  | _ => true

instance (s : Deployment) (e : DeploymentEvent) : Decidable (s.Reports e) := by
  cases e <;> unfold Reports <;> infer_instance

/-- What holds between any two events. -/
structure Inv (svc : Service) (s : Deployment) : Prop where
  relays : s.relays.Inv svc
  logged : Logged s.relays.db
  group : s.group.Sound
  /-- Every record is that of an outbox row. -/
  records : ∀ p ∈ s.group.records, ∃ o ∈ s.relays.db.outbox, p.2 = o.payload.message
  /-- Every acknowledged record is with the broker. -/
  stored : ∀ r ∈ s.relays.acknowledged, ∃ p ∈ s.group.records, p.2 = r.value.message
  /-- A confirmed record is that of a finished job. -/
  served : ∀ p ∈ s.group.confirmed, s.Served p

theorem init_inv (svc : Service) : init.Inv svc where
  relays := relays_empty svc
  logged := logged_empty
  group := Group.init_sound _
  records := fun _ hp => by cases hp
  stored := fun _ hr => by cases hr
  served := fun _ hp => by cases hp

section Step

variable {svc : Service} {workers : Nat → String} {s : Deployment}

/-- Other events of the relays publish nothing. -/
theorem relayStep_acknowledged (svc : Service) {r : Relays} {e : RelayEvent}
    (hne : ∀ cycle index, e ≠ .acknowledge cycle index) :
    (relayStep svc r e).acknowledged = r.acknowledged := by
  cases e with
  | call c => rfl
  | claimBatch batchSize ids =>
    simp only [relayStep]
    split <;> rfl
  | acknowledge cycle index => exact absurd rfl (hne cycle index)
  | produceSync cycle results =>
    simp only [relayStep]
    split
    · rfl
    · split <;> rfl
  | deleteByIDs cycle err =>
    simp only [relayStep]
    split <;> rfl
  | writeAuditEntries cycle err =>
    simp only [relayStep]
    split <;> rfl
  | commit cycle err =>
    simp only [relayStep]
    split <;> rfl
  | crash cycle => rfl

/-- Only calls change the tables of the engine. -/
theorem relayStep_db (svc : Service) (r : Relays) (e : RelayEvent) :
    (relayStep svc r e).db = r.db ∨ ∃ c, (relayStep svc r e).db = apply svc r.db c := by
  cases e with
  | call c => exact .inr ⟨c, rfl⟩
  | claimBatch batchSize ids =>
    simp only [relayStep]
    split <;> exact .inl rfl
  | acknowledge cycle index =>
    simp only [relayStep]
    split
    · exact .inl rfl
    · split <;> exact .inl rfl
  | produceSync cycle results =>
    simp only [relayStep]
    split
    · exact .inl rfl
    · split <;> exact .inl rfl
  | deleteByIDs cycle err =>
    simp only [relayStep]
    split <;> exact .inl rfl
  | writeAuditEntries cycle err =>
    simp only [relayStep]
    split <;> exact .inl rfl
  | commit cycle err =>
    simp only [relayStep]
    split <;> exact .inl rfl
  | crash cycle => exact .inl rfl

/-- The engine and the relays go on, and publish nothing. -/
theorem Inv.relay (h : s.Inv svc) {e : RelayEvent} (hne : ∀ cycle index, e ≠ .acknowledge cycle index)
    (hreports : ProduceSyncReports s.relays e) :
    ({ s with relays := relayStep svc s.relays e } : Deployment).Inv svc := by
  have hrelays := relayStep_inv h.relays hreports
  have hdb := relayStep_db svc s.relays e
  refine ⟨hrelays, ?_, h.group, ?_, ?_, ?_⟩
  · show Logged (relayStep svc s.relays e).db
    rcases hdb with hdb | ⟨c, hdb⟩ <;> rw [hdb]
    · exact h.logged
    · exact logged_apply h.relays.wf h.logged c
  · intro p hp
    obtain ⟨o, ho, hmsg⟩ := h.records p hp
    refine ⟨o, ?_, hmsg⟩
    show o ∈ (relayStep svc s.relays e).db.outbox
    rcases hdb with hdb | ⟨c, hdb⟩ <;> rw [hdb]
    · exact ho
    · exact (outbox_apply svc s.relays.db c).subset ho
  · intro r hr
    refine h.stored r ?_
    rw [← relayStep_acknowledged svc hne]
    exact hr
  · intro p hp
    obtain ⟨event, jobID, hlog, hjob, hfin⟩ := h.served p hp
    refine ⟨event, jobID, hlog, hjob, ?_⟩
    show Finished (relayStep svc s.relays e).db jobID
    rcases hdb with hdb | ⟨c, hdb⟩ <;> rw [hdb]
    · exact hfin
    · exact hfin.apply h.relays.wf h.logged c

theorem Inv.called (h : s.Inv svc) (call : Call) : (s.called svc call).Inv svc :=
  h.relay (fun _ _ hne => by cases hne) trivial

/-- The consumers go on, and the records they confirm are those of finished
    jobs. -/
theorem Inv.react (h : s.Inv svc) {e : GroupEvent}
    (hrecords : (s.group.step e).records = s.group.records)
    (hserved : ∀ p ∈ (s.group.step e).confirmed, s.Served p) :
    ({ s with group := s.group.step e } : Deployment).Inv svc := by
  have hlog : (s.group.step e).log = s.group.log := by
    unfold Group.log
    rw [hrecords]
  refine ⟨h.relays, h.logged, Group.step_sound h.group e, ?_, ?_, ?_⟩
  · show ∀ p ∈ (s.group.step e).records, _
    rw [hrecords]
    exact h.records
  · show ∀ r ∈ s.relays.acknowledged, ∃ p ∈ (s.group.step e).records, _
    rw [hrecords]
    exact h.stored
  · intro p hp
    obtain ⟨event, jobID, hat, hjob, hfin⟩ := hserved p hp
    refine ⟨event, jobID, ?_, hjob, hfin⟩
    show ((s.group.step e).log p.1)[p.2]? = _
    rw [hlog]
    exact hat

/-- A consumer does anything but get an answer. -/
theorem Inv.go (h : s.Inv svc) (runner index : Nat) {e : GoEvent}
    (hne : e ≠ .work (.attempt .confirmed)) :
    ({ s with group := s.group.step (.consumer runner index (.go e)) } : Deployment).Inv svc := by
  obtain ⟨hrecords, -, hconf⟩ := s.group.step_go runner index e
  refine h.react hrecords ?_
  intro p hp
  rcases hconf p hp with hold | ⟨c, d, callback, -, he, -⟩
  · exact h.served p hold
  · exact absurd he hne

/-- What a consumer is about to send belongs to a record of the broker. -/
theorem sending_eq {runner index jobID : Nat} {callback : WorkerCallback} (h : s.Inv svc)
    (hsend : s.sending runner index = some (jobID, callback)) :
    ∃ c d event, (s.group.runners runner).consumers index = .go c ∧
      c.loop = .dispatching d (.sending callback) ∧ event.jobID = some jobID ∧
      (s.group.log d.partition)[d.offset]? = some (some event) := by
  unfold sending at hsend
  split at hsend
  · rename_i c hc
    split at hsend
    · rename_i d cb hloop
      split at hsend
      · obtain ⟨id, hid, heq⟩ := Option.map_eq_some_iff.mp hsend
        obtain ⟨rfl, rfl⟩ := Prod.mk.inj heq
        obtain ⟨event, hmsg, hjob⟩ := Option.bind_eq_some_iff.mp hid
        have hsound : c.Sound s.group.ledger := by
          have := h.group.consumers runner index
          rw [hc] at this
          exact this
        have hreads := (hsound.record hloop).1.reads
        rw [hmsg] at hreads
        exact ⟨c, d, event, hc, hloop, hjob, hreads⟩
      · cases hsend
    · cases hsend
  · cases hsend

/-- A consumer gets the answer to the callback of a finished job. -/
theorem Inv.confirmed (h : s.Inv svc) {runner index jobID : Nat} {callback : WorkerCallback}
    (hsend : s.sending runner index = some (jobID, callback)) (hfin : Finished s.relays.db jobID) :
    (s.attempted runner index .confirmed).Inv svc := by
  obtain ⟨c, d, event, hc, hloop, hjob, hlog⟩ := sending_eq h hsend
  obtain ⟨hrecords, -, hconf⟩ := s.group.step_go runner index (.work (.attempt .confirmed))
  refine h.react hrecords ?_
  intro p hp
  rcases hconf p hp with hold | ⟨c', d', callback', hc', -, hloop', -, rfl⟩
  · exact h.served p hold
  · obtain rfl : c' = c := by simpa [hc] using hc'.symm
    obtain ⟨rfl, -⟩ : d' = d ∧ _ := by simpa [hloop] using hloop'.symm
    exact ⟨event, jobID, hlog, hjob, hfin⟩

theorem publishing_eq (svc : Service) {r : Relays} {cycle index : Nat} {x : Record}
    (h : r.publishing cycle index = some x) :
    ∃ c ∈ r.cycles, ∃ o ∈ c.batch, x = o.record ∧
      relayStep svc r (.acknowledge cycle index) =
        { r with acknowledged := r.acknowledged ++ [x] } := by
  obtain ⟨c, hat, hx⟩ := Option.bind_eq_some_iff.mp h
  obtain ⟨o, ho, rfl⟩ := Option.map_eq_some_iff.mp hx
  refine ⟨c, (Relays.atPhase_eq hat).1, o, List.mem_of_getElem? ho, rfl, ?_⟩
  simp only [relayStep, hat, ho]

/-- A record reaches the broker, whether or not the relay hears of it. -/
theorem Inv.publish (h : s.Inv svc) {cycle index : Nat} {x : Record}
    (hpub : s.relays.publishing cycle index = some x) (partition : Nat) (acked : Bool) :
    ({ relays := if acked then relayStep svc s.relays (.acknowledge cycle index) else s.relays
       group := s.group.step (.append ⟨x.topic, partition⟩ x.value.message) } :
      Deployment).Inv svc := by
  obtain ⟨c, hc, o, ho, hx, hstep⟩ := publishing_eq svc hpub
  have hrow : o ∈ s.relays.db.outbox := (Relays.mem_table.mp (h.relays.held c hc o ho)).1
  have hrelays : (relayStep svc s.relays (.acknowledge cycle index)).Inv svc :=
    relayStep_inv h.relays trivial
  have hnew : (⟨x.topic, partition⟩, x.value.message) ∈
      (s.group.step (.append ⟨x.topic, partition⟩ x.value.message)).records :=
    List.mem_append_right _ (List.mem_singleton_self _)
  have hold : ∀ p ∈ s.group.records,
      p ∈ (s.group.step (.append ⟨x.topic, partition⟩ x.value.message)).records :=
    fun p hp => List.mem_append_left _ hp
  have hdb : (if acked then relayStep svc s.relays (.acknowledge cycle index)
      else s.relays).db = s.relays.db := by
    rw [hstep]
    split <;> rfl
  refine ⟨?_, ?_, Group.step_sound h.group (.append ⟨x.topic, partition⟩ x.value.message), ?_, ?_, ?_⟩
  · show Relays.Inv svc (if acked then _ else _)
    split
    · exact hrelays
    · exact h.relays
  · show Logged (Relays.db (if acked then _ else _))
    rw [hdb]
    exact h.logged
  · intro p hp
    show ∃ o ∈ (Relays.db (if acked then _ else _)).outbox, _
    rw [hdb]
    rcases List.mem_append.mp hp with hp | hp
    · exact h.records p hp
    · obtain rfl := List.mem_singleton.mp hp
      exact ⟨o, hrow, by rw [hx]; rfl⟩
  · intro r hr
    have hr' : r ∈ s.relays.acknowledged ∨ r = x := by
      cases acked with
      | false => exact .inl hr
      | true =>
        have hr' : r ∈ (relayStep svc s.relays (.acknowledge cycle index)).acknowledged := hr
        rw [hstep] at hr'
        simpa using hr'
    rcases hr' with hr' | rfl
    · obtain ⟨p, hp, hmsg⟩ := h.stored r hr'
      exact ⟨p, hold p hp, hmsg⟩
    · exact ⟨_, hnew, rfl⟩
  · intro p hp
    obtain ⟨event, jobID, hlog, hjob, hfin⟩ := h.served p hp
    refine ⟨event, jobID, ?_, hjob, ?_⟩
    · exact (s.group.extends_append _ _).log hlog
    · show Finished (Relays.db (if acked then _ else _)) jobID
      rw [hdb]
      exact hfin

/-- A callback is sent. -/
theorem Inv.callback (h : s.Inv svc) (runner index : Nat) (now : Time) (fuel : Nat)
    (exchange : Exchange)
    (hheeds : s.heeds (.callback runner index now fuel exchange) = true) :
    (step svc workers s (.callback runner index now fuel exchange)).Inv svc := by
  have hgo : ∀ {s : Deployment} {result : AttemptResult}, s.Inv svc → result ≠ .confirmed →
      (s.attempted runner index result).Inv svc :=
    fun h hne => h.go runner index fun heq => hne (by cases heq; rfl)
  simp only [step]
  split
  · exact hgo h nofun
  · exact hgo h nofun
  · exact hgo (h.called _) nofun
  · rename_i jobID callback permanent hsend
    cases hreply : (perform svc s.relays.db
        ⟨callback.op jobID (workers runner), now, fuel⟩).2 with
    | some e =>
      refine hgo (h.called _) ?_
      cases permanent <;> exact nofun
    | none =>
      have hheeded : ∀ job ∈ s.relays.db.jobs, job.id = jobID →
          s.relays.db.awaits (fun status => decide (status = .failed)) job = false := by
        intro job hjob hid
        have hnd := h.relays.wf.shape.job_ids.nodup
        simp only [Db.shape, List.map_map] at hnd
        have hget : s.relays.db.getJob jobID = some job := Table.find_eq_some hnd hjob hid
        simpa [heeds, hsend, hget] using hheeds
      have hop : (callback.op jobID (workers runner)).Reports jobID (workers runner) := by
        cases callback <;> exact ⟨rfl, rfl⟩
      exact (h.called _).confirmed hsend
        (finished_of_answered h.relays.wf h.logged hop hreply hheeded)

/-- One event. -/
theorem step_inv (h : s.Inv svc) {e : DeploymentEvent} (hreports : s.Reports e)
    (hheeds : s.heeds e = true) : (step svc workers s e).Inv svc := by
  cases e with
  | relay e =>
    cases e with
    | acknowledge cycle index => exact h
    | _ => exact h.relay (fun _ _ hne => by cases hne) hreports
  | publish cycle index partition acked =>
    simp only [step]
    split
    · exact h
    · rename_i x hpub
      exact h.publish hpub partition acked
  | consumer runner index e =>
    simp only [step]
    split
    · exact h
    · rename_i hne
      exact h.go runner index fun heq => hne _ heq
  | callback runner index now fuel exchange => exact h.callback runner index now fuel exchange hheeds
  | forget runner id => exact h.react rfl h.served
  | shutdown runner => exact h.react rfl h.served
  | restart runner => exact h.react rfl h.served

end Step

/-! ## Whole runs -/

theorem run_inv (svc : Service) (workers : Nat → String) {events : List DeploymentEvent}
    (hguard : Run.Guarded (step svc workers) (fun s e => s.Reports e ∧ s.heeds e = true) init
      events) : (Run.after (step svc workers) init events).Inv svc :=
  Run.invariant (I := Inv svc) (fun _ _ h hg => step_inv h hg.1 hg.2) (init_inv svc) hguard

section Reaches

variable {svc : Service} {s : Deployment}

/-- An acknowledged record of a row is that of a finished job. -/
private theorem finished_of_acked (h : s.Inv svc) {o : OutboxRow} (ho : o ∈ s.relays.db.outbox)
    {tp : TopicPartition} {offset : Nat} (hlog : (s.group.log tp)[offset]? = some o.payload.message)
    (hacked : s.group.ledger.Acked tp offset) : Finished s.relays.db o.event.id := by
  have hserved : ∀ q ∈ s.group.confirmed, (s.group.log q.1)[q.2]? = some o.payload.message →
      Finished s.relays.db o.event.id := by
    intro q hq hq_log
    obtain ⟨event, jobID, hat, hjob, hfin⟩ := h.served q hq
    rw [hq_log] at hat
    cases hat
    cases hjob
    exact hfin
  rcases hacked with hconf | ⟨event, id, hat, hid, q, hq, event', hat', hid'⟩
  · exact hserved _ hconf hlog
  · -- a duplicate carries the dedup id of its row, so it is a record of the same row
    have hat : (s.group.log tp)[offset]? = some (some event) := hat
    have hat' : (s.group.log q.1)[q.2]? = some (some event') := hat'
    rw [hlog] at hat
    cases hat
    cases hid
    obtain ⟨o', ho', hmsg⟩ := h.records _ (Group.mem_log.mp (List.mem_of_getElem? hat'))
    have hmsg : some event' = o'.payload.message := hmsg
    cases hmsg
    have hrow : o' = o := h.relays.row_unique ho' ho (Option.some.inj hid')
    refine hserved q hq ?_
    rw [hat', ← hrow]
    rfl

theorem reaches (h : s.Inv svc.onKafka) {job : Job} (hjob : job ∈ s.relays.db.jobs)
    (hawaits : s.relays.db.awaits InstanceStatus.inFlight job = true) : s.Reaches job.id := by
  have hposted : s.relays.db.outbox.map (·.jobID) = s.relays.db.jobs.map (·.id) :=
    h.relays.posted.jobs
  have hmem : job.id ∈ s.relays.db.outbox.map (·.jobID) := by
    rw [hposted]
    exact List.mem_map_of_mem hjob
  obtain ⟨o, ho, hoj⟩ := List.mem_map.mp hmem
  have hevent : o.event.id = job.id := (h.relays.posted.event o ho).trans hoj
  by_cases hdel : o.id ∈ s.relays.deleted
  · -- the row is gone, so its record is with the broker
    obtain ⟨p, hp, hmsg⟩ := h.stored _ (h.relays.safe o ho hdel)
    have hmsg : p.2 = o.payload.message := hmsg
    obtain ⟨offset, hlog⟩ := List.mem_iff_getElem?.mp (Group.mem_log.mpr hp)
    rw [hmsg] at hlog
    by_cases hcommitted : s.group.committed p.1 ≤ offset
    · refine .inr ⟨p.1, o.payload.message, ?_, by rw [← hevent]; rfl⟩
      refine List.mem_iff_getElem?.mpr ⟨offset - s.group.committed p.1, ?_⟩
      rw [List.getElem?_drop, Nat.add_sub_cancel' hcommitted]
      exact hlog
    · -- a committed record is acknowledged, and then its job is not waiting
      have hacked := h.group.surroundings.committed p.1 offset (by omega)
      have hfin := finished_of_acked h ho hlog hacked
      rw [hevent] at hfin
      have hno : s.relays.db.awaits InstanceStatus.inFlight job = false :=
        hfin.not_awaits h.relays.wf hjob rfl fun _ hs => InstanceStatus.final_eq_false (.inl hs)
      rw [hno] at hawaits
      cases hawaits
  · exact .inl ⟨o, Relays.mem_table.mpr ⟨ho, hdel⟩, hoj⟩

/-- The partitions that hold a record at all are those of the records. -/
theorem not_reaches {jobID : Nat} (hrow : ∀ o ∈ s.relays.table, o.jobID ≠ jobID)
    (hrecord : ∀ p ∈ s.group.records, ∀ m ∈ (s.group.log p.1).drop (s.group.committed p.1),
      m.bind (·.jobID) ≠ some jobID) : ¬ s.Reaches jobID := by
  rintro (⟨o, ho, hoj⟩ | ⟨tp, m, hm, hmj⟩)
  · exact hrow o ho hoj
  · exact hrecord (tp, m) (Group.mem_log.mp (List.mem_of_mem_drop hm)) m hm hmj

end Reaches

end Deployment

/-- In every run of the deployment in which no answered callback is one the
    engine ignored because the instance had failed, every `UNLOCKED` job with a
    `RUNNING` step of an instance in flight has its outbox row or an
    uncommitted record. -/
theorem waiting_jobs_reached (svc : Service) (workers : Nat → String)
    (events : List DeploymentEvent)
    (hguard : Run.Guarded (Deployment.step svc.onKafka workers)
      (fun s e => s.Reports e ∧ s.heeds e = true) Deployment.init events) :
    let s := Run.after (Deployment.step svc.onKafka workers) Deployment.init events
    ∀ job ∈ s.relays.db.jobs, s.relays.db.awaits InstanceStatus.inFlight job = true →
      s.Reaches job.id := by
  intro s job hjob hawaits
  exact Deployment.reaches (Deployment.run_inv svc.onKafka workers hguard) hjob hawaits

/-- Shipping and billing, side by side. -/
def shipAndBill : WorkflowDefinition where
  id := "ship-and-bill"
  version := 1
  name := "ship and bill"
  steps := [
    { id := "fork", name := "fork", type := .parallelGateway,
      parallelNextSteps := ["ship", "bill"], joinStep := "join" },
    { id := "ship", name := "ship", type := .serviceTask, jobType := "ship", nextStep := "join" },
    { id := "bill", name := "bill", type := .serviceTask, jobType := "bill", nextStep := "join" },
    { id := "join", name := "join", type := .joinGateway, nextStep := "end" },
    { id := "end", name := "end", type := .endStep }]

/-- Both jobs are published, and each consumer has its partition. -/
def bothPublished : List DeploymentEvent :=
  [.relay (.call shipAndBill.start), .relay (.claimBatch 0 [4, 7]), .publish 0 0 0 true,
    .publish 0 1 0 true, .relay (.produceSync 0 [none, none]), .relay (.deleteByIDs 0 none),
    .relay (.writeAuditEntries 0 none), .relay (.commit 0 none),
    .consumer 0 0 (.assigned ⟨"workflow.jobs.ship", 0⟩),
    .consumer 0 1 (.assigned ⟨"workflow.jobs.bill", 0⟩)]

/-- A consumer takes a record from its poll to its commit. -/
def served (index : Nat) (topic : String) (now : Time) (callback : WorkerCallback) :
    List DeploymentEvent :=
  [.consumer 0 index (.polled ⟨topic, 0⟩), .consumer 0 index (.work .begin),
    .consumer 0 index (.work (.handled callback)), .callback 0 index now 16 (.answered false),
    .consumer 0 index (.work .check), .consumer 0 index (.work .mark),
    .consumer 0 index (.proceed ⟨true, true⟩)]

/-- Shipping fails for good, billing is done, and shipping is retried by hand. -/
def billingStranded : List DeploymentEvent :=
  bothPublished ++ served 0 "workflow.jobs.ship" 1 (.fail "no carrier" false) ++
    served 1 "workflow.jobs.bill" 2 (.complete []) ++
    [.relay (.call ⟨.retryFailedStep 0 "ship" [], 3, 16⟩)]

/-- The billing job waits for a worker, and nothing will bring it to one. -/
theorem billing_stranded :
    ¬ ∀ svc : Service, svc.Uploaded Accepted → ∀ workers events,
      Run.Guarded (Deployment.step svc.onKafka workers) (fun s e => s.Reports e) Deployment.init
        events →
      let s := Run.after (Deployment.step svc.onKafka workers) Deployment.init events
      ∀ job ∈ s.relays.db.jobs, s.relays.db.awaits InstanceStatus.inFlight job = true →
        s.Reaches job.id := by
  intro h
  have hup : (Service.ofList [shipAndBill]).Uploaded Accepted :=
    Service.uploaded_ofList (by decide +kernel)
  let s := Run.after (Deployment.step (Service.ofList [shipAndBill]).onKafka fun _ => "go-runner")
    Deployment.init billingStranded
  have hreach : ∀ job ∈ s.relays.db.jobs,
      s.relays.db.awaits InstanceStatus.inFlight job = true → s.Reaches job.id :=
    h _ hup (fun _ => "go-runner") billingStranded (by decide +kernel)
  have hwaits : ∃ job ∈ s.relays.db.jobs, job.id = 6 ∧
      s.relays.db.awaits InstanceStatus.inFlight job = true := by decide +kernel
  obtain ⟨job, hjob, hid, hawaits⟩ := hwaits
  have hsix : s.Reaches 6 := hid ▸ hreach job hjob hawaits
  exact Deployment.not_reaches (by decide +kernel) (by decide +kernel) hsix

/-- The same with billing done first. -/
def billingFirst : List DeploymentEvent :=
  bothPublished ++ served 1 "workflow.jobs.bill" 1 (.complete []) ++
    served 0 "workflow.jobs.ship" 2 (.fail "no carrier" false) ++
    [.relay (.call ⟨.retryFailedStep 0 "ship" [], 3, 16⟩)]

theorem waiting_jobs_reached_billingFirst :
    let s := Run.after (Deployment.step (Service.ofList [shipAndBill]).onKafka fun _ => "go-runner")
      Deployment.init billingFirst
    ∀ job ∈ s.relays.db.jobs, s.relays.db.awaits InstanceStatus.inFlight job = true →
      s.Reaches job.id :=
  waiting_jobs_reached (Service.ofList [shipAndBill]) (fun _ => "go-runner") billingFirst
    (by decide +kernel)

end Rochallor
