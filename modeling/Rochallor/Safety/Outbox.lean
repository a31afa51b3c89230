import Rochallor.Kafka.Relay
import Rochallor.Safety.Posting

/-! # At-least-once delivery through the outbox

    A row leaves `dispatch_outbox` in the commit of a cycle that has published
    it, and the audit entry of its job is written in the same transaction.
    The row locks are what makes the second half true: the batches of open
    cycles are disjoint, so a cycle deletes exactly the rows it audits.
-/

namespace Rochallor

/-- What holds between any two events. -/
structure Relays.Inv (svc : Service) (s : Relays) : Prop where
  wf : s.db.WF svc
  posted : s.db.Posted svc
  cycle_ids : Table.Keyed s.nextCycle (s.cycles.map (·.id))
  /-- The batch of an open cycle is still in the table. -/
  held : ∀ c ∈ s.cycles, ∀ o ∈ c.batch, o ∈ s.table
  /-- No row is in two batches. -/
  apart : ∀ c ∈ s.cycles, ∀ c' ∈ s.cycles, ∀ o ∈ c.batch, o ∈ c'.batch → c.id = c'.id
  /-- A cycle past `ProduceSync` has published its batch. -/
  published : ∀ c ∈ s.cycles, c.phase ≠ .produceSync → ∀ o ∈ c.batch,
    o.record ∈ s.acknowledged
  deleting : ∀ c ∈ s.cycles, c.phase = .writeAuditEntries → c.deletes = c.batch.map (·.id)
  writing : ∀ c ∈ s.cycles, c.phase = .commit →
    c.deletes = c.batch.map (·.id) ∧ c.audits = c.batch.map (·.audit)
  /-- What committed cycles have deleted is published. -/
  safe : ∀ o ∈ s.db.outbox, o.id ∈ s.deleted → o.record ∈ s.acknowledged
  /-- Only rows are deleted. -/
  rows : ∀ i ∈ s.deleted, ∃ o ∈ s.db.outbox, o.id = i

theorem relays_empty (svc : Service) : Relays.Inv svc {} where
  wf := wf_empty svc
  posted := posted_empty svc
  cycle_ids := ⟨List.nodup_nil, fun _ hk => by cases hk⟩
  held := fun _ hc => by cases hc
  apart := fun _ hc => by cases hc
  published := fun _ hc => by cases hc
  deleting := fun _ hc => by cases hc
  writing := fun _ hc => by cases hc
  safe := fun _ ho => by cases ho
  rows := fun _ hi => by cases hi

namespace Relays

variable {svc : Service} {s : Relays}

theorem mem_table {o : OutboxRow} : o ∈ s.table ↔ o ∈ s.db.outbox ∧ o.id ∉ s.deleted := by
  simp [table]

theorem atPhase_eq {cycle : Nat} {phase : Phase} {c : Cycle}
    (h : s.atPhase cycle phase = some c) : c ∈ s.cycles ∧ c.id = cycle ∧ c.phase = phase := by
  unfold atPhase at h
  have hc := List.find?_some h
  simp only [Bool.and_eq_true, decide_eq_true_eq] at hc
  exact ⟨List.mem_of_find?_eq_some h, hc⟩

theorem atPhase_of_mem (h : s.Inv svc) {c : Cycle} (hc : c ∈ s.cycles) :
    s.atPhase c.id c.phase = some c := by
  unfold atPhase
  cases hf : s.cycles.find? fun x => decide (x.id = c.id) && decide (x.phase = c.phase) with
  | none => simpa using List.find?_eq_none.mp hf c hc
  | some x =>
    have hx := List.find?_some hf
    simp only [Bool.and_eq_true, decide_eq_true_eq] at hx
    rw [Table.eq_of_key h.cycle_ids.nodup (List.mem_of_find?_eq_some hf) hc hx.1]

/-- The claimed rows are in the table and nobody holds them. -/
theorem claim_eq {limit : Nat} {ids : List Nat} {batch : List OutboxRow}
    (h : s.claim limit ids = some batch) :
    ∀ o ∈ batch, o ∈ s.table ∧ s.locked o = false := by
  unfold claim at h
  dsimp only at h
  split at h
  · rename_i hok
    cases h
    intro o ho
    refine ⟨?_, hok.2.2.2.1 o ho⟩
    obtain ⟨i, -, hfind⟩ := List.mem_filterMap.mp ho
    exact List.mem_of_find?_eq_some hfind
  · cases h

theorem not_locked {o : OutboxRow} (h : s.locked o = false) :
    ∀ c ∈ s.cycles, o ∉ c.batch := by
  intro c hc ho
  have : s.locked o = true :=
    List.any_eq_true.mpr ⟨c, hc, List.any_eq_true.mpr ⟨o, ho, by simp⟩⟩
  rw [h] at this
  cases this

theorem mem_close {cycle : Nat} {c : Cycle} :
    c ∈ (s.close cycle).cycles ↔ c ∈ s.cycles ∧ c.id ≠ cycle := by
  simp [close]

/-! ## The invariant -/

namespace Inv

/-- An id names one row. -/
theorem row_unique (h : s.Inv svc) {o o' : OutboxRow} (ho : o ∈ s.db.outbox)
    (ho' : o' ∈ s.db.outbox) (hid : o.id = o'.id) : o = o' :=
  Table.eq_of_key h.posted.ids.nodup ho ho' hid

/-- Engine transactions only add rows. -/
theorem call (h : s.Inv svc) (c : Call) :
    ({ s with db := apply svc s.db c } : Relays).Inv svc where
  wf := wf_apply h.wf c
  posted := posted_apply h.posted c
  cycle_ids := h.cycle_ids
  held := by
    intro x hx o ho
    obtain ⟨hmem, hkept⟩ := mem_table.mp (h.held x hx o ho)
    exact mem_table.mpr ⟨(outbox_apply svc s.db c).subset hmem, hkept⟩
  apart := h.apart
  published := h.published
  deleting := h.deleting
  writing := h.writing
  safe := by
    intro o ho hdel
    -- a deleted id is that of an old row
    obtain ⟨o', ho', hid⟩ := h.rows o.id hdel
    have hnew := (outbox_apply svc s.db c).subset ho'
    obtain rfl := Table.eq_of_key (posted_apply h.posted c).ids.nodup hnew ho hid
    exact h.safe o' ho' hdel
  rows := by
    intro i hi
    obtain ⟨o, ho, hid⟩ := h.rows i hi
    exact ⟨o, (outbox_apply svc s.db c).subset ho, hid⟩

theorem claim (h : s.Inv svc) {limit : Nat} {ids : List Nat} {batch : List OutboxRow}
    (hclaim : s.claim limit ids = some batch) :
    ({ s with cycles := s.cycles ++ [{ id := s.nextCycle, batch := batch }],
              nextCycle := s.nextCycle + 1 } : Relays).Inv svc where
  wf := h.wf
  posted := h.posted
  cycle_ids := by
    simp only [List.map_append, List.map_cons, List.map_nil]
    exact h.cycle_ids.insert (Nat.lt_succ_self _)
  held := by
    intro c hc o ho
    rcases List.mem_append.mp hc with hc | hc
    · exact h.held c hc o ho
    · obtain rfl := List.mem_singleton.mp hc
      exact (claim_eq hclaim o ho).1
  apart := by
    -- the locks of the old batches are not claimed again
    have hfree : ∀ c ∈ s.cycles, ∀ o ∈ c.batch, o ∉ batch := by
      intro c hc o ho hb
      exact not_locked (claim_eq hclaim o hb).2 c hc ho
    intro c hc c' hc' o ho ho'
    rcases List.mem_append.mp hc with hc | hc <;> rcases List.mem_append.mp hc' with hc' | hc'
    · exact h.apart c hc c' hc' o ho ho'
    · obtain rfl := List.mem_singleton.mp hc'
      exact absurd ho' (hfree c hc o ho)
    · obtain rfl := List.mem_singleton.mp hc
      exact absurd ho (hfree c' hc' o ho')
    · rw [List.mem_singleton.mp hc, List.mem_singleton.mp hc']
  published := by
    intro c hc hphase
    rcases List.mem_append.mp hc with hc | hc
    · exact h.published c hc hphase
    · obtain rfl := List.mem_singleton.mp hc
      exact absurd rfl hphase
  deleting := by
    intro c hc hphase
    rcases List.mem_append.mp hc with hc | hc
    · exact h.deleting c hc hphase
    · obtain rfl := List.mem_singleton.mp hc
      cases hphase
  writing := by
    intro c hc hphase
    rcases List.mem_append.mp hc with hc | hc
    · exact h.writing c hc hphase
    · obtain rfl := List.mem_singleton.mp hc
      cases hphase
  safe := h.safe
  rows := h.rows

theorem acknowledge (h : s.Inv svc) (r : Record) :
    ({ s with acknowledged := s.acknowledged ++ [r] } : Relays).Inv svc where
  wf := h.wf
  posted := h.posted
  cycle_ids := h.cycle_ids
  held := h.held
  apart := h.apart
  published := fun c hc hphase o ho => List.mem_append_left _ (h.published c hc hphase o ho)
  deleting := h.deleting
  writing := h.writing
  safe := fun o ho hdel => List.mem_append_left _ (h.safe o ho hdel)
  rows := h.rows

/-- A rollback gives up the locks. -/
theorem close (h : s.Inv svc) (cycle : Nat) : (s.close cycle).Inv svc where
  wf := h.wf
  posted := h.posted
  cycle_ids := h.cycle_ids.sublist (List.filter_sublist.map _)
  held := fun c hc => h.held c (mem_close.mp hc).1
  apart := fun c hc c' hc' => h.apart c (mem_close.mp hc).1 c' (mem_close.mp hc').1
  published := fun c hc => h.published c (mem_close.mp hc).1
  deleting := fun c hc => h.deleting c (mem_close.mp hc).1
  writing := fun c hc => h.writing c (mem_close.mp hc).1
  safe := h.safe
  rows := h.rows

/-- A cycle goes on, having done what its new phase says. -/
theorem advance (h : s.Inv svc) {c : Cycle} (hc : c ∈ s.cycles) {f : Cycle → Cycle}
    (hid : ∀ x, (f x).id = x.id) (hbatch : ∀ x, (f x).batch = x.batch)
    (hpub : ∀ o ∈ c.batch, o.record ∈ s.acknowledged)
    (hdel : (f c).phase = .writeAuditEntries → (f c).deletes = c.batch.map (·.id))
    (hwrite : (f c).phase = .commit →
      (f c).deletes = c.batch.map (·.id) ∧ (f c).audits = c.batch.map (·.audit)) :
    (s.advance c.id f).Inv svc := by
  -- a cycle afterwards is an old one, or `c` itself after the call
  have hcases : ∀ x ∈ (s.advance c.id f).cycles, ∃ r ∈ s.cycles, x.id = r.id ∧
      x.batch = r.batch ∧ (x = r ∨ (r = c ∧ x = f c)) := by
    intro x hx
    obtain ⟨r, hr, rfl⟩ := Table.mem_update.mp hx
    by_cases hrc : r.id = c.id
    · rw [if_pos (decide_eq_true hrc)]
      obtain rfl := Table.eq_of_key h.cycle_ids.nodup hr hc hrc
      exact ⟨r, hr, hid r, hbatch r, .inr ⟨rfl, rfl⟩⟩
    · rw [if_neg (by simpa using hrc)]
      exact ⟨r, hr, rfl, rfl, .inl rfl⟩
  refine ⟨h.wf, h.posted, ?_, ?_, ?_, ?_, ?_, ?_, h.safe, h.rows⟩
  · have hmap : (s.advance c.id f).cycles.map (·.id) = s.cycles.map (·.id) :=
      Table.map_update _ fun r _ => hid r
    rw [hmap]
    exact h.cycle_ids
  · intro x hx o ho
    obtain ⟨r, hr, -, hb, -⟩ := hcases x hx
    exact h.held r hr o (hb ▸ ho)
  · intro x hx x' hx' o ho ho'
    obtain ⟨r, hr, hi, hb, -⟩ := hcases x hx
    obtain ⟨r', hr', hi', hb', -⟩ := hcases x' hx'
    rw [hi, hi']
    exact h.apart r hr r' hr' o (hb ▸ ho) (hb' ▸ ho')
  · intro x hx hphase o ho
    obtain ⟨r, hr, -, hb, rfl | ⟨rfl, -⟩⟩ := hcases x hx
    · exact h.published x hr hphase o ho
    · exact hpub o (hb ▸ ho)
  · intro x hx hphase
    obtain ⟨r, hr, -, hb, rfl | ⟨rfl, rfl⟩⟩ := hcases x hx
    · exact h.deleting x hr hphase
    · rw [hb]
      exact hdel hphase
  · intro x hx hphase
    obtain ⟨r, hr, -, hb, rfl | ⟨rfl, rfl⟩⟩ := hcases x hx
    · exact h.writing x hr hphase
    · rw [hb]
      exact hwrite hphase

theorem commit (h : s.Inv svc) {c : Cycle} (hc : c ∈ s.cycles) (hphase : c.phase = .commit) :
    ({ s.close c.id with
        deleted := s.deleted ++ c.deletes
        audit := s.audit ++ c.audits } : Relays).Inv svc where
  wf := h.wf
  posted := h.posted
  cycle_ids := (h.close c.id).cycle_ids
  held := by
    intro x hx o ho
    obtain ⟨hx, hne⟩ := mem_close.mp hx
    obtain ⟨hmem, hkept⟩ := mem_table.mp (h.held x hx o ho)
    refine mem_table.mpr ⟨hmem, ?_⟩
    simp only [List.mem_append, not_or]
    refine ⟨hkept, ?_⟩
    intro hdel
    rw [(h.writing c hc hphase).1] at hdel
    obtain ⟨o', ho', hid⟩ := List.mem_map.mp hdel
    obtain rfl := h.row_unique (mem_table.mp (h.held c hc o' ho')).1 hmem hid
    exact hne (h.apart x hx c hc o' ho ho')
  apart := (h.close c.id).apart
  published := (h.close c.id).published
  deleting := (h.close c.id).deleting
  writing := (h.close c.id).writing
  safe := by
    intro o ho hdel
    rcases List.mem_append.mp hdel with hdel | hdel
    · exact h.safe o ho hdel
    · rw [(h.writing c hc hphase).1] at hdel
      obtain ⟨o', ho', hid⟩ := List.mem_map.mp hdel
      obtain rfl := h.row_unique (mem_table.mp (h.held c hc o' ho')).1 ho hid
      exact h.published c hc (by simp [hphase]) o' ho'
  rows := by
    intro i hi
    rcases List.mem_append.mp hi with hi | hi
    · exact h.rows i hi
    · rw [(h.writing c hc hphase).1] at hi
      obtain ⟨o, ho, hid⟩ := List.mem_map.mp hi
      exact ⟨o, (mem_table.mp (h.held c hc o ho)).1, hid⟩

end Inv

end Relays

/-! ## One event -/

section Step

variable {svc : Service} {s : Relays}

/-- If every result is a success, every record of the batch is acknowledged. -/
private theorem published_of_reports {cycle : Nat} {results : List (Option String)} {c : Cycle}
    (hreports : ProduceSyncReports s (.produceSync cycle results)) (hc : c ∈ s.cycles)
    (hid : c.id = cycle) (hok : results.findSome? id = none) :
    ∀ o ∈ c.batch, o.record ∈ s.acknowledged := by
  obtain ⟨hlen, hacked⟩ := hreports c hc hid
  intro o ho
  obtain ⟨i, hi, rfl⟩ := List.mem_iff_getElem.mp ho
  have hzip : (c.batch[i], results.get ⟨i, by omega⟩) ∈ c.batch.zip results := by
    rw [List.mem_iff_getElem]
    exact ⟨i, by simp; omega, by simp⟩
  refine hacked _ hzip ?_
  have hnone := List.findSome?_eq_none_iff.mp hok
  exact hnone _ (List.getElem_mem _)

theorem relayStep_inv (h : s.Inv svc) {e : RelayEvent} (hreports : ProduceSyncReports s e) :
    (relayStep svc s e).Inv svc := by
  cases e with
  | call c => exact h.call c
  | claimBatch batchSize ids =>
    simp only [relayStep]
    split
    · exact h
    · exact h
    · rename_i batch hclaim
      exact h.claim hclaim
  | acknowledge cycle index =>
    simp only [relayStep]
    split
    · exact h
    · split
      · exact h
      · exact h.acknowledge _
  | produceSync cycle results =>
    simp only [relayStep]
    split
    · exact h
    · rename_i c hat
      obtain ⟨hc, rfl, hphase⟩ := Relays.atPhase_eq hat
      split
      · exact h.close _
      · rename_i hok
        exact h.advance hc (fun _ => rfl) (fun _ => rfl)
          (published_of_reports hreports hc rfl hok) (fun hp => by cases hp) fun hp => by cases hp
  | deleteByIDs cycle err =>
    simp only [relayStep]
    split
    · exact h
    · exact h.close _
    · rename_i c hat
      obtain ⟨hc, rfl, hphase⟩ := Relays.atPhase_eq hat
      exact h.advance hc (fun _ => rfl) (fun _ => rfl)
        (h.published c hc (by simp [hphase])) (fun _ => rfl) fun hp => by cases hp
  | writeAuditEntries cycle err =>
    simp only [relayStep]
    split
    · exact h
    · exact h.close _
    · rename_i c hat
      obtain ⟨hc, rfl, hphase⟩ := Relays.atPhase_eq hat
      exact h.advance hc (fun _ => rfl) (fun _ => rfl)
        (h.published c hc (by simp [hphase])) (fun hp => by cases hp)
        fun _ => ⟨h.deleting c hc hphase, rfl⟩
  | commit cycle err =>
    simp only [relayStep]
    split
    · exact h
    · exact h.close _
    · rename_i c hat
      obtain ⟨hc, rfl, hphase⟩ := Relays.atPhase_eq hat
      exact h.commit hc hphase
  | crash cycle => exact h.close _

/-- Only a commit takes rows out of the table, and only those of its batch. -/
theorem table_kept (svc : Service) (s : Relays) (e : RelayEvent) :
    (∃ c ∈ s.cycles, c.phase = .commit ∧ e = .commit c.id none ∧
      (relayStep svc s e).audit = s.audit ++ c.audits ∧
      (relayStep svc s e).deleted = s.deleted ++ c.deletes ∧
      (relayStep svc s e).db = s.db) ∨
    ((relayStep svc s e).audit = s.audit ∧ ∀ o ∈ s.table, o ∈ (relayStep svc s e).table) := by
  cases e with
  | call c =>
    refine .inr ⟨rfl, fun o ho => ?_⟩
    obtain ⟨hmem, hkept⟩ := Relays.mem_table.mp ho
    exact Relays.mem_table.mpr ⟨(outbox_apply svc s.db c).subset hmem, hkept⟩
  | claimBatch batchSize ids =>
    simp only [relayStep]
    split <;> exact .inr ⟨rfl, fun _ ho => ho⟩
  | acknowledge cycle index =>
    simp only [relayStep]
    split
    · exact .inr ⟨rfl, fun _ ho => ho⟩
    · split <;> exact .inr ⟨rfl, fun _ ho => ho⟩
  | produceSync cycle results =>
    simp only [relayStep]
    split
    · exact .inr ⟨rfl, fun _ ho => ho⟩
    · split <;> exact .inr ⟨rfl, fun _ ho => ho⟩
  | deleteByIDs cycle err =>
    simp only [relayStep]
    split <;> exact .inr ⟨rfl, fun _ ho => ho⟩
  | writeAuditEntries cycle err =>
    simp only [relayStep]
    split <;> exact .inr ⟨rfl, fun _ ho => ho⟩
  | commit cycle err =>
    simp only [relayStep]
    split
    · exact .inr ⟨rfl, fun _ ho => ho⟩
    · exact .inr ⟨rfl, fun _ ho => ho⟩
    · rename_i c hat
      obtain ⟨hc, rfl, hphase⟩ := Relays.atPhase_eq hat
      exact .inl ⟨c, hc, hphase, rfl, rfl, rfl, rfl⟩
  | crash cycle => exact .inr ⟨rfl, fun _ ho => ho⟩

/-- A row leaves the table in the transaction that audits its job. -/
theorem deleted_iff_audited (h : s.Inv svc) (e : RelayEvent) :
    ∃ written, (relayStep svc s e).audit = s.audit ++ written ∧
      ∀ o ∈ s.table, o ∉ (relayStep svc s e).table ↔
        ∃ a ∈ written, a.kind = "DISPATCHED_VIA_BROKER" ∧ a.jobID = o.jobID := by
  rcases table_kept svc s e with ⟨c, hc, hphase, -, haudit, hdeleted, hdb⟩ | ⟨haudit, hkept⟩
  · obtain ⟨hdel, haud⟩ := h.writing c hc hphase
    refine ⟨c.audits, haudit, fun o ho => ?_⟩
    obtain ⟨hmem, hold⟩ := Relays.mem_table.mp ho
    have hrow : ∀ o' ∈ c.batch, o' ∈ s.db.outbox := fun o' ho' =>
      (Relays.mem_table.mp (h.held c hc o' ho')).1
    have hleft : o ∉ (relayStep svc s e).table ↔ o.id ∈ c.deletes := by
      rw [Relays.mem_table, hdb, hdeleted]
      simp [hmem, hold]
    rw [hleft, hdel, haud]
    constructor
    · intro hid
      obtain ⟨o', ho', hid⟩ := List.mem_map.mp hid
      obtain rfl := h.row_unique (hrow o' ho') hmem hid
      exact ⟨o'.audit, List.mem_map_of_mem ho', rfl, rfl⟩
    · rintro ⟨a, ha, -, hjob⟩
      obtain ⟨o', ho', rfl⟩ := List.mem_map.mp ha
      -- a job has one row only
      obtain rfl := h.posted.job_unique h.wf (hrow o' ho') hmem hjob
      exact List.mem_map_of_mem ho'
  · refine ⟨[], by simp [haudit], fun o ho => ?_⟩
    simp [hkept o ho]

/-- A failed cycle is gone and has changed nothing. -/
theorem failed_cycle (h : s.Inv svc) {e : RelayEvent} {c : Cycle} (hc : c ∈ s.cycles)
    (hfails : e.fails c = true) : relayStep svc s e = s.close c.id := by
  have hat := Relays.atPhase_of_mem h hc
  cases e with
  | produceSync cycle results =>
    simp only [RelayEvent.fails, Bool.and_eq_true, decide_eq_true_eq] at hfails
    obtain ⟨⟨rfl, hphase⟩, herr⟩ := hfails
    obtain ⟨err, herr⟩ := Option.isSome_iff_exists.mp herr
    rw [hphase] at hat
    simp [relayStep, hat, herr]
  | deleteByIDs cycle err =>
    simp only [RelayEvent.fails, Bool.and_eq_true, decide_eq_true_eq] at hfails
    obtain ⟨⟨rfl, hphase⟩, herr⟩ := hfails
    obtain ⟨err, rfl⟩ := Option.isSome_iff_exists.mp herr
    rw [hphase] at hat
    simp [relayStep, hat]
  | writeAuditEntries cycle err =>
    simp only [RelayEvent.fails, Bool.and_eq_true, decide_eq_true_eq] at hfails
    obtain ⟨⟨rfl, hphase⟩, herr⟩ := hfails
    obtain ⟨err, rfl⟩ := Option.isSome_iff_exists.mp herr
    rw [hphase] at hat
    simp [relayStep, hat]
  | commit cycle err =>
    simp only [RelayEvent.fails, Bool.and_eq_true, decide_eq_true_eq] at hfails
    obtain ⟨⟨rfl, hphase⟩, herr⟩ := hfails
    obtain ⟨err, rfl⟩ := Option.isSome_iff_exists.mp herr
    rw [hphase] at hat
    simp [relayStep, hat]
  | crash cycle =>
    obtain rfl : c.id = cycle := by simpa [RelayEvent.fails] using hfails
    rfl
  | _ => cases hfails

end Step

/-! ## Whole runs -/

theorem relays_inv (svc : Service) {events : List RelayEvent}
    (hreports : Run.Guarded (relayStep svc) ProduceSyncReports {} events) :
    (Run.after (relayStep svc) {} events).Inv svc :=
  Run.invariant (I := Relays.Inv svc) (fun _ _ h hr => relayStep_inv h hr) (relays_empty svc)
    hreports

/-- Outbox delivery is at least once, whatever the relays, the broker and the
    crashes do: a committed row is in the table or its record is acknowledged;
    a transaction deletes the rows whose jobs it audits; a failed cycle leaves
    its batch in place. -/
theorem outbox_at_least_once (svc : Service) (events : List RelayEvent)
    (hreports : Run.Guarded (relayStep svc) ProduceSyncReports {} events) :
    let s := Run.after (relayStep svc) {} events
    (∀ o ∈ s.db.outbox,
      o ∈ s.table ∨ ∃ r ∈ s.acknowledged, r.value = o.payload ∧ r.dedupID = o.id) ∧
    (∀ e, ∃ written, (relayStep svc s e).audit = s.audit ++ written ∧
      ∀ o ∈ s.table, o ∉ (relayStep svc s e).table ↔
        ∃ a ∈ written, a.kind = "DISPATCHED_VIA_BROKER" ∧ a.jobID = o.jobID) ∧
    ∀ e, ∀ c ∈ s.cycles, e.fails c = true →
      c ∉ (relayStep svc s e).cycles ∧ ∀ o ∈ c.batch, o ∈ (relayStep svc s e).table := by
  intro s
  have h : s.Inv svc := relays_inv svc hreports
  refine ⟨?_, deleted_iff_audited h, ?_⟩
  · intro o ho
    by_cases hdel : o.id ∈ s.deleted
    · exact .inr ⟨o.record, h.safe o ho hdel, rfl, rfl⟩
    · exact .inl (Relays.mem_table.mpr ⟨ho, hdel⟩)
  · intro e c hc hfails
    rw [failed_cycle h hc hfails]
    exact ⟨fun hmem => (Relays.mem_close.mp hmem).2 rfl, h.held c hc⟩

/-- A charge. -/
def charge : WorkflowDefinition where
  id := "charge"
  version := 1
  name := "charge"
  steps := [
    { id := "charge", name := "charge", type := .serviceTask, jobType := "charge",
      nextStep := "end" },
    { id := "end", name := "end", type := .endStep }]

/-- A first cycle publishes the charge and dies before its commit; a second one
    publishes it again. -/
def publishedTwice : List RelayEvent :=
  [.call charge.start, .claimBatch 0 [3], .acknowledge 0 0, .produceSync 0 [none],
    .deleteByIDs 0 none, .crash 0, .claimBatch 0 [3], .acknowledge 1 0, .produceSync 1 [none],
    .deleteByIDs 1 none, .writeAuditEntries 1 none, .commit 1 none]

theorem outbox_at_least_once_publishedTwice :
    let s := Run.after (relayStep (Service.ofList [charge]).onKafka) {} publishedTwice
    s.table.length = 0 ∧ s.audit = [⟨"dispatch-relay", "DISPATCHED_VIA_BROKER", 0, 2⟩] ∧
    ∀ o ∈ s.db.outbox, o ∈ s.table ∨ ∃ r ∈ s.acknowledged, r.value = o.payload ∧ r.dedupID = o.id :=
  ⟨by decide +kernel, by decide +kernel,
    (outbox_at_least_once (Service.ofList [charge]).onKafka publishedTwice (by decide +kernel)).1⟩

end Rochallor
