import Rochallor.Framework.Sweep
import Rochallor.Safety.Chains
import Rochallor.Safety.Timers

/-! # The passes of the background workers

    `ProcessPendingChains` and the timer sweeper list rows outside any
    transaction and then make one call for each row.  By the time a row's turn
    comes, other calls may have served it, fired it or deleted it; and the call
    for another row may have failed.  Both passes are `Sweep`s of the engine's
    `perform`.
-/

namespace Rochallor

variable {svc : Service}

/-! ## Chain requests -/

/-- What happens around the turn of one request. -/
structure ChainTurn where
  /-- Calls of other processes that commit before it. -/
  meanwhile : List Call
  /-- Another transaction has the row locked, and the claim skips it. -/
  held : Bool
  now : Time
  fuel : Nat

/-- The call for a listed request. -/
def ChainTurn.call (turn : ChainTurn) (r : WorkflowChain) : Call :=
  ⟨.startChain r.sourceInstanceID, turn.now, turn.fuel⟩

/-- `ProcessPendingChains`: one turn for each listed request. -/
def processPendingChains (listed : List WorkflowChain) (around : WorkflowChain → ChainTurn) :
    List (Sweep.Turn Call) :=
  listed.map fun r =>
    ⟨(around r).meanwhile, if (around r).held then none else some ((around r).call r)⟩

theorem mem_listPendingWorkflowChains {db : Db} {r : WorkflowChain} :
    r ∈ db.listPendingWorkflowChains ↔ r ∈ db.chains ∧ r.childInstanceID = none := by
  unfold Db.listPendingWorkflowChains
  rw [(List.perm_insertionSort ..).mem_iff, List.mem_filter, Option.isNone_iff_eq_none]

/-- The request of `source` has got its child. -/
def ChainDone (source : Nat) (db : Db) : Prop :=
  ∃ r ∈ db.chains, r.sourceInstanceID = source ∧ r.childInstanceID.isSome = true

theorem ChainDone.joined {source : Nat} {db : Db} (h : ChainDone source db)
    {t : List WorkflowChain} (hjoined : Joined db.chains t) :
    ∃ r ∈ t, r.sourceInstanceID = source ∧ r.childInstanceID.isSome = true := by
  obtain ⟨r, hr, hrest⟩ := h
  obtain ⟨more, rfl, -⟩ := hjoined
  exact ⟨r, List.mem_append_left _ hr, hrest⟩

/-- A served request stays served. -/
theorem chainDone_apply {db : Db} (hwf : db.WF svc) {source : Nat} (h : ChainDone source db)
    (call : Call) : ChainDone source (apply svc db call) := by
  rcases call_chains svc hwf call with ⟨-, hjoined⟩ | ⟨s, t, -, hjoined, hchains, -⟩
  · exact h.joined hjoined
  · obtain ⟨r, hr, hsource, hchild⟩ := h.joined hjoined
    unfold ChainDone
    rw [hchains]
    by_cases hs : r.sourceInstanceID = s.source
    · exact ⟨_, Table.mem_update_of hr (by simp [hs]), hsource, rfl⟩
    · exact ⟨r, Table.mem_update_of_not hr (by simp [hs]), hsource, hchild⟩

/-- A start that answers without an error leaves its request served. -/
theorem startChain_serves {db : Db} {call : Call} {source : Nat}
    (hop : call.op = .startChain source) (hok : (perform svc db call).2 = none) :
    ChainDone source (apply svc db call) := by
  obtain ⟨p, r, hp, hsettle, happly⟩ := perform_plan hok
  have hplan := hp
  rw [hop] at hplan
  have hopened := plan_opened hplan
  cases hopened with
  | ignored _ _ =>
    -- the claim has found the request served
    cases hsettle
    rw [happly]
    have hstart : startChainedWorkflow svc call.now db source = .ok (.commit db none) := hplan
    unfold startChainedWorkflow at hstart
    obtain ⟨request, hrequest, hstart⟩ := bind_eq_ok hstart
    obtain ⟨vars, -, hstart⟩ := bind_eq_ok hstart
    obtain ⟨⟨d, json⟩, -, hstart⟩ := bind_eq_ok hstart
    have hfind := orError_eq_ok hrequest
    have hmem := List.mem_of_find?_eq_some hfind
    have hsource : request.sourceInstanceID = source := by simpa using List.find?_some hfind
    simp only at hstart
    split at hstart
    · rename_i hclaim
      refine ⟨request, hmem, hsource, ?_⟩
      by_contra hnone
      rw [Bool.not_eq_true, Option.isSome_eq_false_iff] at hnone
      have hclaimed : db.claimWorkflowChain source = true :=
        List.any_eq_true.mpr ⟨request, hmem, by simp [hsource, hnone]⟩
      rw [hclaimed] at hclaim
      cases hclaim
    · obtain ⟨⟨tx, next⟩, -, hstart⟩ := bind_eq_ok hstart
      cases hstart
  | chainStarted _ d json key hd hsteps hclaim request hrequest hjson hkey =>
    obtain ⟨tx', hrun, hr⟩ := bind_eq_ok hsettle
    cases hr
    obtain ⟨more, hmore, -⟩ := (dispatchAll_joined hrun).1
    have hmem := List.mem_of_find?_eq_some hrequest
    have hsource : request.sourceInstanceID = source := by simpa using List.find?_some hrequest
    have hmem' : request ∈ tx'.db.chains := by
      rw [hmore]
      exact List.mem_append_left _ hmem
    rw [happly]
    exact ⟨_, Table.mem_update_of hmem' (by simp [hsource]), hsource, rfl⟩
  | jobReplaced _ _ _ _ _ hop' _ _ _ => rcases hop' with h | ⟨h, -⟩ <;> cases h

/-- In a pass over the pending requests every request that nobody else holds
    gets its turn, whatever has become of the others; one whose start answers
    without an error is served when the pass ends; and the pass reports an
    error if any start has. -/
theorem pending_chains_pass (svc : Service) (calls : List Call)
    (around : WorkflowChain → ChainTurn) (r : WorkflowChain) (hr : r ∈ (run svc calls).chains)
    (hpending : r.childInstanceID = none) (hfree : (around r).held = false) :
    let turns := processPendingChains (run svc calls).listPendingWorkflowChains around
    ∃ answer, ((around r).call r, answer) ∈ Sweep.outcomes (perform svc) (run svc calls) turns ∧
      (answer = none →
        ChainDone r.sourceInstanceID (Sweep.after (perform svc) (run svc calls) turns)) ∧
      (Sweep.firstError (perform svc) (run svc calls) turns = none → answer = none) := by
  intro turns
  have hlisted := mem_listPendingWorkflowChains.mpr ⟨hr, hpending⟩
  have hcalls := Sweep.outcomes_calls (perform svc) (run svc calls) turns
  have hcall : (around r).call r ∈ turns.filterMap (·.call) := by
    refine List.mem_filterMap.mpr ⟨_, List.mem_map_of_mem hlisted, ?_⟩
    simp [hfree]
  rw [← hcalls] at hcall
  obtain ⟨⟨call, answer⟩, hmem, rfl⟩ := List.mem_map.mp hcall
  refine ⟨answer, hmem, ?_, fun hnone => Sweep.firstError_none hnone hmem⟩
  rintro rfl
  -- the item of a call is the parent it starts a child for
  let Done (call : Call) (db : Db) : Prop :=
    ∀ source, call.op = .startChain source → ChainDone source db
  refine Sweep.settled (I := fun db => db.WF svc) (L := fun _ _ => True) (D := Done)
    (fun _ call hwf => wf_apply hwf call) (fun _ _ _ _ _ => trivial) ?_ ?_ (wf_run svc calls)
    (fun _ _ _ _ => trivial) _ hmem _ rfl
  · intro db call _ hwf hdone source hop
    exact chainDone_apply hwf (hdone source hop) call
  · intro db _ _ call _ _ _ hok source hop
    exact startChain_serves hop hok

/-- A workflow that ends at once and asks for the next one. -/
def handover (id next : String) : WorkflowDefinition where
  id := id
  version := 1
  name := id
  autoStartNextWorkflow := true
  nextWorkflowId := next
  steps := [{ id := "end", name := "end", type := .endStep }]

/-- A workflow of one service task. -/
def billing : WorkflowDefinition where
  id := "billing"
  version := 1
  name := "billing"
  steps := [
    { id := "bill", name := "bill", type := .serviceTask, jobType := "bill", nextStep := "end" },
    { id := "end", name := "end", type := .endStep }]

/-- The first parent asks for a workflow nobody has uploaded. -/
def handovers : Service :=
  .ofList [handover "return" "refund", handover "order" "billing", billing]

/-- The second parent gets its child in the same pass. -/
theorem pending_chains_pass_handovers :
    let calls := [(handover "return" "refund").start, (handover "order" "billing").start]
    let around := fun _ : WorkflowChain => (⟨[], false, 5, 16⟩ : ChainTurn)
    let r : WorkflowChain := ⟨2, "billing", .obj [], none, none, 0⟩
    let turns := processPendingChains (run handovers calls).listPendingWorkflowChains around
    ∃ answer, ((around r).call r, answer) ∈
        Sweep.outcomes (perform handovers) (run handovers calls) turns ∧
      (answer = none →
        ChainDone r.sourceInstanceID
          (Sweep.after (perform handovers) (run handovers calls) turns)) ∧
      (Sweep.firstError (perform handovers) (run handovers calls) turns = none →
        answer = none) :=
  pending_chains_pass handovers
    [(handover "return" "refund").start, (handover "order" "billing").start]
    (fun _ => ⟨[], false, 5, 16⟩) ⟨2, "billing", .obj [], none, none, 0⟩
    (List.mem_of_getElem? (i := 1) rfl) rfl rfl

/-! ## Due timers -/

/-- What happens around the turn of one timer. -/
structure TimerTurn where
  meanwhile : List Call
  now : Time
  fuel : Nat

/-- `ListDueBoundaryEvents`. -/
def Db.listDueBoundaryEvents (db : Db) (now : Time) : List BoundaryEventSchedule :=
  (db.boundaryEvents.filter fun r => !r.fired && decide (r.fireAt ≤ now)).insertionSort
    fun a b => a.fireAt < b.fireAt ∨ (a.fireAt = b.fireAt ∧ a.id ≤ b.id)

/-- The call for a listed timer. -/
def TimerTurn.call (turn : TimerTurn) (e : BoundaryEventSchedule) : Call :=
  ⟨.fireBoundaryEvent e.id e.instanceID, turn.now, turn.fuel⟩

/-- `sweepTimers`, under its advisory lock: one turn for each due timer. -/
def sweepTimers (due : List BoundaryEventSchedule) (around : BoundaryEventSchedule → TimerTurn) :
    List (Sweep.Turn Call) :=
  due.map fun e => ⟨(around e).meanwhile, some ((around e).call e)⟩

theorem mem_listDueBoundaryEvents {db : Db} {now : Time} {e : BoundaryEventSchedule} :
    e ∈ db.listDueBoundaryEvents now ↔
      e ∈ db.boundaryEvents ∧ e.fired = false ∧ e.fireAt ≤ now := by
  unfold Db.listDueBoundaryEvents
  rw [(List.perm_insertionSort ..).mem_iff, List.mem_filter]
  simp

/-- The timer's row, while it is there, says what it said when it was listed. -/
def SameTimer (e : BoundaryEventSchedule) (db : Db) : Prop :=
  e.id < db.nextId ∧ ∀ r ∈ db.boundaryEvents, r.id = e.id →
    r.instanceID = e.instanceID ∧ r.fireAt = e.fireAt

theorem sameTimer_invariant (svc : Service) (e : BoundaryEventSchedule) :
    TxInvariant svc (fun db => db.WF svc) (fun d tx _ => TxWF svc d tx) (fun _ _ => True)
      (fun _ => True) (SameTimer e) (fun _ tx _ => SameTimer e tx.db) where
  opening := by
    intro db op now p _ hwf h _ hop
    obtain ⟨hlt, hsame⟩ := h
    have key : SameTimer e p.tables := by
      refine ⟨Nat.lt_of_lt_of_le hlt hop.statuses.nextId_le, ?_⟩
      intro r hr hrid
      cases hop.timers with
      | same op hrows hidle => exact hsame r (hrows ▸ hr) hrid
      | claimed eventID inst event hinst hevent hfate hrows =>
        -- a claim writes `fired` only
        rw [hrows] at hr
        obtain ⟨r₀, hr₀, rfl⟩ := Table.mem_update.mp hr
        have hid₀ : r₀.id = e.id := by
          rw [← hrid]
          split <;> rfl
        have hold := hsame r₀ hr₀ hid₀
        split
        · exact hold
        · exact hold
      | swept retention hrows =>
        rw [hrows] at hr
        exact hsame r (List.mem_filter.mp hr).1 hrid
    cases p with
    | commit db reply => exact key
    | dispatch d tx steps => exact key
    | chain d tx steps source => exact key
  step := by
    intro now d tx step pending tx' next _ h _ hfind hdisp
    obtain ⟨hlt, hsame⟩ := h
    rcases hdisp.timer_view with ⟨-, hrows, hn⟩ | ⟨-, rows, start, hrows, -, hids, -, hstart, hn⟩
    · exact ⟨by omega, fun r hr hrid => hsame r (hrows ▸ hr) hrid⟩
    · refine ⟨by omega, ?_⟩
      intro r hr hrid
      rw [hrows] at hr
      rcases List.mem_append.mp hr with hr | hr
      · exact hsame r hr hrid
      · -- a new row has a new id
        have hnew : r.id ∈ List.range' start rows.length := hids ▸ List.mem_map_of_mem hr
        rw [List.mem_range'_1] at hnew
        omega
  closing := fun _ h => h
  acknowledge := fun h => h

theorem sameTimer_apply {e : BoundaryEventSchedule} {db : Db} (hwf : db.WF svc)
    (h : SameTimer e db) (call : Call) : SameTimer e (apply svc db call) :=
  (((wf_invariant svc).and (sameTimer_invariant svc e)).apply ⟨hwf, h⟩ trivial
    fun _ _ => trivial).2

/-- A firing that answers without an error leaves the timer spent. -/
theorem fireBoundaryEvent_spends {db : Db} (hwf : db.WF svc) {call : Call}
    {e : BoundaryEventSchedule} (hop : call.op = .fireBoundaryEvent e.id e.instanceID)
    (hdue : e.fireAt ≤ call.now) (hsame : SameTimer e db)
    (hok : (perform svc db call).2 = none) : Spent [e.id] (apply svc db call) := by
  obtain ⟨p, r, hp, hsettle, happly⟩ := perform_plan hok
  have ht : transact svc db call = .ok r := by
    unfold transact
    rw [hp]
    exact hsettle
  have htimers := (plan_opened hp).timers
  generalize hop' : call.op = op at htimers
  cases htimers with
  | same op hrows hidle =>
    -- nothing was due, so the row is fired or gone
    obtain ⟨hnone, rfl⟩ := hidle _ _ (hop'.symm.trans hop)
    cases hsettle
    rw [happly]
    intro id hid
    obtain rfl := List.mem_singleton.mp hid
    refine ⟨hsame.1, ?_⟩
    intro r hr hrid
    obtain ⟨hinst, hat⟩ := hsame.2 r hr hrid
    by_contra hnot
    have hunfired : r.fired = false := by
      rw [not_or, Bool.not_eq_true] at hnot
      exact hnot.1
    have hdue' : Db.dueEvent call.now e.id e.instanceID r = true :=
      dueEvent_iff.mpr ⟨hrid, hinst, hunfired, hat ▸ hdue⟩
    exact absurd hdue' (List.find?_eq_none.mp hnone r hr)
  | swept retention hrows =>
    rw [hop] at hop'
    cases hop'
  | claimed eventID inst event hinst hevent hfate hrows =>
    rw [hop] at hop'
    obtain ⟨hide, hidi⟩ := Op.fireBoundaryEvent.inj hop'
    rw [← hidi] at hinst hevent
    rw [← hide] at hevent
    have hid : event.id = e.id := (dueEvent_iff.mp (List.find?_some hevent)).1
    have hclaim : (⟨event, inst.status, (dispatches svc db call).head?.any fun x =>
        decide (x.stepID = event.targetStepID)⟩ : TimerClaim) ∈ claims svc db call := by
      unfold claims
      rw [hop, ht]
      simp only [hinst, hevent, List.mem_singleton]
    rw [← hid]
    exact claims_spent hwf hclaim

/-- In a sweep every timer that was due gets its turn, whatever has become of
    the others; and one whose firing answers without an error is spent when the
    sweep ends: it is fired or deleted, or its step has left `RUNNING`. -/
theorem due_timers_pass (svc : Service) (calls : List Call) (now : Time)
    (around : BoundaryEventSchedule → TimerTurn) (hclock : ∀ e, now ≤ (around e).now)
    (e : BoundaryEventSchedule) (he : e ∈ (run svc calls).boundaryEvents)
    (hunfired : e.fired = false) (hdue : e.fireAt ≤ now) :
    let turns := sweepTimers ((run svc calls).listDueBoundaryEvents now) around
    ∃ answer, ((around e).call e, answer) ∈ Sweep.outcomes (perform svc) (run svc calls) turns ∧
      (answer = none → Spent [e.id] (Sweep.after (perform svc) (run svc calls) turns)) := by
  intro turns
  have hwf := wf_run svc calls
  have hlisted := mem_listDueBoundaryEvents.mpr ⟨he, hunfired, hdue⟩
  have hcalls := Sweep.outcomes_calls (perform svc) (run svc calls) turns
  have hcall : (around e).call e ∈ turns.filterMap (·.call) :=
    List.mem_filterMap.mpr ⟨_, List.mem_map_of_mem hlisted, rfl⟩
  rw [← hcalls] at hcall
  obtain ⟨⟨call, answer⟩, hmem, rfl⟩ := List.mem_map.mp hcall
  refine ⟨answer, hmem, ?_⟩
  rintro rfl
  -- the item of a call is the timer it fires, listed as long as its row says the same
  let Listed (call : Call) (db : Db) : Prop := ∀ id instanceID,
    call.op = .fireBoundaryEvent id instanceID → ∃ e : BoundaryEventSchedule,
      e.id = id ∧ e.instanceID = instanceID ∧ e.fireAt ≤ call.now ∧ SameTimer e db
  let Done (call : Call) (db : Db) : Prop := ∀ id instanceID,
    call.op = .fireBoundaryEvent id instanceID → Spent [id] db
  refine Sweep.settled (I := fun db => db.WF svc) (L := Listed) (D := Done)
    (fun _ call hwf => wf_apply hwf call) ?_ ?_ ?_ hwf ?_ _ hmem e.id e.instanceID rfl
  · intro db call item hwf hlist id instanceID hop
    obtain ⟨e, hid, hinst, hat, hsame⟩ := hlist id instanceID hop
    exact ⟨e, hid, hinst, hat, sameTimer_apply hwf hsame call⟩
  · intro db call item hwf hdone id instanceID hop
    exact spent_apply hwf (hdone id instanceID hop) call
  · intro db turn _ item _ hwf hlist hok id instanceID hop
    obtain ⟨e, rfl, rfl, hat, hsame⟩ := hlist id instanceID hop
    exact fireBoundaryEvent_spends hwf hop hat hsame hok
  · intro turn hturn item hitem id instanceID hop
    obtain ⟨e', he', rfl⟩ := List.mem_map.mp hturn
    obtain rfl := Option.some.inj hitem
    obtain ⟨rfl, rfl⟩ := Op.fireBoundaryEvent.inj hop
    obtain ⟨hmem', -, hdue'⟩ := mem_listDueBoundaryEvents.mp he'
    refine ⟨e', rfl, rfl, Int.le_trans hdue' (hclock e'), hwf.timer_lt hmem', ?_⟩
    intro r hr hrid
    obtain rfl := hwf.timer_eq hr hmem' hrid
    exact ⟨rfl, rfl⟩

/-- A review that is reminded of after a second. -/
def remindedReview : WorkflowDefinition where
  id := "review"
  version := 1
  name := "review"
  steps := [
    { id := "review", name := "review", type := .userTask, nextStep := "end",
      boundaryEvents := [⟨.timer, "PT1S", false, "remind"⟩] },
    { id := "remind", name := "remind", type := .serviceTask, jobType := "remind",
      nextStep := "end" },
    { id := "end", name := "end", type := .endStep }]

theorem due_timers_pass_review :
    let svc := Service.ofList [remindedReview]
    let e : BoundaryEventSchedule := ⟨3, 0, 1, "remind", 1000000000, false, false⟩
    let around := fun _ : BoundaryEventSchedule => (⟨[], 2000000001, 16⟩ : TimerTurn)
    let turns := sweepTimers ((run svc [remindedReview.start]).listDueBoundaryEvents 2000000000)
      around
    ∃ answer, ((around e).call e, answer) ∈
        Sweep.outcomes (perform svc) (run svc [remindedReview.start]) turns ∧
      (answer = none →
        Spent [e.id] (Sweep.after (perform svc) (run svc [remindedReview.start]) turns)) :=
  due_timers_pass (.ofList [remindedReview]) [remindedReview.start] 2000000000
    (fun _ => ⟨[], 2000000001, 16⟩) (fun _ => by decide)
    ⟨3, 0, 1, "remind", 1000000000, false, false⟩ (by decide +kernel) rfl (by decide)

end Rochallor
