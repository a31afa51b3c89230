import Rochallor.Framework.Firsts
import Rochallor.Instance.Written
import Rochallor.Safety.Lifecycle

/-! # Chained workflows

    A parent that reaches `END` asks for its next workflow in the transaction
    that completes it; the request is a row of `workflow_chain`.  A worker
    starts the child and writes its id on the request, again in one
    transaction.  A parent can reach `END` more than once, and any number of
    workers list the same requests.

    Two histories say what a run has asked for and what it has started: its
    dispatches and its chain starts.  The table is a function of the two: one
    row for each parent that has asked, as it asked first, with the child
    started for it.
-/

namespace Rochallor

/-- The request as it was made, whatever has become of it since. -/
def WorkflowChain.asked (r : WorkflowChain) : WorkflowChain :=
  { r with childInstanceID := none }

/-- The request a dispatch makes: `END` of a definition with a next workflow. -/
def Dispatch.request (x : Dispatch) : Option WorkflowChain :=
  match findStep x.definition x.stepID with
  | none => none
  | some step =>
    if step.type = .endStep ∧ x.definition.autoStartNextWorkflow = true ∧
        x.definition.nextWorkflowId.isEmpty = false then
      some (chainRequest x.now x.definition x.tx.inst)
    else none

/-! ## Requests -/

/-- The table with one more request, if there is one. -/
def ask (t : List WorkflowChain) : Option WorkflowChain → List WorkflowChain
  | none => t
  | some r => Firsts.insert (·.sourceInstanceID) t r

theorem insertWorkflowChain_eq (db : Db) (r : WorkflowChain) :
    (db.insertWorkflowChain r).chains = Firsts.insert (·.sourceInstanceID) db.chains r := by
  rfl

/-- A dispatch writes to the chain table only when it ends the instance. -/
theorem Dispatched.chains {svc : Service} {now : Time} {d : WorkflowDefinition} {tx tx' : Tx}
    {step : WorkflowStep} {next : List StepId} (h : Dispatched svc now d tx step tx' next)
    (hfind : findStep d step.id = some step) (pending : List StepId) :
    tx'.db.chains = ask tx.db.chains (Dispatch.request ⟨now, d, tx, step.id, pending⟩) := by
  -- every other type of step leaves the table alone
  have hother : step.type ≠ .endStep → tx'.db.chains = tx.db.chains →
      tx'.db.chains = ask tx.db.chains (Dispatch.request ⟨now, d, tx, step.id, pending⟩) := by
    intro htype hsame
    rw [hsame]
    simp [Dispatch.request, hfind, htype, ask]
  cases h with
  | service job rows htype hrows hids hjob =>
    refine hother (by simp [htype]) ?_
    simp
  | user rows htype hrows hids => exact hother (by simp [htype]) rfl
  | wait rows htype hrows hids => exact hother (by simp [htype]) rfl
  | route g vars next htype hpass hnext hmerged hwrites =>
    refine hother ?_ rfl
    rcases htype with htype | htype <;> simp [htype]
  | fork htype => exact hother (by simp [htype]) rfl
  | transform g vars htype hpass hmerged hwrites => exact hother (by simp [htype]) rfl
  | hold gateway htype hgateway hcount => exact hother (by simp [htype]) rfl
  | join gateway htype hgateway hcount => exact hother (by simp [htype]) rfl
  | finish chains htype ids hids hchains =>
    show chains = _
    rw [hchains]
    by_cases hauto : d.autoStartNextWorkflow && !d.nextWorkflowId.isEmpty
    · rw [if_pos hauto, insertWorkflowChain_eq]
      rw [Bool.and_eq_true, Bool.not_eq_true'] at hauto
      have hrequest : Dispatch.request ⟨now, d, tx, step.id, pending⟩ =
          some (chainRequest now d tx.inst) := by
        simp only [Dispatch.request, hfind]
        rw [if_pos ⟨htype, hauto⟩]
      rw [hrequest]
      rfl
    · rw [if_neg hauto]
      rw [Bool.and_eq_true, Bool.not_eq_true'] at hauto
      have hrequest : Dispatch.request ⟨now, d, tx, step.id, pending⟩ = none := by
        simp only [Dispatch.request, hfind]
        rw [if_neg fun h => hauto h.2]
      rw [hrequest]
      rfl
  | fail reason htype hfails hreason =>
    refine hother ?_ rfl
    rcases htype with htype | htype | htype <;> simp [htype]

theorem Advanced.chains {now : Time} {d : WorkflowDefinition} {tx tx' : Tx} {step : WorkflowStep}
    {next : List StepId} (h : Advanced now d tx step tx' next) : tx'.db.chains = tx.db.chains := by
  cases h <;> rfl

/-- No operation touches the chain table before its dispatches. -/
theorem Opened.chains {svc : Service} {now : Time} {db : Db} {op : Op} {p : Plan}
    (h : Opened svc now db op p) : p.tables.chains = db.chains := by
  cases h with
  | jobAdvanced jobID workerID vars job se inst d step g json tx next hcb hacc hd hstep hadv =>
    exact hadv.chains
  | userTaskCompleted stepID vars inst d step result merged g tx next hinst hflight hd hstep htype
      hrows hadv => exact hadv.chains
  | waitSignalled stepID vars inst d step merged g tx next hinst hflight hd hstep htype hrows
      hadv => exact hadv.chains
  | jobRetried => simp [Plan.tables, enqueueReplacement]
  | jobReplaced => simp [Plan.tables, enqueueReplacement]
  | polled workerID jobTypes max seconds lease rowLocked =>
    obtain ⟨jobs, heq⟩ := db.pollJobs_tables now workerID jobTypes max lease rowLocked
    simp [Plan.tables, heq]
  | _ => rfl

/-- The requests in a table, as they were made. -/
def Db.requests (db : Db) : List WorkflowChain :=
  db.chains.map WorkflowChain.asked

theorem requests_completeWorkflowChain (db : Db) (source child : Nat) :
    (db.completeWorkflowChain source child).requests = db.requests := by
  exact Table.map_update _ fun _ _ => rfl

/-- What a dispatch does to the requests. -/
theorem requests_ask {t : List WorkflowChain} {o : Option WorkflowChain}
    (ho : ∀ r, o = some r → r.childInstanceID = none) :
    (ask t o).map WorkflowChain.asked = ask (t.map WorkflowChain.asked) o := by
  cases o with
  | none => rfl
  | some r =>
    have hr : r.asked = r := by
      have hnone := ho r rfl
      cases r
      cases hnone
      rfl
    have hany : (t.map WorkflowChain.asked).any
        (fun r' => decide (r'.sourceInstanceID = r.sourceInstanceID)) =
        t.any fun r' => decide (r'.sourceInstanceID = r.sourceInstanceID) := by
      rw [List.any_map]
      rfl
    simp only [ask, Firsts.insert, hany]
    split
    · rfl
    · rw [List.map_append, List.map_singleton, hr]

theorem Dispatch.request_unserved {x : Dispatch} {r : WorkflowChain} (h : x.request = some r) :
    r.childInstanceID = none := by
  unfold Dispatch.request at h
  split at h
  · cases h
  · split at h
    · cases h
      rfl
    · cases h

/-- The requests of the dispatches so far, the first of each parent. -/
def requestsOf (past : List Dispatch) : List WorkflowChain :=
  Firsts.keep (·.sourceInstanceID) (past.filterMap Dispatch.request)

theorem requestsOf_concat (past : List Dispatch) (x : Dispatch) :
    requestsOf (past ++ [x]) = ask (requestsOf past) x.request := by
  unfold requestsOf
  rw [List.filterMap_append]
  cases hx : x.request with
  | none => simp [hx, ask]
  | some r => simp [hx, ask, Firsts.keep_concat]

/-- The table holds what the dispatches have asked for. -/
theorem requests_history (svc : Service) :
    TxHistory svc (fun db => db.WF svc) (fun d tx _ => TxWF svc d tx)
      (fun db past => db.requests = requestsOf past)
      (fun _ tx past => tx.db.requests = requestsOf past) where
  opening := by
    intro db op now p past _ hI hop
    have hsame : p.tables.requests = requestsOf past := by
      rw [← hI]
      unfold Db.requests
      rw [hop.chains]
    cases p with
    | commit db' reply => exact hsame
    | dispatch d tx steps => exact hsame
    | chain d tx steps source => exact hsame
  step := by
    intro now d tx step pending tx' next past _ hJ hfind hdisp
    have hchains := hdisp.chains hfind pending
    rw [requestsOf_concat, ← hJ]
    unfold Db.requests
    rw [hchains]
    exact requests_ask fun r hr => Dispatch.request_unserved hr
  closing := fun _ hJ => hJ
  acknowledge := by
    intro db source child past hI
    rwa [requests_completeWorkflowChain]

theorem requests_run (svc : Service) (calls : List Call) :
    (run svc calls).requests = requestsOf (runDispatches svc calls) :=
  (requests_history svc).run (wf_invariant svc) (wf_empty svc) rfl calls

theorem chain_sources_nodup (svc : Service) (calls : List Call) :
    ((run svc calls).chains.map (·.sourceInstanceID)).Nodup := by
  have hmap : (run svc calls).chains.map (·.sourceInstanceID) =
      (run svc calls).requests.map (·.sourceInstanceID) := by
    unfold Db.requests
    rw [List.map_map]
    rfl
  rw [hmap, requests_run]
  exact Firsts.keys_nodup _

/-- Every request is the snapshot of its parent's first `END`, a parent has at
    most one, and every parent that has asked has one. -/
theorem chain_requests (svc : Service) (calls : List Call) :
    ((run svc calls).chains.map (·.sourceInstanceID)).Nodup ∧
    (∀ r ∈ (run svc calls).chains, ∃ before x after,
      runDispatches svc calls = before ++ x :: after ∧ x.request = some r.asked ∧
      ∀ y ∈ before, ∀ q, y.request = some q → q.sourceInstanceID ≠ r.sourceInstanceID) ∧
    ∀ x ∈ runDispatches svc calls, ∀ q, x.request = some q →
      ∃ r ∈ (run svc calls).chains, r.sourceInstanceID = q.sourceInstanceID := by
  have hrun := requests_run svc calls
  refine ⟨chain_sources_nodup svc calls, ?_, ?_⟩
  · intro r hr
    have hasked : r.asked ∈ requestsOf (runDispatches svc calls) := by
      rw [← hrun]
      exact List.mem_map_of_mem hr
    obtain ⟨before, after, hsplit, hfirst⟩ := Firsts.kept_first hasked
    -- the first request of the parent, among the requests and then among the dispatches
    obtain ⟨before', rest, hpast, hbefore, hrest⟩ := List.filterMap_eq_append_iff.mp hsplit
    obtain ⟨silent, x, after', rfl, hsilent, hx, -⟩ := List.filterMap_eq_cons_iff.mp hrest
    refine ⟨before' ++ silent, x, after', by simp [hpast], hx, ?_⟩
    intro y hy q hq
    rcases List.mem_append.mp hy with hy | hy
    · refine hfirst q ?_
      rw [← hbefore]
      exact List.mem_filterMap.mpr ⟨y, hy, hq⟩
    · rw [hsilent y hy] at hq
      cases hq
  · intro x hx q hq
    obtain ⟨q', hq', hsource⟩ := Firsts.key_kept
      (fun r : WorkflowChain => r.sourceInstanceID) (List.mem_filterMap.mpr ⟨x, hx, hq⟩)
    have hmem : q' ∈ (run svc calls).requests := by
      rw [hrun]
      exact hq'
    obtain ⟨r, hr, rfl⟩ := List.mem_map.mp hmem
    exact ⟨r, hr, hsource⟩

/-! ## Children -/

/-- A child started for a parent, as it was inserted. -/
structure ChainStart where
  source : Nat
  child : WorkflowInstance

/-- The child a call starts, if the call commits. -/
def chainStarts (svc : Service) (db : Db) (call : Call) : List ChainStart :=
  match transact svc db call, plan svc call.now db call.op with
  | .ok _, .ok (.chain _ tx _ source) => [⟨source, tx.inst⟩]
  | _, _ => []

/-- All children a run starts. -/
def runChainStarts (svc : Service) (calls : List Call) : List ChainStart :=
  Run.outputs (apply svc) (chainStarts svc) {} calls

/-- The child is what the request asks for: the latest version of its target
    at some time, the parent's business key unless it is empty, and the
    parent's variables, each decoded and written back. -/
structure StartedFor (svc : Service) (r : WorkflowChain) (child : WorkflowInstance) : Prop where
  definition : ∃ now d, svc.defRepo.getLatest now r.targetDefinitionID = .ok d ∧
    child.definitionID = d.id ∧ child.definitionVersion = d.version
  businessKey : child.businessKey = r.businessKey.filter fun k => !k.isEmpty
  vars : ∀ k, memberOf child.vars k = (memberOf r.vars k).bind Json.decoded

theorem StartedFor.of_asked {svc : Service} {r r' : WorkflowChain} {child : WorkflowInstance}
    (h : StartedFor svc r child) (hasked : r'.asked = r.asked) : StartedFor svc r' child := by
  unfold WorkflowChain.asked at hasked
  simp only [WorkflowChain.mk.injEq] at hasked
  obtain ⟨-, htarget, hvars, hkey, -⟩ := hasked
  exact ⟨by rw [htarget]; exact h.definition, by rw [hkey]; exact h.businessKey,
    by rw [hvars]; exact h.vars⟩

/-- A document that is decoded and written back, member by member. -/
theorem memberOf_rewritten {raw json : Json} {m : GoMap Value} (hm : variablesToMap raw = .ok m)
    (hjson : (Value.obj m).marshal = .ok json) (k : String) :
    memberOf json k = (memberOf raw k).bind Json.decoded := by
  obtain ⟨hnodup, hread⟩ := variablesToMap_ok hm
  obtain ⟨p, hp, rfl⟩ := marshal_obj_ok.mp hjson
  cases raw with
  | obj ms =>
    obtain ⟨vs, hvs, hget⟩ := hread ms rfl
    have hmerged := @get_merged ms vs m [] [] p hvs (fun k => by rw [hget]; rfl) hp rfl k
    show GoMap.last (sortByKey p) k = _
    rw [last_sortByKey hnodup hp, hmerged]
    rfl
  | null =>
    cases hm
    cases hp
    rfl
  | _ => cases hm

/-- What `startChainedWorkflow` has checked when it inserts the child. -/
theorem startChain_plan {svc : Service} {now : Time} {db : Db} {op : Op} {d : WorkflowDefinition}
    {tx : Tx} {steps : List StepId} {source : Nat}
    (h : plan svc now db op = .ok (.chain d tx steps source)) :
    ∃ r ∈ db.chains, r.sourceInstanceID = source ∧ StartedFor svc r tx.inst ∧
      db.claimWorkflowChain source = true ∧ tx.inst.id = db.nextId ∧
      tx.db = db.addInstance tx.inst := by
  cases plan_opened h with
  | chainStarted _ _ json key hd hsteps hclaim request hrequest hjson hkey =>
    have hmem := List.mem_of_find?_eq_some hrequest
    have hsource : request.sourceInstanceID = source := by
      simpa using List.find?_some hrequest
    refine ⟨request, hmem, hsource, ⟨?_, ?_, ?_⟩, hclaim, rfl, rfl⟩
    · -- the definition is the one `prepareStart` has looked up
      have hplan : startChainedWorkflow svc now db source = .ok (.chain d (startTx db d json key)
        [(d.steps.map (·.id)).headD ""] source) := h
      unfold startChainedWorkflow at hplan
      obtain ⟨request', hrequest', hplan⟩ := bind_eq_ok hplan
      obtain ⟨vars, -, hplan⟩ := bind_eq_ok hplan
      obtain ⟨⟨d', json'⟩, hprep, hplan⟩ := bind_eq_ok hplan
      obtain rfl : request = request' := by
        have := orError_eq_ok hrequest'
        rw [hrequest] at this
        exact Option.some.inj this
      simp only at hplan
      split at hplan
      · cases hplan
      · obtain ⟨⟨tx', next⟩, -, hplan⟩ := bind_eq_ok hplan
        cases hplan
        unfold prepareStart at hprep
        obtain ⟨d'', hd'', hprep⟩ := bind_eq_ok hprep
        rw [if_pos (Int.le_refl 0)] at hd''
        simp only at hprep
        split at hprep
        · cases hprep
        split at hprep
        · cases hprep
        obtain ⟨_, -, hprep⟩ := bind_eq_ok hprep
        cases hprep
        exact ⟨now, _, hd'', rfl, rfl⟩
    · show key = _
      rw [hkey]
      cases hbk : request.businessKey with
      | none => rfl
      | some k =>
        by_cases hk : k.isEmpty = true <;> simp [hk, Option.filter]
    · obtain ⟨m, hm, hmarshal⟩ := hjson
      exact memberOf_rewritten hm hmarshal

/-- The new rows are unserved requests of parents that had none. -/
def Joined (t t' : List WorkflowChain) : Prop :=
  ∃ more, t' = t ++ more ∧
    ∀ r ∈ more, r.childInstanceID = none ∧ ∀ r' ∈ t, r'.sourceInstanceID ≠ r.sourceInstanceID

theorem Joined.refl (t : List WorkflowChain) : Joined t t :=
  ⟨[], by simp, fun _ hr => absurd hr List.not_mem_nil⟩

theorem Joined.ask {t t' : List WorkflowChain} (h : Joined t t') {o : Option WorkflowChain}
    (ho : ∀ r, o = some r → r.childInstanceID = none) : Joined t (ask t' o) := by
  obtain ⟨more, rfl, hmore⟩ := h
  cases o with
  | none => exact ⟨more, rfl, hmore⟩
  | some r =>
    show Joined t (Firsts.insert (·.sourceInstanceID) (t ++ more) r)
    rcases Firsts.insert_cases (fun r : WorkflowChain => r.sourceInstanceID) (t ++ more) r
      with ⟨-, heq⟩ | ⟨hfresh, heq⟩
    · rw [heq]
      exact ⟨more, rfl, hmore⟩
    · rw [heq]
      refine ⟨more ++ [r], by simp, ?_⟩
      intro r' hr'
      rcases List.mem_append.mp hr' with hr' | hr'
      · exact hmore r' hr'
      · obtain rfl := List.mem_singleton.mp hr'
        exact ⟨ho _ rfl, fun r'' hr'' => hfresh r'' (List.mem_append_left _ hr'')⟩

/-- The dispatches of a call add requests, and stay on their instance. -/
theorem dispatchAll_joined {svc : Service} {now : Time} {d : WorkflowDefinition} {fuel : Nat}
    {tx tx' : Tx} {steps : List StepId} (hrun : dispatchAll svc now d fuel tx steps = .ok tx') :
    Joined tx.db.chains tx'.db.chains ∧ tx'.inst.id = tx.inst.id := by
  let J (t : Tx) (_ : List StepId) : Prop :=
    Joined tx.db.chains t.db.chains ∧ t.inst.id = tx.inst.id
  refine Agenda.run_invariant (J := J) (G := fun _ => True) ?_ ⟨.refl _, rfl⟩
    (fun _ _ => trivial) hrun
  intro t stepID pending t' next hJ _ hs
  obtain ⟨step, hfind, hdisp⟩ := dispatchStep_dispatched hs
  obtain rfl := findStep_id hfind
  obtain ⟨f, hv⟩ := hdisp.instance_view
  refine ⟨?_, (congrArg InstanceKey.id hv.inst_key).trans hJ.2⟩
  rw [hdisp.chains hfind pending]
  exact hJ.1.ask fun r hr => Dispatch.request_unserved hr

/-- What a call does to the chain table: it adds requests, and a call that
    starts a child acknowledges one request that was there unserved. -/
theorem call_chains (svc : Service) {db : Db} (hwf : db.WF svc) (call : Call) :
    (chainStarts svc db call = [] ∧ Joined db.chains (apply svc db call).chains) ∨
    ∃ s t, chainStarts svc db call = [s] ∧ Joined db.chains t ∧
      (apply svc db call).chains =
        Table.update (fun r => decide (r.sourceInstanceID = s.source))
          (fun r => { r with childInstanceID := some s.child.id }) t ∧
      (∃ r ∈ db.chains, r.sourceInstanceID = s.source ∧ StartedFor svc r s.child) ∧
      db.claimWorkflowChain s.source = true ∧ s.child.id = db.nextId ∧
      ∃ row ∈ (apply svc db call).instances, row.key = s.child.key := by
  cases ht : transact svc db call with
  | error e =>
    -- the transaction is rolled back
    have hsame : apply svc db call = db := by
      unfold apply perform
      rw [ht]
    refine .inl ⟨by simp [chainStarts, ht], ?_⟩
    rw [hsame]
    exact .refl _
  | ok r =>
    obtain ⟨p, hp, hsettle⟩ := bind_eq_ok ht
    have happly := apply_of_plan hp hsettle
    have hchains := (plan_opened hp).chains
    cases p with
    | commit db' reply =>
      cases hsettle
      refine .inl ⟨by simp [chainStarts, ht, hp], ?_⟩
      rw [happly]
      show Joined db.chains db'.chains
      rw [show db'.chains = db.chains from hchains]
      exact .refl _
    | dispatch d tx steps =>
      obtain ⟨tx', hrun, hr⟩ := bind_eq_ok hsettle
      cases hr
      refine .inl ⟨by simp [chainStarts, ht, hp], ?_⟩
      rw [happly, ← show tx.db.chains = db.chains from hchains]
      exact (dispatchAll_joined hrun).1
    | chain d tx steps source =>
      obtain ⟨tx', hrun, hr⟩ := bind_eq_ok hsettle
      obtain ⟨hjoined, hid⟩ := dispatchAll_joined hrun
      obtain ⟨request, hmem, hsource, hfor, hclaim, hnew, hins⟩ := startChain_plan hp
      refine .inr ⟨⟨source, tx.inst⟩, tx'.db.chains, by simp [chainStarts, ht, hp], ?_, ?_,
        ⟨request, hmem, hsource, hfor⟩, hclaim, hnew, ?_⟩
      · rw [← show tx.db.chains = db.chains from hchains]
        exact hjoined
      · rw [happly]
        cases hr
        show (tx'.db.completeWorkflowChain source tx'.inst.id).chains = _
        rw [hid]
        rfl
      · -- the child's row is found again when its first dispatches are done
        have hev := evolves_settle hwf hp hsettle
        have hrow : tx.inst ∈ tx.db.instances := by
          rw [hins]
          exact List.mem_append_right _ (List.mem_singleton_self _)
        obtain ⟨row, hrow', hkey⟩ := hev.instances.mem hrow
        rw [happly]
        exact ⟨row, hrow', hkey⟩

/-- The chain table and the children started so far. -/
structure Served (svc : Service) (db : Db) (past : List ChainStart) : Prop where
  sources : (past.map (·.source)).Nodup
  ids : past.Pairwise fun s s' => s.child.id < s'.child.id
  served : ∀ r ∈ db.chains, ∀ c, r.childInstanceID = some c ↔
    ∃ s ∈ past, s.source = r.sourceInstanceID ∧ s.child.id = c
  requested : ∀ s ∈ past, ∃ r ∈ db.chains, r.sourceInstanceID = s.source ∧
    StartedFor svc r s.child
  rows : ∀ s ∈ past, ∃ row ∈ db.instances, row.key = s.child.key

theorem Served.id_lt {svc : Service} {db : Db} {past : List ChainStart} (h : Served svc db past)
    (hwf : db.WF svc) {s : ChainStart} (hs : s ∈ past) : s.child.id < db.nextId := by
  obtain ⟨row, hrow, hkey⟩ := h.rows s hs
  have hlt := hwf.shape.instance_ids.lt row.id (by
    simp only [Db.shape, List.map_map]
    exact List.mem_map_of_mem hrow)
  have hid : row.id = s.child.id := congrArg InstanceKey.id hkey
  rwa [← hid]

/-- More requests: none of the new ones is served. -/
theorem Served.joined {svc : Service} {db db' : Db} {past : List ChainStart}
    (h : Served svc db past) (hchains : Joined db.chains db'.chains)
    (hrows : ∀ row ∈ db.instances, ∃ row' ∈ db'.instances, row'.key = row.key) :
    Served svc db' past := by
  obtain ⟨more, heq, hmore⟩ := hchains
  refine ⟨h.sources, h.ids, ?_, ?_, ?_⟩
  · intro r hr c
    rw [heq] at hr
    rcases List.mem_append.mp hr with hr | hr
    · exact h.served r hr c
    · obtain ⟨hnone, hfresh⟩ := hmore r hr
      rw [hnone]
      constructor
      · intro hc
        cases hc
      · rintro ⟨s, hs, hsource, -⟩
        obtain ⟨r', hr', hr's, -⟩ := h.requested s hs
        exact absurd (hr's.trans hsource) (hfresh r' hr')
  · intro s hs
    obtain ⟨r, hr, hrest⟩ := h.requested s hs
    exact ⟨r, heq ▸ List.mem_append_left _ hr, hrest⟩
  · intro s hs
    obtain ⟨row, hrow, hkey⟩ := h.rows s hs
    obtain ⟨row', hrow', hkey'⟩ := hrows row hrow
    exact ⟨row', hrow', hkey'.trans hkey⟩

/-- One more child: its request was unserved until now. -/
theorem Served.start {svc : Service} {db : Db} {past : List ChainStart} (h : Served svc db past)
    {s : ChainStart} {t : List WorkflowChain} {db' : Db} (hjoined : Joined db.chains t)
    (hchains : db'.chains = Table.update (fun r => decide (r.sourceInstanceID = s.source))
      (fun r => { r with childInstanceID := some s.child.id }) t)
    (hrequest : ∃ r ∈ db.chains, r.sourceInstanceID = s.source ∧ StartedFor svc r s.child)
    (hclaim : db.claimWorkflowChain s.source = true) (hnew : ∀ s' ∈ past, s'.child.id < s.child.id)
    (hrow : ∃ row ∈ db'.instances, row.key = s.child.key)
    (hrows : ∀ row ∈ db.instances, ∃ row' ∈ db'.instances, row'.key = row.key) :
    Served svc db' (past ++ [s]) := by
  -- the request is the one that was claimed, so no child was started for it before
  have hunserved : ∀ s' ∈ past, s'.source ≠ s.source := by
    intro s' hs' hsource
    obtain ⟨r, hr, hclaimed⟩ := List.any_eq_true.mp hclaim
    simp only [Bool.and_eq_true, decide_eq_true_eq, Option.isNone_iff_eq_none] at hclaimed
    have hserved := (h.served r hr s'.child.id).mpr ⟨s', hs', hsource.trans hclaimed.1.symm, rfl⟩
    rw [hclaimed.2] at hserved
    cases hserved
  have h' : Served svc { db' with chains := t } past := h.joined hjoined hrows
  refine ⟨?_, ?_, ?_, ?_, ?_⟩
  · rw [List.map_append, List.nodup_append]
    refine ⟨h.sources, List.nodup_singleton _, ?_⟩
    intro a ha b hb hab
    obtain ⟨s', hs', rfl⟩ := List.mem_map.mp ha
    rw [List.map_singleton, List.mem_singleton] at hb
    exact hunserved s' hs' (hab.trans hb)
  · rw [List.pairwise_append]
    refine ⟨h.ids, List.pairwise_singleton _ _, ?_⟩
    intro s' hs' s'' hs''
    rw [List.mem_singleton.mp hs'']
    exact hnew s' hs'
  · intro r hr c
    rw [hchains] at hr
    obtain ⟨r₀, hr₀, rfl⟩ := Table.mem_update.mp hr
    have hold := h'.served r₀ hr₀ c
    by_cases hsource : r₀.sourceInstanceID = s.source
    · rw [if_pos (by simp [hsource])]
      constructor
      · intro hc
        exact ⟨s, List.mem_append_right _ (List.mem_singleton_self _), hsource.symm,
          Option.some.inj hc⟩
      · rintro ⟨s', hs', hs'source, rfl⟩
        rcases List.mem_append.mp hs' with hs' | hs'
        · exact absurd (hs'source.trans hsource) (hunserved s' hs')
        · rw [List.mem_singleton.mp hs']
    · rw [if_neg (by simp [hsource]), hold]
      constructor
      · rintro ⟨s', hs', hrest⟩
        exact ⟨s', List.mem_append_left _ hs', hrest⟩
      · rintro ⟨s', hs', hs'source, hc⟩
        rcases List.mem_append.mp hs' with hs' | hs'
        · exact ⟨s', hs', hs'source, hc⟩
        · rw [List.mem_singleton.mp hs'] at hs'source
          exact absurd hs'source.symm hsource
  · -- requests keep what they ask for when they are acknowledged
    have hkept : ∀ r ∈ db.chains, ∃ r' ∈ db'.chains, r'.asked = r.asked := by
      intro r hr
      obtain ⟨more, rfl, -⟩ := hjoined
      rw [hchains]
      by_cases hsource : r.sourceInstanceID = s.source
      · exact ⟨_, Table.mem_update_of (List.mem_append_left _ hr) (by simp [hsource]), rfl⟩
      · exact ⟨r, Table.mem_update_of_not (List.mem_append_left _ hr) (by simp [hsource]), rfl⟩
    intro s' hs'
    have hr : ∃ r ∈ db.chains, r.sourceInstanceID = s'.source ∧ StartedFor svc r s'.child := by
      rcases List.mem_append.mp hs' with hs' | hs'
      · exact h.requested s' hs'
      · rw [List.mem_singleton.mp hs']
        exact hrequest
    obtain ⟨r, hr, hsource, hfor⟩ := hr
    obtain ⟨r', hr', hasked⟩ := hkept r hr
    exact ⟨r', hr', (congrArg WorkflowChain.sourceInstanceID hasked).trans hsource,
      hfor.of_asked hasked⟩
  · intro s' hs'
    rcases List.mem_append.mp hs' with hs' | hs'
    · exact h'.rows s' hs'
    · rw [List.mem_singleton.mp hs']
      exact hrow

theorem served_apply {svc : Service} {db : Db} {past : List ChainStart} (hwf : db.WF svc)
    (h : Served svc db past) (call : Call) :
    Served svc (apply svc db call) (past ++ chainStarts svc db call) := by
  have hrows : ∀ row ∈ db.instances, ∃ row' ∈ (apply svc db call).instances, row'.key = row.key :=
    fun row hrow => (evolves_apply hwf call).instances.mem hrow
  rcases call_chains svc hwf call with ⟨hnone, hjoined⟩ |
    ⟨s, t, hone, hjoined, hchains, hrequest, hclaim, hnew, hrow⟩
  · rw [hnone, List.append_nil]
    exact h.joined hjoined hrows
  · rw [hone]
    exact h.start hjoined hchains hrequest hclaim (fun s' hs' => hnew ▸ h.id_lt hwf hs') hrow
      hrows

theorem served_run (svc : Service) (calls : List Call) :
    Served svc (run svc calls) (runChainStarts svc calls) := by
  have hempty : Served svc {} [] :=
    ⟨List.nodup_nil, .nil, fun _ hr => absurd hr List.not_mem_nil,
      fun _ hs => absurd hs List.not_mem_nil, fun _ hs => absurd hs List.not_mem_nil⟩
  have hrule : (run svc calls).WF svc ∧ Served svc (run svc calls) ([] ++ runChainStarts svc calls) :=
    Run.history (I := fun db past => db.WF svc ∧ Served svc db past) (G := fun _ _ => True)
      (fun _ _ call hI _ => ⟨wf_apply hI.1 call, served_apply hI.1 hI.2 call⟩)
      ⟨wf_empty svc, hempty⟩ (Run.guarded_true _ _)
  exact hrule.2

/-- A parent gets at most one child, different parents get different ones, a
    request names a child if and only if that child has been started for it,
    and the child is what its request asks for. -/
theorem chain_children (svc : Service) (calls : List Call) :
    ((runChainStarts svc calls).map (·.source)).Nodup ∧
    ((runChainStarts svc calls).map (·.child.id)).Nodup ∧
    (∀ r ∈ (run svc calls).chains, ∀ c, r.childInstanceID = some c ↔
      ∃ s ∈ runChainStarts svc calls, s.source = r.sourceInstanceID ∧ s.child.id = c) ∧
    ∀ s ∈ runChainStarts svc calls,
      (∃ row ∈ (run svc calls).instances, row.key = s.child.key) ∧
      ∃ r ∈ (run svc calls).chains, r.sourceInstanceID = s.source ∧
        r.childInstanceID = some s.child.id ∧ StartedFor svc r s.child := by
  have h := served_run svc calls
  refine ⟨h.sources, ?_, h.served, ?_⟩
  · exact (List.pairwise_map.mpr h.ids).imp fun hlt heq => absurd heq (Nat.ne_of_lt hlt)
  · intro s hs
    obtain ⟨r, hr, hsource, hfor⟩ := h.requested s hs
    refine ⟨h.rows s hs, r, hr, hsource, ?_, hfor⟩
    exact (h.served r hr s.child.id).mpr ⟨s, hs, hsource.symm, rfl⟩

end Rochallor
