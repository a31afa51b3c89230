import Rochallor.Safety.Recovery

/-! # Attempt numbers

    A dispatch numbers the execution it inserts by the executions the step
    already has.  The count and the insertion are two statements; both are made
    under the row lock of the instance, or on an instance inserted in the same
    transaction, so no other dispatch of the instance comes between them.

    Nothing ever deletes an execution or rewrites its number.  So the attempts
    of a step carry the numbers `1 … n` in the order in which they were made,
    and the greatest number marks the latest attempt.
-/

namespace Rochallor

/-- The attempts of every step of the instance are numbered from one without
    a gap, in the order in which their ids were drawn. -/
structure Numbered (db : Db) (i : Nat) : Prop where
  numbers : ∀ stepID, (db.attempts i stepID).map (·.attemptNumber) =
    List.range' 1 (db.attempts i stepID).length
  ordered : ∀ stepID, (db.attempts i stepID).Pairwise fun a b => a.id < b.id

namespace Numbered

variable {svc : Service} {now : Time} {db db' : Db} {d : WorkflowDefinition} {i : Nat}

theorem untouched (hu : Untouched i db db') (h : Numbered db i) : Numbered db' i := by
  refine ⟨?_, ?_⟩
  · intro stepID
    rw [hu.attempts]
    exact h.numbers stepID
  · intro stepID
    rw [hu.attempts]
    exact h.ordered stepID

theorem rewritten (hr : Rewritten db.stepExecutions db'.stepExecutions) (h : Numbered db i) :
    Numbered db' i := by
  obtain ⟨f, hrows, hf, -⟩ := hr
  have hid : ∀ r, (f r).id = r.id := fun r => congrArg StepKey.id (hf r).1
  refine ⟨?_, ?_⟩
  · intro stepID
    have hnumber : (fun r : StepExecution => r.attemptNumber) ∘ f = fun r => r.attemptNumber :=
      funext fun r => (hf r).2
    rw [attempts_map hrows fun r => (hf r).1, List.map_map, List.length_map, hnumber]
    exact h.numbers stepID
  · intro stepID
    rw [attempts_map hrows fun r => (hf r).1, List.pairwise_map]
    refine (h.ordered stepID).imp ?_
    intro a b hab
    rwa [hid, hid]

/-- A dispatch inserts the next attempt of its step. -/
theorem dispatched {tx tx' : Tx} {step : WorkflowStep} {next : List StepId}
    (hdisp : Dispatched svc now d tx step tx' next) (hwf : TxWF svc d tx)
    (hfind : findStep d step.id = some step) (h : Numbered tx.db tx.inst.id) :
    Numbered tx'.db tx.inst.id := by
  obtain ⟨row, he, hkey, hattempt, -⟩ := hdisp.entered hwf hfind
  have hrowid : row.id = tx.db.nextId := congrArg StepKey.id hkey
  refine ⟨?_, ?_⟩
  · intro stepID
    by_cases hs : stepID = step.id
    · subst hs
      -- the count of the old rows, plus one, is the next number
      rw [he.self, List.map_append, List.length_append, List.length_singleton,
        List.range'_concat, h.numbers, List.map_singleton, hattempt]
      congr 2
      omega
    · rw [he.other stepID hs]
      exact h.numbers stepID
  · intro stepID
    by_cases hs : stepID = step.id
    · subst hs
      rw [he.self, List.pairwise_append]
      refine ⟨h.ordered step.id, List.pairwise_singleton _ _, ?_⟩
      intro a ha b hb
      rw [List.mem_singleton.mp hb, hrowid]
      exact hwf.wf.step_lt a (mem_attempts.mp ha).1
    · rw [he.other stepID hs]
      exact h.ordered stepID

/-- The latest attempt is the one made last. -/
theorem latest (h : Numbered db i) (stepID : StepId) :
    db.latestAttempt i stepID = (db.attempts i stepID).getLast? := by
  have hlt : ((db.attempts i stepID).map (·.attemptNumber)).Pairwise (· < ·) := by
    rw [h.numbers stepID]
    exact List.pairwise_lt_range' ..
  exact Table.latest_of_pairwise (List.pairwise_map.mp hlt)

end Numbered

theorem numbered_invariant (svc : Service) :
    TxInvariant svc (fun db => db.WF svc) (fun d tx _ => TxWF svc d tx) (fun _ _ => True)
      (fun _ => True) (fun db => ∀ i, Numbered db i)
      (fun _ tx _ => (∀ i, i ≠ tx.inst.id → Numbered tx.db i) ∧ Numbered tx.db tx.inst.id) := by
  refine TxInvariant.ofLocal (fun hu h => h.untouched hu) ?_ ?_ ?_
  · intro db op now p i fuel hwf hP _ hop _
    have hrewritten := hop.rewritten hwf
    cases p with
    | commit db' reply => exact (hP i).rewritten hrewritten
    | dispatch d tx steps => exact (hP _).rewritten hrewritten
    | chain d tx steps source => exact (hP _).rewritten hrewritten
  · intro now d tx step pending tx' next hwf h _ hfind hdisp
    obtain ⟨f, hv⟩ := hdisp.instance_view
    have hid : tx'.inst.id = tx.inst.id := congrArg InstanceKey.id hv.inst_key
    rw [hid]
    exact h.dispatched hdisp hwf hfind
  · exact fun _ h => h

theorem numbered_run (svc : Service) (calls : List Call) (i : Nat) : Numbered (run svc calls) i :=
  (((wf_invariant svc).and (numbered_invariant svc)).run
    ⟨wf_empty svc, fun _ => ⟨fun _ => rfl, fun _ => List.Pairwise.nil⟩⟩
    (Run.Guarded.mono (fun _ _ _ => ⟨trivial, fun _ _ => trivial⟩)
      (Run.guarded_true _ _))).2 i

/-- After every run, the attempts of a step are numbered `1 … n` in the order
    in which they were made, and the latest status is that of the attempt made
    last. -/
theorem attempts_numbered (svc : Service) (calls : List Call) (i : Nat) (stepID : StepId) :
    ((run svc calls).attempts i stepID).map (·.attemptNumber) =
        List.range' 1 ((run svc calls).attempts i stepID).length ∧
      ((run svc calls).attempts i stepID).Pairwise (fun a b => a.id < b.id) ∧
      (run svc calls).getLatestStepExecutionStatus i stepID =
        match ((run svc calls).attempts i stepID).getLast? with
        | none => .error .stepNotRetryable
        | some r => .ok r.status := by
  have h := numbered_run svc calls i
  refine ⟨h.numbers stepID, h.ordered stepID, ?_⟩
  have hstatus : (run svc calls).getLatestStepExecutionStatus i stepID = _ := latestStatus_eq
  rw [h.latest] at hstatus
  refine hstatus.trans ?_
  cases ((run svc calls).attempts i stepID).getLast? with
  | none => rfl
  | some r => rfl

end Rochallor
