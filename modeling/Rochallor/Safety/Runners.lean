import Rochallor.Safety.Leases

/-! # Runners

    A runner works on a job for as long as it believes in its lease, and it
    learns of the engine's tables only through answers that may be old.  Its
    belief is safe all the same: the lease in the tables never ends before the
    one the runner counts on, unless the step the job is for has been closed or
    an operator has replaced the job by force.

    So at any time at most one handler works on a running step execution with a
    lease it may believe in, and what such a handler reports is accepted.
-/

namespace Rochallor

/-! ## The fleet -/

section Lists

variable {α : Type u} {β : Type v} {γ : Type w}

private theorem map_filterMap_sublist {f : α → Option β} {g : β → γ} {k : α → γ}
    (h : ∀ a b, f a = some b → g b = k a) (l : List α) :
    ((l.filterMap f).map g).Sublist (l.map k) := by
  induction l with
  | nil => exact .slnil
  | cons a rest ih =>
    cases hf : f a with
    | none =>
      rw [List.filterMap_cons_none hf]
      exact ih.cons _
    | some b =>
      rw [List.filterMap_cons_some hf, List.map_cons, List.map_cons, h a b hf]
      exact ih.cons_cons _

private theorem countP_le_one_of_key {q : α → Bool} {key : α → γ} :
    ∀ {t : List α}, (t.map key).Nodup →
      (∀ a ∈ t, ∀ b ∈ t, q a = true → q b = true → key a = key b) → t.countP q ≤ 1
  | [], _, _ => Nat.zero_le _
  | a :: rest, hnd, h => by
    rw [List.map_cons, List.nodup_cons] at hnd
    have hrest := countP_le_one_of_key hnd.2 fun b hb c hc =>
      h b (List.mem_cons_of_mem _ hb) c (List.mem_cons_of_mem _ hc)
    by_cases hq : q a = true
    · have hnone : rest.countP q = 0 := by
        rw [List.countP_eq_zero]
        intro b hb hqb
        refine hnd.1 ?_
        rw [h a (List.mem_cons_self ..) b (List.mem_cons_of_mem _ hb) hq hqb]
        exact List.mem_map_of_mem hb
      rw [List.countP_cons_of_pos hq, hnone]
    · rwa [List.countP_cons_of_neg hq]

end Lists

theorem leaseContext_eq {cfg : RunnerConfig} {runner : Nat} {job : Job} {a : Attempt}
    (h : leaseContext cfg runner job = some a) :
    a.runner = runner ∧ a.jobID = job.id ∧ a.expiry = job.lockExpiresAt := by
  unfold leaseContext at h
  split at h
  · obtain ⟨t, ht, rfl⟩ := Option.map_eq_some_iff.mp h
    exact ⟨rfl, rfl, ht.symm⟩
  · cases h
    exact ⟨rfl, rfl, rfl⟩

/-- A heartbeat that is answered in time sets the deadline to the new lease. -/
theorem Attempt.renew_eq {now validUntil : Time} {a a' : Attempt}
    (h : a.renew now validUntil = some a') :
    a'.runner = a.runner ∧ a'.jobID = a.jobID ∧ (a'.working = true → a.working = true) ∧
      (a'.expiry = a.expiry ∨ a'.expiry = some validUntil) := by
  unfold Attempt.renew at h
  split at h
  · cases h
    exact ⟨rfl, rfl, id, .inl rfl⟩
  · split at h
    · cases h
    · split at h
      · cases h
      · cases h
        refine ⟨rfl, rfl, ?_, .inr rfl⟩
        unfold Attempt.working
        by_cases hs : a.phase = .starting
        · simp [hs]
        · simp [hs]

namespace Fleet

/-- The jobs the runners have been given and not yet done with, each with its
    runner. -/
def held (s : Fleet) : List (Nat × Nat) :=
  s.attempts.map (fun a => (a.runner, a.jobID)) ++
    s.polls.flatMap fun p => p.jobs.map fun job => (p.runner, job.id)

def claimed (s : Fleet) : List Nat :=
  s.held.map (·.2)

theorem claimed_eq (s : Fleet) :
    s.claimed = s.attempts.map (·.jobID) ++ s.polls.flatMap fun p => p.jobs.map (·.id) := by
  simp [claimed, held, List.map_flatMap, Function.comp_def]

theorem mem_claimed {s : Fleet} {a : Attempt} (ha : a ∈ s.attempts) : a.jobID ∈ s.claimed := by
  rw [claimed_eq]
  exact List.mem_append_left _ (List.mem_map_of_mem ha)

theorem held_polled (cfg : Nat → RunnerConfig) (s : Fleet) (runner : Nat) :
    (s.polled cfg runner).held.Subperm s.held := by
  let mine (p : PollAnswer) : Bool := decide (p.runner = runner)
  let pairs (p : PollAnswer) : List (Nat × Nat) := p.jobs.map fun job => (p.runner, job.id)
  have hnew : (((s.polls.filter mine).flatMap fun p =>
      p.jobs.filterMap (leaseContext (cfg p.runner) p.runner)).map
        fun a => (a.runner, a.jobID)).Sublist ((s.polls.filter mine).flatMap pairs) := by
    rw [List.map_flatMap]
    refine List.Sublist.flatMap_right _ fun p _ => map_filterMap_sublist ?_ _
    intro job a ha
    obtain ⟨hrunner, hid, -⟩ := leaseContext_eq ha
    rw [hrunner, hid]
  -- the answers to this runner, and the others
  have hperm : ((s.polls.filter mine).flatMap pairs ++
      (s.polls.filter fun p => !mine p).flatMap pairs).Perm (s.polls.flatMap pairs) := by
    rw [← List.flatMap_append]
    exact (List.filter_append_perm mine s.polls).flatMap_right pairs
  unfold held Fleet.polled
  simp only [List.map_append, List.append_assoc]
  refine List.Subperm.trans (List.Sublist.subperm ?_) (hperm.append_left _).subperm
  exact (List.Sublist.refl _).append (hnew.append (List.Sublist.refl _))

theorem held_renewed (s : Fleet) (y : Renewal) : (s.renewed y).held.Sublist s.held := by
  refine List.Sublist.append (map_filterMap_sublist ?_ _) (List.Sublist.refl _)
  intro a a' ha
  split at ha
  · obtain ⟨hrunner, hid, -⟩ := Attempt.renew_eq ha
    rw [hrunner, hid]
  · obtain rfl := Option.some.inj ha
    rfl

theorem held_returned (cfg : Nat → RunnerConfig) (s : Fleet) (runner jobID : Nat)
    (outcome : WorkerCallback) : (s.returned cfg runner jobID outcome).held = s.held := by
  unfold held Fleet.returned
  rw [List.map_map]
  congr 1
  refine List.map_congr_left ?_
  intro a _
  simp only [Function.comp]
  split <;> rfl

theorem held_shrink {s : Fleet} {attempts : List Attempt} {polls : List PollAnswer}
    (ha : attempts.Sublist s.attempts) (hp : polls.Sublist s.polls) :
    (held { s with attempts := attempts, polls := polls }).Sublist s.held :=
  (ha.map _).append (hp.flatMap _)

theorem held_poll (s : Fleet) (db : Db) (runner : Nat) (jobs : List Job) :
    held { s with db := db, polls := s.polls ++ [⟨runner, jobs⟩] } =
      s.held ++ jobs.map fun job => (runner, job.id) := by
  simp [held, List.append_assoc]

/-- The worker may go on with the job: nothing has been reported on it, and the
    lease it counts on is backed. -/
def Sound (s : Fleet) (workerID : String) (jobID : Nat) (expiry : Option Time) : Prop :=
  (∀ x ∈ s.reports, x.jobID ≠ jobID) ∧
    ∃ t, expiry = some t ∧ CountsOn s.db s.clock s.forced workerID jobID t

/-- What holds of the tables, the runners and the network at any time. -/
structure Safe (svc : Service) (cfg : Nat → RunnerConfig) (s : Fleet) : Prop where
  wf : s.db.WF svc
  delivery : Delivery s.db
  nodup : s.claimed.Nodup
  taken : ∀ jobID ∈ s.claimed, Taken s.db jobID
  reported : ∀ x ∈ s.reports, Taken s.db x.jobID
  working : ∀ a ∈ s.attempts, a.working = true →
    s.Sound (cfg a.runner).workerID a.jobID a.expiry
  given : ∀ p ∈ s.polls, ∀ job ∈ p.jobs,
    s.Sound (cfg p.runner).workerID job.id job.lockExpiresAt
  renewals : ∀ y ∈ s.renewals, (∃ x ∈ s.reports, x.jobID = y.jobID) ∨
    CountsOn s.db s.clock s.forced (cfg y.runner).workerID y.jobID y.validUntil

theorem safe_start (svc : Service) (cfg : Nat → RunnerConfig) : Safe svc cfg {} where
  wf := wf_empty svc
  delivery := delivery_empty
  nodup := List.nodup_nil
  taken := by simp [claimed, held]
  reported := by simp
  working := by simp
  given := by simp
  renewals := by simp

namespace Safe

variable {svc : Service} {cfg : Nat → RunnerConfig} {s : Fleet}

/-- Time passes. -/
theorem tick (h : Safe svc cfg s) (d : Nat) : Safe svc cfg { s with clock := s.clock + d } := by
  have hclock : s.clock ≤ s.clock + d := Int.le_add_of_nonneg_right (Int.natCast_nonneg d)
  have hsound : ∀ {w id e}, s.Sound w id e → Sound { s with clock := s.clock + d } w id e := by
    rintro w id e ⟨hno, t, rfl, hcounts⟩
    exact ⟨hno, t, rfl, hcounts.later hclock (List.Subset.refl _)⟩
  exact {
    wf := h.wf
    delivery := h.delivery
    nodup := h.nodup
    taken := h.taken
    reported := h.reported
    working := fun a ha hw => hsound (h.working a ha hw)
    given := fun p hp job hjob => hsound (h.given p hp job hjob)
    renewals := fun y hy => (h.renewals y hy).imp id
      fun hc => hc.later hclock (List.Subset.refl _) }

/-- A call reaches the engine.  If it reports on a job, that report has been
    sent. -/
theorem call (h : Safe svc cfg s) (call : Call) (hnow : call.now = s.clock)
    (hsent : ∀ jobID w, call.op.Reports jobID w → ∃ x ∈ s.reports, x.jobID = jobID)
    {forced : List Nat} (hforced : s.forced ++ forcedBy s.db call.op ⊆ forced) :
    Safe svc cfg { s with db := apply svc s.db call, forced := forced } := by
  have hcounts : ∀ {w id t}, CountsOn s.db s.clock s.forced w id t →
      (∀ x ∈ s.reports, x.jobID ≠ id) →
      CountsOn (apply svc s.db call) s.clock forced w id t := by
    intro w id t hc hno
    rw [← hnow] at hc ⊢
    refine (CountsOn.apply h.wf hc ?_).later le_rfl hforced
    intro w' hop
    obtain ⟨x, hx, hid⟩ := hsent id w' hop
    exact hno x hx hid
  have hsound : ∀ {w id e}, s.Sound w id e →
      Sound { s with db := apply svc s.db call, forced := forced } w id e := by
    rintro w id e ⟨hno, t, rfl, hc⟩
    exact ⟨hno, t, rfl, hcounts hc hno⟩
  exact {
    wf := wf_apply h.wf call
    delivery := (((wf_invariant svc).and (delivery_invariant svc)).apply ⟨h.wf, h.delivery⟩ trivial
      fun _ _ => trivial).2
    nodup := h.nodup
    taken := fun id hid => Taken.apply h.wf (h.taken id hid)
    reported := fun x hx => Taken.apply h.wf (h.reported x hx)
    working := fun a ha hw => hsound (h.working a ha hw)
    given := fun p hp job hjob => hsound (h.given p hp job hjob)
    renewals := by
      intro y hy
      rcases h.renewals y hy with hrep | hc
      · exact .inl hrep
      · by_cases hrep : ∃ x ∈ s.reports, x.jobID = y.jobID
        · exact .inl hrep
        · exact .inr (hcounts hc fun x hx hid => hrep ⟨x, hx, hid⟩) }

/-- Attempts end and answers are lost. -/
theorem shrink (h : Safe svc cfg s) {attempts : List Attempt} {polls : List PollAnswer}
    (ha : attempts.Sublist s.attempts) (hp : polls.Sublist s.polls) :
    Safe svc cfg { s with attempts := attempts, polls := polls } := by
  have hsub : (claimed { s with attempts := attempts, polls := polls }).Sublist s.claimed :=
    (held_shrink ha hp).map _
  exact { h with
    nodup := h.nodup.sublist hsub
    taken := fun id hid => h.taken id (hsub.mem hid)
    working := fun a hmem => h.working a (ha.mem hmem)
    given := fun p hmem => h.given p (hp.mem hmem) }

/-- The jobs of an answer take their slots. -/
theorem polled (h : Safe svc cfg s) (runner : Nat) : Safe svc cfg (s.polled cfg runner) := by
  obtain ⟨l, hperm, hsub⟩ := held_polled cfg s runner
  have hclaimed : (l.map (·.2)).Perm (s.polled cfg runner).claimed := hperm.map _
  exact { h with
    nodup := hclaimed.nodup_iff.mp (h.nodup.sublist (hsub.map _))
    taken := fun id hid => h.taken id ((hsub.map _).mem (hclaimed.mem_iff.mpr hid))
    working := by
      intro a ha hw
      rcases List.mem_append.mp ha with hold | hnew
      · exact h.working a hold hw
      · obtain ⟨p, hp, ha⟩ := List.mem_flatMap.mp hnew
        obtain ⟨job, hjob, hctx⟩ := List.mem_filterMap.mp ha
        obtain ⟨hrunner, hid, hexpiry⟩ := leaseContext_eq hctx
        rw [hrunner, hid, hexpiry]
        exact h.given p (List.mem_filter.mp hp).1 job hjob
    given := fun p hp => h.given p (List.mem_filter.mp hp).1 }

/-- A poll hands out jobs nobody has been given. -/
theorem poll (h : Safe svc cfg s) (runner : Nat) (rowLocked : List Nat) :
    Safe svc cfg (s.poll cfg runner rowLocked) := by
  unfold Fleet.poll
  split
  · exact h
  · split
    · exact h
    · rename_i jobs db' hpoll
      obtain ⟨hdb, hnd, hjobs⟩ := poll_call h.wf hpoll
      have hcall : Safe svc cfg { s with db := db' } := by
        rw [hdb]
        refine h.call _ rfl ?_ (by simp [forcedBy])
        exact fun _ _ hop => False.elim hop
      -- the row of a job handed out was unlocked, so it was not taken
      have hfresh : ∀ job ∈ jobs, ¬ Taken s.db job.id := by
        rintro job hjob ⟨r, hr, hid, htaken⟩
        obtain ⟨old, hold, hkey, hunlocked⟩ := (hjobs job hjob).1.unlocked
        have holdid : old.id = job.id := congrArg ChildKey.id hkey
        obtain rfl := h.wf.job_eq hr hold (hid.trans holdid.symm)
        exact htaken hunlocked
      have hclaimed : claimed { s with db := db', polls := s.polls ++ [⟨runner, jobs⟩] } =
          s.claimed ++ jobs.map (·.id) := by
        rw [claimed, held_poll]
        simp [claimed, Function.comp_def]
      exact { hcall with
        nodup := by
          rw [hclaimed]
          refine List.nodup_append.mpr ⟨h.nodup, hnd, ?_⟩
          rintro id hold _ hnew rfl
          obtain ⟨job, hjob, rfl⟩ := List.mem_map.mp hnew
          exact hfresh job hjob (h.taken _ hold)
        taken := by
          intro id hid
          rw [hclaimed] at hid
          rcases List.mem_append.mp hid with hold | hnew
          · exact hcall.taken id hold
          · obtain ⟨job, hjob, rfl⟩ := List.mem_map.mp hnew
            have hl := (hjobs job hjob).1
            exact ⟨job, hl.stored, rfl, by simp [hl.locked]⟩
        given := by
          intro p hp job hjob
          rcases List.mem_append.mp hp with hold | hnew
          · exact hcall.given p hold job hjob
          · obtain rfl := List.mem_singleton.mp hnew
            obtain ⟨hl, t, ht⟩ := hjobs job hjob
            refine ⟨fun x hx hid => hfresh job hjob (hid ▸ h.reported x hx), t, ht, ?_⟩
            exact ⟨job, hl.stored, rfl, .leased t hl.locked hl.owner ht le_rfl⟩ }

/-- The answer to an accepted heartbeat is backed by the renewed row. -/
theorem heartbeat (h : Safe svc cfg s) (runner jobID : Nat) :
    Safe svc cfg (s.heartbeat svc cfg runner jobID) := by
  unfold Fleet.heartbeat
  dsimp only
  split
  · exact h
  · rename_i db' hperform
    have hdb : db' = apply svc s.db _ := (congrArg Prod.fst hperform).symm
    have hcall : Safe svc cfg { s with db := db' } := by
      rw [hdb]
      refine h.call _ rfl ?_ (by simp [forcedBy])
      exact fun _ _ hop => False.elim hop
    obtain ⟨r, hr, hid, hlocked, howner, t, ht⟩ := heartbeat_call hperform
    have hget : db'.getJob jobID = some r := hid ▸ getJob_of_mem hcall.wf hr
    exact { hcall with
      renewals := by
        intro y hy
        rcases List.mem_append.mp hy with hold | hnew
        · exact hcall.renewals y hold
        · rw [hget, Option.bind_some, ht, Option.map_some, Option.toList_some,
            List.mem_singleton] at hnew
          subst hnew
          exact .inr ⟨r, hr, hid, .leased t hlocked howner ht le_rfl⟩ }

/-- An answer to a heartbeat arrives. -/
theorem renewed (h : Safe svc cfg s) {y : Renewal} (hy : y ∈ s.renewals) :
    Safe svc cfg (s.renewed y) := by
  have hsub : (s.renewed y).claimed.Sublist s.claimed := (held_renewed s y).map _
  exact { h with
    nodup := h.nodup.sublist hsub
    taken := fun id hid => h.taken id (hsub.mem hid)
    working := by
      intro a' ha' hw
      obtain ⟨a, ha, hrenew⟩ := List.mem_filterMap.mp ha'
      split at hrenew
      · rename_i his
        obtain ⟨hrunner, hid, hworking, hexpiry⟩ := Attempt.renew_eq hrenew
        simp only [isOf, Bool.and_eq_true, decide_eq_true_eq] at his
        have hsound := h.working a ha (hworking hw)
        rw [hrunner, hid]
        rcases hexpiry with hexpiry | hexpiry
        · rw [hexpiry]
          exact hsound
        · -- nothing has been reported on the job, so the renewal is backed
          refine ⟨hsound.1, y.validUntil, hexpiry, ?_⟩
          rw [his.1, his.2]
          rcases h.renewals y hy with ⟨x, hx, hxid⟩ | hcounts
          · exact absurd (hxid.trans his.2.symm) (hsound.1 x hx)
          · exact hcounts
      · obtain rfl := Option.some.inj hrenew
        exact h.working a ha hw }

/-- A handler returns. -/
theorem returned (h : Safe svc cfg s) (runner jobID : Nat) (outcome : WorkerCallback) :
    Safe svc cfg (s.returned cfg runner jobID outcome) := by
  have hids : (s.returned cfg runner jobID outcome).claimed = s.claimed :=
    congrArg (List.map _) (held_returned ..)
  have hnd := h.nodup
  rw [claimed_eq] at hnd
  replace hnd := List.nodup_append.mp hnd
  -- what is sent now
  have hsent : ∀ x ∈ (s.returned cfg runner jobID outcome).reports, x ∈ s.reports ∨
      ∃ a ∈ s.attempts, a.jobID = x.jobID ∧ x.jobID = jobID ∧ isOf runner jobID a = true ∧
        a.phase = .handling ∧ a.alive s.clock = true := by
    intro x hx
    rcases List.mem_append.mp hx with hold | hnew
    · exact .inl hold
    · obtain ⟨a, ha, rfl⟩ := List.mem_map.mp hnew
      obtain ⟨hmem, hsends⟩ := List.mem_filter.mp ha
      simp only [Bool.and_eq_true, decide_eq_true_eq] at hsends
      obtain ⟨⟨his, hphase⟩, halive⟩ := hsends
      have hid : a.jobID = jobID := by
        simp only [isOf, Bool.and_eq_true, decide_eq_true_eq] at his
        exact his.2
      exact .inr ⟨a, hmem, hid, rfl, his, hphase, halive⟩
  exact { h with
    nodup := hids ▸ h.nodup
    taken := fun id hid => h.taken id (hids ▸ hid)
    reported := by
      intro x hx
      rcases hsent x hx with hold | ⟨a, ha, hid, -⟩
      · exact h.reported x hold
      · rw [← hid]
        exact h.taken _ (mem_claimed ha)
    working := by
      intro a' ha' hw
      obtain ⟨a, ha, rfl⟩ := List.mem_map.mp ha'
      split at hw
      · simp [Attempt.working] at hw
      · rename_i hstays
        rw [if_neg hstays]
        have hsound := h.working a ha hw
        refine ⟨fun x hx hxid => ?_, hsound.2⟩
        rcases hsent x hx with hold | ⟨b, hb, hbid, hxjob, his, hphase, halive⟩
        · exact hsound.1 x hold hxid
        · -- it would be the attempt that sends
          obtain rfl := Table.eq_of_key hnd.1 hb ha (hbid.trans hxid)
          simp [his, hphase, halive] at hstays
    given := by
      intro p hp job hjob
      have hsound := h.given p hp job hjob
      refine ⟨fun x hx hxid => ?_, hsound.2⟩
      rcases hsent x hx with hold | ⟨b, hb, hbid, -⟩
      · exact hsound.1 x hold hxid
      · exact hnd.2.2 _ (List.mem_map_of_mem hb) _
          (List.mem_flatMap.mpr ⟨p, hp, List.mem_map_of_mem hjob⟩) (hbid.trans hxid)
    renewals := by
      intro y hy
      rcases h.renewals y hy with ⟨x, hx, hid⟩ | hcounts
      · exact .inl ⟨x, List.mem_append_left _ hx, hid⟩
      · exact .inr hcounts }

theorem step (h : Safe svc cfg s) (event : FleetEvent) :
    Safe svc cfg (Fleet.step svc cfg s event) := by
  cases event with
  | tick d => exact h.tick d
  | engine op fuel =>
    dsimp only [Fleet.step]
    split
    · exact h
    · rename_i hrunner
      refine h.call ⟨op, s.clock, fuel⟩ rfl ?_ (List.Subset.refl _)
      intro jobID w hop
      cases op with
      | completeJob j w vars => exact absurd rfl hrunner
      | failJob j w msg retryable => exact absurd rfl hrunner
      | _ => exact False.elim hop
  | poll runner rowLocked => exact h.poll runner rowLocked
  | polled runner => exact h.polled runner
  | pollLost runner => exact h.shrink (List.Sublist.refl _) (List.filter_sublist ..)
  | heartbeat runner jobID => exact h.heartbeat runner jobID
  | renewed i =>
    dsimp only [Fleet.step]
    split
    · exact h
    · rename_i y hy
      have hnext := h.renewed (List.mem_of_getElem? hy)
      exact { hnext with
        renewals := fun z hz => hnext.renewals z (List.mem_of_mem_eraseIdx hz) }
  | returned runner jobID outcome => exact h.returned runner jobID outcome
  | report i fuel =>
    dsimp only [Fleet.step]
    split
    · exact h
    · rename_i x hx
      refine h.call (Report.call s.clock fuel x) rfl ?_ ?_
      · intro jobID w hop
        refine ⟨x, List.mem_of_getElem? hx, ?_⟩
        unfold Report.call at hop
        cases hout : x.outcome <;> rw [hout] at hop <;> exact hop.1
      · unfold Report.call
        cases x.outcome <;> simp [forcedBy, WorkerCallback.op]
  | done runner jobID => exact h.shrink (List.filter_sublist ..) (List.Sublist.refl _)

theorem run (svc : Service) (cfg : Nat → RunnerConfig) (events : List FleetEvent) :
    Safe svc cfg (Fleet.run svc cfg events) :=
  Run.invariant (G := fun _ _ => True) (fun _ event h _ => h.step event) (safe_start svc cfg)
    (Run.guarded_true _ events)

end Safe

/-- The attempt works for the step execution, with a lease it may believe in. -/
def worksFor (s : Fleet) (seID : Nat) (a : Attempt) : Bool :=
  a.working && a.alive s.clock &&
    (s.db.getJob a.jobID).any fun r => decide (r.stepExecutionID = seID)

/-- A believed lease is real, unless nothing depends on it any more. -/
theorem Safe.lease {svc : Service} {cfg : Nat → RunnerConfig} {s : Fleet} (h : Safe svc cfg s)
    {a : Attempt} (ha : a ∈ s.attempts) (hw : a.working = true) (halive : a.alive s.clock = true)
    {r : Job} (hr : s.db.getJob a.jobID = some r) (hopen : ¬ Closed s.db r.stepExecutionID)
    (hforced : r.stepExecutionID ∉ s.forced) :
    r.status = .locked ∧ r.workerID = some (cfg a.runner).workerID ∧
      ∃ t, r.lockExpiresAt = some t ∧ s.clock < t := by
  obtain ⟨-, expiry, hexpiry, r', hr', hid, hbacked⟩ := h.working a ha hw
  obtain ⟨hmem, hrid⟩ := getJob_mem hr
  obtain rfl := h.wf.job_eq hmem hr' (hrid.trans hid.symm)
  rw [Attempt.alive, hexpiry, Option.all_some, decide_eq_true_eq] at halive
  cases hbacked with
  | leased t hlocked howner ht hle => exact ⟨hlocked, howner, t, ht, halive.trans_le hle⟩
  | closed hclosed => exact absurd hclosed hopen
  | expired hexpired => exact absurd halive (not_lt.mpr hexpired)
  | forced hmem => exact absurd hmem hforced

end Fleet

/-- Whatever runners there are and however the network delays, loses and
    repeats what they send, at any time at most one handler works for a running
    step execution with a lease its runner may believe in, as long as no
    operator replaces the job by force. -/
theorem leases_exclusive (svc : Service) (cfg : Nat → RunnerConfig) (events : List FleetEvent) :
    ∀ se ∈ (Fleet.run svc cfg events).db.stepExecutions, se.status = .running →
      se.id ∉ (Fleet.run svc cfg events).forced →
      (Fleet.run svc cfg events).attempts.countP ((Fleet.run svc cfg events).worksFor se.id) ≤ 1 := by
  intro se hse hrun hforced
  have h := Fleet.Safe.run svc cfg events
  generalize Fleet.run svc cfg events = s at *
  have hnd := h.nodup
  rw [Fleet.claimed_eq] at hnd
  refine countP_le_one_of_key (List.nodup_append.mp hnd).1 ?_
  have hopen : ¬ Closed s.db se.id := by
    rintro ⟨se', hse', hid, hclosed⟩
    obtain rfl := h.wf.step_eq hse hse' hid.symm
    exact hclosed hrun
  -- the job of such an attempt is leased, and the step has one live job
  have hjob : ∀ a ∈ s.attempts, s.worksFor se.id a = true →
      ∃ r ∈ s.db.jobs, r.id = a.jobID ∧ r.stepExecutionID = se.id ∧ r.status = .locked := by
    intro a ha hworks
    simp only [Fleet.worksFor, Bool.and_eq_true] at hworks
    obtain ⟨⟨hw, halive⟩, hany⟩ := hworks
    obtain ⟨r, hr, hid⟩ := (Option.any_eq_true ..).mp hany
    have hseid : r.stepExecutionID = se.id := of_decide_eq_true hid
    obtain ⟨hlocked, -⟩ := h.lease ha hw halive hr (hseid ▸ hopen) (hseid ▸ hforced)
    exact ⟨r, (getJob_mem hr).1, (getJob_mem hr).2, hseid, hlocked⟩
  intro a ha b hb hqa hqb
  obtain ⟨r, hr, hrid, hrse, hrlocked⟩ := hjob a ha hqa
  obtain ⟨r', hr', hrid', hrse', hrlocked'⟩ := hjob b hb hqb
  obtain ⟨se', hse', hid', -, htype⟩ := h.wf.job_step hr
  obtain rfl := h.wf.step_eq hse hse' (hrse.symm.trans hid'.symm)
  obtain rfl := h.delivery.live_unique hse hrun htype hr hr' (by simp [hrlocked, JobStatus.live])
    (by simp [hrlocked', JobStatus.live]) hrse hrse'
  exact hrid.symm.trans hrid'

/-- One runner that charges, without heartbeats. -/
def chargeRunner (_ : Nat) : RunnerConfig where
  workerID := "worker"
  jobTypes := ["charge"]
  parallelism := 1
  leaseSeconds := 30
  heartbeat := false

/-- The runner has been given the one job there is. -/
def charging : Fleet :=
  Fleet.run (Service.ofList [chargeOnly]) chargeRunner
    [.engine chargeOnly.start.op 16, .poll 0 [], .polled 0]

theorem leases_exclusive_charging :
    ∃ se ∈ charging.db.stepExecutions, charging.attempts.countP (charging.worksFor se.id) = 1 := by
  have hsome : charging.db.stepExecutions ≠ [] := by
    rw [← List.length_pos_iff]
    decide +kernel
  obtain ⟨se, hse⟩ := List.exists_mem_of_ne_nil _ hsome
  have hall : charging.db.stepExecutions.all fun se => decide (se.status = .running) &&
      decide (se.id ∉ charging.forced) && charging.attempts.any (charging.worksFor se.id) := by
    decide +kernel
  have hthis := List.all_eq_true.mp hall se hse
  simp only [Bool.and_eq_true, decide_eq_true_eq] at hthis
  obtain ⟨⟨hrun, hforced⟩, hworks⟩ := hthis
  have hle := leases_exclusive (Service.ofList [chargeOnly]) chargeRunner
    [.engine chargeOnly.start.op 16, .poll 0 [], .polled 0] se hse hrun hforced
  have hpos : 0 < charging.attempts.countP (charging.worksFor se.id) := by
    obtain ⟨a, ha, hw⟩ := List.any_eq_true.mp hworks
    exact List.countP_pos_iff.mpr ⟨a, ha, hw⟩
  exact ⟨se, hse, Nat.le_antisymm hle hpos⟩

/-- A handler that works with a lease its runner may believe in does not work in
    vain: as long as the instance is in flight, the step runs and no operator
    has replaced the job by force, its completion or failure is accepted. -/
theorem timely_reports_accepted (svc : Service) (cfg : Nat → RunnerConfig)
    (events : List FleetEvent) :
    ∀ a ∈ (Fleet.run svc cfg events).attempts, a.working = true →
      a.alive (Fleet.run svc cfg events).clock = true →
      ∃ job se inst, Callback (Fleet.run svc cfg events).db a.jobID job se inst ∧
        (se.id ∉ (Fleet.run svc cfg events).forced → Alive se inst →
          callbackAccepted (Fleet.run svc cfg events).clock (Fleet.run svc cfg events).db a.jobID
            (cfg a.runner).workerID = true) := by
  intro a ha hw halive
  have h := Fleet.Safe.run svc cfg events
  generalize Fleet.run svc cfg events = s at *
  obtain ⟨job, hjob, hid, -⟩ := h.taken a.jobID (Fleet.mem_claimed ha)
  obtain ⟨se, inst, hcb⟩ := h.wf.callback hjob
  rw [hid] at hcb
  refine ⟨job, se, inst, hcb, fun hforced hactive => ?_⟩
  have hseid : se.id = job.stepExecutionID := getStepExecution_id hcb.se_eq
  have hopen : ¬ Closed s.db job.stepExecutionID := by
    rintro ⟨se', hse', hid', hclosed⟩
    obtain rfl := h.wf.step_eq (getStepExecution_mem hcb.se_eq) hse' (hseid.trans hid'.symm)
    exact hclosed hactive.2
  obtain ⟨hlocked, howner, t, ht, hlt⟩ := h.lease ha hw halive hcb.job_eq hopen (hseid ▸ hforced)
  rw [callbackAccepted_of hcb, JobExecution.acceptsCallback, active_iff.mpr hactive]
  simp [jobExecution, hlocked, howner, ht, hlt]

theorem timely_reports_accepted_charging :
    ∃ a ∈ charging.attempts, ∃ job se inst, Callback charging.db a.jobID job se inst ∧
      (se.id ∉ charging.forced → Alive se inst →
        callbackAccepted charging.clock charging.db a.jobID "worker" = true) := by
  have hsome : charging.attempts ≠ [] := by
    rw [← List.length_pos_iff]
    decide +kernel
  obtain ⟨a, ha⟩ := List.exists_mem_of_ne_nil _ hsome
  have hall : charging.attempts.all fun a => a.working && a.alive charging.clock := by
    decide +kernel
  have hthis := List.all_eq_true.mp hall a ha
  rw [Bool.and_eq_true] at hthis
  exact ⟨a, ha, timely_reports_accepted (Service.ofList [chargeOnly]) chargeRunner
    [.engine chargeOnly.start.op 16, .poll 0 [], .polled 0] a ha hthis.1 hthis.2⟩

/-! ## Slots -/

/-- A poll hands out as many jobs as it is asked for at most. -/
theorem pollJobs_length {svc : Service} {db : Db} (hwf : db.WF svc) {now : Time}
    {workerID : String} {jobTypes : List String} {max : Nat} {seconds : Int} {rowLocked : List Nat}
    {jobs : List Job} {db' : Db}
    (h : pollWithLease now db workerID jobTypes max seconds rowLocked = .ok (jobs, db')) :
    jobs.length ≤ max := by
  have hnd := (poll_call hwf h).2.1
  unfold pollWithLease at h
  obtain ⟨lease, -, h⟩ := bind_eq_ok h
  obtain rfl : (db.pollJobs now workerID jobTypes max lease rowLocked).1 = jobs :=
    congrArg Prod.fst (Except.ok.inj h)
  unfold Db.pollJobs at hnd ⊢
  split
  · exact Nat.zero_le _
  · rename_i hguard
    rw [if_neg hguard] at hnd
    have hcandidates : (db.pollCandidates jobTypes max rowLocked).length ≤ max := by
      unfold Db.pollCandidates
      rw [List.length_map]
      exact List.length_take_le ..
    -- the ids are different, and all of them are candidates
    have hsubperm := List.subperm_of_subset hnd fun id hid => show
        id ∈ db.pollCandidates jobTypes max rowLocked from by
      obtain ⟨r, hr, rfl⟩ := List.mem_map.mp hid
      simpa using (List.mem_filter.mp hr).2
    have hle := hsubperm.length_le
    rw [List.length_map] at hle
    exact hle.trans hcandidates

namespace Fleet

/-- The slots of a runner that are taken, or are kept for an answer. -/
def load (s : Fleet) (runner : Nat) : Nat :=
  s.held.countP fun x => decide (x.1 = runner)

theorem load_mono {s s' : Fleet} (h : s'.held.Subperm s.held) (runner : Nat) :
    s'.load runner ≤ s.load runner :=
  h.countP_le _

theorem load_eq (s : Fleet) (runner : Nat) :
    s.load runner = s.attempts.countP (fun a => decide (a.runner = runner)) +
      ((s.polls.filter fun p => decide (p.runner = runner)).map (·.jobs.length)).sum := by
  have hpolls : ∀ polls : List PollAnswer,
      (polls.flatMap fun p => p.jobs.map fun job => (p.runner, job.id)).countP
          (fun x => decide (x.1 = runner)) =
        ((polls.filter fun p => decide (p.runner = runner)).map (·.jobs.length)).sum := by
    intro polls
    induction polls with
    | nil => rfl
    | cons p rest ih =>
      rw [List.flatMap_cons, List.countP_append, ih, List.countP_map]
      by_cases hr : p.runner = runner
      · simp [Function.comp_def, hr]
      · simp [Function.comp_def, hr]
  rw [load, held, List.countP_append, hpolls, List.countP_map]
  rfl

/-- With no answer under way, the load is what the attempts take. -/
theorem load_idle {s : Fleet} {runner : Nat}
    (h : (s.polls.any fun p => decide (p.runner = runner)) = false) :
    s.load runner = s.attempts.countP fun a => decide (a.runner = runner) := by
  have hnone : (s.polls.filter fun p => decide (p.runner = runner)) = [] :=
    List.filter_eq_nil_iff.mpr (List.any_eq_false.mp h)
  rw [load_eq, hnone]
  rfl

theorem load_poll {svc : Service} {cfg : Nat → RunnerConfig} {s : Fleet} (h : Safe svc cfg s)
    (runner : Nat) (rowLocked : List Nat) (runner' : Nat)
    (hload : s.load runner' ≤ (cfg runner').parallelism) :
    (s.poll cfg runner rowLocked).load runner' ≤ (cfg runner').parallelism := by
  unfold Fleet.poll
  split
  · exact hload
  · rename_i hguard
    split
    · exact hload
    · rename_i jobs db' hpoll
      simp only [Bool.or_eq_true, decide_eq_true_eq, not_or, Bool.not_eq_true] at hguard
      have hlen := pollJobs_length h.wf hpoll
      rw [load, held_poll, List.countP_append]
      by_cases hr : runner = runner'
      · subst hr
        have hnew : (jobs.map fun job => (runner, job.id)).countP
            (fun x => decide (x.1 = runner)) ≤ jobs.length :=
          List.countP_le_length.trans (Nat.le_of_eq (List.length_map ..))
        have hidle : s.held.countP (fun x => decide (x.1 = runner)) =
            s.attempts.countP fun a => decide (a.runner = runner) := load_idle hguard.1
        have havail := hguard.2
        unfold available at hlen havail
        omega
      · have hnone : (jobs.map fun job => (runner, job.id)).countP
            (fun x => decide (x.1 = runner')) = 0 := by
          rw [List.countP_eq_zero]
          intro x hx
          obtain ⟨job, -, rfl⟩ := List.mem_map.mp hx
          simpa using hr
        rw [hnone]
        exact hload

theorem load_step {svc : Service} {cfg : Nat → RunnerConfig} {s : Fleet} (h : Safe svc cfg s)
    (event : FleetEvent) (runner' : Nat) (hload : s.load runner' ≤ (cfg runner').parallelism) :
    (step svc cfg s event).load runner' ≤ (cfg runner').parallelism := by
  cases event with
  | tick d => exact hload
  | engine op fuel =>
    dsimp only [step]
    split
    · exact hload
    · exact hload
  | poll runner rowLocked => exact load_poll h runner rowLocked runner' hload
  | polled runner => exact (load_mono (held_polled cfg s runner) runner').trans hload
  | pollLost runner =>
    exact (load_mono (held_shrink (List.Sublist.refl _) (List.filter_sublist ..)).subperm
      runner').trans hload
  | heartbeat runner jobID =>
    dsimp only [step, heartbeat]
    split
    · exact hload
    · exact hload
  | renewed i =>
    dsimp only [step]
    split
    · exact hload
    · exact (load_mono (held_renewed s _).subperm runner').trans hload
  | returned runner jobID outcome =>
    have hsame : (s.returned cfg runner jobID outcome).load runner' = s.load runner' := by
      rw [load, held_returned, load]
    exact hsame.trans_le hload
  | report i fuel =>
    dsimp only [step]
    split
    · exact hload
    · exact hload
  | done runner jobID =>
    exact (load_mono (held_shrink (List.filter_sublist ..) (List.Sublist.refl _)).subperm
      runner').trans hload

end Fleet

/-- A runner never runs more handlers than it has slots, and it never asks for
    jobs it has no slot for: the jobs of an answer that is under way count as
    well. -/
theorem slots_respected (svc : Service) (cfg : Nat → RunnerConfig) (events : List FleetEvent)
    (runner : Nat) :
    (Fleet.run svc cfg events).attempts.countP (fun a => decide (a.runner = runner)) +
        (((Fleet.run svc cfg events).polls.filter fun p => decide (p.runner = runner)).map
          (·.jobs.length)).sum ≤ (cfg runner).parallelism := by
  rw [← Fleet.load_eq]
  have h₀ : Fleet.Safe svc cfg {} ∧ Fleet.load {} runner ≤ (cfg runner).parallelism :=
    ⟨Fleet.safe_start svc cfg, Nat.zero_le _⟩
  have hstep : ∀ s event, Fleet.Safe svc cfg s ∧ s.load runner ≤ (cfg runner).parallelism → True →
      Fleet.Safe svc cfg (Fleet.step svc cfg s event) ∧
        (Fleet.step svc cfg s event).load runner ≤ (cfg runner).parallelism :=
    fun _ event h _ => ⟨h.1.step event, Fleet.load_step h.1 event runner h.2⟩
  exact (Run.invariant (G := fun _ _ => True) hstep h₀ (Run.guarded_true _ events)).2

end Rochallor
