import Rochallor.Kafka.Election

/-! # One relay at a time

    The lock names at most one live session, but a replica learns late that its
    own has ended.  So two relays can publish at a time; then the session of one
    of them has ended, and its next ping will tell.  A relay that winds down
    after the lock has gone begins no further cycle.

    Nobody sits on the lock: a replica that does not lead gives it back or
    closes its connection, and the lock is never taken twice, so one unlock is
    enough.
-/

namespace Rochallor

/-! ## One replica -/

/-- The states a replica can be in. -/
inductive Replica.Ok (r : Replica) : Prop
  | off (hphase : r.phase = .down ∨ r.phase = .closing) (hleader : r.isLeader = false)
      (hconn : r.conn = none) (hctx : r.leaderCtx = none) (hrelays : r.relays = [])
  | follows (hphase : r.phase = .loop) (hleader : r.isLeader = false) (hctx : r.leaderCtx = none)
      (hrelays : r.relays = [])
  | leads (tenure : Nat) (hphase : r.phase = .loop) (hleader : r.isLeader = true)
      (hconn : r.conn ≠ none) (hctx : r.leaderCtx = some tenure)
      (hrelays : r.relays = [tenure] ∨ (r.rootCancelled = true ∧ r.relays = []))
  | asks (got : Bool) (hphase : r.phase = .asked got) (hleader : r.isLeader = false)
      (hconn : r.conn ≠ none) (hctx : r.leaderCtx = none) (hrelays : r.relays = [])
  | winds (hphase : r.phase = .lost) (hleader : r.isLeader = false) (hconn : r.conn = none)
      (hctx : r.leaderCtx = none) (hrelays : r.relays.length ≤ 1)
  | releases (hphase : r.phase = .released) (hleader : r.isLeader = false)
      (hctx : r.leaderCtx = none) (hrelays : r.relays.length ≤ 1)

namespace Replica

variable {r : Replica}

/-- The lock has been granted to the replica, and it has not let go. -/
def grantee (r : Replica) : Prop :=
  r.isLeader = true ∨ r.phase = .asked true

/-- The replica may hold the lock. -/
def entitled (r : Replica) : Prop :=
  r.grantee ∨ r.phase = .released

theorem ok_start : Ok {} := .off (.inl rfl) rfl rfl rfl rfl

theorem Ok.relays_le (h : r.Ok) : r.relays.length ≤ 1 := by
  cases h with
  | off hphase hleader hconn hctx hrelays => simp [hrelays]
  | follows hphase hleader hctx hrelays => simp [hrelays]
  | leads tenure hphase hleader hconn hctx hrelays =>
    rcases hrelays with hrelays | ⟨-, hrelays⟩ <;> simp [hrelays]
  | asks got hphase hleader hconn hctx hrelays => simp [hrelays]
  | winds hphase hleader hconn hctx hrelays => exact hrelays
  | releases hphase hleader hctx hrelays => exact hrelays

/-- Leaders are at the head of their loop. -/
theorem Ok.not_leader (h : r.Ok) (hphase : r.phase ≠ .loop) : r.isLeader = false := by
  cases h with
  | leads _ hleads => exact absurd hleads hphase
  | off _ hleader => exact hleader
  | follows _ hleader => exact hleader
  | asks _ _ hleader => exact hleader
  | winds _ hleader => exact hleader
  | releases _ hleader => exact hleader

/-- Without leadership there is no tenure, and no relay but one that winds
    down. -/
theorem Ok.resting (h : r.Ok) (hleader : r.isLeader = false) :
    r.leaderCtx = none ∧ (r.phase ≠ .lost → r.phase ≠ .released → r.relays = []) := by
  cases h with
  | leads _ _ hleads => simp [hleads] at hleader
  | off _ _ _ hctx hrelays => exact ⟨hctx, fun _ _ => hrelays⟩
  | follows _ _ hctx hrelays => exact ⟨hctx, fun _ _ => hrelays⟩
  | asks _ _ _ _ hctx hrelays => exact ⟨hctx, fun _ _ => hrelays⟩
  | winds hphase _ _ hctx => exact ⟨hctx, fun hlost _ => absurd hphase hlost⟩
  | releases hphase _ hctx => exact ⟨hctx, fun _ hreleased => absurd hphase hreleased⟩

/-- A follower at the head of its loop. -/
theorem Ok.follower (h : r.Ok) (hphase : r.phase = .loop) (hleader : r.isLeader = false) :
    r.leaderCtx = none ∧ r.relays = [] := by
  obtain ⟨hctx, hrelays⟩ := h.resting hleader
  exact ⟨hctx, hrelays (by simp [hphase]) (by simp [hphase])⟩

/-- The connection is closed where the replica has no use for it. -/
theorem Ok.hung (h : r.Ok)
    (hphase : r.phase = .lost ∨ r.phase = .closing ∨ r.phase = .down) : r.conn = none := by
  cases h with
  | off _ _ hconn => exact hconn
  | winds _ _ hconn => exact hconn
  | follows hfollows => simp [hfollows] at hphase
  | leads _ hleads => simp [hleads] at hphase
  | asks _ hasks => simp [hasks] at hphase
  | releases hreleases => simp [hreleases] at hphase

theorem Ok.asking (h : r.Ok) {got : Bool} (hphase : r.phase = .asked got) : r.conn ≠ none := by
  cases h with
  | asks _ _ _ hconn => exact hconn
  | off hoff => rcases hoff with hoff | hoff <;> simp [hoff] at hphase
  | follows hfollows => simp [hfollows] at hphase
  | leads _ hleads => simp [hleads] at hphase
  | winds hwinds => simp [hwinds] at hphase
  | releases hreleases => simp [hreleases] at hphase

/-- A leader is at the head of its loop, and its relay runs unless the runtime
    is being stopped. -/
theorem Ok.leader (h : r.Ok) (hleader : r.isLeader = true) :
    r.phase = .loop ∧ r.conn ≠ none ∧ ∃ tenure, r.leaderCtx = some tenure ∧
      (r.relays = [tenure] ∨ (r.rootCancelled = true ∧ r.relays = [])) := by
  cases h with
  | leads tenure hphase _ hconn hctx hrelays => exact ⟨hphase, hconn, tenure, hctx, hrelays⟩
  | off _ hno => simp [hno] at hleader
  | follows _ hno => simp [hno] at hleader
  | asks _ _ hno => simp [hno] at hleader
  | winds _ hno => simp [hno] at hleader
  | releases _ hno => simp [hno] at hleader

/-- Only a leader publishes. -/
theorem Ok.publishes_iff (h : r.Ok) :
    r.publishes = true ↔ r.isLeader = true ∧ r.rootCancelled = false := by
  constructor
  · intro hpub
    obtain ⟨k, hk, hlive⟩ := List.any_eq_true.mp hpub
    simp only [cancelled, Bool.not_eq_true', Bool.or_eq_false_iff, decide_eq_false_iff_not,
      not_not] at hlive
    obtain ⟨hroot, hctx⟩ := hlive
    cases h with
    | leads tenure hphase hleader => exact ⟨hleader, hroot⟩
    | off _ _ _ hnone => simp [hnone] at hctx
    | follows _ _ hnone => simp [hnone] at hctx
    | asks _ _ _ _ hnone => simp [hnone] at hctx
    | winds _ _ _ hnone => simp [hnone] at hctx
    | releases _ _ hnone => simp [hnone] at hctx
  · rintro ⟨hleader, hroot⟩
    obtain ⟨-, -, tenure, hctx, hrelays | ⟨hcancelled, -⟩⟩ := h.leader hleader
    · simp [publishes, cancelled, hrelays, hctx, hroot]
    · simp [hroot] at hcancelled

/-- A relay that returns. -/
theorem Ok.relayReturns (h : r.Ok) {tenure : Nat} (hcancelled : r.cancelled tenure = true) :
    Ok { r with relays := r.relays.filter fun k => decide (k ≠ tenure) } := by
  have hnil : r.relays = [] → (r.relays.filter fun k => decide (k ≠ tenure)) = [] := by
    intro hnil
    rw [hnil]
    rfl
  have hle : r.relays.length ≤ 1 → (r.relays.filter fun k => decide (k ≠ tenure)).length ≤ 1 :=
    fun hle => Nat.le_trans (List.length_filter_le ..) hle
  cases h with
  | off hphase hleader hconn hctx hrelays => exact .off hphase hleader hconn hctx (hnil hrelays)
  | follows hphase hleader hctx hrelays => exact .follows hphase hleader hctx (hnil hrelays)
  | asks got hphase hleader hconn hctx hrelays =>
    exact .asks got hphase hleader hconn hctx (hnil hrelays)
  | winds hphase hleader hconn hctx hrelays => exact .winds hphase hleader hconn hctx (hle hrelays)
  | releases hphase hleader hctx hrelays => exact .releases hphase hleader hctx (hle hrelays)
  | leads tenure' hphase hleader hconn hctx hrelays =>
    refine .leads tenure' hphase hleader hconn hctx ?_
    rcases hrelays with hrelays | ⟨hroot, hrelays⟩
    · by_cases hk : tenure' = tenure
      · -- the relay of this tenure ends only with the runtime
        subst hk
        simp only [cancelled, hctx, ne_eq, not_true_eq_false, decide_false, Bool.or_false]
          at hcancelled
        exact .inr ⟨hcancelled, by simp [hrelays]⟩
      · exact .inl (by simp [hrelays, hk])
    · exact .inr ⟨hroot, hnil hrelays⟩

/-- A follower becomes the leader and starts its relay. -/
theorem Ok.elected (h : r.Ok) (hphase : r.phase = .asked true) (hconn : r.conn ≠ none) :
    Ok { r with phase := .loop, isLeader := true }.onLeader := by
  obtain ⟨hctx, hrelays⟩ := h.resting (h.not_leader (by simp [hphase]))
  unfold onLeader
  simp only [hctx]
  exact .leads r.tenures rfl rfl hconn rfl
    (.inl (by simp [hrelays (by simp [hphase]) (by simp [hphase])]))

end Replica

/-! ## The cluster -/

namespace Cluster

theorem goes_self (s : Cluster) (i : Nat) (r : Replica) : (s.goes i r).replica i = r :=
  Function.update_self ..

theorem goes_other (s : Cluster) {i j : Nat} (hj : j ≠ i) (r : Replica) :
    (s.goes i r).replica j = s.replica j :=
  Function.update_of_ne hj ..

/-- What holds of the replicas and of Postgres at any time. -/
structure Inv (s : Cluster) : Prop where
  pg : s.pg.WF
  ok : ∀ i, (s.replica i).Ok
  conn_lt : ∀ i c, (s.replica i).conn = some c → c < s.pg.next
  conn_inj : ∀ i j c, (s.replica i).conn = some c → (s.replica j).conn = some c → i = j
  granted : ∀ i c, (s.replica i).conn = some c → (s.replica i).grantee → c ∈ s.pg.live →
    s.pg.holder = some c
  held : ∀ i c, s.pg.holder = some c → (s.replica i).conn = some c → (s.replica i).entitled
  once : s.pg.depth ≤ 1

theorem inv_start : Inv {} where
  pg := SessionLock.wf_start
  ok := fun _ => Replica.ok_start
  conn_lt := by simp
  conn_inj := by simp
  granted := by simp
  held := by simp
  once := Nat.zero_le _

namespace Inv

variable {s : Cluster}

/-- A replica goes on, and Postgres with it.  The other replicas are asked for
    nothing but what Postgres has to keep for them. -/
theorem goes (h : s.Inv) {i : Nat} {r : Replica} {pg : SessionLock} (hpg : pg.WF)
    (hnext : s.pg.next ≤ pg.next) (honce : pg.depth ≤ 1) (hok : r.Ok)
    (hlt : ∀ c, r.conn = some c → c < pg.next)
    (hinj : ∀ j c, j ≠ i → r.conn = some c → (s.replica j).conn ≠ some c)
    (hgranted : ∀ c, r.conn = some c → r.grantee → c ∈ pg.live → pg.holder = some c)
    (hheld : ∀ c, pg.holder = some c → r.conn = some c → r.entitled)
    (hothers : ∀ j c, j ≠ i → (s.replica j).conn = some c →
      (c ∈ pg.live → c ∈ s.pg.live) ∧
      (s.pg.holder = some c → c ∈ pg.live → pg.holder = some c) ∧
      (pg.holder = some c → s.pg.holder = some c)) :
    Inv { s.goes i r with pg := pg } := by
  have hconn : ∀ j c, ((s.goes i r).replica j).conn = some c →
      (j = i ∧ r.conn = some c) ∨ (j ≠ i ∧ (s.replica j).conn = some c) := by
    intro j c hc
    by_cases hj : j = i
    · rw [hj, goes_self] at hc
      exact .inl ⟨hj, hc⟩
    · rw [goes_other s hj] at hc
      exact .inr ⟨hj, hc⟩
  constructor
  · exact hpg
  · intro j
    show ((s.goes i r).replica j).Ok
    by_cases hj : j = i
    · rw [hj, goes_self]
      exact hok
    · rw [goes_other s hj]
      exact h.ok j
  · intro j c hc
    rcases hconn j c hc with ⟨-, hc⟩ | ⟨-, hc⟩
    · exact hlt c hc
    · exact Nat.lt_of_lt_of_le (h.conn_lt j c hc) hnext
  · intro j k c hj hk
    rcases hconn j c hj with ⟨hji, hjc⟩ | ⟨hji, hjc⟩
    · rcases hconn k c hk with ⟨hki, -⟩ | ⟨hki, hkc⟩
      · exact hji.trans hki.symm
      · exact absurd hkc (hinj k c hki hjc)
    · rcases hconn k c hk with ⟨-, hkc⟩ | ⟨-, hkc⟩
      · exact absurd hjc (hinj j c hji hkc)
      · exact h.conn_inj j k c hjc hkc
  · intro j c hc hg hlive
    replace hg : ((s.goes i r).replica j).grantee := hg
    rcases hconn j c hc with ⟨hj, hrc⟩ | ⟨hj, hjc⟩
    · rw [hj, goes_self] at hg
      exact hgranted c hrc hg hlive
    · rw [goes_other s hj] at hg
      obtain ⟨hold, hkeep, -⟩ := hothers j c hj hjc
      exact hkeep (h.granted j c hjc hg (hold hlive)) hlive
  · intro j c hholder hc
    show ((s.goes i r).replica j).entitled
    rcases hconn j c hc with ⟨hj, hrc⟩ | ⟨hj, hjc⟩
    · rw [hj, goes_self]
      exact hheld c hholder hrc
    · rw [goes_other s hj]
      exact h.held j c ((hothers j c hj hjc).2.2 hholder) hjc
  · exact honce

/-- A replica goes on by itself.  It may close its connection. -/
theorem alone (h : s.Inv) {i : Nat} {r : Replica} (hok : r.Ok)
    (hconn : ∀ c, r.conn = some c → (s.replica i).conn = some c ∧
      (r.grantee → (s.replica i).grantee) ∧ ((s.replica i).entitled → r.entitled)) :
    (s.goes i r).Inv :=
  h.goes h.pg (Nat.le_refl _) h.once hok (fun c hc => h.conn_lt i c (hconn c hc).1)
    (fun j c hj hc hj' => hj (h.conn_inj j i c hj' (hconn c hc).1))
    (fun c hc hg hlive => h.granted i c (hconn c hc).1 ((hconn c hc).2.1 hg) hlive)
    (fun c hholder hc => (hconn c hc).2.2 (h.held i c hholder (hconn c hc).1))
    fun _ _ _ _ => ⟨id, fun hholder _ => hholder, id⟩

/-- A replica without a connection. -/
theorem hung (h : s.Inv) {i : Nat} {r : Replica} (hok : r.Ok) (hconn : r.conn = none) :
    (s.goes i r).Inv :=
  h.alone hok fun c hc => by simp [hconn] at hc

theorem acquire (h : s.Inv) (i : Nat) : (s.acquire i).Inv := by
  unfold Cluster.acquire
  dsimp only
  split
  · rename_i hguard
    obtain ⟨hphase, hleader, -⟩ := hguard
    obtain ⟨hctx, hrelays⟩ := (h.ok i).follower hphase hleader
    -- the new session is nobody's yet
    have hnew : ∀ j, (s.replica j).conn ≠ some s.pg.next := fun j hj =>
      Nat.lt_irrefl _ (h.conn_lt j _ hj)
    refine h.goes (SessionLock.connect_wf h.pg) (Nat.le_succ _) h.once
      (.follows hphase hleader hctx hrelays) ?_ ?_ ?_ ?_ ?_
    · rintro c ⟨⟩
      exact Nat.lt_succ_self _
    · rintro j c - ⟨⟩
      exact hnew j
    · rintro c - (hl | hl) -
      · exact absurd (hl.symm.trans hleader) (by decide)
      · exact absurd (hl.symm.trans hphase) (by decide)
    · rintro c hholder ⟨⟩
      exact absurd (h.pg.fresh _ (h.pg.holder_live _ hholder)) (Nat.lt_irrefl _)
    · intro j c _ hc
      refine ⟨fun hlive => ?_, fun hholder _ => hholder, id⟩
      rcases SessionLock.mem_connect.mp hlive with hold | rfl
      · exact hold
      · exact absurd hc (hnew j)
  · exact h

theorem tryLock (h : s.Inv) (i : Nat) : (s.tryLock i).Inv := by
  unfold Cluster.tryLock
  dsimp only
  split
  · rename_i hguard
    obtain ⟨hphase, hleader⟩ := hguard
    obtain ⟨hctx, hrelays⟩ := (h.ok i).follower hphase hleader
    have hno : ¬ (s.replica i).entitled := by
      rintro ((hl | hl) | hl)
      · exact absurd (hl.symm.trans hleader) (by decide)
      · exact absurd (hl.symm.trans hphase) (by decide)
      · exact absurd (hl.symm.trans hphase) (by decide)
    split
    · exact h
    · rename_i c hc
      split
      · rename_i hlive
        -- a follower does not hold the lock, so it takes a free one
        have hholder : s.pg.holder ≠ some c := fun hholder => hno (h.held i c hholder hc)
        by_cases hg : s.pg.grants c = true
        · have hfree : s.pg.holder = none := by
            rcases (SessionLock.grants_iff.mp hg).2 with hfree | hmine
            · exact hfree
            · exact absurd hmine hholder
          obtain ⟨htaken, hdepth⟩ := SessionLock.tryLock_of_grants hg
          refine h.goes (SessionLock.tryLock_wf h.pg) (by simp) ?_
            (.asks _ rfl hleader (by simp [hc]) hctx hrelays) ?_ ?_ ?_ ?_ ?_
          · exact Nat.le_of_eq (by rw [hdepth, h.pg.depth.mp hfree])
          · intro c' hc'
            simpa using h.conn_lt i c' hc'
          · exact fun j c' hj hc' hj' => hj (h.conn_inj j i c' hj' hc')
          · intro c' hc' _ _
            obtain rfl : c = c' := Option.some.inj (hc.symm.trans hc')
            exact htaken
          · exact fun _ _ _ => .inl (.inr (by simp [hg]))
          · intro j c' hj hc'
            refine ⟨by simp, fun hold _ => ?_, fun hnew => ?_⟩
            · rw [hfree] at hold
              cases hold
            · obtain rfl : c = c' := Option.some.inj (htaken.symm.trans hnew)
              exact absurd (h.conn_inj j i c hc' hc) hj
        · rw [SessionLock.tryLock_of_not hg]
          refine h.alone (.asks _ rfl hleader (by simp [hc]) hctx hrelays) fun c' hc' =>
            ⟨hc', ?_, fun hent => absurd hent hno⟩
          rintro (hl | hl)
          · exact absurd (hl.symm.trans hleader) (by decide)
          · simp [hg] at hl
      · exact h.hung (.follows hphase hleader hctx hrelays) rfl
  · exact h

theorem answer (h : s.Inv) (i : Nat) (ok : Bool) : (s.answer i ok).Inv := by
  unfold Cluster.answer
  dsimp only
  split
  · rename_i got hphase
    have hok := h.ok i
    have hleader := hok.not_leader (by simp [hphase])
    obtain ⟨hctx, hrelays⟩ := hok.resting hleader
    replace hrelays := hrelays (by simp [hphase]) (by simp [hphase])
    split
    · exact h.hung (.follows rfl hleader hctx hrelays) rfl
    · split
      · rename_i hgot
        subst hgot
        have hconn : { s.replica i with phase := .loop, isLeader := true }.onLeader.conn =
            (s.replica i).conn := by
          simp [Replica.onLeader, hctx]
        refine h.alone (hok.elected hphase (hok.asking hphase)) fun c hc =>
          ⟨hconn ▸ hc, fun _ => .inr hphase, fun _ => .inl (.inl ?_)⟩
        simp [Replica.onLeader, hctx]
      · rename_i hgot
        obtain rfl : got = false := by simpa using hgot
        refine h.alone (.follows rfl hleader hctx hrelays) fun c hc => ⟨hc, ?_, ?_⟩
        · rintro (hl | hl)
          · exact .inl hl
          · cases hl
        · rintro ((hl | hl) | hl)
          · exact .inl (.inl hl)
          · exact absurd (hl.symm.trans hphase) (by decide)
          · exact absurd (hl.symm.trans hphase) (by simp)
  · exact h

theorem ping (h : s.Inv) (i : Nat) (ok : Bool) : (s.ping i ok).Inv := by
  unfold Cluster.ping
  dsimp only
  split
  · split
    · exact h
    · exact h.hung (.winds rfl rfl rfl rfl (h.ok i).relays_le) rfl
  · exact h

theorem relayReturns (h : s.Inv) (i tenure : Nat) : (s.relayReturns i tenure).Inv := by
  unfold Cluster.relayReturns
  dsimp only
  split
  · rename_i hcancelled
    exact h.alone ((h.ok i).relayReturns hcancelled) fun c hc => ⟨hc, id, id⟩
  · exact h

theorem drained (h : s.Inv) (i : Nat) : (s.drained i).Inv := by
  unfold Cluster.drained
  dsimp only
  split
  · rename_i hnil
    split
    · rename_i hphase
      have hleader := (h.ok i).not_leader (by simp [hphase])
      have hconn := (h.ok i).hung (.inl hphase)
      exact h.hung (.follows rfl hleader ((h.ok i).resting hleader).1 hnil) hconn
    · rename_i hphase
      have hleader := (h.ok i).not_leader (by simp [hphase])
      exact h.hung (.off (.inr rfl) hleader rfl ((h.ok i).resting hleader).1 hnil) rfl
    · exact h
  · exact h

/-- A runtime that is being stopped lets go of the lock, or closes its
    connection. -/
theorem release (h : s.Inv) (i : Nat) (ok : Bool) : (s.release i ok).Inv := by
  unfold Cluster.release
  dsimp only
  split
  · rename_i hguard
    obtain ⟨hphase, -⟩ := hguard
    split
    · rename_i hnone
      have hleader : (s.replica i).isLeader = false := by
        rw [Bool.eq_false_iff]
        exact fun hleader => ((h.ok i).leader hleader).2.1 hnone
      obtain ⟨hctx, hrelays⟩ := (h.ok i).follower hphase hleader
      exact h.hung (.off (.inr rfl) hleader hnone hctx hrelays) hnone
    · rename_i c hc
      split
      · rename_i hleader
        have hrel : Replica.Ok { s.replica i with phase := .released, isLeader := false }.onLeaderLost :=
          .releases rfl rfl rfl (h.ok i).relays_le
        have hent : { s.replica i with phase := .released, isLeader := false }.onLeaderLost.entitled :=
          .inr rfl
        by_cases hsent : ok = true
        · rw [if_pos hsent]
          refine h.goes (SessionLock.unlock_wf h.pg) (by simp)
            (Nat.le_trans SessionLock.unlock_depth_le h.once) hrel ?_ ?_ ?_ ?_ ?_
          · intro c' hc'
            simpa using h.conn_lt i c' hc'
          · exact fun j c' hj hc' hj' => hj (h.conn_inj j i c' hj' hc')
          · rintro c' - (hl | hl) -
            · cases hl
            · cases hl
          · exact fun _ _ _ => hent
          · intro j c' hj hc'
            refine ⟨by simp, fun hholder _ => ?_, SessionLock.unlock_holder⟩
            have hne : s.pg.holder ≠ some c := by
              intro hmine
              obtain rfl : c' = c := Option.some.inj (hholder.symm.trans hmine)
              exact hj (h.conn_inj j i c' hc' hc)
            rw [SessionLock.unlock_of_ne hne]
            exact hholder
        · rw [if_neg hsent]
          refine h.alone hrel fun c' hc' => ⟨hc', ?_, fun _ => hent⟩
          rintro (hl | hl)
          · cases hl
          · cases hl
      · rename_i hleader
        have hleader : (s.replica i).isLeader = false := by simpa using hleader
        obtain ⟨hctx, hrelays⟩ := (h.ok i).follower hphase hleader
        exact h.hung (.off (.inr rfl) hleader rfl hctx hrelays) rfl
  · exact h

theorem sessionEnds (h : s.Inv) (c : Nat) : Inv { s with pg := s.pg.hangUp c } where
  pg := SessionLock.hangUp_wf h.pg
  ok := h.ok
  conn_lt := fun i c' hc' => by simpa using h.conn_lt i c' hc'
  conn_inj := h.conn_inj
  granted := by
    intro i c' hc' hg hlive
    obtain ⟨hlive, hne⟩ := SessionLock.mem_hangUp.mp hlive
    exact SessionLock.hangUp_holder_of_ne (h.granted i c' hc' hg hlive) hne
  held := fun i c' hholder hc' => h.held i c' (SessionLock.hangUp_holder hholder) hc'
  once := Nat.le_trans SessionLock.hangUp_depth_le h.once

theorem step (h : s.Inv) (event : ElectionEvent) : (Cluster.step s event).Inv := by
  cases event with
  | start i =>
    dsimp only [Cluster.step]
    split
    · rename_i hphase
      obtain ⟨hctx, hrelays⟩ := (h.ok i).resting ((h.ok i).not_leader (by simp [hphase]))
      exact h.hung (.follows rfl rfl hctx (hrelays (by simp [hphase]) (by simp [hphase]))) rfl
    · exact h
  | acquire i => exact h.acquire i
  | tryLock i => exact h.tryLock i
  | answer i ok => exact h.answer i ok
  | ping i ok => exact h.ping i ok
  | relayReturns i tenure => exact h.relayReturns i tenure
  | drained i => exact h.drained i
  | stop i =>
    dsimp only [Cluster.step]
    split
    · exact h
    · refine h.alone ?_ fun c hc => ⟨hc, id, id⟩
      cases h.ok i with
      | off hphase hleader hconn hctx hrelays => exact .off hphase hleader hconn hctx hrelays
      | follows hphase hleader hctx hrelays => exact .follows hphase hleader hctx hrelays
      | leads tenure hphase hleader hconn hctx hrelays =>
        exact .leads tenure hphase hleader hconn hctx (hrelays.imp id fun hnil => ⟨rfl, hnil.2⟩)
      | asks got hphase hleader hconn hctx hrelays =>
        exact .asks got hphase hleader hconn hctx hrelays
      | winds hphase hleader hconn hctx hrelays => exact .winds hphase hleader hconn hctx hrelays
      | releases hphase hleader hctx hrelays => exact .releases hphase hleader hctx hrelays
  | release i ok => exact h.release i ok
  | stopped i =>
    dsimp only [Cluster.step]
    split
    · rename_i hguard
      obtain ⟨hphase, hrelays⟩ := hguard
      have hleader := (h.ok i).not_leader (by simp [hphase])
      have hconn := (h.ok i).hung (.inr (.inl hphase))
      exact h.hung (.off (.inl rfl) hleader hconn ((h.ok i).resting hleader).1 hrelays) hconn
    · exact h
  | crash i => exact h.hung Replica.ok_start rfl
  | sessionEnds c => exact h.sessionEnds c

theorem run (events : List ElectionEvent) : (Cluster.run events).Inv :=
  Run.invariant (G := fun _ _ => True) (fun _ event h _ => h.step event) inv_start
    (Run.guarded_true _ events)

end Inv

/-- What the election achieves. -/
structure Led (s : Cluster) : Prop where
  /-- No replica runs two relays. -/
  one_relay : ∀ i, (s.replica i).relays.length ≤ 1
  /-- A leader's relay runs until its runtime is stopped, and nobody else's does. -/
  leader_publishes : ∀ i, (s.replica i).publishes = true ↔
    (s.replica i).isLeader = true ∧ (s.replica i).rootCancelled = false
  /-- Of two replicas that publish, one has lost its session. -/
  one_live : ∀ i j, (s.replica i).publishes = true → (s.replica j).publishes = true →
    s.connected i = true → s.connected j = true → i = j
  /-- Nobody else sits on the lock, unless a graceful unlock has failed and the
      connection is about to be closed. -/
  lock_returned : ∀ i c, s.pg.holder = some c → (s.replica i).conn = some c →
    (s.replica i).isLeader = true ∨ (s.replica i).phase = .asked true ∨
      (s.replica i).phase = .released
  /-- A stopped runtime has nothing left. -/
  stopped : ∀ i, (s.replica i).phase = .down →
    (s.replica i).conn = none ∧ (s.replica i).isLeader = false ∧ (s.replica i).relays = []

theorem Inv.led {s : Cluster} (h : s.Inv) : s.Led where
  one_relay := fun i => (h.ok i).relays_le
  leader_publishes := fun i => (h.ok i).publishes_iff
  one_live := by
    have hholds : ∀ i, (s.replica i).publishes = true → s.connected i = true →
        ∃ c, (s.replica i).conn = some c ∧ s.pg.holder = some c := by
      intro i hpub hconn
      obtain ⟨hleader, -⟩ := (h.ok i).publishes_iff.mp hpub
      obtain ⟨c, hc, hlive⟩ := (Option.any_eq_true ..).mp hconn
      exact ⟨c, hc, h.granted i c hc (.inl hleader) (of_decide_eq_true hlive)⟩
    intro i j hi hj hci hcj
    obtain ⟨c, hc, hholder⟩ := hholds i hi hci
    obtain ⟨c', hc', hholder'⟩ := hholds j hj hcj
    obtain rfl : c = c' := Option.some.inj (hholder.symm.trans hholder')
    exact h.conn_inj i j c hc hc'
  lock_returned := fun i c hholder hc => or_assoc.mp (h.held i c hholder hc)
  stopped := by
    intro i hphase
    have hleader := (h.ok i).not_leader (by simp [hphase])
    have hrelays := ((h.ok i).resting hleader).2 (by simp [hphase]) (by simp [hphase])
    exact ⟨(h.ok i).hung (.inr (.inr hphase)), hleader, hrelays⟩

end Cluster

namespace Cluster

/-- One attempt of a follower, with a fresh connection if its own is dead. -/
def attempt (i : Nat) : List ElectionEvent :=
  [.tryLock i, .acquire i, .tryLock i, .answer i true]

section Attempts

variable {s : Cluster} {i : Nat} (hphase : (s.replica i).phase = .loop)
  (hleader : (s.replica i).isLeader = false) (hfree : s.pg.holder = none)

include hphase hleader

theorem tryLock_live {c : Nat} (hfree : s.pg.holder = none) (hc : (s.replica i).conn = some c)
    (hlive : c ∈ s.pg.live) :
    ((s.tryLock i).replica i) = { s.replica i with phase := .asked true } := by
  have hg : s.pg.grants c = true := SessionLock.grants_iff.mpr ⟨hlive, .inl hfree⟩
  unfold tryLock
  simp [hphase, hleader, hc, hlive, hg, goes]

theorem tryLock_dead {c : Nat} (hc : (s.replica i).conn = some c) (hdead : c ∉ s.pg.live) :
    s.tryLock i = s.goes i { s.replica i with conn := none } := by
  unfold tryLock
  simp [hphase, hleader, hc, hdead]

theorem tryLock_none (hc : (s.replica i).conn = none) : s.tryLock i = s := by
  unfold tryLock
  simp [hphase, hleader, hc]

/-- A follower without a connection gets the lock with a fresh one. -/
theorem acquire_tryLock (hfree : s.pg.holder = none) (hc : (s.replica i).conn = none) :
    (((s.acquire i).tryLock i).replica i) =
      { s.replica i with conn := some s.pg.next, phase := .asked true } := by
  have hnew : s.acquire i =
      { s.goes i { s.replica i with conn := some s.pg.next } with pg := s.pg.connect } := by
    unfold acquire
    simp [hphase, hleader, hc]
  have hself : (s.acquire i).replica i = { s.replica i with conn := some s.pg.next } := by
    rw [hnew]
    exact goes_self ..
  have hpg : (s.acquire i).pg = s.pg.connect := by rw [hnew]
  rw [tryLock_live (c := s.pg.next) (by simp [hself, hphase]) (by simp [hself, hleader])
    (by simp [hpg, hfree]) (by simp [hself]) (by simp [hpg, SessionLock.mem_connect]), hself]

end Attempts

theorem answer_granted {s : Cluster} {i : Nat} (h : (s.replica i).phase = .asked true) :
    ((s.answer i true).replica i).isLeader = true ∧
      ((s.answer i true).replica i).rootCancelled = (s.replica i).rootCancelled := by
  have hself : (s.answer i true).replica i =
      { s.replica i with phase := .loop, isLeader := true }.onLeader := by
    unfold answer
    simp [h, goes]
  rw [hself]
  unfold Replica.onLeader
  split <;> exact ⟨rfl, rfl⟩

/-- While an answer is under way, neither a connection nor the lock is asked
    for. -/
theorem asked_waits {s : Cluster} {i : Nat} (h : (s.replica i).phase ≠ .loop) :
    (s.acquire i).tryLock i = s := by
  have hacquire : s.acquire i = s := by
    unfold acquire
    simp [h]
  rw [hacquire]
  unfold tryLock
  simp [h]

/-- The request of a follower is granted, on its own connection or on a fresh
    one. -/
theorem request_granted {s : Cluster} {i : Nat} (hphase : (s.replica i).phase = .loop)
    (hleader : (s.replica i).isLeader = false) (hfree : s.pg.holder = none) :
    ((((s.tryLock i).acquire i).tryLock i).replica i).phase = .asked true ∧
      ((((s.tryLock i).acquire i).tryLock i).replica i).rootCancelled =
        (s.replica i).rootCancelled := by
  cases hc : (s.replica i).conn with
  | none =>
    rw [tryLock_none hphase hleader hc, acquire_tryLock hphase hleader hfree hc]
    exact ⟨rfl, rfl⟩
  | some c =>
    by_cases hlive : c ∈ s.pg.live
    · have hasked := tryLock_live hphase hleader hfree hc hlive
      rw [asked_waits (by simp [hasked]), hasked]
      exact ⟨rfl, rfl⟩
    · have hself := goes_self s i { s.replica i with conn := none }
      have hfree' : (s.goes i { s.replica i with conn := none }).pg.holder = none := hfree
      rw [tryLock_dead hphase hleader hc hlive]
      generalize s.goes i { s.replica i with conn := none } = s' at hself hfree' ⊢
      rw [acquire_tryLock (by rw [hself]; exact hphase) (by rw [hself]; exact hleader) hfree'
        (by rw [hself]), hself]
      exact ⟨rfl, rfl⟩

end Cluster

end Rochallor
