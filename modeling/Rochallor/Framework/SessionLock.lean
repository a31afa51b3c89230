import Mathlib.Data.List.Basic

/-! # Session locks

    A lock that a server keeps for the sessions of its clients.  A session that
    holds the lock may take it again, and has to give it back as often.  The
    lock goes when the session ends, whatever its client knows of that.
-/

/-- The sessions of a server and its lock. -/
structure SessionLock where
  live : List Nat := []
  next : Nat := 0
  holder : Option Nat := none
  /-- How often the holder has taken the lock. -/
  depth : Nat := 0

namespace SessionLock

variable {s : SessionLock} {c c' : Nat}

/-- A new session, which is `s.next`. -/
def connect (s : SessionLock) : SessionLock :=
  { s with live := s.live ++ [s.next], next := s.next + 1 }

/-- Whether the lock is granted to the session. -/
def grants (s : SessionLock) (c : Nat) : Bool :=
  decide (c ∈ s.live) && s.holder.all fun c' => decide (c' = c)

def tryLock (s : SessionLock) (c : Nat) : SessionLock :=
  if s.grants c then { s with holder := some c, depth := s.depth + 1 } else s

/-- A session that does not hold the lock has nothing to give back. -/
def unlock (s : SessionLock) (c : Nat) : SessionLock :=
  if s.holder = some c then
    if s.depth ≤ 1 then { s with holder := none, depth := 0 } else { s with depth := s.depth - 1 }
  else s

/-- The session ends. -/
def hangUp (s : SessionLock) (c : Nat) : SessionLock :=
  let live := s.live.filter fun x => decide (x ≠ c)
  if s.holder = some c then { s with live := live, holder := none, depth := 0 }
  else { s with live := live }

structure WF (s : SessionLock) : Prop where
  fresh : ∀ c ∈ s.live, c < s.next
  holder_live : ∀ c, s.holder = some c → c ∈ s.live
  depth : s.holder = none ↔ s.depth = 0

theorem wf_start : WF {} := ⟨by simp, by simp, by simp⟩

/-! ## What the operations leave alone -/

@[simp] theorem connect_holder : s.connect.holder = s.holder := rfl
@[simp] theorem connect_depth : s.connect.depth = s.depth := rfl
@[simp] theorem connect_next : s.connect.next = s.next + 1 := rfl

@[simp] theorem tryLock_live : (s.tryLock c).live = s.live := by
  unfold tryLock
  split <;> rfl

@[simp] theorem tryLock_next : (s.tryLock c).next = s.next := by
  unfold tryLock
  split <;> rfl

@[simp] theorem unlock_live : (s.unlock c).live = s.live := by
  unfold unlock
  split
  · split <;> rfl
  · rfl

@[simp] theorem unlock_next : (s.unlock c).next = s.next := by
  unfold unlock
  split
  · split <;> rfl
  · rfl

@[simp] theorem hangUp_next : (s.hangUp c).next = s.next := by
  unfold hangUp
  dsimp only
  split <;> rfl

theorem mem_connect : c ∈ s.connect.live ↔ c ∈ s.live ∨ c = s.next := by
  simp [connect]

theorem mem_hangUp : c' ∈ (s.hangUp c).live ↔ c' ∈ s.live ∧ c' ≠ c := by
  unfold hangUp
  dsimp only
  split <;> simp [List.mem_filter]

theorem connect_wf (h : s.WF) : s.connect.WF where
  fresh := by
    intro c hc
    rcases mem_connect.mp hc with hold | rfl
    · exact Nat.lt_succ_of_lt (h.fresh c hold)
    · exact Nat.lt_succ_self _
  holder_live := fun c hc => mem_connect.mpr (.inl (h.holder_live c hc))
  depth := h.depth

/-! ## Taking the lock -/

theorem grants_iff : s.grants c = true ↔ c ∈ s.live ∧ (s.holder = none ∨ s.holder = some c) := by
  unfold grants
  cases s.holder with
  | none => simp
  | some c' => simp

theorem tryLock_of_grants (h : s.grants c = true) :
    (s.tryLock c).holder = some c ∧ (s.tryLock c).depth = s.depth + 1 := by
  unfold tryLock
  rw [if_pos h]
  exact ⟨rfl, rfl⟩

theorem tryLock_of_not (h : ¬ s.grants c = true) : s.tryLock c = s := by
  unfold tryLock
  rw [if_neg h]

/-- Another session's lock stays. -/
theorem tryLock_holder_of_ne (h : s.holder = some c') : (s.tryLock c).holder = some c' := by
  by_cases hg : s.grants c = true
  · rcases (grants_iff.mp hg).2 with hnone | hsome
    · rw [h] at hnone
      cases hnone
    · rw [(tryLock_of_grants hg).1, ← hsome, h]
  · rw [tryLock_of_not hg, h]

theorem tryLock_wf (h : s.WF) : (s.tryLock c).WF := by
  by_cases hg : s.grants c = true
  · obtain ⟨hholder, hdepth⟩ := tryLock_of_grants hg
    refine ⟨by simpa using h.fresh, ?_, by simp [hholder, hdepth]⟩
    intro c' hc'
    obtain rfl : c = c' := Option.some.inj (hholder.symm.trans hc')
    simpa using (grants_iff.mp hg).1
  · rw [tryLock_of_not hg]
    exact h

/-! ## Giving it back -/

theorem unlock_once (h : s.holder = some c) (hdepth : s.depth = 1) :
    (s.unlock c).holder = none := by
  unfold unlock
  rw [if_pos h, if_pos (Nat.le_of_eq hdepth)]

/-- What another session holds is not given back. -/
theorem unlock_of_ne (h : s.holder ≠ some c) : s.unlock c = s := by
  unfold unlock
  rw [if_neg h]

theorem unlock_holder (h : (s.unlock c).holder = some c') : s.holder = some c' := by
  unfold unlock at h
  split at h
  · split at h
    · cases h
    · exact h
  · exact h

theorem unlock_depth_le : (s.unlock c).depth ≤ s.depth := by
  unfold unlock
  split
  · split
    · exact Nat.zero_le _
    · exact Nat.sub_le ..
  · exact Nat.le_refl _

theorem unlock_wf (h : s.WF) : (s.unlock c).WF := by
  refine ⟨by simpa using h.fresh, fun c' hc' => by simpa using h.holder_live c' (unlock_holder hc'), ?_⟩
  unfold unlock
  split
  · rename_i hholder
    split
    · simp
    · rename_i hdepth
      simp only [hholder, reduceCtorEq, false_iff]
      omega
  · exact h.depth

/-! ## The end of a session -/

theorem hangUp_holder_self : (s.hangUp c).holder ≠ some c := by
  unfold hangUp
  dsimp only
  split
  · simp
  · assumption

/-- Only the holder's end frees the lock. -/
theorem hangUp_holder_of_ne (h : s.holder = some c') (hne : c' ≠ c) :
    (s.hangUp c).holder = some c' := by
  unfold hangUp
  dsimp only
  rw [if_neg fun hc => hne (Option.some.inj (h.symm.trans hc))]
  exact h

theorem hangUp_holder (h : (s.hangUp c).holder = some c') : s.holder = some c' := by
  unfold hangUp at h
  dsimp only at h
  split at h
  · cases h
  · exact h

theorem hangUp_depth_le : (s.hangUp c).depth ≤ s.depth := by
  unfold hangUp
  dsimp only
  split
  · exact Nat.zero_le _
  · exact Nat.le_refl _

theorem hangUp_wf (h : s.WF) : (s.hangUp c).WF := by
  refine ⟨fun c' hc' => ?_, fun c' hc' => ?_, ?_⟩
  · rw [hangUp_next]
    exact h.fresh c' (mem_hangUp.mp hc').1
  · refine mem_hangUp.mpr ⟨h.holder_live c' (hangUp_holder hc'), ?_⟩
    rintro rfl
    exact hangUp_holder_self hc'
  · unfold hangUp
    dsimp only
    split
    · simp
    · exact h.depth

end SessionLock
