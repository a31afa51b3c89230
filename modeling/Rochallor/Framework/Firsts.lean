import Mathlib.Data.List.Induction
import Mathlib.Data.List.Nodup

/-! # Tables that keep the first row of each key

    An insertion under a key the table already has does nothing
    (`ON CONFLICT DO NOTHING`).  What is left of a sequence of insertions is
    the first row of each key, in the order of the insertions.
-/

namespace Firsts

variable {α : Type u} {κ : Type v} [DecidableEq κ] {key : α → κ}

/-- Inserts a row unless its key is taken. -/
def insert (key : α → κ) (t : List α) (r : α) : List α :=
  if t.any fun r' => decide (key r' = key r) then t else t ++ [r]

/-- What is left of the insertions. -/
def keep (key : α → κ) (rows : List α) : List α :=
  rows.foldl (insert key) []

@[simp] theorem keep_nil : keep key ([] : List α) = [] := rfl

theorem keep_concat (rows : List α) (r : α) :
    keep key (rows ++ [r]) = insert key (keep key rows) r := by
  simp [keep]

theorem keep_append (rows more : List α) :
    keep key (rows ++ more) = more.foldl (insert key) (keep key rows) := by
  simp [keep]

theorem insert_taken {t : List α} {r r' : α} (hr : r' ∈ t) (hkey : key r' = key r) :
    insert key t r = t := by
  unfold insert
  rw [if_pos]
  exact List.any_eq_true.mpr ⟨r', hr, by simp [hkey]⟩

theorem insert_fresh {t : List α} {r : α} (h : ∀ r' ∈ t, key r' ≠ key r) :
    insert key t r = t ++ [r] := by
  unfold insert
  rw [if_neg]
  intro hany
  obtain ⟨r', hr', hkey⟩ := List.any_eq_true.mp hany
  exact h r' hr' (of_decide_eq_true hkey)

/-- The keys after an insertion. -/
theorem insert_cases (key : α → κ) (t : List α) (r : α) :
    ((∃ r' ∈ t, key r' = key r) ∧ insert key t r = t) ∨
      ((∀ r' ∈ t, key r' ≠ key r) ∧ insert key t r = t ++ [r]) := by
  by_cases h : ∃ r' ∈ t, key r' = key r
  · obtain ⟨r', hr', hkey⟩ := h
    exact .inl ⟨⟨r', hr', hkey⟩, insert_taken hr' hkey⟩
  · have hfresh : ∀ r' ∈ t, key r' ≠ key r := fun r' hr' hkey => h ⟨r', hr', hkey⟩
    exact .inr ⟨hfresh, insert_fresh hfresh⟩

/-- No key is kept twice. -/
theorem keys_nodup (rows : List α) : ((keep key rows).map key).Nodup := by
  induction rows using List.reverseRecOn with
  | nil => exact List.nodup_nil
  | append_singleton rows r ih =>
    rw [keep_concat]
    rcases insert_cases key (keep key rows) r with ⟨-, heq⟩ | ⟨hfresh, heq⟩
    · rwa [heq]
    · rw [heq, List.map_append, List.nodup_append]
      refine ⟨ih, List.nodup_singleton _, ?_⟩
      intro k hk k' hk' hkk
      obtain ⟨r', hr', rfl⟩ := List.mem_map.mp hk
      rw [List.map_singleton, List.mem_singleton] at hk'
      exact hfresh r' hr' (hkk.trans hk')

/-- Every key that was inserted is kept. -/
theorem key_kept (key : α → κ) {rows : List α} {r : α} (hr : r ∈ rows) :
    ∃ r' ∈ keep key rows, key r' = key r := by
  induction rows using List.reverseRecOn with
  | nil => exact absurd hr List.not_mem_nil
  | append_singleton rows x ih =>
    rw [keep_concat]
    rcases insert_cases key (keep key rows) x with ⟨htaken, heq⟩ | ⟨-, heq⟩
    · rw [heq]
      rcases List.mem_append.mp hr with hr | hr
      · exact ih hr
      · obtain rfl := List.mem_singleton.mp hr
        exact htaken
    · rw [heq]
      rcases List.mem_append.mp hr with hr | hr
      · obtain ⟨r', hr', hkey⟩ := ih hr
        exact ⟨r', List.mem_append_left _ hr', hkey⟩
      · exact ⟨x, List.mem_append_right _ (List.mem_singleton_self x),
          (congrArg key (List.mem_singleton.mp hr)).symm⟩

/-- A kept row is the first one inserted under its key. -/
theorem kept_first {rows : List α} {r : α} (hr : r ∈ keep key rows) :
    ∃ before after, rows = before ++ r :: after ∧ ∀ r' ∈ before, key r' ≠ key r := by
  induction rows using List.reverseRecOn with
  | nil => exact absurd hr List.not_mem_nil
  | append_singleton rows x ih =>
    have hold : r ∈ keep key rows →
        ∃ before after, rows ++ [x] = before ++ r :: after ∧ ∀ r' ∈ before, key r' ≠ key r := by
      intro hr
      obtain ⟨before, after, rfl, hfirst⟩ := ih hr
      exact ⟨before, after ++ [x], by simp, hfirst⟩
    rw [keep_concat] at hr
    rcases insert_cases key (keep key rows) x with ⟨-, heq⟩ | ⟨hfresh, heq⟩
    · rw [heq] at hr
      exact hold hr
    · rw [heq] at hr
      rcases List.mem_append.mp hr with hr | hr
      · exact hold hr
      · obtain rfl := List.mem_singleton.mp hr
        refine ⟨rows, [], rfl, ?_⟩
        intro r' hr' hkey
        obtain ⟨r'', hr'', hkey'⟩ := key_kept key hr'
        exact hfresh r'' hr'' (hkey'.trans hkey)

end Firsts
