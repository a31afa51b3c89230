import Rochallor.Data.Decoded
import Rochallor.Instance.Handlers

/-! # Variables in two places

    The variables of an instance are kept in its row and, while a transaction
    runs, in memory.  A delta is merged into both: in memory by decoding,
    overlaying and encoding, in the row by `jsonb || jsonb`.
-/

namespace Rochallor

theorem variablesToMap_ok {raw : Json} {m : GoMap Value} (h : variablesToMap raw = .ok m) :
    (m.map (·.1)).Nodup ∧ ∀ ms, raw = .obj ms →
      ∃ vs, toMembers ms = .ok vs ∧ ∀ k, m.get k = GoMap.last vs k := by
  unfold variablesToMap at h
  split at h
  · obtain ⟨vs, hvs, h⟩ := bind_eq_ok h
    cases h
    refine ⟨overlay_nodup (by simp), ?_⟩
    intro ms hms
    cases hms
    refine ⟨vs, hvs, fun k => ?_⟩
    rw [GoMap.get_overlay]
    cases GoMap.last vs k <;> rfl
  · cases h
    exact ⟨List.nodup_nil, fun ms hms => by cases hms⟩
  · cases h

/-- How the variables change: `new` is the copy in memory afterwards, `g` the
    update of the row. -/
inductive Merged (old : Json) : Json → (Json → Json) → Prop
  | keep {g : Json → Json} (hg : ∀ j, g j = j) : Merged old old g
  | merge {m m' delta : GoMap Value} {p : GoMap Json} {new : Json} {g : Json → Json}
      (hold : variablesToMap old = .ok m) (hm' : (m'.map (·.1)).Nodup)
      (hget : ∀ k, m'.get k = (delta.last k).or (m.get k))
      (hnew : (Value.obj m').marshal = .ok new) (hp : marshalMembers delta = .ok p)
      (hg : ∀ ms, g (.obj ms) = .obj (GoMap.overlay ms p)) : Merged old new g

/-- Memory and row stay the same object. -/
theorem SameObject.merged {old new row : Json} {g : Json → Json} (h : SameObject old row)
    (hm : Merged old new g) : SameObject new (g row) := by
  cases hm with
  | keep hg => rwa [hg]
  | @merge m m' delta p _ _ hold hm' hget hnew hp hg =>
    cases h with
    | intro ms ms' h =>
      obtain ⟨vs, hvs, hlast⟩ := (variablesToMap_ok hold).2 ms rfl
      obtain ⟨q, hq, rfl⟩ := marshal_obj_ok.mp hnew
      rw [hg]
      exact SameObject.merge (.intro ms ms' h) hvs hm' (fun k => by rw [hget, hlast]) hq hp

/-- An object stays an object. -/
theorem Merged.obj {old new : Json} {g : Json → Json} (hm : Merged old new g) (ms : GoMap Json) :
    ∃ ms', g (.obj ms) = .obj ms' := by
  cases hm with
  | keep hg => exact ⟨ms, hg _⟩
  | merge hold hm' hget hnew hp hg => exact ⟨_, hg ms⟩

/-- `mergeVariables`, with the delta as the row's update has it. -/
theorem mergeVariables_merged {old new : Json} {delta : GoMap Value} {p : GoMap Json}
    {g : Json → Json} (h : mergeVariables old delta = .ok new) (hp : marshalMembers delta = .ok p)
    (hg : ∀ ms, g (.obj ms) = .obj (GoMap.overlay ms p)) : Merged old new g := by
  unfold mergeVariables at h
  obtain ⟨m, hm, h⟩ := bind_eq_ok h
  exact .merge hm (overlay_nodup (variablesToMap_ok hm).1) (GoMap.get_overlay m delta) h hp hg

/-- The loop of `handleTransformation` makes the same changes to the variables
    and to the delta. -/
theorem runTransformations_overlay {svc : Service} {now : Time} {ts : GoMap Json}
    {base vars vars' delta delta' : GoMap Value}
    (h : runTransformations svc now ts vars delta = .ok (vars', delta'))
    (hvars : (vars.map (·.1)).Nodup) (hdelta : (delta.map (·.1)).Nodup)
    (hget : ∀ k, vars.get k = (delta.get k).or (base.get k)) :
    (vars'.map (·.1)).Nodup ∧ ∀ k, vars'.get k = (GoMap.last delta' k).or (base.get k) := by
  induction ts generalizing vars delta with
  | nil =>
    cases h
    exact ⟨hvars, fun k => by rw [hget, GoMap.last_eq_get hdelta]⟩
  | cons t rest ih =>
    rw [runTransformations] at h
    split at h
    · cases h
    · split at h
      · cases h
      · rename_i v _
        refine ih h (set_nodup hvars _ _) (set_nodup hdelta _ _) fun k => ?_
        rw [GoMap.get_set, GoMap.get_set, hget]
        split <;> rfl

end Rochallor
