import Mathlib.Data.List.Induction
import Mathlib.Data.List.Nodup
import Rochallor.Framework.Run

/-! # Keeping what was used last

    A cache that holds a bounded number of values under their keys, the one
    used last in front.  A use of a key moves its entry to the front; a value
    under a new key goes in front, and the entry at the back leaves for it when
    the cache is full.

    The age of a key is how many uses have come after its last one.  Along every
    run the ages grow from the front to the back, so what leaves is the oldest;
    and every value was given for its key since the cache was last cleared.
-/

namespace Recency

variable {κ : Type u} {ν : Type v}

/-- What is asked of a cache. -/
inductive Op (κ : Type u) (ν : Type v) where
  | get (key : κ)
  | set (key : κ) (value : ν)
  | clear

/-- The key an operation uses. -/
def Op.key : Op κ ν → Option κ
  | .get key => some key
  | .set key _ => some key
  | .clear => none

/-- The keys the operations have used, the last use first. -/
def uses (ops : List (Op κ ν)) : List κ :=
  (ops.filterMap Op.key).reverse

variable [DecidableEq κ]

/-- How many uses have come after the last one of the key. -/
def age (ops : List (Op κ ν)) (key : κ) : Nat :=
  (uses ops).idxOf key

def lookup (entries : List (κ × ν)) (key : κ) : Option ν :=
  (entries.find? fun e => e.1 == key).map (·.2)

/-- Moves the entry of the key to the front. -/
def touch (entries : List (κ × ν)) (key : κ) : List (κ × ν) :=
  (entries.filter fun e => e.1 == key) ++ entries.filter fun e => !(e.1 == key)

/-- The entry at the back leaves if there is no room for another one. -/
def evict (cap : Nat) (entries : List (κ × ν)) : List (κ × ν) :=
  if cap ≤ entries.length then entries.dropLast else entries

def step (cap : Nat) (entries : List (κ × ν)) : Op κ ν → List (κ × ν)
  | .get key => touch entries key
  | .set key value =>
    if key ∈ entries.map (·.1) then touch entries key else (key, value) :: evict cap entries
  | .clear => []

/-! ## Ages -/

section Ages

variable (ops : List (Op κ ν)) (op : Op κ ν)

omit [DecidableEq κ] in
theorem uses_append : uses (ops ++ [op]) = op.key.toList ++ uses ops := by
  unfold uses
  rw [List.filterMap_append, List.reverse_append]
  cases hkey : op.key with
  | none => simp [hkey]
  | some key => simp [hkey]

variable {ops op}

/-- The key that is used is the youngest. -/
theorem age_self {key : κ} (h : op.key = some key) : age (ops ++ [op]) key = 0 := by
  unfold age
  rw [uses_append, h]
  exact List.idxOf_cons_self

/-- Every other key has grown older by one. -/
theorem age_other {key other : κ} (h : op.key = some key) (hne : other ≠ key) :
    age (ops ++ [op]) other = age ops other + 1 := by
  unfold age
  rw [uses_append, h]
  exact List.idxOf_cons_ne (uses ops) hne.symm

end Ages

/-! ## Touching -/

section Touch

variable {entries : List (κ × ν)} {key : κ}

theorem lookup_of_notMem (h : key ∉ entries.map (·.1)) : lookup entries key = none := by
  unfold lookup
  rw [Option.map_eq_none_iff, List.find?_eq_none]
  intro e he heq
  exact h (beq_iff_eq.mp heq ▸ List.mem_map_of_mem he)

theorem lookup_of_mem (hn : (entries.map (·.1)).Nodup) {e : κ × ν} (he : e ∈ entries) :
    lookup entries e.1 = some e.2 := by
  unfold lookup
  rw [Option.map_eq_some_iff]
  refine ⟨e, ?_, rfl⟩
  have hsome : (entries.find? fun x => x.1 == e.1).isSome = true := by
    rw [List.find?_isSome]
    exact ⟨e, he, by simp⟩
  obtain ⟨x, hx⟩ := Option.isSome_iff_exists.mp hsome
  have hkey : x.1 = e.1 := by simpa using List.find?_some hx
  rw [hx, List.inj_on_of_nodup_map hn (List.mem_of_find?_eq_some hx) he hkey]

theorem mem_of_lookup {value : ν} (h : lookup entries key = some value) :
    ∃ e ∈ entries, e.1 = key ∧ e.2 = value := by
  obtain ⟨e, he, hvalue⟩ := Option.map_eq_some_iff.mp h
  exact ⟨e, List.mem_of_find?_eq_some he, by simpa using List.find?_some he, hvalue⟩

theorem touch_of_notMem (h : key ∉ entries.map (·.1)) : touch entries key = entries := by
  have hne : ∀ e ∈ entries, (e.1 == key) = false := by
    intro e he
    exact beq_false_of_ne fun heq => h (heq ▸ List.mem_map_of_mem he)
  have hnone : (entries.filter fun e => e.1 == key) = [] :=
    List.filter_eq_nil_iff.mpr fun e he => by simp [hne e he]
  have hall : (entries.filter fun e => !(e.1 == key)) = entries :=
    List.filter_eq_self.mpr fun e he => by simp [hne e he]
  rw [touch, hnone, hall, List.nil_append]

theorem touch_perm (entries : List (κ × ν)) (key : κ) : (touch entries key).Perm entries :=
  List.filter_append_perm _ entries

/-- With distinct keys one entry moves. -/
theorem touch_of_mem (hn : (entries.map (·.1)).Nodup) {e : κ × ν} (he : e ∈ entries) :
    touch entries e.1 = e :: entries.filter fun x => !(x.1 == e.1) := by
  have hself : (entries.filter fun x => x.1 == e.1) = [e] := by
    induction entries with
    | nil => cases he
    | cons x rest ih =>
      rw [List.map_cons, List.nodup_cons] at hn
      rcases List.mem_cons.mp he with rfl | he
      · have hnone : (rest.filter fun x => x.1 == e.1) = [] := by
          refine List.filter_eq_nil_iff.mpr fun x hx heq => hn.1 ?_
          rw [← beq_iff_eq.mp heq]
          exact List.mem_map_of_mem hx
        simp [hnone]
      · have hne : x.1 ≠ e.1 := fun heq => hn.1 (heq ▸ List.mem_map_of_mem he)
        rw [List.filter_cons_of_neg (by simpa using hne)]
        exact ih hn.2 he
  rw [touch, hself]
  rfl

end Touch

/-! ## Runs -/

/-- What holds of the entries after the operations. -/
structure Kept (cap : Nat) (ops : List (Op κ ν)) (entries : List (κ × ν)) : Prop where
  ages : (entries.map (·.1)).Pairwise fun a b => age ops a < age ops b
  size : entries.length ≤ cap
  given : ∀ e ∈ entries, ∃ before later,
    ops = before ++ .set e.1 e.2 :: later ∧ Op.clear ∉ later

section Run

variable {cap : Nat} {ops : List (Op κ ν)} {entries : List (κ × ν)}

theorem Kept.nodup (h : Kept cap ops entries) : (entries.map (·.1)).Nodup :=
  h.ages.imp fun hlt heq => by
    subst heq
    exact Nat.lt_irrefl _ hlt

theorem Kept.nil : Kept cap ([] : List (Op κ ν)) [] :=
  ⟨List.Pairwise.nil, Nat.zero_le cap, by simp⟩

/-- A use that leaves an entry in place leaves it given. -/
theorem Kept.given_append (h : Kept cap ops entries) {op : Op κ ν} {key : κ}
    (hop : op.key = some key) {e : κ × ν} (he : e ∈ entries) : ∃ before later,
      ops ++ [op] = before ++ .set e.1 e.2 :: later ∧ Op.clear ∉ later := by
  obtain ⟨before, later, hops, hlater⟩ := h.given e he
  refine ⟨before, later ++ [op], by rw [hops]; simp, ?_⟩
  intro hclear
  rcases List.mem_append.mp hclear with hclear | hclear
  · exact hlater hclear
  · obtain rfl := List.mem_singleton.mp hclear
    cases hop

/-- The keys that stay keep their order, each older by one. -/
theorem ages_sublist {op : Op κ ν} {key : κ} (hop : op.key = some key) {keys : List κ}
    (h : keys.Pairwise fun a b => age ops a < age ops b) (hnew : key ∉ keys) :
    keys.Pairwise fun a b => age (ops ++ [op]) a < age (ops ++ [op]) b := by
  refine h.imp_of_mem fun {a b} ha hb hlt => ?_
  have hak : a ≠ key := fun heq => hnew (heq ▸ ha)
  have hbk : b ≠ key := fun heq => hnew (heq ▸ hb)
  rw [age_other hop hak, age_other hop hbk]
  omega

/-- The key that is used goes in front of them. -/
theorem ages_cons {op : Op κ ν} {key : κ} (hop : op.key = some key) {keys : List κ}
    (h : keys.Pairwise fun a b => age ops a < age ops b) (hnew : key ∉ keys) :
    (key :: keys).Pairwise fun a b => age (ops ++ [op]) a < age (ops ++ [op]) b := by
  refine List.pairwise_cons.mpr ⟨fun b hb => ?_, ages_sublist hop h hnew⟩
  have hbk : b ≠ key := fun heq => hnew (heq ▸ hb)
  rw [age_self hop, age_other hop hbk]
  omega

theorem Kept.touch (h : Kept cap ops entries) {op : Op κ ν} {key : κ} (hop : op.key = some key) :
    Kept cap (ops ++ [op]) (touch entries key) := by
  have hperm := touch_perm entries key
  refine ⟨?_, by rw [hperm.length_eq]; exact h.size, fun e he =>
    h.given_append hop (hperm.mem_iff.mp he)⟩
  by_cases hmem : key ∈ entries.map (·.1)
  · obtain ⟨e, he, rfl⟩ := List.mem_map.mp hmem
    rw [touch_of_mem h.nodup he, List.map_cons]
    refine ages_cons hop (h.ages.sublist ((List.filter_sublist).map _)) ?_
    intro hin
    obtain ⟨x, hx, heq⟩ := List.mem_map.mp hin
    have hne := (List.mem_filter.mp hx).2
    rw [heq] at hne
    simp at hne
  · rw [touch_of_notMem hmem]
    exact ages_sublist hop h.ages hmem

omit [DecidableEq κ] in
theorem evict_sublist (cap : Nat) (entries : List (κ × ν)) :
    (evict cap entries).Sublist entries := by
  unfold evict
  split
  · exact List.dropLast_sublist entries
  · exact List.Sublist.refl entries

omit [DecidableEq κ] in
theorem length_evict (hcap : 1 ≤ cap) (h : entries.length ≤ cap) :
    (evict cap entries).length + 1 ≤ cap := by
  unfold evict
  split
  · rw [List.length_dropLast]
    omega
  · omega

/-- Nothing is found that was neither there nor given. -/
theorem mem_step_set {key : κ} {value : ν} {e : κ × ν}
    (he : e ∈ step cap entries (.set key value)) : e = (key, value) ∨ e ∈ entries := by
  rw [step] at he
  by_cases hmem : key ∈ entries.map (·.1)
  · rw [if_pos hmem] at he
    exact .inr ((touch_perm entries key).mem_iff.mp he)
  · rw [if_neg hmem] at he
    rcases List.mem_cons.mp he with rfl | he
    · exact .inl rfl
    · exact .inr ((evict_sublist cap entries).subset he)

/-- One operation keeps all of it. -/
theorem Kept.step (hcap : 1 ≤ cap) (h : Kept cap ops entries) (op : Op κ ν) :
    Kept cap (ops ++ [op]) (step cap entries op) := by
  cases op with
  | get key => exact h.touch rfl
  | clear => exact ⟨List.Pairwise.nil, Nat.zero_le cap, by simp [Recency.step]⟩
  | set key value =>
    rw [Recency.step]
    by_cases hmem : key ∈ entries.map (·.1)
    · rw [if_pos hmem]
      exact h.touch rfl
    · rw [if_neg hmem]
      have hsub := evict_sublist cap entries
      refine ⟨?_, length_evict hcap h.size, fun e he => ?_⟩
      · rw [List.map_cons]
        exact ages_cons rfl (h.ages.sublist (hsub.map _)) fun hin => hmem ((hsub.map _).subset hin)
      · rcases List.mem_cons.mp he with rfl | he
        · exact ⟨ops, [], rfl, by simp⟩
        · exact h.given_append rfl (hsub.subset he)

/-- Every run keeps it. -/
theorem kept_after (hcap : 1 ≤ cap) (ops : List (Op κ ν)) :
    Kept cap ops (Run.after (step cap) [] ops) := by
  induction ops using List.reverseRecOn with
  | nil => exact Kept.nil
  | append_singleton ops op ih =>
    rw [Run.after_append]
    exact ih.step hcap op

/-- A value that is found was given for its key since the last clearing. -/
theorem Kept.lookup (h : Kept cap ops entries) {key : κ} {value : ν}
    (hv : lookup entries key = some value) :
    ∃ before later, ops = before ++ .set key value :: later ∧ Op.clear ∉ later := by
  obtain ⟨e, he, rfl, rfl⟩ := mem_of_lookup hv
  exact h.given e he

/-- A key leaves a full cache, and it is the oldest. -/
theorem Kept.evicted (h : Kept cap ops entries) {key victim : κ} {value : ν}
    (hin : victim ∈ entries.map (·.1))
    (hout : victim ∉ (Recency.step cap entries (.set key value)).map (·.1)) :
    cap ≤ entries.length ∧
      ∀ other ∈ entries.map (·.1), other ≠ victim → age ops other < age ops victim := by
  rw [Recency.step] at hout
  by_cases hmem : key ∈ entries.map (·.1)
  · rw [if_pos hmem] at hout
    exact absurd (((touch_perm entries key).map _).mem_iff.mpr hin) hout
  · rw [if_neg hmem, List.map_cons] at hout
    have hgone : victim ∉ (evict cap entries).map (·.1) :=
      fun hstay => hout (List.mem_cons_of_mem key hstay)
    unfold evict at hgone
    by_cases hfull : cap ≤ entries.length
    · rw [if_pos hfull, List.map_dropLast] at hgone
      refine ⟨hfull, ?_⟩
      -- the victim is the last key, and every other one stands before it
      have hne : entries.map (·.1) ≠ [] := List.ne_nil_of_mem hin
      have hsplit := List.dropLast_concat_getLast hne
      have hages := h.ages
      rw [← hsplit] at hin hages
      have hvictim : victim = (entries.map (·.1)).getLast hne :=
        List.mem_singleton.mp ((List.mem_append.mp hin).resolve_left hgone)
      intro other hother hother'
      rw [← hsplit] at hother
      have hfront : other ∈ (entries.map (·.1)).dropLast := by
        rcases List.mem_append.mp hother with hfront | hlast
        · exact hfront
        · exact absurd ((List.mem_singleton.mp hlast).trans hvictim.symm) hother'
      rw [hvictim]
      exact (List.pairwise_append.mp hages).2.2 other hfront _ (List.mem_singleton_self _)
    · rw [if_neg hfull] at hgone
      exact absurd hin hgone

end Run

end Recency
