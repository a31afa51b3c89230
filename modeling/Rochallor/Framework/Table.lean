import Mathlib.Data.List.Basic
import Mathlib.Data.List.Nodup
import Mathlib.Data.List.Count

/-! # Tables

    A table is a list of rows in insertion order.  `update` is
    `UPDATE … SET f WHERE p`: it rewrites the rows that satisfy `p` in place
    and keeps the others, so row order and row count never change.

    The lemmas below say how membership, keys and row counts survive an
    update and an insertion.  Nothing here is about a particular schema.
-/

namespace Table

variable {α : Type u} {κ : Type v}

/-! ## Updates -/

/-- `UPDATE t SET f WHERE p`. -/
def update (p : α → Bool) (f : α → α) (t : List α) : List α :=
  t.map fun r => if p r then f r else r

/-- The number of rows an `UPDATE … WHERE p` touches. -/
def affected (p : α → Bool) (t : List α) : Nat :=
  t.countP p

@[simp] theorem update_nil (p : α → Bool) (f : α → α) : update p f [] = [] := rfl

@[simp] theorem update_cons (p : α → Bool) (f : α → α) (r : α) (t : List α) :
    update p f (r :: t) = (if p r then f r else r) :: update p f t := rfl

@[simp] theorem update_append (p : α → Bool) (f : α → α) (t u : List α) :
    update p f (t ++ u) = update p f t ++ update p f u := by
  simp [update]

@[simp] theorem length_update (p : α → Bool) (f : α → α) (t : List α) :
    (update p f t).length = t.length := by
  simp [update]

@[simp] theorem update_id (p : α → Bool) (t : List α) : update p id t = t := by
  simp [update]

theorem mem_update {p : α → Bool} {f : α → α} {t : List α} {r : α} :
    r ∈ update p f t ↔ ∃ r₀ ∈ t, r = if p r₀ then f r₀ else r₀ := by
  simp only [update, List.mem_map]
  constructor
  · rintro ⟨r₀, hr₀, rfl⟩
    exact ⟨r₀, hr₀, rfl⟩
  · rintro ⟨r₀, hr₀, rfl⟩
    exact ⟨r₀, hr₀, rfl⟩

/-- A row the filter rejects is still in the table. -/
theorem mem_update_of_not {p : α → Bool} {f : α → α} {t : List α} {r : α}
    (hr : r ∈ t) (hp : p r = false) : r ∈ update p f t :=
  mem_update.mpr ⟨r, hr, by simp [hp]⟩

/-- A row the filter accepts is in the table in its new form. -/
theorem mem_update_of {p : α → Bool} {f : α → α} {t : List α} {r : α}
    (hr : r ∈ t) (hp : p r = true) : f r ∈ update p f t :=
  mem_update.mpr ⟨r, hr, by simp [hp]⟩

/-- An update no row satisfies does nothing. -/
theorem update_eq_self {p : α → Bool} {f : α → α} {t : List α}
    (h : ∀ r ∈ t, p r = false) : update p f t = t := by
  induction t with
  | nil => rfl
  | cons r t ih =>
    have hr := h r (List.mem_cons_self ..)
    have ht := ih fun r' hr' => h r' (List.mem_cons_of_mem _ hr')
    simp [hr, ht]

/-- Two updates of the same rows are one. -/
theorem update_update {p : α → Bool} {f g : α → α} (t : List α)
    (h : ∀ r, p r = true → p (f r) = true) :
    update p g (update p f t) = update p (g ∘ f) t := by
  induction t with
  | nil => rfl
  | cons r t ih =>
    by_cases hp : p r = true
    · simp [hp, h r hp, ih]
    · simp [hp, ih]

/-- A column the update does not write is unchanged. -/
theorem map_update {p : α → Bool} {f : α → α} {g : α → κ} (t : List α)
    (h : ∀ r, p r = true → g (f r) = g r) : (update p f t).map g = t.map g := by
  induction t with
  | nil => rfl
  | cons r t ih =>
    by_cases hp : p r = true
    · simp [hp, h r hp, ih]
    · simp [hp, ih]

/-- Neither the rows picked by `q` nor their columns `g` are changed. -/
theorem map_filter_update {q p : α → Bool} {f : α → α} {g : α → κ} {t : List α}
    (h : ∀ r ∈ t, p r = true → q (f r) = q r ∧ (q r = true → g (f r) = g r)) :
    ((update p f t).filter q).map g = (t.filter q).map g := by
  induction t with
  | nil => rfl
  | cons r t ih =>
    have ht := ih fun r' hr' => h r' (List.mem_cons_of_mem _ hr')
    by_cases hp : p r = true
    · obtain ⟨hq, hg⟩ := h r (List.mem_cons_self ..) hp
      by_cases hqr : q r = true
      · simp [hp, hq, hqr, hg hqr, ht]
      · simp [hp, hq, hqr, ht]
    · by_cases hqr : q r = true
      · simp [hp, hqr, ht]
      · simp [hp, hqr, ht]

/-- A filter that the update cannot change commutes with it. -/
theorem filter_update {q p : α → Bool} {f : α → α} {t : List α} (h : ∀ r, q (f r) = q r) :
    (update p f t).filter q = update p f (t.filter q) := by
  induction t with
  | nil => rfl
  | cons r rest ih =>
    have hq : q (if p r = true then f r else r) = q r := by
      split
      · exact h r
      · rfl
    simp only [update, List.map_cons, List.filter_cons, hq] at ih ⊢
    split
    · rw [List.map_cons, ih]
    · exact ih

/-- The first match is still the first one after a filter that keeps it. -/
theorem first_filter {p q : α → Bool} {t : List α} {r : α} (h : t.find? p = some r)
    (hq : q r = true) : (t.filter q).find? p = some r := by
  rw [List.find?_filter]
  rw [List.find?_eq_some_iff_append] at h ⊢
  obtain ⟨hp, before, after, ht, hnot⟩ := h
  refine ⟨by simp [hp, hq], before, after, ht, fun x hx => ?_⟩
  have := hnot x hx
  simp_all

/-- An update of other rows leaves the rows picked by `q` alone. -/
theorem filter_update_other {q p : α → Bool} {f : α → α} {t : List α}
    (h : ∀ r ∈ t, p r = true → q r = false ∧ q (f r) = false) :
    (update p f t).filter q = t.filter q := by
  have := map_filter_update (q := q) (p := p) (f := f) (g := id) (t := t) fun r hr hp => by
    obtain ⟨hq, hqf⟩ := h r hr hp
    simp [hq, hqf]
  simpa using this

/-- Inserting other rows leaves the rows picked by `q` alone. -/
theorem filter_insert_other {q : α → Bool} {t new : List α} (h : ∀ r ∈ new, q r = false) :
    (t ++ new).filter q = t.filter q := by
  have : new.filter q = [] := List.filter_eq_nil_iff.mpr fun r hr => by simp [h r hr]
  rw [List.filter_append, this, List.append_nil]

/-! ## Counting rows -/

theorem countP_update (q p : α → Bool) (f : α → α) (t : List α) :
    (update p f t).countP q = t.countP fun r => q (if p r then f r else r) := by
  simp [update, List.countP_map, Function.comp_def]

/-- An update that keeps `q` on the rows it touches keeps the number of rows
    that satisfy `q`. -/
theorem countP_update_eq {q p : α → Bool} {f : α → α} {t : List α}
    (h : ∀ r ∈ t, p r = true → q (f r) = q r) : (update p f t).countP q = t.countP q := by
  rw [countP_update]
  apply List.countP_congr
  intro r hr
  by_cases hp : p r = true
  · simp [hp, h r hr hp]
  · simp [hp]

/-- Rewriting one keyed row: the number of rows that satisfy `q` changes by
    what the row counted before and what it counts then. -/
theorem countP_update_one [DecidableEq κ] {q : α → Bool} {key : α → κ} {f : α → α}
    {t : List α} {k : κ} {r : α} (hnd : (t.map key).Nodup) (hr : r ∈ t) (hk : key r = k) :
    (update (fun x => decide (key x = k)) f t).countP q + (if q r then 1 else 0) =
      t.countP q + (if q (f r) then 1 else 0) := by
  induction t with
  | nil => cases hr
  | cons x t ih =>
    have hnot : key x ∉ t.map key := (List.nodup_cons.mp hnd).1
    have hnd' : (t.map key).Nodup := (List.nodup_cons.mp hnd).2
    rcases List.mem_cons.mp hr with rfl | hr'
    · -- the head is the row: nothing below it has the key
      have hrest : update (fun x => decide (key x = k)) f t = t := by
        apply update_eq_self
        intro y hy
        have : key y ≠ k := by
          rintro rfl
          exact hnot (hk ▸ List.mem_map_of_mem hy)
        simp [this]
      simp only [update_cons, hk, decide_true, if_true, List.countP_cons, hrest]
      omega
    · have hx : key x ≠ k := by
        intro h
        exact hnot (by rw [h, ← hk]; exact List.mem_map_of_mem hr')
      have := ih hnd' hr'
      simp only [update_cons, hx, decide_false, Bool.false_eq_true, if_false, List.countP_cons]
      omega

/-! ## The greatest row -/

section Latest

variable {β : Type*} [LT β] [DecidableLT β]

/-- The better of the best row so far and the next one. -/
def better (n : α → β) (best : Option α) (r : α) : Option α :=
  match best with
  | none => some r
  | some b => if n b < n r then some r else some b

/-- The first row with the greatest `n`: `ORDER BY n DESC LIMIT 1`. -/
def latest (n : α → β) (t : List α) : Option α :=
  t.foldl (better n) none

private theorem mem_of_better {n : α → β} {b : α} (t : List α) (best : Option α)
    (h : t.foldl (better n) best = some b) : b ∈ t ∨ best = some b := by
  induction t generalizing best with
  | nil => exact .inr h
  | cons a t ih =>
    rcases ih _ h with hmem | hbest
    · exact .inl (List.mem_cons_of_mem _ hmem)
    · cases best with
      | none =>
        cases hbest
        exact .inl (List.mem_cons_self ..)
      | some c =>
        simp only [better] at hbest
        split at hbest
        · cases hbest
          exact .inl (List.mem_cons_self ..)
        · exact .inr hbest

theorem latest_mem {n : α → β} {t : List α} {b : α} (h : latest n t = some b) : b ∈ t := by
  rcases mem_of_better t none h with hmem | hnone
  · exact hmem
  · cases hnone

/-- A row greater than all the others is the greatest. -/
theorem latest_append {n : α → β} {t : List α} {r : α} (h : ∀ b ∈ t, n b < n r) :
    latest n (t ++ [r]) = some r := by
  have hmem : ∀ b, t.foldl (better n) none = some b → b ∈ t := fun b hb => latest_mem hb
  rw [latest, List.foldl_append, List.foldl_cons, List.foldl_nil]
  cases hb : t.foldl (better n) none with
  | none => rfl
  | some b => simp [better, h b (hmem b hb)]

/-- In a list that grows by `n`, the last row is the greatest. -/
theorem latest_of_pairwise {n : α → β} {t : List α} (h : t.Pairwise fun a b => n a < n b) :
    latest n t = t.getLast? := by
  rcases List.eq_nil_or_concat t with rfl | ⟨front, r, rfl⟩
  · rfl
  · rw [List.concat_eq_append] at h ⊢
    rw [List.pairwise_append] at h
    rw [latest_append fun b hb => h.2.2 b hb r (List.mem_singleton_self r), List.getLast?_concat]

/-- Rewriting rows without touching `n` rewrites the greatest. -/
theorem latest_map {n : α → β} {f : α → α} (hf : ∀ r, n (f r) = n r) (t : List α) :
    latest n (t.map f) = (latest n t).map f := by
  have key : ∀ best : Option α, (t.map f).foldl (better n) (best.map f) =
      (t.foldl (better n) best).map f := by
    induction t with
    | nil => exact fun _ => rfl
    | cons a t ih =>
      intro best
      rw [List.map_cons, List.foldl_cons, List.foldl_cons, ← ih]
      congr 1
      cases best with
      | none => rfl
      | some b =>
        simp only [better, Option.map_some, hf]
        split <;> rfl
  exact key none

end Latest

private theorem le_of_better {n : α → Int} {b : α} (t : List α) (best : Option α)
    (h : t.foldl (better n) best = some b) :
    (∀ r ∈ t, n r ≤ n b) ∧ ∀ c, best = some c → n c ≤ n b := by
  induction t generalizing best with
  | nil =>
    refine ⟨fun r hr => absurd hr List.not_mem_nil, fun c hc => ?_⟩
    rw [List.foldl_nil, hc] at h
    cases h
    exact Int.le_refl _
  | cons a t ih =>
    obtain ⟨hrest, hbest⟩ := ih _ h
    cases best with
    | none => exact ⟨List.forall_mem_cons.mpr ⟨hbest a rfl, hrest⟩, fun c hc => by cases hc⟩
    | some c =>
      by_cases hlt : n c < n a
      · have ha := hbest a (by simp [better, hlt])
        exact ⟨List.forall_mem_cons.mpr ⟨ha, hrest⟩,
          fun c' hc => by
            cases hc
            omega⟩
      · have hc := hbest c (by simp [better, hlt])
        exact ⟨List.forall_mem_cons.mpr ⟨by omega, hrest⟩,
          fun c' hc' => by
            cases hc'
            exact hc⟩

/-- No row is greater than the greatest. -/
theorem le_latest {n : α → Int} {t : List α} {b r : α} (h : latest n t = some b)
    (hr : r ∈ t) : n r ≤ n b :=
  (le_of_better t none h).1 r hr

theorem latest_eq_none {β : Type*} [LT β] [DecidableLT β] {n : α → β} {t : List α} :
    latest n t = none ↔ t = [] := by
  have hsome : ∀ (t : List α) (b : α), t.foldl (better n) (some b) ≠ none := by
    intro t
    induction t with
    | nil => exact fun b h => by cases h
    | cons a t ih =>
      intro b
      rw [List.foldl_cons]
      by_cases hlt : n b < n a
      · simpa [better, hlt] using ih a
      · simpa [better, hlt] using ih b
  cases t with
  | nil => simp [latest]
  | cons a t => simpa [latest, better] using hsome t a

/-! ## Keys -/

/-- Two rows of a keyed table with the same key are the same row. -/
theorem eq_of_key {key : α → κ} {t : List α} (hnd : (t.map key).Nodup) {r r' : α}
    (hr : r ∈ t) (hr' : r' ∈ t) (h : key r = key r') : r = r' :=
  List.inj_on_of_nodup_map hnd hr hr' h

/-- The only row of a keyed table that `p` picks. -/
theorem filter_eq_singleton {p : α → Bool} {key : α → κ} {t : List α} (hnd : (t.map key).Nodup)
    {r : α} (hr : r ∈ t) (hp : p r = true) (hunique : ∀ r' ∈ t, p r' = true → r' = r) :
    t.filter p = [r] := by
  have hfilter : (t.filter p).Nodup := (List.Nodup.of_map key hnd).filter p
  refine List.perm_singleton.mp ((List.perm_ext_iff_of_nodup hfilter (by simp)).mpr fun r' => ?_)
  rw [List.mem_filter, List.mem_singleton]
  constructor
  · rintro ⟨hr', hp'⟩
    exact hunique r' hr' hp'
  · rintro rfl
    exact ⟨hr, hp⟩

/-- Closing the rows `p` picks and inserting others closes just those. -/
theorem filter_closed {p : α → Bool} {q : α → Prop} [DecidablePred q] [DecidableEq κ] {key : α → κ}
    {f : α → α} {t new : List α} (hp : ∀ r ∈ t, p r = true → q r) (hkey : ∀ r, key (f r) = key r)
    (hf : ∀ r, ¬ q (f r)) (hnd : ((update p f t ++ new).map key).Nodup) :
    (t.filter fun r => decide (q r) && (update p f t ++ new).all fun r' =>
      decide (key r' = key r → ¬ q r')) = t.filter p := by
  refine List.filter_congr fun r hr => ?_
  rw [Bool.eq_iff_iff]
  simp only [Bool.and_eq_true, List.all_eq_true, decide_eq_true_eq]
  constructor
  · rintro ⟨hq, hall⟩
    by_contra hpr
    -- a row that is not picked is still there, as it was
    have hmem : r ∈ update p f t ++ new :=
      List.mem_append_left _ (mem_update_of_not hr (by simpa using hpr))
    exact hall r hmem rfl hq
  · intro hpr
    refine ⟨hp r hr hpr, fun r' hr' hid => ?_⟩
    have hmem : f r ∈ update p f t ++ new := List.mem_append_left _ (mem_update_of hr hpr)
    obtain rfl := eq_of_key hnd hr' hmem (hid.trans (hkey r).symm)
    exact hf r

/-- The keys in use are distinct numbers below `n`. -/
structure Keyed (n : Nat) (keys : List Nat) : Prop where
  nodup : keys.Nodup
  lt : ∀ k ∈ keys, k < n

namespace Keyed

variable {n m : Nat} {keys : List Nat}

theorem mono (h : Keyed n keys) (hle : n ≤ m) : Keyed m keys :=
  ⟨h.nodup, fun k hk => Nat.lt_of_lt_of_le (h.lt k hk) hle⟩

theorem sublist {keys' : List Nat} (h : Keyed n keys) (hsub : keys'.Sublist keys) :
    Keyed n keys' :=
  ⟨h.nodup.sublist hsub, fun k hk => h.lt k (hsub.subset hk)⟩

/-- Rows inserted under consecutive fresh keys. -/
theorem append_range {start len : Nat} (h : Keyed n keys) (hstart : n ≤ start)
    (hend : start + len ≤ m) : Keyed m (keys ++ List.range' start len) := by
  refine ⟨List.nodup_append.mpr ⟨h.nodup, List.nodup_range', ?_⟩, ?_⟩
  · intro k hk k' hk' heq
    have := h.lt k hk
    rw [List.mem_range'_1] at hk'
    omega
  · intro k hk
    rcases List.mem_append.mp hk with hk | hk
    · have := h.lt k hk
      omega
    · rw [List.mem_range'_1] at hk
      omega

/-- A row inserted under the next key. -/
theorem insert (h : Keyed n keys) (hle : n < m) : Keyed m (keys ++ [n]) :=
  by simpa using h.append_range (Nat.le_refl n) (show n + 1 ≤ m from hle)

end Keyed

/-- The first row with a given key. -/
def find [DecidableEq κ] (key : α → κ) (k : κ) (t : List α) : Option α :=
  t.find? fun r => decide (key r = k)

theorem find_mem [DecidableEq κ] {key : α → κ} {k : κ} {t : List α} {r : α}
    (h : find key k t = some r) : r ∈ t ∧ key r = k := by
  unfold find at h
  exact ⟨List.mem_of_find?_eq_some h, by simpa using List.find?_some h⟩

theorem find_eq_some [DecidableEq κ] {key : α → κ} {k : κ} {t : List α} {r : α}
    (hnd : (t.map key).Nodup) (hr : r ∈ t) (hk : key r = k) : find key k t = some r := by
  cases h : find key k t with
  | none =>
    unfold find at h
    simp only [List.find?_eq_none, decide_eq_true_eq] at h
    exact absurd hk (h r hr)
  | some r' =>
    obtain ⟨hr', hk'⟩ := find_mem h
    rw [eq_of_key hnd hr' hr (hk'.trans hk.symm)]

/-- A lookup after an update that keeps keys finds the updated row. -/
theorem find_update [DecidableEq κ] {key : α → κ} {k : κ} {p : α → Bool} {f : α → α}
    (hkey : ∀ r, key (f r) = key r) (t : List α) :
    find key k (update p f t) = (find key k t).map fun r => if p r then f r else r := by
  induction t with
  | nil => rfl
  | cons r t ih =>
    have hr : key (if p r then f r else r) = key r := by
      by_cases hp : p r = true
      · simp [hp, hkey]
      · simp [hp]
    unfold find at ih ⊢
    by_cases hk : key r = k
    · simp [hr, hk]
    · simp [hr, hk, ih]

/-! ## Evolution -/

/-- `t'` has the rows of `t`, each changed along `R`, and then new rows. -/
def Evolves (R : α → α → Prop) (t t' : List α) : Prop :=
  ∃ u v, t' = u ++ v ∧ List.Forall₂ R t u

namespace Evolves

variable {R : α → α → Prop} {t t' t'' : List α}

theorem refl (hR : ∀ r, R r r) (t : List α) : Evolves R t t :=
  ⟨t, [], by simp, List.forall₂_same.mpr fun r _ => hR r⟩

theorem trans (hR : ∀ {a b c}, R a b → R b c → R a c) (h : Evolves R t t')
    (h' : Evolves R t' t'') : Evolves R t t'' := by
  obtain ⟨u, v, rfl, hu⟩ := h
  obtain ⟨u', v', rfl, hu'⟩ := h'
  -- the second evolution splits where the first one stopped
  obtain ⟨w, w', hw, hw', rfl⟩ := forall₂_append_split hu'
  refine ⟨w, w' ++ v', by simp, ?_⟩
  exact forall₂_comp hR hu hw
where
  forall₂_append_split {u v w : List α} (h : List.Forall₂ R (u ++ v) w) :
      ∃ w₁ w₂, List.Forall₂ R u w₁ ∧ List.Forall₂ R v w₂ ∧ w = w₁ ++ w₂ := by
    induction u generalizing w with
    | nil => exact ⟨[], w, .nil, h, rfl⟩
    | cons x u ih =>
      cases h with
      | cons hx hrest =>
        obtain ⟨w₁, w₂, h₁, h₂, rfl⟩ := ih hrest
        exact ⟨_ :: w₁, w₂, .cons hx h₁, h₂, rfl⟩
  forall₂_comp (hR : ∀ {a b c}, R a b → R b c → R a c) {u v w : List α}
      (h : List.Forall₂ R u v) (h' : List.Forall₂ R v w) : List.Forall₂ R u w := by
    induction h generalizing w with
    | nil =>
      cases h'
      exact .nil
    | cons hx _ ih =>
      cases h' with
      | cons hy hrest => exact .cons (hR hx hy) (ih hrest)

theorem update (hR : ∀ r, R r r) {p : α → Bool} {f : α → α}
    (h : ∀ r ∈ t, p r = true → R r (f r)) : Evolves R t (Table.update p f t) := by
  refine ⟨Table.update p f t, [], by simp, ?_⟩
  induction t with
  | nil => exact .nil
  | cons x t ih =>
    refine .cons ?_ (ih fun r hr => h r (List.mem_cons_of_mem _ hr))
    by_cases hp : p x = true
    · simpa [hp] using h x (List.mem_cons_self ..) hp
    · simpa [hp] using hR x

theorem insert (hR : ∀ r, R r r) (new : List α) : Evolves R t (t ++ new) :=
  ⟨t, new, rfl, List.forall₂_same.mpr fun r _ => hR r⟩

/-- Every row is still there in some later form. -/
theorem mem (h : Evolves R t t') {r : α} (hr : r ∈ t) : ∃ r' ∈ t', R r r' := by
  obtain ⟨u, v, rfl, hu⟩ := h
  induction hu with
  | nil => cases hr
  | cons hx _ ih =>
    rcases List.mem_cons.mp hr with rfl | hr'
    · exact ⟨_, by simp, hx⟩
    · obtain ⟨r', hr', hR⟩ := ih hr'
      exact ⟨r', List.mem_cons_of_mem _ hr', hR⟩

/-- The row with the same key is the later form. -/
theorem of_key {key : α → κ} (h : Evolves R t t') (hkey : ∀ r r', R r r' → key r' = key r)
    (hnd : (t'.map key).Nodup) {r r' : α} (hr : r ∈ t) (hr' : r' ∈ t')
    (heq : key r' = key r) : R r r' := by
  obtain ⟨r'', hr'', hR⟩ := h.mem hr
  have : r'' = r' := eq_of_key hnd hr'' hr' ((hkey r r'' hR).trans heq.symm)
  exact this ▸ hR

end Evolves

end Table
