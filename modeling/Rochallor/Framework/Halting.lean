import Rochallor.Framework.Agenda
import Mathlib.Data.Fintype.Pigeonhole
import Mathlib.Data.List.Perm.Subperm
import Mathlib.Data.Nat.Nth
import Mathlib.Logic.Relation
import Mathlib.Order.WellFounded

/-! # When an agenda is worked off

    A step may go on to further items, so an agenda need not come to an end.
    If it does not, there is an endless chain of items, each gone on to by the
    one before; and when there are only finitely many items, the chain goes
    round a cycle of the graph of what can follow what.  Without cycles, one
    number bounds the steps made from every state.
-/

namespace Agenda

open Relation

variable {τ : Type u} {α : Type v} {ε : Type w} {step : τ → α → Except ε (τ × List α)}

/-! ## Coming to an end -/

/-- The agenda comes to an end, worked off or stopped by an error. -/
inductive Halts (step : τ → α → Except ε (τ × List α)) : τ → List α → Prop
  | nil (t : τ) : Halts step t []
  | error {t : τ} {a : α} {pending : List α} {e : ε} (h : step t a = .error e) :
      Halts step t (a :: pending)
  | ok {t t' : τ} {a : α} {pending next : List α} (h : step t a = .ok (t', next))
      (hrest : Halts step t' (next ++ pending)) : Halts step t (a :: pending)

/-- The agenda is worked off, and leaves this state. -/
inductive WorksOff (step : τ → α → Except ε (τ × List α)) : τ → List α → τ → Prop
  | nil (t : τ) : WorksOff step t [] t
  | cons {t t' t'' : τ} {a : α} {pending next : List α} (h : step t a = .ok (t', next))
      (hrest : WorksOff step t' (next ++ pending) t'') : WorksOff step t (a :: pending) t''

/-- A step goes on to an item, and this is the state in which its turn comes. -/
def Enters (step : τ → α → Except ε (τ × List α)) (c c' : τ × α) : Prop :=
  ∃ t before after, step c.1 c.2 = .ok (t, before ++ c'.2 :: after) ∧ WorksOff step t before c'.1

theorem WorksOff.append {t t' t'' : τ} {xs ys : List α} (h : WorksOff step t xs t')
    (h' : WorksOff step t' ys t'') : WorksOff step t (xs ++ ys) t'' := by
  induction h with
  | nil t => exact h'
  | cons hstep _ ih =>
    rw [List.cons_append]
    refine .cons hstep ?_
    rw [← List.append_assoc]
    exact ih h'

theorem Halts.append {t : τ} {xs ys : List α} (h : Halts step t xs)
    (h' : ∀ t', WorksOff step t xs t' → Halts step t' ys) : Halts step t (xs ++ ys) := by
  induction h with
  | nil t => exact h' t (.nil t)
  | error hstep => exact .error hstep
  | ok hstep _ ih =>
    rw [List.cons_append]
    refine .ok hstep ?_
    rw [← List.append_assoc]
    exact ih fun t' hw => h' t' (.cons hstep hw)

/-- An item comes to an end if no endless chain of items starts at it. -/
theorem halts_of_acc {c : τ × α} (h : Acc (fun c' c => Enters step c c') c) :
    Halts step c.1 [c.2] := by
  induction h with
  | intro c _ ih =>
    cases hstep : step c.1 c.2 with
    | error e => exact .error hstep
    | ok r =>
      obtain ⟨t, next⟩ := r
      -- `rest` is what is left of `next` when the turn of its first item comes
      have hrest : ∀ rest before t', next = before ++ rest → WorksOff step t before t' →
          Halts step t' rest := by
        intro rest
        induction rest with
        | nil => exact fun _ t' _ _ => .nil t'
        | cons b after ihrest =>
          intro before t' hnext hbefore
          have hb : Halts step t' [b] :=
            ih (t', b) ⟨t, before, after, by rw [hstep, hnext], hbefore⟩
          refine hb.append fun t'' hw => ?_
          exact ihrest (before ++ [b]) t'' (by simp [hnext]) (hbefore.append hw)
      refine .ok hstep ?_
      rw [List.append_nil]
      exact hrest next [] t rfl (.nil t)

/-- An agenda comes to an end when the number of its steps is bounded. -/
theorem halts_iff {t : τ} {agenda : List α} :
    Halts step t agenda ↔ ∃ n, ∀ fuel, (trace step fuel t agenda).length ≤ n := by
  constructor
  · intro h
    induction h with
    | nil t =>
      refine ⟨0, fun fuel => ?_⟩
      cases fuel <;> simp [trace]
    | error hstep =>
      refine ⟨1, fun fuel => ?_⟩
      cases fuel <;> simp [trace, hstep]
    | ok hstep _ ih =>
      obtain ⟨n, hn⟩ := ih
      refine ⟨n + 1, fun fuel => ?_⟩
      cases fuel with
      | zero => simp [trace]
      | succ fuel =>
        rw [trace_cons hstep, List.length_cons]
        exact Nat.succ_le_succ (hn fuel)
  · rintro ⟨n, hn⟩
    induction n generalizing t agenda with
    | zero =>
      cases agenda with
      | nil => exact .nil t
      | cons a pending =>
        have := hn 1
        simp [trace] at this
    | succ n ih =>
      cases agenda with
      | nil => exact .nil t
      | cons a pending =>
        cases hstep : step t a with
        | error e => exact .error hstep
        | ok r =>
          obtain ⟨t', next⟩ := r
          refine .ok hstep (ih fun fuel => ?_)
          have := hn (fuel + 1)
          rw [trace_cons hstep, List.length_cons] at this
          omega

/-- A run may make as many steps as there are, and then is not stuck. -/
theorem run_ne_stuck {stuck : ε} (hstuck : ∀ t a, step t a ≠ .error stuck) {n : ℕ} {t : τ}
    {agenda : List α} (h : ∀ fuel, (trace step fuel t agenda).length ≤ n) :
    run step stuck n t agenda ≠ .error stuck := by
  induction n generalizing t agenda with
  | zero =>
    cases agenda with
    | nil => simp [run]
    | cons a pending =>
      have := h 1
      simp [trace] at this
  | succ n ih =>
    cases agenda with
    | nil => simp [run]
    | cons a pending =>
      rw [run]
      cases hstep : step t a with
      | error e =>
        intro heq
        cases heq
        exact hstuck t a hstep
      | ok r =>
        obtain ⟨t', next⟩ := r
        refine ih fun fuel => ?_
        have := h (fuel + 1)
        rw [trace_cons hstep, List.length_cons] at this
        omega

/-! ## Endless chains -/

/-- What is worked off first comes first in the trace. -/
theorem WorksOff.trace_suffix {t t' : τ} {xs : List α} (h : WorksOff step t xs t') :
    ∃ n, ∀ fuel ys, trace step fuel t' ys <:+ trace step (fuel + n) t (xs ++ ys) := by
  induction h with
  | nil t => exact ⟨0, fun fuel ys => List.suffix_refl _⟩
  | cons hstep _ ih =>
    obtain ⟨n, hn⟩ := ih
    refine ⟨n + 1, fun fuel ys => ?_⟩
    rw [List.cons_append, ← Nat.add_assoc, trace_cons hstep, ← List.append_assoc]
    exact (hn fuel ys).trans (List.suffix_cons _ _)

/-- The items of an endless chain are all dispatched. -/
theorem chain_sublist {c : ℕ → τ × α} (hc : ∀ i, Enters step (c i) (c (i + 1))) (n : ℕ) :
    ∀ i pending, ∃ fuel, ((List.range' i n).map fun j => (c j).2).Sublist
      ((trace step fuel (c i).1 ((c i).2 :: pending)).map (·.item)) := by
  induction n with
  | zero => exact fun i pending => ⟨0, List.nil_sublist _⟩
  | succ n ih =>
    intro i pending
    obtain ⟨t, before, after, hstep, hbefore⟩ := hc i
    obtain ⟨fuel, hfuel⟩ := ih (i + 1) (after ++ pending)
    obtain ⟨k, hk⟩ := hbefore.trace_suffix
    refine ⟨fuel + k + 1, ?_⟩
    rw [List.range'_succ, List.map_cons, trace_cons hstep, List.map_cons, List.append_assoc,
      List.cons_append]
    refine List.Sublist.cons_cons _ (hfuel.trans ?_)
    exact ((hk fuel ((c (i + 1)).2 :: (after ++ pending))).sublist).map _

/-- An endless walk through finitely many items goes round a cycle. -/
theorem exists_cycle {edge : α → α → Prop} (walk : ℕ → α) {items : List α}
    (hedge : ∀ i, edge (walk i) (walk (i + 1))) (hmem : ∀ i, walk i ∈ items) :
    ∃ a, ReflTransGen edge (walk 0) a ∧ TransGen edge a a ∧ {i | walk i = a}.Infinite := by
  have hpath : ∀ i k, ReflTransGen edge (walk i) (walk (i + k)) := by
    intro i k
    induction k with
    | zero => exact .refl
    | succ k ih => exact ih.tail (hedge (i + k))
  have hfinite : Finite {a // a ∈ items} := (List.finite_toSet items).to_subtype
  obtain ⟨⟨a, ha⟩, hinf⟩ :=
    Finite.exists_infinite_fiber fun i => (⟨walk i, hmem i⟩ : {a // a ∈ items})
  have hset : {i | walk i = a}.Infinite := by
    refine Set.infinite_coe_iff.mp ?_
    convert hinf using 2
    ext i
    simp
  obtain ⟨i, hi⟩ := hset.nonempty
  obtain ⟨j, hj, hij⟩ := hset.exists_gt i
  have hi' : walk i = a := hi
  have hj' : walk j = a := hj
  refine ⟨a, ?_, ?_, hset⟩
  · have := hpath 0 i
    rwa [Nat.zero_add, hi'] at this
  · have htail := hpath (i + 1) (j - (i + 1))
    rw [Nat.add_sub_cancel' hij, hj'] at htail
    exact TransGen.head' (hi' ▸ hedge i) htail

/-- The graph of what can follow what has no cycle within reach of `a`. -/
def Acyclic (edge : α → α → Prop) (a : α) : Prop :=
  ∀ b, ReflTransGen edge a b → ¬ TransGen edge b b

/-- An agenda that does not come to an end goes round a cycle: there is an item
    on a cycle that is dispatched more often than any number. -/
theorem exists_cycle_of_not_halts [DecidableEq α] {edge : α → α → Prop} (items : List α)
    (hedge : ∀ {t a t' next}, step t a = .ok (t', next) → ∀ b ∈ next, edge a b)
    (hitems : ∀ {t a r}, step t a = .ok r → a ∈ items) {t : τ} {a : α}
    (h : ¬ Halts step t [a]) :
    ∃ b, ReflTransGen edge a b ∧ TransGen edge b b ∧
      ∀ n, ∃ fuel, n ≤ ((trace step fuel t [a]).map (·.item)).count b := by
  have hnot : ¬ Acc (fun c' c => Enters step c c') (t, a) := fun hacc => h (halts_of_acc hacc)
  obtain ⟨c, hc₀, hc⟩ := not_acc_iff_exists_descending_chain.mp hnot
  have hwalk : ∀ i, edge (c i).2 (c (i + 1)).2 := by
    intro i
    obtain ⟨t₁, before, after, hstep, -⟩ := hc i
    exact hedge hstep _ (by simp)
  have hmem : ∀ i, (c i).2 ∈ items := by
    intro i
    obtain ⟨t₁, before, after, hstep, -⟩ := hc i
    exact hitems hstep
  obtain ⟨b, hreach, hcycle, hinf⟩ := exists_cycle (fun i => (c i).2) hwalk hmem
  rw [hc₀] at hreach
  refine ⟨b, hreach, hcycle, fun n => ?_⟩
  -- a long enough piece of the chain meets `b` often enough
  obtain ⟨m, hm⟩ := Nat.surjective_count_of_infinite_setOfPred hinf n
  obtain ⟨fuel, hfuel⟩ := chain_sublist hc m 0 []
  rw [hc₀] at hfuel
  refine ⟨fuel, ?_⟩
  have hcount : ∀ m, ((List.range' 0 m).map fun j => (c j).2).count b =
      Nat.count (fun i => (c i).2 = b) m := by
    intro m
    induction m with
    | zero => simp
    | succ m ih =>
      rw [List.range'_concat, List.map_append, List.count_append, ih, Nat.count_succ]
      by_cases hb : (c m).2 = b <;> simp [hb]
  have hle := hfuel.count_le b
  rw [hcount, hm] at hle
  exact hle

/-! ## One bound for all states -/

/-- The step goes on to some of the successors. -/
def Follows (succ : α → List α) (step : τ → α → Except ε (τ × List α)) : Prop :=
  ∀ {t a t' next}, step t a = .ok (t', next) → next.Subperm (succ a)

theorem acc_of_acyclic {edge : α → α → Prop} {items : List α} (hitems : ∀ {a b}, edge a b → a ∈ items)
    {a : α} (h : Acyclic edge a) : Acc (fun b a => edge a b) a := by
  by_contra hnot
  obtain ⟨walk, hwalk₀, hwalk⟩ := not_acc_iff_exists_descending_chain.mp hnot
  obtain ⟨b, hreach, hcycle, -⟩ := exists_cycle walk hwalk fun i => hitems (hwalk i)
  rw [hwalk₀] at hreach
  exact h b hreach hcycle

theorem length_trace_append {ys : List α} {n : ℕ}
    (hys : ∀ t fuel, (trace step fuel t ys).length ≤ n) (fuel : ℕ) :
    ∀ t xs, (trace step fuel t (xs ++ ys)).length ≤ (trace step fuel t xs).length + n := by
  induction fuel with
  | zero =>
    intro t xs
    have hnone : (trace step 0 t (xs ++ ys)).length = 0 := by
      cases xs <;> cases ys <;> rfl
    omega
  | succ fuel ih =>
    intro t xs
    cases xs with
    | nil =>
      have := hys t (fuel + 1)
      rw [List.nil_append]
      omega
    | cons a pending =>
      rw [List.cons_append]
      cases hstep : step t a with
      | error e => simp [trace, hstep]
      | ok r =>
        obtain ⟨t', next⟩ := r
        rw [trace_cons hstep, trace_cons hstep, List.length_cons, List.length_cons,
          ← List.append_assoc]
        have := ih t' (next ++ pending)
        omega

theorem length_trace_le {n : ℕ} {agenda : List α}
    (h : ∀ a ∈ agenda, ∀ t fuel, (trace step fuel t [a]).length ≤ n) :
    ∀ t fuel, (trace step fuel t agenda).length ≤ agenda.length * n := by
  induction agenda with
  | nil =>
    intro t fuel
    cases fuel <;> simp [trace]
  | cons a rest ih =>
    intro t fuel
    have hrest := ih fun b hb => h b (List.mem_cons_of_mem _ hb)
    have happ := length_trace_append hrest fuel t [a]
    have ha := h a (List.mem_cons_self ..) t fuel
    rw [List.singleton_append] at happ
    rw [List.length_cons, Nat.succ_mul]
    omega

/-- Without cycles, the number of steps is bounded for all step functions and
    all states at once. -/
theorem exists_bound {succ : α → List α} {a : α} (h : Acc (fun b a => b ∈ succ a) a) :
    ∃ n, ∀ step : τ → α → Except ε (τ × List α), Follows succ step →
      ∀ t fuel, (trace step fuel t [a]).length ≤ n := by
  induction h with
  | intro a _ ih =>
    -- the bounds of the successors have a maximum
    have hmax : ∀ bs : List α, (∀ b ∈ bs, b ∈ succ a) → ∃ n, ∀ b ∈ bs,
        ∀ step : τ → α → Except ε (τ × List α), Follows succ step →
          ∀ t fuel, (trace step fuel t [b]).length ≤ n := by
      intro bs
      induction bs with
      | nil => exact fun _ => ⟨0, by simp⟩
      | cons b rest ihrest =>
        intro hbs
        obtain ⟨n, hn⟩ := ih b (hbs b (List.mem_cons_self ..))
        obtain ⟨m, hm⟩ := ihrest fun b hb => hbs b (List.mem_cons_of_mem _ hb)
        refine ⟨max n m, ?_⟩
        intro b' hb' step hstep t fuel
        rcases List.mem_cons.mp hb' with rfl | hb'
        · exact (hn step hstep t fuel).trans (Nat.le_max_left n m)
        · exact (hm b' hb' step hstep t fuel).trans (Nat.le_max_right n m)
    obtain ⟨n, hn⟩ := hmax (succ a) fun _ hb => hb
    refine ⟨(succ a).length * n + 1, ?_⟩
    intro step hfollows t fuel
    cases fuel with
    | zero => simp [trace]
    | succ fuel =>
      cases hstep : step t a with
      | error e => simp [trace, hstep]
      | ok r =>
        obtain ⟨t', next⟩ := r
        have hsub := hfollows hstep
        have hle := length_trace_le (fun b hb => hn b (hsub.subset hb) step hfollows) t' fuel
        have hmul : next.length * n ≤ (succ a).length * n := Nat.mul_le_mul_right n hsub.length_le
        rw [trace_cons hstep, List.append_nil, List.length_cons]
        omega

end Agenda
