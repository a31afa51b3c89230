import Mathlib.Data.List.Sort
import Mathlib.Data.Prod.Lex

/-! # Keyset pagination

    Rows are listed by a descending key, a page at a time.  A page that is not
    the last comes with a cursor made from its last row, and the next page
    lists the rows below that cursor.

    The cursor need not stand for the key of its row: it may be lower.  Rows
    between the cursor and the row it was made from are then on no page.
-/

namespace Rochallor.Keyset

variable {α κ : Type*} [LinearOrder κ]

/-- `ORDER BY key DESC`. -/
def newestFirst (key : α → κ) (rows : List α) : List α :=
  rows.insertionSort fun a b => key b ≤ key a

section Order

variable {key : α → κ} {rows : List α}

theorem newestFirst_perm : (newestFirst key rows).Perm rows :=
  List.perm_insertionSort ..

theorem newestFirst_ordered : (newestFirst key rows).Pairwise fun a b => key b ≤ key a := by
  have : Std.Total fun a b : α => key b ≤ key a := ⟨fun a b => le_total (key b) (key a)⟩
  have : IsTrans α fun a b => key b ≤ key a := ⟨fun _ _ _ hab hbc => hbc.trans hab⟩
  exact List.pairwise_insertionSort ..

/-- Under distinct keys the order is strict. -/
theorem newestFirst_strict (hkeys : (rows.map key).Nodup) :
    (newestFirst key rows).Pairwise fun a b => key b < key a := by
  have hnd : ((newestFirst key rows).map key).Nodup :=
    ((newestFirst_perm.map key).nodup_iff).mpr hkeys
  have hne : (newestFirst key rows).Pairwise fun a b => key a ≠ key b := List.pairwise_map.mp hnd
  exact (newestFirst_ordered.and hne).imp fun h => lt_of_le_of_ne h.1 h.2.symm

/-- Sorting what a condition selects is selecting from the sorted rows. -/
theorem newestFirst_filter (hkeys : (rows.map key).Nodup) (p : α → Bool) :
    newestFirst key (rows.filter p) = (newestFirst key rows).filter p := by
  have hperm : (newestFirst key (rows.filter p)).Perm ((newestFirst key rows).filter p) :=
    newestFirst_perm.trans (newestFirst_perm.symm.filter p)
  have hkeys' : ((rows.filter p).map key).Nodup := hkeys.sublist (List.filter_sublist.map key)
  refine hperm.eq_of_pairwise ?_ (newestFirst_strict hkeys')
    ((newestFirst_strict hkeys).sublist List.filter_sublist)
  intro a b _ _ hab hba
  exact absurd (hab.trans hba) (lt_irrefl _)

end Order

/-! ## Following the cursors -/

section Following

variable {β C ε : Type*}

/-- Following the cursors from `cursor` until there is none returns `items`. -/
inductive Followed (fetch : Option C → Except ε (List β × Option C)) :
    Option C → List β → Prop
  | last {cursor : Option C} {items : List β} (h : fetch cursor = .ok (items, none)) :
    Followed fetch cursor items
  | next {cursor : Option C} {items rest : List β} {c : C}
    (h : fetch cursor = .ok (items, some c)) (hrest : Followed fetch (some c) rest) :
    Followed fetch cursor (items ++ rest)

/-- The first page of the rows, with a cursor if there are more. -/
def pageOf (limit : Nat) (item : α → β) (cursor : α → C) (rows : List α) : List β × Option C :=
  ((rows.take limit).map item,
    if limit < rows.length then (rows.take limit).getLast?.map cursor else none)

/-- One row more is fetched, which tells whether there is another page. -/
theorem pageOf_take (limit : Nat) (item : α → β) (cursor : α → C) (rows : List α) :
    pageOf limit item cursor (rows.take (limit + 1)) = pageOf limit item cursor rows := by
  unfold pageOf
  have htake : (rows.take (limit + 1)).take limit = rows.take limit := by
    rw [List.take_take]
    congr 1
    omega
  have hmore : limit < (rows.take (limit + 1)).length ↔ limit < rows.length := by
    rw [List.length_take]
    omega
  rw [htake]
  simp only [hmore]

/-- The rows below the cursor made from `a`, which stands for the key `cut a`. -/
def belowOf (key cut : α → κ) (a : α) (rows : List α) : List α :=
  rows.filter fun r => decide (key r < cut a)

/-- `fetch` lists the rows: the page of a readable cursor holds the rows whose
    keys are below it. -/
structure Lists (fetch : Option C → Except ε (List β × Option C)) (limit : Nat) (item : α → β)
    (cursor : α → C) (readable : α → Prop) (key cut : α → κ) (rows : List α) : Prop where
  positive : 0 < limit
  ordered : rows.Pairwise fun a b => key b < key a
  lower : ∀ a, cut a ≤ key a
  first : fetch none = .ok (pageOf limit item cursor rows)
  below : ∀ a ∈ rows, readable a → fetch (some (cursor a)) =
    .ok (pageOf limit item cursor (belowOf key cut a rows))
  refused : ∀ a ∈ rows, ¬ readable a → ∀ page, fetch (some (cursor a)) ≠ .ok page

/-- Where a page ends and another row follows, the cursor can be read and that
    row is below it. -/
def Seamless (limit : Nat) (readable : α → Prop) (key cut : α → κ) (rows : List α) : Prop :=
  ∀ k a b, 0 < k → rows[k * limit - 1]? = some a → rows[k * limit]? = some b →
    readable a ∧ key b < cut a

/-! ## What a cursor lets through -/

section Below

variable {key cut : α → κ} {limit : Nat} {s front back : List α} {a b : α}

/-- What a cursor lets through comes after the row it was made from. -/
theorem belowOf_eq (hs : (front ++ a :: back).Pairwise fun a b => key b < key a)
    (hle : cut a ≤ key a) : belowOf key cut a (front ++ a :: back) = belowOf key cut a back := by
  obtain ⟨-, -, hcross⟩ := List.pairwise_append.mp hs
  have hfront : front.filter (fun r => decide (key r < cut a)) = [] := by
    rw [List.filter_eq_nil_iff]
    intro r hr
    have := hcross r hr a (List.mem_cons_self ..)
    simp only [decide_eq_true_eq, not_lt]
    exact hle.trans this.le
  unfold belowOf
  rw [List.filter_append, hfront, List.nil_append, List.filter_cons_of_neg]
  simpa using hle

/-- They are all the rows after it if the first of these is let through. -/
theorem belowOf_all (hs : (front ++ a :: b :: back).Pairwise fun a b => key b < key a)
    (hle : cut a ≤ key a) (hb : key b < cut a) :
    belowOf key cut a (front ++ a :: b :: back) = b :: back := by
  rw [belowOf_eq hs hle, belowOf, List.filter_eq_self]
  have hback := (List.pairwise_cons.mp (List.pairwise_cons.mp (List.pairwise_append.mp hs).2.1).2).1
  intro r hr
  rcases List.mem_cons.mp hr with rfl | hr
  · exact decide_eq_true hb
  · exact decide_eq_true ((hback r hr).trans hb)

/-- And fewer if it is not. -/
theorem belowOf_length_lt (hs : (front ++ a :: b :: back).Pairwise fun a b => key b < key a)
    (hle : cut a ≤ key a) (hb : ¬ key b < cut a) :
    (belowOf key cut a (front ++ a :: b :: back)).length < (b :: back).length := by
  rw [belowOf_eq hs hle, belowOf, List.filter_cons_of_neg (by simpa using hb), List.length_cons]
  exact Nat.lt_succ_of_le (List.length_filter_le ..)

/-- The last row of a page that is not the last, and the first of the next. -/
theorem exists_seam (hlimit : 0 < limit) (hlen : limit < s.length) :
    ∃ a b back, s.drop limit = b :: back ∧ (s.take limit).getLast? = some a ∧
      s[limit - 1]? = some a ∧ s[limit]? = some b ∧ s = s.take (limit - 1) ++ a :: b :: back := by
  obtain ⟨b, back, hdrop⟩ := List.exists_cons_of_ne_nil (l := s.drop limit) (by simpa using hlen)
  have hget : s[limit - 1]? = some s[limit - 1] := List.getElem?_eq_getElem (by omega)
  have hdrop' : s.drop (limit - 1) = s[limit - 1] :: s.drop limit := by
    rw [List.drop_eq_getElem_cons (by omega)]
    congr 2
    omega
  refine ⟨s[limit - 1], b, back, hdrop, ?_, hget, ?_, ?_⟩
  · rw [List.getLast?_take, if_neg (by omega), hget]
    rfl
  · rw [← List.head?_drop, hdrop]
    rfl
  · rw [← hdrop, ← hdrop', List.take_append_drop]

/-- The seams of the rows are the first one and those of the rows after the
    first page. -/
theorem seamless_iff {readable : α → Prop} (hlimit : 0 < limit) (ha : s[limit - 1]? = some a)
    (hb : s[limit]? = some b) : Seamless limit readable key cut s ↔
      (readable a ∧ key b < cut a) ∧ Seamless limit readable key cut (s.drop limit) := by
  constructor
  · intro h
    refine ⟨h 1 a b Nat.one_pos (by rwa [Nat.one_mul]) (by rwa [Nat.one_mul]), ?_⟩
    intro k a' b' hk ha' hb'
    rw [List.getElem?_drop] at ha' hb'
    have hpos : 0 < k * limit := Nat.mul_pos hk hlimit
    refine h (k + 1) a' b' k.succ_pos ?_ ?_
    · rw [← ha']
      congr 1
      rw [Nat.succ_mul]
      omega
    · rw [← hb']
      congr 1
      rw [Nat.succ_mul]
      omega
  · rintro ⟨hfirst, hrest⟩ k a' b' hk ha' hb'
    rcases Nat.exists_eq_succ_of_ne_zero hk.ne' with ⟨j, rfl⟩
    by_cases hj : j = 0
    · subst hj
      rw [Nat.succ_mul, Nat.zero_mul, Nat.zero_add] at ha' hb'
      rw [ha] at ha'
      rw [hb] at hb'
      cases ha'
      cases hb'
      exact hfirst
    · have hpos : 0 < j * limit := Nat.mul_pos (Nat.pos_of_ne_zero hj) hlimit
      refine hrest j a' b' (Nat.pos_of_ne_zero hj) ?_ ?_
      · rw [← ha', List.getElem?_drop]
        congr 1
        rw [Nat.succ_mul]
        omega
      · rw [← hb', List.getElem?_drop]
        congr 1
        rw [Nat.succ_mul]
        omega

theorem seamless_of_length_le {readable : α → Prop} (hlen : s.length ≤ limit) :
    Seamless limit readable key cut s := by
  intro k a b hk _ hb
  have hlt := (List.getElem?_eq_some_iff.mp hb).1
  have := Nat.le_mul_of_pos_left limit hk
  omega

end Below

/-! ## All the pages -/

theorem Followed.fetched {fetch : Option C → Except ε (List β × Option C)} {c : Option C}
    {items : List β} (h : Followed fetch c items) : ∃ page, fetch c = .ok page := by
  cases h with
  | last h => exact ⟨_, h⟩
  | next h _ => exact ⟨_, h⟩

namespace Lists

variable {fetch : Option C → Except ε (List β × Option C)} {limit : Nat} {item : α → β}
  {cursor : α → C} {readable : α → Prop} {key cut : α → κ} {rows s : List α}

/-- The rows `s` are left: a cursor made from one of them lets through the same
    rows of `s` as of all rows. -/
structure Left (key cut : α → κ) (rows s : List α) : Prop where
  sublist : s.Sublist rows
  below : ∀ a ∈ s, belowOf key cut a rows = belowOf key cut a s

theorem left_all (rows : List α) : Left key cut rows rows := ⟨.refl _, fun _ _ => rfl⟩

theorem left_below (h : Lists fetch limit item cursor readable key cut rows) (a : α) :
    Left key cut rows (belowOf key cut a rows) where
  sublist := List.filter_sublist
  below := by
    intro b hb
    have hlt : key b < cut a := by simpa using (List.mem_filter.mp hb).2
    rw [belowOf, belowOf, belowOf, List.filter_filter]
    refine List.filter_congr fun r _ => ?_
    -- a row below `b` is below `a` too
    by_cases hr : key r < cut b
    · have hra : key r < cut a := hr.trans ((h.lower b).trans_lt hlt)
      simp [hr, hra]
    · simp [hr]

/-- The rows of the next page when there is one. -/
theorem next_page (h : Lists fetch limit item cursor readable key cut rows)
    (hleft : Left key cut rows s) {c : Option C} (hc : fetch c = .ok (pageOf limit item cursor s))
    {items : List β} {c' : C} (hnext : fetch c = .ok (items, some c')) :
    ∃ a b back, s.drop limit = b :: back ∧ s[limit - 1]? = some a ∧ s[limit]? = some b ∧
      s = s.take (limit - 1) ++ a :: b :: back ∧ a ∈ rows ∧ c' = cursor a ∧
      items = (s.take limit).map item ∧ belowOf key cut a rows = belowOf key cut a s := by
  rw [hc] at hnext
  obtain ⟨rfl, hcursor⟩ := Prod.mk.inj (Except.ok.inj hnext)
  by_cases hlen : limit < s.length
  · obtain ⟨a, b, back, hdrop, hlast, ha, hb, hs⟩ := exists_seam h.positive hlen
    rw [if_pos hlen, hlast] at hcursor
    have hmem : a ∈ s := List.mem_of_getElem? ha
    exact ⟨a, b, back, hdrop, ha, hb, hs, hleft.sublist.subset hmem,
      (Option.some.inj hcursor).symm, rfl, hleft.below a hmem⟩
  · rw [if_neg hlen] at hcursor
    cases hcursor

/-- Following never returns more than the rows that are left. -/
theorem length_le (h : Lists fetch limit item cursor readable key cut rows) {c : Option C}
    {items : List β} (hf : Followed fetch c items) (hleft : Left key cut rows s)
    (hc : fetch c = .ok (pageOf limit item cursor s)) : items.length ≤ s.length := by
  induction hf generalizing s with
  | last hlast =>
    rw [hc] at hlast
    obtain ⟨rfl, -⟩ := Prod.mk.inj (Except.ok.inj hlast)
    rw [List.length_map]
    exact (List.length_take_le' ..)
  | @next c items rest c' hnext hrest ih =>
    obtain ⟨a, b, back, hdrop, -, -, hs, ha, rfl, rfl, hbelow⟩ := h.next_page hleft hc hnext
    have hreadable : readable a := by
      by_contra hnot
      obtain ⟨page, hpage⟩ := hrest.fetched
      exact h.refused a ha hnot page hpage
    have hrest := ih (h.left_below a) (h.below a ha hreadable)
    have hordered : (s.take (limit - 1) ++ a :: b :: back).Pairwise fun a b => key b < key a :=
      hs ▸ h.ordered.sublist hleft.sublist
    have hfewer : (belowOf key cut a rows).length ≤ (s.drop limit).length := by
      rw [hbelow, hs, belowOf_eq hordered (h.lower a), ← hs, hdrop]
      exact List.length_filter_le ..
    have hlen := congrArg List.length (List.take_append_drop limit s)
    rw [List.length_append] at hlen
    rw [List.length_append, List.length_map]
    omega

/-- If following returns as many items as there are rows, no seam loses any. -/
theorem seamless_of_length (h : Lists fetch limit item cursor readable key cut rows)
    {c : Option C} {items : List β} (hf : Followed fetch c items) (hleft : Left key cut rows s)
    (hc : fetch c = .ok (pageOf limit item cursor s)) (hlen : items.length = s.length) :
    Seamless limit readable key cut s := by
  induction hf generalizing s with
  | last hlast =>
    rw [hc] at hlast
    obtain ⟨rfl, -⟩ := Prod.mk.inj (Except.ok.inj hlast)
    refine seamless_of_length_le ?_
    rw [List.length_map, List.length_take] at hlen
    omega
  | @next c items rest c' hnext hrest ih =>
    obtain ⟨a, b, back, hdrop, hga, hgb, hs, ha, rfl, rfl, hbelow⟩ := h.next_page hleft hc hnext
    have hreadable : readable a := by
      by_contra hnot
      obtain ⟨page, hpage⟩ := hrest.fetched
      exact h.refused a ha hnot page hpage
    have hnextpage := h.below a ha hreadable
    have hle := h.length_le hrest (h.left_below a) hnextpage
    have hordered : (s.take (limit - 1) ++ a :: b :: back).Pairwise fun a b => key b < key a :=
      hs ▸ h.ordered.sublist hleft.sublist
    have htotal := congrArg List.length (List.take_append_drop limit s)
    rw [List.length_append, hdrop] at htotal
    rw [List.length_append, List.length_map] at hlen
    have hb : key b < cut a := by
      by_contra hnot
      have := belowOf_length_lt hordered (h.lower a) hnot
      rw [← hs, ← hbelow] at this
      omega
    have hall : belowOf key cut a rows = s.drop limit := by
      rw [hbelow, hs, belowOf_all hordered (h.lower a) hb, ← hs, hdrop]
    refine (seamless_iff h.positive hga hgb).mpr ⟨⟨hreadable, hb⟩, ?_⟩
    rw [← hall]
    refine ih (h.left_below a) hnextpage ?_
    rw [hall, hdrop]
    omega

/-- Without a seam that loses rows, following returns the rows that are left. -/
theorem followed_of_seamless (h : Lists fetch limit item cursor readable key cut rows)
    {c : Option C} (hleft : Left key cut rows s)
    (hc : fetch c = .ok (pageOf limit item cursor s))
    (hseamless : Seamless limit readable key cut s) : Followed fetch c (s.map item) := by
  induction hn : s.length using Nat.strong_induction_on generalizing s c with
  | _ n ih =>
    by_cases hlen : limit < s.length
    · obtain ⟨a, b, back, hdrop, hlast, hga, hgb, hs⟩ := exists_seam h.positive hlen
      have hmem : a ∈ s := List.mem_of_getElem? hga
      obtain ⟨⟨hreadable, hb⟩, hrest⟩ := (seamless_iff h.positive hga hgb).mp hseamless
      have hordered : (s.take (limit - 1) ++ a :: b :: back).Pairwise fun a b => key b < key a :=
        hs ▸ h.ordered.sublist hleft.sublist
      have hall : belowOf key cut a rows = s.drop limit := by
        rw [hleft.below a hmem, hs, belowOf_all hordered (h.lower a) hb, ← hs, hdrop]
      have hnext := h.below a (hleft.sublist.subset hmem) hreadable
      have hfollowed : Followed fetch (some (cursor a)) ((s.drop limit).map item) := by
        refine ih (s.drop limit).length ?_ (hall ▸ h.left_below a) (hall ▸ hnext) hrest rfl
        have := h.positive
        rw [List.length_drop]
        omega
      have hpage : pageOf limit item cursor s = ((s.take limit).map item, some (cursor a)) := by
        rw [pageOf, if_pos hlen, hlast]
        rfl
      rw [← List.take_append_drop limit (s.map item), ← List.map_take, ← List.map_drop]
      exact .next (hpage ▸ hc) hfollowed
    · have hpage : pageOf limit item cursor s = (s.map item, none) := by
        rw [pageOf, if_neg hlen, List.take_of_length_le (not_lt.mp hlen)]
      exact .last (hpage ▸ hc)

/-- Following from the first page returns all the rows, in order and once each,
    if and only if no seam loses any. -/
theorem followed_iff (h : Lists fetch limit item cursor readable key cut rows) :
    Followed fetch none (rows.map item) ↔ Seamless limit readable key cut rows := by
  constructor
  · intro hf
    exact h.seamless_of_length hf (left_all rows) h.first (by rw [List.length_map])
  · exact h.followed_of_seamless (left_all rows) h.first

/-- And it returns as many items as there are rows under the same condition. -/
theorem followed_length_iff (h : Lists fetch limit item cursor readable key cut rows) :
    (∃ items, Followed fetch none items ∧ items.length = rows.length) ↔
      Seamless limit readable key cut rows := by
  constructor
  · rintro ⟨items, hf, hlen⟩
    exact h.seamless_of_length hf (left_all rows) h.first hlen
  · intro hseamless
    exact ⟨_, h.followed_iff.mpr hseamless, by rw [List.length_map]⟩

end Lists

end Following

end Rochallor.Keyset
