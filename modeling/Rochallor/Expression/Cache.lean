import Rochallor.Data.MapOrder
import Rochallor.Expression.Evaluator
import Rochallor.Framework.Recency

/-! # The cache of compiled programs

    `lruCache` of `internal/expression/evaluator.go`, with `Evaluate` and
    `SetCoercionEnabled` as they use it.  The cache has a map from keys to
    elements and a list of the elements, the one used last in front.  An element
    of `container/list` is a pointer: two elements are the same if their
    addresses are.

    The calls run one after another.  The cache's own lock makes every operation
    on it such a step.
-/

namespace Rochallor

variable {Program : Type}

/-! ## The list -/

structure CacheEntry (Program : Type) where
  key : String
  program : Program

/-- `*list.Element`. -/
structure Element (Program : Type) where
  address : Nat
  value : CacheEntry Program

/-- `list.MoveToFront`.  An element of another list is not moved. -/
def moveToFront (order : List (Element Program)) (el : Element Program) :
    List (Element Program) :=
  (order.filter fun x => x.address == el.address) ++
    order.filter fun x => !(x.address == el.address)

/-- `list.Remove`. -/
def removeElement (order : List (Element Program)) (el : Element Program) :
    List (Element Program) :=
  order.filter fun x => !(x.address == el.address)

/-! ## The cache -/

/-- `lruCache`.  The next element gets the address `allocated`. -/
structure LruCache (Program : Type) where
  cap : Nat
  items : GoMap (Element Program)
  order : List (Element Program)
  allocated : Nat

def defaultCacheSize : Nat :=
  256

def newLRUCache (cap : Nat) : LruCache Program :=
  { cap := cap, items := [], order := [], allocated := 0 }

namespace LruCache

def get (c : LruCache Program) (key : String) : Option Program × LruCache Program :=
  match c.items.get key with
  | none => (none, c)
  | some el => (some el.value.program, { c with order := moveToFront c.order el })

/-- The part of `set` that makes room. -/
def evict (c : LruCache Program) : LruCache Program :=
  if c.cap ≤ c.order.length then
    match c.order.getLast? with
    | none => c
    | some back =>
      { c with order := removeElement c.order back, items := c.items.delete back.value.key }
  else c

/-- The part of `set` that adds an element. -/
def push (c : LruCache Program) (key : String) (p : Program) : LruCache Program :=
  let el := { address := c.allocated, value := { key := key, program := p } }
  { c with
    order := el :: c.order
    items := c.items.set key el
    allocated := c.allocated + 1 }

def set (c : LruCache Program) (key : String) (p : Program) : LruCache Program :=
  match c.items.get key with
  | some el => { c with order := moveToFront c.order el }
  | none => c.evict.push key p

def clear (c : LruCache Program) : LruCache Program :=
  { c with items := [], order := [] }

/-- One operation, whatever it returns. -/
def step (c : LruCache Program) : Recency.Op String Program → LruCache Program
  | .get key => (c.get key).2
  | .set key p => c.set key p
  | .clear => c.clear

/-- The keys of the list, the one used last in front. -/
def keys (c : LruCache Program) : List String :=
  c.order.map (·.value.key)

/-- The list as keys and programs. -/
def entries (c : LruCache Program) : List (String × Program) :=
  c.order.map fun el => (el.value.key, el.value.program)

theorem entries_keys (c : LruCache Program) : c.entries.map (·.1) = c.keys := by
  unfold entries keys
  rw [List.map_map]
  rfl

/-! ## The map and the list -/

/-- The map leads from every key to the element of the list that has it. -/
structure Linked (c : LruCache Program) : Prop where
  found : ∀ key el, c.items.get key = some el ↔ el ∈ c.order ∧ el.value.key = key
  items : (c.items.map (·.1)).Nodup
  addresses : (c.order.map (·.address)).Nodup
  allocated : ∀ el ∈ c.order, el.address < c.allocated

section Linked

variable {c : LruCache Program}

/-- Elements of the list have the same key exactly if they are the same. -/
theorem Linked.address_iff (h : c.Linked) {el x : Element Program} (hel : el ∈ c.order)
    (hx : x ∈ c.order) : x.address = el.address ↔ x.value.key = el.value.key := by
  constructor
  · intro heq
    rw [List.inj_on_of_nodup_map h.addresses hx hel heq]
  · intro heq
    have hfound := (h.found el.value.key el).mpr ⟨hel, rfl⟩
    rw [(h.found el.value.key x).mpr ⟨hx, heq⟩] at hfound
    rw [Option.some.inj hfound]

theorem Linked.keys_nodup (h : c.Linked) : c.keys.Nodup := by
  refine List.Nodup.map_on (fun x hx y hy heq => ?_) (List.Nodup.of_map _ h.addresses)
  exact List.inj_on_of_nodup_map h.addresses hx hy ((h.address_iff hy hx).mpr heq)

/-- The map and the list hold the same keys. -/
theorem Linked.mem_keys (h : c.Linked) (key : String) :
    key ∈ c.items.map (·.1) ↔ key ∈ c.keys := by
  rw [← not_iff_not, ← GoMap.get_eq_none, Option.eq_none_iff_forall_not_mem]
  constructor
  · intro hnone hmem
    obtain ⟨el, hel, hkey⟩ := List.mem_map.mp hmem
    exact hnone el ((h.found key el).mpr ⟨hel, hkey⟩)
  · intro hnot el hget
    obtain ⟨hel, hkey⟩ := (h.found key el).mp hget
    exact hnot (List.mem_map.mpr ⟨el, hel, hkey⟩)

theorem Linked.length (h : c.Linked) : c.items.length = c.order.length := by
  have hperm : (c.items.map (·.1)).Perm c.keys :=
    (List.perm_ext_iff_of_nodup h.items h.keys_nodup).mpr h.mem_keys
  have hlength := hperm.length_eq
  unfold keys at hlength
  rwa [List.length_map, List.length_map] at hlength

theorem newLRUCache_linked (cap : Nat) : (newLRUCache cap : LruCache Program).Linked :=
  ⟨fun key el => by simp [newLRUCache, GoMap.get], List.nodup_nil, List.nodup_nil, by
    simp [newLRUCache]⟩

theorem clear_linked (c : LruCache Program) : c.clear.Linked :=
  ⟨fun key el => by simp [LruCache.clear, GoMap.get], List.nodup_nil, List.nodup_nil, by
    simp [LruCache.clear]⟩

/-- Moving an element leaves the map right. -/
theorem Linked.moveToFront (h : c.Linked) (el : Element Program) :
    LruCache.Linked { c with order := moveToFront c.order el } := by
  have hperm : (Rochallor.moveToFront c.order el).Perm c.order := List.filter_append_perm _ c.order
  refine ⟨fun key x => ?_, h.items, (hperm.map _).nodup_iff.mpr h.addresses, fun x hx => ?_⟩
  · show c.items.get key = some x ↔ x ∈ Rochallor.moveToFront c.order el ∧ _
    rw [hperm.mem_iff]
    exact h.found key x
  · exact h.allocated x (hperm.mem_iff.mp hx)

/-- In keys and programs, moving an element is a use of its key. -/
theorem Linked.entries_moveToFront (h : c.Linked) {el : Element Program} (hel : el ∈ c.order) :
    ({ c with order := Rochallor.moveToFront c.order el } : LruCache Program).entries =
      Recency.touch c.entries el.value.key := by
  have hsame : ∀ x ∈ c.order, (x.address == el.address) = (x.value.key == el.value.key) := by
    intro x hx
    rw [Bool.eq_iff_iff, beq_iff_eq, beq_iff_eq]
    exact h.address_iff hel hx
  show (Rochallor.moveToFront c.order el).map _ = _
  unfold Rochallor.moveToFront Recency.touch entries
  rw [List.map_append, List.filter_map, List.filter_map]
  congr 2
  · exact List.filter_congr hsame
  · exact List.filter_congr fun x hx => by rw [hsame x hx]; rfl

/-- A key the map does not have is not in the list. -/
theorem Linked.notMem (h : c.Linked) {key : String} (hget : c.items.get key = none) :
    key ∉ c.entries.map (·.1) := by
  rw [entries_keys, ← h.mem_keys]
  exact GoMap.get_eq_none.mp hget

theorem Linked.entries_nodup (h : c.Linked) : (c.entries.map (·.1)).Nodup := by
  rw [entries_keys]
  exact h.keys_nodup

/-! ## What the operations do to the list -/

theorem Linked.get (h : c.Linked) (key : String) :
    (c.get key).2.Linked ∧ (c.get key).1 = Recency.lookup c.entries key ∧
      (c.get key).2.entries = Recency.touch c.entries key := by
  unfold LruCache.get
  cases hget : c.items.get key with
  | none =>
    have hnot := h.notMem hget
    refine ⟨h, ?_, (Recency.touch_of_notMem hnot).symm⟩
    rw [Recency.lookup_of_notMem hnot]
  | some el =>
    obtain ⟨hel, rfl⟩ := (h.found key el).mp hget
    refine ⟨h.moveToFront el, ?_, h.entries_moveToFront hel⟩
    have hentry : (el.value.key, el.value.program) ∈ c.entries := List.mem_map_of_mem hel
    exact (Recency.lookup_of_mem h.entries_nodup hentry).symm

theorem Linked.evict (h : c.Linked) : c.evict.Linked ∧ c.evict.cap = c.cap ∧
    c.evict.entries = Recency.evict c.cap c.entries ∧ c.evict.keys.Sublist c.keys := by
  have hlength : c.entries.length = c.order.length := List.length_map ..
  unfold LruCache.evict Recency.evict
  rw [hlength]
  by_cases hfull : c.cap ≤ c.order.length
  · rw [if_pos hfull, if_pos hfull]
    cases hlast : c.order.getLast? with
    | none =>
      have hnil : c.order = [] := List.getLast?_eq_none_iff.mp hlast
      refine ⟨h, rfl, ?_, List.Sublist.refl _⟩
      simp [entries, hnil]
    | some back =>
      have hback : back ∈ c.order := List.mem_of_getLast? hlast
      have hremoved : removeElement c.order back = c.order.dropLast := by
        have hsplit := List.dropLast_append_getLast? back hlast
        have hnodup := h.addresses
        rw [← hsplit, List.map_append, List.nodup_append] at hnodup
        unfold removeElement
        rw [← hsplit, List.filter_append, List.dropLast_concat]
        have hfront : (c.order.dropLast.filter fun x => !(x.address == back.address)) =
            c.order.dropLast := by
          refine List.filter_eq_self.mpr fun x hx => ?_
          have hne := hnodup.2.2 x.address (List.mem_map_of_mem hx) back.address (by simp)
          simpa using hne
        rw [hfront]
        simp
      refine ⟨⟨fun key el => ?_, GoMap.delete_nodup h.items _, ?_, fun el hel => ?_⟩, rfl, ?_, ?_⟩
      · show (c.items.delete back.value.key).get key = some el ↔ el ∈ removeElement c.order back ∧ _
        rw [GoMap.get_delete, removeElement, List.mem_filter]
        by_cases hkey : back.value.key = key
        · rw [if_pos hkey]
          constructor
          · intro hnone
            cases hnone
          · intro ⟨⟨hel, hne⟩, helkey⟩
            have heq := (h.address_iff hback hel).mpr (helkey.trans hkey.symm)
            simp [heq] at hne
        · rw [if_neg hkey, h.found key el]
          constructor
          · intro ⟨hel, helkey⟩
            have hne : el.address ≠ back.address := fun heq =>
              hkey (((h.address_iff hback hel).mp heq).symm.trans helkey)
            exact ⟨⟨hel, by simpa using hne⟩, helkey⟩
          · intro ⟨⟨hel, _⟩, helkey⟩
            exact ⟨hel, helkey⟩
      · exact h.addresses.sublist ((List.filter_sublist).map _)
      · exact h.allocated el (List.mem_filter.mp hel).1
      · show (removeElement c.order back).map _ = _
        rw [hremoved, entries, List.map_dropLast]
      · exact (List.filter_sublist).map _
  · rw [if_neg hfull, if_neg hfull]
    exact ⟨h, rfl, rfl, List.Sublist.refl _⟩

theorem Linked.push (h : c.Linked) {key : String} (p : Program) (hnew : key ∉ c.keys) :
    (c.push key p).Linked ∧ (c.push key p).entries = (key, p) :: c.entries := by
  refine ⟨⟨fun k x => ?_, set_nodup h.items _ _, ?_, fun x hx => ?_⟩, rfl⟩
  · show (c.items.set key _).get k = some x ↔ x ∈ _ :: c.order ∧ _
    rw [GoMap.get_set, List.mem_cons]
    by_cases hk : key = k
    · subst hk
      rw [if_pos rfl]
      constructor
      · intro hx
        obtain rfl := Option.some.inj hx
        exact ⟨.inl rfl, rfl⟩
      · rintro ⟨rfl | hx, hxkey⟩
        · rfl
        · exact absurd (List.mem_map.mpr ⟨x, hx, hxkey⟩) hnew
    · rw [if_neg hk, h.found k x]
      constructor
      · exact fun ⟨hx, hxkey⟩ => ⟨.inr hx, hxkey⟩
      · rintro ⟨rfl | hx, hxkey⟩
        · exact absurd hxkey hk
        · exact ⟨hx, hxkey⟩
  · show (c.allocated :: c.order.map (·.address)).Nodup
    refine List.nodup_cons.mpr ⟨fun hmem => ?_, h.addresses⟩
    obtain ⟨x, hx, heq⟩ := List.mem_map.mp hmem
    have hlt := h.allocated x hx
    omega
  · show x.address < c.allocated + 1
    rcases List.mem_cons.mp hx with rfl | hx
    · exact Nat.lt_succ_self _
    · have hlt := h.allocated x hx
      omega

theorem Linked.set (h : c.Linked) (key : String) (p : Program) :
    (c.set key p).Linked ∧ (c.set key p).cap = c.cap ∧
      (c.set key p).entries = Recency.step c.cap c.entries (.set key p) := by
  unfold LruCache.set
  rw [Recency.step]
  cases hget : c.items.get key with
  | some el =>
    obtain ⟨hel, rfl⟩ := (h.found key el).mp hget
    have hmem : el.value.key ∈ c.entries.map (·.1) := by
      rw [entries_keys]
      exact List.mem_map_of_mem hel
    rw [if_pos hmem]
    exact ⟨h.moveToFront el, rfl, h.entries_moveToFront hel⟩
  | none =>
    have hnot := h.notMem hget
    obtain ⟨hlinked, hcap, hentries, hsub⟩ := h.evict
    rw [entries_keys] at hnot
    obtain ⟨hpushed, hentries'⟩ := hlinked.push p fun hmem => hnot (hsub.subset hmem)
    rw [entries_keys, if_neg hnot]
    exact ⟨hpushed, hcap, hentries'.trans (by rw [hentries])⟩

/-- Every operation does to the list what it does to a list of keys and
    programs without a map. -/
theorem Linked.step (h : c.Linked) (op : Recency.Op String Program) :
    (c.step op).Linked ∧ (c.step op).cap = c.cap ∧
      (c.step op).entries = Recency.step c.cap c.entries op := by
  cases op with
  | get key =>
    obtain ⟨hlinked, -, hentries⟩ := h.get key
    refine ⟨hlinked, ?_, hentries⟩
    show (c.get key).2.cap = c.cap
    unfold LruCache.get
    split <;> rfl
  | set key p => exact h.set key p
  | clear => exact ⟨clear_linked c, rfl, rfl⟩

end Linked

/-- The cache after the operations. -/
def after (cap : Nat) (ops : List (Recency.Op String Program)) : LruCache Program :=
  Run.after step (newLRUCache cap) ops

theorem after_linked (cap : Nat) (ops : List (Recency.Op String Program)) :
    (after cap ops).Linked ∧ (after cap ops).cap = cap ∧
      (after cap ops).entries = Run.after (Recency.step cap) [] ops := by
  induction ops using List.reverseRecOn with
  | nil => exact ⟨newLRUCache_linked cap, rfl, rfl⟩
  | append_singleton ops op ih =>
    obtain ⟨hlinked, hcap, hentries⟩ := ih
    unfold after at hlinked hcap hentries ⊢
    rw [Run.after_append, Run.after_append]
    obtain ⟨hlinked', hcap', hentries'⟩ := hlinked.step op
    rw [hcap, hentries] at hentries'
    exact ⟨hlinked', hcap'.trans hcap, hentries'⟩

end LruCache

/-! ## The evaluator -/

/-- The key of a text.  With coercion off, a text that begins with the prefix
    has the key another text has with coercion on. -/
def cacheKey (preprocessed : String) (coerce : Bool) : String :=
  if coerce then "coerce:" ++ preprocessed else preprocessed

example : cacheKey "coerce:a < b" false = cacheKey "a < b" true := by decide

theorem cacheKey_injective {a b : String} {coerce : Bool}
    (h : cacheKey a coerce = cacheKey b coerce) : a = b := by
  unfold cacheKey at h
  cases coerce with
  | false => exact h
  | true => exact (String.append_right_inj "coerce:").mp h

/-- The variables of the package. -/
structure Evaluator (Program : Type) where
  programCache : LruCache Program
  coercionEnabled : Bool

/-- What they are initialised with. -/
def newEvaluator : Evaluator Program :=
  { programCache := newLRUCache defaultCacheSize, coercionEnabled := true }

section Evaluate

variable (lang : ExprLang Program)

/-- `compileExpr`. -/
def LruCache.compileExpr (c : LruCache Program) (preprocessed : String) (coerce : Bool) :
    Except String Program × LruCache Program :=
  let key := cacheKey preprocessed coerce
  match c.get key with
  | (some p, c) => (.ok p, c)
  | (none, c) =>
    match Rochallor.compileExpr lang preprocessed coerce with
    | .error e => (.error e, c)
    | .ok p => (.ok p, c.set key p)

namespace Evaluator

/-- `SetCoercionEnabled`. -/
def setCoercionEnabled (e : Evaluator Program) (b : Bool) : Evaluator Program :=
  { programCache := e.programCache.clear, coercionEnabled := b }

/-- `Evaluate`. -/
def evaluate (e : Evaluator Program) (expression : String) (vars : GoMap Value) :
    Except String EnvValue × Evaluator Program :=
  let named : Except String EnvValue → Except String EnvValue :=
    Except.mapError fun err => "expression " ++ quote expression ++ ": " ++ err
  match preprocess expression with
  | .error err => (named (.error err), e)
  | .ok preprocessed =>
    let compiled := e.programCache.compileExpr lang preprocessed e.coercionEnabled
    (named do
      let program ← compiled.1
      checkUndefinedIdents lang preprocessed (environment vars)
      lang.run program (environment vars),
     { e with programCache := compiled.2 })

/-- A call from outside. -/
inductive Call where
  | evaluate (expression : String) (vars : GoMap Value)
  | setCoercionEnabled (b : Bool)

def call (e : Evaluator Program) : Call → Evaluator Program
  | .evaluate expression vars => (e.evaluate lang expression vars).2
  | .setCoercionEnabled b => e.setCoercionEnabled b

/-- The evaluator after the calls. -/
def after (calls : List Call) : Evaluator Program :=
  Run.after (call lang) newEvaluator calls

/-- The setting the calls leave: that of the last one that sets it. -/
def settingAfter (calls : List Call) : Bool :=
  calls.foldl (fun b call => match call with
    | .setCoercionEnabled b' => b'
    | .evaluate .. => b) true

end Evaluator

/-! ## What is cached -/

/-- Every program is what its key's text compiles to under the setting. -/
def LruCache.Compiled (c : LruCache Program) (coerce : Bool) : Prop :=
  ∀ entry ∈ c.entries, ∃ text, entry.1 = cacheKey text coerce ∧
    Rochallor.compileExpr lang text coerce = .ok entry.2

variable {lang}

/-- Under one setting the key of a text is that of no other, so the cache makes
    no difference. -/
theorem LruCache.Compiled.compileExpr {c : LruCache Program} {coerce : Bool} (hlinked : c.Linked)
    (h : c.Compiled lang coerce) (preprocessed : String) :
    (c.compileExpr lang preprocessed coerce).1 = Rochallor.compileExpr lang preprocessed coerce ∧
      (c.compileExpr lang preprocessed coerce).2.Linked ∧
      (c.compileExpr lang preprocessed coerce).2.Compiled lang coerce := by
  obtain ⟨hlinked', hlookup, hentries⟩ := hlinked.get (cacheKey preprocessed coerce)
  have hkept : (c.get (cacheKey preprocessed coerce)).2.Compiled lang coerce := by
    intro entry hentry
    rw [hentries] at hentry
    exact h entry ((Recency.touch_perm c.entries _).mem_iff.mp hentry)
  unfold LruCache.compileExpr
  dsimp only
  cases hget : c.get (cacheKey preprocessed coerce) with
  | mk found c' =>
    rw [hget] at hlinked' hlookup hkept
    cases found with
    | some p =>
      obtain ⟨entry, hentry, hkey, rfl⟩ := Recency.mem_of_lookup hlookup.symm
      obtain ⟨text, htext, hcompiled⟩ := h entry hentry
      obtain rfl := cacheKey_injective (hkey.symm.trans htext)
      exact ⟨hcompiled.symm, hlinked', hkept⟩
    | none =>
      cases hcompile : Rochallor.compileExpr lang preprocessed coerce with
      | error err => exact ⟨rfl, hlinked', hkept⟩
      | ok p =>
        obtain ⟨hset, -, hentries'⟩ := hlinked'.set (cacheKey preprocessed coerce) p
        refine ⟨rfl, hset, fun entry hentry => ?_⟩
        rw [hentries'] at hentry
        rcases Recency.mem_step_set hentry with rfl | hentry
        · exact ⟨preprocessed, rfl, hcompile⟩
        · exact hkept entry hentry

namespace Evaluator

/-- What holds between the calls: the setting is the one the programs were
    compiled under. -/
structure Consistent (lang : ExprLang Program) (e : Evaluator Program) : Prop where
  linked : e.programCache.Linked
  compiled : e.programCache.Compiled lang e.coercionEnabled

theorem newEvaluator_consistent : (newEvaluator : Evaluator Program).Consistent lang :=
  ⟨LruCache.newLRUCache_linked _, fun entry hentry => by cases hentry⟩

/-- Changing the setting clears the cache, so nothing compiled under the old one
    is left. -/
theorem setCoercionEnabled_consistent (e : Evaluator Program) (b : Bool) :
    (e.setCoercionEnabled b).Consistent lang :=
  ⟨LruCache.clear_linked _, fun entry hentry => by cases hentry⟩

/-- `Evaluate` is what it is without the cache. -/
theorem Consistent.evaluate {e : Evaluator Program} (h : e.Consistent lang) (expression : String)
    (vars : GoMap Value) :
    (e.evaluate lang expression vars).1 =
        Rochallor.evaluate lang e.coercionEnabled expression vars ∧
      (e.evaluate lang expression vars).2.coercionEnabled = e.coercionEnabled ∧
      (e.evaluate lang expression vars).2.Consistent lang := by
  unfold Evaluator.evaluate Rochallor.evaluate
  cases preprocess expression with
  | error err => exact ⟨rfl, rfl, h⟩
  | ok preprocessed =>
    obtain ⟨hcompile, hlinked, hcompiled⟩ := h.compiled.compileExpr h.linked preprocessed
    refine ⟨?_, rfl, hlinked, hcompiled⟩
    dsimp only
    rw [hcompile]
    rfl

variable (lang) in
theorem after_consistent (calls : List Call) :
    (after lang calls).Consistent lang ∧
      (after lang calls).coercionEnabled = settingAfter calls := by
  induction calls using List.reverseRecOn with
  | nil => exact ⟨newEvaluator_consistent, rfl⟩
  | append_singleton calls x ih =>
    obtain ⟨hconsistent, hsetting⟩ := ih
    unfold after at hconsistent hsetting ⊢
    unfold settingAfter at hsetting ⊢
    rw [Run.after_append, List.foldl_append, List.foldl_cons, List.foldl_nil, ← hsetting]
    cases x with
    | evaluate expression vars =>
      obtain ⟨-, hkept, hnext⟩ := hconsistent.evaluate expression vars
      exact ⟨hnext, hkept⟩
    | setCoercionEnabled b => exact ⟨setCoercionEnabled_consistent _ b, rfl⟩

end Evaluator

end Evaluate

end Rochallor
