import Rochallor.Expression.Cache

/-! # The cache changes no result

    Whatever is asked of the cache, its map and its list stay in step within the
    capacity, what leaves for room is what was used longest ago, and what a key
    returns was given for it since the cache was last cleared.

    The keys themselves do not tell a text compiled with coercion from the text
    that begins with the prefix, compiled without.  They need not: a change of
    the setting clears the cache, so all that is cached was compiled under the
    setting in force, and there every key is that of one text.
-/

namespace Rochallor

variable {Program : Type}

/-- What is said of a cache after the operations `ops`. -/
structure LruCache.Sound (cap : Nat) (ops : List (Recency.Op String Program))
    (c : LruCache Program) : Prop where
  sameKeys : ∀ key, key ∈ c.items.map (·.1) ↔ key ∈ c.keys
  itemsNodup : (c.items.map (·.1)).Nodup
  keysNodup : c.keys.Nodup
  size : c.items.length ≤ cap ∧ c.order.length ≤ cap
  evicted : ∀ key p victim, victim ∈ c.keys → victim ∉ (c.set key p).keys →
    cap ≤ c.order.length ∧
      ∀ other ∈ c.keys, other ≠ victim → Recency.age ops other < Recency.age ops victim
  returned : ∀ key p, (c.get key).1 = some p →
    ∃ before later, ops = before ++ .set key p :: later ∧ .clear ∉ later

/-- Every run of a cache with room for a program leaves it sound. -/
theorem LruCache.after_sound {cap : Nat} (hcap : 1 ≤ cap)
    (ops : List (Recency.Op String Program)) : (after cap ops).Sound cap ops := by
  obtain ⟨hlinked, hc, hentries⟩ := after_linked cap ops
  have hkept := Recency.kept_after hcap ops
  rw [← hentries] at hkept
  have horder : (after cap ops).order.length ≤ cap := by
    have hsize := hkept.size
    unfold entries at hsize
    rwa [List.length_map] at hsize
  constructor
  · exact hlinked.mem_keys
  · exact hlinked.items
  · exact hlinked.keys_nodup
  · rw [hlinked.length]
    exact ⟨horder, horder⟩
  · intro key p victim hin hout
    obtain ⟨-, -, hset⟩ := hlinked.set key p
    rw [hc] at hset
    rw [← entries_keys] at hin
    rw [← entries_keys, hset] at hout
    obtain ⟨hfull, hages⟩ := hkept.evicted hin hout
    rw [entries_keys] at hages
    unfold entries at hfull
    rw [List.length_map] at hfull
    exact ⟨hfull, hages⟩
  · intro key p hget
    obtain ⟨-, hlookup, -⟩ := hlinked.get key
    exact hkept.lookup (hlookup.symm.trans hget)

/-- The cache is sound after every sequence of operations.  After every sequence
    of calls it returns for the key of a text what the text compiles to under
    the setting in force, and `Evaluate` gives what it gives without a cache. -/
theorem program_cache (lang : ExprLang Program) {cap : Nat} (hcap : 1 ≤ cap) :
    (∀ ops : List (Recency.Op String Program), (LruCache.after cap ops).Sound cap ops) ∧
    (∀ calls key p, ((Evaluator.after lang calls).programCache.get key).1 = some p →
      ∃ text, key = cacheKey text (Evaluator.settingAfter calls) ∧
        compileExpr lang text (Evaluator.settingAfter calls) = .ok p) ∧
    ∀ calls expression vars, ((Evaluator.after lang calls).evaluate lang expression vars).1 =
      evaluate lang (Evaluator.settingAfter calls) expression vars := by
  refine ⟨LruCache.after_sound hcap, ?_, ?_⟩
  · intro calls key p hget
    obtain ⟨⟨hlinked, hcompiled⟩, hsetting⟩ := Evaluator.after_consistent lang calls
    obtain ⟨-, hlookup, -⟩ := hlinked.get key
    rw [hget] at hlookup
    obtain ⟨entry, hentry, rfl, rfl⟩ := Recency.mem_of_lookup hlookup.symm
    rw [← hsetting]
    exact hcompiled entry hentry
  · intro calls expression vars
    obtain ⟨hconsistent, hsetting⟩ := Evaluator.after_consistent lang calls
    rw [← hsetting]
    exact (hconsistent.evaluate expression vars).1

/-- Reads a variable. -/
def variableLang : ExprLang Node where
  parse text := if text = "a" then .ok (.ident "a") else .error "unexpected token"
  compile tree := .ok tree
  run program env :=
    match program with
    | .ident name => match GoMap.get env name with
      | some v => .ok v
      | none => .error "unknown name"
    | _ => .error "no program"

/-- The first program is used again before the cache is full. -/
def usedAgain : List (Recency.Op String Node) :=
  [.set "a" (.ident "a"), .set "b" (.ident "b"), .get "a"]

theorem program_cache_evicts :
    ((LruCache.after 2 usedAgain).set "c" (.ident "c")).keys = ["c", "a"] ∧
      Recency.age usedAgain "a" < Recency.age usedAgain "b" ∧
      ((Evaluator.after variableLang [.evaluate "a" [("a", .int 1)],
        .setCoercionEnabled false]).evaluate variableLang "a" [("a", .int 2)]).1 =
        evaluate variableLang false "a" [("a", .int 2)] := by
  obtain ⟨hsound, -, hevaluate⟩ := program_cache variableLang (show 1 ≤ 2 by decide)
  refine ⟨by decide, ?_, hevaluate _ "a" _⟩
  exact ((hsound usedAgain).evicted "c" (.ident "c") "b" (by decide) (by decide)).2 "a"
    (by decide) (by decide)

end Rochallor
