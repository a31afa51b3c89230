import Rochallor.Monitor.SavedFilters

/-! # Saved filters and their reload

    A stored search is checked again when it is loaded.  All its checks but one
    look at the decoded fields, which normalizing leaves as they are; the length
    is that of the text, and percent-encoding makes it longer.  So what was
    stored is loaded again exactly when no search has become too long.
-/

namespace Rochallor.Monitor

/-! ## Queries -/

section Queries

variable {query : List (String × String)} {name value : String}

theorem getAll_cons (p : String × String) (query : List (String × String)) (name : String) :
    getAll (p :: query) name = if p.1 = name then p.2 :: getAll query name else getAll query name := by
  unfold getAll
  by_cases hp : p.1 = name
  · rw [if_pos hp, List.filter_cons_of_pos (by simpa using hp), List.map_cons]
  · rw [if_neg hp, List.filter_cons_of_neg (by simpa using hp)]

theorem getAll_append (query query' : List (String × String)) (name : String) :
    getAll (query ++ query') name = getAll query name ++ getAll query' name := by
  rw [getAll, List.filter_append, List.map_append]
  rfl

theorem mem_getAll : value ∈ getAll query name ↔ (name, value) ∈ query := by
  unfold getAll
  simp

theorem getAll_eq_nil : getAll query name = [] ↔ ∀ p ∈ query, p.1 ≠ name := by
  unfold getAll
  rw [List.map_eq_nil_iff, List.filter_eq_nil_iff]
  simp

theorem getAll_delete (query : List (String × String)) (name other : String) :
    getAll (deleteName query other) name = if other = name then [] else getAll query name := by
  by_cases hname : other = name
  · rw [if_pos hname, getAll_eq_nil]
    intro p hp
    simpa [hname] using (List.mem_filter.mp hp).2
  · rw [if_neg hname, getAll, deleteName, List.filter_filter]
    unfold getAll
    congr 2
    funext p
    by_cases hp : p.1 = name
    · simp [hp, Ne.symm hname]
    · simp [hp]

theorem getAll_setValue (name value : String) (query : List (String × String)) (other : String) :
    getAll (setValue name value query) other =
      if name = other then [value] else getAll query other := by
  induction query with
  | nil =>
    rw [setValue, getAll_cons]
    rfl
  | cons p rest ih =>
    rw [setValue]
    by_cases hp : p.1 = name
    · rw [if_pos hp, getAll_cons, getAll_cons]
      have hdelete : getAll (rest.filter fun p => !(p.1 == name)) other =
          if name = other then [] else getAll rest other := getAll_delete rest other name
      rw [hdelete, hp]
      by_cases hother : name = other
      · simp only [if_pos hother]
      · simp only [if_neg hother]
    · rw [if_neg hp, getAll_cons, getAll_cons, ih]
      by_cases hother : name = other
      · rw [if_pos hother, if_pos hother, if_neg (hother ▸ hp)]
      · rw [if_neg hother, if_neg hother]

/-- Setting the only value of a name to what it is changes nothing. -/
theorem setValue_self (h : getAll query name = [value]) : setValue name value query = query := by
  induction query with
  | nil => cases h
  | cons p rest ih =>
    rw [getAll_cons] at h
    rw [setValue]
    by_cases hp : p.1 = name
    · rw [if_pos hp] at h ⊢
      obtain ⟨hvalue, hrest⟩ := List.cons.inj h
      have hfilter : (rest.filter fun p => !(p.1 == name)) = rest := by
        refine List.filter_eq_self.mpr fun q hq => ?_
        simpa using getAll_eq_nil.mp hrest q hq
      rw [hfilter, ← hp, ← hvalue]
    · rw [if_neg hp] at h ⊢
      rw [ih h]

theorem hasName_iff : hasName query name = true ↔ getAll query name ≠ [] := by
  unfold hasName
  cases getAll query name <;> simp

/-- An empty value counts as none. -/
theorem truthy_getFirst (query : List (String × String)) (name : String) :
    truthy (getFirst query name) =
      if valueOrEmpty query name = "" then none else some (valueOrEmpty query name) := by
  unfold valueOrEmpty truthy
  cases getFirst query name with
  | none => rfl
  | some value =>
    by_cases hvalue : value = ""
    · subst hvalue
      rfl
    · have hempty : value.isEmpty = false := by simpa using hvalue
      simp [hempty, hvalue]

end Queries

/-! ## The kept query -/

section Kept

variable {kind : FilterKind} {source : List (String × String)} {statuses : List String}

theorem fields_nodup (kind : FilterKind) : (fields kind).Nodup := by
  cases kind <;> decide

/-- The values of one field in a list made field by field. -/
theorem getAll_flatMap {names : List String} (hnodup : names.Nodup)
    (values : String → List String) (name : String) :
    getAll (names.flatMap fun field => (values field).map fun value => (field, value)) name =
      if name ∈ names then values name else [] := by
  induction names with
  | nil => rfl
  | cons field rest ih =>
    obtain ⟨hnot, hrest⟩ := List.nodup_cons.mp hnodup
    have hself : ∀ vs : List String, getAll (vs.map fun value => (field, value)) name =
        if field = name then vs else [] := by
      intro vs
      by_cases hfield : field = name
      · rw [if_pos hfield, getAll, List.filter_eq_self.mpr (by simp [hfield]), List.map_map]
        exact List.map_id vs
      · rw [if_neg hfield, getAll_eq_nil]
        simp [hfield]
    rw [List.flatMap_cons, getAll_append, hself, ih hrest]
    by_cases hfield : field = name
    · subst hfield
      rw [if_pos rfl, if_neg hnot, if_pos (List.mem_cons_self ..), List.append_nil]
    · rw [if_neg hfield, List.nil_append]
      by_cases hname : name ∈ rest
      · rw [if_pos hname, if_pos (List.mem_cons_of_mem _ hname)]
      · rw [if_neg hname, if_neg]
        simp [Ne.symm hfield, hname]

/-- The values a field is kept with. -/
def keptValues (source : List (String × String)) (statuses : List String) (field : String) :
    List String :=
  if field = "status" then statuses else (truthy (getFirst source field)).toList

theorem keptFields_eq : keptFields kind source statuses =
    (fields kind).flatMap fun field =>
      (keptValues source statuses field).map fun value => (field, value) := by
  unfold keptFields keptValues
  congr 1
  funext field
  by_cases hstatus : field = "status"
  · rw [if_pos hstatus, if_pos hstatus]
  · rw [if_neg hstatus, if_neg hstatus]
    cases truthy (getFirst source field) <;> rfl

theorem getAll_keptFields (name : String) :
    getAll (keptFields kind source statuses) name =
      if name ∈ fields kind then keptValues source statuses name else [] := by
  rw [keptFields_eq, getAll_flatMap (fields_nodup kind)]

theorem keptFields_names : ∀ p ∈ keptFields kind source statuses, p.1 ∈ fields kind := by
  intro p hp
  rw [keptFields_eq] at hp
  obtain ⟨field, hfield, hp⟩ := List.mem_flatMap.mp hp
  obtain ⟨value, -, rfl⟩ := List.mem_map.mp hp
  exact hfield

/-- Apart from the statuses, a field of the list is kept with its value. -/
theorem valueOrEmpty_keptFields {field : String} (hfield : field ∈ fields kind)
    (hstatus : field ≠ "status") :
    valueOrEmpty (keptFields kind source statuses) field = valueOrEmpty source field := by
  rw [valueOrEmpty, getFirst, getAll_keptFields, if_pos hfield, keptValues, if_neg hstatus,
    truthy_getFirst]
  by_cases hempty : valueOrEmpty source field = ""
  · rw [if_pos hempty, hempty]
    rfl
  · rw [if_neg hempty]
    rfl

end Kept

/-! ## The checks -/

/-- The statuses of a query, each once and sorted. -/
def statusesOf (query : List (String × String)) : List String :=
  sortedKeys (getAll query "status").eraseDups

/-- What an accepted query has passed; `versioned` is the query with the
    version rewritten. -/
structure Checked (kind : FilterKind) (source versioned : List (String × String)) : Prop where
  names : ∀ p ∈ source, p.1 ∈ fields kind
  single : ∀ p ∈ source, p.1 ≠ "status" → (getAll source p.1).length ≤ 1
  times : timeRangeError (valueOrEmpty source "from") (valueOrEmpty source "to") = none
  version : normalizeVersion source = .ok versioned
  step : hasName versioned "currentStepId" = true →
    valueOrEmpty versioned "currentStepId" ≠ "" ∧ valueOrEmpty versioned "definitionId" ≠ ""
  cutoff : hasName versioned "stepStartedBefore" = true →
    valueOrEmpty versioned "currentStepId" ≠ "" ∧ valueOrEmpty versioned "stepStartedBefore" ≠ "" ∧
      timeRangeError (valueOrEmpty versioned "stepStartedBefore") "" = none
  known : ∀ status ∈ statusesOf versioned, status ∈ knownStatuses

section Checks

variable {kind : FilterKind} {source versioned result : List (String × String)}

theorem refusesNames_iff : (source.any fun p => !(fields kind).contains p.1 ||
    (!(p.1 == "status") && decide (1 < (getAll source p.1).length))) = true ↔
    ¬ ∀ p ∈ source, p.1 ∈ fields kind ∧ (p.1 ≠ "status" → (getAll source p.1).length ≤ 1) := by
  rw [List.any_eq_true]
  push Not
  refine exists_congr fun p => and_congr_right fun _ => ?_
  simp only [Bool.or_eq_true, Bool.and_eq_true, Bool.not_eq_true', decide_eq_true_eq,
    List.contains_eq_mem, decide_eq_false_iff_not, beq_eq_false_iff_ne, ne_eq]
  by_cases hname : p.1 ∈ fields kind <;> simp [hname]

theorem refusesStatuses_iff {statuses : List String} :
    (statuses.any fun status => !knownStatuses.contains status) = true ↔
      ¬ ∀ status ∈ statuses, status ∈ knownStatuses := by
  simp

/-- A query that is accepted has passed all the checks. -/
theorem checked_of_normalizeQuery (h : normalizeQuery kind source = .ok result) :
    ∃ versioned, Checked kind source versioned ∧
      result = keptFields kind versioned (statusesOf versioned) := by
  unfold normalizeQuery at h
  split at h
  · cases h
  rename_i hnames
  rw [refusesNames_iff, not_not] at hnames
  split at h
  · cases h
  rename_i htimes
  obtain ⟨versioned, hversion, h⟩ := bind_eq_ok h
  split at h
  · cases h
  rename_i hstep
  split at h
  · cases h
  rename_i hcutoff
  dsimp only at h
  split at h
  · cases h
  rename_i hknown
  rw [refusesStatuses_iff, not_not] at hknown
  cases h
  refine ⟨versioned, ⟨fun p hp => (hnames p hp).1, fun p hp => (hnames p hp).2, htimes, hversion,
    fun hhas => ?_, fun hhas => ?_, hknown⟩, rfl⟩
  · exact not_or.mp fun hempty => hstep ⟨hhas, hempty⟩
  · obtain ⟨hcurrent, hrest⟩ := not_or.mp fun hempty => hcutoff ⟨hhas, hempty⟩
    obtain ⟨hempty, htime⟩ := not_or.mp hrest
    exact ⟨hcurrent, hempty, by simpa using htime⟩

/-- A query that passes the checks is accepted. -/
theorem Checked.normalizeQuery (h : Checked kind source versioned) :
    normalizeQuery kind source = .ok (keptFields kind versioned (statusesOf versioned)) := by
  have hnames := fun p hp => And.intro (h.names p hp) (h.single p hp)
  rw [Monitor.normalizeQuery, if_neg (refusesNames_iff.not.mpr (not_not.mpr hnames)), h.times]
  dsimp only
  rw [h.version]
  show (if _ then _ else if _ then _ else _) = _
  rw [if_neg, if_neg]
  · exact if_neg (refusesStatuses_iff.not.mpr (not_not.mpr h.known))
  · rintro ⟨hhas, hempty⟩
    obtain ⟨hcurrent, hcutoff, htime⟩ := h.cutoff hhas
    rw [htime] at hempty
    simp [hcurrent, hcutoff] at hempty
  · rintro ⟨hhas, hempty⟩
    obtain ⟨hcurrent, hdefinition⟩ := h.step hhas
    simp [hcurrent, hdefinition] at hempty

/-- The version is rewritten as the number it reads as; nothing else changes. -/
theorem normalizeVersion_eq_ok (h : normalizeVersion source = .ok versioned) :
    (getAll source "definitionVersion" = [] ∧ versioned = source) ∨
    ∃ version, getAll source "definitionVersion" ≠ [] ∧
      digits (valueOrEmpty source "definitionVersion") = some version ∧
      1 ≤ version ∧ version ≤ 2147483647 ∧ valueOrEmpty source "definitionId" ≠ "" ∧
      versioned = setValue "definitionVersion" version.repr source := by
  unfold normalizeVersion at h
  split at h
  · rename_i hhas
    dsimp only at h
    split at h
    · cases h
    · rename_i version hdigits
      split at h
      · cases h
      · rename_i hrange
        cases h
        simp only [not_or, not_lt] at hrange
        exact .inr ⟨version, hasName_iff.mp hhas, hdigits, hrange.1, hrange.2.1, hrange.2.2, rfl⟩
  · rename_i hhas
    cases h
    rw [hasName_iff, not_not] at hhas
    exact .inl ⟨hhas, rfl⟩

theorem getAll_versioned (h : normalizeVersion source = .ok versioned) {name : String}
    (hname : name ≠ "definitionVersion") : getAll versioned name = getAll source name := by
  rcases normalizeVersion_eq_ok h with ⟨-, rfl⟩ | ⟨version, -, -, -, -, -, rfl⟩
  · rfl
  · rw [getAll_setValue, if_neg (Ne.symm hname)]

theorem valueOrEmpty_versioned (h : normalizeVersion source = .ok versioned) {name : String}
    (hname : name ≠ "definitionVersion") : valueOrEmpty versioned name = valueOrEmpty source name := by
  rw [valueOrEmpty, getFirst, getAll_versioned h hname]
  rfl

/-! ## The kept query once more -/

theorem sortedKeys_of_pairwise {keys : List String}
    (h : keys.Pairwise unitsLe) : sortedKeys keys = keys :=
  h.insertionSort_eq

theorem eraseDups_of_nodup : ∀ {keys : List String}, keys.Nodup → keys.eraseDups = keys
  | [], _ => rfl
  | key :: rest, h => by
    obtain ⟨hnot, hrest⟩ := List.nodup_cons.mp h
    have hfilter : rest.filter (fun other => !other == key) = rest := by
      refine List.filter_eq_self.mpr fun other hother => ?_
      have hne : other ≠ key := fun heq => hnot (heq ▸ hother)
      simpa using hne
    rw [List.eraseDups_cons, hfilter, eraseDups_of_nodup hrest]

/-- The statuses are kept as they are. -/
theorem statusesOf_kept (h : Checked kind source versioned) :
    statusesOf (keptFields kind versioned (statusesOf versioned)) = statusesOf versioned := by
  have hnodup : (statusesOf versioned).Nodup :=
    (sortedKeys_perm _).nodup_iff.mpr (nodup_eraseDups _)
  have hkept : (statusesOf versioned).eraseDups = statusesOf versioned := eraseDups_of_nodup hnodup
  by_cases hstatus : "status" ∈ fields kind
  · rw [statusesOf, getAll_keptFields, if_pos hstatus]
    show sortedKeys (statusesOf versioned).eraseDups = statusesOf versioned
    rw [hkept]
    exact sortedKeys_of_pairwise (sortedKeys_pairwise _)
  · -- the list has no statuses, and none is accepted
    have hnone : getAll versioned "status" = [] := by
      rw [getAll_versioned h.version (by decide), getAll_eq_nil]
      exact fun p hp heq => hstatus (heq ▸ h.names p hp)
    rw [statusesOf, getAll_keptFields, if_neg hstatus, statusesOf, hnone]

/-- A field that is kept was there, and has kept its value. -/
theorem hasName_kept {name : String} (hstatus : name ≠ "status")
    (h : hasName (keptFields kind versioned (statusesOf versioned)) name = true) :
    name ∈ fields kind ∧ hasName versioned name = true := by
  rw [hasName_iff, getAll_keptFields] at h
  by_cases hname : name ∈ fields kind
  · rw [if_pos hname, keptValues, if_neg hstatus] at h
    refine ⟨hname, hasName_iff.mpr fun hnone => h ?_⟩
    rw [getFirst, hnone]
    rfl
  · rw [if_neg hname] at h
    exact absurd rfl h

/-- The version that is kept reads as itself. -/
theorem normalizeVersion_kept (h : Checked kind source versioned) :
    normalizeVersion (keptFields kind versioned (statusesOf versioned)) =
      .ok (keptFields kind versioned (statusesOf versioned)) := by
  have hdefinition : "definitionId" ∈ fields kind := by cases kind <;> decide
  rcases normalizeVersion_eq_ok h.version with
    ⟨hnone, rfl⟩ | ⟨version, hsome, -, hpos, hmax, hid, hversioned⟩
  · rw [normalizeVersion, if_neg]
    intro hhas
    exact hasName_iff.mp (hasName_kept (by decide) hhas).2 hnone
  · have hfield : "definitionVersion" ∈ fields kind := by
      obtain ⟨value, hvalue⟩ := List.exists_mem_of_ne_nil _ hsome
      exact h.names _ (mem_getAll.mp hvalue)
    have hrepr : version.repr.isEmpty = false := by simp
    have hget : getAll versioned "definitionVersion" = [version.repr] := by
      rw [hversioned, getAll_setValue, if_pos rfl]
    have hkept : getAll (keptFields kind versioned (statusesOf versioned)) "definitionVersion" =
        [version.repr] := by
      rw [getAll_keptFields, if_pos hfield, keptValues, if_neg (by decide), getFirst, hget]
      simp [truthy, hrepr]
    have hvalue : valueOrEmpty (keptFields kind versioned (statusesOf versioned))
        "definitionVersion" = version.repr := by
      rw [valueOrEmpty, getFirst, hkept]
      rfl
    have hidKept : valueOrEmpty (keptFields kind versioned (statusesOf versioned))
        "definitionId" ≠ "" := by
      rw [valueOrEmpty_keptFields hdefinition (by decide),
        valueOrEmpty_versioned h.version (by decide)]
      exact hid
    rw [normalizeVersion, if_pos (hasName_iff.mpr (by rw [hkept]; simp)), hvalue, digits_repr]
    dsimp only
    rw [if_neg (by simp only [not_or, not_lt]; exact ⟨hpos, hmax, hidKept⟩), setValue_self hkept]

/-- What is kept passes the checks again. -/
theorem Checked.kept (h : Checked kind source versioned) :
    Checked kind (keptFields kind versioned (statusesOf versioned))
      (keptFields kind versioned (statusesOf versioned)) where
  names := keptFields_names
  single p hp hstatus := by
    rw [getAll_keptFields, if_pos (keptFields_names p hp), keptValues, if_neg hstatus]
    cases truthy (getFirst versioned p.1) <;> simp
  times := by
    have hfrom : "from" ∈ fields kind := by cases kind <;> decide
    have hto : "to" ∈ fields kind := by cases kind <;> decide
    rw [valueOrEmpty_keptFields hfrom (by decide), valueOrEmpty_keptFields hto (by decide),
      valueOrEmpty_versioned h.version (by decide), valueOrEmpty_versioned h.version (by decide)]
    exact h.times
  version := normalizeVersion_kept h
  step hhas := by
    obtain ⟨hfield, hhas⟩ := hasName_kept (by decide) hhas
    have hdefinition : "definitionId" ∈ fields kind := by cases kind <;> decide
    rw [valueOrEmpty_keptFields hfield (by decide), valueOrEmpty_keptFields hdefinition (by decide)]
    exact h.step hhas
  cutoff hhas := by
    obtain ⟨hfield, hhas⟩ := hasName_kept (by decide) hhas
    have hcurrent : "currentStepId" ∈ fields kind := by
      revert hfield
      cases kind <;> decide
    rw [valueOrEmpty_keptFields hfield (by decide), valueOrEmpty_keptFields hcurrent (by decide)]
    exact h.cutoff hhas
  known := by
    rw [statusesOf_kept h]
    exact h.known

/-- Normalizing a query twice is normalizing it once. -/
theorem normalizeQuery_idem (h : normalizeQuery kind source = .ok result) :
    normalizeQuery kind result = .ok result := by
  obtain ⟨versioned, hchecked, rfl⟩ := checked_of_normalizeQuery h
  rw [hchecked.kept.normalizeQuery, statusesOf_kept hchecked]
  have hvalues : ∀ field ∈ fields kind,
      keptValues (keptFields kind versioned (statusesOf versioned)) (statusesOf versioned) field =
        keptValues versioned (statusesOf versioned) field := by
    intro field hfield
    unfold keptValues
    by_cases hstatus : field = "status"
    · rw [if_pos hstatus, if_pos hstatus]
    · rw [if_neg hstatus, if_neg hstatus, truthy_getFirst, truthy_getFirst,
        valueOrEmpty_keptFields hfield hstatus]
  refine congrArg Except.ok (keptFields_eq.trans (Eq.trans ?_ keptFields_eq.symm))
  exact List.flatMap_congr fun field hfield => by rw [hvalues field hfield]

end Checks

/-! ## What a search selects -/

/-- The filters of a list: the value of each field that has one, the version as
    a number and the statuses. -/
structure Filters where
  value : String → Option String
  version : Option Nat
  statuses : List String

/-- The filters a search selects.  Paging is none of them. -/
def filtersOf (kind : FilterKind) (search : String) : Filters where
  value field :=
    if field ∈ fields kind ∧ field ≠ "status" ∧ field ≠ "definitionVersion" then
      truthy (getFirst (searchParams search) field)
    else none
  version := (getFirst (searchParams search) "definitionVersion").bind digits
  statuses :=
    knownStatuses.filter fun status => (getAll (searchParams search) "status").contains status

/-- The texts of one field. -/
def Filters.texts (filters : Filters) (field : String) : List String :=
  if field = "status" then filters.statuses
  else if field = "definitionVersion" then (filters.version.map Nat.repr).toList
  else (filters.value field).toList

/-- How long the filters are as a form-encoded text. -/
def Filters.textLength (kind : FilterKind) (filters : Filters) : Nat :=
  UrlEncoded.listCost
    ((fields kind).flatMap fun field => (filters.texts field).map fun text => (field, text))

section Selected

variable {kind : FilterKind} {search result : String}

/-- The query of a search without its paging. -/
def sourceOf (search : String) : List (String × String) :=
  deleteName (deleteName (searchParams search) "cursor") "pageSize"

theorem getAll_sourceOf {name : String} (hcursor : name ≠ "cursor") (hsize : name ≠ "pageSize") :
    getAll (sourceOf search) name = getAll (searchParams search) name := by
  rw [sourceOf, getAll_delete, if_neg (Ne.symm hsize), getAll_delete, if_neg (Ne.symm hcursor)]

theorem fields_noPaging {name : String} (h : name ∈ fields kind) :
    name ≠ "cursor" ∧ name ≠ "pageSize" := by
  constructor <;> (rintro rfl; revert h; cases kind <;> decide)

/-- A search that is accepted, with the query that is kept for it. -/
structure Normalized (kind : FilterKind) (search result : String) : Prop where
  short : Modeller.utf16Length search ≤ maxSearch
  kept : ∃ query, normalizeQuery kind (sourceOf search) = .ok query ∧
    result = UrlEncoded.serialize query

theorem normalizeFilterSearch_eq_ok :
    normalizeFilterSearch kind search = .ok result ↔ Normalized kind search result := by
  unfold normalizeFilterSearch
  constructor
  · intro h
    split at h
    · cases h
    · rename_i hshort
      obtain ⟨query, hquery, h⟩ := bind_eq_ok h
      cases h
      exact ⟨Nat.le_of_not_lt hshort, query, hquery, rfl⟩
  · rintro ⟨hshort, query, hquery, rfl⟩
    rw [if_neg (Nat.not_lt.mpr hshort)]
    show (normalizeQuery kind (sourceOf search) >>= fun result =>
      Except.ok (UrlEncoded.serialize result)) = _
    rw [hquery]
    rfl

/-- A serialized query is read as it was. -/
theorem searchParams_serialize (query : List (String × String)) :
    searchParams (UrlEncoded.serialize query) = query := by
  unfold searchParams
  split
  · rename_i rest hlist
    have hmark := (UrlEncoded.serialize_toNat query '?' (by rw [hlist]; exact List.mem_cons_self ..)).2
    exact absurd rfl hmark
  · exact UrlEncoded.parse_serialize query

theorem sourceOf_kept {query : List (String × String)} (h : ∀ p ∈ query, p.1 ∈ fields kind) :
    sourceOf (UrlEncoded.serialize query) = query := by
  rw [sourceOf, searchParams_serialize]
  unfold deleteName
  rw [List.filter_filter]
  refine List.filter_eq_self.mpr fun p hp => ?_
  obtain ⟨hcursor, hsize⟩ := fields_noPaging (h p hp)
  simp [hcursor, hsize]

/-- The order of the pairs has no influence on the length. -/
theorem listCost_perm {pairs pairs' : List (String × String)} (h : pairs.Perm pairs') :
    UrlEncoded.listCost pairs = UrlEncoded.listCost pairs' := by
  unfold UrlEncoded.listCost
  rw [(h.map _).sum_eq, h.length_eq]

section Kept

variable {query versioned : List (String × String)}

/-- The statuses that are kept are those of the search. -/
theorem statuses_perm (h : Checked kind (sourceOf search) versioned) :
    (statusesOf versioned).Perm (filtersOf kind search).statuses := by
  have hall : getAll versioned "status" = getAll (searchParams search) "status" :=
    (getAll_versioned h.version (by decide)).trans (getAll_sourceOf (by decide) (by decide))
  have hmem : ∀ status, status ∈ statusesOf versioned ↔ status ∈ getAll versioned "status" :=
    fun status => (sortedKeys_perm _).mem_iff.trans List.mem_eraseDups
  refine (List.perm_ext_iff_of_nodup ((sortedKeys_perm _).nodup_iff.mpr (nodup_eraseDups _))
    (List.Nodup.filter _ (by decide))).mpr fun status => ?_
  show status ∈ statusesOf versioned ↔ status ∈ knownStatuses.filter fun status =>
    (getAll (searchParams search) "status").contains status
  rw [List.mem_filter, List.contains_eq_mem, decide_eq_true_eq, ← hall, ← hmem]
  exact ⟨fun hstatus => ⟨h.known status hstatus, hstatus⟩, And.right⟩

/-- The version that is kept is the one that is selected. -/
theorem version_kept (h : Checked kind (sourceOf search) versioned) :
    getAll versioned "definitionVersion" = ((filtersOf kind search).version.map Nat.repr).toList := by
  have hall : getAll (sourceOf search) "definitionVersion" =
      getAll (searchParams search) "definitionVersion" := getAll_sourceOf (by decide) (by decide)
  show _ = (((getFirst (searchParams search) "definitionVersion").bind digits).map Nat.repr).toList
  rw [getFirst, ← hall]
  rcases normalizeVersion_eq_ok h.version with
    ⟨hnone, rfl⟩ | ⟨version, hsome, hdigits, -, -, -, hversioned⟩
  · rw [hnone]
    rfl
  · rw [hversioned, getAll_setValue, if_pos rfl]
    unfold valueOrEmpty getFirst at hdigits
    cases hvalues : getAll (sourceOf search) "definitionVersion" with
    | nil => exact absurd hvalues hsome
    | cons value rest =>
      rw [hvalues] at hdigits
      have hvalue : digits value = some version := hdigits
      rw [List.head?_cons, Option.bind_some, hvalue]
      rfl

/-- A field is kept with the texts of the filters. -/
theorem keptValues_perm (h : Checked kind (sourceOf search) versioned) {field : String}
    (hfield : field ∈ fields kind) :
    (keptValues versioned (statusesOf versioned) field).Perm
      ((filtersOf kind search).texts field) := by
  unfold keptValues Filters.texts
  by_cases hstatus : field = "status"
  · rw [if_pos hstatus, if_pos hstatus]
    exact statuses_perm h
  · rw [if_neg hstatus, if_neg hstatus]
    by_cases hversion : field = "definitionVersion"
    · rw [if_pos hversion, hversion, getFirst, version_kept h]
      cases (filtersOf kind search).version with
      | none => rfl
      | some version =>
        have hrepr : version.repr.isEmpty = false := by simp
        rw [Option.map_some, Option.toList_some, List.head?_cons, truthy, hrepr]
        rfl
    · obtain ⟨hcursor, hsize⟩ := fields_noPaging hfield
      have hvalue : (filtersOf kind search).value field =
          truthy (getFirst (searchParams search) field) := if_pos ⟨hfield, hstatus, hversion⟩
      rw [if_neg hversion, hvalue, getFirst, getAll_versioned h.version hversion,
        getAll_sourceOf hcursor hsize]
      rfl

/-- The text of what is kept is as long as the filters are. -/
theorem listCost_kept (h : Checked kind (sourceOf search) versioned) :
    UrlEncoded.listCost (keptFields kind versioned (statusesOf versioned)) =
      (filtersOf kind search).textLength kind := by
  rw [keptFields_eq]
  exact listCost_perm (List.Perm.flatMap_left _ fun field hfield => (keptValues_perm h hfield).map _)

/-- A field that is not of the list is not in an accepted search. -/
theorem getAll_of_not_field (h : Checked kind (sourceOf search) versioned) {name : String}
    (hname : name ∉ fields kind) (hcursor : name ≠ "cursor") (hsize : name ≠ "pageSize") :
    getAll (searchParams search) name = [] := by
  rw [← getAll_sourceOf hcursor hsize, getAll_eq_nil]
  exact fun p hp heq => hname (heq ▸ h.names p hp)

/-- What is kept selects the same filters. -/
theorem filtersOf_kept (h : Checked kind (sourceOf search) versioned) :
    filtersOf kind (UrlEncoded.serialize (keptFields kind versioned (statusesOf versioned))) =
      filtersOf kind search := by
  have hvalue : ∀ field, field ∈ fields kind ∧ field ≠ "status" ∧ field ≠ "definitionVersion" →
      truthy (getFirst (keptFields kind versioned (statusesOf versioned)) field) =
        truthy (getFirst (searchParams search) field) := by
    rintro field ⟨hfield, hstatus, hversion⟩
    obtain ⟨hcursor, hsize⟩ := fields_noPaging hfield
    rw [truthy_getFirst, valueOrEmpty_keptFields hfield hstatus,
      valueOrEmpty_versioned h.version hversion, ← truthy_getFirst, getFirst,
      getAll_sourceOf hcursor hsize]
    rfl
  have hversion :
      (getFirst (keptFields kind versioned (statusesOf versioned)) "definitionVersion").bind digits =
        (filtersOf kind search).version := by
    rw [getFirst, getAll_keptFields]
    by_cases hfield : "definitionVersion" ∈ fields kind
    · rw [if_pos hfield, keptValues, if_neg (by decide), getFirst, version_kept h]
      cases (filtersOf kind search).version with
      | none => rfl
      | some version =>
        have hrepr : version.repr.isEmpty = false := by simp
        rw [Option.map_some, Option.toList_some, List.head?_cons, truthy, hrepr]
        exact digits_repr version
    · rw [if_neg hfield]
      show none = (getFirst (searchParams search) "definitionVersion").bind digits
      rw [getFirst, getAll_of_not_field h hfield (by decide) (by decide)]
      rfl
  have hstatus : ∀ status,
      status ∈ getAll (keptFields kind versioned (statusesOf versioned)) "status" ↔
        status ∈ getAll (searchParams search) "status" := by
    intro status
    rw [getAll_keptFields]
    by_cases hfield : "status" ∈ fields kind
    · rw [if_pos hfield, keptValues, if_pos rfl, ← getAll_sourceOf (by decide) (by decide),
        ← getAll_versioned h.version (by decide)]
      exact (sortedKeys_perm _).mem_iff.trans List.mem_eraseDups
    · rw [if_neg hfield, getAll_of_not_field h hfield (by decide) (by decide)]
  unfold filtersOf
  rw [searchParams_serialize, hversion]
  congr 1
  · funext field
    by_cases hfield : field ∈ fields kind ∧ field ≠ "status" ∧ field ≠ "definitionVersion"
    · rw [if_pos hfield, if_pos hfield, hvalue field hfield]
    · rw [if_neg hfield, if_neg hfield]
  · refine List.filter_congr fun status _ => ?_
    rw [List.contains_eq_mem, List.contains_eq_mem]
    exact decide_eq_decide.mpr (hstatus status)

end Kept

/-- Normalizing a normalized search changes nothing, unless it has become too
    long.  It selects what the search selects. -/
theorem normalizeFilterSearch_twice (h : normalizeFilterSearch kind search = .ok result) :
    (normalizeFilterSearch kind result = .ok result ↔
      (filtersOf kind search).textLength kind ≤ 4096) ∧
    filtersOf kind result = filtersOf kind search ∧
    ∀ again, normalizeFilterSearch kind result = .ok again → again = result := by
  obtain ⟨-, query, hquery, rfl⟩ := normalizeFilterSearch_eq_ok.mp h
  have hidem := normalizeQuery_idem hquery
  obtain ⟨versioned, hchecked, rfl⟩ := checked_of_normalizeQuery hquery
  have hsource : sourceOf (UrlEncoded.serialize
      (keptFields kind versioned (statusesOf versioned))) =
      keptFields kind versioned (statusesOf versioned) := sourceOf_kept keptFields_names
  have hlength : Modeller.utf16Length
      (UrlEncoded.serialize (keptFields kind versioned (statusesOf versioned))) =
      (filtersOf kind search).textLength kind := by
    rw [Modeller.utf16Length_ascii fun c hc => (UrlEncoded.serialize_toNat _ c hc).1,
      UrlEncoded.length_serialize, listCost_kept hchecked]
  refine ⟨?_, filtersOf_kept hchecked, fun again hagain => ?_⟩
  · rw [normalizeFilterSearch_eq_ok]
    constructor
    · rintro ⟨hshort, -⟩
      exact hlength ▸ hshort
    · intro hshort
      exact ⟨hlength.le.trans hshort, _, hsource.symm ▸ hidem, rfl⟩
  · obtain ⟨-, query', hquery', rfl⟩ := normalizeFilterSearch_eq_ok.mp hagain
    rw [hsource, hidem] at hquery'
    cases hquery'
    rfl

end Selected

/-! ## Views -/

section Views

variable {toLowerCase : String → String} {kind : FilterKind}

theorem stringMember_json (view : SavedFilter) :
    stringMember view.json "id" = some view.id ∧ stringMember view.json "name" = some view.name ∧
      stringMember view.json "search" = some view.search := by
  simp [stringMember, SavedFilter.json, Modeller.prop, GoMap.last, GoMap.get]

/-- The checks on a view apart from its search. -/
def Accepted (toLowerCase : String → String) (ids names : List String) (view : SavedFilter) : Prop :=
  ¬ (view.id = "" ∨ 100 < Modeller.utf16Length view.id ∨ Modeller.blank view.name ∨
    80 < Modeller.utf16Length view.name ∨ view.id ∈ ids ∨
    toLowerCase (Modeller.trim view.name) ∈ names)

theorem validateItems_cons {ids names : List String} {view : SavedFilter} {items : List Json}
    {result : List SavedFilter} :
    validateItems toLowerCase kind ids names (view.json :: items) = .ok result ↔
      Accepted toLowerCase ids names view ∧ ∃ search rest,
        normalizeFilterSearch kind view.search = .ok search ∧
        validateItems toLowerCase kind (view.id :: ids)
          (toLowerCase (Modeller.trim view.name) :: names) items = .ok rest ∧
        result = { id := view.id, name := Modeller.trim view.name, search := search } :: rest := by
  obtain ⟨hid, hname, hsearch⟩ := stringMember_json view
  rw [validateItems, hid, hname, hsearch]
  dsimp only
  unfold Accepted
  constructor
  · intro h
    split at h
    · cases h
    · rename_i haccepted
      obtain ⟨search, hnormal, h⟩ := bind_eq_ok h
      obtain ⟨rest, hrest, h⟩ := bind_eq_ok h
      cases h
      exact ⟨haccepted, search, rest, hnormal, hrest, rfl⟩
  · rintro ⟨haccepted, search, rest, hnormal, hrest, rfl⟩
    rw [if_neg haccepted, hnormal]
    show (validateItems toLowerCase kind _ _ items >>= _) = _
    rw [hrest]
    rfl

/-- A view that was accepted is so again with its name trimmed. -/
theorem Accepted.trimmed {ids names : List String} {view : SavedFilter}
    (h : Accepted toLowerCase ids names view) (search : String) :
    Accepted toLowerCase ids names
      { id := view.id, name := Modeller.trim view.name, search := search } := by
  unfold Accepted Modeller.blank at h ⊢
  dsimp only
  rw [Modeller.trim_trim]
  have hshort := Modeller.utf16Length_trim_le view.name
  simp only [not_or, not_lt] at h ⊢
  obtain ⟨hid, hidLength, hblank, hlength, hids, hnames⟩ := h
  exact ⟨hid, hidLength, hblank, hshort.trans hlength, hids, hnames⟩

/-- The views that were accepted are accepted as they are, if their searches
    are still short enough. -/
theorem validateItems_reload {ids names : List String} {views result : List SavedFilter}
    (h : validateItems toLowerCase kind ids names (views.map SavedFilter.json) = .ok result) :
    validateItems toLowerCase kind ids names (result.map SavedFilter.json) = .ok result ↔
      ∀ view ∈ views, (filtersOf kind view.search).textLength kind ≤ 4096 := by
  induction views generalizing ids names result with
  | nil =>
    cases h
    exact iff_of_true rfl (by simp)
  | cons view views ih =>
    rw [List.map_cons, validateItems_cons] at h
    obtain ⟨haccepted, search, rest, hnormal, hrest, rfl⟩ := h
    obtain ⟨hagain, -, honly⟩ := normalizeFilterSearch_twice hnormal
    rw [List.map_cons, validateItems_cons, List.forall_mem_cons, ← hagain]
    dsimp only
    rw [Modeller.trim_trim, ← ih hrest]
    constructor
    · rintro ⟨-, search', rest', hnormal', hrest', heq⟩
      obtain ⟨hview, rfl⟩ := List.cons.inj heq
      obtain rfl := honly search' hnormal'
      exact ⟨hnormal', hrest'⟩
    · rintro ⟨hnormal', hrest'⟩
      exact ⟨haccepted.trimmed search, search, rest, hnormal', hrest', rfl⟩

/-- What is stored is found again, and is as many views. -/
theorem storeSavedFilters_eq_ok {views stored : List SavedFilter}
    {localStorage localStorage' : GoMap StoredText}
    (h : storeSavedFilters toLowerCase kind views localStorage = .ok (stored, localStorage')) :
    views.length ≤ maxFilters ∧
      validateItems toLowerCase kind [] [] (views.map SavedFilter.json) = .ok stored ∧
      byteLength (stringify stored) ≤ maxStorageBytes ∧
      GoMap.get localStorage' (savedFilterKey kind) = some (stringify stored) := by
  unfold storeSavedFilters at h
  obtain ⟨valid, hvalid, h⟩ := bind_eq_ok h
  dsimp only at h
  split at h
  · cases h
  · rename_i hbytes
    cases h
    rw [validateViews] at hvalid
    split at hvalid
    · cases hvalid
    · rename_i hmany
      refine ⟨by simpa using hmany, hvalid, Nat.le_of_not_lt hbytes, ?_⟩
      rw [GoMap.get_set, if_pos rfl]

theorem storeSavedFilters_of_valid {views valid : List SavedFilter} {localStorage : GoMap StoredText}
    (hvalid : validateViews toLowerCase kind (some (.arr (views.map SavedFilter.json))) = .ok valid)
    (hbytes : byteLength (stringify valid) ≤ maxStorageBytes) :
    storeSavedFilters toLowerCase kind views localStorage =
      .ok (valid, GoMap.set localStorage (savedFilterKey kind) (stringify valid)) := by
  rw [storeSavedFilters, hvalid]
  show (if _ then _ else _) = _
  rw [if_neg (Nat.not_lt.mpr hbytes)]

theorem length_of_validateItems {ids names : List String} {views result : List SavedFilter}
    (h : validateItems toLowerCase kind ids names (views.map SavedFilter.json) = .ok result) :
    result.length = views.length := by
  induction views generalizing ids names result with
  | nil =>
    cases h
    rfl
  | cons view views ih =>
    rw [List.map_cons, validateItems_cons] at h
    obtain ⟨-, search, rest, -, hrest, rfl⟩ := h
    rw [List.length_cons, List.length_cons, ih hrest]

/-- Loading what was stored validates the stored views. -/
theorem loadSavedFilters_stored {stored : List SavedFilter} {localStorage : GoMap StoredText}
    (hget : GoMap.get localStorage (savedFilterKey kind) = some (stringify stored))
    (hbytes : byteLength (stringify stored) ≤ maxStorageBytes)
    (hmany : stored.length ≤ maxFilters) :
    loadSavedFilters toLowerCase kind localStorage =
      validateItems toLowerCase kind [] [] (stored.map SavedFilter.json) := by
  unfold loadSavedFilters
  rw [hget]
  dsimp only
  rw [if_neg (Nat.not_lt.mpr hbytes)]
  show (if versionOne _ = true then validateViews toLowerCase kind (viewsOf _) else _) = _
  have hversion : versionOne
      (.obj [("version", .num 1 true), ("views", .arr (stored.map SavedFilter.json))]) = true := by
    simp [versionOne, Modeller.prop, GoMap.last, GoMap.get]
  have hviews : viewsOf
      (.obj [("version", .num 1 true), ("views", .arr (stored.map SavedFilter.json))]) =
      some (.arr (stored.map SavedFilter.json)) := by
    simp [viewsOf, Modeller.prop, GoMap.last, GoMap.get]
  rw [hversion, hviews, if_pos rfl, validateViews]
  exact if_neg (by simpa using hmany)

end Views

/-! ## The reload -/

/-- Views that were stored are loaded again exactly if the filters of each are
    at most 4,096 characters long when they are percent-encoded.  Under the
    same condition, and no other, a normalized search is normalized to itself;
    in any case it selects the same filters. -/
theorem saved_filters_reload (toLowerCase : String → String) (kind : FilterKind) :
    (∀ views stored localStorage localStorage',
      storeSavedFilters toLowerCase kind views localStorage = .ok (stored, localStorage') →
      (loadSavedFilters toLowerCase kind localStorage' = .ok stored ↔
        ∀ view ∈ views, (filtersOf kind view.search).textLength kind ≤ 4096)) ∧
    ∀ search result, normalizeFilterSearch kind search = .ok result →
      (normalizeFilterSearch kind result = .ok result ↔
        (filtersOf kind search).textLength kind ≤ 4096) ∧
      filtersOf kind result = filtersOf kind search := by
  constructor
  · intro views stored localStorage localStorage' h
    obtain ⟨hmany, hvalid, hbytes, hget⟩ := storeSavedFilters_eq_ok h
    have hlength : stored.length ≤ maxFilters := (length_of_validateItems hvalid).trans_le hmany
    rw [loadSavedFilters_stored hget hbytes hlength]
    exact validateItems_reload hvalid
  · intro search result h
    obtain ⟨hagain, hsame, -⟩ := normalizeFilterSearch_twice h
    exact ⟨hagain, hsame⟩

/-- The review of a flow, with a version that is rewritten. -/
def reviewView : SavedFilter :=
  { id := "1", name := " Review ",
    search := "?definitionId=flow&definitionVersion=02&status=WAITING&status=ACTIVE&cursor=x" }

/-- The view of the review is loaded as it was stored. -/
theorem saved_filters_reload_review :
    ∃ stored localStorage',
      storeSavedFilters String.toLower .instances [reviewView] [] = .ok (stored, localStorage') ∧
      loadSavedFilters String.toLower .instances localStorage' = .ok stored := by
  have hstored : (storeSavedFilters String.toLower .instances [reviewView] []).toOption.isSome =
      true := by decide +kernel
  cases h : storeSavedFilters String.toLower .instances [reviewView] [] with
  | error e =>
    rw [h] at hstored
    cases hstored
  | ok answer =>
    refine ⟨answer.1, answer.2, rfl, ?_⟩
    exact ((saved_filters_reload String.toLower .instances).1 _ _ _ _ h).mpr (by decide +kernel)

/-! ### A search that becomes too long -/

/-- A JSON string takes at most twelve bytes for a character. -/
theorem jsonString_bytes_le (s : String) :
    (UrlEncoded.utf8 (jsonString s).toList).length ≤ 12 * s.toList.length + 2 := by
  have hchar : ∀ c, (UrlEncoded.utf8 (jsonChar c)).length ≤ 12 := by
    intro c
    unfold jsonChar
    split_ifs
    all_goals try decide
    · -- an escape: four ASCII characters and two digits
      have hhigh := UrlEncoded.length_encodeChar_le (Nat.digitChar (c.toNat / 16))
      have hlow := UrlEncoded.length_encodeChar_le (Nat.digitChar (c.toNat % 16))
      show ([92, 117, 48, 48] ++ (UrlEncoded.encodeChar (Nat.digitChar (c.toNat / 16)) ++
        (UrlEncoded.encodeChar (Nat.digitChar (c.toNat % 16)) ++ []))).length ≤ 12
      rw [List.length_append, List.length_append, List.length_append]
      simp only [List.length_cons, List.length_nil]
      omega
    · have hself := UrlEncoded.length_encodeChar_le c
      rw [UrlEncoded.utf8, List.flatMap_singleton]
      omega
  have hall : ∀ cs : List Char,
      (UrlEncoded.utf8 (cs.flatMap jsonChar)).length ≤ 12 * cs.length := by
    intro cs
    induction cs with
    | nil => exact Nat.le_refl 0
    | cons c rest ih =>
      have hc := hchar c
      unfold UrlEncoded.utf8 at hc ih ⊢
      rw [List.flatMap_cons, List.flatMap_append, List.length_append, List.length_cons]
      omega
  have h := hall s.toList
  rw [jsonString, String.toList_ofList]
  unfold UrlEncoded.utf8 at h ⊢
  rw [List.cons_append, List.flatMap_cons, List.flatMap_append, List.length_append,
    List.length_append]
  show 1 + (_ + 1) ≤ _
  omega

/-- The size of a single stored view. -/
theorem byteLength_one_le (view : SavedFilter) :
    byteLength (stringify [view]) ≤
      12 * (view.id.toList.length + view.name.toList.length + view.search.toList.length) + 55 := by
  have happend : ∀ s t : String, (UrlEncoded.utf8 (s ++ t).toList).length =
      (UrlEncoded.utf8 s.toList).length + (UrlEncoded.utf8 t.toList).length := by
    intro s t
    unfold UrlEncoded.utf8
    rw [String.toList_append, List.flatMap_append, List.length_append]
  have hid := jsonString_bytes_le view.id
  have hname := jsonString_bytes_le view.name
  have hsearch := jsonString_bytes_le view.search
  have hopen : (UrlEncoded.utf8 "\x7b\"version\":1,\"views\":[".toList).length = 22 := by decide
  have hclose : (UrlEncoded.utf8 "]\x7d".toList).length = 2 := by decide
  have h₁ : (UrlEncoded.utf8 "\x7b\"id\":".toList).length = 6 := by decide
  have h₂ : (UrlEncoded.utf8 ",\"name\":".toList).length = 8 := by decide
  have h₃ : (UrlEncoded.utf8 ",\"search\":".toList).length = 10 := by decide
  have h₄ : (UrlEncoded.utf8 "\x7d".toList).length = 1 := by decide
  unfold byteLength stringify
  rw [List.map_singleton, String.intercalate_singleton, happend, happend, SavedFilter.text, happend,
    happend, happend, happend, happend, happend, hopen, hclose, h₁, h₂, h₃, h₄]
  omega

def euros (n : Nat) : List Char := List.replicate n '€'

/-- A view of the definition whose name is `n` euro signs. -/
def euroView (n : Nat) : SavedFilter :=
  { id := "1", name := "Euro", search := String.ofList ("definitionId".toList ++ '=' :: euros n) }

/-- The view as it is stored. -/
def storedEuro (n : Nat) : SavedFilter :=
  { id := "1", name := Modeller.trim "Euro",
    search := UrlEncoded.serialize [("definitionId", String.ofList (euros n))] }

section Euros

variable (n : Nat)

theorem searchParams_euro :
    searchParams (euroView n).search = [("definitionId", String.ofList (euros n))] := by
  have hvalue : ∀ b ∈ UrlEncoded.utf8 (euros n), b ≠ 37 ∧ b ≠ 43 ∧ b ≠ 38 := by
    intro b hb
    obtain ⟨c, hc, hb⟩ := List.mem_flatMap.mp hb
    obtain rfl := List.eq_of_mem_replicate hc
    have hge := UrlEncoded.encodeChar_ge (by decide) b hb
    omega
  have hname : ∀ b ∈ UrlEncoded.utf8 "definitionId".toList, b ≠ 37 ∧ b ≠ 43 ∧ b ≠ 38 ∧ b ≠ 61 := by
    decide
  have hparse := UrlEncoded.parse_plain hname hvalue
  rw [String.ofList_toList] at hparse
  rw [← hparse]
  unfold searchParams euroView
  dsimp only
  rw [String.toList_ofList]
  rfl

theorem sourceOf_euro :
    sourceOf (euroView n).search = [("definitionId", String.ofList (euros n))] := by
  rw [sourceOf, searchParams_euro]
  simp [deleteName]

/-- A definition alone is accepted and kept. -/
theorem normalizeQuery_definition {value : String} (h : value ≠ "") :
    normalizeQuery .incidents [("definitionId", value)] = .ok [("definitionId", value)] := by
  have hall : ∀ name, getAll [("definitionId", value)] name =
      if "definitionId" = name then [value] else [] := fun name => getAll_cons ..
  have hnone : ∀ name, "definitionId" ≠ name → hasName [("definitionId", value)] name = false := by
    intro name hname
    rw [hasName, hall, if_neg hname]
    rfl
  have hempty : ∀ name, "definitionId" ≠ name → valueOrEmpty [("definitionId", value)] name = "" := by
    intro name hname
    rw [valueOrEmpty, getFirst, hall, if_neg hname]
    rfl
  have hstatuses : statusesOf [("definitionId", value)] = [] := by
    rw [statusesOf, hall, if_neg (by decide)]
    rfl
  have hchecked : Checked .incidents [("definitionId", value)] [("definitionId", value)] := by
    refine ⟨?_, ?_, ?_, ?_, ?_, ?_, ?_⟩
    · rintro p (_ | ⟨_, ⟨⟩⟩)
      exact List.mem_cons_self ..
    · rintro p (_ | ⟨_, ⟨⟩⟩) -
      rw [hall, if_pos rfl]
      exact Nat.le_refl 1
    · rw [hempty "from" (by decide), hempty "to" (by decide)]
      rfl
    · rw [normalizeVersion, hnone "definitionVersion" (by decide)]
      rfl
    · rw [hnone "currentStepId" (by decide)]
      exact fun h => absurd h (by decide)
    · rw [hnone "stepStartedBefore" (by decide)]
      exact fun h => absurd h (by decide)
    · rw [hstatuses]
      exact fun status hstatus => absurd hstatus List.not_mem_nil
  have hget : ∀ name, "definitionId" ≠ name →
      truthy (getFirst [("definitionId", value)] name) = none := by
    intro name hname
    rw [truthy_getFirst, hempty name hname]
    rfl
  have hself : truthy (getFirst [("definitionId", value)] "definitionId") = some value := by
    rw [getFirst, hall, if_pos rfl]
    simp [truthy, h]
  rw [hchecked.normalizeQuery, hstatuses]
  unfold keptFields fields
  simp only [List.flatMap_cons, List.flatMap_nil]
  rw [if_neg (by decide), if_neg (by decide), if_neg (by decide), if_neg (by decide), hself,
    hget "jobType" (by decide), hget "from" (by decide), hget "to" (by decide)]
  rfl

variable {n}

theorem ofList_euros_ne (hn : 0 < n) : String.ofList (euros n) ≠ "" := by
  intro h
  have hlist := congrArg String.toList h
  rw [String.toList_ofList, euros] at hlist
  cases n with
  | zero => omega
  | succ n => cases hlist

/-- A euro sign takes nine characters when it is percent-encoded. -/
theorem listCost_euro (n : Nat) :
    UrlEncoded.listCost [("definitionId", String.ofList (euros n))] = 13 + 9 * n := by
  have hname : UrlEncoded.textCost "definitionId" = 12 := by decide
  have heuros : UrlEncoded.textCost (String.ofList (euros n)) = n * 9 := by
    have heuro : UrlEncoded.charCost '€' = 9 := by decide
    rw [UrlEncoded.textCost, String.toList_ofList, euros, List.map_replicate, heuro,
      List.sum_replicate_nat]
  rw [UrlEncoded.listCost, List.map_singleton, List.sum_singleton, hname, heuros,
    List.length_singleton]
  omega

theorem textLength_euro (hn : 0 < n) :
    (filtersOf .incidents (euroView n).search).textLength .incidents = 13 + 9 * n := by
  have hkept := normalizeQuery_definition (ofList_euros_ne hn)
  rw [← sourceOf_euro] at hkept
  obtain ⟨versioned, hchecked, heq⟩ := checked_of_normalizeQuery hkept
  rw [← listCost_kept hchecked, ← heq, sourceOf_euro, listCost_euro]

theorem normalize_euro (hn : 0 < n) (hmax : n ≤ 456) :
    normalizeFilterSearch .incidents (euroView n).search = .ok (storedEuro n).search := by
  rw [normalizeFilterSearch_eq_ok]
  refine ⟨?_, [("definitionId", String.ofList (euros n))], ?_, rfl⟩
  · show Modeller.utf16Length (String.ofList ("definitionId".toList ++ '=' :: euros n)) ≤ maxSearch
    unfold Modeller.utf16Length
    rw [String.toList_ofList, euros, List.map_append, List.map_cons, List.map_replicate,
      List.sum_append, List.sum_cons, List.sum_replicate_nat]
    have hname : ("definitionId".toList.map fun c => if c.val < 0x10000 then 1 else 2).sum = 12 := by
      decide
    have heuro : (if ('€' : Char).val < 0x10000 then 1 else 2) = 1 := by decide
    have hequals : (if ('=' : Char).val < 0x10000 then 1 else 2) = 1 := by decide
    rw [hname, heuro, hequals, maxSearch]
    omega
  · rw [sourceOf_euro]
    exact normalizeQuery_definition (ofList_euros_ne hn)

theorem validateItems_euro (hn : 0 < n) (hmax : n ≤ 456) :
    validateItems String.toLower .incidents [] [] ([euroView n].map SavedFilter.json) =
      .ok [storedEuro n] := by
  have haccepted : Accepted String.toLower [] [] (euroView n) := by
    show ¬ ("1" = "" ∨ 100 < Modeller.utf16Length "1" ∨ Modeller.blank "Euro" ∨
      80 < Modeller.utf16Length "Euro" ∨ "1" ∈ ([] : List String) ∨
      String.toLower (Modeller.trim "Euro") ∈ ([] : List String))
    decide +kernel
  rw [List.map_singleton, validateItems_cons]
  exact ⟨haccepted, (storedEuro n).search, [], normalize_euro hn hmax, rfl, rfl⟩

theorem byteLength_euro (hmax : n ≤ 456) : byteLength (stringify [storedEuro n]) ≤ maxStorageBytes := by
  have hbytes := byteLength_one_le (storedEuro n)
  have hsearch : (storedEuro n).search.toList.length = 13 + 9 * n :=
    (UrlEncoded.length_serialize _).trans (listCost_euro n)
  have hid : (storedEuro n).id.toList.length = 1 := by
    show "1".toList.length = 1
    decide
  have hname : (storedEuro n).name.toList.length = 4 := by
    show (Modeller.trim "Euro").toList.length = 4
    decide +kernel
  rw [hsearch, hid, hname] at hbytes
  unfold maxStorageBytes
  omega

/-- The view is stored as long as its text is short. -/
theorem stored_euro (hn : 0 < n) (hmax : n ≤ 456) :
    ∃ stored localStorage,
      storeSavedFilters String.toLower .incidents [euroView n] [] = .ok (stored, localStorage) := by
  have hviews : validateViews String.toLower .incidents
      (some (.arr ([euroView n].map SavedFilter.json))) = .ok [storedEuro n] := by
    rw [validateViews, if_neg (by simp [maxFilters])]
    exact validateItems_euro hn hmax
  exact ⟨[storedEuro n], _, storeSavedFilters_of_valid hviews (byteLength_euro hmax)⟩

/-- From 454 euro signs on, what was stored is not loaded. -/
theorem not_loaded_euro (hmin : 454 ≤ n) (hmax : n ≤ 456) :
    ∃ stored localStorage',
      storeSavedFilters String.toLower .incidents [euroView n] [] = .ok (stored, localStorage') ∧
      loadSavedFilters String.toLower .incidents localStorage' ≠ .ok stored := by
  have hn : 0 < n := by omega
  obtain ⟨stored, localStorage', hstore⟩ := stored_euro hn hmax
  refine ⟨stored, localStorage', hstore, fun hload => ?_⟩
  obtain ⟨hmany, hvalid, hbytes, hget⟩ := storeSavedFilters_eq_ok hstore
  rw [loadSavedFilters_stored hget hbytes ((length_of_validateItems hvalid).trans_le hmany),
    validateItems_reload hvalid] at hload
  have hlong := hload (euroView n) (List.mem_cons_self ..)
  rw [textLength_euro hn] at hlong
  omega

end Euros

/-- A view with 456 euro signs is stored, but what was stored is not loaded. -/
theorem euro_view_not_loaded :
    ∃ stored localStorage',
      storeSavedFilters String.toLower .incidents [euroView 456] [] =
        .ok (stored, localStorage') ∧
      loadSavedFilters String.toLower .incidents localStorage' ≠ .ok stored :=
  not_loaded_euro (Nat.le_of_lt_succ (by decide)) (Nat.le_refl 456)

end Rochallor.Monitor
