import Rochallor.Definition.Repository
import Rochallor.Definition.Restored
import Rochallor.Instance.Opening

/-! # Uploading and reading back

    Definitions are uploaded one after another and read back by their newest
    version.  `Upload` looks for the document among all versions of its id, and
    the version of a row is written into the document only when it is read, so
    neither what was uploaded last need be the newest version, nor need a
    document that was read back be one of the rows.
-/

namespace Rochallor

/-! ## Definitions up to their version -/

/-- The branches of the steps, in order. -/
def WorkflowDefinition.branches (d : WorkflowDefinition) : List (Option (List (String × StepId))) :=
  d.steps.map fun s => s.conditionalNextSteps.map (·.pairs)

/-- `x` is `d`, version aside.  The order of a map means nothing; the order of
    the branches does. -/
structure SameDefinition (d x : WorkflowDefinition) : Prop where
  column : { d with version := x.version }.marshal.jsonb = x.marshal.jsonb
  branches : d.branches = x.branches

/-- The branches of every step have distinct expressions in the order of JSONB
    keys. -/
def WorkflowDefinition.InOrder (d : WorkflowDefinition) : Prop :=
  ∀ s ∈ d.steps, ∀ c, s.conditionalNextSteps = some c →
    (c.exprs.Pairwise fun a b => keyLe a b) ∧ c.exprs.Nodup

theorem ConditionalBranches.stored_pairs_eq_iff (c : ConditionalBranches) :
    c.stored.pairs = c.pairs ↔ (c.exprs.Pairwise fun a b => keyLe a b) ∧ c.exprs.Nodup := by
  have hkeys : c.pairs.map (·.1) = c.exprs := by
    rw [pairs, List.map_map]
    exact List.map_id _
  have hsorted : (c.pairs.Pairwise fun a b => keyLe a.1 b.1) ↔
      c.exprs.Pairwise fun a b => keyLe a b := by
    rw [← hkeys, List.pairwise_map]
  rw [c.stored_pairs]
  constructor
  · intro h
    refine ⟨hsorted.mp (h ▸ sortMembers_sorted _), ?_⟩
    rw [← hkeys, ← h]
    exact sortMembers_overlay_nodup _
  · rintro ⟨hle, hnd⟩
    rw [overlay_of_nodup (hkeys ▸ hnd), sortMembers_of_sorted (hsorted.mpr hle)]

theorem WorkflowDefinition.stored_branches_eq_iff (d : WorkflowDefinition) :
    d.branches = d.stored.branches ↔ d.InOrder := by
  have hstored : d.stored.branches =
      d.steps.map fun s => s.conditionalNextSteps.map (·.stored.pairs) := by
    simp only [branches, stored, List.map_map, Function.comp_def, WorkflowStep.stored,
      Option.map_map]
  rw [hstored, branches, List.map_inj_left, InOrder]
  refine forall₂_congr fun s _ => ?_
  cases s.conditionalNextSteps with
  | none => simp
  | some c =>
    rw [Option.map_some, Option.map_some, Option.some.injEq, eq_comm, c.stored_pairs_eq_iff]
    constructor
    · rintro h _ ⟨rfl⟩
      exact h
    · exact fun h => h c rfl

/-- Two definitions of one column form come back as one. -/
theorem stored_eq_of_column {d e : WorkflowDefinition} (hd : d.InRange) (he : e.InRange)
    (h : d.marshal.jsonb = e.marshal.jsonb) : d.stored = e.stored := by
  have hdecode := decode_definition hd
  rw [h, decode_definition he] at hdecode
  exact (Except.ok.inj hdecode).symm

/-- Definitions that agree under one version agree under every version. -/
theorem column_of_stored_eq {d e : WorkflowDefinition} {v : Int}
    (h : { d.stored with version := v } = { e.stored with version := v }) (w : Int) :
    { d with version := w }.marshal.jsonb = { e with version := w }.marshal.jsonb := by
  have hversion : { d.stored with version := w } = { e.stored with version := w } :=
    congrArg (fun x : WorkflowDefinition => { x with version := w }) h
  rw [← (d.restores w).column, ← (e.restores w).column, hversion]

/-- A version holds no text. -/
theorem WorkflowDefinition.hasNul_of_withVersion (d : WorkflowDefinition) {v : Int}
    (h : { d with version := v }.marshal.hasNul = true) : d.marshal.hasNul = true := by
  rw [marshal, Json.hasNul, hasNulMembers_iff] at h ⊢
  obtain ⟨⟨k, j⟩, hm, hnul⟩ := h
  obtain ⟨hk, hj⟩ := mem_membersOf.mp hm
  by_cases hversion : k = "version"
  · subst hversion
    have hkey : "version".toList.contains '\x00' = false := by decide
    have hj : omitInt v = some j := hj
    unfold omitInt at hj
    split at hj
    · cases hj
    · cases hj
      rw [hkey] at hnul
      cases hnul
  · refine ⟨(k, j), mem_membersOf.mpr ⟨hk, hj ▸ ?_⟩, hnul⟩
    simp only [names, List.mem_cons, List.not_mem_nil, or_false] at hk
    rcases hk with rfl | rfl | rfl | rfl | rfl | rfl | rfl | rfl | rfl
    case inr.inl => exact absurd rfl hversion
    all_goals rfl

theorem WorkflowDefinition.InRange.withVersion {d : WorkflowDefinition} (hd : d.InRange) {v : Int}
    (hv : goInt v = true) : { d with version := v }.InRange :=
  ⟨hv, hd.2⟩

theorem WorkflowDefinition.InRange.stored {d : WorkflowDefinition} (hd : d.InRange) :
    d.stored.InRange := by
  refine ⟨hd.1, fun s hs => ?_⟩
  obtain ⟨t, ht, rfl⟩ := List.mem_map.mp hs
  exact hd.2 t ht

/-- What was read back as `e` under version `v` is `d`. -/
theorem sameDefinition_stored_iff {d e : WorkflowDefinition} (hd : d.InRange) (he : e.InRange)
    {v : Int} (hv : goInt v = true) :
    SameDefinition d { e.stored with version := v } ↔
      { d with version := v }.marshal.jsonb = { e with version := v }.marshal.jsonb ∧
        d.InOrder := by
  have hcolumn := (e.restores v).column
  -- definitions of one column form come back with the same branches
  have hbranches (hde : { d with version := v }.marshal.jsonb =
      { e with version := v }.marshal.jsonb) : d.stored.branches = e.stored.branches := by
    have hstored := stored_eq_of_column (hd.withVersion hv) (he.withVersion hv) hde
    have := congrArg WorkflowDefinition.branches hstored
    exact this
  rw [← d.stored_branches_eq_iff]
  constructor
  · rintro ⟨hc, hb⟩
    have hde : { d with version := v }.marshal.jsonb = { e with version := v }.marshal.jsonb :=
      hc.trans hcolumn
    refine ⟨hde, ?_⟩
    rw [hbranches hde]
    exact hb
  · rintro ⟨hde, hb⟩
    refine ⟨hde.trans hcolumn.symm, ?_⟩
    rw [hb, hbranches hde]
    rfl

namespace DefinitionStore

/-! ## Sequences of uploads -/

/-- The table after the uploads.  One that fails changes nothing. -/
def uploadAll (store : DefinitionStore) : List { d : WorkflowDefinition // d.InRange } →
    DefinitionStore
  | [] => store
  | d :: rest =>
    match store.upload d.1 d.2 with
    | .ok (_, store') => store'.uploadAll rest
    | .error _ => store.uploadAll rest

/-- What a row holds came through `Upload`. -/
structure RowWritten (r : DefinitionRow) : Prop where
  source : ∃ d : WorkflowDefinition, d.InRange ∧ d.id = r.id ∧ r.rawJson = d.marshal.jsonb ∧
    d.marshal.hasNul = false
  version : 0 < r.version ∧ r.version < 2 ^ 31

/-- Every row of the table came through `Upload`. -/
def Written (store : DefinitionStore) : Prop := ∀ r ∈ store.rows, RowWritten r

theorem RowWritten.goInt {r : DefinitionRow} (h : RowWritten r) : goInt r.version = true := by
  have := h.version
  simp only [Rochallor.goInt, Bool.and_eq_true, decide_eq_true_eq]
  omega

theorem newest_mem {store : DefinitionStore} {id : String} {r : DefinitionRow}
    (h : newest (store.rows.filter fun r => r.id == id) = some r) : r ∈ store.rows ∧ r.id = id := by
  have := List.mem_filter.mp (Table.latest_mem h)
  exact ⟨this.1, by simpa using this.2⟩

theorem Written.maxVersion_nonneg {store : DefinitionStore} (h : store.Written) (id : String) :
    0 ≤ store.maxVersion id := by
  unfold maxVersion
  cases hn : newest (store.rows.filter fun r => r.id == id) with
  | none => simp
  | some r =>
    have := (h r (newest_mem hn).1).version.1
    simp only [Option.map_some, Option.getD_some]
    omega

/-- What `Upload` does: it finds the document, or it inserts it. -/
theorem upload_cases {store store' : DefinitionStore} {d : WorkflowDefinition} {hd : d.InRange}
    {sum : Summary} (h : store.upload d hd = .ok (sum, store')) :
    d.marshal.hasNul = false ∧
      ((store' = store ∧ ∃ r ∈ store.rows, r.id = d.id ∧ r.rawJson = d.marshal.jsonb) ∨
        (store' = store.insert d hd ∧ store.maxVersion d.id + 1 < 2 ^ 31 ∧
          ∀ r ∈ store.rows, r.id = d.id → r.rawJson ≠ d.marshal.jsonb)) := by
  unfold upload at h
  split at h
  · cases h
  · rename_i hnul
    refine ⟨by simpa using hnul, ?_⟩
    split at h
    · rename_i r hnewest
      cases h
      obtain ⟨hmem, hsame⟩ := List.mem_filter.mp (Table.latest_mem hnewest)
      rw [Bool.and_eq_true, beq_iff_eq] at hsame
      exact .inl ⟨rfl, r, hmem, hsame.1, Json.eq_of_same hsame.2⟩
    · rename_i hnone
      split at h
      · cases h
      · rename_i hmax
        cases h
        refine .inr ⟨rfl, by omega, fun r hr hid hraw => ?_⟩
        have hnil := Table.latest_eq_none.mp hnone
        have hmem : r ∈ store.rows.filter fun r => r.id == d.id && r.rawJson.same d.marshal.jsonb :=
          List.mem_filter.mpr ⟨hr, by simp [hid, hraw, Json.same_self]⟩
        rw [hnil] at hmem
        cases hmem

/-- A document that is found gets no new version. -/
theorem upload_found {store : DefinitionStore} {d : WorkflowDefinition} (hd : d.InRange)
    (hnul : d.marshal.hasNul = false) {r : DefinitionRow} (hr : r ∈ store.rows)
    (hid : r.id = d.id) (hraw : r.rawJson = d.marshal.jsonb) :
    ∃ sum, store.upload d hd = .ok (sum, store) := by
  unfold upload
  rw [if_neg (by simp [hnul])]
  cases hn : newest (store.rows.filter fun r => r.id == d.id && r.rawJson.same d.marshal.jsonb) with
  | some b => exact ⟨_, rfl⟩
  | none =>
    have hnil := Table.latest_eq_none.mp hn
    have hmem : r ∈ store.rows.filter fun r => r.id == d.id && r.rawJson.same d.marshal.jsonb :=
      List.mem_filter.mpr ⟨hr, by simp [hid, hraw, Json.same_self]⟩
    rw [hnil] at hmem
    cases hmem

theorem Written.upload {store store' : DefinitionStore} {d : WorkflowDefinition} {hd : d.InRange}
    {sum : Summary} (hw : store.Written) (h : store.upload d hd = .ok (sum, store')) :
    store'.Written := by
  obtain ⟨hnul, ⟨rfl, -⟩ | ⟨rfl, hmax, -⟩⟩ := upload_cases h
  · exact hw
  · intro r hr
    rcases List.mem_append.mp hr with hr | hr
    · exact hw r hr
    · obtain rfl := List.mem_singleton.mp hr
      have := hw.maxVersion_nonneg d.id
      exact ⟨⟨d, hd, rfl, rfl, hnul⟩, by show 0 < _ + 1; omega, hmax⟩

theorem Written.uploadAll {store : DefinitionStore} (hw : store.Written)
    (ds : List { d : WorkflowDefinition // d.InRange }) : (store.uploadAll ds).Written := by
  induction ds generalizing store with
  | nil => exact hw
  | cons d rest ih =>
    rw [DefinitionStore.uploadAll]
    split
    · rename_i h
      exact ih (hw.upload h)
    · exact ih hw

theorem written_empty : empty.Written := by
  intro r hr
  cases hr

/-- A row as it is read back. -/
theorem scan_written {r : DefinitionRow} (hr : RowWritten r) :
    ∃ d : WorkflowDefinition, d.InRange ∧ d.id = r.id ∧ r.rawJson = d.marshal.jsonb ∧
      d.marshal.hasNul = false ∧
      scanDefinitionWithVersion (some r) = .ok { d.stored with version := r.version } := by
  obtain ⟨d, hd, hid, hraw, hnul⟩ := hr.source
  exact ⟨d, hd, hid, hraw, hnul, scan_ok hd hraw⟩

theorem scan_key (store : DefinitionStore) {r : DefinitionRow} (hr : r ∈ store.rows)
    {x : WorkflowDefinition} (h : scanDefinitionWithVersion (some r) = .ok x) :
    x.id = r.id ∧ x.version = r.version := by
  obtain ⟨d, hd, hid, hraw⟩ := store.holds r hr
  rw [scan_ok hd hraw] at h
  cases h
  exact ⟨hid, rfl⟩

/-- `GetLatest` reads one of the rows. -/
theorem getLatest_row {store : DefinitionStore} {id : String} {x : WorkflowDefinition}
    (h : store.getLatest id = .ok x) :
    ∃ r ∈ store.rows, r.id = id ∧ store.getVersion r.id r.version = .ok x := by
  unfold getLatest at h
  cases hn : newest (store.rows.filter fun r => r.id == id) with
  | none =>
    rw [hn] at h
    cases h
  | some r =>
    rw [hn] at h
    obtain ⟨hr, hid⟩ := newest_mem hn
    exact ⟨r, hr, hid, (store.getVersion_of_mem hr).trans h⟩

/-! ## The definition `Start` runs -/

/-- The table as the repository of the instance service. -/
def repository (store : DefinitionStore) : DefinitionRepository where
  getVersion id version := orMessage "" (store.getVersion id version)
  getLatest _ id := orMessage "" (store.getLatest id)
  getVersion_key := by
    intro id version x h
    have h := orMessage_eq_ok h
    unfold getVersion at h
    cases hfind : store.rows.find? fun r => r.id == id && r.version == version with
    | none =>
      rw [hfind] at h
      cases h
    | some r =>
      rw [hfind] at h
      have hr : r.id = id ∧ r.version = version := by simpa using List.find?_some hfind
      have hx := store.scan_key (List.mem_of_find?_eq_some hfind) h
      exact ⟨hx.1.trans hr.1, hx.2.trans hr.2⟩
  getLatest_version := by
    intro _ id x h
    obtain ⟨r, hr, _, hx⟩ := getLatest_row (orMessage_eq_ok h)
    have hkey := store.scan_key hr ((store.getVersion_of_mem hr).symm.trans hx)
    rw [hkey.1, hkey.2, hx]
    rfl

/-- `Start` with version 0 runs the definition `GetLatest` returns. -/
theorem prepareStart_latest {svc : Service} {now : Time} {store : DefinitionStore} {id : String}
    {x d : WorkflowDefinition} {vars : GoMap Value} {varJSON : Json}
    (hx : store.getLatest id = .ok x)
    (h : prepareStart { svc with defRepo := store.repository } now id 0 vars = .ok (d, varJSON)) :
    d = x := by
  unfold prepareStart at h
  obtain ⟨d', hd', h⟩ := bind_eq_ok h
  rw [if_pos (le_refl 0)] at hd'
  have hlatest : store.getLatest id = .ok d' := orMessage_eq_ok hd'
  rw [hx] at hlatest
  cases hlatest
  -- the checks that follow return the definition that was found
  simp only at h
  split at h
  · cases h
  split at h
  · cases h
  obtain ⟨_, -, h⟩ := bind_eq_ok h
  cases h
  rfl

/-! ## The latest version after an upload -/

/-- The newest row of the definition's id holds it, up to the version. -/
def HoldsNewest (store : DefinitionStore) (d : WorkflowDefinition) : Prop :=
  ∃ r v, newest (store.rows.filter fun r => r.id == d.id) = some r ∧ goInt v = true ∧
    r.rawJson = { d with version := v }.marshal.jsonb

/-- `GetLatest` reads `d` back, and `Start` with version 0 runs what it reads. -/
structure ReadsBack (store : DefinitionStore) (d x : WorkflowDefinition) : Prop where
  latest : store.getLatest d.id = .ok x
  same : SameDefinition d x
  start : ∀ (svc : Service) (now : Time) (vars : GoMap Value) (run : WorkflowDefinition)
    (varJSON : Json), prepareStart { svc with defRepo := store.repository } now d.id 0 vars =
      .ok (run, varJSON) → run = x

theorem readsBack_iff {store : DefinitionStore} (hw : store.Written) {d : WorkflowDefinition}
    (hd : d.InRange) : (∃ x, ReadsBack store d x) ↔ HoldsNewest store d ∧ d.InOrder := by
  constructor
  · rintro ⟨x, hx⟩
    have hlatest := hx.latest
    unfold getLatest at hlatest
    cases hn : newest (store.rows.filter fun r => r.id == d.id) with
    | none =>
      rw [hn] at hlatest
      cases hlatest
    | some r =>
      have hrow := hw r (newest_mem hn).1
      obtain ⟨e, he, -, hraw, -, hscan⟩ := scan_written hrow
      rw [hn, hscan] at hlatest
      cases hlatest
      obtain ⟨hde, horder⟩ := (sameDefinition_stored_iff hd he hrow.goInt).mp hx.same
      refine ⟨⟨r, e.version, hn, he.1, ?_⟩, horder⟩
      have hstored := stored_eq_of_column (hd.withVersion hrow.goInt) (he.withVersion hrow.goInt) hde
      exact hraw.trans (column_of_stored_eq hstored e.version).symm
  · rintro ⟨⟨r, v, hn, hv, hraw⟩, horder⟩
    have hrow := hw r (newest_mem hn).1
    have hscan := scan_ok (hd.withVersion hv) hraw
    refine ⟨{ d.stored with version := r.version }, ?_, ?_, ?_⟩
    · unfold getLatest
      rw [hn]
      exact hscan
    · exact (sameDefinition_stored_iff hd hd hrow.goInt).mpr ⟨rfl, horder⟩
    · intro svc now vars run varJSON h
      refine prepareStart_latest ?_ h
      unfold getLatest
      rw [hn]
      exact hscan

/-- After an upload the newest row of the id holds the definition unless an
    older one does. -/
theorem holdsNewest_upload_iff {store store' : DefinitionStore} {d : WorkflowDefinition}
    {hd : d.InRange} {sum : Summary} (h : store.upload d hd = .ok (sum, store')) :
    HoldsNewest store' d ↔
      (∀ r ∈ store.rows, r.id = d.id → r.rawJson ≠ d.marshal.jsonb) ∨ HoldsNewest store d := by
  obtain ⟨-, ⟨rfl, r, hr, hid, hraw⟩ | ⟨rfl, -, hnew⟩⟩ := upload_cases h
  · have hnot : ¬ ∀ r ∈ store'.rows, r.id = d.id → r.rawJson ≠ d.marshal.jsonb :=
      fun hall => hall r hr hid hraw
    simp only [hnot, false_or]
  · refine iff_of_true ⟨⟨d.id, store.maxVersion d.id + 1, d.name, d.marshal.jsonb⟩, d.version,
      ?_, hd.1, rfl⟩ (.inl hnew)
    have hrows : (store.insert d hd).rows.filter (fun r => r.id == d.id) =
        store.rows.filter (fun r => r.id == d.id) ++
          [⟨d.id, store.maxVersion d.id + 1, d.name, d.marshal.jsonb⟩] := by
      simp [insert, List.filter_append]
    rw [hrows]
    refine Table.latest_append fun b hb => ?_
    obtain ⟨hmem, hid⟩ := List.mem_filter.mp hb
    have hle := store.le_maxVersion hmem
    rw [beq_iff_eq.mp hid] at hle
    show b.version < store.maxVersion d.id + 1
    omega

/-! ## Uploading what was read back -/

/-- Some row of the id holds the document of `r` with the version of `r` in
    it. -/
def HoldsNumbered (store : DefinitionStore) (r : DefinitionRow) : Prop :=
  ∃ e : WorkflowDefinition, e.InRange ∧ r.rawJson = e.marshal.jsonb ∧
    ∃ r' ∈ store.rows, r'.id = r.id ∧ r'.rawJson = { e with version := r.version }.marshal.jsonb

theorem upload_readBack_iff {store : DefinitionStore} (hw : store.Written) {r : DefinitionRow}
    (hr : r ∈ store.rows) : ∃ (x : WorkflowDefinition) (hx : x.InRange),
      store.getVersion r.id r.version = .ok x ∧
        ((∃ sum, store.upload x hx = .ok (sum, store)) ↔ store.HoldsNumbered r) := by
  obtain ⟨d, hd, hid, hraw, hnul, hscan⟩ := scan_written (hw r hr)
  have hv := (hw r hr).goInt
  refine ⟨_, hd.stored.withVersion hv, (store.getVersion_of_mem hr).trans hscan, ?_⟩
  have hcolumn := (d.restores r.version).column
  constructor
  · rintro ⟨sum, hsum⟩
    obtain ⟨-, ⟨-, r', hr', hid', hraw'⟩ | ⟨hinsert, -⟩⟩ := upload_cases hsum
    · exact ⟨d, hd, hraw, r', hr', hid'.trans hid, hraw'.trans hcolumn⟩
    · have hlen := congrArg (fun s : DefinitionStore => s.rows.length) hinsert
      simp [insert] at hlen
  · rintro ⟨e, he, hrawe, r', hr', hid', hraw'⟩
    have hstored := stored_eq_of_column hd he (hraw.symm.trans hrawe)
    have hde : { d with version := r.version }.marshal.jsonb =
        { e with version := r.version }.marshal.jsonb :=
      column_of_stored_eq (v := 0) (by rw [hstored]) r.version
    have hnul' : { d.stored with version := r.version }.marshal.hasNul = false := by
      rw [Bool.eq_false_iff] at hnul ⊢
      exact fun h => hnul (d.hasNul_of_withVersion ((d.restores r.version).nul h))
    exact upload_found _ hnul' hr' (hid'.trans hid.symm) (hraw'.trans (hde.symm.trans hcolumn.symm))

end DefinitionStore

/-! ## After any uploads -/

/-- After any uploads, one more upload is what `GetLatest` returns if and only
    if its branches are in the order of JSONB keys and it is not an older
    version that has been replaced since.  And a document that is read back is
    found again if and only if it has been uploaded with the number of its row
    in its `version` field. -/
theorem uploads_read_back_iff (ds : List { d : WorkflowDefinition // d.InRange }) :
    (∀ (d : WorkflowDefinition) (hd : d.InRange) (sum : Summary) (store' : DefinitionStore),
      (DefinitionStore.empty.uploadAll ds).upload d hd = .ok (sum, store') →
      ((∃ x, store'.ReadsBack d x) ↔
        ((∀ r ∈ (DefinitionStore.empty.uploadAll ds).rows, r.id = d.id →
            r.rawJson ≠ d.marshal.jsonb) ∨ (DefinitionStore.empty.uploadAll ds).HoldsNewest d) ∧
          d.InOrder)) ∧
    (∀ r ∈ (DefinitionStore.empty.uploadAll ds).rows,
      ∃ (x : WorkflowDefinition) (hx : x.InRange),
        (DefinitionStore.empty.uploadAll ds).getVersion r.id r.version = .ok x ∧
        ((∃ sum, (DefinitionStore.empty.uploadAll ds).upload x hx =
            .ok (sum, DefinitionStore.empty.uploadAll ds)) ↔
          (DefinitionStore.empty.uploadAll ds).HoldsNumbered r)) ∧
    (∀ id x, (DefinitionStore.empty.uploadAll ds).getLatest id = .ok x →
      ∃ r ∈ (DefinitionStore.empty.uploadAll ds).rows, r.id = id ∧
        (DefinitionStore.empty.uploadAll ds).getVersion r.id r.version = .ok x) := by
  have hw : (DefinitionStore.empty.uploadAll ds).Written :=
    DefinitionStore.written_empty.uploadAll ds
  refine ⟨fun d hd sum store' h => ?_, fun r hr => DefinitionStore.upload_readBack_iff hw hr,
    fun id x h => DefinitionStore.getLatest_row h⟩
  rw [DefinitionStore.readsBack_iff (hw.upload h) hd, DefinitionStore.holdsNewest_upload_iff h]

/-! A greeting whose retries are changed and changed back. -/

def greeting (version retryCount : Int) : WorkflowDefinition where
  id := "greeting"
  version := version
  name := "Greeting"
  steps := [
    { id := "greet", name := "Greet", type := .serviceTask, jobType := "greet",
      nextStep := "done", retryCount := retryCount },
    { id := "done", name := "Done", type := .endStep }]

theorem greeting_inRange {version retryCount : Int} (hv : goInt version = true)
    (hr : goInt retryCount = true) : (greeting version retryCount).InRange := by
  refine ⟨hv, ?_⟩
  intro s hs
  simp only [greeting, List.mem_cons, List.not_mem_nil, or_false] at hs
  rcases hs with rfl | rfl
  · exact hr
  · decide

/-- The upload of a greeting. -/
def greetingUpload (version retryCount : Int) (hv : goInt version = true)
    (hr : goInt retryCount = true) : { d : WorkflowDefinition // d.InRange } :=
  ⟨greeting version retryCount, greeting_inRange hv hr⟩

/-- A greeting uploaded with its number is read back and found again. -/
theorem uploads_read_back_iff_greeting :
    ∃ sum store', DefinitionStore.empty.upload (greeting 1 3)
        (greeting_inRange (by decide) (by decide)) = .ok (sum, store') ∧
      (∃ x, store'.ReadsBack (greeting 1 3) x) ∧
      ∃ x hx, store'.getVersion "greeting" 1 = .ok x ∧
        ∃ sum, store'.upload x hx = .ok (sum, store') := by
  have hd : (greeting 1 3).InRange := greeting_inRange (by decide) (by decide)
  have hupload : DefinitionStore.empty.upload (greeting 1 3) hd =
    .ok (⟨"greeting", 1, "Greeting"⟩, DefinitionStore.empty.insert (greeting 1 3) hd) := rfl
  have horder : (greeting 1 3).InOrder := by
    intro s hs c hc
    simp only [greeting, List.mem_cons, List.not_mem_nil, or_false] at hs
    rcases hs with rfl | rfl <;> cases hc
  refine ⟨_, _, hupload, ?_, ?_⟩
  · have hnew : ∀ r ∈ (DefinitionStore.empty.uploadAll []).rows, r.id = (greeting 1 3).id →
        r.rawJson ≠ (greeting 1 3).marshal.jsonb := by
      intro r hr
      cases hr
    exact ((uploads_read_back_iff []).1 _ hd _ _ hupload).mpr ⟨.inl hnew, horder⟩
  · have hafter : DefinitionStore.empty.uploadAll [⟨greeting 1 3, hd⟩] =
        DefinitionStore.empty.insert (greeting 1 3) hd := by
      rw [DefinitionStore.uploadAll, hupload]
      rfl
    have hread := (uploads_read_back_iff [⟨greeting 1 3, hd⟩]).2.1
    rw [hafter] at hread
    -- the row of the one upload
    obtain ⟨x, hx, hget, hiff⟩ := hread
      ⟨"greeting", 1, "Greeting", (greeting 1 3).marshal.jsonb⟩ (List.mem_singleton_self _)
    exact ⟨x, hx, hget, hiff.mpr ⟨greeting 1 3, hd, rfl, _, List.mem_singleton_self _, rfl, rfl⟩⟩

/-- The retries are raised from three to five and lowered again.  The third
    upload succeeds, and `GetLatest` goes on returning five.  Uploading what it
    returns makes a third version. -/
theorem lowered_retries_not_latest :
    ∃ sum, (DefinitionStore.empty.uploadAll [greetingUpload 0 3 rfl rfl,
        greetingUpload 0 5 rfl rfl]).upload (greeting 0 3) (greeting_inRange rfl rfl) =
      .ok (sum, DefinitionStore.empty.uploadAll [greetingUpload 0 3 rfl rfl,
        greetingUpload 0 5 rfl rfl]) ∧
    (DefinitionStore.empty.uploadAll [greetingUpload 0 3 rfl rfl,
        greetingUpload 0 5 rfl rfl]).getLatest "greeting" = .ok (greeting 2 5) ∧
    ¬ SameDefinition (greeting 0 3) (greeting 2 5) ∧
    ∃ sum' store', (DefinitionStore.empty.uploadAll [greetingUpload 0 3 rfl rfl,
        greetingUpload 0 5 rfl rfl]).upload (greeting 2 5) (greeting_inRange rfl rfl) =
      .ok (sum', store') ∧ sum'.version = 3 ∧ store'.rows.length = 3 := by
  refine ⟨⟨"greeting", 1, "Greeting"⟩, rfl, rfl, ?_, ⟨"greeting", 3, "Greeting"⟩, _, rfl, rfl, rfl⟩
  intro h
  exact absurd h.column (by decide +kernel)

end Rochallor
