import Rochallor.Data.MapOrder
import Rochallor.Data.Jsonb
import Rochallor.Expression.Evaluator

/-! # Variables an expression does not mention

    The environment of an expression holds the helper functions and, over them,
    the workflow variables.  A variable the expression does not mention should
    not matter to it.  But the tree that runs is not the one that was written:
    `coercionPatcher` puts calls of helper functions into it, and a variable
    with the name of a helper hides the function.

    Names stand in a tree as callees of calls or elsewhere.  Patching adds
    names as callees only, so what a variable with such a name does to a run is
    make the call fail.
-/

namespace Rochallor

/-! ## Callees -/

/-- The node is a name. -/
def Node.isIdent : Node → Bool
  | .ident _ => true
  | _ => false

mutual

/-- The names that do not stand as the callee of a call. -/
def Node.uses : Node → List String
  | .ident name => [name]
  | .unary _ node => node.uses
  | .binary _ left right => left.uses ++ right.uses
  | .call callee arguments =>
    (if callee.isIdent then [] else callee.uses) ++ usesOf arguments
  | .other _ children => usesOf children
  | .nil | .bool _ | .int _ | .float _ | .string _ => []

def usesOf : List Node → List String
  | [] => []
  | n :: rest => n.uses ++ usesOf rest

end

section Patched

theorem append_subset_append {a b c d : List String} (h : a ⊆ b) (h' : c ⊆ d) :
    a ++ c ⊆ b ++ d :=
  List.append_subset.mpr
    ⟨List.subset_append_of_subset_left _ h, List.subset_append_of_subset_right _ h'⟩

theorem uses_wrapCoerce (child : Node) (builtin : String) :
    (wrapCoerce child builtin).uses = child.uses := by
  have hwrap : (Node.call (.ident builtin) [child]).uses = child.uses := by
    simp [Node.uses, usesOf, Node.isIdent]
  unfold wrapCoerce
  split
  · rfl
  · rfl
  · rfl
  · rfl
  · rfl
  · split
    · rfl
    · exact hwrap
  · exact hwrap

theorem uses_coercionVisit (node : Node) : (coercionVisit node).uses = node.uses := by
  unfold coercionVisit
  split
  · split
    · simp only [Node.uses, uses_wrapCoerce]
    · split
      · simp only [Node.uses, uses_wrapCoerce]
      · split
        · simp only [Node.uses, uses_wrapCoerce]
        · rfl
  · split
    · simp only [Node.uses, uses_wrapCoerce]
    · rfl
  · rfl

theorem isIdent_coercionVisit (node : Node) : (coercionVisit node).isIdent = node.isIdent := by
  unfold coercionVisit
  split
  · split
    · rfl
    · split
      · rfl
      · split <;> rfl
  · split <;> rfl
  · rfl

theorem isIdent_patch (node : Node) : node.patch.isIdent = node.isIdent := by
  cases node <;> rw [Node.patch, isIdent_coercionVisit] <;> rfl

mutual

/-- Patching adds callees only. -/
theorem Node.uses_patch : ∀ node : Node, node.patch.uses = node.uses
  | .unary _ node => by
    rw [Node.patch, uses_coercionVisit, Node.uses, Node.uses_patch node, Node.uses]
  | .binary _ left right => by
    rw [Node.patch, uses_coercionVisit, Node.uses, Node.uses_patch left, Node.uses_patch right,
      Node.uses]
  | .call callee arguments => by
    rw [Node.patch, uses_coercionVisit, Node.uses, isIdent_patch, Node.uses_patch callee,
      usesOf_patchAll arguments, Node.uses]
  | .other _ children => by
    rw [Node.patch, uses_coercionVisit, Node.uses, usesOf_patchAll children, Node.uses]
  | .nil | .bool _ | .int _ | .float _ | .string _ | .ident _ => by
    rw [Node.patch, uses_coercionVisit]

theorem usesOf_patchAll : ∀ nodes : List Node, usesOf (patchAll nodes) = usesOf nodes
  | [] => rfl
  | n :: rest => by
    rw [patchAll, usesOf, Node.uses_patch n, usesOf_patchAll rest, usesOf]

end

mutual

theorem Node.uses_subset : ∀ node : Node, node.uses ⊆ node.idents
  | .ident _ => List.Subset.refl _
  | .unary _ node => by
    rw [Node.uses, Node.idents]
    exact Node.uses_subset node
  | .binary _ left right => by
    rw [Node.uses, Node.idents]
    exact append_subset_append (Node.uses_subset left) (Node.uses_subset right)
  | .call callee arguments => by
    rw [Node.uses, Node.idents]
    split
    · exact append_subset_append (List.nil_subset _) (usesOf_subset arguments)
    · exact append_subset_append (Node.uses_subset callee) (usesOf_subset arguments)
  | .other _ children => by
    rw [Node.uses, Node.idents]
    exact usesOf_subset children
  | .nil | .bool _ | .int _ | .float _ | .string _ => List.nil_subset _

theorem usesOf_subset : ∀ nodes : List Node, usesOf nodes ⊆ identsOf nodes
  | [] => List.nil_subset _
  | n :: rest => by
    rw [usesOf, identsOf]
    exact append_subset_append (Node.uses_subset n) (usesOf_subset rest)

end

theorem idents_wrapCoerce {child : Node} {builtin : String} (h : builtin ∈ coerceBuiltinNames) :
    (wrapCoerce child builtin).idents ⊆ coerceBuiltinNames ++ child.idents := by
  have hkeep : child.idents ⊆ coerceBuiltinNames ++ child.idents := List.subset_append_right _ _
  have hwrap : (Node.call (.ident builtin) [child]).idents ⊆ coerceBuiltinNames ++ child.idents := by
    intro n hn
    simp only [Node.idents, identsOf, List.append_nil, List.singleton_append, List.mem_cons] at hn
    rcases hn with rfl | hn
    · exact List.mem_append_left _ h
    · exact hkeep hn
  unfold wrapCoerce
  split
  · exact hkeep
  · exact hkeep
  · exact hkeep
  · exact hkeep
  · exact hkeep
  · split
    · exact hkeep
    · exact hwrap
  · exact hwrap

/-- `coercionVisit` adds names of helpers to those of the node. -/
theorem idents_coercionVisit {node : Node} {names : List String}
    (h : node.idents ⊆ coerceBuiltinNames ++ names) :
    (coercionVisit node).idents ⊆ coerceBuiltinNames ++ names := by
  refine List.Subset.trans ?_ (List.append_subset.mpr ⟨List.subset_append_left _ _, h⟩)
  have hkeep : node.idents ⊆ coerceBuiltinNames ++ node.idents := List.subset_append_right _ _
  have hboth : ∀ {op : String} {left right : Node} {builtin : String},
      builtin ∈ coerceBuiltinNames →
      (Node.binary op (wrapCoerce left builtin) (wrapCoerce right builtin)).idents ⊆
        coerceBuiltinNames ++ (Node.binary op left right).idents := by
    intro op left right builtin hb n hn
    simp only [Node.idents, List.mem_append] at hn ⊢
    rcases hn with hn | hn
    · have := idents_wrapCoerce hb hn
      grind
    · have := idents_wrapCoerce hb hn
      grind
  unfold coercionVisit
  split
  · split
    · exact hboth (by decide)
    · split
      · exact hboth (by decide)
      · split
        · exact hboth (by decide)
        · exact hkeep
  · split
    · exact idents_wrapCoerce (by decide)
    · exact hkeep
  · exact hkeep

mutual

/-- Patching adds names of helpers only. -/
theorem Node.idents_patch : ∀ node : Node, node.patch.idents ⊆ coerceBuiltinNames ++ node.idents
  | .unary op node => by
    rw [Node.patch]
    refine idents_coercionVisit ?_
    exact Node.idents_patch node
  | .binary op left right => by
    rw [Node.patch]
    refine idents_coercionVisit ?_
    intro n hn
    rw [Node.idents, List.mem_append] at hn
    rcases hn with hn | hn
    · have := Node.idents_patch left hn
      rw [Node.idents]
      grind
    · have := Node.idents_patch right hn
      rw [Node.idents]
      grind
  | .call callee arguments => by
    rw [Node.patch]
    refine idents_coercionVisit ?_
    intro n hn
    rw [Node.idents, List.mem_append] at hn
    rcases hn with hn | hn
    · have := Node.idents_patch callee hn
      rw [Node.idents]
      grind
    · have := identsOf_patchAll arguments hn
      rw [Node.idents]
      grind
  | .other kind children => by
    rw [Node.patch]
    refine idents_coercionVisit ?_
    exact identsOf_patchAll children
  | .nil | .bool _ | .int _ | .float _ | .string _ | .ident _ => by
    rw [Node.patch]
    exact idents_coercionVisit (List.subset_append_right _ _)

theorem identsOf_patchAll : ∀ nodes : List Node,
    identsOf (patchAll nodes) ⊆ coerceBuiltinNames ++ identsOf nodes
  | [] => List.nil_subset _
  | n :: rest => by
    intro name hname
    rw [patchAll, identsOf, List.mem_append] at hname
    rcases hname with hname | hname
    · have := Node.idents_patch n hname
      rw [identsOf]
      grind
    · have := identsOf_patchAll rest hname
      rw [identsOf]
      grind

end

end Patched

/-! ## The environment -/

section Environment

variable {vars : GoMap Value} {k n : String}

theorem get_environment (hkeys : (vars.map (·.1)).Nodup) (n : String) :
    GoMap.get (environment vars) n =
      ((GoMap.get vars n).map .value).or ((GoMap.get builtins n).map .func) := by
  have hnodup : ((vars.map fun e => (e.1, EnvValue.value e.2)).map (·.1)).Nodup := by
    rw [List.map_map]
    exact hkeys
  rw [environment, GoMap.get_overlay, GoMap.last_eq_get hnodup, GoMap.get_map, GoMap.get_map]

theorem get_environment_set (hkeys : (vars.map (·.1)).Nodup) (k : String) (v : Value)
    (n : String) :
    GoMap.get (environment (vars.set k v)) n =
      if k = n then some (.value v) else GoMap.get (environment vars) n := by
  rw [get_environment (set_nodup hkeys k v), get_environment hkeys, GoMap.get_set]
  split <;> rfl

end Environment

/-! ## Looking names up -/

/-- What the evaluator relies on in expr-lang, where `reads` are the names a
    run looks up.  A tree that does not take the environment as a whole is
    determined by the values of these; and a name that stands only as a callee
    is looked up to be called, which fails on what is not a function. -/
structure ExprLang.LooksUp {Program : Type} (lang : ExprLang Program)
    (reads : Program → GoMap EnvValue → List String) : Prop where
  frame : ∀ tree program env env', lang.compile tree = .ok program → "$env" ∉ tree.idents →
    (∀ n ∈ reads program env, GoMap.get env' n = GoMap.get env n) →
    lang.run program env' = lang.run program env ∧ reads program env' = reads program env
  call_fails : ∀ tree program env n v, lang.compile tree = .ok program → n ∉ tree.uses →
    GoMap.get env n = some (.value v) → n ∈ reads program env →
    ∃ e, lang.run program env = .error e

section Evaluation

variable {Program : Type} (lang : ExprLang Program)

/-- The names in the preprocessed expression. -/
def referenced (expression : String) : List String :=
  match preprocess expression >>= lang.parse with
  | .ok tree => tree.idents
  | .error _ => []

/-- `Evaluate` up to the run. -/
def prepared (coerce : Bool) (expression : String) (vars : GoMap Value) :
    Except String Program := do
  let preprocessed ← preprocess expression
  let program ← compileExpr lang preprocessed coerce
  checkUndefinedIdents lang preprocessed (environment vars)
  .ok program

/-- The names the run looks up. -/
def lookedUp (reads : Program → GoMap EnvValue → List String) (coerce : Bool)
    (expression : String) (vars : GoMap Value) : List String :=
  match prepared lang coerce expression vars with
  | .ok program => reads program (environment vars)
  | .error _ => []

/-- The same result, or two failures. -/
def SameResult (a b : Except String EnvValue) : Prop :=
  a = b ∨ (∃ e, a = .error e) ∧ ∃ e, b = .error e

variable {lang} {coerce : Bool} {expression : String} {vars : GoMap Value} {k : String}
  {program : Program}

theorem evaluate_eq_ok_iff {r : EnvValue} :
    evaluate lang coerce expression vars = .ok r ↔ ∃ program,
      prepared lang coerce expression vars = .ok program ∧
        lang.run program (environment vars) = .ok r := by
  unfold evaluate prepared
  cases preprocess expression with
  | error e => simp [bind, Except.bind, Except.mapError]
  | ok preprocessed =>
    simp only [bind, Except.bind]
    cases compileExpr lang preprocessed coerce with
    | error e => simp [Except.mapError]
    | ok program =>
      cases checkUndefinedIdents lang preprocessed (environment vars) with
      | error e => simp [Except.mapError]
      | ok u =>
        cases hrun : lang.run program (environment vars) <;> simp [hrun, Except.mapError]

/-- Two evaluations that come to the same programs and runs. -/
theorem sameResult_iff {vars' : GoMap Value} :
    SameResult (evaluate lang coerce expression vars) (evaluate lang coerce expression vars') ↔
      ∀ r, evaluate lang coerce expression vars = .ok r ↔
        evaluate lang coerce expression vars' = .ok r := by
  constructor
  · rintro (h | ⟨⟨e, he⟩, e', he'⟩) r
    · rw [h]
    · rw [he, he']
      simp
  · intro h
    cases hev : evaluate lang coerce expression vars with
    | ok r => exact .inl ((h r).mp hev).symm
    | error e =>
      cases hev' : evaluate lang coerce expression vars' with
      | error e' => exact .inr ⟨⟨e, rfl⟩, e', rfl⟩
      | ok r =>
        rw [← h r, hev] at hev'
        cases hev'

theorem prepared_tree (h : prepared lang coerce expression vars = .ok program) :
    ∃ tree, (preprocess expression >>= lang.parse) = .ok tree ∧
      lang.compile (if coerce then tree.patch else tree) = .ok program ∧
      ∀ n ∈ tree.idents, (GoMap.get (environment vars) n).isSome := by
  unfold prepared at h
  cases hpre : preprocess expression with
  | error e => simp [hpre, bind, Except.bind] at h
  | ok preprocessed =>
    simp only [hpre, bind, Except.bind] at h
    cases hcompile : compileExpr lang preprocessed coerce with
    | error e => simp [hcompile] at h
    | ok program' =>
      cases hcheck : checkUndefinedIdents lang preprocessed (environment vars) with
      | error e => simp [hcompile, hcheck] at h
      | ok u =>
        simp only [hcompile, hcheck, Except.ok.injEq] at h
        subst h
        unfold compileExpr at hcompile
        unfold checkUndefinedIdents at hcheck
        cases hparse : lang.parse preprocessed with
        | error e => simp [hparse, bind, Except.bind] at hcompile
        | ok tree =>
          simp only [hparse, bind, Except.bind] at hcompile hcheck
          refine ⟨tree, hparse, hcompile, fun n hn => ?_⟩
          cases hfind : tree.idents.find? fun name =>
              (GoMap.get (environment vars) name).isNone with
          | some name => simp [hfind] at hcheck
          | none =>
            have hn := List.find?_eq_none.mp hfind n hn
            simpa [Option.isSome_iff_ne_none] using hn

/-- A variable the expression does not mention changes nothing before the
    run. -/
theorem prepared_set (hkeys : (vars.map (·.1)).Nodup) (hk : k ∉ referenced lang expression)
    (v : Value) :
    prepared lang coerce expression (vars.set k v) = prepared lang coerce expression vars := by
  unfold prepared
  cases hpre : preprocess expression with
  | error e => rfl
  | ok preprocessed =>
    have hcheck : checkUndefinedIdents lang preprocessed (environment (vars.set k v)) =
        checkUndefinedIdents lang preprocessed (environment vars) := by
      unfold checkUndefinedIdents
      unfold referenced at hk
      cases hparse : lang.parse preprocessed with
      | error e => rfl
      | ok tree =>
        simp only [hpre, hparse, bind, Except.bind] at hk ⊢
        have hfind : tree.idents.find? (fun name =>
            (GoMap.get (environment (vars.set k v)) name).isNone) =
            tree.idents.find? fun name => (GoMap.get (environment vars) name).isNone := by
          rw [← List.head?_filter, ← List.head?_filter]
          refine congrArg List.head? (List.filter_congr fun name hname => ?_)
          rw [get_environment_set hkeys, if_neg]
          rintro rfl
          exact hk hname
        rw [hfind]
    simp only [bind, Except.bind, hcheck]

theorem run_set {reads : Program → GoMap EnvValue → List String} (h : lang.LooksUp reads)
    (hkeys : (vars.map (·.1)).Nodup) (hk : k ∉ referenced lang expression)
    (henv : "$env" ∈ referenced lang expression → GoMap.get vars "$env" = none)
    (hprepared : prepared lang coerce expression vars = .ok program) (v : Value) :
    (k ∈ reads program (environment vars) → ∃ e,
        lang.run program (environment (vars.set k v)) = .error e) ∧
      (k ∉ reads program (environment vars) →
        lang.run program (environment (vars.set k v)) = lang.run program (environment vars)) ∧
      ((GoMap.get vars k).isSome → k ∈ reads program (environment vars) →
        ∃ e, lang.run program (environment vars) = .error e) := by
  obtain ⟨tree, htree, hcompile, hdefined⟩ := prepared_tree hprepared
  have hreferenced : referenced lang expression = tree.idents := by
    unfold referenced
    rw [htree]
  rw [hreferenced] at hk henv
  have hdollar : "$env" ∉ tree.idents := by
    intro hmem
    have hsome := hdefined _ hmem
    rw [get_environment hkeys, henv hmem] at hsome
    exact absurd hsome (by decide)
  -- the tree that runs has the same names, but for the callees
  have hruns : "$env" ∉ (if coerce then tree.patch else tree).idents ∧
      k ∉ (if coerce then tree.patch else tree).uses := by
    cases coerce with
    | false => exact ⟨hdollar, fun hmem => hk (Node.uses_subset tree hmem)⟩
    | true =>
      refine ⟨fun hmem => ?_, fun hmem => hk (Node.uses_subset tree ?_)⟩
      · rcases List.mem_append.mp (Node.idents_patch tree hmem) with hmem | hmem
        · exact absurd hmem (by decide)
        · exact hdollar hmem
      · rw [← Node.uses_patch]
        exact hmem
  have hsame : ∀ n, n ≠ k → GoMap.get (environment (vars.set k v)) n =
      GoMap.get (environment vars) n := by
    intro n hn
    rw [get_environment_set hkeys, if_neg hn.symm]
  have hset : GoMap.get (environment (vars.set k v)) k = some (.value v) := by
    rw [get_environment_set hkeys, if_pos rfl]
  refine ⟨fun hread => ?_, fun hread => ?_, fun hvar hread => ?_⟩
  · refine h.call_fails _ _ _ k v hcompile hruns.2 hset ?_
    by_contra hnot
    have hframe := h.frame _ _ (environment (vars.set k v)) (environment vars) hcompile hruns.1
      fun n hn => (hsame n fun hnk => hnot (hnk ▸ hn)).symm
    rw [hframe.2] at hread
    exact hnot hread
  · exact (h.frame _ _ _ _ hcompile hruns.1
      fun n hn => hsame n fun hnk => hread (hnk ▸ hn)).1
  · obtain ⟨w, hw⟩ := Option.isSome_iff_exists.mp hvar
    refine h.call_fails _ _ _ k w hcompile hruns.2 ?_ hread
    rw [get_environment hkeys, hw]
    rfl

end Evaluation

/-! ## A language of additions -/

/-- An operand: the names it looks up, and its value. -/
def operand : Node → GoMap EnvValue → List String × Except String Value
  | .int n, _ => ([], .ok (.int n))
  | .ident x, env =>
    match GoMap.get env x with
    | some (.value v) => ([x], .ok v)
    | _ => ([x], .error "not a value")
  | .call (.ident f) [.ident x], env =>
    match GoMap.get env x with
    | some (.value v) =>
      match GoMap.get env f with
      | some (.func b) => ([x, f], (b.apply [v]).getD (.error "wrong number of arguments"))
      | _ => ([x, f], .error "not a function")
    | _ => ([x], .error "not a value")
  | _, _ => ([], .error "unknown node")

def addValues : Value → Value → Except String Value
  | .int a, .int b => .ok (.int (a + b))
  | .int a, .float y => .ok (.float (.add (.ofRat a) y))
  | .float x, .int b => .ok (.float (.add x (.ofRat b)))
  | .float x, .float y => .ok (.float (.add x y))
  | _, _ => .error "invalid operation: +"

/-- A sum: the names it looks up, and its value. -/
def sum : Node → GoMap EnvValue → List String × Except String Value
  | .binary _ left right, env =>
    match operand left env with
    | (ns, .error e) => (ns, .error e)
    | (ns, .ok a) => (ns ++ (operand right env).1, (operand right env).2 >>= addValues a)
  | _, _ => ([], .error "unknown node")

/-- expr-lang on the text `x + 1`. -/
def additionLang : ExprLang Node where
  parse text := if text = "x + 1" then .ok (.binary "+" (.ident "x") (.int 1))
    else .error "unexpected token"
  compile := .ok
  run program env := (sum program env).2.map .value

section Addition

variable {env env' : GoMap EnvValue} {node : Node} {n : String} {v : Value}

theorem operand_frame (h : ∀ n ∈ (operand node env).1, GoMap.get env' n = GoMap.get env n) :
    operand node env' = operand node env := by
  unfold operand at h ⊢
  split
  · rfl
  · rename_i x
    have hx : GoMap.get env' x = GoMap.get env x := by
      refine h x ?_
      dsimp only
      split <;> exact List.mem_singleton_self x
    rw [hx]
  · rename_i f x
    dsimp only at h ⊢
    have hx : GoMap.get env' x = GoMap.get env x := by
      refine h x ?_
      split
      · split <;> exact List.mem_cons_self ..
      · exact List.mem_cons_self ..
    rw [hx]
    split
    · rename_i w hw
      have hf : GoMap.get env' f = GoMap.get env f := by
        refine h f ?_
        rw [hw]
        dsimp only
        split <;> simp
      rw [hf]
    · rfl
  · rfl

theorem operand_call_fails (huse : n ∉ node.uses) (hn : GoMap.get env n = some (.value v))
    (hread : n ∈ (operand node env).1) : ∃ e, (operand node env).2 = .error e := by
  unfold operand at hread ⊢
  split at hread
  · cases hread
  · rename_i x
    have hx : n ∈ [x] := by split at hread <;> exact hread
    exact absurd hx (by simpa [Node.uses] using huse)
  · rename_i f x
    have hx : n ≠ x := by simpa [Node.uses, usesOf, Node.isIdent] using huse
    split at hread
    · rename_i w hw
      have hf : n ∈ [x, f] := by split at hread <;> exact hread
      obtain rfl : n = f := by simpa [hx] using hf
      simp only [hn]
      exact ⟨_, rfl⟩
    · exact absurd (List.mem_singleton.mp hread) hx
  · cases hread

theorem sum_frame (h : ∀ n ∈ (sum node env).1, GoMap.get env' n = GoMap.get env n) :
    sum node env' = sum node env := by
  cases node with
  | binary op left right =>
    rw [sum] at h ⊢
    have hleft : operand left env' = operand left env := by
      refine operand_frame fun n hn => h n ?_
      split
      · rename_i ns e hl
        rwa [hl] at hn
      · rename_i ns a hl
        rw [hl] at hn
        exact List.mem_append_left _ hn
    rw [sum, hleft]
    split
    · rfl
    · rename_i ns a hl
      have hright : operand right env' = operand right env := by
        refine operand_frame fun n hn => h n ?_
        rw [hl]
        exact List.mem_append_right _ hn
      rw [hright]
  | _ => rfl

theorem sum_call_fails (huse : n ∉ node.uses) (hn : GoMap.get env n = some (.value v))
    (hread : n ∈ (sum node env).1) : ∃ e, (sum node env).2 = .error e := by
  cases node with
  | binary op left right =>
    rw [Node.uses, List.mem_append, not_or] at huse
    rw [sum] at hread ⊢
    split at hread
    · exact ⟨_, rfl⟩
    · rename_i ns a hl
      rcases List.mem_append.mp hread with hleft | hright
      · obtain ⟨e, he⟩ := operand_call_fails huse.1 hn (by rw [hl]; exact hleft)
        rw [hl] at he
        cases he
      · obtain ⟨e, he⟩ := operand_call_fails huse.2 hn hright
        exact ⟨e, by rw [he]; rfl⟩
  | _ => cases hread

theorem additionLang_looksUp : additionLang.LooksUp fun program env => (sum program env).1 where
  frame := by
    intro tree program env env' _ _ h
    have hsum := sum_frame h
    exact ⟨by show (sum program env').2.map _ = _; rw [hsum]; rfl, by rw [hsum]⟩
  call_fails := by
    intro tree program env n v hcompile huse hn hread
    cases hcompile
    obtain ⟨e, he⟩ := sum_call_fails huse hn hread
    exact ⟨e, by simp [additionLang, he, Except.map]⟩

end Addition

/-! ## Variables that do not matter -/

/-- The expression does not mention the variable, whole environment included,
    and it does not hide a helper the run calls. -/
structure Irrelevant {Program : Type} (lang : ExprLang Program)
    (reads : Program → GoMap EnvValue → List String) (coerce : Bool) (expression : String)
    (vars : GoMap Value) (k : String) : Prop where
  unmentioned : k ∉ referenced lang expression
  noEnv : "$env" ∈ referenced lang expression → GoMap.get vars "$env" = none
  notHidden : k ∈ lookedUp lang reads coerce expression vars → (GoMap.get vars k).isSome

/-- An irrelevant variable does not matter.  Of the variables that are not
    mentioned, only these do not, if the expression has a value without them. -/
theorem irrelevant_variables {Program : Type} (lang : ExprLang Program)
    (reads : Program → GoMap EnvValue → List String) (h : lang.LooksUp reads) (coerce : Bool)
    (expression : String) (vars : GoMap Value) (hkeys : (vars.map (·.1)).Nodup) (k : String)
    (v : Value) :
    (Irrelevant lang reads coerce expression vars k →
      SameResult (evaluate lang coerce expression vars)
        (evaluate lang coerce expression (vars.set k v))) ∧
    (k ∉ referenced lang expression →
      ("$env" ∈ referenced lang expression → GoMap.get vars "$env" = none) →
      (∃ r, evaluate lang coerce expression vars = .ok r) →
      SameResult (evaluate lang coerce expression vars)
        (evaluate lang coerce expression (vars.set k v)) →
      Irrelevant lang reads coerce expression vars k) := by
  constructor
  · intro hirr
    rw [sameResult_iff]
    intro r
    rw [evaluate_eq_ok_iff, evaluate_eq_ok_iff, prepared_set hkeys hirr.unmentioned]
    refine exists_congr fun program => and_congr_right fun hprepared => ?_
    obtain ⟨hfails, hframe, hvar⟩ := run_set h hkeys hirr.unmentioned hirr.noEnv hprepared v
    by_cases hread : k ∈ reads program (environment vars)
    · -- the variable hid the helper already
      have hlooked : k ∈ lookedUp lang reads coerce expression vars := by
        rw [lookedUp, hprepared]
        exact hread
      obtain ⟨e, he⟩ := hvar (hirr.notHidden hlooked) hread
      obtain ⟨e', he'⟩ := hfails hread
      rw [he, he']
      simp
    · rw [hframe hread]
  · intro hk henv ⟨r, hr⟩ hsame
    refine ⟨hk, henv, fun hlooked => ?_⟩
    rw [sameResult_iff] at hsame
    obtain ⟨program, hprepared, -⟩ := evaluate_eq_ok_iff.mp hr
    have hr' := (hsame r).mp hr
    rw [evaluate_eq_ok_iff, prepared_set hkeys hk] at hr'
    obtain ⟨program', hprepared', hrun⟩ := hr'
    rw [hprepared] at hprepared'
    cases hprepared'
    rw [lookedUp, hprepared] at hlooked
    obtain ⟨e, he⟩ := (run_set h hkeys hk henv hprepared v).1 hlooked
    rw [hrun] at he
    cases he

theorem irrelevant_variables_sum :
    SameResult (evaluate additionLang true "x + 1" [("x", .int 2)])
      (evaluate additionLang true "x + 1" (GoMap.set [("x", .int 2)] "y" (.int 5))) :=
  (irrelevant_variables additionLang _ additionLang_looksUp true "x + 1" [("x", .int 2)]
    (by decide) "y" (.int 5)).1
    ⟨by decide +kernel, by decide +kernel, by decide +kernel⟩

/-- A variable named like a helper makes the expression fail. -/
theorem helper_name_hides_function :
    ¬ "__coerceNumber".toList <:+: "x + 1".toList ∧
      ¬ SameResult (evaluate additionLang true "x + 1" [("x", .int 2)])
        (evaluate additionLang true "x + 1"
          (GoMap.set [("x", .int 2)] "__coerceNumber" (.int 5))) := by
  have hvalue : (evaluate additionLang true "x + 1" [("x", .int 2)]).toOption.isSome = true := by
    decide +kernel
  have hfails : (evaluate additionLang true "x + 1"
      (GoMap.set [("x", .int 2)] "__coerceNumber" (.int 5))).toOption.isSome = false := by
    decide +kernel
  refine ⟨by decide, ?_⟩
  rintro (h | ⟨⟨e, he⟩, -⟩)
  · rw [h, hfails] at hvalue
    cases hvalue
  · rw [he] at hvalue
    cases hvalue

end Rochallor
