import SpimCompiler.Proofs.BlockStructure
import SpimCompiler.Proofs.Verdict

namespace SpimCompiler

def Ty.isValue : Ty → Bool
  | int | bool | string => true
  | void | error => false

@[simp]
theorem TypeName.isValue_toTy (t : TypeName) : t.toTy.isValue := by
  cases t <;> rfl

namespace ScopeTree

structure Extends (t t' : ScopeTree) : Prop where
  size : t'.scopes.size = t.scopes.size
  outerOf (u : ScopeId) : t'.outerOf u = t.outerOf u
  nameOf (u : ScopeId) : t'.nameOf u = t.nameOf u
  found {u : ScopeId} {name : String} {x : Symbol} :
    t.local? u name = some x → t'.local? u name = some x

variable {t t' t'' : ScopeTree}

theorem Extends.refl (t : ScopeTree) : t.Extends t :=
  ⟨rfl, fun _ ↦ rfl, fun _ ↦ rfl, id⟩

theorem Extends.trans (h : t.Extends t') (h' : t'.Extends t'') : t.Extends t'' :=
  ⟨h'.size.trans h.size, fun u ↦ (h'.outerOf u).trans (h.outerOf u),
    fun u ↦ (h'.nameOf u).trans (h.nameOf u), fun hx ↦ h'.found (h.found hx)⟩

@[simp]
theorem nameOf_define (t : ScopeTree) (s : ScopeId) (name : String) (type : Ty) (u : ScopeId) :
    (t.define s name type).2.nameOf u = t.nameOf u := by
  rw [nameOf, get?_define, nameOf]
  split <;> cases t.get? u <;> rfl

theorem extends_define (t : ScopeTree) (s : ScopeId) (name : String) (type : Ty) :
    t.Extends (t.define s name type).2 where
  size := size_define t s name type
  outerOf := outerOf_define t s name type
  nameOf := nameOf_define t s name type
  found hx := by simp [local?_define, hx]

theorem Extends.childNamed?_eq (h : t.Extends t') (s : ScopeId) (name : String) :
    t'.childNamed? s name = t.childNamed? s name := by
  simp only [childNamed?, childrenOf, enclosing?, h.size, h.outerOf, h.nameOf]

theorem Extends.leave_eq (h : t.Extends t') (s : ScopeId) : t'.leave s = t.leave s := by
  simp only [leave, enclosing?, h.outerOf]

theorem Extends.isSome_definingScope? (h : t.Extends t') {s : ScopeId} {name : String}
    (hs : (t.definingScope? s name).isSome) : (t'.definingScope? s name).isSome := by
  simp only [definingScope?, List.find?_isSome, chain, h.outerOf] at hs ⊢
  obtain ⟨u, hu, hx⟩ := hs
  obtain ⟨x, hx⟩ := Option.isSome_iff_exists.1 hx
  exact ⟨u, hu, by simp [h.found hx]⟩

theorem isSome_definingScope?_of_resolve? {s : ScopeId} {name : String} {x : Symbol}
    (h : t.resolve? s name = some x) : (t.definingScope? s name).isSome := by
  obtain ⟨u, hu, hx⟩ := List.exists_of_findSome?_eq_some h
  rw [definingScope?, List.find?_isSome]
  exact ⟨u, hu, by simp [hx]⟩

theorem isSome_definingScope?_define {s : ScopeId} (hs : s < t.scopes.size) (name : String)
    (type : Ty) : ((t.define s name type).2.definingScope? s name).isSome := by
  have hg : (t.get? s).isSome := by simp [get?, hs]
  rw [definingScope?, List.find?_isSome]
  refine ⟨s, by simp [chain], ?_⟩
  cases hx : t.local? s name <;> simp [local?_define, hx, hg]

end ScopeTree

namespace Typing

structure Grows (s s' : Typing) : Prop where
  scopes : s.scopes.Extends s'.scopes
  current : s'.current = s.current
  types {id : NodeId} {type : Ty} : s.types.get? id = some type → s'.types.get? id = some type
  report : s.report.size ≤ s'.report.size

variable {s s' s'' : Typing}

theorem Grows.refl (s : Typing) : s.Grows s := ⟨.refl _, rfl, id, Nat.le_refl _⟩

theorem Grows.trans (h : s.Grows s') (h' : s'.Grows s'') : s.Grows s'' :=
  ⟨h.scopes.trans h'.scopes, h'.current.trans h.current, fun ht ↦ h'.types (h.types ht),
    Nat.le_trans h.report h'.report⟩

theorem Grows.report_empty (h : s.Grows s') (hr : s'.report = #[]) : s.report = #[] := by
  have hle := h.report
  rw [hr] at hle
  exact Array.eq_empty_of_size_eq_zero (by simpa using hle)

theorem grows_give (s : Typing) (id : NodeId) (v : Verdict) : s.Grows (s.give id v) where
  scopes := by
    cases hv : v.binding with
    | none => simpa [give, hv] using .refl _
    | some x => simpa [give, hv] using ScopeTree.extends_define _ _ _ _
  current := rfl
  types {i t} ht := by
    cases hv : v.type with
    | none => simpa [give, hv] using ht
    | some type =>
      simp only [give, hv, Option.elim_some, NodeTable.get?_write]
      split
      · rename_i h
        rw [← h.1, h.2] at ht
        cases ht
      · exact ht
  report := by cases hv : v.complaint <;> simp [give, hv]

theorem complaint_eq_none {id : NodeId} {v : Verdict} (h : (s.give id v).report = #[]) :
    v.complaint = none := by
  cases hc : v.complaint with
  | none => rfl
  | some c => simp [give, hc] at h

/-- The current scope exists, and types are as they should be: a variable has the type of a
declaration, a node such a type or `error`. -/
structure Sound (s : Typing) : Prop where
  current : s.current < s.scopes.scopes.size
  symbols {u : ScopeId} {name : String} {x : Symbol} :
    s.scopes.local? u name = some x → x.type.isValue
  types {id : NodeId} {type : Ty} : s.types.get? id = some type → type = .error ∨ type.isValue

theorem Sound.type (h : s.Sound) (id : NodeId) : s.type id = .error ∨ (s.type id).isValue := by
  unfold Typing.type
  cases ht : s.types.get? id with
  | none => simp
  | some t => exact h.types ht

theorem Sound.lookup (h : s.Sound) {name : String} {x : Symbol} (hx : s.lookup name = some x) :
    x.type.isValue := by
  obtain ⟨u, -, hu⟩ := List.exists_of_findSome?_eq_some hx
  exact h.symbols hu

theorem Sound.verdict_type (h : s.Sound) {phrase : NodeId → String} {n : Node NodeId} {type : Ty}
    (ht : (s.verdict phrase n).type = some type) : type = .error ∨ type.isValue := by
  cases n with
  | variableDeclaration name declared init =>
    cases hx : s.scopes.local? s.current name <;> simp [verdict, declarationVerdict, hx] at ht
  | assignment name value =>
    cases hx : s.lookup name <;> simp [verdict, assignmentVerdict, hx, Verdict.expected] at ht
  | variableRef name =>
    cases hx : s.lookup name with
    | none => simp_all [verdict, variableVerdict]
    | some x =>
      simp only [verdict, variableVerdict, hx, Option.some.injEq] at ht
      exact .inr (ht ▸ h.lookup hx)
  | parenthesized expression =>
    simp only [verdict, Option.some.injEq] at ht
    exact ht ▸ h.type expression
  | unary op operand =>
    simp only [verdict, Verdict.operation, Option.some.injEq] at ht
    subst ht
    cases op <;> cases s.type operand <;> simp [UnaryOp.resultType, Ty.isValue]
  | mulDiv op lhs rhs =>
    simp only [verdict, Verdict.operation, Option.some.injEq] at ht
    subst ht
    cases s.type lhs <;> cases s.type rhs <;> simp [MulDivOp.resultType, Ty.isValue]
  | addSub op lhs rhs =>
    simp only [verdict, Verdict.operation, Option.some.injEq] at ht
    subst ht
    cases op <;> cases s.type lhs <;> cases s.type rhs <;> simp [AddSubOp.resultType, Ty.isValue]
  | compare op lhs rhs =>
    simp only [verdict, Verdict.operation, Option.some.injEq] at ht
    subst ht
    cases s.type lhs <;> cases s.type rhs <;> simp [CompareOp.resultType, Ty.isValue]
  | intLiteral | boolLiteral | stringLiteral | functionCall =>
    simp only [verdict, Option.some.injEq] at ht
    subst ht
    simp [Ty.isValue]
  | _ => simp [verdict, Verdict.expected] at ht

theorem eq_of_binding {phrase : NodeId → String} {n : Node NodeId} {y : Symbol}
    (h : (s.verdict phrase n).binding = some y) :
    ∃ name type init, n = .variableDeclaration name type init ∧ y = ⟨name, type.toTy⟩ := by
  cases n with
  | variableDeclaration name type init =>
    cases hl : s.scopes.local? s.current name <;> simp [verdict, declarationVerdict, hl] at h
    exact ⟨name, type, init, rfl, h.symm⟩
  | assignment name value =>
    cases hl : s.lookup name <;> simp [verdict, assignmentVerdict, hl, Verdict.expected] at h
  | variableRef name => cases hl : s.lookup name <;> simp [verdict, variableVerdict, hl] at h
  | _ => simp [verdict, Verdict.expected, Verdict.operation] at h

theorem Sound.verdict_binding {phrase : NodeId → String} {n : Node NodeId} {x : Symbol}
    (hx : (s.verdict phrase n).binding = some x) : x.type.isValue := by
  obtain ⟨-, type, -, -, rfl⟩ := eq_of_binding hx
  exact type.isValue_toTy

theorem Sound.give (h : s.Sound) {phrase : NodeId → String} (id : NodeId) (n : Node NodeId) :
    (s.give id (s.verdict phrase n)).Sound where
  current := by
    rw [(s.grows_give id _).current, (s.grows_give id _).scopes.size]
    exact h.current
  symbols {u name x} hx := by
    cases hb : (s.verdict phrase n).binding with
    | none => exact h.symbols (by simpa [Typing.give, hb] using hx)
    | some y =>
      simp only [Typing.give, hb, Option.elim_some, ScopeTree.local?_define, Option.or_eq_some_iff] at hx
      obtain hx | ⟨-, hx⟩ := hx
      · exact h.symbols hx
      · split at hx
        · cases hx
          exact verdict_binding hb
        · cases hx
  types {i type} ht := by
    cases hv : (s.verdict phrase n).type with
    | none => exact h.types (by simpa [Typing.give, hv] using ht)
    | some t =>
      simp only [Typing.give, hv, Option.elim_some, NodeTable.get?_write] at ht
      split at ht
      · cases ht
        exact h.verdict_type hv
      · exact h.types ht

end Typing

namespace Typing

def inScope (s : Typing) (u : ScopeId) : Typing := { s with current := u }

/-- The pass goes from one state to the other through some trees: below each node first, and then it
gives its verdict on the node. -/
inductive Judged (phrase : NodeId → String) : List Tree → Typing → Typing → Prop
  | nil {s : Typing} : Judged phrase [] s s
  | skip {s s' : Typing} {i : NodeId} {n : Node Tree} {ts : List Tree} :
      n.kind = .functionDefinition → Judged phrase ts s s' → Judged phrase (.mk i n :: ts) s s'
  | cons {s s₁ s' : Typing} {i : NodeId} {n : Node Tree} {ts : List Tree} :
      n.kind ≠ .functionDefinition →
      Judged phrase n.children (s.inScope (n.innerScope s.current)) s₁ →
      Judged phrase ts
        ((s₁.give i (s₁.verdict phrase (n.map Tree.id))).inScope s.current) s' →
      Judged phrase (.mk i n :: ts) s s'

variable {phrase : NodeId → String} {s s' s'' : Typing} {ts ts' : List Tree}

theorem Judged.append (h : Judged phrase ts s s') (h' : Judged phrase ts' s' s'') :
    Judged phrase (ts ++ ts') s s'' := by
  induction h with
  | nil => exact h'
  | skip hk _ ih => exact .skip hk (ih h')
  | cons hk hc _ _ ih => exact .cons hk hc (ih h')

theorem Judged.grows (h : Judged phrase ts s s') : s.Grows s' := by
  induction h with
  | nil => exact .refl _
  | skip _ _ ih => exact ih
  | @cons s s₁ s' i n ts _ _ _ ihc iht =>
    have hg := s₁.grows_give i (s₁.verdict phrase (n.map Tree.id))
    have hnode : s.Grows ((s₁.give i (s₁.verdict phrase (n.map Tree.id))).inScope s.current) :=
      ⟨ihc.scopes.trans hg.scopes, rfl, fun ht ↦ hg.types (ihc.types ht),
        Nat.le_trans ihc.report hg.report⟩
    exact hnode.trans iht

end Typing

theorem Tree.Placed.extends {scopes scopes' : ScopeTree} (h : scopes.Extends scopes')
    {u : ScopeId} {t : Tree} (ht : t.Placed scopes u) : t.Placed scopes' u := by
  induction ht with
  | mk hb _ ih =>
    refine .mk (fun hk ↦ ?_) ih
    rw [h.childNamed?_eq, h.leave_eq]
    exact hb hk

namespace Typing

variable {a : Arena}

theorem ends_enter_node (a : Arena) {n : Node NodeId} {i : NodeId} {run : Run Typing}
    {Q : Bool → Run Typing → Prop}
    (hb : n.kind = .executableBlock →
      run.state.scopes.childNamed? run.state.current ScopeTree.mainName = some ScopeTree.mainScope)
    (h : Q (n.kind ≠ .functionDefinition)
      ⟨run.state.inScope (n.innerScope run.state.current), run.trace⟩) :
    ((visitor a).enter i n).Ends run Q := by
  by_cases hk : n.kind = .executableBlock
  · cases n <;> simp_all [visitor, enter, enterScope, Node.kind, Node.innerScope, inScope]
  · rw [Node.innerScope, if_neg hk] at h
    exact ends_enter hk h

theorem ends_exit_node {a : Arena} {phrase : NodeId → String} {id : NodeId} {n : Node NodeId}
    (hp : ∀ c ∈ n.children, a.phrase c = .ok (phrase c)) {run : Run Typing} {u : ScopeId}
    (hu : run.state.current = n.innerScope u)
    (hb : n.kind = .executableBlock → run.state.scopes.leave ScopeTree.mainScope = u)
    {Q : Unit → Run Typing → Prop}
    (h : ∀ trace, Q () ⟨(run.state.give id (run.state.verdict phrase n)).inScope u, trace⟩) :
    ((visitor a).exit id n).Ends run Q := by
  by_cases hk : n.kind = .executableBlock
  · rw [Node.innerScope, if_pos hk] at hu
    cases n <;> simp_all [visitor, exit, leaveScope, Node.kind, inScope, verdict, give]
  · rw [Node.innerScope, if_neg hk] at hu
    subst hu
    exact ends_exit hp hk h

theorem ends_walk_all {cs : List Tree}
    (hcs : ∀ c ∈ cs, ∀ run : Run Typing, c.Placed run.state.scopes run.state.current →
      (c.walk (visitor a)).Ends run fun _ r ↦ Judged a.phraseOf [c] run.state r.state)
    {run : Run Typing} (hp : ∀ c ∈ cs, c.Placed run.state.scopes run.state.current) :
    Pass.Ends (cs.forM (Tree.walk (visitor a))) run fun _ r ↦
      Judged a.phraseOf cs run.state r.state := by
  refine Pass.ends_forM (fun done r ↦ Judged a.phraseOf done run.state r.state) .nil ?_
  intro done c rest r hn hr
  have hc : c ∈ cs := by simp [hn]
  refine (hcs c hc r ?_).mono fun _ r' hr' ↦ hr.append hr'
  rw [hr.grows.current]
  exact (hp c hc).extends hr.grows.scopes

/-- The second pass comes to an end, and is described by its verdicts. -/
theorem ends_walk (ha : a.IsForest) {t : Tree} (ht : a.Holds t) (run : Run Typing)
    (hp : t.Placed run.state.scopes run.state.current) :
    (t.walk (visitor a)).Ends run fun _ r ↦ Judged a.phraseOf [t] run.state r.state := by
  induction t generalizing run with
  | mk i n ih =>
    obtain ⟨hb, hpc⟩ := hp
    rw [Pass.ends_walk]
    refine ends_enter_node a (fun hk ↦ (hb (by simpa using hk)).1) ?_
    by_cases hd : n.kind = .functionDefinition
    · simp only [Node.kind_map, hd, ne_eq, not_true_eq_false, decide_false, Bool.false_eq_true,
        if_false, Node.innerScope, reduceCtorEq]
      exact .skip hd .nil
    · simp only [Node.kind_map, ne_eq, hd, not_false_eq_true, decide_true, if_true]
      have hphrase := fun c (hc : c ∈ (n.map Tree.id).children) ↦ ht.phrase_child ha hc
      rw [Node.innerScope_map]
      refine (ends_walk_all (fun c hc run hp ↦ ih c hc (ht.child hc) run hp) (hpc hd)).mono
        fun _ r hr ↦ ends_exit_node hphrase ?_ (fun hk ↦ ?_) fun _ ↦ .cons hd hr .nil
      · rw [Node.innerScope_map]
        exact hr.grows.current
      · rw [hr.grows.scopes.leave_eq]
        exact (hb (by simpa using hk)).2

end Typing

/-- What the generator looks up for a node: the scope of a variable, the type of an operand. -/
def Node.Ready (scopes : ScopeTree) (current : ScopeId) (types : TypeTable) (id : NodeId) :
    Node NodeId → Prop
  | .variableDeclaration name .. | .assignment name _ | .variableRef name =>
    (scopes.definingScope? current name).isSome
  | .printStatement value => ∃ type, types.get? value = some type ∧ type.isValue
  | .addSub .. => (types.get? id).isSome
  | _ => True

inductive Tree.Ready (scopes : ScopeTree) (types : TypeTable) : ScopeId → Tree → Prop
  | mk {u : ScopeId} {i : NodeId} {n : Node Tree} :
      (n.map Tree.id).Ready scopes (n.innerScope u) types i →
      (∀ c ∈ n.children, c.Ready scopes types (n.innerScope u)) → Ready scopes types u (.mk i n)

namespace Typing

variable {s s' : Typing}

theorem Grows.node_ready (h : s.Grows s') {u : ScopeId} {id : NodeId} {n : Node NodeId}
    (hn : n.Ready s.scopes u s.types id) : n.Ready s'.scopes u s'.types id := by
  cases n with
  | variableDeclaration | assignment | variableRef => exact h.scopes.isSome_definingScope? hn
  | printStatement value =>
    obtain ⟨type, ht, hv⟩ := hn
    exact ⟨type, h.types ht, hv⟩
  | addSub =>
    obtain ⟨type, ht⟩ := Option.isSome_iff_exists.1 hn
    exact Option.isSome_iff_exists.2 ⟨type, h.types ht⟩
  | _ => exact hn

theorem Grows.ready (h : s.Grows s') {u : ScopeId} {t : Tree}
    (ht : t.Ready s.scopes s.types u) : t.Ready s'.scopes s'.types u := by
  induction ht with
  | mk hn _ ih => exact .mk (h.node_ready hn) ih

theorem Sound.node_ready (h : s.Sound) {phrase : NodeId → String} {id : NodeId}
    {n : Node NodeId} (hc : (s.verdict phrase n).complaint = none) :
    n.Ready (s.give id (s.verdict phrase n)).scopes s.current
      (s.give id (s.verdict phrase n)).types id := by
  have hgrows := s.grows_give id (s.verdict phrase n)
  cases n with
  | variableDeclaration name declared init =>
    cases hx : s.scopes.local? s.current name with
    | some x => simp [verdict, declarationVerdict, hx] at hc
    | none =>
      simpa [Node.Ready, Typing.give, verdict, declarationVerdict, hx] using
        ScopeTree.isSome_definingScope?_define h.current name declared.toTy
  | assignment name value =>
    cases hx : s.lookup name with
    | none => simp [verdict, assignmentVerdict, hx] at hc
    | some x =>
      exact hgrows.node_ready (n := .assignment name value)
        (ScopeTree.isSome_definingScope?_of_resolve? hx)
  | variableRef name =>
    cases hx : s.lookup name with
    | none => simp [verdict, variableVerdict, hx] at hc
    | some x =>
      exact hgrows.node_ready (n := .variableRef name)
        (ScopeTree.isSome_definingScope?_of_resolve? hx)
  | printStatement value =>
    refine hgrows.node_ready (n := .printStatement value) ?_
    have he : (s.type value).isError = false := by simpa [verdict, Verdict.expected] using hc
    unfold Typing.type at he
    cases ht : s.types.get? value with
    | none => simp [ht, Ty.isError] at he
    | some type =>
      obtain rfl | hv := h.types ht
      · simp [ht, Ty.isError] at he
      · exact ⟨type, ht, hv⟩
  | addSub op lhs rhs =>
    simp only [Node.Ready, Typing.give, verdict, Verdict.operation, Option.elim_some,
      NodeTable.get?_write, true_and]
    split
    · rfl
    · exact Option.isSome_iff_ne_none.2 (by assumption)
  | _ => trivial

theorem Sound.inScope (h : s.Sound) {u : ScopeId} (hu : u < s.scopes.scopes.size) :
    (s.inScope u).Sound :=
  ⟨hu, h.symbols, h.types⟩

end Typing

theorem ScopeTree.lt_of_childNamed? {t : ScopeTree} {u v : ScopeId} {name : String}
    (h : t.childNamed? u name = some v) : v < t.scopes.size := by
  have hv := List.mem_of_find?_eq_some h
  rw [childrenOf, List.mem_filter, List.mem_range] at hv
  exact hv.1

namespace Typing

variable {phrase : NodeId → String} {s s' : Typing} {ts : List Tree}

theorem Sound.inner (h : s.Sound) {i : NodeId} {n : Node Tree}
    (hp : (Tree.mk i n).Placed s.scopes s.current) : (s.inScope (n.innerScope s.current)).Sound := by
  obtain ⟨hb, -⟩ := hp
  refine h.inScope ?_
  unfold Node.innerScope
  split
  · exact ScopeTree.lt_of_childNamed? (hb ‹_›).1
  · exact h.current

/-- What holds behind the pass, if the trees stand in their scopes: types are as they should be, and
without a diagnostic all is ready for the generator. -/
theorem Judged.checked (h : Judged phrase ts s s') (hs : s.Sound)
    (hp : ∀ t ∈ ts, t.Placed s.scopes s.current) :
    s'.Sound ∧
      (s'.report = #[] → ∀ t ∈ ts, t.Plain → t.Ready s'.scopes s'.types s.current) := by
  induction h with
  | nil => exact ⟨hs, by simp⟩
  | @skip s s' i n ts hk _ ih =>
    obtain ⟨hs', hr⟩ := ih hs fun t ht ↦ hp t (List.mem_cons_of_mem _ ht)
    refine ⟨hs', fun he t ht hpl ↦ ?_⟩
    obtain rfl | ht := List.mem_cons.1 ht
    · exact absurd hk hpl.kind_ne
    · exact hr he t ht hpl
  | @cons s s₁ s' i n ts hk hc hts ihc iht =>
    have hinner := hs.inner (hp _ List.mem_cons_self)
    obtain ⟨-, hpc⟩ := hp _ List.mem_cons_self
    obtain ⟨hs₁, hr₁⟩ := ihc hinner (hpc hk)
    have hcur : s₁.current = n.innerScope s.current := hc.grows.current
    have hgive := s₁.grows_give i (s₁.verdict phrase (n.map Tree.id))
    have hx := hc.grows.scopes.trans hgive.scopes
    have hs₂ : ((s₁.give i (s₁.verdict phrase (n.map Tree.id))).inScope s.current).Sound :=
      (hs₁.give i (n.map Tree.id)).inScope (hx.size ▸ hs.current)
    obtain ⟨hs', hr⟩ := iht hs₂ fun t ht ↦ (hp t (List.mem_cons_of_mem _ ht)).extends hx
    refine ⟨hs', fun he t ht hpl ↦ ?_⟩
    obtain rfl | ht := List.mem_cons.1 ht
    · have he₂ := hts.grows.report_empty he
      have hcomplaint : (s₁.verdict phrase (n.map Tree.id)).complaint = none := by
        cases hv : (s₁.verdict phrase (n.map Tree.id)).complaint with
        | none => rfl
        | some c => simp [Typing.give, inScope, hv] at he₂
      obtain ⟨-, hpl⟩ := hpl
      have hready : (Tree.mk i n).Ready (s₁.give i (s₁.verdict phrase (n.map Tree.id))).scopes
          (s₁.give i (s₁.verdict phrase (n.map Tree.id))).types s.current :=
        .mk (hcur ▸ hs₁.node_ready hcomplaint) fun c hm ↦
          hgive.ready (hr₁ (hgive.report_empty he₂) c hm (hpl c hm))
      exact hts.grows.ready hready
    · exact hr he t ht hpl

theorem sound_forMain (main : Tree) (report : Report) :
    { scopes := ScopeTree.forMain main, report : Typing }.Sound where
  current := by
    have h : ScopeTree.globalScope < ScopeTree.initial.scopes.size ∧
        ScopeTree.globalScope < ScopeTree.withMain.scopes.size := by decide
    simp only [ScopeTree.forMain]
    split
    · exact h.2
    · exact h.1
  symbols {u name x} hx := by
    have h : (ScopeTree.forMain main).local? u name = none := by
      simp only [ScopeTree.forMain, ScopeTree.withMain]
      split
      · rw [ScopeTree.local?_addChild]
        cases u <;> rfl
      · cases u <;> rfl
    simp [h] at hx
  types ht := by simp at ht

end Typing

end SpimCompiler
