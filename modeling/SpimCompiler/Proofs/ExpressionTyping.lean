import SpimCompiler.Proofs.TypingGrowth
import SpimCompiler.Proofs.TypingRules

namespace SpimCompiler

theorem HasType.unique {Γ : Env} {e : Tree} {τ σ : TypeName} (h : HasType Γ e τ)
    (h' : HasType Γ e σ) : τ = σ := by
  induction h generalizing σ with
  | parenthesized _ ih =>
    cases h' with
    | parenthesized h' => exact ih h'
  | addSub _ _ ih _ =>
    cases h' with
    | addSub => rfl
    | concat h' _ => exact ih h'
  | concat _ _ ih _ =>
    cases h' with
    | addSub h' _ => exact ih h'
    | concat => rfl
  | variableRef hx =>
    cases h' with
    | variableRef hx' => exact Option.some.inj (hx.symm.trans hx')
  | intLiteral | boolLiteral | stringLiteral | minus | not | mulDiv | compare =>
    cases h'
    rfl

@[simp]
theorem TypeName.isError_toTy (τ : TypeName) : τ.toTy.isError = false := by
  cases τ <;> rfl

theorem TypeName.toTy_ne_error (τ : TypeName) : τ.toTy ≠ .error := by
  cases τ <;> simp [toTy]

theorem TypeName.toTy_injective : Function.Injective TypeName.toTy := by
  intro τ σ h
  cases τ <;> cases σ <;> simp [toTy] at h ⊢

theorem Ty.eq_toTy_or_error {t : Ty} (h : t ≠ .void) :
    (∃ σ : TypeName, t = σ.toTy) ∨ t = .error := by
  cases t with
  | int => exact .inl ⟨.int, rfl⟩
  | bool => exact .inl ⟨.bool, rfl⟩
  | string => exact .inl ⟨.string, rfl⟩
  | void => exact absurd rfl h
  | error => exact .inr rfl

theorem hasType_unary_iff {Γ : Env} {i : NodeId} {op : UnaryOp} {e : Tree} {τ : TypeName} :
    HasType Γ (.mk i (.unary op e)) τ ↔
      ∃ σ, HasType Γ e σ ∧ op.resultType σ.toTy = τ.toTy := by
  constructor
  · intro h
    cases h with
    | minus h => exact ⟨.int, h, rfl⟩
    | not h => exact ⟨.bool, h, rfl⟩
  · rintro ⟨σ, h, hτ⟩
    cases op <;> cases σ <;> cases τ <;> simp [UnaryOp.resultType, TypeName.toTy] at hτ
    · exact .minus h
    · exact .not h

theorem MulDivOp.resultType_ne_void (a b : Ty) : MulDivOp.resultType a b ≠ .void := by
  cases a <;> cases b <;> simp [resultType]

theorem MulDivOp.resultType_error (a : Ty) :
    MulDivOp.resultType .error a = .error ∧ MulDivOp.resultType a .error = .error := by
  cases a <;> simp [resultType]

theorem AddSubOp.resultType_ne_void (op : AddSubOp) (a b : Ty) : op.resultType a b ≠ .void := by
  cases op <;> cases a <;> cases b <;> simp [resultType]

theorem AddSubOp.resultType_error (op : AddSubOp) (a : Ty) :
    op.resultType .error a = .error ∧ op.resultType a .error = .error := by
  cases op <;> cases a <;> simp [resultType]

theorem CompareOp.resultType_ne_void (a b : Ty) : CompareOp.resultType a b ≠ .void := by
  cases a <;> cases b <;> simp [resultType]

theorem CompareOp.resultType_error (a : Ty) :
    CompareOp.resultType .error a = .error ∧ CompareOp.resultType a .error = .error := by
  cases a <;> simp [resultType]

theorem hasType_mulDiv_iff {Γ : Env} {i : NodeId} {op : MulDivOp} {l r : Tree} {ρ : TypeName} :
    HasType Γ (.mk i (.mulDiv op l r)) ρ ↔
      ∃ τ σ, HasType Γ l τ ∧ HasType Γ r σ ∧ MulDivOp.resultType τ.toTy σ.toTy = ρ.toTy := by
  constructor
  · intro h
    cases h with
    | mulDiv hl hr => exact ⟨.int, .int, hl, hr, rfl⟩
  · rintro ⟨τ, σ, hl, hr, hρ⟩
    cases τ <;> cases σ <;> cases ρ <;> simp [MulDivOp.resultType, TypeName.toTy] at hρ
    exact .mulDiv hl hr

theorem hasType_addSub_iff {Γ : Env} {i : NodeId} {op : AddSubOp} {l r : Tree} {ρ : TypeName} :
    HasType Γ (.mk i (.addSub op l r)) ρ ↔
      ∃ τ σ, HasType Γ l τ ∧ HasType Γ r σ ∧ op.resultType τ.toTy σ.toTy = ρ.toTy := by
  constructor
  · intro h
    cases h with
    | addSub hl hr => exact ⟨.int, .int, hl, hr, by cases op <;> rfl⟩
    | concat hl hr => exact ⟨.string, .string, hl, hr, rfl⟩
  · rintro ⟨τ, σ, hl, hr, hρ⟩
    cases op <;> cases τ <;> cases σ <;> cases ρ <;>
      simp [AddSubOp.resultType, TypeName.toTy] at hρ
    · exact .addSub hl hr
    · exact .concat hl hr
    · exact .addSub hl hr

theorem hasType_compare_iff {Γ : Env} {i : NodeId} {op : CompareOp} {l r : Tree} {ρ : TypeName} :
    HasType Γ (.mk i (.compare op l r)) ρ ↔
      ∃ τ σ, HasType Γ l τ ∧ HasType Γ r σ ∧ CompareOp.resultType τ.toTy σ.toTy = ρ.toTy := by
  constructor
  · intro h
    cases h with
    | compare hl hr => exact ⟨.int, .int, hl, hr, rfl⟩
  · rintro ⟨τ, σ, hl, hr, hρ⟩
    cases τ <;> cases σ <;> cases ρ <;> simp [CompareOp.resultType, TypeName.toTy] at hρ
    exact .compare hl hr

/-- Every expression in the tree, which stands in `Γ`, has its derived type in the table. -/
def Annotated (types : TypeTable) (Γ : Env) (t : Tree) : Prop :=
  ∀ Δ e, Stands Γ t Δ e → Derives .expression e →
    ∃ τ, HasType Δ e τ ∧ types.get? e.id = some τ.toTy

theorem Annotated.node {types : TypeTable} {Γ : Env} {i : NodeId} {n : Node Tree}
    (hb : n.kind ≠ .executableBlock) (hv : n.kind ≠ .variableBlock)
    (hn : Derives .expression (.mk i n) → ∃ τ, HasType Γ (.mk i n) τ ∧ types.get? i = some τ.toTy)
    (hc : ∀ c ∈ n.children, Annotated types Γ c) : Annotated types Γ (.mk i n) := by
  intro Δ e hs he
  cases hs with
  | here => exact hn he
  | child _ _ hm hs => exact hc _ hm Δ e hs he
  | vars | body => simp [Node.kind] at hb
  | declaration => simp [Node.kind] at hv

namespace Typing

variable {phrase : NodeId → String} {s s' s'' : Typing} {ts ts' : List Tree} {Γ : Env}

theorem Grows.annotated (h : s.Grows s') {t : Tree} (ht : Annotated s.types Γ t) :
    Annotated s'.types Γ t := by
  intro Δ e hs he
  obtain ⟨τ, hτ, hget⟩ := ht Δ e hs he
  exact ⟨τ, hτ, h.types hget⟩

theorem judged_cons_iff {t : Tree} :
    Judged phrase (t :: ts) s s'' ↔ ∃ s', Judged phrase [t] s s' ∧ Judged phrase ts s' s'' := by
  constructor
  · intro h
    cases h with
    | skip hk h => exact ⟨s, .skip hk .nil, h⟩
    | cons hk hc h => exact ⟨_, .cons hk hc .nil, h⟩
  · rintro ⟨s', h, h'⟩
    exact h.append h'

theorem judged_nil_iff : Judged phrase [] s s' ↔ s' = s :=
  ⟨fun h ↦ by cases h; rfl, fun h ↦ h ▸ .nil⟩

theorem Judged.frame (h : Judged phrase ts s s') {i : NodeId} (hi : i ∉ ts.flatMap Tree.ids) :
    s'.types.get? i = s.types.get? i := by
  induction h with
  | nil => rfl
  | skip _ _ ih =>
    rw [List.flatMap_cons, List.mem_append, not_or] at hi
    exact ih hi.2
  | @cons s s₁ s' j n ts _ _ _ ihc iht =>
    simp only [List.flatMap_cons, Tree.ids_mk, List.mem_append, List.mem_singleton, not_or] at hi
    have hc : s₁.types.get? i = s.types.get? i := ihc hi.1.1
    rw [iht hi.2, ← hc]
    cases hv : (s₁.verdict phrase (n.map Tree.id)).type with
    | none => simp [give, inScope, hv]
    | some type =>
      simp only [give, inScope, hv, Option.elim_some, NodeTable.get?_write]
      rw [if_neg fun h ↦ hi.1.2 h.1.symm]

theorem Judged.inv {i : NodeId} {n : Node Tree} (h : Judged phrase [.mk i n] s s')
    (hk : n.kind ≠ .functionDefinition) (hb : n.kind ≠ .executableBlock) :
    ∃ s₁, Judged phrase n.children s s₁ ∧
      s' = s₁.give i (s₁.verdict phrase (n.map Tree.id)) := by
  cases h with
  | skip hk' _ => exact absurd hk' hk
  | @cons _ s₁ _ _ _ _ _ hc hts =>
    obtain rfl := judged_nil_iff.1 hts
    have hu : n.innerScope s.current = s.current := if_neg hb
    rw [hu] at hc
    have hcur : s₁.current = s.current := hc.grows.current
    refine ⟨s₁, hc, ?_⟩
    simp only [inScope, give, hcur]

/-- The current scope binds the variables of the environment, and no scope around it binds any. -/
structure Sees (s : Typing) (Γ : Env) : Prop where
  current : s.current < s.scopes.scopes.size
  here (x : String) : s.scopes.local? s.current x = (Γ.lookup x).map fun τ ↦ ⟨x, τ.toTy⟩
  outer : ∀ u ∈ s.scopes.outerOf s.current, u ≠ s.current ∧ ∀ x, s.scopes.local? u x = none

theorem Sees.lookup (h : s.Sees Γ) (x : String) :
    s.lookup x = (Γ.lookup x).map fun τ ↦ ⟨x, τ.toTy⟩ := by
  have houter : (s.scopes.outerOf s.current).findSome? (fun u ↦ s.scopes.local? u x) = none := by
    rw [List.findSome?_eq_none_iff]
    exact fun u hu ↦ (h.outer u hu).2 x
  simp only [Typing.lookup, ScopeTree.resolve?, ScopeTree.chain, List.findSome?_cons, h.here]
  cases Γ.lookup x with
  | none => exact houter
  | some τ => rfl

theorem Sees.of_eq (h : s.Sees Γ) (hs : s'.scopes = s.scopes) (hc : s'.current = s.current) :
    s'.Sees Γ := by
  obtain ⟨hcur, hhere, houter⟩ := h
  rw [← hs, ← hc] at *
  exact ⟨hcur, hhere, houter⟩

theorem Sees.define (h : s.Sees Γ) {x : String} (τ : TypeName) (hx : Γ.lookup x = none)
    (hs : s'.scopes = (s.scopes.define s.current x τ.toTy).2) (hc : s'.current = s.current) :
    s'.Sees (Γ ++ [(x, τ)]) := by
  have hget : (s.scopes.get? s.current).isSome := by simp [ScopeTree.get?, h.current]
  refine ⟨?_, fun y ↦ ?_, fun u hu ↦ ?_⟩
  · rw [hs, hc, ScopeTree.size_define]
    exact h.current
  · rw [hs, hc, ScopeTree.local?_define, h.here, List.lookup_append]
    by_cases hy : x = y
    · subst hy
      simp [hx, hget]
    · have hyx : (y == x) = false := by simpa using Ne.symm hy
      cases Γ.lookup y <;> simp [hy, List.lookup_cons, hyx]
  · rw [hs, hc, ScopeTree.outerOf_define] at hu
    obtain ⟨hne, hnone⟩ := h.outer u hu
    rw [hc]
    refine ⟨hne, fun y ↦ ?_⟩
    rw [hs, ScopeTree.local?_define, hnone]
    simp [Ne.symm hne]

/-- What the pass makes of an expression: either it has a type by the rules and gets that, without a
diagnostic, or it has none and gets the type `error`, with a diagnostic unless there is a call. -/
inductive Settled (Γ : Env) (e : Tree) (s s' : Typing) : Prop
  | typed {τ : TypeName} : HasType Γ e τ → s'.types.get? e.id = some τ.toTy →
      s'.report = s.report → Annotated s'.types Γ e → Settled Γ e s s'
  | untyped : (∀ τ, ¬HasType Γ e τ) → s'.types.get? e.id = some .error →
      (e.Plain → s.report.size < s'.report.size) → Settled Γ e s s'

theorem get?_give_type {i : NodeId} {v : Verdict} {type : Ty} (hs : s.types.get? i = none)
    (hv : v.type = some type) : (s.give i v).types.get? i = some type := by
  simp [give, hv, NodeTable.get?_write, hs]

theorem Settled.operation {i : NodeId} {n : Node Tree} {type : Ty} {c : Complaint} {s₁ : Typing}
    (hk : n.kind ≠ .executableBlock ∧ n.kind ≠ .variableBlock)
    (hget : s₁.types.get? i = none) (hgrows : s.Grows s₁)
    (h : (∃ τ, HasType Γ (.mk i n) τ ∧ type = τ.toTy ∧ s₁.report = s.report ∧
        ∀ c ∈ n.children, Annotated s₁.types Γ c) ∨
      ((∀ τ, ¬HasType Γ (.mk i n) τ) ∧ type = .error)) :
    Settled Γ (.mk i n) s (s₁.give i (.operation type c)) := by
  have htype := get?_give_type hget (v := .operation type c) rfl
  obtain ⟨τ, hτ, rfl, hr, hc⟩ | ⟨hno, rfl⟩ := h
  · refine .typed hτ htype ?_ ?_
    · simpa [give, Verdict.operation] using hr
    · exact .node hk.1 hk.2 (fun _ ↦ ⟨τ, hτ, htype⟩) fun c hm ↦
        (s₁.grows_give i _).annotated (hc c hm)
  · refine .untyped hno htype fun _ ↦ ?_
    have hle := hgrows.report
    simp only [give, Verdict.operation, Ty.isError, if_true, Option.elim_some, Array.size_push]
    omega

theorem Settled.type_eq {e : Tree} (h : Settled Γ e s s') (hg : s'.Grows s'') :
    (∃ τ, HasType Γ e τ ∧ s''.type e.id = τ.toTy ∧ s'.report = s.report ∧
        Annotated s''.types Γ e) ∨
      ((∀ τ, ¬HasType Γ e τ) ∧ s''.type e.id = .error) := by
  cases h with
  | typed hτ hget hr ha =>
    exact .inl ⟨_, hτ, by simp [type, hg.types hget], hr, hg.annotated ha⟩
  | untyped hno hget _ => exact .inr ⟨hno, by simp [type, hg.types hget]⟩

def Settles (phrase : NodeId → String) (Γ : Env) (e : Tree) : Prop :=
  ∀ ⦃s s' : Typing⦄, Judged phrase [e] s s' → s.Sees Γ → s.types.Fresh [e] →
    s'.scopes = s.scopes ∧ Settled Γ e s s'

theorem scopes_eq_of_settles {es : List Tree} (hes : ∀ e ∈ es, Settles phrase Γ e)
    (h : Judged phrase es s s') (hs : s.Sees Γ) (hf : s.types.Fresh es) : s'.scopes = s.scopes := by
  induction es generalizing s with
  | nil => rw [judged_nil_iff.1 h]
  | cons e es ih =>
    obtain ⟨s₁, h₁, h₂⟩ := judged_cons_iff.1 h
    have hf' : s.types.Fresh ([e] ++ es) := hf
    obtain ⟨hscopes, -⟩ := hes e List.mem_cons_self h₁ hs hf'.left
    have hs₁ := hs.of_eq hscopes h₁.grows.current
    exact (ih (fun c hc ↦ hes c (List.mem_cons_of_mem e hc)) h₂ hs₁
      (hf'.of_frame fun i hi ↦ h₁.frame hi)).trans hscopes

theorem settles_leaf {i : NodeId} {n : Node Tree} {τ : TypeName}
    (hk : n.kind ≠ .functionDefinition ∧ n.kind ≠ .executableBlock ∧ n.kind ≠ .variableBlock)
    (hc : n.children = [])
    (hv : ∀ s : Typing, s.Sees Γ → s.verdict phrase (n.map Tree.id) = { type := some τ.toTy })
    (hτ : HasType Γ (.mk i n) τ) : Settles phrase Γ (.mk i n) := by
  intro s s' h hs hf
  obtain ⟨s₁, hs₁, rfl⟩ := h.inv hk.1 hk.2.1
  rw [hc, judged_nil_iff] at hs₁
  subst hs₁
  rw [hv s₁ hs]
  have htype : (s₁.give i { type := some τ.toTy }).types.get? i = some τ.toTy :=
    get?_give_type hf.get?_eq_none rfl
  exact ⟨rfl, .typed hτ htype rfl
    (.node hk.2.1 hk.2.2 (fun _ ↦ ⟨τ, hτ, htype⟩) (by simp [hc]))⟩

theorem settles_unary {i : NodeId} {op : UnaryOp} {e : Tree} (he : Settles phrase Γ e) :
    Settles phrase Γ (.mk i (.unary op e)) := by
  intro s s' h hs hf
  obtain ⟨s₁, hs₁, rfl⟩ := h.inv (by simp [Node.kind]) (by simp [Node.kind])
  obtain ⟨hscopes, hset⟩ := he hs₁ hs hf.children
  have hget : s₁.types.get? i = none := (hs₁.frame hf.notMem_children).trans hf.get?_eq_none
  refine ⟨hscopes, .operation (by simp [Node.kind]) hget hs₁.grows ?_⟩
  obtain ⟨τ, hτ, htype, hr, ha⟩ | ⟨hno, htype⟩ := hset.type_eq (.refl s₁)
  · rw [htype]
    have hvoid : op.resultType τ.toTy ≠ .void := by
      cases op <;> cases τ <;> simp [UnaryOp.resultType, TypeName.toTy]
    obtain ⟨σ, hσ⟩ | hσ := Ty.eq_toTy_or_error hvoid
    · exact .inl ⟨σ, hasType_unary_iff.2 ⟨τ, hτ, hσ⟩, hσ, hr, by simpa [Node.children] using ha⟩
    · refine .inr ⟨fun σ h ↦ ?_, hσ⟩
      obtain ⟨τ', hτ', hσ'⟩ := hasType_unary_iff.1 h
      rw [hτ.unique hτ', hσ'] at hσ
      exact σ.toTy_ne_error hσ
  · rw [htype]
    refine .inr ⟨fun σ h ↦ ?_, by cases op <;> rfl⟩
    obtain ⟨τ, hτ, -⟩ := hasType_unary_iff.1 h
    exact hno τ hτ

/-- An operation on two operands is settled if both are, and its typing rule is given by the
function that computes its result type. -/
theorem settles_binary {i : NodeId} {n : Node Tree} {l r : Tree} {result : Ty → Ty → Ty}
    {c : Ty → Ty → Complaint}
    (hk : n.kind ≠ .functionDefinition ∧ n.kind ≠ .executableBlock ∧ n.kind ≠ .variableBlock)
    (hc : n.children = [l, r])
    (hv : ∀ s : Typing, s.verdict phrase (n.map Tree.id) =
      .operation (result (s.type l.id) (s.type r.id)) (c (s.type l.id) (s.type r.id)))
    (hrule : ∀ ρ, HasType Γ (.mk i n) ρ ↔
      ∃ τ σ, HasType Γ l τ ∧ HasType Γ r σ ∧ result τ.toTy σ.toTy = ρ.toTy)
    (hvoid : ∀ τ σ, result τ σ ≠ .void)
    (herror : ∀ τ, result .error τ = .error ∧ result τ .error = .error)
    (hl : Settles phrase Γ l) (hr : Settles phrase Γ r) : Settles phrase Γ (.mk i n) := by
  intro s s' h hs hf
  obtain ⟨s₁, hs₁, rfl⟩ := h.inv hk.1 hk.2.1
  have hget : s₁.types.get? i = none := (hs₁.frame hf.notMem_children).trans hf.get?_eq_none
  have hgrows := hs₁.grows
  have hfresh : s.types.Fresh ([l] ++ [r]) := by simpa [hc] using hf.children
  rw [hc] at hs₁
  obtain ⟨sl, hsl, hsr⟩ := judged_cons_iff.1 hs₁
  obtain ⟨hscopesl, hsetl⟩ := hl hsl hs hfresh.left
  obtain ⟨hscopesr, hsetr⟩ := hr hsr (hs.of_eq hscopesl hsl.grows.current)
    (hfresh.of_frame fun i hi ↦ hsl.frame hi)
  rw [hv]
  refine ⟨hscopesr.trans hscopesl, .operation hk.2 hget hgrows ?_⟩
  obtain ⟨τ, hτ, htypel, hrl, hal⟩ | ⟨hnol, htypel⟩ := hsetl.type_eq hsr.grows
  · obtain ⟨σ, hσ, htyper, hrr, har⟩ | ⟨hnor, htyper⟩ := hsetr.type_eq (.refl s₁)
    · rw [htypel, htyper]
      obtain ⟨ρ, hρ⟩ | hρ := Ty.eq_toTy_or_error (hvoid τ.toTy σ.toTy)
      · refine .inl ⟨ρ, (hrule ρ).2 ⟨τ, σ, hτ, hσ, hρ⟩, hρ, hrr.trans hrl, ?_⟩
        simp [hc, hal, har]
      · refine .inr ⟨fun ρ h ↦ ?_, hρ⟩
        obtain ⟨τ', σ', hτ', hσ', hρ'⟩ := (hrule ρ).1 h
        rw [hτ.unique hτ', hσ.unique hσ', hρ'] at hρ
        exact ρ.toTy_ne_error hρ
    · rw [htyper]
      refine .inr ⟨fun ρ h ↦ ?_, (herror _).2⟩
      obtain ⟨-, σ, -, hσ, -⟩ := (hrule ρ).1 h
      exact hnor σ hσ
  · rw [htypel]
    refine .inr ⟨fun ρ h ↦ ?_, (herror _).1⟩
    obtain ⟨τ, -, hτ, -⟩ := (hrule ρ).1 h
    exact hnol τ hτ

theorem settles_parenthesized {i : NodeId} {e : Tree} (he : Settles phrase Γ e) :
    Settles phrase Γ (.mk i (.parenthesized e)) := by
  intro s s' h hs hf
  obtain ⟨s₁, hs₁, rfl⟩ := h.inv (by simp [Node.kind]) (by simp [Node.kind])
  obtain ⟨hscopes, hset⟩ := he hs₁ hs hf.children
  have hget : s₁.types.get? i = none := (hs₁.frame hf.notMem_children).trans hf.get?_eq_none
  have htype : (s₁.give i { type := some (s₁.type e.id) }).types.get? i = some (s₁.type e.id) :=
    get?_give_type hget rfl
  refine ⟨hscopes, ?_⟩
  cases hset with
  | @typed τ hτ hgete hr ha =>
    have heq : s₁.type e.id = τ.toTy := by simp [type, hgete]
    rw [heq] at htype
    refine .typed (.parenthesized hτ) (by simpa [Node.map, verdict, heq] using htype) hr ?_
    refine .node (by simp [Node.kind]) (by simp [Node.kind]) (fun _ ↦ ⟨τ, .parenthesized hτ, ?_⟩) ?_
    · simpa [Node.map, verdict, heq] using htype
    · simpa [Node.children] using (s₁.grows_give i _).annotated ha
  | untyped hno hgete hr =>
    have heq : s₁.type e.id = .error := by simp [type, hgete]
    rw [heq] at htype
    refine .untyped (fun τ h ↦ ?_) (by simpa [Node.map, verdict, heq] using htype) fun hp ↦ ?_
    · cases h with
      | parenthesized h => exact hno τ h
    · cases hp with
      | mk _ hp => exact hr (hp e (by simp [Node.children]))

theorem settles_variableRef {i : NodeId} {name : String} :
    Settles phrase Γ (.mk i (.variableRef name)) := by
  cases hx : Γ.lookup name with
  | some τ =>
    refine settles_leaf (by simp [Node.kind]) rfl (fun s hs ↦ ?_) (.variableRef hx)
    simp [Node.map, verdict, variableVerdict, hs.lookup, hx]
  | none =>
    intro s s' h hs hf
    obtain ⟨s₁, hs₁, rfl⟩ := h.inv (by simp [Node.kind]) (by simp [Node.kind])
    obtain rfl := judged_nil_iff.1 hs₁
    have hv : s₁.verdict phrase ((Node.variableRef name : Node Tree).map Tree.id) =
        { type := some .error, complaint := some (.undeclaredVariable name) } := by
      simp [Node.map, verdict, variableVerdict, hs.lookup, hx]
    rw [hv]
    refine ⟨rfl, .untyped (fun τ h ↦ ?_) (get?_give_type hf.get?_eq_none rfl) fun _ ↦ ?_⟩
    · cases h with
      | variableRef h => simp [hx] at h
    · simp [give]

theorem settles_call {i : NodeId} {name : String} {arguments : List Tree}
    (ha : ∀ e ∈ arguments, Settles phrase Γ e) :
    Settles phrase Γ (.mk i (.functionCall name arguments)) := by
  intro s s' h hs hf
  obtain ⟨s₁, hs₁, rfl⟩ := h.inv (by simp [Node.kind]) (by simp [Node.kind])
  have hget : s₁.types.get? i = none := (hs₁.frame hf.notMem_children).trans hf.get?_eq_none
  have hscopes : s₁.scopes = s.scopes := scopes_eq_of_settles ha hs₁ hs hf.children
  refine ⟨hscopes, .untyped (fun _ h ↦ by cases h) (get?_give_type hget rfl) fun hp ↦ ?_⟩
  cases hp with
  | mk hn _ => simp [Node.rejection?] at hn

/-- The pass follows the rules on every expression. -/
theorem settles_of_derives {e : Tree} (h : Derives .expression e) : Settles phrase Γ e := by
  induction e with
  | mk i n ih =>
    cases h with
    | intLiteral => exact settles_leaf (by simp [Node.kind]) rfl (fun _ _ ↦ rfl) .intLiteral
    | boolLiteral => exact settles_leaf (by simp [Node.kind]) rfl (fun _ _ ↦ rfl) .boolLiteral
    | stringLiteral => exact settles_leaf (by simp [Node.kind]) rfl (fun _ _ ↦ rfl) .stringLiteral
    | parenthesized h => exact settles_parenthesized (ih _ (by simp [Node.children]) h)
    | unary h => exact settles_unary (ih _ (by simp [Node.children]) h)
    | mulDiv hl hr =>
      exact settles_binary (by simp [Node.kind]) rfl (fun _ ↦ rfl) (fun _ ↦ hasType_mulDiv_iff)
        MulDivOp.resultType_ne_void MulDivOp.resultType_error (ih _ (by simp [Node.children]) hl)
        (ih _ (by simp [Node.children]) hr)
    | addSub hl hr =>
      exact settles_binary (by simp [Node.kind]) rfl (fun _ ↦ rfl) (fun _ ↦ hasType_addSub_iff)
        (AddSubOp.resultType_ne_void _) (AddSubOp.resultType_error _) (ih _ (by simp [Node.children]) hl)
        (ih _ (by simp [Node.children]) hr)
    | compare hl hr =>
      exact settles_binary (by simp [Node.kind]) rfl (fun _ ↦ rfl) (fun _ ↦ hasType_compare_iff)
        CompareOp.resultType_ne_void CompareOp.resultType_error (ih _ (by simp [Node.children]) hl)
        (ih _ (by simp [Node.children]) hr)
    | variableRef => exact settles_variableRef
    | call h => exact settles_call fun e he ↦ ih e (by simpa [Node.children] using he) (h e he)

end Typing

end SpimCompiler
