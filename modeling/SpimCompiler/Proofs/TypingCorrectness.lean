import SpimCompiler.Proofs.ExpressionTyping
import SpimCompiler.Proofs.Outcomes

namespace SpimCompiler

namespace Typing

variable {phrase : NodeId → String} {s s' s'' : Typing} {ts : List Tree} {Γ : Env}

/-- What the pass makes of trees that the rules accept in case of `good`: it makes no diagnostic, or
at least one unless they have rejected constructs. -/
inductive Verified (good : Prop) (Γ : Env) (ts : List Tree) (s s' : Typing) : Prop
  | accepted : good → s'.report = s.report → (∀ t ∈ ts, Annotated s'.types Γ t) →
      Verified good Γ ts s s'
  | refused : ¬good → ((∀ t ∈ ts, t.Plain) → s.report.size < s'.report.size) →
      Verified good Γ ts s s'

def Verifies (phrase : NodeId → String) (Γ : Env) (t : Tree) : Prop :=
  ∀ ⦃s s' : Typing⦄, Judged phrase [t] s s' → s.Sees Γ → s.types.Fresh [t] →
    s'.scopes = s.scopes ∧ Verified (Checks Γ t) Γ [t] s s'

theorem verified_all (hts : ∀ t ∈ ts, Verifies phrase Γ t) (h : Judged phrase ts s s')
    (hs : s.Sees Γ) (hf : s.types.Fresh ts) :
    s'.scopes = s.scopes ∧ Verified (∀ t ∈ ts, Checks Γ t) Γ ts s s' := by
  induction ts generalizing s with
  | nil =>
    obtain rfl := judged_nil_iff.1 h
    exact ⟨rfl, .accepted (by simp) rfl (by simp)⟩
  | cons t ts ih =>
    obtain ⟨s₁, h₁, h₂⟩ := judged_cons_iff.1 h
    have hf' : s.types.Fresh ([t] ++ ts) := hf
    obtain ⟨hscopes, hv⟩ := hts t List.mem_cons_self h₁ hs hf'.left
    obtain ⟨hscopes', hv'⟩ := ih (fun c hc ↦ hts c (List.mem_cons_of_mem t hc)) h₂
      (hs.of_eq hscopes h₁.grows.current) (hf'.of_frame fun i hi ↦ h₁.frame hi)
    refine ⟨hscopes'.trans hscopes, ?_⟩
    have hle := h₁.grows.report
    have hle' := h₂.grows.report
    cases hv with
    | accepted hg hr ha =>
      cases hv' with
      | accepted hg' hr' ha' =>
        refine .accepted (by simpa using ⟨hg, hg'⟩) (hr'.trans hr) ?_
        simpa using ⟨h₂.grows.annotated (ha t (by simp)), ha'⟩
      | refused hg' hr' =>
        refine .refused (fun h ↦ hg' fun c hc ↦ h c (List.mem_cons_of_mem t hc)) fun hp ↦ ?_
        exact Nat.lt_of_le_of_lt hle (hr' fun c hc ↦ hp c (List.mem_cons_of_mem t hc))
    | refused hg hr =>
      refine .refused (fun h ↦ hg (h t List.mem_cons_self)) fun hp ↦ ?_
      exact Nat.lt_of_lt_of_le (hr (by simpa using hp t List.mem_cons_self)) hle'

theorem size_lt_give {i : NodeId} {v : Verdict} (h : v.complaint ≠ none) :
    s.report.size < (s.give i v).report.size := by
  obtain ⟨c, hc⟩ := Option.ne_none_iff_exists'.1 h
  simp [give, hc]

theorem report_give {i : NodeId} {v : Verdict} (h : v.complaint = none) :
    (s.give i v).report = s.report := by
  simp [give, h]

/-- A statement node is verified if its own check and its parts are. -/
theorem Verified.node {i : NodeId} {n : Node Tree} {s₁ : Typing} {v : Verdict}
    (hk : n.kind ≠ .executableBlock ∧ n.kind ≠ .variableBlock)
    (he : ¬Derives .expression (.mk i n)) (hgrows : s.Grows s₁)
    (h : (Checks Γ (.mk i n) ∧ v.complaint = none ∧ s₁.report = s.report ∧
        ∀ c ∈ n.children, Annotated s₁.types Γ c) ∨
      (¬Checks Γ (.mk i n) ∧ ((Tree.mk i n).Plain →
        v.complaint ≠ none ∨ s.report.size < s₁.report.size))) :
    Verified (Checks Γ (.mk i n)) Γ [.mk i n] s (s₁.give i v) := by
  have hg := s₁.grows_give i v
  obtain ⟨hc, hv, hr, ha⟩ | ⟨hc, hv⟩ := h
  · refine .accepted hc ((report_give hv).trans hr) ?_
    simp only [List.mem_singleton, forall_eq]
    exact .node hk.1 hk.2 (fun h ↦ absurd h he) fun c hm ↦ hg.annotated (ha c hm)
  · refine .refused hc fun hp ↦ ?_
    obtain hv | hv := hv (by simpa using hp)
    · exact Nat.lt_of_le_of_lt hgrows.report (size_lt_give hv)
    · exact Nat.lt_of_lt_of_le hv hg.report

theorem verifies_condition {i : NodeId} {n : Node Tree} {condition : Tree} {blocks : List Tree}
    {c : String → Ty → Complaint}
    (hk : n.kind ≠ .functionDefinition ∧ n.kind ≠ .executableBlock ∧ n.kind ≠ .variableBlock)
    (he : ¬Derives .expression (.mk i n)) (hc : n.children = condition :: blocks)
    (hv : ∀ s : Typing, s.verdict phrase (n.map Tree.id) =
      .expected (s.type condition.id = .bool) (c (phrase condition.id) (s.type condition.id)))
    (hrule : Checks Γ (.mk i n) ↔ HasType Γ condition .bool ∧ ∀ b ∈ blocks, Checks Γ b)
    (hcond : Settles phrase Γ condition) (hblocks : ∀ b ∈ blocks, Verifies phrase Γ b) :
    Verifies phrase Γ (.mk i n) := by
  intro s s' h hs hf
  obtain ⟨s₁, hs₁, rfl⟩ := h.inv hk.1 hk.2.1
  have hgrows := hs₁.grows
  have hfresh := hf.children
  rw [hc] at hs₁ hfresh
  obtain ⟨sc, hsc, hsb⟩ := judged_cons_iff.1 hs₁
  have hfresh : s.types.Fresh ([condition] ++ blocks) := hfresh
  obtain ⟨hscopes, hset⟩ := hcond hsc hs hfresh.left
  obtain ⟨hscopes', hver⟩ := verified_all hblocks hsb (hs.of_eq hscopes hsc.grows.current)
    (hfresh.of_frame fun i hi ↦ hsc.frame hi)
  refine ⟨?_, ?_⟩
  · rw [hv]
    exact hscopes'.trans hscopes
  rw [hv]
  refine .node hk.2 he hgrows ?_
  obtain ⟨τ, hτ, htype, hr, ha⟩ | ⟨hno, htype⟩ := hset.type_eq hsb.grows
  · by_cases hbool : τ = .bool
    · subst hbool
      cases hver with
      | accepted hg hr' ha' =>
        refine .inl ⟨hrule.2 ⟨hτ, hg⟩, by simp [Verdict.expected, htype, TypeName.toTy],
          hr'.trans hr, ?_⟩
        simpa [hc] using ⟨ha, ha'⟩
      | refused hg hr' =>
        refine .inr ⟨fun h ↦ hg (hrule.1 h).2, fun hp ↦ .inr ?_⟩
        obtain ⟨-, hp⟩ := hp
        rw [← hr]
        exact hr' fun b hb ↦ hp b (by simp [hc, hb])
    · refine .inr ⟨fun h ↦ hbool (hτ.unique (hrule.1 h).1), fun _ ↦ .inl ?_⟩
      have hne : τ.toTy ≠ .bool := by
        cases τ <;> simp_all [TypeName.toTy]
      simp [Verdict.expected, htype, hne]
  · refine .inr ⟨fun h ↦ hno _ (hrule.1 h).1, fun _ ↦ .inl ?_⟩
    simp [Verdict.expected, htype]

theorem verifies_assignment {i : NodeId} {name : String} {value : Tree}
    (hv : Settles phrase Γ value) : Verifies phrase Γ (.mk i (.assignment name value)) := by
  intro s s' h hs hf
  obtain ⟨s₁, hs₁, rfl⟩ := h.inv (by simp [Node.kind]) (by simp [Node.kind])
  obtain ⟨hscopes, hset⟩ := hv hs₁ hs hf.children
  have hverdict : s₁.verdict phrase ((Node.assignment name value).map Tree.id) =
      s₁.assignmentVerdict name value.id ((Γ.lookup name).map fun τ ↦ ⟨name, τ.toTy⟩) := by
    simp only [Node.map, verdict, (hs.of_eq hscopes hs₁.grows.current).lookup]
  rw [hverdict]
  cases hx : Γ.lookup name with
  | none =>
    refine ⟨hscopes, .node (by simp [Node.kind]) (fun h ↦ by cases h) hs₁.grows (.inr ⟨fun h ↦ ?_, fun _ ↦ .inl ?_⟩)⟩
    · cases h with
      | assignment h _ => simp [hx] at h
    · simp [assignmentVerdict]
  | some τ =>
    refine ⟨hscopes, .node (by simp [Node.kind]) (fun h ↦ by cases h) hs₁.grows ?_⟩
    obtain ⟨σ, hσ, htype, hr, ha⟩ | ⟨hno, htype⟩ := hset.type_eq (.refl s₁)
    · by_cases heq : τ = σ
      · subst heq
        refine .inl ⟨.assignment hx hσ, by simp [assignmentVerdict, Verdict.expected, htype], hr, ?_⟩
        simpa [Node.children] using ha
      · refine .inr ⟨fun h ↦ ?_, fun _ ↦ .inl ?_⟩
        · cases h with
          | assignment h hσ' =>
            rw [hx] at h
            exact heq ((Option.some.inj h).trans (hσ'.unique hσ))
        · have hne : τ.toTy ≠ σ.toTy := fun h ↦ heq (TypeName.toTy_injective h)
          simp [assignmentVerdict, Verdict.expected, htype, hne]
    · refine .inr ⟨fun h ↦ ?_, fun _ ↦ .inl ?_⟩
      · cases h with
        | assignment _ hσ => exact hno _ hσ
      · simp [assignmentVerdict, Verdict.expected, htype, τ.toTy_ne_error]

theorem verifies_printStatement {i : NodeId} {value : Tree} (hv : Settles phrase Γ value) :
    Verifies phrase Γ (.mk i (.printStatement value)) := by
  intro s s' h hs hf
  obtain ⟨s₁, hs₁, rfl⟩ := h.inv (by simp [Node.kind]) (by simp [Node.kind])
  obtain ⟨hscopes, hset⟩ := hv hs₁ hs hf.children
  refine ⟨hscopes, .node (by simp [Node.kind]) (fun h ↦ by cases h) hs₁.grows ?_⟩
  obtain ⟨τ, hτ, htype, hr, ha⟩ | ⟨hno, htype⟩ := hset.type_eq (.refl s₁)
  · refine .inl ⟨.printStatement hτ, by simp [Node.map, verdict, Verdict.expected, htype], hr, ?_⟩
    simpa [Node.children] using ha
  · refine .inr ⟨fun h ↦ ?_, fun _ ↦ .inl ?_⟩
    · cases h with
      | printStatement hτ => exact hno _ hτ
    · simp [Node.map, verdict, Verdict.expected, htype, Ty.isError]

theorem verifies_rejected {i : NodeId} {n : Node Tree}
    (hk : n.kind ≠ .functionDefinition ∧ n.kind ≠ .executableBlock ∧ n.kind ≠ .variableBlock)
    (hv : ∀ s : Typing, (s.verdict phrase (n.map Tree.id)).binding = none)
    (hn : n.rejection? ≠ none) (hrule : ¬Checks Γ (.mk i n))
    (hc : ∀ e ∈ n.children, Settles phrase Γ e) : Verifies phrase Γ (.mk i n) := by
  intro s s' h hs hf
  obtain ⟨s₁, hs₁, rfl⟩ := h.inv hk.1 hk.2.1
  have hscopes : s₁.scopes = s.scopes := scopes_eq_of_settles hc hs₁ hs hf.children
  refine ⟨by simpa [give, hv] using hscopes, .refused hrule fun hp ↦ ?_⟩
  have hp := hp _ (List.mem_singleton_self _)
  cases hp with
  | mk hp _ => exact absurd hp hn

theorem verifies_statementBlock {i : NodeId} {statements : List Tree}
    (hst : ∀ t ∈ statements, Verifies phrase Γ t) :
    Verifies phrase Γ (.mk i (.statementBlock statements)) := by
  intro s s' h hs hf
  obtain ⟨s₁, hs₁, rfl⟩ := h.inv (by simp [Node.kind]) (by simp [Node.kind])
  obtain ⟨hscopes, hver⟩ := verified_all hst hs₁ hs hf.children
  refine ⟨hscopes, .node (by simp [Node.kind]) (fun h ↦ by cases h) hs₁.grows ?_⟩
  cases hver with
  | accepted hg hr ha => exact .inl ⟨.statementBlock hg, rfl, hr, ha⟩
  | refused hg hr =>
    refine .inr ⟨fun h ↦ ?_, fun hp ↦ .inr ?_⟩
    · cases h with
      | statementBlock h => exact hg h
    · cases hp with
      | mk _ hp => exact hr hp

/-- The pass follows the rules on every statement and block of statements. -/
theorem verifies_of_derives {t : Tree} (h : Derives .statement t ∨ Derives .statementBlock t) :
    Verifies phrase Γ t := by
  induction t with
  | mk i n ih =>
    obtain h | h := h
    · cases h with
      | assignment h => exact verifies_assignment (settles_of_derives h)
      | @ifStatement _ condition thenBlock elseBlock hc ht he =>
        refine verifies_condition (by simp [Node.kind]) (fun h ↦ by cases h) rfl (fun _ ↦ rfl) ?_
          (settles_of_derives hc) fun b hb ↦ ih b (by simp_all [Node.children]) (.inr ?_)
        · constructor
          · intro h
            cases h with
            | ifStatement hc ht he => exact ⟨hc, by simpa using ⟨ht, he⟩⟩
          · rintro ⟨hc, hb⟩
            simp only [List.mem_cons, Option.mem_toList, forall_eq_or_imp] at hb
            exact .ifStatement hc hb.1 hb.2
        · simp only [List.mem_cons, Option.mem_toList] at hb
          obtain rfl | hb := hb
          · exact ht
          · exact he b hb
      | @whileStatement _ condition body hc hb =>
        refine verifies_condition (by simp [Node.kind]) (fun h ↦ by cases h) rfl (fun _ ↦ rfl) ?_
          (settles_of_derives hc) fun b hm ↦ ih b (by simp_all [Node.children]) (.inr ?_)
        · constructor
          · intro h
            cases h with
            | whileStatement hc hb => exact ⟨hc, by simpa using hb⟩
          · rintro ⟨hc, hb⟩
            exact .whileStatement hc (hb body (List.mem_singleton_self body))
        · rwa [List.mem_singleton.1 hm]
      | printStatement h => exact verifies_printStatement (settles_of_derives h)
      | callStatement h =>
        exact verifies_rejected (by simp [Node.kind]) (fun _ ↦ rfl) (by simp [Node.rejection?])
          (fun h ↦ by cases h) fun e he ↦ settles_of_derives (h e he)
      | returnStatement h =>
        refine verifies_rejected (by simp [Node.kind]) (fun _ ↦ rfl) (by simp [Node.rejection?])
          (fun h ↦ by cases h) fun e he ↦ settles_of_derives (h e ?_)
        simpa [Node.children] using he
    · cases h with
      | statementBlock h =>
        exact verifies_statementBlock fun t ht ↦ ih t ht (.inl (h t ht))

theorem declared_one {i : NodeId} {name : String} {τ : TypeName} {init : Option Tree}
    (hi : ∀ e ∈ init, Derives .expression e)
    (h : Judged phrase [.mk i (.variableDeclaration name τ init)] s s') (hs : s.Sees Γ)
    (hf : s.types.Fresh [.mk i (.variableDeclaration name τ init)]) :
    (Γ.lookup name = none ∧ (∀ e ∈ init, HasType Γ e τ) ∧ s'.Sees (Γ ++ [(name, τ)]) ∧
      s'.report = s.report ∧
      Annotated s'.types Γ (.mk i (.variableDeclaration name τ init))) ∨
    (¬(Γ.lookup name = none ∧ ∀ e ∈ init, HasType Γ e τ) ∧
      ((Tree.mk i (.variableDeclaration name τ init)).Plain →
        s.report.size < s'.report.size)) := by
  obtain ⟨s₁, hs₁, rfl⟩ := h.inv (by simp [Node.kind]) (by simp [Node.kind])
  have hscopes : s₁.scopes = s.scopes := scopes_eq_of_settles
    (fun e he ↦ settles_of_derives (hi e (by simpa [Node.children] using he))) hs₁ hs hf.children
  have hsees : s₁.Sees Γ := hs.of_eq hscopes hs₁.grows.current
  have hle := hs₁.grows.report
  have hverdict : s₁.verdict phrase ((Node.variableDeclaration name τ init).map Tree.id) =
      s₁.declarationVerdict name τ.toTy (init.map Tree.id)
        ((Γ.lookup name).map fun σ ↦ ⟨name, σ.toTy⟩) := by
    simp only [Node.map, verdict, hsees.here]
  rw [hverdict]
  cases hx : Γ.lookup name with
  | some σ =>
    refine .inr ⟨by simp, fun _ ↦ Nat.lt_of_le_of_lt hle (size_lt_give ?_)⟩
    simp [declarationVerdict]
  | none =>
    have hdefine (v : Verdict) (hv : v.binding = some ⟨name, τ.toTy⟩) :
        (s₁.give i v).Sees (Γ ++ [(name, τ)]) :=
      hsees.define τ hx (by simp [give, hv]) rfl
    cases init with
    | none =>
      obtain rfl := judged_nil_iff.1 hs₁
      refine .inl ⟨rfl, by simp, hdefine _ rfl, report_give rfl, ?_⟩
      exact .node (by simp [Node.kind]) (by simp [Node.kind]) (fun h ↦ by cases h) (by simp [Node.children])
    | some e =>
      obtain ⟨-, hset⟩ := settles_of_derives (hi e rfl) hs₁ hs hf.children
      obtain ⟨σ, hσ, htype, hr, ha⟩ | ⟨hno, htype⟩ := hset.type_eq (.refl s₁)
      · by_cases heq : σ = τ
        · subst heq
          refine .inl ⟨rfl, by simpa using hσ, hdefine _ rfl, ?_, ?_⟩
          · exact (report_give (by simp [declarationVerdict, htype])).trans hr
          · refine .node (by simp [Node.kind]) (by simp [Node.kind]) (fun h ↦ by cases h) ?_
            simpa [Node.children] using (s₁.grows_give i _).annotated ha
        · refine .inr ⟨fun h ↦ heq (hσ.unique (h.2 e rfl)), fun _ ↦
            Nat.lt_of_le_of_lt hle (size_lt_give ?_)⟩
          have hne : σ.toTy ≠ τ.toTy := fun h ↦ heq (TypeName.toTy_injective h)
          simp [declarationVerdict, htype, hne]
      · refine .inr ⟨fun h ↦ hno _ (h.2 e rfl), fun _ ↦ Nat.lt_of_le_of_lt hle (size_lt_give ?_)⟩
        simp [declarationVerdict, htype, Ne.symm τ.toTy_ne_error]

theorem declared_all {ds : List Tree} (hds : ∀ d ∈ ds, Derives .variableDeclaration d)
    (h : Judged phrase ds s s') (hs : s.Sees Γ) (hf : s.types.Fresh ds) :
    (Declares Γ ds (Γ ++ ds.filterMap Tree.binding?) ∧ s'.Sees (Γ ++ ds.filterMap Tree.binding?) ∧
      s'.report = s.report ∧ ∀ pre d post, ds = pre ++ d :: post →
        Annotated s'.types (Γ ++ pre.filterMap Tree.binding?) d) ∨
    ((∀ Γ', ¬Declares Γ ds Γ') ∧ ((∀ d ∈ ds, d.Plain) → s.report.size < s'.report.size)) := by
  induction ds generalizing s Γ with
  | nil =>
    obtain rfl := judged_nil_iff.1 h
    refine .inl ⟨by simpa using .nil, by simpa using hs, rfl, ?_⟩
    simp
  | cons d ds ih =>
    obtain ⟨s₁, h₁, h₂⟩ := judged_cons_iff.1 h
    have hf' : s.types.Fresh ([d] ++ ds) := hf
    have hd := hds d List.mem_cons_self
    cases hd with
    | @variableDeclaration i name τ init hi =>
      obtain ⟨hx, hinit, hs₁, hr, ha⟩ | ⟨hno, hr⟩ := declared_one hi h₁ hs hf'.left
      · obtain ⟨hdec, hs', hr', ha'⟩ | ⟨hno, hr'⟩ :=
          ih (fun c hc ↦ hds c (List.mem_cons_of_mem _ hc)) h₂ hs₁
            (hf'.of_frame fun i hi ↦ h₁.frame hi)
        · have henv : Γ ++ (Tree.mk i (.variableDeclaration name τ init) :: ds).filterMap
              Tree.binding? = Γ ++ [(name, τ)] ++ ds.filterMap Tree.binding? := by
            simp [Tree.binding?]
          rw [henv]
          refine .inl ⟨.cons hx hinit hdec, hs', hr'.trans hr, fun pre c post hsplit ↦ ?_⟩
          cases pre with
          | nil =>
            obtain ⟨rfl, rfl⟩ := List.cons.inj hsplit
            simpa using h₂.grows.annotated ha
          | cons _ pre =>
            obtain ⟨rfl, hsplit'⟩ := List.cons.inj hsplit
            simpa [Tree.binding?] using ha' pre c post hsplit'
        · refine .inr ⟨fun Γ' h ↦ ?_, fun hp ↦ ?_⟩
          · cases h with
            | cons _ _ h => exact hno Γ' h
          · exact hr ▸ hr' fun c hc ↦ hp c (List.mem_cons_of_mem _ hc)
      · refine .inr ⟨fun Γ' h ↦ ?_, fun hp ↦ ?_⟩
        · cases h with
          | cons hx hinit _ => exact hno ⟨hx, hinit⟩
        · exact Nat.lt_of_lt_of_le (hr (hp _ List.mem_cons_self)) h₂.grows.report

theorem sees_nil {report : Report} :
    ({ scopes := ScopeTree.withMain, report : Typing }.inScope ScopeTree.mainScope).Sees [] := by
  have hlocal (u : ScopeId) (x : String) : ScopeTree.withMain.local? u x = none := by
    rw [ScopeTree.withMain, ScopeTree.local?_addChild]
    cases u <;> rfl
  have hsize : ScopeTree.mainScope < ScopeTree.withMain.scopes.size := by decide
  have houter : ∀ u ∈ ScopeTree.withMain.outerOf ScopeTree.mainScope, u ≠ ScopeTree.mainScope := by
    decide
  exact ⟨hsize, fun x ↦ hlocal _ x, fun u hu ↦ ⟨houter u hu, hlocal u⟩⟩

theorem verified_block {vars : Option Tree} {body : Tree} (hv : ∀ v ∈ vars, Derives .variableBlock v)
    (hb : Derives .statementBlock body) (h : Judged phrase (vars.toList ++ [body]) s s')
    (hs : s.Sees []) (hf : s.types.Fresh (vars.toList ++ [body])) {j : NodeId} :
    ((∃ Γ, Declares [] (vars.toList.flatMap Tree.declarations) Γ ∧ Checks Γ body) ∧
      s'.report = s.report ∧ Annotated s'.types [] (.mk j (.executableBlock vars body))) ∨
    ((¬∃ Γ, Declares [] (vars.toList.flatMap Tree.declarations) Γ ∧ Checks Γ body) ∧
      ((∀ c ∈ vars.toList ++ [body], c.Plain) → s.report.size < s'.report.size)) := by
  cases vars with
  | none =>
    obtain ⟨-, hver⟩ := verifies_of_derives (.inr hb) h hs hf
    cases hver with
    | accepted hg hr ha =>
      refine .inl ⟨⟨[], .nil, hg⟩, hr, fun Δ e hst he ↦ ?_⟩
      cases hst with
      | here => cases he
      | child hk => simp [Node.kind] at hk
      | body hst => exact ha body (by simp) Δ e (by simpa using hst) he
    | refused hg hr =>
      refine .inr ⟨?_, fun hp ↦ hr (by simpa using hp)⟩
      rintro ⟨Γ, hd, hg'⟩
      apply hg
      cases hd with
      | nil => exact hg'
  | some v =>
    have hv := hv v rfl
    cases hv with
    | @variableBlock k ds hds =>
      obtain ⟨sv, hsv, hsb⟩ := judged_cons_iff.1 h
      obtain ⟨s₁, hs₁, rfl⟩ := hsv.inv (by simp [Node.kind]) (by simp [Node.kind])
      have hf' : s.types.Fresh ([.mk k (.variableBlock ds)] ++ [body]) := hf
      have hds' : (some (Tree.mk k (.variableBlock ds))).toList.flatMap Tree.declarations = ds := by
        simp [Tree.declarations]
      rw [hds']
      obtain ⟨hdec, hs', hr, ha⟩ | ⟨hno, hr⟩ := declared_all hds hs₁ hs hf'.left.children
      · obtain ⟨-, hver⟩ := verifies_of_derives (.inr hb) hsb hs'
          (hf'.of_frame fun i hi ↦ hsv.frame hi)
        cases hver with
        | accepted hg hr' ha' =>
          refine .inl ⟨⟨_, hdec, hg⟩, hr'.trans hr, fun Δ e hst he ↦ ?_⟩
          cases hst with
          | here => cases he
          | child hk => simp [Node.kind] at hk
          | vars hst =>
            cases hst with
            | here => cases he
            | child _ hk => simp [Node.kind] at hk
            | declaration hst => exact (hsb.grows.annotated (ha _ _ _ rfl)) Δ e hst he
          | body hst => exact ha' body (by simp) Δ e (by simpa [Tree.declarations] using hst) he
        | refused hg hr' =>
          refine .inr ⟨?_, ?_⟩
          · rintro ⟨Γ, hd, hg'⟩
            exact hg (hd.eq_append ▸ hg')
          · intro hp
            exact hr ▸ hr' (by simpa using hp body (by simp))
      · -- the diagnostic of a declaration is still there behind the statements
        refine .inr ⟨by rintro ⟨Γ, hd, _⟩; exact hno Γ hd, fun hp ↦ ?_⟩
        have hpv := hp _ List.mem_cons_self
        cases hpv with
        | mk _ hpv => exact Nat.lt_of_lt_of_le (hr hpv) hsb.grows.report

theorem functions_eq_nil {i : NodeId} {functions : List Tree} {main : Tree}
    (hg : Derives .program (.mk i (.program functions main)))
    (hp : (Tree.mk i (.program functions main)).Plain) : functions = [] := by
  obtain ⟨-, hpc⟩ := hp
  refine List.eq_nil_iff_forall_not_mem.2 fun f hf ↦ ?_
  have hk := (hpc f (by simp [Node.children, hf])).kind_ne
  cases hg with
  | program hfun _ =>
    have hf := hfun f hf
    cases hf with
    | functionDefinition => simp [Node.kind] at hk

/-- The second pass makes no diagnostic on a program without rejected constructs exactly if that is
well typed. -/
theorem judged_program {i : NodeId} {functions : List Tree} {main : Tree}
    (hg : Derives .program (.mk i (.program functions main)))
    (hp : (Tree.mk i (.program functions main)).Plain)
    (hn : (Tree.mk i (.program functions main)).ids.Nodup)
    (h : Judged phrase [.mk i (.program functions main)] { scopes := ScopeTree.forMain main } s') :
    (s'.report = #[] ↔ WellTyped (.mk i (.program functions main))) ∧
      (WellTyped (.mk i (.program functions main)) →
        Annotated s'.types [] (.mk i (.program functions main))) := by
  obtain rfl := functions_eq_nil hg hp
  obtain ⟨-, hpc⟩ := hp
  cases hg with
  | program hfun hmain =>
    cases hmain with
    | @executableBlock j vars body hv hb =>
      obtain ⟨-, hpm⟩ := hpc (.mk j (.executableBlock vars body)) (by simp [Node.children])
      have hf : ({} : TypeTable).Fresh
          [.mk i (.program [] (.mk j (.executableBlock vars body)))] :=
        ⟨by simpa using hn, by simp⟩
      obtain ⟨s₁, hs₁, rfl⟩ := h.inv (by simp [Node.kind]) (by simp [Node.kind])
      cases hs₁ with
      | skip hk => simp [Node.kind] at hk
      | @cons _ s₂ _ _ _ _ _ hs₂ hs₁ =>
        obtain rfl := judged_nil_iff.1 hs₁
        have hrule : WellTyped (.mk i (.program [] (.mk j (.executableBlock vars body)))) ↔
            ∃ Γ, Declares [] (vars.toList.flatMap Tree.declarations) Γ ∧ Checks Γ body := by
          constructor
          · intro h
            cases h with
            | program hd hc => exact ⟨_, hd, hc⟩
          · rintro ⟨Γ, hd, hc⟩
            exact .program hd hc
        have hs₂ : Judged phrase (vars.toList ++ [body])
            ({ scopes := ScopeTree.withMain : Typing }.inScope ScopeTree.mainScope) s₂ := hs₂
        have hreport :
            ({ scopes := ScopeTree.withMain : Typing }.inScope ScopeTree.mainScope).report = #[] := rfl
        rw [hrule]
        obtain ⟨hok, hr, ha⟩ | ⟨hno, hr⟩ :=
          verified_block hv hb hs₂ sees_nil hf.children.children (j := j)
        · have hempty : s₂.report = #[] := hr.trans hreport
          refine ⟨⟨fun _ ↦ hok, fun _ ↦ hempty⟩, fun _ ↦ ?_⟩
          refine .node (by simp [Node.kind]) (by simp [Node.kind]) (fun h ↦ by cases h) fun c hc ↦ ?_
          obtain rfl := List.mem_singleton.1 hc
          exact ha
        · have hlt := hr hpm
          rw [hreport] at hlt
          have hne : s₂.report ≠ #[] := fun h ↦ by simp [h] at hlt
          exact ⟨⟨fun h ↦ absurd h hne, fun h ↦ absurd h hno⟩, fun h ↦ absurd h hno⟩

end Typing

theorem HasType.plain {Γ : Env} {e : Tree} {τ : TypeName} (h : HasType Γ e τ) : e.Plain := by
  induction h with
  | intLiteral | boolLiteral | stringLiteral | variableRef => exact .mk rfl (by simp [Node.children])
  | parenthesized _ ih | minus _ ih | not _ ih => exact .mk rfl (by simpa [Node.children] using ih)
  | mulDiv _ _ ihl ihr | addSub _ _ ihl ihr | concat _ _ ihl ihr | compare _ _ ihl ihr =>
    exact .mk rfl (by simpa [Node.children] using ⟨ihl, ihr⟩)

theorem Checks.plain {Γ : Env} {t : Tree} (h : Checks Γ t) : t.Plain := by
  induction h with
  | statementBlock _ ih => exact .mk rfl ih
  | assignment _ hv => exact .mk rfl (by simpa [Node.children] using hv.plain)
  | ifStatement hc _ _ iht ihe =>
    exact .mk rfl (by simpa [Node.children] using ⟨hc.plain, iht, ihe⟩)
  | whileStatement hc _ ih => exact .mk rfl (by simpa [Node.children] using ⟨hc.plain, ih⟩)
  | printStatement hv => exact .mk rfl (by simpa [Node.children] using hv.plain)

theorem Declares.plain {Γ Γ' : Env} {ds : List Tree} (h : Declares Γ ds Γ') :
    ∀ d ∈ ds, d.Plain := by
  induction h with
  | nil => simp
  | @cons Γ Γ' i name τ init ds _ hinit _ ih =>
    simp only [List.mem_cons, forall_eq_or_imp]
    refine ⟨.mk rfl fun e he ↦ ?_, ih⟩
    exact (hinit e (by simpa [Node.children] using he)).plain

theorem WellTyped.plain {p : Tree} (h : WellTyped p) (hg : Derives .program p) : p.Plain := by
  cases h with
  | @program i j vars body Γ hd hc =>
    cases hg with
    | program _ hmain =>
      cases hmain with
      | executableBlock hv _ =>
        have hvars : ∀ v ∈ vars, v.Plain := by
          intro v hmem
          have hv := hv v hmem
          cases hv with
          | @variableBlock k ds _ =>
            refine .mk rfl fun d hdm ↦ hd.plain d ?_
            simp_all [Tree.declarations, Node.children]
        refine .mk rfl fun c hm ↦ ?_
        obtain rfl : c = .mk j (.executableBlock vars body) := by simpa [Node.children] using hm
        refine .mk rfl fun c hm ↦ ?_
        simp only [Node.children, List.mem_append, Option.mem_toList, List.mem_singleton] at hm
        obtain hm | rfl := hm
        · exact hvars c hm
        · exact hc.plain

namespace Arena

/-- The analysis is sound and complete for the typing rules: of a valid arena that holds a program
of the grammar it reports nothing exactly if the program is well typed, and then every expression
has the type that is derived for it in the environment in which it stands. -/
theorem analyze_correct {a : Arena} {p : Tree} (hv : a.validate = .ok p.id) (hp : a.Holds p)
    (hg : Derives .program p) :
    ∃ r, (a.analyze p.id).outcome.result = .ok r ∧ (r.report = #[] ↔ WellTyped p) ∧
      (WellTyped p → ∀ e, e.Within p → Derives .expression e →
        ∃ Γ τ, Stands [] p Γ e ∧ HasType Γ e τ ∧ r.types.get? e.id = some τ.toTy) := by
  obtain ⟨ha, -⟩ := exists_program hv
  cases hg with
  | @program i functions main hfun hmain =>
    have hg : Derives .program (.mk i (.program functions main)) := .program hfun hmain
    obtain ⟨r, run, hrun, ⟨s, hs, rfl⟩, -⟩ := Pass.ends_iff.1 (ends_analyze ha hp ⟨(), #[]⟩)
    refine ⟨_, result_analyze hrun, ?_⟩
    by_cases hplain : (Tree.mk i (.program functions main)).Plain
    · rw [Tree.plain_iff_rejections.1 hplain] at hs
      obtain ⟨hiff, hann⟩ := Typing.judged_program hg hplain (hp.nodup_ids ha) hs
      refine ⟨hiff, fun hw e he hexp ↦ ?_⟩
      obtain ⟨Γ, hst⟩ := he.stands []
      obtain ⟨τ, hτ, hget⟩ := hann hw Γ e hst hexp
      exact ⟨Γ, τ, hst, hτ, hget⟩
    · have hno : ¬WellTyped (.mk i (.program functions main)) := fun h ↦ hplain (h.plain hg)
      have hreport : s.report ≠ #[] := fun h ↦ hplain <| by
        simpa [Tree.plain_iff_rejections] using hs.grows.report_empty h
      exact ⟨⟨fun h ↦ absurd h hreport, fun h ↦ absurd h hno⟩, fun h ↦ absurd h hno⟩

end Arena

theorem countdown.wellTyped : WellTyped tree := by
  have hn {i : NodeId} : HasType [("n", .int)] (.mk i (.variableRef "n")) .int := .variableRef rfl
  have hloop : Checks [("n", .int)] loop :=
    .whileStatement (.compare hn .intLiteral) (.statementBlock (by
      simpa using ⟨.printStatement hn, .assignment rfl (.addSub hn .intLiteral)⟩))
  have hcheck : Checks [("n", .int)] check := .printStatement (.compare hn .intLiteral)
  refine .program (Γ := [("n", .int)]) ?_ (.statementBlock (by simpa using ⟨hloop, hcheck⟩))
  exact .cons rfl (by simpa using .intLiteral) .nil

theorem countdown.analyze_correct_at :
    countdown.validate = .ok tree.id ∧ countdown.Holds tree ∧ Derives .program tree ∧
      ∃ r, (countdown.analyze tree.id).outcome.result = .ok r ∧ r.report = #[] ∧
        r.types.get? condition.id = some .bool := by
  refine ⟨validate_eq, holds, derives, ?_⟩
  obtain ⟨r, hr, hreport, htypes⟩ := Arena.analyze_correct validate_eq holds derives
  have hmain : condition.Within tree :=
    .child (List.mem_singleton_self _) (.child (.tail _ (List.mem_singleton_self _))
      (.child List.mem_cons_self (.child List.mem_cons_self .refl)))
  obtain ⟨Γ, τ, -, hτ, hget⟩ := htypes wellTyped condition hmain
    (.compare .variableRef .intLiteral)
  cases hτ with
  | compare => exact ⟨r, hr, hreport.2 wellTyped, hget⟩

end SpimCompiler
