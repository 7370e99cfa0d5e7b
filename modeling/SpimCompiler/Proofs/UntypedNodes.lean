import SpimCompiler.Proofs.ExpressionTyping
import SpimCompiler.Proofs.WrittenTables

namespace SpimCompiler

/-- Parentheses, maybe several pairs of them, around something that is no expression. -/
inductive Arena.Hollow (a : Arena) : NodeId → Prop
  | around {i e : NodeId} {n : Node NodeId} :
      a.get? i = some (.parenthesized e) → a.get? e = some n → n.isExpression = false → a.Hollow i
  | parenthesized {i e : NodeId} :
      a.get? i = some (.parenthesized e) → a.Hollow e → a.Hollow i

inductive Tree.Hollow : Tree → Prop
  | around {i : NodeId} {e : Tree} :
      e.node.isExpression = false → Hollow (.mk i (.parenthesized e))
  | parenthesized {i : NodeId} {e : Tree} : Hollow e → Hollow (.mk i (.parenthesized e))

theorem Tree.hollow_parenthesized_iff {i : NodeId} {e : Tree} :
    (Tree.mk i (.parenthesized e)).Hollow ↔ e.node.isExpression = false ∨ e.Hollow := by
  constructor
  · intro h
    cases h with
    | around h => exact .inl h
    | parenthesized h => exact .inr h
  · rintro (h | h)
    · exact .around h
    · exact .parenthesized h

theorem Tree.Hollow.kind_eq {t : Tree} (h : t.Hollow) : t.node.kind = .parenthesized := by
  cases h <;> rfl

namespace Arena

variable {a : Arena} {t : Tree}

theorem Hollow.exists_parenthesized {i : NodeId} (h : a.Hollow i) :
    ∃ e, a.get? i = some (.parenthesized e) := by
  cases h with
  | around h => exact ⟨_, h⟩
  | parenthesized h => exact ⟨_, h⟩

theorem Holds.hollow_iff (ht : a.Holds t) : a.Hollow t.id ↔ t.Hollow := by
  constructor
  · intro h
    generalize hi : t.id = i at h
    induction h generalizing t with
    | @around i e n hn he hexp =>
      subst hi
      obtain ⟨j, m⟩ := t
      have hm := ht.get?.symm.trans hn
      cases m <;> simp [Node.map] at hm
      subst hm
      have hget := (ht.child (by simp [Node.children])).get?.symm.trans he
      obtain rfl := Option.some.inj hget
      exact .around (by simpa using hexp)
    | @parenthesized i e hn _ ih =>
      subst hi
      obtain ⟨j, m⟩ := t
      have hm := ht.get?.symm.trans hn
      cases m <;> simp [Node.map] at hm
      exact .parenthesized (ih (ht.child (by simp [Node.children])) hm)
  · intro h
    induction h with
    | @around i e h =>
      have he : a.Holds e := ht.child (by simp [Node.children])
      exact .around ht.get? he.get? (by simpa using h)
    | parenthesized _ ih => exact .parenthesized ht.get? (ih (ht.child (by simp [Node.children])))

end Arena

namespace Typing

variable {phrase : NodeId → String} {s s' : Typing} {ts : List Tree}

/-- What the type of a node should be: none if the node is no expression, and `error` exactly for
hollow parentheses. -/
def Fits (t : Tree) : Option Ty → Prop
  | none => t.node.isExpression = false
  | some type => t.node.isExpression = true ∧ (type = .error ↔ t.Hollow)

theorem fits_of_ne_error {i : NodeId} {n : Node Tree} {type : Ty} (hn : n.isExpression)
    (hk : n.kind ≠ .parenthesized) (ht : type ≠ .error) : Fits (.mk i n) (some type) :=
  ⟨hn, iff_of_false ht fun h ↦ hk h.kind_eq⟩

theorem ne_error_of_operation {type : Ty} {c : Complaint}
    (h : (Verdict.operation type c).complaint = none) : type ≠ .error := by
  rintro rfl
  simp [Verdict.operation, Ty.isError] at h

/-- Without a complaint about it, a node gets a type that fits if those of its children do. -/
theorem Sound.fits_verdict (hs : s.Sound) (i : NodeId) {n : Node Tree} (hn : n.rejection? = none)
    (hcomplaint : (s.verdict phrase (n.map Tree.id)).complaint = none)
    (hc : ∀ c ∈ n.children, Fits c (s.types.get? c.id)) :
    Fits (.mk i n) (s.verdict phrase (n.map Tree.id)).type := by
  cases n with
  | functionDefinition | functionCall | returnStatement => simp [Node.rejection?] at hn
  | program | executableBlock | variableBlock | statementBlock | ifStatement | whileStatement
  | printStatement => rfl
  | variableDeclaration name declared init =>
    cases hx : s.scopes.local? s.current name <;>
      simp [Node.map, verdict, declarationVerdict, hx, Fits, Node.isExpression, Node.kind,
        Kind.isExpression]
  | assignment name value =>
    cases hx : s.lookup name <;>
      simp [Node.map, verdict, assignmentVerdict, hx, Fits, Node.isExpression, Node.kind,
        Kind.isExpression, Verdict.expected]
  | intLiteral | boolLiteral | stringLiteral =>
    exact fits_of_ne_error rfl (by simp [Node.kind]) (by simp)
  | parenthesized e =>
    have he := hc e (by simp [Node.children])
    refine ⟨rfl, ?_⟩
    rw [Tree.hollow_parenthesized_iff, Typing.type]
    cases ht : s.types.get? e.id with
    | none =>
      rw [ht] at he
      exact iff_of_true rfl (.inl he)
    | some τ =>
      rw [ht] at he
      obtain ⟨hexp, herr⟩ := he
      simp [hexp, herr]
  | unary | mulDiv | addSub | compare =>
    exact fits_of_ne_error rfl (by simp [Node.kind]) (ne_error_of_operation hcomplaint)
  | variableRef name =>
    cases hx : s.lookup name with
    | none => simp [Node.map, verdict, variableVerdict, hx] at hcomplaint
    | some x =>
      have hvalue := hs.lookup hx
      simp only [Node.map, verdict, variableVerdict, hx]
      refine fits_of_ne_error rfl (by simp [Node.kind]) fun he ↦ ?_
      simp [he, Ty.isValue] at hvalue

theorem get?_give {i : NodeId} {v : Verdict} (hs : s.types.get? i = none) (j : NodeId) :
    (s.give i v).types.get? j = if i = j then v.type else s.types.get? j := by
  cases hv : v.type with
  | none =>
    simp only [give, hv, Option.elim_none]
    split
    · rename_i h
      rw [← h, hs]
    · rfl
  | some type => simp [give, hv, NodeTable.get?_write, hs]

theorem Judged.fits (h : Judged phrase ts s s') (hs : s.Sound)
    (hplaced : ∀ t ∈ ts, t.Placed s.scopes s.current) (hf : s.types.Fresh ts)
    (hp : ∀ t ∈ ts, t.Plain) (hr : s'.report = #[]) :
    ∀ t ∈ ts, ∀ u ∈ t.postorder, Fits u (s'.types.get? u.id) := by
  induction h with
  | nil => simp
  | skip hk => exact absurd hk (hp _ List.mem_cons_self).kind_ne
  | @cons s s₁ s' i n ts hk hc hts ihc iht =>
    have hinner := hs.inner (hplaced _ List.mem_cons_self)
    have hpn : ∀ t ∈ [Tree.mk i n], t.Placed s.scopes s.current := by
      simpa using hplaced _ List.mem_cons_self
    obtain ⟨-, hpc⟩ := hplaced _ List.mem_cons_self
    obtain ⟨hn, hplain⟩ := hp _ List.mem_cons_self
    have hnode : Judged phrase [.mk i n] s
        ((s₁.give i (s₁.verdict phrase (n.map Tree.id))).inScope s.current) := .cons hk hc .nil
    have hf' : s.types.Fresh ([.mk i n] ++ ts) := hf
    have hfn : s.types.Fresh [.mk i n] := hf'.left
    have he := hts.grows.report_empty hr
    have hcomplaint : (s₁.verdict phrase (n.map Tree.id)).complaint = none := by
      cases hv : (s₁.verdict phrase (n.map Tree.id)).complaint with
      | none => rfl
      | some c => simp [give, inScope, hv] at he
    have hs₁ := (hc.checked hinner (hpc hk)).1
    have hchildren := ihc hinner (hpc hk) hfn.children hplain
      ((s₁.grows_give i _).report_empty he)
    have hget : s₁.types.get? i = none :=
      (hc.frame hfn.notMem_children).trans hfn.get?_eq_none
    intro t ht u hu
    rcases List.mem_cons.1 ht with rfl | ht
    · have hmem : u.id ∈ [Tree.mk i n].flatMap Tree.ids := by
        simpa using (Tree.postorder_sublist_ids _).subset (List.mem_map_of_mem hu)
      rw [hts.frame (hf'.disjoint hmem), inScope, get?_give hget]
      rcases Tree.mem_postorder_mk.1 hu with ⟨c, hc, huc⟩ | rfl
      · have hcn := n.entered_sublist.subset hc
        have huid := c.postorder_sublist_ids.subset (List.mem_map_of_mem huc)
        have hne : i ≠ u.id := fun h ↦
          hfn.notMem_children (List.mem_flatMap.2 ⟨c, hcn, h ▸ huid⟩)
        rw [if_neg hne]
        exact hchildren c hcn u huc
      · rw [Tree.id_mk, if_pos rfl]
        exact hs₁.fits_verdict i hn hcomplaint fun c hc ↦ hchildren c hc c c.self_mem_postorder
    · refine iht (hnode.checked hs hpn).1 (fun t ht ↦ ?_)
        (hf'.of_frame fun j hj ↦ hnode.frame hj)
        (fun t ht ↦ hp t (List.mem_cons_of_mem _ ht)) hr t ht u hu
      exact (hplaced t (List.mem_cons_of_mem _ ht)).extends hnode.grows.scopes

end Typing

namespace Arena

variable {a : Arena} {root : NodeId}

/-- In a valid arena without diagnostics an expression has the type `error` exactly if it is a pair of
parentheses around something that is no expression; every other expression has one of the types that
variables can have. So there is no `error` exactly if no such parentheses are visited. -/
theorem error_iff_hollow (hv : a.validate = .ok root) :
    ∃ r, (a.analyze root).outcome.result = .ok r ∧
      (r.report = #[] →
        (∀ i type, r.types.get? i = some type → a.Hollow i ∧ type = .error ∨
          ¬a.Hollow i ∧ (type = .int ∨ type = .bool ∨ type = .string)) ∧
        ((∀ i type, r.types.get? i = some type → type ≠ .error) ↔
          ∀ i, a.Meets root i → ¬a.Hollow i)) := by
  obtain ⟨ha, functions, main, ht⟩ := exists_program hv
  obtain ⟨_, run, hr, ⟨s, hs, rfl⟩, hacc⟩ := Pass.ends_iff.1 (ends_analyze ha ht ⟨(), #[]⟩)
  refine ⟨_, result_analyze hr, fun he ↦ ?_⟩
  obtain ⟨hplain, -, -⟩ := hacc he
  have hfits := hs.fits (Typing.sound_forMain main _) (by simpa using ht.placed ha)
    ⟨by simpa using ht.nodup_ids ha, by simp⟩ (by simpa using hplain) he _ List.mem_cons_self
  have hsound := (hs.checked (Typing.sound_forMain main _) (by simpa using ht.placed ha)).1
  have hmet (i : NodeId) := ((ht.types_written ha hr).1 i).trans ht.mem_left_iff
  simp only [NodeTable.contains_eq_isSome_get?] at hmet
  have htyped (i : NodeId) (type : Ty) (hi : s.types.get? i = some type) :
      a.Meets root i ∧ (type = .error ↔ a.Hollow i) := by
    have hi' : a.Meets root i := ((hmet i).1 (by rw [hi]; rfl)).1
    refine ⟨hi', ?_⟩
    obtain ⟨u, hu, rfl⟩ := ht.meets_iff.1 hi'
    have hu' := hfits u hu
    rw [hi] at hu'
    rw [(ht.of_mem_postorder hu).hollow_iff]
    exact hu'.2
  refine ⟨fun i type hi ↦ ?_, fun hno i hi hh ↦ ?_, fun hno i type hi herr ↦ ?_⟩
  · obtain ⟨-, herr⟩ := htyped i type hi
    rcases hsound.types hi with rfl | hvalue
    · exact .inl ⟨herr.1 rfl, rfl⟩
    · refine .inr ⟨fun hh ↦ ?_, ?_⟩
      · simp [herr.2 hh, Ty.isValue] at hvalue
      · cases type <;> simp [Ty.isValue] at hvalue ⊢
  · obtain ⟨e, hget⟩ := hh.exists_parenthesized
    obtain ⟨type, htype⟩ := Option.isSome_iff_exists.1 ((hmet i).2 ⟨hi, _, hget, rfl⟩)
    exact hno i type htype ((htyped i type htype).2.2 hh)
  · obtain ⟨hi', herr'⟩ := htyped i type hi
    exact hno i hi' (herr'.1 herr)

end Arena

/-- A statement that is a pair of parentheses around an empty block. -/
def hollow : Arena where
  nodes := #[.statementBlock [], .parenthesized ⟨0⟩, .statementBlock [⟨1⟩],
    .executableBlock none ⟨2⟩, .program [] ⟨3⟩]
  root := some ⟨4⟩

namespace hollow

theorem validate_eq : hollow.validate = .ok ⟨4⟩ :=
  Arena.validate_of_sound (by decide) (by decide) (by decide)

theorem report_eq : (hollow.analyze ⟨4⟩).outcome.result.map Analysis.report = .ok #[] := by
  decide +kernel

theorem error_iff_hollow_at :
    hollow.validate = .ok ⟨4⟩ ∧ hollow.Hollow ⟨1⟩ ∧
    ∃ r, (hollow.analyze ⟨4⟩).outcome.result = .ok r ∧ r.report = #[] ∧
      (∀ i type, r.types.get? i = some type → hollow.Hollow i ∧ type = .error ∨
        ¬hollow.Hollow i ∧ (type = .int ∨ type = .bool ∨ type = .string)) ∧
      ¬∀ i type, r.types.get? i = some type → type ≠ .error := by
  obtain ⟨r, hr, h⟩ := Arena.error_iff_hollow validate_eq
  have he : r.report = #[] := by simpa [hr, Except.map] using report_eq
  obtain ⟨htypes, hno⟩ := h he
  have hhollow : hollow.Hollow ⟨1⟩ := .around (e := ⟨0⟩) (n := .statementBlock []) rfl rfl rfl
  have hmeets : hollow.Meets ⟨4⟩ ⟨1⟩ := by
    have h3 : hollow.Meets ⟨4⟩ ⟨3⟩ := .child .refl rfl (by decide)
    have h2 : hollow.Meets ⟨4⟩ ⟨2⟩ := h3.child rfl (by decide)
    exact h2.child rfl (by decide)
  exact ⟨validate_eq, hhollow, r, hr, he, htypes, fun h ↦ hno.1 h ⟨1⟩ hmeets hhollow⟩

/-- The parentheses have the type `error`, and there is no diagnostic. -/
theorem error_without_diagnostic :
    hollow.validate = .ok ⟨4⟩ ∧
    (hollow.analyze ⟨4⟩).outcome.result.map (fun r ↦ (r.report, r.types.get? ⟨1⟩)) =
      .ok (#[], some .error) :=
  ⟨validate_eq, by decide +kernel⟩

end hollow

end SpimCompiler
