import SpimCompiler.Analysis.Binding
import SpimCompiler.Proofs.SyntaxTree

namespace SpimCompiler

theorem Pass.ends_walk {σ : Type} (v : Visitor σ) (i : NodeId) (n : Node Tree) {run : Run σ}
    {Q : Unit → Run σ → Prop} :
    Pass.Ends ((Tree.mk i n).walk v) run Q ↔
      (v.enter i (n.map Tree.id)).Ends run fun b r ↦
        if b then Pass.Ends (n.children.forM (Tree.walk v)) r fun _ r ↦
          (v.exit i (n.map Tree.id)).Ends r Q
        else Q () r := by
  rw [Tree.walk_mk, Pass.ends_bind]
  refine iff_of_eq (congrArg _ (funext₂ fun b r ↦ ?_))
  cases b <;> simp

def Node.rejection? {ι : Type} : Node ι → Option Complaint
  | functionDefinition .. => some .functionDefinition
  | functionCall .. => some .functionCall
  | returnStatement .. => some .returnStatement
  | _ => none

@[simp]
theorem Node.rejection?_map {ι κ : Type} (f : ι → κ) (n : Node ι) :
    (n.map f).rejection? = n.rejection? := by
  cases n <;> rfl

namespace Tree

/-- A tree without an executable block, those in function definitions apart. -/
inductive Flat : Tree → Prop
  | definition {i : NodeId} {n : Node Tree} : n.kind = .functionDefinition → Flat (mk i n)
  | mk {i : NodeId} {n : Node Tree} :
      n.kind ≠ .executableBlock → (∀ c ∈ n.children, Flat c) → Flat (mk i n)

theorem Flat.kind_ne {t : Tree} (h : t.Flat) : t.node.kind ≠ .executableBlock := by
  cases h with
  | definition h => simp [h]
  | mk h _ => exact h

theorem Flat.child {i : NodeId} {n : Node Tree} (h : (Tree.mk i n).Flat)
    (hd : n.kind ≠ .functionDefinition) {c : Tree} (hc : c ∈ n.children) : c.Flat := by
  cases h with
  | definition h => exact absurd h hd
  | mk _ h => exact h c hc

def rejections : Tree → List Diagnostic
  | mk i n =>
    (n.rejection?.map (Diagnostic.of i)).toList ++
      if n.kind = .functionDefinition then []
      else n.children.attach.flatMap fun c ↦ c.1.rejections
decreasing_by
  have := sizeOf_lt_of_mem c.2
  simp only [mk.sizeOf_spec]
  omega

theorem rejections_mk (i : NodeId) (n : Node Tree) :
    (mk i n).rejections = (n.rejection?.map (Diagnostic.of i)).toList ++
      if n.kind = .functionDefinition then [] else n.children.flatMap rejections := by
  rw [rejections, List.flatMap_subtype (g := rejections) (fun _ _ ↦ rfl), List.unattach_attach]

/-- A tree without functions, calls and returns. -/
inductive Plain : Tree → Prop
  | mk {i : NodeId} {n : Node Tree} :
      n.rejection? = none → (∀ c ∈ n.children, Plain c) → Plain (mk i n)

theorem Plain.kind_ne {t : Tree} (h : t.Plain) : t.node.kind ≠ .functionDefinition := by
  cases h with
  | @mk i n h _ =>
    rintro hk
    cases n <;> simp_all [Node.rejection?, Node.kind]

theorem plain_iff_rejections {t : Tree} : t.Plain ↔ t.rejections = [] := by
  induction t with
  | mk i n ih =>
    rw [rejections_mk, List.append_eq_nil_iff]
    constructor
    · intro h
      have hk : n.kind ≠ .functionDefinition := h.kind_ne
      obtain ⟨hn, hc⟩ := h
      rw [if_neg hk, List.flatMap_eq_nil_iff]
      exact ⟨by simp [hn], fun c h ↦ (ih c h).1 (hc c h)⟩
    · rintro ⟨hn, hc⟩
      have hn : n.rejection? = none := by simpa using hn
      have hk : n.kind ≠ .functionDefinition := by
        rintro h
        cases n <;> simp_all [Node.rejection?, Node.kind]
      rw [if_neg hk, List.flatMap_eq_nil_iff] at hc
      exact .mk hn fun c h ↦ (ih c h).2 (hc c h)

end Tree

namespace Arena

variable {a : Arena}

theorem Holds.kind_child (ha : a.IsForest) {t c : Tree} (ht : a.Holds t)
    (hc : c ∈ t.node.children) :
    c.node.kind ≠ .program ∧ (c.node.kind = .executableBlock →
      (∃ functions main, t.node = .program functions main ∧ main.id = c.id) ∨
        t.node.kind = .functionDefinition) := by
  have hmem : c.id ∈ (t.node.map Tree.id).children := by
    rw [Node.children_map]
    exact List.mem_map_of_mem hc
  obtain ⟨m, hm, -, hacc⟩ := ha.sound ht.get? hmem
  obtain rfl := Option.some.inj ((ht.child hc).get?.symm.trans hm)
  rw [← Node.kind_map Tree.id c.node]
  cases hn : c.node.map Tree.id <;> simp_all [Node.accepts, Node.kind]
  cases ht : t.node <;> simp_all [Node.map]

theorem Holds.flat (ha : a.IsForest) {t : Tree} (ht : a.Holds t)
    (hp : t.node.kind ≠ .program) (hb : t.node.kind ≠ .executableBlock) : t.Flat := by
  induction t with
  | mk i n ih =>
    by_cases hd : n.kind = .functionDefinition
    · exact .definition hd
    · refine .mk hb fun c hc ↦ ?_
      obtain ⟨hcp, hcb⟩ := ht.kind_child ha hc
      refine ih c hc (ht.child hc) hcp fun h ↦ ?_
      obtain ⟨_, _, hn, -⟩ | h := hcb h
      · simp only [Tree.node_mk] at hn
        simp [hn, Node.kind] at hp
      · exact hd h

theorem Holds.flat_function (ha : a.IsForest) {i : NodeId} {functions : List Tree} {main f : Tree}
    (ht : a.Holds (.mk i (.program functions main))) (hf : f ∈ functions) : f.Flat := by
  have hc : f ∈ (Tree.mk i (.program functions main)).node.children := by
    simp [Node.children, hf]
  obtain ⟨hp, hb⟩ := ht.kind_child ha hc
  refine (ht.child hc).flat ha hp fun h ↦ ?_
  obtain ⟨_, _, hn, hid⟩ | h := hb h
  · simp only [Tree.node_mk, Node.program.injEq] at hn
    obtain ⟨rfl, rfl⟩ := hn
    have hn := ha.nodup ht.get?
    simp only [Tree.node_mk, Node.map, Node.children, List.nodup_append] at hn
    exact hn.2.2 _ (List.mem_map_of_mem hf) _ (List.mem_singleton_self _) hid.symm
  · simp [Node.kind] at h

theorem Holds.flat_of_block (ha : a.IsForest) {i : NodeId} {vars : Option Tree} {body c : Tree}
    (ht : a.Holds (.mk i (.executableBlock vars body)))
    (hc : c ∈ (Node.executableBlock vars body).children) : c.Flat := by
  obtain ⟨hp, hb⟩ := ht.kind_child ha hc
  refine (ht.child hc).flat ha hp fun h ↦ ?_
  obtain ⟨_, _, hn, -⟩ | h := hb h
  · simp at hn
  · simp [Node.kind] at h

/-- The main part of a program is its main block, unless it is something without blocks. -/
theorem Holds.main_cases (ha : a.IsForest) {i : NodeId} {functions : List Tree} {main : Tree}
    (ht : a.Holds (.mk i (.program functions main))) :
    main.Flat ∨ ∃ j vars body, main = .mk j (.executableBlock vars body) := by
  have hc : main ∈ (Tree.mk i (.program functions main)).node.children := by
    simp [Node.children]
  by_cases hk : main.node.kind = .executableBlock
  · right
    obtain ⟨j, n⟩ := main
    cases n <;> simp_all [Node.kind]
  · exact .inl ((ht.child hc).flat ha (ht.kind_child ha hc).1 hk)

end Arena

namespace Binding

def reject (b : Binding) (ds : List Diagnostic) : Binding :=
  { b with report := b.report ++ ds.toArray }

@[simp]
theorem reject_nil (b : Binding) : b.reject [] = b := by
  simp [reject]

theorem reject_append (b : Binding) (ds es : List Diagnostic) :
    b.reject (ds ++ es) = (b.reject ds).reject es := by
  simp [reject]

theorem ends_enter {i : NodeId} {n : Node NodeId} (hn : n.kind ≠ .executableBlock)
    {run : Run Binding} {Q : Bool → Run Binding → Prop}
    (h : ∀ trace, Q (n.kind ≠ .functionDefinition)
      ⟨run.state.reject (n.rejection?.map (Diagnostic.of i)).toList, trace⟩) :
    (enter i n).Ends run Q := by
  cases n <;> simp_all [enter, complain, reject, Node.kind, Node.rejection?]

theorem ends_exit {n : Node NodeId} (hn : n.kind ≠ .executableBlock) {run : Run Binding}
    {Q : Unit → Run Binding → Prop} (h : Q () run) : (exit n).Ends run Q := by
  cases n <;> simp_all [exit, Node.kind]

theorem ends_walk_all {cs : List Tree}
    (hcs : ∀ c ∈ cs, ∀ run, (c.walk visitor).Ends run fun _ r ↦
      r.state = run.state.reject c.rejections) (run : Run Binding) :
    Pass.Ends (cs.forM (Tree.walk visitor)) run fun _ r ↦
      r.state = run.state.reject (cs.flatMap Tree.rejections) := by
  refine Pass.ends_forM (fun done r ↦ r.state = run.state.reject (done.flatMap Tree.rejections))
    (by simp) ?_
  intro done c rest r hn hr
  refine (hcs c (by simp [hn]) r).mono fun _ r' hr' ↦ ?_
  simp [hr', hr, reject_append]

theorem ends_walk_flat {t : Tree} (ht : t.Flat) (run : Run Binding) :
    (t.walk visitor).Ends run fun _ r ↦ r.state = run.state.reject t.rejections := by
  induction t generalizing run with
  | mk i n ih =>
    rw [Pass.ends_walk, Tree.rejections_mk]
    by_cases hd : n.kind = .functionDefinition
    · refine ends_enter (by simp [hd]) fun trace ↦ ?_
      simp [hd]
    · refine ends_enter (by simpa using ht.kind_ne) fun trace ↦ ?_
      simp only [Node.kind_map, ne_eq, hd, not_false_eq_true, decide_true, if_true, if_false,
        Node.rejection?_map, reject_append]
      exact (ends_walk_all (fun c hc ↦ ih c hc (ht.child hd hc)) _).mono
        fun _ r hr ↦ ends_exit (by simpa using ht.kind_ne) hr

end Binding

namespace ScopeTree

def withMain : ScopeTree := (initial.addChild globalScope mainName .void).2

def mainScope : ScopeId := 1

theorem childNamed?_withMain : withMain.childNamed? globalScope mainName = some mainScope := by
  decide

theorem leave_withMain : withMain.leave mainScope = globalScope := by
  decide

def forMain (main : Tree) : ScopeTree :=
  if main.node.kind = .executableBlock then withMain else initial

end ScopeTree

open ScopeTree

def Node.innerScope {ι : Type} (n : Node ι) (u : ScopeId) : ScopeId :=
  if n.kind = .executableBlock then mainScope else u

@[simp]
theorem Node.innerScope_map {ι κ : Type} (f : ι → κ) (n : Node ι) (u : ScopeId) :
    (n.map f).innerScope u = n.innerScope u := by
  simp [innerScope]

/-- A tree in the scope `u` whose blocks find the scope that was opened for them. -/
inductive Tree.Placed (scopes : ScopeTree) : ScopeId → Tree → Prop
  | mk {u : ScopeId} {i : NodeId} {n : Node Tree} :
      (n.kind = .executableBlock →
        scopes.childNamed? u mainName = some mainScope ∧ scopes.leave mainScope = u) →
      (n.kind ≠ .functionDefinition → ∀ c ∈ n.children, c.Placed scopes (n.innerScope u)) →
      Placed scopes u (.mk i n)

theorem Tree.Flat.placed {t : Tree} (h : t.Flat) (scopes : ScopeTree) (u : ScopeId) :
    t.Placed scopes u := by
  induction t with
  | mk i n ih =>
    have hb : n.kind ≠ .executableBlock := h.kind_ne
    refine .mk (fun hk ↦ absurd hk hb) fun hd c hc ↦ ?_
    rw [Node.innerScope, if_neg hb]
    exact ih c hc (h.child hd hc)

theorem Arena.Holds.placed {a : Arena} (ha : a.IsForest) {i : NodeId} {functions : List Tree}
    {main : Tree} (ht : a.Holds (.mk i (.program functions main))) :
    (Tree.mk i (.program functions main)).Placed (forMain main) globalScope := by
  refine .mk (by simp [Node.kind]) fun _ c hc ↦ ?_
  simp only [Node.children, List.mem_append, List.mem_singleton] at hc
  obtain hc | rfl := hc
  · exact (ht.flat_function ha hc).placed _ _
  · obtain hf | ⟨j, vars, body, rfl⟩ := ht.main_cases ha
    · exact hf.placed _ _
    · refine .mk (fun _ ↦ ⟨childNamed?_withMain, leave_withMain⟩) fun _ c hc ↦ ?_
      have hm := ht.child (c := .mk j (.executableBlock vars body)) (by simp [Node.children])
      exact (hm.flat_of_block ha hc).placed _ _

namespace Binding

/-- The first pass opens one scope, if the main part is a block. -/
theorem ends_walk_main {a : Arena} (ha : a.IsForest) {main : Tree}
    (hm : a.Holds main) (hc : main.Flat ∨ ∃ j vars body, main = .mk j (.executableBlock vars body))
    {run : Run Binding} (hs : run.state.scopes = initial) (hg : run.state.current = globalScope) :
    (main.walk visitor).Ends run fun _ r ↦
      r.state.scopes = forMain main ∧
        r.state.report = run.state.report ++ main.rejections.toArray := by
  obtain hf | ⟨j, vars, body, rfl⟩ := hc
  · refine (ends_walk_flat hf run).mono fun _ r hr ↦ ?_
    simp [hr, reject, hs, forMain, hf.kind_ne]
  · rw [Pass.ends_walk]
    simp only [visitor, Node.map, enter, Pass.ends_bind, Pass.ends_update, Pass.ends_state,
      Pass.ends_log, Pass.ends_pure, if_true]
    refine (ends_walk_all (fun c h ↦ ends_walk_flat (hm.flat_of_block ha h)) _).mono
      fun _ r hr ↦ ?_
    simp [exit, hr, reject, openScope, hs, hg, forMain, Node.kind, Tree.rejections_mk, Node.rejection?, withMain]

theorem ends_walk_program {a : Arena} (ha : a.IsForest) {i : NodeId}
    {functions : List Tree} {main : Tree} (ht : a.Holds (.mk i (.program functions main)))
    (trace : Trace) :
    ((Tree.mk i (.program functions main)).walk visitor).Ends ⟨{}, trace⟩ fun _ r ↦
      r.state.scopes = forMain main ∧
        r.state.report = (Tree.mk i (.program functions main)).rejections.toArray := by
  rw [Pass.ends_walk]
  simp only [visitor, Node.map, enter, Node.children, exit, Pass.ends_pure, if_true,
    Pass.ends_forM_append, Pass.ends_forM_cons, Pass.ends_forM_nil]
  refine (ends_walk_all (fun f hf ↦ ends_walk_flat (ht.flat_function ha hf)) _).mono
    fun _ r hr ↦ ?_
  have hm : a.Holds main := ht.child (by simp [Node.children])
  refine (ends_walk_main ha hm (ht.main_cases ha) (by simp [hr, reject]) (by simp [hr, reject])).mono
    fun _ r' hr' ↦ ?_
  simp [hr', hr, reject, Tree.rejections_mk, Node.rejection?, Node.kind, Node.children]

end Binding

end SpimCompiler
