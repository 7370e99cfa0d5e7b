import SpimCompiler.Proofs.Composition

namespace SpimCompiler

open Mips ScopeTree

/-- Trees compiled one after the other in the scope `u`: `part` gives the code of each of their
nodes, and the places go from the first argument to the second. -/
inductive Coded (r : Analysis) (part : NodeId → Fragment) :
    ScopeId → List Tree → Places → Places → Prop
  | nil {u : ScopeId} {p : Places} : Coded r part u [] p p
  | cons {u : ScopeId} {i : NodeId} {n : Node Tree} {ts : List Tree} {p q p' q' : Places} :
      Coded r part (n.innerScope u) n.children p q →
      compose r (n.innerScope u) part i q (n.map Tree.id) = (part i, p') →
      Coded r part u ts p' q' → Coded r part u (.mk i n :: ts) p q'

theorem compose_congr {r : Analysis} {u : ScopeId} {part part' : NodeId → Fragment} {i : NodeId}
    {p : Places} {n : Node NodeId} (h : ∀ c ∈ n.children, part c = part' c) :
    compose r u part i p n = compose r u part' i p n := by
  cases n with
  | executableBlock vars body | variableBlock declarations | statementBlock statements =>
    exact congrArg (·.flatten, p) (List.map_congr_left h)
  | variableDeclaration name type init => cases init <;> simp_all [compose, Node.children]
  | ifStatement condition thenBlock elseBlock =>
    cases elseBlock <;> simp_all [compose, Node.children]
  | unary op operand => cases op <;> simp_all [compose, Node.children]
  | _ => simp_all [compose, Node.children]

namespace Coded

variable {r : Analysis} {part part' : NodeId → Fragment} {u : ScopeId} {ts ts' : List Tree}
  {p p' p'' : Places}

theorem congr (h : Coded r part u ts p p') (hp : ∀ i ∈ ts.flatMap Tree.ids, part i = part' i) :
    Coded r part' u ts p p' := by
  induction h with
  | nil => exact .nil
  | @cons u i n ts p q p' q' hc hi hts ihc iht =>
    simp only [List.flatMap_cons, Tree.ids_mk, List.mem_append, List.mem_singleton] at hp
    refine .cons (ihc fun j hj ↦ hp j (.inl (.inl hj))) ?_ (iht fun j hj ↦ hp j (.inr hj))
    rw [← hp i (.inl (.inr rfl)), ← hi]
    refine (compose_congr fun c hc ↦ hp c (.inl (.inl ?_))).symm
    rw [Node.children_map, List.mem_map] at hc
    obtain ⟨t, ht, rfl⟩ := hc
    exact List.mem_flatMap.2 ⟨t, ht, t.id_mem_ids⟩

theorem append (h : Coded r part u ts p p') (h' : Coded r part u ts' p' p'') :
    Coded r part u (ts ++ ts') p p'' := by
  induction h with
  | nil => exact h'
  | cons hc hi _ _ iht => exact .cons hc hi (iht h')

end Coded

namespace Generation

variable {r : Analysis} {g g' g'' : Generation} {ts ts' : List Tree}

structure Generated (r : Analysis) (g g' : Generation) (ts : List Tree) : Prop where
  current : g'.current = g.current
  frame : ∀ i ∉ ts.flatMap Tree.ids, g'.code.get? i = g.code.get? i
  isSome : ∀ i ∈ ts.flatMap Tree.ids, (g'.code.get? i).isSome
  coded : Coded r g'.part g.current ts g.places g'.places

theorem Generated.nil (r : Analysis) (g : Generation) : Generated r g g [] :=
  ⟨rfl, fun _ _ ↦ rfl, by simp, .nil⟩

theorem Generated.append (h : Generated r g g' ts) (h' : Generated r g' g'' ts')
    (hd : (ts.flatMap Tree.ids).Disjoint (ts'.flatMap Tree.ids)) :
    Generated r g g'' (ts ++ ts') := by
  have hframe {i : NodeId} (hi : i ∈ ts.flatMap Tree.ids) : g''.code.get? i = g'.code.get? i :=
    h'.frame i (hd hi)
  refine ⟨h'.current.trans h.current, fun i hi ↦ ?_, fun i hi ↦ ?_, ?_⟩
  · simp only [List.flatMap_append, List.mem_append, not_or] at hi
    rw [h'.frame i hi.2, h.frame i hi.1]
  · rw [List.flatMap_append, List.mem_append] at hi
    obtain hi | hi := hi
    · rw [hframe hi]
      exact h.isSome i hi
    · exact h'.isSome i hi
  · refine (h.coded.congr fun i hi ↦ ?_).append (h.current ▸ h'.coded)
    rw [part, part, hframe hi]

def advance (g : Generation) (r : Analysis) (i : NodeId) (n : Node NodeId) : Generation :=
  (g.withPlaces (compose r g.current g.part i g.places n).2).keep i
    (compose r g.current g.part i g.places n).1

theorem get?_advance {i : NodeId} {n : Node NodeId} (h : g.code.get? i = none) (j : NodeId) :
    (g.advance r i n).code.get? j =
      if i = j then some (compose r g.current g.part i g.places n).1 else g.code.get? j := by
  simp only [advance, keep, code_withPlaces, NodeTable.get?_write, h, and_true]

theorem Generated.node {i : NodeId} {n : Node Tree}
    (h : Generated r { g with current := n.innerScope g.current } g' n.children)
    (hi : g.code.get? i = none) (hn : i ∉ n.children.flatMap Tree.ids) :
    Generated r g { g'.advance r i (n.map Tree.id) with current := g.current } [.mk i n] := by
  have hget := get?_advance (r := r) (n := n.map Tree.id) ((h.frame i hn).trans hi)
  refine ⟨rfl, fun j hj ↦ ?_, fun j hj ↦ ?_, ?_⟩
  all_goals simp only [List.flatMap_singleton, Tree.ids_mk, List.mem_append,
    List.mem_singleton, not_or] at *
  · rw [hget, if_neg (Ne.symm hj.2), h.frame j hj.1]
  · rw [hget]
    split
    · rfl
    · exact h.isSome j (hj.resolve_right (Ne.symm ‹_›))
  · have hpart {j : NodeId} (hj : j ∈ n.children.flatMap Tree.ids) :
        g'.part j = (g'.advance r i (n.map Tree.id)).part j := by
      rw [part, part, hget, if_neg (fun he : i = j ↦ hn (he ▸ hj))]
    refine .cons (h.coded.congr fun j hj ↦ hpart hj) ?_ .nil
    have hcompose : compose r (n.innerScope g.current) (g'.advance r i (n.map Tree.id)).part i
        g'.places (n.map Tree.id) = compose r g'.current g'.part i g'.places (n.map Tree.id) := by
      rw [h.current]
      refine (compose_congr fun c hc ↦ hpart ?_).symm
      rw [Node.children_map, List.mem_map] at hc
      obtain ⟨t, ht, rfl⟩ := hc
      exact List.mem_flatMap.2 ⟨t, ht, t.id_mem_ids⟩
    refine hcompose.trans (Prod.ext ?_ rfl)
    simp [part, hget]

theorem ends_emit {id : NodeId} {code : Fragment} {run : Run Generation}
    {Q : Unit → Run Generation → Prop} (h : ∀ trace, Q () ⟨run.state.keep id code, trace⟩) :
    (emit id code).Ends run Q := by
  simp only [emit, CodeTable.write, Pass.ends_bind, Pass.ends_log, Pass.ends_state,
    Pass.ends_update]
  split
  · simp only [Pass.ends_option_forM_some, Pass.ends_log]
    exact h _
  · exact h _

theorem ends_enter {i : NodeId} {n : Node NodeId} {run : Run Generation}
    (hd : n.kind ≠ .functionDefinition)
    (hb : n.kind = .executableBlock →
      r.scopes.childNamed? run.state.current mainName = some mainScope)
    {Q : Bool → Run Generation → Prop}
    (h : Q true ⟨{ run.state with current := n.innerScope run.state.current }, run.trace⟩) :
    ((visitor r).enter i n).Ends run Q := by
  cases n <;> simp_all [visitor, enter, enterScope, Node.kind, Node.innerScope]

theorem ends_exit {id : NodeId} {n : Node NodeId} {run : Run Generation}
    (hn : n.rejection? = none) (hr : n.Ready r.scopes run.state.current r.types id)
    (hc : ∀ c ∈ n.children, (run.state.code.get? c).isSome) {Q : Unit → Run Generation → Prop}
    (h : ∀ trace, Q () ⟨{ run.state.advance r id n with
      current := if n.kind = .executableBlock then r.scopes.leave run.state.current
        else run.state.current }, trace⟩) :
    (exit r id n).Ends run Q := by
  simp only [exit, Pass.ends_bind, ends_codeOf hn hr hc, Pass.ends_option_forM_some]
  refine ends_emit fun trace ↦ ?_
  have h := h trace
  split
  · rw [if_pos ‹_›] at h
    simp only [leaveScope, Pass.ends_update]
    exact h
  · rw [if_neg ‹_›] at h
    simp only [Pass.ends_pure]
    exact h

theorem ends_exit_node {i : NodeId} {n : Node Tree} {run : Run Generation}
    (h : Generated r { g with current := n.innerScope g.current } run.state n.children)
    (hi : g.code.get? i = none) (hin : i ∉ n.children.flatMap Tree.ids)
    (hn : n.rejection? = none)
    (hr : (n.map Tree.id).Ready r.scopes (n.innerScope g.current) r.types i)
    (hu : n.kind = .executableBlock → r.scopes.leave mainScope = g.current) :
    (exit r i (n.map Tree.id)).Ends run fun _ r' ↦ Generated r g r'.state [.mk i n] := by
  refine ends_exit (by simpa using hn) (h.current ▸ hr) (fun c hc ↦ ?_) fun trace ↦ ?_
  · rw [Node.children_map, List.mem_map] at hc
    obtain ⟨t, ht, rfl⟩ := hc
    exact h.isSome _ (List.mem_flatMap.2 ⟨t, ht, t.id_mem_ids⟩)
  · have hcur : (if (n.map Tree.id).kind = .executableBlock then r.scopes.leave run.state.current
        else run.state.current) = g.current := by
      rw [Node.kind_map, h.current]
      unfold Node.innerScope
      split
      · exact hu ‹_›
      · rfl
    rw [hcur]
    exact h.node hi hin

theorem ends_walk_all {cs : List Tree} {run : Run Generation}
    (hcs : ∀ c ∈ cs, ∀ run' : Run Generation, run'.state.current = run.state.current →
      run'.state.code.Fresh [c] →
      (c.walk (visitor r)).Ends run' fun _ r' ↦ Generated r run'.state r'.state [c])
    (hf : run.state.code.Fresh cs) :
    Pass.Ends (cs.forM (Tree.walk (visitor r))) run fun _ r' ↦
      Generated r run.state r'.state cs := by
  refine Pass.ends_forM (fun done r' ↦ Generated r run.state r'.state done) (.nil r run.state) ?_
  intro done c rest r' hn hr
  have hn' : cs = (done ++ [c]) ++ rest := by simp [hn]
  have hf' : run.state.code.Fresh (done ++ [c]) := (hn' ▸ hf).left
  refine (hcs c (by simp [hn]) r' hr.current (hf'.of_frame hr.frame)).mono fun _ r'' hr' ↦ ?_
  exact hr.append hr' hf'.disjoint

theorem ends_walk {t : Tree} {run : Run Generation} (hp : t.Plain)
    (hr : t.Ready r.scopes r.types run.state.current)
    (hb : t.Placed r.scopes run.state.current) (hf : run.state.code.Fresh [t]) :
    (t.walk (visitor r)).Ends run fun _ r' ↦ Generated r run.state r'.state [t] := by
  induction t generalizing run with
  | mk i n ih =>
    have hd : n.kind ≠ .functionDefinition := hp.kind_ne
    obtain ⟨hrn, hrc⟩ := hr
    obtain ⟨hpn, hpc⟩ := hp
    obtain ⟨hbn, hbc⟩ := hb
    rw [Pass.ends_walk]
    refine ends_enter (by simpa using hd) (fun hk ↦ (hbn (by simpa using hk)).1) ?_
    rw [Node.innerScope_map]
    refine Pass.Ends.mono (ends_walk_all (fun c hm run' hcur hfr ↦ ?_) hf.children) fun _ r' hr' ↦
      ends_exit_node hr' hf.get?_eq_none hf.notMem_children hpn hrn fun hk ↦ (hbn hk).2
    exact ih c hm (hpc c hm) (hcur ▸ hrc c hm) (hcur ▸ hbc hd c hm) hfr

end Generation

end SpimCompiler
