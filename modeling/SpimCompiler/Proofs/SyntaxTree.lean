import SpimCompiler.NodeTable
import SpimCompiler.Proofs.Forest
import SpimCompiler.Proofs.Lists
import SpimCompiler.Proofs.PassLogic
import SpimCompiler.Tree.Phrase
import SpimCompiler.Tree.Walk

namespace SpimCompiler

namespace Node

variable {ι κ μ : Type}

theorem map_map (f : ι → κ) (g : κ → μ) (n : Node ι) : (n.map f).map g = n.map (g ∘ f) := by
  cases n <;> simp [map]

theorem map_congr {f g : ι → κ} {n : Node ι} (h : ∀ c ∈ n.children, f c = g c) :
    n.map f = n.map g := by
  cases n <;> simp only [map] <;> congr 1 <;> first
    | exact List.map_congr_left fun c hc ↦ h c (by simp [children, hc])
    | exact Option.map_congr fun c hc ↦ h c (by simp_all [children])
    | exact h _ (by simp [children])

@[simp]
theorem map_id (n : Node ι) : n.map id = n := by
  cases n <;> simp [map]

end Node

inductive Tree where
  | mk (id : NodeId) (node : Node Tree)

instance : Nonempty Tree := ⟨.mk ⟨0⟩ (.variableRef "")⟩

namespace Tree

variable {σ : Type}

def id : Tree → NodeId
  | mk id _ => id

def node : Tree → Node Tree
  | mk _ node => node

@[simp]
theorem id_mk (i : NodeId) (n : Node Tree) : (mk i n).id = i := rfl

@[simp]
theorem node_mk (i : NodeId) (n : Node Tree) : (mk i n).node = n := rfl

@[elab_as_elim, induction_eliminator]
theorem induction {P : Tree → Prop}
    (mk : ∀ (i : NodeId) (n : Node Tree), (∀ c ∈ n.children, P c) → P (mk i n)) (t : Tree) : P t := by
  refine @Tree.rec P (fun n ↦ ∀ c ∈ n.children, P c) (fun cs ↦ ∀ c ∈ cs, P c)
    (fun c ↦ ∀ d ∈ c.toList, P d) mk ?_ ?_ ?_ ?_ ?_ ?_ ?_ ?_ ?_ ?_ ?_ ?_ ?_ ?_ ?_ ?_ ?_ ?_ ?_ ?_ ?_ ?_ ?_ ?_ ?_ t
  all_goals
    clear mk
    grind [Node.children]

theorem sizeOf_lt_of_mem {c : Tree} {n : Node Tree} (h : c ∈ n.children) :
    sizeOf c < sizeOf n := by
  have hl {cs : List Tree} (hc : c ∈ cs) : sizeOf c < sizeOf cs := List.sizeOf_lt_of_mem hc
  have ho {o : Option Tree} (hc : c ∈ o.toList) : sizeOf c < sizeOf o := by
    cases o <;> simp_all
  cases n <;> grind [Node.children]

def ids : Tree → List NodeId
  | mk i n => n.children.attach.flatMap (fun c ↦ c.1.ids) ++ [i]
decreasing_by
  have := sizeOf_lt_of_mem c.2
  simp only [mk.sizeOf_spec]
  omega

@[simp]
theorem ids_mk (i : NodeId) (n : Node Tree) : (mk i n).ids = n.children.flatMap ids ++ [i] := by
  rw [ids, List.flatMap_subtype (g := ids) (fun _ _ ↦ rfl), List.unattach_attach]

theorem id_mem_ids (t : Tree) : t.id ∈ t.ids := by
  cases t
  simp

def walk (v : Visitor σ) : Tree → Pass σ Unit
  | mk i n => do
    if ← v.enter i (n.map id) then
      n.children.attach.forM fun c ↦ walk v c.1
      v.exit i (n.map id)
decreasing_by
  have := sizeOf_lt_of_mem c.2
  simp only [mk.sizeOf_spec]
  omega

theorem walk_mk (v : Visitor σ) (i : NodeId) (n : Node Tree) :
    (mk i n).walk v = (do
      if ← v.enter i (n.map id) then
        n.children.forM (walk v)
        v.exit i (n.map id)) := by
  have h : (n.children.attach.forM fun c ↦ walk v c.1) = n.children.forM (walk v) := by
    simp only [List.forM_eq_forM]
    rw [← List.forM_map (g := Subtype.val) (f := walk v), List.attach_map_subtype_val]
  rw [walk, h]

end Tree

namespace Arena

variable {a : Arena} {σ : Type}

/-- The arena has the nodes of a tree under their ids. -/
inductive Holds (a : Arena) : Tree → Prop
  | mk {i : NodeId} {n : Node Tree} :
      a.get? i = some (n.map Tree.id) → (∀ c ∈ n.children, a.Holds c) → a.Holds (.mk i n)

theorem Holds.get? {t : Tree} (ht : a.Holds t) : a.get? t.id = some (t.node.map Tree.id) := by
  cases ht
  assumption

theorem Holds.node_eq {t : Tree} (ht : a.Holds t) : a.node t.id = .ok (t.node.map Tree.id) := by
  simp [Arena.node, ht.get?]

theorem Holds.child {t c : Tree} (ht : a.Holds t) (hc : c ∈ t.node.children) : a.Holds c := by
  cases ht with
  | mk _ h => exact h c hc

theorem Holds.leaf {i : NodeId} {n : Node Tree} (h : a.get? i = some (n.map Tree.id))
    (hn : n.children = []) : a.Holds (.mk i n) :=
  .mk h (by simp [hn])

theorem Holds.one {i : NodeId} {n : Node Tree} {c : Tree} (h : a.get? i = some (n.map Tree.id))
    (hn : n.children = [c]) (hc : a.Holds c) : a.Holds (.mk i n) :=
  .mk h (by simpa [hn] using hc)

theorem Holds.two {i : NodeId} {n : Node Tree} {c d : Tree} (h : a.get? i = some (n.map Tree.id))
    (hn : n.children = [c, d]) (hc : a.Holds c) (hd : a.Holds d) : a.Holds (.mk i n) :=
  .mk h (by simpa [hn] using ⟨hc, hd⟩)

theorem Holds.lt (ha : a.IsForest) {t c : Tree} (ht : a.Holds t) (hc : c ∈ t.node.children) :
    c.id.index < t.id.index :=
  ha.lt ht.get? (by rw [Node.children_map]; exact List.mem_map_of_mem hc)

theorem IsForest.exists_tree (ha : a.IsForest) {i : NodeId} {n : Node NodeId}
    (hi : a.get? i = some n) : ∃ t, t.id = i ∧ a.Holds t := by
  induction h : i.index using Nat.strongRecOn generalizing i n with
  | _ k ih =>
    subst h
    have hc : ∀ c ∈ n.children, ∃ t, t.id = c ∧ a.Holds t := by
      intro c hc
      obtain ⟨m, hm, hlt, -⟩ := ha.sound hi hc
      exact ih _ hlt hm rfl
    choose! f hf using hc
    have hn : (n.map f).map Tree.id = n := by
      rw [Node.map_map]
      exact (Node.map_congr fun c hc ↦ (hf c hc).1).trans n.map_id
    refine ⟨.mk i (n.map f), rfl, .mk (by rw [hn, hi]) ?_⟩
    intro t ht
    rw [Node.children_map, List.mem_map] at ht
    obtain ⟨c, hc, rfl⟩ := ht
    exact (hf c hc).2

theorem Holds.le_of_mem_ids (ha : a.IsForest) {t : Tree} (ht : a.Holds t) {i : NodeId}
    (hi : i ∈ t.ids) : i.index ≤ t.id.index := by
  induction t with
  | mk j n ih =>
    simp only [Tree.ids_mk, List.mem_append, List.mem_flatMap, List.mem_singleton] at hi
    obtain ⟨c, hc, hi⟩ | rfl := hi
    · have hle := ih c hc (ht.child hc) hi
      have hlt := ht.lt ha hc
      omega
    · exact Nat.le_refl _

/-- An id of a tree other than the topmost is named by a node of the tree. -/
theorem Holds.parent_of_mem_ids {t : Tree} (ht : a.Holds t) {i : NodeId} (hi : i ∈ t.ids) :
    i = t.id ∨ ∃ p ∈ t.ids, ∃ m, a.get? p = some m ∧ i ∈ m.children := by
  induction t with
  | mk j n ih =>
    simp only [Tree.ids_mk, List.mem_append, List.mem_flatMap, List.mem_singleton] at hi ⊢
    obtain ⟨c, hc, hi⟩ | rfl := hi
    · right
      obtain rfl | ⟨p, hp, hm⟩ := ih c hc (ht.child hc) hi
      · refine ⟨j, .inr rfl, _, ht.get?, ?_⟩
        rw [Node.children_map]
        exact List.mem_map_of_mem hc
      · exact ⟨p, .inl ⟨c, hc, hp⟩, hm⟩
    · exact .inl rfl

theorem Holds.disjoint_ids (ha : a.IsForest) {p : NodeId} {n : Node NodeId}
    (hp : a.get? p = some n) {s t : Tree} (hs : a.Holds s) (ht : a.Holds t)
    (hsn : s.id ∈ n.children) (htn : t.id ∈ n.children) (hst : s.id ≠ t.id) :
    s.ids.Disjoint t.ids := by
  intro i
  -- The parents of a common id are equal and lie above it, so the climb ends at `p`.
  induction hk : p.index - i.index using Nat.strongRecOn generalizing i with
  | _ k ih =>
    subst hk
    intro his hit
    have hlt {q : NodeId} {t : Tree} (ht : a.Holds t) (htn : t.id ∈ n.children)
        (hq : q ∈ t.ids) : q.index < p.index :=
      Nat.lt_of_le_of_lt (ht.le_of_mem_ids ha hq) (ha.lt hp htn)
    obtain rfl | ⟨q, hq, m, hm, him⟩ := hs.parent_of_mem_ids his
    · obtain h | ⟨q, hq, m, hm, him⟩ := ht.parent_of_mem_ids hit
      · exact hst h
      · obtain rfl := ha.unique hm hp him hsn
        exact Nat.lt_irrefl _ (hlt ht htn hq)
    · obtain rfl | ⟨q', hq', m', hm', him'⟩ := ht.parent_of_mem_ids hit
      · obtain rfl := ha.unique hm hp him htn
        exact Nat.lt_irrefl _ (hlt hs hsn hq)
      · obtain rfl := ha.unique hm hm' him him'
        have := ha.lt hm him
        have := hlt hs hsn hq
        exact ih _ (by omega) rfl hq hq'

theorem Holds.nodup_ids (ha : a.IsForest) {t : Tree} (ht : a.Holds t) : t.ids.Nodup := by
  induction t with
  | mk i n ih =>
    have hn := ha.nodup ht.get?
    rw [Tree.node_mk, Node.children_map] at hn
    have hmem {c : Tree} (hc : c ∈ n.children) : c.id ∈ (n.map Tree.id).children := by
      rw [Node.children_map]
      exact List.mem_map_of_mem hc
    rw [Tree.ids_mk, List.nodup_append', List.nodup_flatMap]
    refine ⟨⟨fun c hc ↦ ih c hc (ht.child hc), ?_⟩, List.nodup_singleton i, ?_⟩
    · refine (List.pairwise_map.1 hn).imp_of_mem fun {c d} hc hd hne ↦ ?_
      exact Holds.disjoint_ids ha ht.get? (ht.child hc) (ht.child hd) (hmem hc) (hmem hd) hne
    · simp only [List.disjoint_singleton, List.mem_flatMap, not_exists, not_and]
      intro c hc hi
      have hle := (ht.child hc).le_of_mem_ids ha hi
      have hlt := ht.lt ha hc
      simp only [Tree.id_mk] at hlt
      omega

/-- Children come before their parents, so the bound on the depth of a walk is never reached. -/
theorem Holds.walkWithin_eq (ha : a.IsForest) {t : Tree} (ht : a.Holds t) (v : Visitor σ)
    {depth : ℕ} (hd : t.id.index < depth) : a.walkWithin v depth t.id = t.walk v := by
  induction t generalizing depth with
  | mk i n ih =>
    obtain ⟨depth, rfl⟩ := Nat.exists_eq_add_one_of_ne_zero (Nat.ne_of_gt (Nat.zero_lt_of_lt hd))
    have hnode := ht.node_eq
    simp only [Tree.id_mk, Tree.node_mk] at hnode
    have hchildren : (n.map Tree.id).children.forM (a.walkWithin v depth) =
        n.children.forM (Tree.walk v) := by
      rw [Node.children_map, List.forM_eq_forM, List.forM_map]
      refine Pass.forM_congr fun c hc ↦ ih c hc (ht.child hc) ?_
      have hlt := ht.lt ha hc
      omega
    rw [Tree.walk_mk, ← hchildren, Tree.id_mk, walkWithin, hnode]
    rfl

theorem Holds.index_lt_maxDepth {t : Tree} (ht : a.Holds t) : t.id.index < a.maxDepth :=
  Nat.lt_succ_of_lt (Array.getElem?_eq_some_iff.1 ht.get?).1

theorem Holds.walk_eq (ha : a.IsForest) {t : Tree} (ht : a.Holds t) (v : Visitor σ) :
    a.walk v t.id = t.walk v :=
  ht.walkWithin_eq ha v ht.index_lt_maxDepth

theorem Holds.exists_phraseWithin (ha : a.IsForest) {t : Tree} (ht : a.Holds t) {depth : ℕ}
    (hd : t.id.index < depth) : ∃ s, a.phraseWithin depth t.id = .ok s := by
  induction t generalizing depth with
  | mk i n ih =>
    obtain ⟨depth, rfl⟩ := Nat.exists_eq_add_one_of_ne_zero (Nat.ne_of_gt (Nat.zero_lt_of_lt hd))
    have hc (c : Tree) (hc : c ∈ n.children) : ∃ s, a.phraseWithin depth c.id = .ok s := by
      have hlt := ht.lt ha hc
      exact ih c hc (ht.child hc) (by omega)
    have hnode := ht.node_eq
    simp only [Tree.id_mk, Tree.node_mk] at hnode
    rw [Tree.id_mk, phraseWithin, hnode]
    cases n with
    | program | executableBlock | variableBlock | statementBlock | functionDefinition | intLiteral
    | boolLiteral | stringLiteral | variableRef => exact ⟨_, rfl⟩
    | variableDeclaration _ _ c | returnStatement c =>
      cases c with
      | none => exact ⟨_, rfl⟩
      | some c =>
        obtain ⟨s, hs⟩ := hc c (by simp [Node.children])
        simp only [Node.map, Option.map, bind, Except.bind, hs]
        exact ⟨_, rfl⟩
    | assignment _ c | whileStatement c _ | printStatement c | parenthesized c | unary _ c
    | ifStatement c _ _ =>
      obtain ⟨s, hs⟩ := hc c (by simp [Node.children])
      simp only [Node.map, bind, Except.bind, hs]
      exact ⟨_, rfl⟩
    | mulDiv _ l r | addSub _ l r | compare _ l r =>
      obtain ⟨s, hs⟩ := hc l (by simp [Node.children])
      obtain ⟨s', hs'⟩ := hc r (by simp [Node.children])
      simp only [Node.map, bind, Except.bind, binaryPhrase, hs, hs']
      exact ⟨_, rfl⟩
    | functionCall _ cs =>
      have hcs : ∀ c ∈ cs.map Tree.id, ∃ s, a.phraseWithin depth c = .ok s := by
        intro i hi
        obtain ⟨c, hcc, rfl⟩ := List.mem_map.1 hi
        exact hc c hcc
      obtain ⟨ss, hss⟩ := List.exists_mapM_eq_ok hcs
      simp only [Node.map, bind, Except.bind, hss]
      exact ⟨_, rfl⟩

def phraseOf (a : Arena) (id : NodeId) : String := (a.phrase id).toOption.getD ""

theorem Holds.phrase_eq (ha : a.IsForest) {t : Tree} (ht : a.Holds t) :
    a.phrase t.id = .ok (a.phraseOf t.id) := by
  obtain ⟨s, hs⟩ := ht.exists_phraseWithin ha ht.index_lt_maxDepth
  have hp : a.phrase t.id = .ok s := hs
  rw [phraseOf, hp]
  rfl

theorem Holds.phrase_child (ha : a.IsForest) {t : Tree} (ht : a.Holds t) {i : NodeId}
    (hi : i ∈ (t.node.map Tree.id).children) : a.phrase i = .ok (a.phraseOf i) := by
  rw [Node.children_map, List.mem_map] at hi
  obtain ⟨c, hc, rfl⟩ := hi
  exact (ht.child hc).phrase_eq ha

end Arena

/-- Trees none of whose nodes is in the table yet. -/
structure NodeTable.Fresh {α : Type} (table : NodeTable α) (ts : List Tree) : Prop where
  nodup : (ts.flatMap Tree.ids).Nodup
  absent : ∀ i ∈ ts.flatMap Tree.ids, table.get? i = none

namespace NodeTable.Fresh

variable {α : Type} {table table' : NodeTable α} {i : NodeId} {n : Node Tree} {ts : List Tree}

theorem children (h : table.Fresh [.mk i n]) : table.Fresh n.children := by
  obtain ⟨hnodup, hnone⟩ := h
  simp only [List.flatMap_singleton, Tree.ids_mk, List.mem_append, List.nodup_append'] at hnodup hnone
  exact ⟨hnodup.1, fun j hj ↦ hnone j (.inl hj)⟩

theorem get?_eq_none (h : table.Fresh [.mk i n]) : table.get? i = none :=
  h.absent i (by simp [Tree.ids_mk])

theorem notMem_children (h : table.Fresh [.mk i n]) : i ∉ n.children.flatMap Tree.ids := by
  have hnodup := h.nodup
  simp only [List.flatMap_singleton, Tree.ids_mk, List.nodup_append'] at hnodup
  exact fun hi ↦ hnodup.2.2 hi (List.mem_singleton_self i)

/-- A table that has only got entries for nodes of some trees is still fresh for the others. -/
theorem of_frame {ts' : List Tree} (h : table.Fresh (ts ++ ts'))
    (hf : ∀ i ∉ ts.flatMap Tree.ids, table'.get? i = table.get? i) : table'.Fresh ts' := by
  obtain ⟨hnodup, hnone⟩ := h
  simp only [List.flatMap_append, List.mem_append, List.nodup_append'] at hnodup hnone
  refine ⟨hnodup.2.1, fun i hi ↦ ?_⟩
  rw [hf i fun hd ↦ hnodup.2.2 hd hi, hnone i (.inr hi)]

theorem left {ts' : List Tree} (h : table.Fresh (ts ++ ts')) : table.Fresh ts := by
  obtain ⟨hnodup, hnone⟩ := h
  simp only [List.flatMap_append, List.mem_append, List.nodup_append'] at hnodup hnone
  exact ⟨hnodup.1, fun i hi ↦ hnone i (.inl hi)⟩

theorem disjoint {ts' : List Tree} (h : table.Fresh (ts ++ ts')) :
    (ts.flatMap Tree.ids).Disjoint (ts'.flatMap Tree.ids) := by
  have hnodup := h.nodup
  rw [List.flatMap_append, List.nodup_append'] at hnodup
  exact hnodup.2.2

end NodeTable.Fresh

end SpimCompiler
