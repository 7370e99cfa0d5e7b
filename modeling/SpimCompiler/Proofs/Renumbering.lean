import SpimCompiler.Proofs.Lists
import SpimCompiler.Proofs.NameResolution
import SpimCompiler.Proofs.VisitedNodes

namespace SpimCompiler

open Mips ScopeTree

def Diagnostic.renumber (φ : NodeId → NodeId) (d : Diagnostic) : Diagnostic :=
  { d with node := φ d.node }

/-- From the two roots the same tree is visited, with the numbers of its nodes mapped by `φ`. The
children that are not visited are any. -/
structure Arena.Alike (φ : NodeId → NodeId) (a : Arena) (root : NodeId) (b : Arena)
    (root' : NodeId) : Prop where
  map_root : φ root = root'
  get?_map {i : NodeId} {n : Node NodeId} : a.Meets root i → a.get? i = some n →
    ∃ ψ : NodeId → NodeId, b.get? (φ i) = some (n.map ψ) ∧ ∀ c ∈ n.entered, ψ c = φ c

/-- The same visited nodes, with their numbers mapped by `φ`. -/
inductive Tree.Alike (φ : NodeId → NodeId) : Tree → Tree → Prop
  | mk {i : NodeId} {n : Node Tree} {f : Tree → Tree} :
      (∀ c ∈ n.entered, Alike φ c (f c)) → Alike φ (.mk i n) (.mk (φ i) (n.map f))

variable {φ : NodeId → NodeId}

namespace Tree.Alike

variable {t t' : Tree}

theorem id_eq (h : t.Alike φ t') : t'.id = φ t.id := by
  cases h
  rfl

theorem kind_eq (h : t.Alike φ t') : t'.node.kind = t.node.kind := by
  cases h
  exact Node.kind_map _ _

theorem map_id_postorder (h : t.Alike φ t') :
    t'.postorder.map Tree.id = (t.postorder.map Tree.id).map φ := by
  induction h with
  | @mk i n f _ ih =>
    simp only [postorder_mk, Node.entered_map, List.flatMap_map, List.map_append, List.map_flatMap,
      List.map_cons, List.map_nil, id_mk]
    rw [List.flatMap_congr ih]

theorem rejections_eq (h : t.Alike φ t') :
    t'.rejections = t.rejections.map (Diagnostic.renumber φ) := by
  induction h with
  | @mk i n f _ ih =>
    rw [rejections_entered, rejections_entered, Node.rejection?_map, Node.entered_map, List.flatMap_map,
      List.flatMap_congr ih, List.map_append, List.map_flatMap]
    cases n.rejection? <;> rfl

theorem mem_postorder (h : t.Alike φ t') {u : Tree} (hu : u ∈ t.postorder) :
    ∃ u' ∈ t'.postorder, u.Alike φ u' := by
  induction h with
  | @mk i n f hf ih =>
    rcases mem_postorder_mk.1 hu with ⟨c, hc, hu⟩ | rfl
    · obtain ⟨u', hu', halike⟩ := ih c hc hu
      refine ⟨u', mem_postorder_mk.2 (.inl ⟨f c, ?_, hu'⟩), halike⟩
      rw [Node.entered_map]
      exact List.mem_map_of_mem hc
    · exact ⟨_, self_mem_postorder _, .mk hf⟩

section children

variable {n : Node Tree} {f : Tree → Tree}

theorem forall₂_children (hf : ∀ c ∈ n.children, c.Alike φ (f c)) :
    List.Forall₂ (Tree.Alike φ) n.children (n.map f).children := by
  rw [Node.children_map, List.forall₂_map_right_iff, List.forall₂_same]
  exact hf

theorem map_id_map (hf : ∀ c ∈ n.children, c.Alike φ (f c)) :
    (n.map f).map Tree.id = (n.map Tree.id).map φ := by
  rw [Node.map_map, Node.map_map]
  exact Node.map_congr fun c hc ↦ (hf c hc).id_eq

end children

theorem kind_main {i i' : NodeId} {functions functions' : List Tree} {main main' : Tree}
    (h : (Tree.mk i (.program functions main)).Alike φ (.mk i' (.program functions' main'))) :
    main'.node.kind = main.node.kind := by
  generalize ht : Tree.mk i (.program functions main) = t at h
  generalize ht' : Tree.mk i' (.program functions' main') = t' at h
  obtain @⟨j, n, f, hf⟩ := h
  obtain ⟨rfl, rfl⟩ := Tree.mk.inj ht
  obtain ⟨-, ht'⟩ := Tree.mk.inj ht'
  obtain ⟨-, rfl⟩ := Node.program.inj ht'
  exact (hf main (by simp [Node.entered, Node.kind, Node.children])).kind_eq

end Tree.Alike

namespace Arena

variable {a b : Arena} {root root' : NodeId} {t t' : Tree}

theorem Alike.exists_tree (h : Alike φ a root b root') (hb : b.IsForest) (ht : a.Holds t)
    (hm : a.Meets root t.id) : ∃ t', b.Holds t' ∧ t.Alike φ t' := by
  induction t with
  | mk i n ih =>
    obtain ⟨ψ, hget, hψ⟩ := h.get?_map hm ht.get?
    rw [Node.entered_map] at hψ
    have hc : ∀ c ∈ n.children, ∃ d : Tree, d.id = ψ c.id ∧ b.Holds d ∧
        (c ∈ n.entered → c.Alike φ d) := by
      intro c hchild
      by_cases hc : c ∈ n.entered
      · have hmeets : a.Meets root c.id := by
          refine hm.child ht.get? ?_
          rw [Node.entered_map]
          exact List.mem_map_of_mem hc
        obtain ⟨d, hd, halike⟩ := ih c hchild (ht.child hchild) hmeets
        refine ⟨d, ?_, hd, fun _ ↦ halike⟩
        rw [halike.id_eq, hψ _ (List.mem_map_of_mem hc)]
      · -- a child that is not visited has some tree in the other arena
        have hmem : ψ c.id ∈ ((n.map Tree.id).map ψ).children := by
          rw [Node.children_map, Node.children_map]
          exact List.mem_map_of_mem (List.mem_map_of_mem hchild)
        obtain ⟨m, hget', -⟩ := hb.sound hget hmem
        obtain ⟨d, hid, hd⟩ := hb.exists_tree hget'
        exact ⟨d, hid, hd, fun h ↦ absurd h hc⟩
    choose! f hf using hc
    refine ⟨.mk (φ i) (n.map f), .mk ?_ ?_, .mk fun c hc ↦ ?_⟩
    · have hmap : (n.map f).map Tree.id = (n.map Tree.id).map ψ := by
        rw [Node.map_map, Node.map_map]
        exact Node.map_congr fun c hc ↦ (hf c hc).1
      rw [hmap]
      exact hget
    · intro d hd
      rw [Node.children_map] at hd
      obtain ⟨c, hc, rfl⟩ := List.mem_map.1 hd
      exact (hf c hc).2.1
    · exact (hf c (n.entered_sublist.subset hc)).2.2 hc

end Arena

theorem Tree.Alike.phraseWithin_eq {a b : Arena} {t t' : Tree} (h : t.Alike φ t')
    (ha : a.IsForest) (hb : b.IsForest) (ht : a.Holds t) (ht' : b.Holds t') {d d' : ℕ}
    (hd : t.id.index < d) (hd' : t'.id.index < d') :
    a.phraseWithin d t.id = b.phraseWithin d' t'.id := by
  induction h generalizing d d' with
  | @mk i n f _ ih =>
    obtain ⟨d, rfl⟩ := Nat.exists_eq_add_one_of_ne_zero (Nat.ne_of_gt (Nat.zero_lt_of_lt hd))
    obtain ⟨d', rfl⟩ := Nat.exists_eq_add_one_of_ne_zero (Nat.ne_of_gt (Nat.zero_lt_of_lt hd'))
    have hc (c : Tree) (hc : c ∈ n.entered) :
        a.phraseWithin d c.id = b.phraseWithin d' (f c).id := by
      have hchild := n.entered_sublist.subset hc
      have hchild' : f c ∈ (n.map f).children := by
        rw [Node.children_map]
        exact List.mem_map_of_mem hchild
      have hlt := ht.lt ha hchild
      have hlt' := ht'.lt hb hchild'
      exact ih c hc (ht.child hchild) (ht'.child hchild') (by omega) (by omega)
    have hnode := ht.node_eq
    have hnode' := ht'.node_eq
    simp only [Tree.id_mk, Tree.node_mk] at hnode hnode'
    rw [Tree.id_mk, Tree.id_mk, Arena.phraseWithin, Arena.phraseWithin, hnode, hnode']
    cases n with
    | program | executableBlock | variableBlock | statementBlock | functionDefinition | intLiteral
    | boolLiteral | stringLiteral | variableRef => rfl
    | variableDeclaration _ _ c | returnStatement c =>
      cases c with
      | none => rfl
      | some c =>
        have := hc c (by simp [Node.entered, Node.kind, Node.children])
        simp only [Node.map, Option.map, bind, Except.bind, this]
    | assignment _ c | whileStatement c _ | printStatement c | parenthesized c | unary _ c =>
      have := hc c (by simp [Node.entered, Node.kind, Node.children])
      simp only [Node.map, bind, Except.bind, this]
    | ifStatement c _ e =>
      have := hc c (by simp [Node.entered, Node.kind, Node.children])
      simp only [Node.map, bind, Except.bind, this, Option.isSome_map]
    | mulDiv _ l r | addSub _ l r | compare _ l r =>
      have hl := hc l (by simp [Node.entered, Node.kind, Node.children])
      have hr := hc r (by simp [Node.entered, Node.kind, Node.children])
      simp only [Node.map, bind, Except.bind, Arena.binaryPhrase, hl, hr]
    | functionCall _ cs =>
      have hcs : (cs.map Tree.id).mapM (a.phraseWithin d) =
          ((cs.map f).map Tree.id).mapM (b.phraseWithin d') := by
        rw [List.mapM_map, List.map_map, List.mapM_map]
        exact List.mapM_congr_of_mem fun c h ↦ hc c (by simpa [Node.entered, Node.kind, Node.children])
      simp only [Node.map, bind, Except.bind, hcs]

theorem Tree.Alike.phraseOf_eq {a b : Arena} {t t' : Tree} (h : t.Alike φ t')
    (ha : a.IsForest) (hb : b.IsForest) (ht : a.Holds t) (ht' : b.Holds t') :
    b.phraseOf t'.id = a.phraseOf t.id := by
  have hp : a.phrase t.id = b.phrase t'.id :=
    h.phraseWithin_eq ha hb ht ht' ht.index_lt_maxDepth ht'.index_lt_maxDepth
  rw [Arena.phraseOf, Arena.phraseOf, hp]

namespace Typing

/-- The states are equal up to the numbers of the nodes, which are among those of `D`. -/
structure Matches (D : NodeId → Prop) (φ : NodeId → NodeId) (s s' : Typing) : Prop where
  scopes : s'.scopes = s.scopes
  current : s'.current = s.current
  report : s'.report = s.report.map (Diagnostic.renumber φ)
  types {i : NodeId} : D i → s'.types.get? (φ i) = s.types.get? i
  onto {j : NodeId} {type : Ty} :
    s'.types.get? j = some type → ∃ i, φ i = j ∧ s.types.get? i = some type
  within {i : NodeId} {type : Ty} : s.types.get? i = some type → D i

namespace Matches

variable {D : NodeId → Prop} {s s' : Typing} {i : NodeId}

theorem type_eq (h : s.Matches D φ s') (hi : D i) : s'.type (φ i) = s.type i := by
  rw [Typing.type, Typing.type, h.types hi]

theorem lookup_eq (h : s.Matches D φ s') (name : String) : s'.lookup name = s.lookup name := by
  rw [lookup, lookup, h.scopes, h.current]

theorem inScope (h : s.Matches D φ s') (u : ScopeId) : (s.inScope u).Matches D φ (s'.inScope u) :=
  ⟨h.scopes, rfl, h.report, h.types, h.onto, h.within⟩

theorem verdict_eq (h : s.Matches D φ s') {phrase phrase' : NodeId → String} {n : Node NodeId}
    (hn : ∀ c ∈ n.children, D c ∧ phrase' (φ c) = phrase c) :
    s'.verdict phrase' (n.map φ) = s.verdict phrase n := by
  have htype (c : NodeId) (hc : c ∈ n.children) : s'.type (φ c) = s.type c := h.type_eq (hn c hc).1
  have hphrase (c : NodeId) (hc : c ∈ n.children) : phrase' (φ c) = phrase c := (hn c hc).2
  cases n with
  | variableDeclaration name declared init =>
    cases init <;> cases hx : s.scopes.local? s.current name <;>
      simp_all [Node.map, Node.children, verdict, declarationVerdict, h.scopes, h.current]
  | assignment name value =>
    cases hx : s.lookup name <;>
      simp_all [Node.map, Node.children, verdict, assignmentVerdict, h.lookup_eq]
  | variableRef name => simp [Node.map, verdict, h.lookup_eq]
  | _ => simp_all [Node.map, Node.children, verdict]

theorem give (h : s.Matches D φ s') (hφ : ∀ i j, D i → D j → φ i = φ j → i = j) (hi : D i)
    (v : Verdict) : (s.give i v).Matches D φ (s'.give (φ i) v) where
  scopes := by simp [Typing.give, h.scopes, h.current]
  current := h.current
  report := by cases hc : v.complaint <;> simp [Typing.give, h.report, hc]; rfl
  types {j} hj := by
    cases hv : v.type with
    | none => simpa [Typing.give, hv] using h.types hj
    | some type =>
      have hij : φ i = φ j ↔ i = j := ⟨hφ i j hi hj, congrArg φ⟩
      simp only [Typing.give, hv, Option.elim_some, NodeTable.get?_write, h.types hi, h.types hj, hij]
  onto {j type} ht := by
    cases hv : v.type with
    | none => exact h.onto (by simpa [Typing.give, hv] using ht) |>.imp (by simp [Typing.give, hv])
    | some τ =>
      simp only [Typing.give, hv, Option.elim_some, NodeTable.get?_write] at ht ⊢
      split at ht
      · rename_i hj
        refine ⟨i, hj.1, ?_⟩
        rw [if_pos ⟨rfl, by rw [← h.types hi]; exact hj.2⟩, ht]
      · obtain ⟨k, hk, hkt⟩ := h.onto ht
        refine ⟨k, hk, ?_⟩
        rw [if_neg, hkt]
        rintro ⟨rfl, hnone⟩
        simp [hnone] at hkt
  within {j type} ht := by
    cases hv : v.type with
    | none => exact h.within (by simpa [Typing.give, hv] using ht)
    | some τ =>
      simp only [Typing.give, hv, Option.elim_some, NodeTable.get?_write] at ht
      split at ht
      · rename_i hj
        exact hj.1 ▸ hi
      · exact h.within ht

end Matches

/-- The second pass goes through related states in trees that are alike. -/
theorem Judged.alike {D : NodeId → Prop} {phrase phrase' : NodeId → String} {ts ts' : List Tree}
    {s s₁ s' : Typing} (h : Judged phrase ts s s₁)
    (hφ : ∀ i j, D i → D j → φ i = φ j → i = j) (hts : List.Forall₂ (Tree.Alike φ) ts ts')
    (hD : ∀ t ∈ ts, ∀ u ∈ t.postorder, D u.id ∧ phrase' (φ u.id) = phrase u.id)
    (hs : s.Matches D φ s') :
    ∃ s₁', Judged phrase' ts' s' s₁' ∧ s₁.Matches D φ s₁' := by
  induction h generalizing ts' s' with
  | nil =>
    cases hts
    exact ⟨s', .nil, hs⟩
  | @skip s s₁ i n ts hk _ ih =>
    cases hts with
    | cons ht hts =>
      obtain ⟨s₁', hj, hm⟩ := ih hts (fun t h ↦ hD t (List.mem_cons_of_mem _ h)) hs
      cases ht
      exact ⟨s₁', .skip (by simpa using hk) hj, hm⟩
  | @cons s s₁ s₂ i n ts hk _ _ ihc iht =>
    cases hts with
    | cons ht hts =>
      obtain @⟨_, _, f, hf⟩ := ht
      have hnode := hD _ List.mem_cons_self
      rw [Node.entered_eq hk] at hf
      have hDc : ∀ c ∈ n.children, ∀ u ∈ c.postorder, D u.id ∧ phrase' (φ u.id) = phrase u.id :=
        fun c hc u hu ↦ hnode u (Tree.mem_postorder_mk.2 (.inl ⟨c, by rwa [Node.entered_eq hk], hu⟩))
      obtain ⟨s₁', hj, hm⟩ := ihc (Tree.Alike.forall₂_children hf) hDc (hs.inScope (n.innerScope s.current))
      have hverdict : s₁'.verdict phrase' ((n.map f).map Tree.id) =
          s₁.verdict phrase (n.map Tree.id) := by
        rw [Tree.Alike.map_id_map hf]
        refine hm.verdict_eq fun c hc ↦ ?_
        rw [Node.children_map] at hc
        obtain ⟨u, hu, rfl⟩ := List.mem_map.1 hc
        exact hDc u hu u u.self_mem_postorder
      have hgive := (hm.give hφ (hnode _ (Tree.self_mem_postorder _)).1
        (s₁.verdict phrase (n.map Tree.id))).inScope s.current
      obtain ⟨s₂', hj₂, hm₂⟩ := iht hts (fun t h ↦ hD t (List.mem_cons_of_mem _ h)) hgive
      rw [← hs.current] at hj hj₂
      rw [← n.innerScope_map f] at hj
      refine ⟨s₂', .cons (by simpa using hk) hj ?_, hm₂⟩
      rw [hverdict]
      exact hj₂

end Typing

namespace Arena

variable {a b : Arena} {root root' : NodeId} {functions : List Tree} {main : Tree}

theorem Alike.exists_program (h : Alike φ a root b root') (hv : a.validate = .ok root)
    (hv' : b.validate = .ok root') :
    ∃ functions main functions' main',
      a.Holds (.mk root (.program functions main)) ∧
      b.Holds (.mk root' (.program functions' main')) ∧
      (Tree.mk root (.program functions main)).Alike φ (.mk root' (.program functions' main')) := by
  obtain ⟨-, functions, main, ht⟩ := Arena.exists_program hv
  obtain ⟨hb, -⟩ := Arena.exists_program hv'
  obtain ⟨t', ht', halike⟩ := h.exists_tree hb ht .refl
  obtain @⟨_, _, f, hf⟩ := halike
  obtain rfl := h.map_root
  exact ⟨functions, main, functions.map f, f main, ht, ht', .mk hf⟩

theorem Holds.injective_of_alike (hb : b.IsForest) {t t' : Tree} (ht : a.Holds t)
    (ht' : b.Holds t') (h : t.Alike φ t') :
    ∀ i j, a.Meets t.id i → a.Meets t.id j → φ i = φ j → i = j := by
  intro i j hi hj hij
  have hnodup := ht'.nodup_postorder hb
  rw [h.map_id_postorder] at hnodup
  obtain ⟨u, hu, rfl⟩ := ht.meets_iff.1 hi
  obtain ⟨v, hv, rfl⟩ := ht.meets_iff.1 hj
  exact List.inj_on_of_nodup_map hnodup (List.mem_map_of_mem hu) (List.mem_map_of_mem hv) hij

theorem Holds.judged_of_alike (ha : a.IsForest) (hb : b.IsForest) {functions' : List Tree}
    {main' : Tree} (ht : a.Holds (.mk root (.program functions main)))
    (ht' : b.Holds (.mk root' (.program functions' main')))
    (h : (Tree.mk root (.program functions main)).Alike φ (.mk root' (.program functions' main')))
    {s s' : Typing}
    (hs : Typing.Judged a.phraseOf [.mk root (.program functions main)]
      { scopes := forMain main
        report := (Tree.mk root (.program functions main)).rejections.toArray } s)
    (hs' : Typing.Judged b.phraseOf [.mk root' (.program functions' main')]
      { scopes := forMain main'
        report := (Tree.mk root' (.program functions' main')).rejections.toArray } s') :
    s.Matches (a.Meets root) φ s' := by
  have hvisited : ∀ u ∈ (Tree.mk root (.program functions main)).postorder,
      a.Meets root u.id ∧ b.phraseOf (φ u.id) = a.phraseOf u.id := by
    intro u hu
    obtain ⟨u', hu', halike⟩ := h.mem_postorder hu
    refine ⟨ht.meets_iff.2 ⟨u, hu, rfl⟩, ?_⟩
    rw [← halike.id_eq]
    exact halike.phraseOf_eq ha hb (ht.of_mem_postorder hu) (ht'.of_mem_postorder hu')
  have hstart : Typing.Matches (a.Meets root) φ
      { scopes := forMain main
        report := (Tree.mk root (.program functions main)).rejections.toArray }
      { scopes := forMain main'
        report := (Tree.mk root' (.program functions' main')).rejections.toArray } :=
    ⟨by rw [forMain, forMain, h.kind_main], rfl, by rw [h.rejections_eq, List.map_toArray],
      by simp, by simp, by simp⟩
  obtain ⟨s₁, hj, hm⟩ := hs.alike (ht.injective_of_alike hb ht' h) (.cons h .nil)
    (by simpa using hvisited) hstart
  obtain rfl := hj.unique hs'
  exact hm

end Arena

section code

variable {r r' : Analysis} {part part' : NodeId → Fragment} {u : ScopeId}

theorem compose_map {i : NodeId} {p : Places} {n : Node NodeId} (hscopes : r'.scopes = r.scopes)
    (hi : r'.types.get? (φ i) = r.types.get? i)
    (hn : ∀ c ∈ n.children, r'.types.get? (φ c) = r.types.get? c ∧ part' (φ c) = part c) :
    compose r' u part' (φ i) p (n.map φ) = compose r u part i p n := by
  have htypes (c : NodeId) (hc : c ∈ n.children) := (hn c hc).1
  have hpart (c : NodeId) (hc : c ∈ n.children) := (hn c hc).2
  have hparts : (n.map φ).children.flatMap part' = n.children.flatMap part := by
    rw [Node.children_map, List.flatMap_map]
    exact List.flatMap_congr hpart
  cases n with
  | executableBlock | variableBlock | statementBlock => exact congrArg (·, p) hparts
  | variableDeclaration name type init =>
    cases init <;> simp_all [Node.map, Node.children, compose]
  | ifStatement condition thenBlock elseBlock =>
    cases elseBlock <;> simp_all [Node.map, Node.children, compose]
  | unary op operand => cases op <;> simp_all [Node.map, Node.children, compose]
  | _ => simp_all [Node.map, Node.children, compose]

theorem Coded.alike {ts ts' : List Tree} {p q q' : Places} (h : Coded r part u ts p q)
    (h' : Coded r' part' u ts' p q') (hts : List.Forall₂ (Tree.Alike φ) ts ts')
    (hp : ∀ t ∈ ts, t.Plain) (hscopes : r'.scopes = r.scopes)
    (htypes : ∀ i ∈ ts.flatMap Tree.ids, r'.types.get? (φ i) = r.types.get? i) :
    q' = q ∧ ∀ i ∈ ts.flatMap Tree.ids, part' (φ i) = part i := by
  induction h generalizing ts' q' with
  | nil =>
    cases hts
    cases h'
    exact ⟨rfl, by simp⟩
  | @cons u i n ts p q p₁ q₁ hc hi _ ihc iht =>
    cases hts with
    | cons ht hts =>
      have hpn := hp _ List.mem_cons_self
      have hk : n.kind ≠ .functionDefinition := hpn.kind_ne
      obtain @⟨_, _, f, hf⟩ := ht
      obtain ⟨-, hpc⟩ := hpn
      rw [Node.entered_eq hk] at hf
      simp only [List.flatMap_cons, Tree.ids_mk, List.mem_append, List.mem_singleton] at htypes ⊢
      cases h' with
      | @cons _ _ _ _ _ q' p₁' _ hc' hi' hts' =>
        rw [Node.innerScope_map] at hc' hi'
        obtain ⟨rfl, hpart⟩ := ihc hc' (Tree.Alike.forall₂_children hf) hpc
          fun j hj ↦ htypes j (.inl (.inl hj))
        have hnode : (part' (φ i), p₁') = (part i, p₁) := by
          rw [← hi', ← hi, Tree.Alike.map_id_map hf]
          refine compose_map hscopes (htypes i (.inl (.inr rfl))) fun c hc ↦ ?_
          rw [Node.children_map] at hc
          obtain ⟨d, hd, rfl⟩ := List.mem_map.1 hc
          have hmem := List.mem_flatMap.2 ⟨d, hd, d.id_mem_ids⟩
          exact ⟨htypes _ (.inl (.inl hmem)), hpart _ hmem⟩
        obtain ⟨hparti, rfl⟩ := Prod.mk.inj hnode
        obtain ⟨rfl, hparts⟩ := iht hts' hts (fun t h ↦ hp t (List.mem_cons_of_mem _ h))
          fun j hj ↦ htypes j (.inr hj)
        refine ⟨rfl, ?_⟩
        rintro j ((hj | rfl) | hj)
        · exact hpart j hj
        · exact hparti
        · exact hparts j hj

end code

namespace Arena

variable {a b : Arena} {root root' : NodeId}

/-- The tree below the one root is that below the other, with the numbers of its nodes mapped by `φ`.
Nodes that are not reached do not matter. -/
structure Renumbered (φ : NodeId → NodeId) (a : Arena) (root : NodeId) (b : Arena)
    (root' : NodeId) : Prop where
  map_root : φ root = root'
  get?_map {i : NodeId} {n : Node NodeId} :
    a.Reaches root i → a.get? i = some n → b.get? (φ i) = some (n.map φ)

theorem Renumbered.alike (h : Renumbered φ a root b root') : Alike φ a root b root' :=
  ⟨h.map_root, fun hm hn ↦ ⟨φ, h.get?_map hm.reaches hn, fun _ _ ↦ rfl⟩⟩

/-- Arenas that are alike are analysed to related ends, and compiled to the same text if there are no
diagnostics. -/
theorem Alike.compile (h : Alike φ a root b root') (hv : a.validate = .ok root)
    (hv' : b.validate = .ok root') :
    ∃ s s' : Typing, (a.analyze root).outcome.result = .ok s.analysis ∧
      (b.analyze root').outcome.result = .ok s'.analysis ∧ s.Matches (a.Meets root) φ s' ∧
      if s.report = #[] then
        ∃ text, (a.compile .asm).outcome.result = .ok (.ok text) ∧
          (b.compile .asm).outcome.result = .ok (.ok text)
      else
        (a.compile .asm).outcome.result = .ok (.error (.rejected s.report)) ∧
          (b.compile .asm).outcome.result = .ok (.error (.rejected s'.report)) := by
  obtain ⟨functions, main, functions', main', ht, ht', halike⟩ := h.exists_program hv hv'
  obtain ⟨ha, -⟩ := Arena.exists_program hv
  obtain ⟨hb, -⟩ := Arena.exists_program hv'
  obtain ⟨_, run, hr, ⟨s, hs, rfl⟩, hacc⟩ := Pass.ends_iff.1 (ends_analyze ha ht ⟨(), #[]⟩)
  obtain ⟨_, run', hr', ⟨s', hs', rfl⟩, hacc'⟩ := Pass.ends_iff.1 (ends_analyze hb ht' ⟨(), #[]⟩)
  have hm := ht.judged_of_alike ha hb ht' halike hs hs'
  have hempty : s'.report = #[] ↔ s.report = #[] := by simp [hm.report]
  refine ⟨s, s', result_analyze hr, result_analyze hr', hm, ?_⟩
  split
  · rename_i he
    have hacc := hacc he
    obtain ⟨_, _, hg, g, rfl, hgen⟩ := Pass.ends_iff.1 (ends_generate ha ht he hacc run)
    obtain ⟨_, _, hg', g', rfl, hgen'⟩ :=
      Pass.ends_iff.1 (ends_generate hb ht' (hempty.2 he) (hacc' (hempty.2 he)) run')
    have htypes : ∀ i ∈ (Tree.mk root (.program functions main)).ids,
        s'.types.get? (φ i) = s.types.get? i := by
      intro i hi
      rw [← hacc.plain.map_id_postorder] at hi
      obtain ⟨u, hu, rfl⟩ := List.mem_map.1 hi
      exact hm.types (ht.meets_iff.2 ⟨u, hu, rfl⟩)
    obtain ⟨-, hpart⟩ := hgen.coded.alike hgen'.coded (.cons halike .nil)
      (by simpa using hacc.plain) hm.scopes (by simpa using htypes)
    have hroot : g'.part root' = g.part root := by
      rw [← h.map_root]
      exact hpart root (by simp)
    refine ⟨_, result_asm_of_generate hv hr he hg, ?_⟩
    rw [result_asm_of_generate hv' hr' (hempty.2 he) hg']
    simp only [Tree.id_mk, hroot]
  · rename_i he
    exact ⟨result_asm_of_report hv hr he, result_asm_of_report hv' hr' (hempty.not.2 he)⟩

/-- What is compiled is the tree and not its layout. If the numbers of the nodes that are reached from
the roots of two valid arenas correspond, then so do the diagnostics and the types that are found,
and either both arenas are compiled to the same text or both are rejected. -/
theorem compile_eq_of_renumbered (hv : a.validate = .ok root) (hv' : b.validate = .ok root')
    (h : Renumbered φ a root b root') :
    ∃ r r' : Analysis, (a.analyze root).outcome.result = .ok r ∧
      (b.analyze root').outcome.result = .ok r' ∧
      r'.report = r.report.map (Diagnostic.renumber φ) ∧
      (∀ i, r.types.contains i → a.Reaches root i) ∧
      (∀ j type, r'.types.get? j = some type ↔ ∃ i, φ i = j ∧ r.types.get? i = some type) ∧
      ((∃ text, (a.compile .asm).outcome.result = .ok (.ok text) ∧
          (b.compile .asm).outcome.result = .ok (.ok text)) ∨
        (a.compile .asm).outcome.result = .ok (.error (.rejected r.report)) ∧
          (b.compile .asm).outcome.result = .ok (.error (.rejected r'.report))) := by
  obtain ⟨s, s', hr, hr', hm, hcompile⟩ := h.alike.compile hv hv'
  refine ⟨s.analysis, s'.analysis, hr, hr', hm.report, fun i hi ↦ ?_, fun j type ↦ ⟨hm.onto, ?_⟩, ?_⟩
  · rw [NodeTable.contains_eq_isSome_get?] at hi
    obtain ⟨type, htype⟩ := Option.isSome_iff_exists.1 hi
    exact (hm.within htype).reaches
  · rintro ⟨i, rfl, htype⟩
    exact (hm.types (hm.within htype)).trans htype
  · split at hcompile
    · exact .inl hcompile
    · exact .inr hcompile

end Arena

/-- The program `print "a" + "b"`, laid out in the first of two ways. -/
def joined : Arena where
  nodes := #[.stringLiteral "a", .stringLiteral "b", .addSub .add ⟨0⟩ ⟨1⟩, .printStatement ⟨2⟩,
    .statementBlock [⟨3⟩], .executableBlock none ⟨4⟩, .program [] ⟨5⟩]
  root := some ⟨6⟩

namespace joined

def relaid : Arena where
  nodes := #[.stringLiteral "b", .variableRef "unused", .stringLiteral "a", .addSub .add ⟨2⟩ ⟨0⟩,
    .printStatement ⟨3⟩, .statementBlock [⟨4⟩], .executableBlock none ⟨5⟩, .program [] ⟨6⟩]
  root := some ⟨7⟩

def renumber (i : NodeId) : NodeId :=
  if i = ⟨0⟩ then ⟨2⟩ else if i = ⟨1⟩ then ⟨0⟩ else ⟨i.val + 1⟩

theorem validate_eq : joined.validate = .ok ⟨6⟩ :=
  Arena.validate_of_sound (by decide) (by decide) (by decide)

theorem validate_relaid : relaid.validate = .ok ⟨7⟩ :=
  Arena.validate_of_sound (by decide) (by decide) (by decide)

theorem renumbered : Arena.Renumbered renumber joined ⟨6⟩ relaid ⟨7⟩ where
  map_root := rfl
  get?_map {i n} _ hn := by
    have hall : ∀ p ∈ joined.toList, relaid.get? (renumber p.1) = some (p.2.map renumber) := by
      decide
    exact hall (i, n) (Arena.mem_toList hn)

theorem compile_eq_of_renumbered_at :
    joined.validate = .ok ⟨6⟩ ∧ relaid.validate = .ok ⟨7⟩ ∧
    Arena.Renumbered renumber joined ⟨6⟩ relaid ⟨7⟩ ∧
    ∃ r r' : Analysis, (joined.analyze ⟨6⟩).outcome.result = .ok r ∧
      (relaid.analyze ⟨7⟩).outcome.result = .ok r' ∧
      r'.report = r.report.map (Diagnostic.renumber renumber) ∧
      (∀ j type, r'.types.get? j = some type ↔ ∃ i, renumber i = j ∧ r.types.get? i = some type) ∧
      ((∃ text, (joined.compile .asm).outcome.result = .ok (.ok text) ∧
          (relaid.compile .asm).outcome.result = .ok (.ok text)) ∨
        (joined.compile .asm).outcome.result = .ok (.error (.rejected r.report)) ∧
          (relaid.compile .asm).outcome.result = .ok (.error (.rejected r'.report))) := by
  obtain ⟨r, r', hr, hr', hreport, -, htypes, hcompile⟩ :=
    Arena.compile_eq_of_renumbered validate_eq validate_relaid renumbered
  exact ⟨validate_eq, validate_relaid, renumbered, r, r', hr, hr', hreport, htypes, hcompile⟩

end joined

end SpimCompiler
