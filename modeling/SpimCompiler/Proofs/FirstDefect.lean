import SpimCompiler.Proofs.Forest

namespace SpimCompiler

/-- The place of a child in an arena: the position of its parent, and its own among the children. -/
structure Slot where
  parent : Nat
  position : Nat
deriving DecidableEq, Repr

def Slot.Before (x y : Slot) : Prop :=
  x.parent < y.parent ∨ x.parent = y.parent ∧ x.position < y.position

instance (x y : Slot) : Decidable (x.Before y) := inferInstanceAs (Decidable (_ ∨ _ ∧ _))

theorem Slot.Before.asymm {x y : Slot} (h : x.Before y) : ¬y.Before x := by
  unfold Before at *
  omega

def Node.block? {ι : Type} : Node ι → Option ι
  | .program _ main => some main
  | .functionDefinition _ _ _ body => some body
  | _ => none

def Node.Admits (n : Node NodeId) (id : NodeId) (c : Node NodeId) : Prop :=
  c.kind ≠ .program ∧ (c.kind = .executableBlock → n.block? = some id)

theorem Node.accepts_iff {n c : Node NodeId} {id : NodeId} : n.accepts id c ↔ n.Admits id c := by
  cases c with
  | executableBlock => cases n <;> simp [accepts, Admits, block?, kind]
  | _ => simp [accepts, Admits, kind]

namespace Arena

variable {a : Arena} {x y : Slot} {e : Edge} {d d' : Defect}

def edgeAt? (a : Arena) (x : Slot) : Option Edge :=
  (a.nodes[x.parent]?).bind fun n ↦
    (n.children[x.position]?).map fun c ↦ ⟨.ofIndex x.parent, n, c⟩

/-- What is wrong at a slot. A rule is broken only where the rules before it are kept. -/
inductive DefectAt (a : Arena) (x : Slot) : Defect → Prop
  | dangling {e : Edge} : a.edgeAt? x = some e → a.get? e.child = none →
      DefectAt a x (.danglingChild e.parent e.child)
  | forward {e : Edge} {c : Node NodeId} : a.edgeAt? x = some e → a.get? e.child = some c →
      e.parent.index ≤ e.child.index → DefectAt a x (.forwardReference e.parent e.child)
  | shared {e f : Edge} {c : Node NodeId} {y : Slot} : a.edgeAt? x = some e →
      a.get? e.child = some c → e.child.index < e.parent.index →
      y.Before x → a.edgeAt? y = some f → f.child = e.child → DefectAt a x (.sharedNode e.child)
  | misplaced {e : Edge} {c : Node NodeId} : a.edgeAt? x = some e → a.get? e.child = some c →
      e.child.index < e.parent.index →
      (∀ y f, y.Before x → a.edgeAt? y = some f → f.child ≠ e.child) →
      ¬e.node.Admits e.child c → DefectAt a x (.misplacedNode e.parent e.child c.kind)

inductive RootDefect (a : Arena) : Defect → Prop
  | missing : (∀ r, a.root = some r → a.get? r = none) → RootDefect a .missingRoot
  | notProgram {r : NodeId} {n : Node NodeId} : a.root = some r → a.get? r = some n →
      n.kind ≠ .program → RootDefect a (.rootNotProgram n.kind)

def slots (a : Arena) : List (Slot × Edge) :=
  a.nodes.toList.zipIdx.flatMap fun (n, i) ↦
    n.children.zipIdx.map fun (c, k) ↦ (⟨i, k⟩, ⟨.ofIndex i, n, c⟩)

theorem edges_eq (a : Arena) : a.edges = a.slots.map Prod.snd := by
  have hchildren (i : Nat) (n : Node NodeId) :
      n.children.map (fun c ↦ Edge.mk (.ofIndex i) n c) =
        n.children.zipIdx.map fun p ↦ Edge.mk (.ofIndex i) n p.1 := by
    conv_lhs => rw [← List.zipIdx_map_fst 0 n.children, List.map_map]
    rfl
  simp only [edges, toList, slots, List.flatMap_map, List.map_flatMap, List.map_map, hchildren,
    Function.comp_def]

theorem mem_slots {p : Slot × Edge} : p ∈ a.slots ↔ a.edgeAt? p.1 = some p.2 := by
  obtain ⟨⟨i, k⟩, e⟩ := p
  simp only [slots, edgeAt?, List.mem_flatMap, List.mem_map, Prod.exists, Prod.mk.injEq,
    Slot.mk.injEq, List.mem_zipIdx_iff_getElem?, Array.getElem?_toList, Option.bind_eq_some_iff,
    Option.map_eq_some_iff]
  constructor
  · rintro ⟨n, _, hn, c, _, hc, ⟨rfl, rfl⟩, rfl⟩
    exact ⟨n, hn, c, hc, rfl⟩
  · rintro ⟨n, hn, c, hc, rfl⟩
    exact ⟨n, i, hn, c, k, hc, ⟨rfl, rfl⟩, rfl⟩

theorem pairwise_slots (a : Arena) : a.slots.Pairwise fun p q ↦ p.1.Before q.1 := by
  have hidx {α : Type} (l : List α) : l.zipIdx.Pairwise fun p q ↦ p.2 < q.2 := by
    have h : (l.zipIdx.map Prod.snd).Pairwise (· < ·) := by
      rw [List.zipIdx_map_snd]
      exact List.pairwise_lt_range'
    exact List.pairwise_map.1 h
  rw [slots, List.pairwise_flatMap]
  constructor
  · rintro ⟨n, i⟩ -
    exact List.pairwise_map.2 ((hidx _).imp fun h ↦ .inr ⟨rfl, h⟩)
  · refine (hidx _).imp fun {p q} h x hx y hy ↦ ?_
    obtain ⟨_, -, rfl⟩ := List.mem_map.1 hx
    obtain ⟨_, -, rfl⟩ := List.mem_map.1 hy
    exact .inl h

theorem mem_front_iff {front behind : List (Slot × Edge)} {p q : Slot × Edge}
    (h : a.slots = front ++ p :: behind) : q ∈ front ↔ q ∈ a.slots ∧ q.1.Before p.1 := by
  have hp := a.pairwise_slots
  rw [h, List.pairwise_append, List.pairwise_cons] at hp
  obtain ⟨-, ⟨hbehind, -⟩, hfront⟩ := hp
  rw [h]
  constructor
  · intro hq
    exact ⟨List.mem_append_left _ hq, hfront q hq p List.mem_cons_self⟩
  · rintro ⟨hq, hlt⟩
    rcases List.mem_append.1 hq with hq | hq
    · exact hq
    · rcases List.mem_cons.1 hq with rfl | hq
      · exact absurd hlt hlt.asymm
      · exact absurd hlt (hbehind q hq).asymm

def namedBefore (a : Arena) (x : Slot) : Std.HashSet NodeId :=
  .ofList ((a.slots.filter fun q ↦ q.1.Before x).map (·.2.child))

theorem mem_namedBefore {c : NodeId} :
    c ∈ a.namedBefore x ↔ ∃ y f, y.Before x ∧ a.edgeAt? y = some f ∧ f.child = c := by
  simp [namedBefore, mem_slots, and_comm, and_assoc]

def defectOf? (a : Arena) (p : Slot × Edge) : Option Defect :=
  a.defectAt? (a.namedBefore p.1) p.2

theorem defectOf?_eq_some_iff (hx : a.edgeAt? x = some e) :
    a.defectOf? (x, e) = some d ↔ a.DefectAt x d := by
  constructor
  · intro hd
    unfold defectOf? defectAt? at hd
    split at hd
    · rename_i hc
      cases hd
      exact .dangling hx hc
    · rename_i c hc
      split_ifs at hd with hle hs ha
      · cases hd
        exact .forward hx hc (UInt32.le_iff_toNat_le.1 hle)
      · cases hd
        obtain ⟨y, f, hlt, hy, hf⟩ := mem_namedBefore.1 (Std.HashSet.contains_iff_mem.1 hs)
        exact .shared hx hc (NodeId.index_lt_iff.2 hle) hlt hy hf
      · cases hd
        refine .misplaced hx hc (NodeId.index_lt_iff.2 hle) (fun y f hlt hy hf ↦ hs ?_)
          (mt Node.accepts_iff.2 ha)
        exact Std.HashSet.contains_iff_mem.2 (mem_namedBefore.2 ⟨y, f, hlt, hy, hf⟩)
  · intro hd
    unfold defectOf? defectAt?
    cases hd with
    | dangling he hc =>
      obtain rfl := Option.some.inj (hx.symm.trans he)
      simp [hc]
    | forward he hc hle =>
      obtain rfl := Option.some.inj (hx.symm.trans he)
      have hge : e.child.val ≥ e.parent.val := UInt32.le_iff_toNat_le.2 hle
      simp [hc, hge]
    | shared he hc hlt hy hf hfe =>
      obtain rfl := Option.some.inj (hx.symm.trans he)
      have hs : e.child ∈ a.namedBefore x := mem_namedBefore.2 ⟨_, _, hy, hf, hfe⟩
      simp [hc, NodeId.index_lt_iff.1 hlt, hs]
    | misplaced he hc hlt hnot hadmits =>
      obtain rfl := Option.some.inj (hx.symm.trans he)
      have hs : e.child ∉ a.namedBefore x := fun hs ↦ by
        obtain ⟨y, f, hy, hf, hfe⟩ := mem_namedBefore.1 hs
        exact hnot y f hy hf hfe
      have ha := mt Node.accepts_iff.1 hadmits
      simp [hc, NodeId.index_lt_iff.1 hlt, hs, ha]

theorem DefectAt.exists_edge (h : a.DefectAt x d) : ∃ e, a.edgeAt? x = some e := by
  cases h <;> exact ⟨_, ‹_›⟩

/-- The check of the slots behind some others, whose children it remembers. -/
theorem firstDefect?_eq_findSome? {seen : Std.HashSet NodeId} (front : List (Slot × Edge))
    {rest : List (Slot × Edge)} (h : a.slots = front ++ rest)
    (hseen : ∀ c, c ∈ seen ↔ c ∈ front.map (·.2.child)) :
    a.firstDefect? seen (rest.map Prod.snd) = rest.findSome? a.defectOf? := by
  induction rest generalizing seen front with
  | nil => rfl
  | cons p rest ih =>
    have hmem : p.2.child ∈ seen ↔ p.2.child ∈ a.namedBefore p.1 := by
      simp only [hseen, List.mem_map, mem_front_iff h, mem_slots, mem_namedBefore, Prod.exists,
        and_assoc, and_left_comm]
    have hat : a.defectAt? seen p.2 = a.defectOf? p := by
      simp only [defectOf?, defectAt?, ← Std.HashSet.mem_iff_contains, hmem]
    have hseen' : ∀ c, c ∈ seen.insert p.2.child ↔ c ∈ (front ++ [p]).map (·.2.child) := by
      intro c
      simp only [Std.HashSet.mem_insert, hseen, List.map_append, List.mem_append, beq_iff_eq,
        List.map_cons, List.map_nil, List.mem_singleton]
      rw [or_comm, eq_comm]
    rw [List.map_cons, firstDefect?, List.findSome?_cons, hat,
      ih (front ++ [p]) (by simpa using h) hseen']
    cases a.defectOf? p <;> rfl

theorem firstDefect?_edges (a : Arena) :
    a.firstDefect? ∅ a.edges = a.slots.findSome? a.defectOf? := by
  rw [edges_eq]
  exact firstDefect?_eq_findSome? [] rfl (by simp)

theorem firstDefect?_eq_none_iff :
    a.firstDefect? ∅ a.edges = none ↔ ∀ x d, ¬a.DefectAt x d := by
  rw [firstDefect?_edges, List.findSome?_eq_none_iff]
  constructor
  · intro h x d hd
    obtain ⟨e, hx⟩ := hd.exists_edge
    have hnone := h (x, e) (mem_slots.2 hx)
    rw [(defectOf?_eq_some_iff hx).2 hd] at hnone
    cases hnone
  · rintro h ⟨x, e⟩ hp
    refine Option.eq_none_iff_forall_ne_some.2 fun d hd ↦ ?_
    exact h x d ((defectOf?_eq_some_iff (mem_slots.1 hp)).1 hd)

theorem firstDefect?_eq_some_iff :
    a.firstDefect? ∅ a.edges = some d ↔
      ∃ x, a.DefectAt x d ∧ ∀ y, y.Before x → ∀ d', ¬a.DefectAt y d' := by
  rw [firstDefect?_edges, List.findSome?_eq_some_iff]
  constructor
  · rintro ⟨front, ⟨x, e⟩, behind, hs, hd, hfront⟩
    have hx : a.edgeAt? x = some e := mem_slots.1 (hs ▸ List.mem_append_right _ List.mem_cons_self)
    refine ⟨x, (defectOf?_eq_some_iff hx).1 hd, fun y hlt d' hd' ↦ ?_⟩
    obtain ⟨f, hy⟩ := hd'.exists_edge
    have hnone := hfront (y, f) ((mem_front_iff hs).2 ⟨mem_slots.2 hy, hlt⟩)
    rw [(defectOf?_eq_some_iff hy).2 hd'] at hnone
    cases hnone
  · rintro ⟨x, hd, hfirst⟩
    obtain ⟨e, hx⟩ := hd.exists_edge
    obtain ⟨front, behind, hs⟩ := List.append_of_mem (mem_slots (p := (x, e)).2 hx)
    refine ⟨front, (x, e), behind, hs, (defectOf?_eq_some_iff hx).2 hd, ?_⟩
    rintro ⟨y, f⟩ hq
    obtain ⟨hy, hlt⟩ := (mem_front_iff hs).1 hq
    refine Option.eq_none_iff_forall_ne_some.2 fun d' hd' ↦ ?_
    exact hfirst y hlt d' ((defectOf?_eq_some_iff (mem_slots.1 hy)).1 hd')

theorem programRoot_eq_ok_iff {r : NodeId} :
    a.programRoot = .ok r ↔
      a.root = some r ∧ ∃ functions main, a.get? r = some (.program functions main) := by
  refine ⟨programRoot_eq_ok, ?_⟩
  rintro ⟨hr, functions, main, hn⟩
  simp [programRoot, hr, hn, Node.kind]

theorem programRoot_eq_error_iff : a.programRoot = .error d ↔ a.RootDefect d := by
  unfold programRoot
  constructor
  · intro h
    split at h
    · rename_i hr
      cases h
      exact .missing (by simp [hr])
    · rename_i r hr
      split at h
      · rename_i hn
        cases h
        exact .missing (by simpa [hr] using hn)
      · rename_i n hn
        split_ifs at h with hk
        cases h
        exact .notProgram hr hn hk
  · rintro (h | ⟨hr, hn, hk⟩)
    · cases hr : a.root with
      | none => rfl
      | some r => simp [h r hr]
    · simp [hr, hn, hk]

/-- The parent on an edge is one of the nodes, so every id below it is that of a node. -/
theorem index_parent_lt (hx : a.edgeAt? x = some e) : e.parent.index < a.size := by
  obtain ⟨n, hn, c, -, rfl⟩ : ∃ n, a.nodes[x.parent]? = some n ∧ ∃ c,
      n.children[x.position]? = some c ∧ Edge.mk (.ofIndex x.parent) n c = e := by
    simpa [edgeAt?, Option.bind_eq_some_iff] using hx
  obtain ⟨hlt, -⟩ := Array.getElem?_eq_some_iff.1 hn
  exact Nat.lt_of_le_of_lt (NodeId.index_ofIndex_le _) hlt

theorem sound_iff (hx : a.edgeAt? x = some e) :
    a.Sound e ↔ e.child.index < e.parent.index ∧
      ∀ c, a.get? e.child = some c → e.node.Admits e.child c := by
  simp only [Sound, Node.accepts_iff]
  constructor
  · rintro ⟨c, hc, hlt, ha⟩
    refine ⟨hlt, fun c' hc' ↦ ?_⟩
    obtain rfl := Option.some.inj (hc.symm.trans hc')
    exact ha
  · rintro ⟨hlt, ha⟩
    have hsize : e.child.index < a.size := Nat.lt_trans hlt (index_parent_lt hx)
    obtain ⟨c, hc⟩ : ∃ c, a.get? e.child = some c := ⟨_, Array.getElem?_eq_getElem hsize⟩
    exact ⟨c, hc, hlt, ha c hc⟩

theorem firstDefect?_eq_none_iff_sound :
    a.firstDefect? ∅ a.edges = none ↔
      (∀ x e, a.edgeAt? x = some e → a.Sound e) ∧ (a.nodes.toList.flatMap Node.children).Nodup := by
  have hchildren : a.edges.map Edge.child = a.nodes.toList.flatMap Node.children := by
    rw [map_child_edges, toList, List.flatMap_map]
    conv_rhs => rw [← List.zipIdx_map_fst 0 a.nodes.toList, List.flatMap_map]
  rw [firstDefect?_eq_none, hchildren]
  refine and_congr_left fun _ ↦ ?_
  constructor
  · intro h x e hx
    refine (h e ?_).2
    rw [edges_eq]
    exact List.mem_map_of_mem (mem_slots (p := (x, e)).2 hx)
  · intro h e he
    rw [edges_eq] at he
    obtain ⟨p, hp, rfl⟩ := List.mem_map.1 he
    exact ⟨by simp, h p.1 p.2 (mem_slots.1 hp)⟩

/-- What the check of an arena answers. It answers a root if that is the root of the arena and a
program, all children come before their parents, no node is a child twice, no child is a program and
an executable block is the child of a program or a function as its block. It answers a defect of a
slot if that is the first slot with a defect, and one of the root if no slot has any. -/
theorem validate_answer (a : Arena) :
    (∀ r, a.validate = .ok r ↔
      a.root = some r ∧ (∃ functions main, a.get? r = some (.program functions main)) ∧
      (∀ x e, a.edgeAt? x = some e → e.child.index < e.parent.index) ∧
      (a.nodes.toList.flatMap Node.children).Nodup ∧
      ∀ x e c, a.edgeAt? x = some e → a.get? e.child = some c →
        c.kind ≠ .program ∧ (c.kind = .executableBlock → e.node.block? = some e.child)) ∧
    ∀ d, a.validate = .error d ↔
      (∃ x, a.DefectAt x d ∧ ∀ y, y.Before x → ∀ d', ¬a.DefectAt y d') ∨
      (∀ x d', ¬a.DefectAt x d') ∧ a.RootDefect d := by
  constructor
  · intro r
    have hvalid : a.validate = .ok r ↔
        a.firstDefect? ∅ a.edges = none ∧ a.programRoot = .ok r := by
      unfold validate
      cases a.firstDefect? ∅ a.edges <;> simp
    rw [hvalid, firstDefect?_eq_none_iff_sound, programRoot_eq_ok_iff]
    constructor
    · rintro ⟨⟨hs, hn⟩, hr, hp⟩
      exact ⟨hr, hp, fun x e hx ↦ ((sound_iff hx).1 (hs x e hx)).1, hn,
        fun x e c hx ↦ ((sound_iff hx).1 (hs x e hx)).2 c⟩
    · rintro ⟨hr, hp, hlt, hn, ha⟩
      exact ⟨⟨fun x e hx ↦ (sound_iff hx).2 ⟨hlt x e hx, fun c ↦ ha x e c hx⟩, hn⟩, hr, hp⟩
  · intro d
    rw [← firstDefect?_eq_some_iff, ← firstDefect?_eq_none_iff, ← programRoot_eq_error_iff]
    unfold validate
    cases a.firstDefect? ∅ a.edges <;> simp

end Arena

end SpimCompiler
