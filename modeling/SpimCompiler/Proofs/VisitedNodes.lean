import Mathlib.Data.List.Flatten
import Mathlib.Data.List.Perm.Basic
import SpimCompiler.Proofs.Occurrences

namespace SpimCompiler

def Node.entered {ι : Type} (n : Node ι) : List ι :=
  if n.kind = .functionDefinition then [] else n.children

@[simp]
theorem Node.entered_map {ι κ : Type} (f : ι → κ) (n : Node ι) :
    (n.map f).entered = n.entered.map f := by
  unfold entered
  rw [kind_map, children_map]
  split <;> rfl

theorem Node.entered_sublist {ι : Type} (n : Node ι) : n.entered.Sublist n.children := by
  unfold entered
  split
  · exact List.nil_sublist _
  · exact .refl _

theorem Node.entered_eq {ι : Type} {n : Node ι} (h : n.kind ≠ .functionDefinition) :
    n.entered = n.children :=
  if_neg h

/-- A node is reached from another one without going into a function definition. -/
inductive Arena.Meets (a : Arena) (i : NodeId) : NodeId → Prop
  | refl : a.Meets i i
  | child {j c : NodeId} {n : Node NodeId} :
      a.Meets i j → a.get? j = some n → c ∈ n.entered → a.Meets i c

theorem Arena.Meets.reaches {a : Arena} {i j : NodeId} (h : a.Meets i j) : a.Reaches i j := by
  induction h with
  | refl => exact .refl
  | child _ hn hc ih => exact ih.child hn (Node.entered_sublist _ |>.subset hc)

namespace Tree

theorem sizeOf_lt_of_mem_entered {c : Tree} {n : Node Tree} (h : c ∈ n.entered) :
    sizeOf c < sizeOf n :=
  sizeOf_lt_of_mem (n.entered_sublist.subset h)

def preorder : Tree → List Tree
  | mk i n => mk i n :: n.entered.attach.flatMap fun c ↦ c.1.preorder
decreasing_by
  have := sizeOf_lt_of_mem_entered c.2
  simp only [mk.sizeOf_spec]
  omega

def postorder : Tree → List Tree
  | mk i n => n.entered.attach.flatMap (fun c ↦ c.1.postorder) ++ [mk i n]
decreasing_by
  have := sizeOf_lt_of_mem_entered c.2
  simp only [mk.sizeOf_spec]
  omega

theorem preorder_mk (i : NodeId) (n : Node Tree) :
    (mk i n).preorder = mk i n :: n.entered.flatMap preorder := by
  rw [preorder, List.flatMap_subtype (g := preorder) (fun _ _ ↦ rfl), List.unattach_attach]

theorem postorder_mk (i : NodeId) (n : Node Tree) :
    (mk i n).postorder = n.entered.flatMap postorder ++ [mk i n] := by
  rw [postorder, List.flatMap_subtype (g := postorder) (fun _ _ ↦ rfl), List.unattach_attach]

theorem self_mem_postorder (t : Tree) : t ∈ t.postorder := by
  cases t
  simp [postorder_mk]

theorem mem_postorder_mk {i : NodeId} {n : Node Tree} {u : Tree} :
    u ∈ (mk i n).postorder ↔ (∃ c ∈ n.entered, u ∈ c.postorder) ∨ u = mk i n := by
  rw [postorder_mk, List.mem_append, List.mem_flatMap, List.mem_singleton]

theorem entered_mem_postorder {t u c : Tree} (hu : u ∈ t.postorder) (hc : c ∈ u.node.entered) :
    c ∈ t.postorder := by
  induction t with
  | mk i n ih =>
    rw [mem_postorder_mk] at hu ⊢
    rcases hu with ⟨d, hd, hu⟩ | rfl
    · exact .inl ⟨d, hd, ih d (n.entered_sublist.subset hd) hu⟩
    · exact .inl ⟨c, hc, c.self_mem_postorder⟩

theorem preorder_perm_postorder (t : Tree) : t.preorder.Perm t.postorder := by
  induction t with
  | mk i n ih =>
    rw [preorder_mk, postorder_mk]
    have hc : (n.entered.flatMap preorder).Perm (n.entered.flatMap postorder) :=
      .flatMap_left _ fun c hc ↦ ih c (n.entered_sublist.subset hc)
    exact (hc.cons _).trans (List.perm_append_singleton _ _).symm

theorem postorder_sublist_ids (t : Tree) : (t.postorder.map id).Sublist t.ids := by
  induction t with
  | mk i n ih =>
    rw [postorder_mk, ids_mk, List.map_append, List.map_flatMap]
    refine List.Sublist.append ?_ (.refl _)
    exact (n.entered_sublist.flatMap _).trans (.flatMap_right _ ih)

theorem Plain.of_mem_postorder {t u : Tree} (h : t.Plain) (hu : u ∈ t.postorder) : u.Plain := by
  induction t with
  | mk i n ih =>
    rw [mem_postorder_mk] at hu
    rcases hu with ⟨c, hc, hu⟩ | rfl
    · obtain ⟨-, hpc⟩ := h
      have hc := n.entered_sublist.subset hc
      exact ih c hc (hpc c hc) hu
    · exact h

theorem Plain.map_id_postorder {t : Tree} (h : t.Plain) : t.postorder.map id = t.ids := by
  induction t with
  | mk i n ih =>
    have hk : n.kind ≠ .functionDefinition := h.kind_ne
    obtain ⟨-, hc⟩ := h
    rw [postorder_mk, ids_mk, List.map_append, List.map_flatMap, Node.entered_eq hk]
    exact congrArg (· ++ [i]) (List.flatMap_congr fun c h ↦ ih c h (hc c h))

theorem rejections_entered (i : NodeId) (n : Node Tree) :
    (mk i n).rejections =
      (n.rejection?.map (Diagnostic.of i)).toList ++ n.entered.flatMap rejections := by
  rw [rejections_mk, Node.entered]
  split <;> rfl

theorem rejections_eq (t : Tree) :
    t.rejections = t.preorder.filterMap fun u ↦ u.node.rejection?.map (Diagnostic.of u.id) := by
  induction t with
  | mk i n ih =>
    rw [rejections_entered, preorder_mk, List.filterMap_cons, List.filterMap_flatMap,
      List.flatMap_congr fun c h ↦ ih c (n.entered_sublist.subset h)]
    cases h : n.rejection? <;> simp [h]

end Tree

namespace Arena

variable {a : Arena} {t u : Tree}

theorem Holds.of_mem_postorder (ht : a.Holds t) (hu : u ∈ t.postorder) : a.Holds u := by
  induction t with
  | mk i n ih =>
    rw [Tree.mem_postorder_mk] at hu
    rcases hu with ⟨c, hc, hu⟩ | rfl
    · have hc := n.entered_sublist.subset hc
      exact ih c hc (ht.child hc) hu
    · exact ht

theorem Meets.of_mem_postorder {i : NodeId} (hi : a.Meets i t.id) (ht : a.Holds t)
    (hu : u ∈ t.postorder) : a.Meets i u.id := by
  induction t with
  | mk j n ih =>
    rw [Tree.mem_postorder_mk] at hu
    rcases hu with ⟨c, hc, hu⟩ | rfl
    · have hmeets : a.Meets i c.id := by
        refine hi.child ht.get? ?_
        rw [Node.entered_map]
        exact List.mem_map_of_mem hc
      have hc := n.entered_sublist.subset hc
      exact ih c hc hmeets (ht.child hc) hu
    · exact hi

theorem Holds.meets_iff (ht : a.Holds t) {i : NodeId} :
    a.Meets t.id i ↔ ∃ u ∈ t.postorder, u.id = i := by
  constructor
  · intro h
    induction h with
    | refl => exact ⟨t, t.self_mem_postorder, rfl⟩
    | child _ hm hc ih =>
      obtain ⟨u, hu, rfl⟩ := ih
      rw [(ht.of_mem_postorder hu).get?] at hm
      obtain rfl := Option.some.inj hm
      rw [Node.entered_map] at hc
      obtain ⟨d, hd, rfl⟩ := List.mem_map.1 hc
      exact ⟨d, Tree.entered_mem_postorder hu hd, rfl⟩
  · rintro ⟨u, hu, rfl⟩
    exact Meets.of_mem_postorder .refl ht hu

theorem Holds.nodup_postorder (ha : a.IsForest) (ht : a.Holds t) :
    (t.postorder.map Tree.id).Nodup :=
  t.postorder_sublist_ids.nodup (ht.nodup_ids ha)

end Arena

end SpimCompiler
