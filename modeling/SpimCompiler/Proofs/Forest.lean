import Mathlib.Data.List.Nodup
import Mathlib.Data.List.Pairwise
import Std.Data.HashSet.Lemmas
import SpimCompiler.Tree.Validity

namespace SpimCompiler

@[simp]
theorem NodeId.ofIndex_index (id : NodeId) : NodeId.ofIndex id.index = id := by
  simp [ofIndex, index]

theorem NodeId.index_injective {i j : NodeId} (h : i.index = j.index) : i = j := by
  rw [← ofIndex_index i, h, ofIndex_index]

theorem NodeId.index_ofIndex {i : Nat} (h : i < UInt32.size) : (ofIndex i).index = i :=
  UInt32.toNat_ofNat_of_lt h

theorem NodeId.index_ofIndex_le (i : Nat) : (ofIndex i).index ≤ i := by
  simp only [index, ofIndex, UInt32.toNat_ofNat']
  exact Nat.mod_le _ _

theorem NodeId.index_lt_iff {i j : NodeId} : i.index < j.index ↔ ¬ i.val ≥ j.val := by
  simp [index, UInt32.lt_iff_toNat_lt]

namespace Arena

variable {a : Arena}

theorem mem_toList {id : NodeId} {n : Node NodeId} (h : a.get? id = some n) :
    (id, n) ∈ a.toList := by
  simp only [toList, List.mem_map, Prod.exists, Prod.mk.injEq]
  refine ⟨n, id.index, ?_, NodeId.ofIndex_index id, rfl⟩
  rw [List.mem_zipIdx_iff_getElem?]
  simpa [get?] using h

def Sound (a : Arena) (e : Edge) : Prop :=
  ∃ c, a.get? e.child = some c ∧ e.child.index < e.parent.index ∧ e.node.accepts e.child c

theorem defectAt?_eq_none {seen : Std.HashSet NodeId} {e : Edge} :
    a.defectAt? seen e = none ↔ e.child ∉ seen ∧ a.Sound e := by
  unfold defectAt? Sound
  cases hc : a.get? e.child with
  | none => simp
  | some c =>
    simp only [NodeId.index_lt_iff]
    split_ifs <;> simp_all

theorem firstDefect?_eq_none {seen : Std.HashSet NodeId} {es : List Edge} :
    a.firstDefect? seen es = none ↔
      (∀ e ∈ es, e.child ∉ seen ∧ a.Sound e) ∧ (es.map Edge.child).Nodup := by
  induction es generalizing seen with
  | nil => simp [firstDefect?]
  | cons e es ih =>
    simp only [firstDefect?]
    cases hd : a.defectAt? seen e with
    | some d =>
      have he : ¬(e.child ∉ seen ∧ a.Sound e) := by
        rw [← defectAt?_eq_none, hd]
        simp
      simp only [reduceCtorEq, false_iff]
      exact fun h ↦ he (h.1 e List.mem_cons_self)
    | none =>
      have he := defectAt?_eq_none.1 hd
      simp only [ih, Std.HashSet.mem_insert, List.mem_cons, forall_eq_or_imp, List.map_cons,
        List.nodup_cons, List.mem_map, beq_iff_eq, not_or, not_exists, not_and]
      constructor
      · rintro ⟨h, hn⟩
        exact ⟨⟨he, fun f hf ↦ ⟨(h f hf).1.2, (h f hf).2⟩⟩,
          fun f hf hfe ↦ (h f hf).1.1 hfe.symm, hn⟩
      · rintro ⟨⟨-, h⟩, hne, hn⟩
        exact ⟨fun f hf ↦ ⟨⟨fun hfe ↦ hne f hf hfe.symm, (h f hf).1⟩, (h f hf).2⟩, hn⟩

/-- Every child comes before its parent, is accepted by it and has no other parent. -/
structure IsForest (a : Arena) : Prop where
  sound {p c : NodeId} {n : Node NodeId} : a.get? p = some n → c ∈ n.children → a.Sound ⟨p, n, c⟩
  nodup {p : NodeId} {n : Node NodeId} : a.get? p = some n → n.children.Nodup
  unique {p q c : NodeId} {n m : Node NodeId} : a.get? p = some n → a.get? q = some m →
    c ∈ n.children → c ∈ m.children → p = q

theorem IsForest.lt (ha : a.IsForest) {p c : NodeId} {n : Node NodeId} (hp : a.get? p = some n)
    (hc : c ∈ n.children) : c.index < p.index := by
  obtain ⟨m, -, hlt, -⟩ := ha.sound hp hc
  exact hlt

theorem mem_edges {p c : NodeId} {n : Node NodeId} (hp : a.get? p = some n)
    (hc : c ∈ n.children) : Edge.mk p n c ∈ a.edges := by
  simp only [edges, List.mem_flatMap, List.mem_map, Prod.exists]
  exact ⟨p, n, mem_toList hp, c, hc, rfl⟩

theorem map_child_edges : a.edges.map Edge.child = a.toList.flatMap fun p ↦ p.2.children := by
  simp only [edges, List.map_flatMap, List.map_map]
  congr 1
  funext p
  exact List.map_id _

theorem isForest_of_firstDefect? (h : a.firstDefect? ∅ a.edges = none) : a.IsForest := by
  obtain ⟨hs, hn⟩ := firstDefect?_eq_none.1 h
  rw [map_child_edges, List.nodup_flatMap] at hn
  obtain ⟨hn, hd⟩ := hn
  refine ⟨fun hp hc ↦ (hs _ (mem_edges hp hc)).2, fun hp ↦ hn _ (mem_toList hp), ?_⟩
  intro p q c n m hp hq hcn hcm
  by_contra hne
  have : Std.Symm (Function.onFun List.Disjoint fun p : NodeId × Node NodeId ↦ p.2.children) :=
    ⟨fun _ _ h ↦ List.disjoint_symm h⟩
  have hpq : (p, n) ≠ (q, m) := fun h ↦ hne (congrArg Prod.fst h)
  exact hd.forall (mem_toList hp) (mem_toList hq) hpq hcn hcm

theorem programRoot_eq_ok {r : NodeId} (h : a.programRoot = .ok r) :
    a.root = some r ∧ ∃ functions main, a.get? r = some (.program functions main) := by
  unfold programRoot at h
  split at h
  · cases h
  · rename_i r' hr
    split at h
    · cases h
    · rename_i n hn
      split at h
      · rename_i hk
        cases h
        refine ⟨hr, ?_⟩
        cases n <;> simp_all [Node.kind]
      · cases h

theorem validate_eq_ok {r : NodeId} (h : a.validate = .ok r) :
    a.IsForest ∧ a.root = some r ∧ ∃ functions main, a.get? r = some (.program functions main) := by
  unfold validate at h
  split at h
  · cases h
  · rename_i hd
    exact ⟨isForest_of_firstDefect? hd, programRoot_eq_ok h⟩

instance (e : Edge) : Decidable (a.Sound e) :=
  decidable_of_iff ((a.get? e.child).any fun c ↦
    e.child.index < e.parent.index && e.node.accepts e.child c)
    (by cases h : a.get? e.child <;> simp [Sound, h])

theorem validate_of_sound {r : NodeId} (hs : ∀ e ∈ a.edges, a.Sound e)
    (hn : (a.edges.map Edge.child).Nodup) (hr : a.programRoot = .ok r) : a.validate = .ok r := by
  have hd : a.firstDefect? ∅ a.edges = none :=
    firstDefect?_eq_none.2 ⟨fun e he ↦ ⟨by simp, hs e he⟩, hn⟩
  simp [validate, hd, hr]

end Arena

end SpimCompiler
