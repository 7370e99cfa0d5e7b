import SpimCompiler.Proofs.BlockStructure
import SpimCompiler.Proofs.Lists
import SpimCompiler.Proofs.Occurrences
import SpimCompiler.Tree.Hook

namespace SpimCompiler

namespace Node

variable {ι κ : Type} (skips : Skips) (i : NodeId) (n : Node ι)

def skippedAtEntry : Bool :=
  (n.isExpression && skips .enterExpression i) || skips (.enter n.kind) i

/-- The calls at the entry to a node. The hook of all expressions comes first, and the one of the
kind of the node is left out if the first one skips the node. -/
def entryVisits : List Visit :=
  if n.isExpression then
    if skips .enterExpression i then [⟨.enterExpression, i, true⟩]
    else [⟨.enterExpression, i, false⟩, ⟨.enter n.kind, i, skips (.enter n.kind) i⟩]
  else [⟨.enter n.kind, i, skips (.enter n.kind) i⟩]

def exitVisits : List Visit :=
  ⟨.exit n.kind, i, skips (.exit n.kind) i⟩ ::
    if n.isExpression then
      [⟨.exitExpression, i, skips (.exit n.kind) i || skips .exitExpression i⟩]
    else []

@[simp]
theorem skippedAtEntry_map (f : ι → κ) :
    (n.map f).skippedAtEntry skips i = n.skippedAtEntry skips i := by
  simp [skippedAtEntry]

@[simp]
theorem entryVisits_map (f : ι → κ) :
    (n.map f).entryVisits skips i = n.entryVisits skips i := by
  simp [entryVisits]

@[simp]
theorem exitVisits_map (f : ι → κ) : (n.map f).exitVisits skips i = n.exitVisits skips i := by
  simp [exitVisits]

theorem entryVisits_ne_nil : n.entryVisits skips i ≠ [] := by
  unfold entryVisits
  split_ifs <;> simp

variable {skips i n}

theorem node_of_mem_entryVisits {v : Visit} (h : v ∈ n.entryVisits skips i) : v.node = i := by
  unfold entryVisits at h
  split_ifs at h <;> simp at h <;> grind

theorem node_of_mem_exitVisits {v : Visit} (h : v ∈ n.exitVisits skips i) : v.node = i := by
  unfold exitVisits at h
  split_ifs at h <;> simp at h <;> grind

end Node

namespace Visit

variable {skips : Skips} {i : NodeId} {n : Node NodeId} {run : Run (Array Visit)}

theorem ends_enter :
    ((visitor skips).enter i n).Ends run fun go r ↦ go = !n.skippedAtEntry skips i ∧
      r.state.toList = run.state.toList ++ n.entryVisits skips i := by
  cases he : n.isExpression <;> cases hs : skips .enterExpression i <;>
    simp [visitor, enter, record, Node.skippedAtEntry, Node.entryVisits, he, hs]

theorem ends_exit :
    ((visitor skips).exit i n).Ends run fun _ r ↦
      r.state.toList = run.state.toList ++ n.exitVisits skips i := by
  cases he : n.isExpression <;> simp [visitor, exit, record, Node.exitVisits, he]

end Visit

namespace Tree

variable {skips : Skips} {t u : Tree} {i : NodeId} {n : Node Tree}

def visits (skips : Skips) : Tree → List Visit
  | mk i n =>
    n.entryVisits skips i ++
      if n.skippedAtEntry skips i then []
      else n.children.attach.flatMap (fun c ↦ c.1.visits skips) ++ n.exitVisits skips i
decreasing_by
  have := sizeOf_lt_of_mem c.2
  simp only [mk.sizeOf_spec]
  omega

theorem visits_mk (skips : Skips) (i : NodeId) (n : Node Tree) :
    (mk i n).visits skips = n.entryVisits skips i ++
      if n.skippedAtEntry skips i then []
      else n.children.flatMap (visits skips) ++ n.exitVisits skips i := by
  rw [visits, List.flatMap_subtype (g := visits skips) (fun _ _ ↦ rfl), List.unattach_attach]

theorem ends_walk_visits (skips : Skips) (t : Tree) (run : Run (Array Visit)) :
    (t.walk (Visit.visitor skips)).Ends run fun _ r ↦
      r.state.toList = run.state.toList ++ t.visits skips := by
  induction t generalizing run with
  | mk i n ih =>
    have hchildren (r : Run (Array Visit)) :
        Pass.Ends (n.children.forM (Tree.walk (Visit.visitor skips))) r fun _ r' ↦
          r'.state.toList = r.state.toList ++ n.children.flatMap (visits skips) := by
      refine Pass.ends_forM (fun done (r' : Run (Array Visit)) ↦
        r'.state.toList = r.state.toList ++ done.flatMap (visits skips)) (by simp) ?_
      intro done c rest r' hn hr
      refine (ih c (by simp [hn]) r').mono fun _ r'' hr' ↦ ?_
      simp [hr', hr]
    rw [Pass.ends_walk, visits_mk]
    refine Visit.ends_enter.mono fun go r hr ↦ ?_
    simp only [Node.skippedAtEntry_map, Node.entryVisits_map] at hr
    obtain ⟨rfl, hr⟩ := hr
    cases hs : n.skippedAtEntry skips i with
    | true => simpa using hr
    | false =>
      refine (hchildren r).mono fun _ r' hr' ↦ Visit.ends_exit.mono fun _ r'' hr'' ↦ ?_
      simp [hr'', hr', hr]

theorem node_mem_ids {v : Visit} (h : v ∈ t.visits skips) : v.node ∈ t.ids := by
  induction t with
  | mk i n ih =>
    rw [ids_mk, List.mem_append, List.mem_singleton]
    rw [visits_mk, List.mem_append] at h
    rcases h with h | h
    · exact .inr (Node.node_of_mem_entryVisits h)
    · split at h
      · cases h
      · rw [List.mem_append, List.mem_flatMap] at h
        rcases h with ⟨c, hc, h⟩ | h
        · exact .inl (List.mem_flatMap.2 ⟨c, hc, ih c hc h⟩)
        · exact .inr (Node.node_of_mem_exitVisits h)

inductive Entered (skips : Skips) (u : Tree) : Tree → Prop
  | here : Entered skips u u
  | inside {i : NodeId} {n : Node Tree} {c : Tree} :
      n.skippedAtEntry skips i = false → c ∈ n.children → Entered skips u c →
      Entered skips u (mk i n)

theorem Entered.ids_subset (h : u.Entered skips t) : u.ids ⊆ t.ids := by
  induction h with
  | here => exact List.Subset.refl _
  | inside _ hc _ ih =>
    intro j hj
    rw [ids_mk]
    exact List.mem_append_left _ (List.mem_flatMap.2 ⟨_, hc, ih hj⟩)

theorem exists_mem_visits_iff :
    (∃ v ∈ t.visits skips, v.node = i) ↔ ∃ u : Tree, u.Entered skips t ∧ u.id = i := by
  constructor
  · rintro ⟨v, hv, rfl⟩
    induction t with
    | mk j n ih =>
      rw [visits_mk, List.mem_append] at hv
      rcases hv with hv | hv
      · exact ⟨_, .here, (Node.node_of_mem_entryVisits hv).symm⟩
      · split at hv
        · cases hv
        · rename_i hs
          rw [List.mem_append, List.mem_flatMap] at hv
          rcases hv with ⟨c, hc, hv⟩ | hv
          · obtain ⟨u, hu, hid⟩ := ih c hc hv
            exact ⟨u, .inside (Bool.eq_false_iff.2 hs) hc hu, hid⟩
          · exact ⟨_, .here, (Node.node_of_mem_exitVisits hv).symm⟩
  · rintro ⟨u, hu, rfl⟩
    induction hu with
    | here =>
      obtain ⟨j, n⟩ := u
      obtain ⟨v, hv⟩ := List.exists_mem_of_ne_nil _ (n.entryVisits_ne_nil skips j)
      rw [visits_mk]
      exact ⟨v, List.mem_append_left _ hv, Node.node_of_mem_entryVisits hv⟩
    | inside hs hc _ ih =>
      obtain ⟨v, hv, hid⟩ := ih
      rw [visits_mk, hs]
      exact ⟨v, List.mem_append_right _ (List.mem_append_left _ (List.mem_flatMap.2 ⟨_, hc, hv⟩)),
        hid⟩

/-- The calls below a node to which the walk comes stand together. -/
theorem Entered.exists_append (h : u.Entered skips t) (hn : t.ids.Nodup) :
    ∃ before behind, t.visits skips = before ++ u.visits skips ++ behind ∧
      ∀ v ∈ before ++ behind, v.node ∉ u.ids := by
  induction h with
  | here => exact ⟨[], [], by simp, by simp⟩
  | @inside i n c hs hc hu ih =>
    obtain ⟨left, right, hlr⟩ := List.append_of_mem hc
    rw [ids_mk, hlr] at hn
    simp only [List.flatMap_append, List.flatMap_cons, List.nodup_append',
      List.disjoint_append_left, List.disjoint_append_right] at hn
    obtain ⟨⟨-, ⟨hnc, -, hcr⟩, hlc, -⟩, -, -, hci, -⟩ := hn
    obtain ⟨before, behind, hvisits, hout⟩ := ih hnc
    refine ⟨n.entryVisits skips i ++ left.flatMap (visits skips) ++ before,
      behind ++ right.flatMap (visits skips) ++ n.exitVisits skips i, ?_, fun v hv hmem ↦ ?_⟩
    · rw [visits_mk, hs, hlr]
      simp [hvisits]
    · have hvc := hu.ids_subset hmem
      simp only [List.mem_append, List.mem_flatMap] at hv hout
      rcases hv with ((hv | ⟨d, hd, hv⟩) | hv) | ((hv | ⟨d, hd, hv⟩) | hv)
      · exact hci hvc (by simpa using Node.node_of_mem_entryVisits hv)
      · exact hlc (List.mem_flatMap.2 ⟨d, hd, node_mem_ids hv⟩) hvc
      · exact hout v (.inl hv) hmem
      · exact hout v (.inr hv) hmem
      · exact hcr hvc (List.mem_flatMap.2 ⟨d, hd, node_mem_ids hv⟩)
      · exact hci hvc (by simpa using Node.node_of_mem_exitVisits hv)

end Tree

namespace Arena

variable {a : Arena} {skips : Skips} {t u : Tree} {root start i j k : NodeId}

theorem Reaches.trans (h : a.Reaches i j) (h' : a.Reaches j k) : a.Reaches i k := by
  induction h' with
  | refl => exact h
  | child _ hn hc ih => exact ih.child hn hc

theorem IsForest.le_of_reaches (ha : a.IsForest) (h : a.Reaches i j) : j.index ≤ i.index := by
  induction h with
  | refl => exact Nat.le_refl _
  | child _ hn hc ih => exact Nat.le_trans (Nat.le_of_lt (ha.lt hn hc)) ih

theorem IsForest.reaches_antisymm (ha : a.IsForest) (h : a.Reaches i j) (h' : a.Reaches j i) :
    i = j :=
  NodeId.index_injective (Nat.le_antisymm (ha.le_of_reaches h') (ha.le_of_reaches h))

/-- The node is reached from the start, and no node above it there is skipped at its entry. -/
def Enters (a : Arena) (skips : Skips) (start i : NodeId) : Prop :=
  a.Reaches start i ∧ ∀ j n, a.Reaches start j → a.Reaches j i → j ≠ i → a.get? j = some n →
    n.skippedAtEntry skips j = false

theorem Holds.entered (ht : a.Holds t) (h : u.Entered skips t) : a.Holds u := by
  induction h with
  | here => exact ht
  | inside _ hc _ ih => exact ih (ht.child hc)

theorem Holds.child_unique (ha : a.IsForest) (ht : a.Holds t) {c d : Tree}
    (hc : c ∈ t.node.children) (hd : d ∈ t.node.children) (hic : i ∈ c.ids) (hid : i ∈ d.ids) :
    c = d := by
  have hmem {c : Tree} (hc : c ∈ t.node.children) : c.id ∈ (t.node.map Tree.id).children := by
    rw [Node.children_map]
    exact List.mem_map_of_mem hc
  have hn := ha.nodup ht.get?
  rw [Node.children_map] at hn
  by_contra hne
  refine Holds.disjoint_ids ha ht.get? (ht.child hc) (ht.child hd) (hmem hc) (hmem hd) ?_ hic hid
  exact fun h ↦ hne (List.inj_on_of_nodup_map hn hc hd h)

theorem Holds.id_notMem_child (ha : a.IsForest) (ht : a.Holds t) {c : Tree}
    (hc : c ∈ t.node.children) : t.id ∉ c.ids := by
  intro h
  have hle := (ht.child hc).le_of_mem_ids ha h
  have hlt := ht.lt ha hc
  omega

theorem Holds.enters_iff (ha : a.IsForest) (ht : a.Holds t) :
    a.Enters skips t.id i ↔ ∃ u : Tree, u.Entered skips t ∧ u.id = i := by
  constructor
  · rintro ⟨hi, hopen⟩
    have hi := ht.reaches_iff.1 hi
    induction t with
    | mk j n ih =>
      rw [Tree.ids_mk, List.mem_append, List.mem_singleton] at hi
      rcases hi with hi | rfl
      · obtain ⟨c, hc, hic⟩ := List.mem_flatMap.1 hi
        have hreach : a.Reaches j c.id :=
          ht.reaches_iff.2 (by simpa using .inl ⟨c, hc, c.id_mem_ids⟩)
        have hne : j ≠ i := fun h ↦ ht.id_notMem_child ha hc (h ▸ hic)
        have hci := (ht.child hc).reaches_iff.2 hic
        obtain ⟨u, hu, hid⟩ := ih c hc (ht.child hc) hci
          (fun k m hk ↦ hopen k m (hreach.trans hk)) hic
        have hs := hopen j _ .refl (hreach.trans hci) hne ht.get?
        exact ⟨u, .inside (by simpa using hs) hc hu, hid⟩
      · exact ⟨_, .here, rfl⟩
  · rintro ⟨u, hu, rfl⟩
    refine ⟨ht.reaches_iff.2 (hu.ids_subset u.id_mem_ids), ?_⟩
    induction hu with
    | here =>
      intro j n hj hju hne
      exact absurd (ha.reaches_antisymm hju hj) hne
    | @inside j n c hs hc hu ih =>
      intro k m hk hku hne hm
      have hk := ht.reaches_iff.1 hk
      rw [Tree.ids_mk, List.mem_append, List.mem_singleton] at hk
      rcases hk with hk | rfl
      · obtain ⟨d, hd, hkd⟩ := List.mem_flatMap.1 hk
        have hkd := (ht.child hd).reaches_iff.2 hkd
        have hud := (ht.child hd).reaches_iff.1 (hkd.trans hku)
        obtain rfl := ht.child_unique ha hc hd (hu.ids_subset u.id_mem_ids) hud
        exact ih (ht.child hc) k m hkd hku hne hm
      · obtain rfl := Option.some.inj (ht.get?.symm.trans hm)
        simpa using hs

/-- The calls below a node to which a walk comes: they stand together. Those at the entry to the
node come first and those at the exit last, and between them come the calls below its children, one
child after the other. -/
theorem Holds.exists_blocks (ha : a.IsForest) (ht : a.Holds t) (hu : u.Entered skips t) :
    ∃ (before : List Visit) (blocks : List (List Visit)) (behind : List Visit),
      t.visits skips = before ++ ((u.node.map Tree.id).entryVisits skips u.id ++
        if (u.node.map Tree.id).skippedAtEntry skips u.id then []
        else blocks.flatten ++ (u.node.map Tree.id).exitVisits skips u.id) ++ behind ∧
      List.Forall₂ (fun c block ↦ ∀ v ∈ block, a.Reaches c v.node)
        (u.node.map Tree.id).children blocks ∧
      ∀ v ∈ before ++ behind, ¬a.Reaches u.id v.node := by
  have hholds := ht.entered hu
  obtain ⟨before, behind, hvisits, hout⟩ := hu.exists_append (ht.nodup_ids ha)
  refine ⟨before, u.node.children.map (Tree.visits skips), behind, ?_, ?_, fun v hv hr ↦ ?_⟩
  · obtain ⟨i, n⟩ := u
    simp [hvisits, Tree.visits_mk, List.flatMap_def]
  · rw [Node.children_map, List.forall₂_map_left_iff, List.forall₂_map_right_iff, List.forall₂_same]
    exact fun c hc v hv ↦ (hholds.child hc).reaches_iff.2 (Tree.node_mem_ids hv)
  · exact hout v hv (hholds.reaches_iff.1 hr)

theorem Holds.filter_visits (ha : a.IsForest) (ht : a.Holds t) (hu : u.Entered skips t) :
    (t.visits skips).filter (·.node = u.id) = (u.node.map Tree.id).entryVisits skips u.id ++
      if (u.node.map Tree.id).skippedAtEntry skips u.id then []
      else (u.node.map Tree.id).exitVisits skips u.id := by
  have hall {l : List Visit} (h : ∀ v ∈ l, v.node = u.id) : l.filter (·.node = u.id) = l :=
    List.filter_eq_self.2 (by simpa using h)
  have hnone {l : List Visit} (h : ∀ v ∈ l, v.node ≠ u.id) : l.filter (·.node = u.id) = [] :=
    List.filter_eq_nil_iff.2 (by simpa using h)
  obtain ⟨before, blocks, behind, heq, hblocks, hout⟩ := ht.exists_blocks ha hu
  have hbefore := hnone fun v hv h ↦ hout v (List.mem_append_left _ hv) (h ▸ .refl)
  have hbehind := hnone fun v hv h ↦ hout v (List.mem_append_right _ hv) (h ▸ .refl)
  have hinner : blocks.flatten.filter (·.node = u.id) = [] := by
    refine hnone fun v hv h ↦ ?_
    obtain ⟨block, hblock, hv⟩ := List.mem_flatten.1 hv
    obtain ⟨c, hc, hr⟩ := hblocks.exists_of_mem_right hblock
    have hr := hr v hv
    have hlt := ha.lt (ht.entered hu).get? hc
    have hle := ha.le_of_reaches hr
    rw [h] at hle
    omega
  have hentry : ∀ v ∈ (u.node.map Tree.id).entryVisits skips u.id, v.node = u.id :=
    fun v ↦ Node.node_of_mem_entryVisits
  have hexit : ∀ v ∈ (u.node.map Tree.id).exitVisits skips u.id, v.node = u.id :=
    fun v ↦ Node.node_of_mem_exitVisits
  rw [heq, List.filter_append, List.filter_append, List.filter_append, hbefore, hbehind,
    hall hentry, List.nil_append, List.append_nil]
  split
  · rfl
  · rw [List.filter_append, hinner, hall hexit, List.nil_append]

theorem Holds.exists_visits (ha : a.IsForest) (ht : a.Holds t) (skips : Skips) :
    ∃ visits : Array Visit, (a.visits skips t.id).outcome.result = .ok visits ∧
      visits.toList = t.visits skips := by
  have hends : (a.visits skips t.id).Ends ⟨(), #[]⟩ fun visits _ ↦
      visits.toList = t.visits skips := by
    simp only [visits, ht.walk_eq ha, Pass.ends_bind, Pass.ends_inside, Pass.ends_pure]
    exact (t.ends_walk_visits skips _).mono fun _ r hr ↦ by simpa using hr
  obtain ⟨visits, -, hresult, hvisits⟩ := hends.outcome
  exact ⟨visits, hresult, hvisits⟩

/-- What a program is compiled to: its root, what the analysis finds, what the generator gives, and
all calls of a walk that skips nothing. -/
structure Yields (a : Arena) (root : NodeId) (r : Analysis) (assembly : Assembly)
    (visits : Array Visit) : Prop where
  valid : a.validate = .ok root
  analyzed : (a.analyze root).outcome.result = .ok r
  generated : (a.analyze root >>= a.generate root).outcome.result = .ok (.ok assembly)
  visited : (a.visits (fun _ _ ↦ false) root).outcome.result = .ok visits

theorem Compiles.exists_yields {root : NodeId} {functions : List Tree} {main : Tree} {s : Typing}
    {g : Generation} (h : a.Compiles root functions main s g) :
    ∃ visits, a.Yields root s.analysis (g.assembly root) visits ∧
      visits.toList = (Tree.mk root (.program functions main)).visits fun _ _ ↦ false := by
  obtain ⟨visits, hvisits, hlist⟩ := h.holds.exists_visits h.forest fun _ _ ↦ false
  exact ⟨visits, ⟨h.valid, h.result_analyze, h.result_generate, hvisits⟩, hlist⟩

/-- A walk of a valid arena from any of its nodes comes to an end. It calls hooks of the nodes that
are reached from there without passing one that is skipped at its entry. The calls of such a node
are those at its entry and, unless it is skipped there, those at its exit, each once. The calls of
everything below it stand between the two, those below one child behind those below the child before
it, and nowhere else. -/
theorem visits_bracketed (hv : a.validate = .ok root) (hs : (a.get? start).isSome) (skips : Skips) :
    ∃ visits : Array Visit, (a.visits skips start).outcome.result = .ok visits ∧
      (∀ i, (∃ v ∈ visits, v.node = i) ↔ a.Enters skips start i) ∧
      ∀ i n, a.Enters skips start i → a.get? i = some n →
        visits.toList.filter (·.node = i) = n.entryVisits skips i ++
          (if n.skippedAtEntry skips i then [] else n.exitVisits skips i) ∧
        ∃ before blocks behind, visits.toList = before ++ (n.entryVisits skips i ++
            if n.skippedAtEntry skips i then []
            else blocks.flatten ++ n.exitVisits skips i) ++ behind ∧
          List.Forall₂ (fun c block ↦ ∀ v ∈ block, a.Reaches c v.node) n.children blocks ∧
          ∀ v ∈ before ++ behind, ¬a.Reaches i v.node := by
  obtain ⟨ha, -⟩ := validate_eq_ok hv
  obtain ⟨m, hm⟩ := Option.isSome_iff_exists.1 hs
  obtain ⟨t, rfl, ht⟩ := ha.exists_tree hm
  obtain ⟨visits, hresult, hvisits⟩ := ht.exists_visits ha skips
  refine ⟨visits, hresult, fun i ↦ ?_, fun i n hi hn ↦ ?_⟩
  · rw [ht.enters_iff ha, ← Tree.exists_mem_visits_iff, ← hvisits]
    simp
  · obtain ⟨u, hu, rfl⟩ := (ht.enters_iff ha).1 hi
    obtain rfl := Option.some.inj ((ht.entered hu).get?.symm.trans hn)
    obtain ⟨before, blocks, behind, heq, hblocks, hout⟩ := ht.exists_blocks ha hu
    rw [hvisits]
    exact ⟨ht.filter_visits ha hu, before, blocks, behind, heq, hblocks, hout⟩

end Arena

/-- The program `print -(1 + 2)`. -/
def watched : Arena where
  nodes := #[.intLiteral 1, .intLiteral 2, .addSub .add ⟨0⟩ ⟨1⟩, .unary .minus ⟨2⟩,
    .printStatement ⟨3⟩, .statementBlock [⟨4⟩], .executableBlock none ⟨5⟩, .program [] ⟨6⟩]
  root := some ⟨7⟩

namespace watched

def skips : Skips := fun hook i ↦
  (hook, i) ∈ [(Hook.enterExpression, (⟨2⟩ : NodeId)), (Hook.exit .unary, ⟨3⟩)]

def calls : Array Visit :=
  #[⟨.enter .printStatement, ⟨4⟩, false⟩, ⟨.enterExpression, ⟨3⟩, false⟩,
    ⟨.enter .unary, ⟨3⟩, false⟩, ⟨.enterExpression, ⟨2⟩, true⟩, ⟨.exit .unary, ⟨3⟩, true⟩,
    ⟨.exitExpression, ⟨3⟩, true⟩, ⟨.exit .printStatement, ⟨4⟩, false⟩]

theorem validate_eq : watched.validate = .ok ⟨7⟩ :=
  Arena.validate_of_sound (by decide) (by decide) (by decide)

theorem result_visits : (watched.visits skips ⟨4⟩).outcome.result = .ok calls := by
  decide +kernel

theorem visits_bracketed_at :
    watched.validate = .ok ⟨7⟩ ∧ (watched.get? ⟨4⟩).isSome ∧
    (watched.visits skips ⟨4⟩).outcome.result = .ok calls ∧
    watched.Enters skips ⟨4⟩ ⟨3⟩ ∧ ¬watched.Enters skips ⟨4⟩ ⟨0⟩ ∧
    ∃ before below behind, calls.toList = before ++
        ([⟨.enterExpression, ⟨3⟩, false⟩, ⟨.enter .unary, ⟨3⟩, false⟩] ++ (below ++
          [⟨.exit .unary, ⟨3⟩, true⟩, ⟨.exitExpression, ⟨3⟩, true⟩])) ++ behind ∧
      (∀ v ∈ below, watched.Reaches ⟨2⟩ v.node) ∧
      ∀ v ∈ before ++ behind, ¬watched.Reaches ⟨3⟩ v.node := by
  have hstart : (watched.get? ⟨4⟩).isSome := rfl
  obtain ⟨visits, hresult, henters, hnodes⟩ := Arena.visits_bracketed validate_eq hstart skips
  obtain rfl : visits = calls := Except.ok.inj (hresult.symm.trans result_visits)
  have hmem : ∃ v ∈ calls, v.node = ⟨3⟩ := by decide
  have hnot : ¬∃ v ∈ calls, v.node = ⟨0⟩ := by decide
  have hthree := (henters ⟨3⟩).1 hmem
  obtain ⟨-, before, blocks, behind, heq, hblocks, hout⟩ :=
    hnodes ⟨3⟩ (.unary .minus ⟨2⟩) hthree rfl
  obtain ⟨below, hbelow, rfl⟩ : ∃ below, (∀ v ∈ below, watched.Reaches ⟨2⟩ v.node) ∧
      blocks = [below] := by
    cases hblocks with
    | cons hbelow hnil =>
      cases hnil
      exact ⟨_, hbelow, rfl⟩
  refine ⟨validate_eq, hstart, result_visits, hthree, fun h ↦ hnot ((henters ⟨0⟩).2 h), before,
    below, behind, ?_, hbelow, hout⟩
  rw [List.flatten_singleton] at heq
  exact heq

end watched

end SpimCompiler
