import SpimCompiler.Proofs.HookOrder
import SpimCompiler.Proofs.JumpTargets

namespace SpimCompiler

open Mips ScopeTree

def Mips.Labels.mintAll (l : Labels) : List String → List String × Labels
  | [] => ([], l)
  | base :: bases =>
    let (label, l) := l.mint base
    let (labels, l) := l.mintAll bases
    (label :: labels, l)

theorem Mips.Labels.mintAll_eq (l : Labels) (bases : List String) :
    l.mintAll bases = (mints l.next bases, ⟨l.next + bases.length⟩) := by
  induction bases generalizing l with
  | nil => rfl
  | cons base bases ih =>
    have hlength : l.next + 1 + bases.length = l.next + (bases.length + 1) := by omega
    simp only [mintAll, mint, ih, mints, numbered, List.length_cons, hlength]

/-- The bases of the labels that are minted at a call: those of the node, as it is left. -/
def Visit.bases (a : Arena) (types : TypeTable) (v : Visit) : List String :=
  match v.hook, a.get? v.node with
  | .exit _, some n => n.bases (types.get? v.node)
  | _, _ => []

def Tree.bases (a : Arena) (types : TypeTable) (t : Tree) : List String :=
  (t.visits fun _ _ ↦ false).flatMap (Visit.bases a types)

section walk

variable {a : Arena} {types : TypeTable} {i : NodeId} {n : Node Tree} {t : Tree}

theorem Arena.Holds.bases_mk (ht : a.Holds (.mk i n)) :
    (Tree.mk i n).bases a types =
      n.children.flatMap (Tree.bases a types) ++ n.bases (types.get? i) := by
  have hentry : (n.entryVisits (fun _ _ ↦ false) i).flatMap (Visit.bases a types) = [] := by
    unfold Node.entryVisits
    split <;> simp [Visit.bases]
  have hexit : (n.exitVisits (fun _ _ ↦ false) i).flatMap (Visit.bases a types) =
      n.bases (types.get? i) := by
    have hget : a.get? i = some (n.map Tree.id) := ht.get?
    unfold Node.exitVisits
    split <;> simp [Visit.bases, hget]
  have hskipped : n.skippedAtEntry (fun _ _ ↦ false) i = false := by simp [Node.skippedAtEntry]
  rw [Tree.bases, Tree.visits_mk, hskipped, if_neg Bool.false_ne_true, List.flatMap_append,
    List.flatMap_append, hentry, hexit, List.nil_append, List.flatMap_assoc]
  rfl

theorem Tree.mem_labelBases {base : String} (h : base ∈ t.bases a types) : base ∈ labelBases := by
  obtain ⟨v, -, hv⟩ := List.mem_flatMap.1 h
  unfold Visit.bases at hv
  split at hv
  · exact Node.mem_labelBases hv
  · cases hv

end walk

/-- The labels that the generator gives out on its way from `p` to `q`: those in the given code and
those of new strings are the ones that are minted on the given bases. -/
structure Places.Issues (p q : Places) (bases code : List String) : Prop where
  next : q.labels.next = p.labels.next + bases.length
  perm : (code ++ q.strings).Perm (p.strings ++ mints p.labels.next bases)

section trees

variable {a : Arena} {r : Analysis} {part : NodeId → Fragment} {u : ScopeId} {p q q' : Places}
  {bases bases' code code' : List String}

theorem Places.Issues.nil (p : Places) : p.Issues p [] [] :=
  ⟨rfl, .of_eq (by simp [mints])⟩

theorem Places.Issues.extend (h : p.Issues q bases code)
    (hnext : q'.labels.next = q.labels.next + bases'.length)
    (hperm : (code' ++ q'.strings).Perm (code ++ q.strings ++ mints q.labels.next bases')) :
    p.Issues q' (bases ++ bases') code' := by
  refine ⟨by rw [hnext, h.next, List.length_append, Nat.add_assoc], ?_⟩
  rw [mints_append, ← h.next, ← List.append_assoc]
  exact hperm.trans (h.perm.append_right _)

theorem Places.Issues.append (h : p.Issues q bases code) (h' : q.Issues q' bases' code') :
    p.Issues q' (bases ++ bases') (code ++ code') := by
  apply h.extend h'.next
  rw [List.append_assoc, List.append_assoc]
  exact h'.perm.append_left code

theorem Places.Issues.node {i : NodeId} {n : Node Tree} {f : Fragment}
    (h : p.Issues q bases (n.children.flatMap fun c ↦ Fragment.labels (part c.id)))
    (hi : compose r u part i q (n.map Tree.id) = (f, q')) (hn : n.kind ≠ .program)
    (hr : n.rejection? = none) :
    p.Issues q' (bases ++ n.bases (r.types.get? i)) f.labels := by
  have hnext := next_compose r u part i q (n.map Tree.id)
  obtain ⟨own, hown, hperm⟩ := exists_perm_compose r u part i q (n := n.map Tree.id)
    (by simpa using hn) (by simpa using hr)
  simp only [hi, Node.bases_map, Node.children_map, List.flatMap_map] at hnext hown hperm
  apply h.extend hnext
  -- new strings stand behind the others, and minted labels behind those of the children
  rw [hown, List.perm_iff_count]
  intro label
  have hcount := hperm.count_eq label
  simp only [List.count_append] at hcount ⊢
  omega

/-- In trees that are compiled one after the other labels are minted as the nodes are left. -/
theorem Coded.issues {ts : List Tree} (h : Coded r part u ts p q) (hts : ∀ t ∈ ts, a.Holds t)
    (hk : ∀ t ∈ ts, t.Every fun n ↦ n.kind ≠ .program) (hp : ∀ t ∈ ts, t.Plain) :
    p.Issues q (ts.flatMap (Tree.bases a r.types))
      (ts.flatMap fun t ↦ Fragment.labels (part t.id)) := by
  induction h with
  | @nil _ p => exact .nil p
  | @cons u i n ts p q p' q' _ hi _ ihc iht =>
    simp only [List.mem_cons, forall_eq_or_imp] at hts hk hp
    obtain ⟨⟨hn, hkc⟩, hkt⟩ := hk
    obtain ⟨⟨hr, hpc⟩, hpt⟩ := hp
    have hbelow := ihc (fun c hc ↦ hts.1.child hc) hkc hpc
    rw [List.flatMap_cons, List.flatMap_cons, hts.1.bases_mk]
    exact (hbelow.node hi hn hr).append (iht hts.2 hkt hpt)

end trees

namespace Arena

variable {a : Arena} {root : NodeId} {functions : List Tree} {main : Tree} {s : Typing}
  {g : Generation}

theorem Compiles.perm_mintAll (h : a.Compiles root functions main s g) :
    (((functions ++ [main]).flatMap fun t ↦ Fragment.labels (g.part t.id)) ++
        g.pool.entries.toList.map Constant.label).Perm
      (Labels.mintAll {} ((Tree.mk root (.program functions main)).bases a s.types)).1 := by
  obtain ⟨-, hplain⟩ := h.accepted.plain
  have hissues := h.coded_parts.issues (fun t ht ↦ h.holds.child ht)
    (fun t ht ↦ (h.holds.child ht).every_kind_ne h.forest (h.holds.kind_child h.forest ht).1) hplain
  have hbases : (Tree.mk root (.program functions main)).bases a s.types =
      (functions ++ [main]).flatMap (Tree.bases a s.types) :=
    h.holds.bases_mk.trans (List.append_nil _)
  rw [Labels.mintAll_eq, hbases]
  exact hissues.perm

/-- The labels that a program has been given. They stand in the code of the parts of the program
and in the pool, each in one place, and none is `main`, the label of the text of a truth value or
that of the cell of a variable. -/
structure LabelsApart (a : Arena) (root : NodeId) (assembly : Assembly) (minted : List String) :
    Prop where
  coded {i : NodeId} : a.Reaches root i → (assembly.code.get? i).isSome
  placed : ∃ functions main, a.get? root = some (.program functions main) ∧
    (((functions ++ [main]).flatMap fun i ↦ (assembly.code.get? i).elim [] Fragment.labels) ++
      assembly.pool.entries.toList.map Constant.label).Perm minted
  notMem_fixed : ∀ label ∈ minted, label ∉ ["main", "bool_true", "bool_false"]
  ne_cell : ∀ label ∈ minted, ∀ scope name, label ≠ Cell.labelFor scope name

theorem Compiles.labelsApart (h : a.Compiles root functions main s g) :
    a.LabelsApart root (g.assembly root)
      (Labels.mintAll {} ((Tree.mk root (.program functions main)).bases a s.types)).1 := by
  have hminted : ∀ label ∈ (Labels.mintAll {}
      ((Tree.mk root (.program functions main)).bases a s.types)).1,
      Minted 0 (0 + ((Tree.mk root (.program functions main)).bases a s.types).length) label := by
    intro label hlabel
    rw [Labels.mintAll_eq] at hlabel
    exact minted_of_mem_mints (fun _ ↦ Tree.mem_labelBases) hlabel
  have hparts : functions.map Tree.id ++ [main.id] = (functions ++ [main]).map Tree.id := by
    rw [List.map_append, List.map_singleton]
  have hlabels : ∀ t ∈ functions ++ [main],
      (g.code.get? t.id).elim [] Fragment.labels = Fragment.labels (g.part t.id) := by
    intro t ht
    have hmem : t.id ∈ (Tree.mk root (.program functions main)).ids := by
      rw [Tree.ids_mk]
      exact List.mem_append_left _ (List.mem_flatMap.2 ⟨t, ht, t.id_mem_ids⟩)
    rw [h.get?_code hmem, Option.elim_some]
  refine ⟨fun hi ↦ ?_, ⟨functions.map Tree.id, main.id, h.holds.get?, ?_⟩,
    fun label hl ↦ (hminted label hl).notMem_fixed, fun label hl ↦ (hminted label hl).ne_labelFor⟩
  · exact Option.isSome_iff_exists.2 ⟨_, h.get?_code (h.holds.reaches_iff.1 hi)⟩
  · rw [hparts, List.flatMap_map]
    exact (List.flatMap_congr hlabels).symm ▸ h.perm_mintAll

/-- Labels that are minted one after the other are distinct, whatever their bases are. In a compiled
program labels are minted as the walk leaves the nodes, and they are apart from all labels that
programs have without minting them. -/
theorem minted_apart :
    (∀ (l : Labels) (bases : List String), (l.mintAll bases).1.Nodup) ∧
    ∀ (a : Arena) (text : String), (a.compile .asm).outcome.result = .ok (.ok text) →
      ∃ root r assembly visits, a.Yields root r assembly visits ∧
        a.LabelsApart root assembly
          (Labels.mintAll {} (visits.toList.flatMap (Visit.bases a r.types))).1 := by
  constructor
  · intro l bases
    rw [Labels.mintAll_eq]
    exact nodup_mints l.next bases
  · intro a text h
    obtain ⟨root, functions, main, s, g, hc, -⟩ := exists_compiles h
    obtain ⟨visits, hyields, hlist⟩ := hc.exists_yields
    refine ⟨root, s.analysis, g.assembly root, visits, hyields, ?_⟩
    rw [hlist]
    exact hc.labelsApart

end Arena

namespace branching

def minted : List String :=
  ["string_0", "string_1", "concat_measure_left_2", "concat_measure_right_3", "concat_allocate_4",
    "concat_copy_left_5", "concat_copy_right_6", "string_7", "else_8", "endif_9", "loop_start_10",
    "loop_end_11"]

theorem minted_eq : (branching.analyze ⟨18⟩).outcome.result.toOption.bind (fun r ↦
    (branching.visits (fun _ _ ↦ false) ⟨18⟩).outcome.result.toOption.map fun visits ↦
      (Labels.mintAll {} (visits.toList.flatMap (Visit.bases branching r.types))).1) =
    some minted := by
  decide +kernel

theorem minted_apart_at :
    (Labels.mintAll {} ["a_1", "a", "", "a_1"]).1 = ["a_1_0", "a_1", "_2", "a_1_3"] ∧
    (Labels.mintAll {} ["a_1", "a", "", "a_1"]).1.Nodup ∧
    ∃ text assembly f, (branching.compile .asm).outcome.result = .ok (.ok text) ∧
      (branching.analyze ⟨18⟩ >>= branching.generate ⟨18⟩).outcome.result = .ok (.ok assembly) ∧
      assembly.code.get? ⟨17⟩ = some f ∧
      (f.labels ++ assembly.pool.entries.toList.map Constant.label).Perm minted ∧
      ∀ label ∈ minted, label ∉ ["main", "bool_true", "bool_false"] ∧
        ∀ scope name, label ≠ Cell.labelFor scope name := by
  obtain ⟨text, htext⟩ := exists_text
  obtain ⟨hnodup, hcompiled⟩ := Arena.minted_apart
  obtain ⟨root, r, assembly, visits, hyields, hapart⟩ := hcompiled branching text htext
  obtain rfl : root = ⟨18⟩ := by simpa using hyields.valid.symm.trans validate_eq
  have hlabels : (Labels.mintAll {} (visits.toList.flatMap (Visit.bases branching r.types))).1 =
      minted := by
    have h := minted_eq
    rw [hyields.analyzed, hyields.visited] at h
    exact Option.some.inj h
  rw [hlabels] at hapart
  obtain ⟨functions, main, hroot, hperm⟩ := hapart.placed
  obtain ⟨rfl, rfl⟩ : functions = [] ∧ main = ⟨17⟩ := by
    have hprogram : branching.get? ⟨18⟩ = some (.program [] ⟨17⟩) := by decide
    simpa using hroot.symm.trans hprogram
  have hmain : branching.Reaches ⟨18⟩ ⟨17⟩ := .child .refl hroot (by simp [Node.children])
  obtain ⟨f, hf⟩ := Option.isSome_iff_exists.1 (hapart.coded hmain)
  refine ⟨by decide +kernel, hnodup {} _, text, assembly, f, htext, hyields.generated, hf, ?_,
    fun label hl ↦ ⟨hapart.notMem_fixed label hl, hapart.ne_cell label hl⟩⟩
  simpa [hf] using hperm

end branching

end SpimCompiler
