import SpimCompiler.Proofs.Outcomes

namespace SpimCompiler

open Mips ScopeTree

inductive Arena.Reaches (a : Arena) (i : NodeId) : NodeId → Prop
  | refl : a.Reaches i i
  | child {j c : NodeId} {n : Node NodeId} :
      a.Reaches i j → a.get? j = some n → c ∈ n.children → a.Reaches i c

/-- The tree stands in the scope `v`, at some place in a tree in the scope `u` or as that itself. -/
inductive Tree.Occurs (t : Tree) (v : ScopeId) : ScopeId → Tree → Prop
  | here : t.Occurs v v t
  | inside {u : ScopeId} {i : NodeId} {n : Node Tree} {c : Tree} :
      c ∈ n.children → t.Occurs v (n.innerScope u) c → t.Occurs v u (.mk i n)

namespace Tree

variable {t t' : Tree} {u v : ScopeId}

theorem Occurs.child (h : t.Occurs v u t') {c : Tree} (hc : c ∈ t.node.children) :
    c.Occurs (t.node.innerScope v) u t' := by
  induction h with
  | here =>
    obtain ⟨i, n⟩ := t
    exact .inside hc .here
  | inside hm _ ih => exact .inside hm ih

theorem Occurs.mem_ids (h : t.Occurs v u t') : t.id ∈ t'.ids := by
  induction h with
  | here => exact t.id_mem_ids
  | inside hc _ ih =>
    rw [ids_mk]
    exact List.mem_append_left _ (List.mem_flatMap.2 ⟨_, hc, ih⟩)

theorem exists_occurs {i : NodeId} (h : i ∈ t.ids) (u : ScopeId) :
    ∃ n v, (Tree.mk i n).Occurs v u t := by
  induction t generalizing u with
  | mk j n ih =>
    rw [ids_mk, List.mem_append, List.mem_singleton] at h
    rcases h with h | rfl
    · obtain ⟨c, hc, hi⟩ := List.mem_flatMap.1 h
      obtain ⟨m, v, ho⟩ := ih c hc hi (n.innerScope u)
      exact ⟨m, v, .inside hc ho⟩
    · exact ⟨n, u, .here⟩

theorem Occurs.plain (h : t.Occurs v u t') (hp : t'.Plain) : t.Plain := by
  induction h with
  | here => exact hp
  | inside hc _ ih =>
    obtain ⟨-, hpc⟩ := hp
    exact ih (hpc _ hc)

theorem Occurs.ready {scopes : ScopeTree} {types : TypeTable} (h : t.Occurs v u t')
    (hr : t'.Ready scopes types u) : t.Ready scopes types v := by
  induction h with
  | here => exact hr
  | inside hc _ ih =>
    obtain ⟨-, hrc⟩ := hr
    exact ih (hrc _ hc)

end Tree

namespace Arena

variable {a : Arena} {t t' : Tree} {u v : ScopeId}

theorem Holds.occurs (ht : a.Holds t') (h : t.Occurs v u t') : a.Holds t := by
  induction h with
  | here => exact ht
  | inside hc _ ih => exact ih (ht.child hc)

theorem Reaches.of_mem_ids {i j : NodeId} (hi : a.Reaches i t.id) (ht : a.Holds t)
    (hj : j ∈ t.ids) : a.Reaches i j := by
  induction t with
  | mk k n ih =>
    rw [Tree.ids_mk, List.mem_append, List.mem_singleton] at hj
    rcases hj with hj | rfl
    · obtain ⟨c, hc, hj⟩ := List.mem_flatMap.1 hj
      refine ih c hc (hi.child ht.get? ?_) (ht.child hc) hj
      rw [Tree.node_mk, Node.children_map]
      exact List.mem_map_of_mem hc
    · exact hi

theorem Holds.reaches_iff (ht : a.Holds t) {j : NodeId} : a.Reaches t.id j ↔ j ∈ t.ids := by
  constructor
  · intro h
    induction h with
    | refl => exact t.id_mem_ids
    | @child j c n _ hn hc ih =>
      obtain ⟨m, v, ho⟩ := Tree.exists_occurs ih globalScope
      have hm : a.get? j = some (m.map Tree.id) := (ht.occurs ho).get?
      obtain rfl : m.map Tree.id = n := Option.some.inj (hm.symm.trans hn)
      rw [Node.children_map] at hc
      obtain ⟨d, hd, rfl⟩ := List.mem_map.1 hc
      exact (ho.child hd).mem_ids
  · exact Reaches.of_mem_ids .refl ht

end Arena

/-- The generator goes on from one state of its places to a later one. -/
inductive Places.Leads (r : Analysis) (part : NodeId → Fragment) : Places → Places → Prop
  | refl {p : Places} : p.Leads r part p
  | node {p q q' : Places} {u : ScopeId} {i : NodeId} {n : Node NodeId} :
      p.Leads r part q → (compose r u part i q n).2 = q' → p.Leads r part q'

section walk

variable {r : Analysis} {part : NodeId → Fragment} {u v : ScopeId} {ts : List Tree} {t t' : Tree}
  {p q q' : Places}

theorem Places.Leads.trans (h : p.Leads r part q) (h' : q.Leads r part q') :
    p.Leads r part q' := by
  induction h' with
  | refl => exact h
  | node _ hn ih => exact ih.node hn

theorem Coded.leads (h : Coded r part u ts p q) : p.Leads r part q := by
  induction h with
  | nil => exact .refl
  | cons _ hi _ ihc iht => exact (ihc.node (congrArg Prod.snd hi)).trans iht

theorem Coded.mem (h : Coded r part u ts p q) (ht : t ∈ ts) :
    ∃ p' q', p.Leads r part p' ∧ Coded r part u [t] p' q' ∧ q'.Leads r part q := by
  induction h with
  | nil => cases ht
  | @cons u i n ts p q p' q' hc hi hts _ iht =>
    have hnode : Coded r part u [.mk i n] p p' := .cons hc hi .nil
    rcases List.mem_cons.1 ht with rfl | ht
    · exact ⟨p, p', .refl, hnode, hts.leads⟩
    · obtain ⟨p₁, q₁, hp, hcode, hq⟩ := iht ht
      exact ⟨p₁, q₁, hnode.leads.trans hp, hcode, hq⟩

theorem Coded.occurs (h : Coded r part u [t'] p q) (ho : t.Occurs v u t') :
    ∃ p' q', p.Leads r part p' ∧ Coded r part v [t] p' q' ∧ q'.Leads r part q := by
  induction ho generalizing p q with
  | here => exact ⟨p, q, .refl, h, .refl⟩
  | @inside u i n c hc _ ih =>
    cases h with
    | @cons _ _ _ _ _ q₁ p' _ hcs hi hts =>
      obtain ⟨p₁, q₂, hp, hcode, hq⟩ := hcs.mem hc
      obtain ⟨p₂, q₃, hp₂, hcode, hq₂⟩ := ih hcode
      have hnode : q₁.Leads r part p' := .node .refl (congrArg Prod.snd hi)
      exact ⟨p₂, q₃, hp.trans hp₂, hcode, hq₂.trans (hq.trans (hnode.trans hts.leads))⟩

end walk

def Typing.analysis (s : Typing) : Analysis := ⟨s.scopes, s.types, s.report⟩

def Generation.assembly (g : Generation) (root : NodeId) : Assembly :=
  ⟨(g.part root).text, g.code, g.pool, g.storage.cells⟩

namespace Arena

variable {a : Arena} {root : NodeId} {functions : List Tree} {main : Tree} {s : Typing}
  {g : Generation}

/-- The arena is compiled: it holds a program, and these are the states in which the second pass and
the generator come to their ends. -/
structure Compiles (a : Arena) (root : NodeId) (functions : List Tree) (main : Tree) (s : Typing)
    (g : Generation) : Prop where
  forest : a.IsForest
  valid : a.validate = .ok root
  holds : a.Holds (.mk root (.program functions main))
  judged : Typing.Judged a.phraseOf [.mk root (.program functions main)]
    { scopes := forMain main } s
  report : s.report = #[]
  accepted : Accepted s.analysis (.mk root (.program functions main))
  generated : Generation.Generated s.analysis {} g [.mk root (.program functions main)]
  result_analyze : (a.analyze root).outcome.result = .ok s.analysis
  result_generate : (a.analyze root >>= a.generate root).outcome.result =
    .ok (.ok (g.assembly root))

theorem result_compile {text : String} (hv : a.validate = .ok root)
    (h : (a.compileFrom root .asm).outcome.result.toOption.bind Except.toOption = some text) :
    (a.compile .asm).outcome.result = .ok (.ok text) := by
  rw [compile, hv]
  generalize (a.compileFrom root .asm).outcome.result = res at h
  rcases res with _ | _ | _ <;> simp_all [Except.toOption]

theorem Compiles.get?_code (h : a.Compiles root functions main s g) {i : NodeId}
    (hi : i ∈ (Tree.mk root (.program functions main)).ids) : g.code.get? i = some (g.part i) := by
  obtain ⟨f, hf⟩ := Option.isSome_iff_exists.1 (h.generated.isSome i (by simpa using hi))
  simp [Generation.part, hf]

theorem Holds.exists_compiles (ht : a.Holds (.mk root (.program functions main)))
    (hv : a.validate = .ok root) {text : String}
    (h : (a.compile .asm).outcome.result = .ok (.ok text)) :
    ∃ s g, a.Compiles root functions main s g ∧ (g.part root).text = text := by
  obtain ⟨ha, -⟩ := exists_program hv
  obtain ⟨r, run, hr, ⟨s, hs, rfl⟩, hacc⟩ := Pass.ends_iff.1 (ends_analyze ha ht ⟨(), #[]⟩)
  have hreport : s.report = #[] := by
    by_contra he
    rw [result_asm_of_report hv hr he] at h
    cases h
  have hacc := hacc hreport
  obtain ⟨res, run', hgen, g, rfl, hg⟩ :=
    Pass.ends_iff.1 (ends_generate ha ht hreport hacc run)
  rw [result_asm_of_generate hv hr hreport hgen] at h
  rw [Tree.plain_iff_rejections.1 hacc.plain] at hs
  have hboth : (a.analyze root >>= a.generate root) ⟨(), #[]⟩ =
      .ok (.ok (g.assembly root)) run' := by
    simp only [bind, EStateM.bind, hr]
    exact hgen
  refine ⟨s, g, ⟨ha, hv, ht, hs, hreport, hacc, hg, result_analyze hr, ?_⟩, by simpa using h⟩
  simp [Pass.outcome, hboth]

theorem exists_compiles {text : String} (h : (a.compile .asm).outcome.result = .ok (.ok text)) :
    ∃ root functions main s g, a.Compiles root functions main s g ∧ (g.part root).text = text := by
  cases hv : a.validate with
  | error d =>
    rw [result_of_defect hv] at h
    cases h
  | ok root =>
    obtain ⟨-, functions, main, ht⟩ := exists_program hv
    exact ⟨root, functions, main, ht.exists_compiles hv h⟩

end Arena

end SpimCompiler
