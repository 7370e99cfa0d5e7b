import Mathlib.Data.Set.Function
import SpimCompiler.Proofs.JumpTargets
import SpimCompiler.Proofs.NameResolution

namespace SpimCompiler

open Mips ScopeTree

theorem Tree.Occurs.lt_size {scopes : ScopeTree} {u v : ScopeId} {t t' : Tree}
    (ho : t.Occurs v u t') (hp : t'.Placed scopes u) (hplain : t'.Plain)
    (hu : u < scopes.scopes.size) : v < scopes.scopes.size := by
  induction ho with
  | here => exact hu
  | @inside u i n c hc _ ih =>
    have hk := hplain.kind_ne
    obtain ⟨hb, hpc⟩ := hp
    obtain ⟨-, hplain⟩ := hplain
    refine ih (hpc hk c hc) (hplain c hc) ?_
    unfold Node.innerScope
    split
    · exact lt_of_childNamed? (hb ‹_›).1
    · exact hu

theorem ScopeTree.Extends.local?_eq_none {scopes scopes' : ScopeTree}
    (h : scopes.Extends scopes') {v : ScopeId} {x : String} (hx : scopes'.local? v x = none) :
    scopes.local? v x = none := by
  cases hy : scopes.local? v x with
  | none => rfl
  | some y => exact absurd (h.found hy) (by simp [hx])

namespace Typing

variable {phrase : NodeId → String} {s s' : Typing} {ts ts' : List Tree} {t t' : Tree}
  {i j : NodeId}
  {v : ScopeId} {x : String} {type type' : TypeName} {init init' : Option Tree}

theorem declares {init : Option NodeId} {n : Node NodeId}
    (hn : n = .variableDeclaration x type init) (hr : (s.give i (s.verdict phrase n)).report = #[])
    (hs : s.current < s.scopes.scopes.size) :
    s.scopes.local? s.current x = none ∧
      (s.give i (s.verdict phrase n)).scopes.local? s.current x = some ⟨x, type.toTy⟩ := by
  have hcomplaint := complaint_eq_none hr
  have hget : (s.scopes.get? s.current).isSome := by simpa [get?] using hs
  subst hn
  cases hx : s.scopes.local? s.current x with
  | some y => simp [verdict, declarationVerdict, hx] at hcomplaint
  | none => simp [give, verdict, declarationVerdict, hx, local?_define, hget]

/-- Without diagnostics a variable is not bound before its declaration, and bound behind it. -/
theorem Judged.declared (h : Judged phrase ts s s') (hr : s'.report = #[])
    (hp : ∀ t ∈ ts, t.Plain) (ht : t ∈ ts) (hv : v < s.scopes.scopes.size)
    (ho : (Tree.mk i (.variableDeclaration x type init)).Occurs v s.current t) :
    s.scopes.local? v x = none ∧ s'.scopes.local? v x = some ⟨x, type.toTy⟩ := by
  induction h generalizing t with
  | nil => cases ht
  | skip hk _ ih =>
    rcases List.mem_cons.1 ht with rfl | ht
    · exact absurd hk (hp _ List.mem_cons_self).kind_ne
    · exact ih hr (fun t ht ↦ hp t (List.mem_cons_of_mem _ ht)) ht hv ho
  | @cons s s₁ s' j n ts _ hc hts ihc iht =>
    have hgive := s₁.grows_give j (s₁.verdict phrase (n.map Tree.id))
    have hreport : (s₁.give j (s₁.verdict phrase (n.map Tree.id))).report = #[] :=
      Grows.report_empty (s := (s₁.give j _).inScope s.current) hts.grows hr
    have hbefore : s.scopes.Extends s₁.scopes := hc.grows.scopes
    have hbehind : (s₁.give j (s₁.verdict phrase (n.map Tree.id))).scopes.Extends s'.scopes :=
      hts.grows.scopes
    rcases List.mem_cons.1 ht with rfl | ht
    · cases ho with
      | here =>
        have hcur : s₁.current = s.current := hc.grows.current
        obtain ⟨hnone, hbound⟩ := declares rfl hreport (by rwa [hcur, hbefore.size])
        rw [hcur] at hnone hbound
        exact ⟨hbefore.local?_eq_none hnone, hbehind.found hbound⟩
      | inside hm ho =>
        obtain ⟨-, hpc⟩ := hp _ List.mem_cons_self
        obtain ⟨hnone, hbound⟩ := ihc (hgive.report_empty hreport) hpc hm hv ho
        exact ⟨hnone, hbehind.found (hgive.scopes.found hbound)⟩
    · have hext := hbefore.trans hgive.scopes
      obtain ⟨hnone, hbound⟩ := iht hr (fun t ht ↦ hp t (List.mem_cons_of_mem _ ht)) ht
        (by rwa [← hext.size] at hv) ho
      exact ⟨hext.local?_eq_none hnone, hbound⟩

theorem Judged.not_declared_behind {s₁ : Typing} (h : Judged phrase ts s s₁)
    (h' : Judged phrase ts' s₁ s') (hr : s'.report = #[]) (hp : ∀ t ∈ ts, t.Plain)
    (hp' : ∀ t ∈ ts', t.Plain) (ht : t ∈ ts) (ht' : t' ∈ ts') (hv : v < s.scopes.scopes.size)
    (ho : (Tree.mk i (.variableDeclaration x type init)).Occurs v s.current t) :
    ¬(Tree.mk j (.variableDeclaration x type' init')).Occurs v s.current t' := by
  intro ho'
  rw [← h.grows.current] at ho'
  have hbound := (h.declared (h'.grows.report_empty hr) hp ht hv ho).2
  have hnone := (h'.declared hr hp' ht' (by rwa [h.grows.scopes.size]) ho').1
  rw [hnone] at hbound
  cases hbound

theorem Judged.not_declared_below {init' : Option NodeId} (h : Judged phrase ts s s')
    (hr : (s'.give i (s'.verdict phrase (.variableDeclaration x type' init'))).report = #[])
    (hp : ∀ t ∈ ts, t.Plain) (ht : t ∈ ts) (hv : s.current < s.scopes.scopes.size) :
    ¬(Tree.mk j (.variableDeclaration x type init)).Occurs s.current s.current t := by
  intro ho
  have hbound := (h.declared ((s'.grows_give i _).report_empty hr) hp ht hv ho).2
  have hfirst := declares rfl hr (by rwa [h.grows.current, h.grows.scopes.size])
  rw [← h.grows.current, hfirst.1] at hbound
  cases hbound

theorem Judged.declaration_unique (h : Judged phrase ts s s') (hr : s'.report = #[])
    (hp : ∀ t ∈ ts, t.Plain) (ht : t ∈ ts) (ht' : t' ∈ ts) (hv : v < s.scopes.scopes.size)
    (ho : (Tree.mk i (.variableDeclaration x type init)).Occurs v s.current t)
    (ho' : (Tree.mk j (.variableDeclaration x type' init')).Occurs v s.current t') : i = j := by
  induction h generalizing t t' with
  | nil => cases ht
  | skip hk _ ih =>
    have hne := (hp _ List.mem_cons_self).kind_ne
    rcases List.mem_cons.1 ht with rfl | ht
    · exact absurd hk hne
    · rcases List.mem_cons.1 ht' with rfl | ht'
      · exact absurd hk hne
      · exact ih hr (fun t ht ↦ hp t (List.mem_cons_of_mem _ ht)) ht ht' hv ho ho'
  | @cons s s₁ s' k n ts hk hc hts ihc iht =>
    have hgive := s₁.grows_give k (s₁.verdict phrase (n.map Tree.id))
    have hreport : (s₁.give k (s₁.verdict phrase (n.map Tree.id))).report = #[] :=
      Grows.report_empty (s := (s₁.give k _).inScope s.current) hts.grows hr
    have hreport₁ := hgive.report_empty hreport
    have hbefore : s.scopes.Extends s₁.scopes := hc.grows.scopes
    have hv' : v < (s₁.give k (s₁.verdict phrase (n.map Tree.id))).scopes.scopes.size := by
      rwa [(hbefore.trans hgive.scopes).size]
    have hpt : ∀ t ∈ ts, t.Plain := fun t ht ↦ hp t (List.mem_cons_of_mem _ ht)
    have hpn : ∀ t ∈ [Tree.mk k n], t.Plain := by simpa using hp _ List.mem_cons_self
    obtain ⟨-, hpc⟩ := hp _ List.mem_cons_self
    have hnode : Judged phrase [.mk k n] s
        ((s₁.give k (s₁.verdict phrase (n.map Tree.id))).inScope s.current) := .cons hk hc .nil
    rcases List.mem_cons.1 ht with rfl | ht <;> rcases List.mem_cons.1 ht' with rfl | ht'
    · cases ho with
      | here =>
        cases ho' with
        | here => rfl
        | inside hm ho' => exact absurd ho' (hc.not_declared_below hreport hpc hm hv)
      | inside hm ho =>
        cases ho' with
        | here => exact absurd ho (hc.not_declared_below hreport hpc hm hv)
        | inside hm' ho' => exact ihc hreport₁ hpc hm hm' hv ho ho'
    · exact absurd ho' (hnode.not_declared_behind hts hr hpn hpt List.mem_cons_self ht' hv ho)
    · exact absurd ho (hnode.not_declared_behind hts hr hpn hpt List.mem_cons_self ht hv ho')
    · exact iht hr hpt ht ht' hv' ho ho'

end Typing

namespace Mips

def Instr.cell? : Instr → Option String
  | lw _ (.cell label) | sw _ (.cell label) | lb _ (.cell label) | sb _ (.cell label) => some label
  | _ => none

def Line.cell? : Line → Option String
  | .instr i => i.cell?
  | _ => none

def Fragment.operandCells (f : Fragment) : List String := f.filterMap Line.cell?

@[simp]
theorem Fragment.operandCells_append (f g : Fragment) :
    operandCells (f ++ g) = f.operandCells ++ g.operandCells :=
  List.filterMap_append

@[simp]
theorem Fragment.operandCells_cons (l : Line) (f : Fragment) :
    operandCells (l :: f) = l.cell?.toList ++ f.operandCells := by
  cases h : l.cell? <;> simp [operandCells, h]

@[simp]
theorem Fragment.operandCells_nil : operandCells [] = [] := rfl

end Mips

/-- The code of a node uses the cells that the code of its children uses, and that of its
variable. -/
theorem mem_operandCells_compose {r : Analysis} {u : ScopeId} {part : NodeId → Fragment}
    {i : NodeId} {p : Places} {n : Node NodeId} {l : String}
    (h : l ∈ Fragment.operandCells (compose r u part i p n).1) :
    (∃ c ∈ n.children, l ∈ (part c).operandCells) ∨
      ∃ x ∈ n.variableName?, l = (p.cell r.scopes u x).1 := by
  cases n with
  | program functions main =>
    have hwords (cells : List Cell) :
        Fragment.operandCells (cells.map fun c ↦ .word c.label) = [] := by
      simp [Fragment.operandCells, Line.cell?]
    have hstrings (strings : List Constant) :
        Fragment.operandCells (strings.map fun c ↦ .asciiz c.label c.value) = [] := by
      simp [Fragment.operandCells, Line.cell?]
    simp [compose, Template.program, Template.call, Line.cell?, Instr.cell?, hwords,
      hstrings] at h
    exact .inl ⟨main, by simp [Node.children], h⟩
  | executableBlock | variableBlock | statementBlock =>
    simp only [compose, Fragment.operandCells, List.filterMap_flatMap, List.mem_flatMap] at h
    exact .inl h
  | variableDeclaration name type init =>
    cases init <;>
      simp_all [compose, Template.storeVariable, Line.cell?, Instr.cell?, Node.children,
        Node.variableName?]
  | ifStatement condition thenBlock elseBlock =>
    cases elseBlock <;>
      simp_all [compose, Template.ifThen, Template.ifElse, Line.cell?, Instr.cell?, Node.children]
  | unary op operand =>
    cases op <;>
      simp_all [compose, Template.unaryMinus, Template.logicalNot, Line.cell?, Instr.cell?,
        Node.children]
  | printStatement value =>
    simp only [compose] at h
    cases htype : (r.types.get? value).getD .error <;> rw [htype] at h <;>
      simp_all [printing, Template.printBool, Template.printBy, Template.call, Line.cell?,
        Instr.cell?, Node.children]
  | addSub op lhs rhs =>
    rw [compose] at h
    split at h <;>
      simp_all [Template.concatStrings, Template.measure, Template.call, Template.binary,
        Template.operands, Line.cell?, Instr.cell?, Node.children]
  | _ =>
    simp_all [compose, Line.cell?, Instr.cell?, Node.children, Node.variableName?,
      Template.storeVariable, Template.loadVariable, Template.loadImmediate, Template.loadAddress,
      Template.whileLoop, Template.binary, Template.operands]

section coded

variable {r : Analysis} {part : NodeId → Fragment} {u : ScopeId} {ts : List Tree} {p q : Places}

theorem Coded.exists_operandCell (h : Coded r part u ts p q)
    (hr : ∀ t ∈ ts, t.Ready r.scopes r.types u) (hp : p.storage.Serves r.scopes.Binds) :
    ∀ t ∈ ts, ∀ l ∈ (part t.id).operandCells, ∃ c ∈ q.storage.cells.toList, c.label = l := by
  induction h with
  | nil => simp
  | @cons u i n ts p q p' q' hc hi hts ihc iht =>
    simp only [List.mem_cons, forall_eq_or_imp] at hr ⊢
    obtain ⟨⟨hrn, hrc⟩, hrt⟩ := hr
    have hq := hc.leads.serves hp
    have hnode : q.Leads r part p' := .node .refl (congrArg Prod.snd hi)
    refine ⟨fun l hl ↦ ?_, iht hrt (hnode.serves hq)⟩
    have hcode : (compose r (n.innerScope u) part i q (n.map Tree.id)).1 = part i :=
      congrArg Prod.fst hi
    rw [Tree.id_mk, ← hcode] at hl
    rcases mem_operandCells_compose hl with ⟨c, hm, hl⟩ | ⟨x, hx, rfl⟩
    · rw [Node.children_map] at hm
      obtain ⟨t, ht, rfl⟩ := List.mem_map.1 hm
      obtain ⟨c, hcell, hlabel⟩ := ihc hrc hp t ht l hl
      exact ⟨c, (hnode.trans hts.leads).mem_cells hcell, hlabel⟩
    · obtain ⟨w, hw⟩ := Option.isSome_iff_exists.1 (hrn.isSome hx)
      obtain ⟨-, -, hmem⟩ := hq.allocate (x := x) ⟨w, rfl, isSome_local?_of_definingScope? hw⟩
      refine ⟨Cell.of (r.scopes.qualifiedName w) x, hts.leads.mem_cells ?_,
        (Places.label_cell hq hw).symm⟩
      have hstorage := storage_compose r (n.innerScope u) part i q (n.map Tree.id)
      rw [hi, hx, Option.elim_some, Places.storage_cell, hw] at hstorage
      rw [hstorage]
      exact hmem

end coded

def Tree.DeclaresAt (t : Tree) (i : NodeId) (v : ScopeId) (x : String) : Prop :=
  ∃ type init, (Tree.mk i (.variableDeclaration x type init)).Occurs v globalScope t

namespace Arena

variable {a : Arena} {root : NodeId} {functions : List Tree} {main : Tree} {s : Typing}
  {g : Generation} {i j : NodeId} {v w : ScopeId} {x : String}

def declarations (a : Arena) (root : NodeId) : Set NodeId :=
  {i | a.Reaches root i ∧ ∃ x type init, a.get? i = some (.variableDeclaration x type init)}

/-- The variable that a declaration declares, as storage knows it: by the name of the scope in which
the second pass left the declaration, and its own. -/
def variableAt (a : Arena) (r : Analysis) (states : NodeTable Typing) (i : NodeId) :
    Option (String × String) := do
  let name ← (← a.get? i).variableName?
  let s ← states.get? i
  return (r.scopes.qualifiedName s.current, name)

namespace Compiles

theorem exists_occurs (h : a.Compiles root functions main s g) (hi : a.Reaches root i)
    {type : TypeName} {init : Option NodeId}
    (hn : a.get? i = some (.variableDeclaration x type init)) :
    ∃ v init', (Tree.mk i (.variableDeclaration x type init')).Occurs v globalScope
      (.mk root (.program functions main)) := by
  obtain ⟨m, v, ho⟩ := Tree.exists_occurs (h.holds.reaches_iff.1 hi) globalScope
  have hm : a.get? i = some (m.map Tree.id) := (h.holds.occurs ho).get?
  have hmn := Option.some.inj (hm.symm.trans hn)
  cases m with
  | variableDeclaration y type' init' =>
    obtain ⟨rfl, rfl, -⟩ : y = x ∧ type' = type ∧ _ := by simpa [Node.map] using hmn
    exact ⟨v, init', ho⟩
  | _ => simp [Node.map] at hmn

theorem mem_declarations_iff (h : a.Compiles root functions main s g) :
    i ∈ a.declarations root ↔
      ∃ v x, (Tree.mk root (.program functions main)).DeclaresAt i v x := by
  constructor
  · rintro ⟨hi, x, type, init, hn⟩
    obtain ⟨v, init', ho⟩ := h.exists_occurs hi hn
    exact ⟨v, x, type, init', ho⟩
  · rintro ⟨v, x, type, init, ho⟩
    exact ⟨h.holds.reaches_iff.2 ho.mem_ids, x, type, _, (h.holds.occurs ho).get?⟩

theorem lt_size (h : a.Compiles root functions main s g)
    (hd : (Tree.mk root (.program functions main)).DeclaresAt i v x) :
    v < (forMain main).scopes.size := by
  obtain ⟨type, init, ho⟩ := hd
  exact ho.lt_size (h.holds.placed h.forest) h.accepted.plain
    (Typing.sound_forMain main #[]).current

theorem local?_eq (h : a.Compiles root functions main s g) {type : TypeName}
    {init : Option Tree} (ho : (Tree.mk i (.variableDeclaration x type init)).Occurs v globalScope
      (.mk root (.program functions main))) : s.scopes.local? v x = some ⟨x, type.toTy⟩ :=
  (h.judged.declared h.report (by simpa using h.accepted.plain) List.mem_cons_self
    (h.lt_size ⟨type, init, ho⟩) ho).2

theorem isSome_local? (h : a.Compiles root functions main s g)
    (hd : (Tree.mk root (.program functions main)).DeclaresAt i v x) :
    (s.scopes.local? v x).isSome := by
  obtain ⟨type, init, ho⟩ := hd
  rw [h.local?_eq ho]
  rfl

theorem eq_of_declares (h : a.Compiles root functions main s g)
    (hi : (Tree.mk root (.program functions main)).DeclaresAt i v x)
    (hj : (Tree.mk root (.program functions main)).DeclaresAt j v x) : i = j := by
  have hv := h.lt_size hi
  obtain ⟨type, init, ho⟩ := hi
  obtain ⟨type', init', ho'⟩ := hj
  exact h.judged.declaration_unique h.report (by simpa using h.accepted.plain) List.mem_cons_self
    List.mem_cons_self hv ho ho'

theorem exists_declares (h : a.Compiles root functions main s g)
    (hx : (s.scopes.local? v x).isSome) :
    ∃ i, (Tree.mk root (.program functions main)).DeclaresAt i v x := by
  rcases h.judged.exists_declaration hx with hx | ⟨t, ht, i, type, init, ho⟩
  · simp [local?_forMain] at hx
  · obtain rfl := List.mem_singleton.1 ht
    exact ⟨i, type, init, ho⟩

theorem exists_state (h : a.Compiles root functions main s g) {T : NodeTable Typing}
    (hT : Typing.Recorded a.phraseOf T [.mk root (.program functions main)]
      { scopes := forMain main } s)
    (hd : (Tree.mk root (.program functions main)).DeclaresAt i v x) :
    ∃ s₁, T.get? i = some s₁ ∧ s₁.current = v := by
  obtain ⟨type, init, ho⟩ := hd
  have hfresh : ({ scopes := forMain main } : Typing).types.Fresh
      [.mk root (.program functions main)] :=
    ⟨by simpa using h.holds.nodup_ids h.forest, by simp⟩
  obtain ⟨s₁, hget, hcur, -⟩ := hT.occurs hfresh List.mem_cons_self h.accepted.plain ho
  exact ⟨s₁, hget, hcur⟩

theorem variableAt_eq (h : a.Compiles root functions main s g) {T : NodeTable Typing}
    (hT : Typing.Recorded a.phraseOf T [.mk root (.program functions main)]
      { scopes := forMain main } s)
    (hd : (Tree.mk root (.program functions main)).DeclaresAt i v x) :
    a.variableAt s.analysis T i = some (s.scopes.qualifiedName v, x) := by
  obtain ⟨s₁, hget, rfl⟩ := h.exists_state hT hd
  obtain ⟨type, init, ho⟩ := hd
  have hnode : a.get? i = some (.variableDeclaration x type (init.map Tree.id)) :=
    (h.holds.occurs ho).get?
  simp [variableAt, hnode, hget, Node.variableName?, Typing.analysis]

theorem scope_unique (h : a.Compiles root functions main s g) {y : String}
    (hx : (s.scopes.local? v x).isSome) (hy : (s.scopes.local? w y).isSome)
    (hq : s.scopes.qualifiedName v = s.scopes.qualifiedName w) : v = w := by
  rcases h.local?_cases hx with ⟨rfl, hv⟩ | ⟨rfl, hv⟩ <;>
    rcases h.local?_cases hy with ⟨rfl, hw⟩ | ⟨rfl, hw⟩ <;> simp_all

theorem bijOn_variableAt (h : a.Compiles root functions main s g) {T : NodeTable Typing}
    (hT : Typing.Recorded a.phraseOf T [.mk root (.program functions main)]
      { scopes := forMain main } s) :
    Set.BijOn (a.variableAt s.analysis T) (a.declarations root)
      {p | ∃ c ∈ g.storage.cells.toList, p = some (c.scope, c.name)} := by
  refine ⟨fun i hi ↦ ?_, fun i hi j hj he ↦ ?_, ?_⟩
  · obtain ⟨v, x, hd⟩ := h.mem_declarations_iff.1 hi
    exact ⟨_, (h.mem_cells_iff _).2 ⟨v, x, h.isSome_local? hd, rfl⟩, h.variableAt_eq hT hd⟩
  · obtain ⟨v, x, hd⟩ := h.mem_declarations_iff.1 hi
    obtain ⟨w, y, hd'⟩ := h.mem_declarations_iff.1 hj
    rw [h.variableAt_eq hT hd, h.variableAt_eq hT hd', Option.some.injEq, Prod.mk.injEq] at he
    obtain ⟨hscope, rfl⟩ := he
    obtain rfl := h.scope_unique (h.isSome_local? hd) (h.isSome_local? hd') hscope
    exact h.eq_of_declares hd hd'
  · rintro p ⟨c, hc, rfl⟩
    obtain ⟨v, x, hx, rfl⟩ := (h.mem_cells_iff c).1 hc
    obtain ⟨i, hd⟩ := h.exists_declares hx
    exact ⟨i, h.mem_declarations_iff.2 ⟨v, x, hd⟩, h.variableAt_eq hT hd⟩

theorem exists_operandCell (h : a.Compiles root functions main s g) {f : Fragment}
    (hf : g.code.get? i = some f) {l : String} (hl : l ∈ f.operandCells) :
    ∃ c ∈ g.storage.cells.toList, c.label = l := by
  have hi : i ∈ (Tree.mk root (.program functions main)).ids := by
    by_contra hi
    have hnone := h.generated.frame i (by simpa using hi)
    rw [hf] at hnone
    simp at hnone
  obtain rfl := Option.some.inj (hf.symm.trans (h.get?_code hi))
  obtain ⟨n, v, ho⟩ := Tree.exists_occurs hi globalScope
  obtain ⟨p, q, hp, hcode, hq⟩ := h.generated.coded.occurs ho
  have hserves : p.storage.Serves s.analysis.scopes.Binds :=
    hp.serves ⟨by simp [Generation.places], by simp [Generation.places]⟩
  obtain ⟨c, hc, hlabel⟩ := hcode.exists_operandCell (by simpa using ho.ready h.accepted.ready)
    hserves _ List.mem_cons_self l hl
  exact ⟨c, hq.mem_cells hc, hlabel⟩

end Compiles

/-- In a compiled program every declaration binds its variable in the scope in which the second pass
left it and has a cell of its own, and every cell belongs to a declaration. No two cells have the
scope and the name in common, and the code of every node loads from and stores to these cells
only. -/
theorem cells_bijective {text : String} (h : (a.compile .asm).outcome.result = .ok (.ok text)) :
    ∃ root r states assembly, a.validate = .ok root ∧ (a.analyze root).outcome.result = .ok r ∧
      (a.analyzeRecorded root).outcome.result = .ok (r, states) ∧
      (a.analyze root >>= a.generate root).outcome.result = .ok (.ok assembly) ∧
      assembly.text = text ∧
      (∀ i x type init, a.Reaches root i → a.get? i = some (.variableDeclaration x type init) →
        ∃ s, states.get? i = some s ∧ r.scopes.local? s.current x = some ⟨x, type.toTy⟩) ∧
      Set.BijOn (a.variableAt r states) (a.declarations root)
        {p | ∃ c ∈ assembly.cells.toList, p = some (c.scope, c.name)} ∧
      (assembly.cells.toList.map fun c ↦ (c.scope, c.name)).Nodup ∧
      ∀ i f, assembly.code.get? i = some f →
        ∀ l ∈ f.operandCells, ∃ c ∈ assembly.cells.toList, c.label = l := by
  obtain ⟨root, functions, main, s, g, hc, rfl⟩ := exists_compiles h
  obtain ⟨T, hT, hrec⟩ := hc.exists_recorded
  refine ⟨root, s.analysis, T, g.assembly root, hc.valid, hc.result_analyze, hT,
    hc.result_generate, rfl, fun i x type init hi hn ↦ ?_, hc.bijOn_variableAt hrec,
    hc.serves.nodup, fun i f hf l hl ↦ hc.exists_operandCell hf hl⟩
  obtain ⟨v, init', ho⟩ := hc.exists_occurs hi hn
  obtain ⟨s₁, hget, rfl⟩ := hc.exists_state hrec ⟨type, init', ho⟩
  exact ⟨s₁, hget, hc.local?_eq ho⟩

end Arena

theorem shadowed.cells_bijective_at :
    (shadowed.compile .asm).outcome.result = .ok (.ok text) ∧
    ⟨0⟩ ∈ shadowed.declarations ⟨7⟩ ∧ ⟨3⟩ ∈ shadowed.declarations ⟨7⟩ ∧
    ∃ r states assembly, (shadowed.analyzeRecorded ⟨7⟩).outcome.result = .ok (r, states) ∧
      (shadowed.analyze ⟨7⟩ >>= shadowed.generate ⟨7⟩).outcome.result = .ok (.ok assembly) ∧
      (∃ s, states.get? ⟨3⟩ = some s ∧ r.scopes.local? s.current "x" = some ⟨"x", .string⟩) ∧
      Set.BijOn (shadowed.variableAt r states) (shadowed.declarations ⟨7⟩)
        {p | ∃ c ∈ assembly.cells.toList, p = some (c.scope, c.name)} ∧
      (assembly.cells.toList.map fun c ↦ (c.scope, c.name)).Nodup ∧
      ∀ i f, assembly.code.get? i = some f →
        ∀ l ∈ f.operandCells, ∃ c ∈ assembly.cells.toList, c.label = l := by
  have hblock : shadowed.Reaches ⟨7⟩ ⟨4⟩ :=
    .child (.child .refl (j := ⟨7⟩) (c := ⟨6⟩) rfl (by decide)) rfl (by decide)
  obtain ⟨root, r, states, assembly, hv, -, hs, hg, -, hbound, hbij, hnodup, hcells⟩ :=
    Arena.cells_bijective compile_eq
  obtain rfl : root = ⟨7⟩ := by simpa using hv.symm.trans validate_eq
  have hlocal : shadowed.Reaches ⟨7⟩ ⟨3⟩ := hblock.child rfl (by decide)
  exact ⟨compile_eq, ⟨.child .refl rfl (by decide), "x", .int, none, rfl⟩,
    ⟨hlocal, "x", .string, none, rfl⟩, r, states, assembly, hs, hg,
    hbound ⟨3⟩ "x" .string none hlocal rfl, hbij, hnodup, hcells⟩

end SpimCompiler
