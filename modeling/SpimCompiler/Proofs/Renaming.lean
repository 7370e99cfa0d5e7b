import Mathlib.Logic.Equiv.Basic
import SpimCompiler.Proofs.NameResolution

namespace SpimCompiler

open Mips ScopeTree

variable {ρ : String → String}

namespace Node

variable {ι κ : Type}

def rename (ρ : String → String) : Node ι → Node ι
  | .variableDeclaration name type init => .variableDeclaration (ρ name) type init
  | .assignment name value => .assignment (ρ name) value
  | .variableRef name => .variableRef (ρ name)
  | n => n

@[simp]
theorem kind_rename (n : Node ι) : (n.rename ρ).kind = n.kind := by
  cases n <;> rfl

@[simp]
theorem children_rename (n : Node ι) : (n.rename ρ).children = n.children := by
  cases n <;> rfl

theorem rename_map (f : ι → κ) (n : Node ι) : (n.map f).rename ρ = (n.rename ρ).map f := by
  cases n <;> rfl

@[simp]
theorem rejection?_rename (n : Node ι) : (n.rename ρ).rejection? = n.rejection? := by
  cases n <;> rfl

@[simp]
theorem innerScope_rename (n : Node ι) (u : ScopeId) :
    (n.rename ρ).innerScope u = n.innerScope u := by
  simp [innerScope]

theorem accepts_rename (n c : Node NodeId) (id : NodeId) :
    (n.rename ρ).accepts id (c.rename ρ) = n.accepts id c := by
  cases c with
  | executableBlock => cases n <;> rfl
  | _ => rfl

end Node

def Arena.rename (ρ : String → String) (a : Arena) : Arena where
  nodes := a.nodes.map (Node.rename ρ)
  root := a.root

def Edge.rename (ρ : String → String) (e : Edge) : Edge :=
  { e with node := e.node.rename ρ }

inductive Tree.Renamed (ρ : String → String) : Tree → Tree → Prop
  | mk {i : NodeId} {n : Node Tree} {f : Tree → Tree} :
      (∀ c ∈ n.children, c.Renamed ρ (f c)) → Renamed ρ (.mk i n) (.mk i ((n.rename ρ).map f))

namespace Tree.Renamed

variable {t t' : Tree} {n : Node Tree} {f : Tree → Tree}

theorem id_eq (h : t.Renamed ρ t') : t'.id = t.id := by
  cases h
  rfl

theorem kind_eq (h : t.Renamed ρ t') : t'.node.kind = t.node.kind := by
  cases h
  simp

theorem forall₂_children (hf : ∀ c ∈ n.children, c.Renamed ρ (f c)) :
    List.Forall₂ (Tree.Renamed ρ) n.children ((n.rename ρ).map f).children := by
  rw [Node.children_map, Node.children_rename, List.forall₂_map_right_iff, List.forall₂_same]
  exact hf

theorem map_id_map (hf : ∀ c ∈ n.children, c.Renamed ρ (f c)) :
    ((n.rename ρ).map f).map Tree.id = (n.map Tree.id).rename ρ := by
  rw [Node.rename_map, Node.map_map]
  exact Node.map_congr fun c hc ↦ (hf c (by simpa using hc)).id_eq

theorem rejections_eq (h : t.Renamed ρ t') : t'.rejections = t.rejections := by
  induction h with
  | mk _ ih =>
    rw [rejections_mk, rejections_mk, Node.rejection?_map, Node.rejection?_rename, Node.kind_map,
      Node.kind_rename, Node.children_map, Node.children_rename, List.flatMap_map,
      List.flatMap_congr ih]

end Tree.Renamed

namespace Arena

variable {a : Arena} {t : Tree}

@[simp]
theorem get?_rename (a : Arena) (i : NodeId) :
    (a.rename ρ).get? i = (a.get? i).map (Node.rename ρ) :=
  Array.getElem?_map

theorem Holds.exists_renamed (ht : a.Holds t) :
    ∃ t', (a.rename ρ).Holds t' ∧ t.Renamed ρ t' := by
  induction t with
  | mk i n ih =>
    have hc : ∀ c ∈ n.children, ∃ d, (a.rename ρ).Holds d ∧ c.Renamed ρ d :=
      fun c hc ↦ ih c hc (ht.child hc)
    choose! f hf using hc
    refine ⟨.mk i ((n.rename ρ).map f), .mk ?_ fun d hd ↦ ?_, .mk fun c hc ↦ (hf c hc).2⟩
    · rw [Tree.Renamed.map_id_map fun c hc ↦ (hf c hc).2, get?_rename,
        show a.get? i = some (n.map Tree.id) from ht.get?, Option.map_some]
    · rw [Node.children_map, Node.children_rename] at hd
      obtain ⟨c, hc, rfl⟩ := List.mem_map.1 hd
      exact (hf c hc).1

theorem toList_rename (a : Arena) :
    (a.rename ρ).toList = a.toList.map fun p ↦ (p.1, p.2.rename ρ) := by
  simp [toList, rename, List.zipIdx_map, Function.comp_def]

theorem edges_rename (a : Arena) : (a.rename ρ).edges = a.edges.map (Edge.rename ρ) := by
  simp [edges, toList_rename, List.flatMap_map, List.map_flatMap, Function.comp_def, Edge.rename]

theorem defectAt?_rename (a : Arena) (seen : Std.HashSet NodeId) (e : Edge) :
    (a.rename ρ).defectAt? seen (e.rename ρ) = a.defectAt? seen e := by
  unfold defectAt?
  rw [get?_rename]
  cases hc : a.get? e.child <;> simp [Edge.rename, hc, Node.accepts_rename]

theorem firstDefect?_rename (a : Arena) (seen : Std.HashSet NodeId) (es : List Edge) :
    (a.rename ρ).firstDefect? seen (es.map (Edge.rename ρ)) = a.firstDefect? seen es := by
  induction es generalizing seen with
  | nil => rfl
  | cons e es ih =>
    rw [List.map_cons, firstDefect?, firstDefect?, defectAt?_rename]
    cases a.defectAt? seen e with
    | none => exact ih _
    | some d => rfl

theorem validate_rename (a : Arena) : (a.rename ρ).validate = a.validate := by
  have hroot : (a.rename ρ).programRoot = a.programRoot := by
    unfold programRoot
    rw [show (a.rename ρ).root = a.root from rfl]
    cases hr : a.root with
    | none => rfl
    | some r => cases hn : a.get? r <;> simp [hn]
  rw [validate, validate, edges_rename, firstDefect?_rename, hroot]

end Arena

def Symbol.rename (ρ : String → String) (x : Symbol) : Symbol := { x with name := ρ x.name }

def Scope.rename (ρ : String → String) (s : Scope) : Scope :=
  { s with symbols := s.symbols.map (Symbol.rename ρ) }

def ScopeTree.rename (ρ : String → String) (t : ScopeTree) : ScopeTree :=
  ⟨t.scopes.map (Scope.rename ρ)⟩

theorem Scope.find?_rename (hρ : ρ.Injective) (s : Scope) (x : String) :
    (s.rename ρ).find? (ρ x) = (s.find? x).map (Symbol.rename ρ) := by
  simp [find?, rename, List.find?_map, Function.comp_def, Symbol.rename, hρ.beq_eq]

theorem Scope.insert_rename (s : Scope) (x : Symbol) :
    (s.rename ρ).insert (x.rename ρ) = (s.insert x).rename ρ := by
  simp [insert, rename]

namespace ScopeTree

variable (t : ScopeTree) (u : ScopeId) (x : String)

theorem get?_rename : (t.rename ρ).get? u = (t.get? u).map (Scope.rename ρ) :=
  Array.getElem?_map

@[simp]
theorem nameOf_rename : (t.rename ρ).nameOf u = t.nameOf u := by
  rw [nameOf, nameOf, get?_rename]
  cases t.get? u <;> rfl

@[simp]
theorem outerOf_rename : (t.rename ρ).outerOf u = t.outerOf u := by
  rw [outerOf, outerOf, get?_rename]
  cases t.get? u <;> rfl

@[simp]
theorem chain_rename : (t.rename ρ).chain u = t.chain u := by
  simp [chain]

@[simp]
theorem qualifiedName_rename : (t.rename ρ).qualifiedName u = t.qualifiedName u := by
  simp [qualifiedName, enclosing?]

theorem rename_forMain (main : Tree) : (forMain main).rename ρ = forMain main := by
  unfold forMain
  split <;> simp [rename, withMain, initial, addChild, Scope.rename]

variable {t u x} (hρ : ρ.Injective)

include hρ

theorem local?_rename : (t.rename ρ).local? u (ρ x) = (t.local? u x).map (Symbol.rename ρ) := by
  rw [local?, local?, get?_rename]
  cases t.get? u with
  | none => rfl
  | some s => exact s.find?_rename hρ x

theorem definingScope?_rename : (t.rename ρ).definingScope? u (ρ x) = t.definingScope? u x := by
  simp [definingScope?, local?_rename hρ]

theorem resolve?_rename :
    (t.rename ρ).resolve? u (ρ x) = (t.resolve? u x).map (Symbol.rename ρ) := by
  simp [resolve?, local?_rename hρ, List.map_findSome?, Function.comp_def]

theorem define_rename (x : String) (type : Ty) :
    ((t.rename ρ).define u (ρ x) type).2 = (t.define u x type).2.rename ρ := by
  unfold define
  rw [local?_rename hρ]
  cases t.local? u x with
  | some y => rfl
  | none =>
    have hx : (fun s : Scope ↦ (s.rename ρ).insert ⟨ρ x, type⟩) =
        fun s ↦ (s.insert ⟨x, type⟩).rename ρ := funext fun s ↦ s.insert_rename ⟨x, type⟩
    rw [Option.map_none, rename, rename, ScopeTree.mk.injEq]
    refine Array.ext_getElem? fun i ↦ ?_
    have hi := congrArg (fun f ↦ (t.scopes[i]?).map f) hx
    by_cases h : u = i <;> simp_all [Array.getElem?_modify, Function.comp_def]

end ScopeTree

/-- The node that a diagnostic is about, and what it finds wrong there. -/
def Diagnostic.finding (d : Diagnostic) : NodeId × Category := (d.node, d.category)

namespace Typing

/-- The same verdict on a renamed node. The texts of complaints may differ. -/
structure Verdict.Renamed (ρ : String → String) (v v' : Verdict) : Prop where
  type : v'.type = v.type
  complaint : v'.complaint.map Complaint.category = v.complaint.map Complaint.category
  binding : v'.binding = v.binding.map (Symbol.rename ρ)

/-- The states are equal up to the names of variables and the texts of diagnostics. -/
structure Renamed (ρ : String → String) (s s' : Typing) : Prop where
  scopes : s'.scopes = s.scopes.rename ρ
  current : s'.current = s.current
  types : s'.types = s.types
  report : s'.report.map Diagnostic.finding = s.report.map Diagnostic.finding

namespace Renamed

variable {s s' : Typing}

theorem inScope (h : s.Renamed ρ s') (u : ScopeId) : (s.inScope u).Renamed ρ (s'.inScope u) :=
  ⟨h.scopes, rfl, h.types, h.report⟩

theorem type_eq (h : s.Renamed ρ s') (i : NodeId) : s'.type i = s.type i := by
  rw [Typing.type, Typing.type, h.types]

theorem lookup_eq (h : s.Renamed ρ s') (hρ : ρ.Injective) (x : String) :
    s'.lookup (ρ x) = (s.lookup x).map (Symbol.rename ρ) := by
  rw [lookup, lookup, h.scopes, h.current, resolve?_rename hρ]

theorem local?_eq (h : s.Renamed ρ s') (hρ : ρ.Injective) (x : String) :
    s'.scopes.local? s'.current (ρ x) =
      (s.scopes.local? s.current x).map (Symbol.rename ρ) := by
  rw [h.scopes, h.current, local?_rename hρ]

theorem verdict (h : s.Renamed ρ s') (hρ : ρ.Injective) (phrase phrase' : NodeId → String)
    (n : Node NodeId) : (s.verdict phrase n).Renamed ρ (s'.verdict phrase' (n.rename ρ)) := by
  cases n with
  | variableDeclaration name declared init =>
    simp only [Node.rename, Typing.verdict, h.local?_eq hρ]
    cases s.scopes.local? s.current name with
    | some x => exact ⟨rfl, rfl, rfl⟩
    | none =>
      refine ⟨rfl, ?_, rfl⟩
      cases init with
      | none => rfl
      | some value =>
        simp only [declarationVerdict, Option.map_none, Option.bind_some, h.type_eq]
        split <;> rfl
  | assignment name value =>
    simp only [Node.rename, Typing.verdict, h.lookup_eq hρ]
    cases s.lookup name with
    | none => exact ⟨rfl, rfl, rfl⟩
    | some x =>
      simp only [assignmentVerdict, Option.map_some, h.type_eq, Symbol.rename, Verdict.expected]
      split <;> exact ⟨rfl, rfl, rfl⟩
  | variableRef name =>
    simp only [Node.rename, Typing.verdict, h.lookup_eq hρ]
    cases s.lookup name <;> exact ⟨rfl, rfl, rfl⟩
  | ifStatement condition _ _ | whileStatement condition _ | printStatement condition =>
    simp only [Node.rename, Typing.verdict, h.type_eq, Verdict.expected]
    split <;> exact ⟨rfl, rfl, rfl⟩
  | _ =>
    simp only [Node.rename, Typing.verdict, h.type_eq]
    exact ⟨rfl, rfl, rfl⟩

theorem give (h : s.Renamed ρ s') (hρ : ρ.Injective) (i : NodeId) {v v' : Verdict}
    (hv : v.Renamed ρ v') : (s.give i v).Renamed ρ (s'.give i v') where
  scopes := by
    simp only [Typing.give, hv.binding, h.scopes, h.current]
    cases v.binding with
    | none => rfl
    | some x => exact define_rename hρ x.name x.type
  current := h.current
  types := by simp only [Typing.give, hv.type, h.types]
  report := by
    have hc := hv.complaint
    simp only [Typing.give]
    cases hv' : v'.complaint <;> cases hv₁ : v.complaint <;>
      simp_all [h.report, Diagnostic.finding, Diagnostic.of]

end Renamed

/-- The second pass goes through related states in a renamed tree. -/
theorem Judged.renamed (hρ : ρ.Injective) {phrase phrase' : NodeId → String} {ts ts' : List Tree}
    {s s₁ s' : Typing} (h : Judged phrase ts s s₁) (hts : List.Forall₂ (Tree.Renamed ρ) ts ts')
    (hs : s.Renamed ρ s') : ∃ s₁', Judged phrase' ts' s' s₁' ∧ s₁.Renamed ρ s₁' := by
  induction h generalizing ts' s' with
  | nil =>
    cases hts
    exact ⟨s', .nil, hs⟩
  | @skip s s₁ i n ts hk _ ih =>
    cases hts with
    | cons ht hts =>
      obtain ⟨s₁', hj, hm⟩ := ih hts hs
      cases ht
      exact ⟨s₁', .skip (by simpa using hk) hj, hm⟩
  | @cons s s₁ s₂ i n ts hk _ _ ihc iht =>
    cases hts with
    | cons ht hts =>
      obtain @⟨_, _, f, hf⟩ := ht
      obtain ⟨s₁', hj, hm⟩ :=
        ihc (Tree.Renamed.forall₂_children hf) (hs.inScope (n.innerScope s.current))
      have hgive := (hm.give hρ i (hm.verdict hρ phrase phrase' (n.map Tree.id))).inScope s.current
      obtain ⟨s₂', hj₂, hm₂⟩ := iht hts hgive
      rw [← hs.current, ← n.innerScope_rename, ← Node.innerScope_map f] at hj
      rw [← hs.current, ← Tree.Renamed.map_id_map hf] at hj₂
      exact ⟨s₂', .cons (by simpa using hk) hj hj₂, hm₂⟩

end Typing

def Mips.Cell.rename (ρ : String → String) (c : Cell) : Cell := .of c.scope (ρ c.name)

theorem Mips.Storage.find?_rename (hρ : ρ.Injective) {s s' : Storage}
    (h : s'.cells = s.cells.map (Cell.rename ρ)) (scope x : String) :
    s'.find? scope (ρ x) = (s.find? scope x).map (Cell.rename ρ) := by
  have hkey (c : Cell) : ((c.rename ρ).key == (scope, ρ x)) = (c.key == (scope, x)) := by
    rw [Bool.eq_iff_iff]
    simp [Cell.rename, Cell.key, Cell.of, hρ.eq_iff]
  rw [find?_eq, find?_eq, h, Array.find?_map]
  simp only [Function.comp_def, hkey]

theorem Mips.Storage.cells_allocate_rename (hρ : ρ.Injective) {s s' : Storage}
    (h : s'.cells = s.cells.map (Cell.rename ρ)) (scope x : String) :
    (s'.allocate scope (ρ x)).2.cells = (s.allocate scope x).2.cells.map (Cell.rename ρ) := by
  have hfind := find?_rename hρ h scope x
  cases hx : s.find? scope x with
  | some c =>
    rw [hx, Option.map_some] at hfind
    rw [allocate_of_find? s' scope _ hfind, allocate_of_find? s scope x hx, h]
  | none =>
    rw [hx, Option.map_none] at hfind
    rw [allocate_of_find?_none s' scope _ hfind, allocate_of_find?_none s scope x hx]
    simp [push, h, Cell.rename, Cell.of]

/-- What is given out for a renamed program: other cells, but the same labels and strings. -/
structure Places.Renamed (ρ : String → String) (p p' : Places) : Prop where
  pool : p'.pool = p.pool
  cells : p'.storage.cells = p.storage.cells.map (Cell.rename ρ)
  labels : p'.labels = p.labels

namespace Places.Renamed

variable {p p' : Places}

theorem takeLabel (h : p.Renamed ρ p') (base : String) :
    (p.takeLabel base).2.Renamed ρ (p'.takeLabel base).2 :=
  ⟨h.pool, h.cells, by simp only [Places.takeLabel, h.labels]⟩

theorem takeConcatLabels (h : p.Renamed ρ p') :
    p.takeConcatLabels.2.Renamed ρ p'.takeConcatLabels.2 :=
  ((((h.takeLabel _).takeLabel _).takeLabel _).takeLabel _).takeLabel _

theorem cell (h : p.Renamed ρ p') (hρ : ρ.Injective) (scopes : ScopeTree) (u : ScopeId)
    (x : String) : (p.cell scopes u x).2.Renamed ρ (p'.cell (scopes.rename ρ) u (ρ x)).2 := by
  rw [Places.cell, Places.cell, definingScope?_rename hρ]
  cases scopes.definingScope? u x with
  | none => exact h
  | some v =>
    refine ⟨h.pool, ?_, h.labels⟩
    simp only [takeCell, qualifiedName_rename]
    exact Storage.cells_allocate_rename hρ h.cells _ x

theorem compose (h : p.Renamed ρ p') (hρ : ρ.Injective) {r r' : Analysis}
    (hscopes : r'.scopes = r.scopes.rename ρ) (htypes : r'.types = r.types) (u : ScopeId)
    (part part' : NodeId → Fragment) (i : NodeId) (n : Node NodeId) :
    (compose r u part i p n).2.Renamed ρ (compose r' u part' i p' (n.rename ρ)).2 := by
  cases n with
  | variableDeclaration name | assignment name | variableRef name =>
    simp only [Node.rename, SpimCompiler.compose, hscopes]
    exact h.cell hρ r.scopes u name
  | ifStatement condition thenBlock elseBlock =>
    cases elseBlock with
    | none => exact h.takeLabel _
    | some => exact (h.takeLabel _).takeLabel _
  | whileStatement => exact (h.takeLabel _).takeLabel _
  | stringLiteral value =>
    have hlabel := h.takeLabel "string"
    refine ⟨?_, hlabel.cells, hlabel.labels⟩
    simp only [SpimCompiler.compose, Node.rename, Places.takeLabel, h.pool, h.labels]
  | addSub op lhs rhs =>
    simp only [SpimCompiler.compose, Node.rename, htypes]
    split
    · exact h.takeConcatLabels
    · exact h
  | unary op operand => cases op <;> exact h
  | _ => exact h

end Places.Renamed

theorem Coded.renamed (hρ : ρ.Injective) {r r' : Analysis} {part part' : NodeId → Fragment}
    {u : ScopeId} {ts ts' : List Tree} {p p' q q' : Places} (h : Coded r part u ts p q)
    (h' : Coded r' part' u ts' p' q') (hts : List.Forall₂ (Tree.Renamed ρ) ts ts')
    (hscopes : r'.scopes = r.scopes.rename ρ) (htypes : r'.types = r.types)
    (hp : p.Renamed ρ p') : q.Renamed ρ q' := by
  induction h generalizing ts' p' q' with
  | nil =>
    cases hts
    cases h'
    exact hp
  | @cons u i n ts p q p₁ q₁ _ hi _ ihc iht =>
    cases hts with
    | cons ht hts =>
      obtain @⟨_, _, f, hf⟩ := ht
      cases h' with
      | @cons _ _ _ _ _ q₂ p₂ _ hc' hi' hts' =>
        rw [Node.innerScope_map, Node.innerScope_rename] at hc' hi'
        have hq := ihc hc' (Tree.Renamed.forall₂_children hf) hp
        have hnode := hq.compose hρ hscopes htypes (n.innerScope u) part part' i (n.map Tree.id)
        rw [← Tree.Renamed.map_id_map hf, hi, hi'] at hnode
        exact iht hts' hts hnode

namespace Arena

variable {a : Arena} {root : NodeId} {functions : List Tree} {main : Tree}

theorem Holds.exists_judged (ht : a.Holds (.mk root (.program functions main)))
    (hv : a.validate = .ok root) :
    ∃ s : Typing, (a.analyze root).outcome.result = .ok s.analysis ∧
      Typing.Judged a.phraseOf [.mk root (.program functions main)]
        { scopes := forMain main
          report := (Tree.mk root (.program functions main)).rejections.toArray } s ∧
      (s.report = #[] → ∃ g, a.Compiles root functions main s g ∧
        (a.compile .asm).outcome.result = .ok (.ok (g.part root).text)) := by
  obtain ⟨ha, -⟩ := exists_program hv
  obtain ⟨_, run, hr, ⟨s, hs, rfl⟩, hacc⟩ := Pass.ends_iff.1 (ends_analyze ha ht ⟨(), #[]⟩)
  refine ⟨s, result_analyze hr, hs, fun he ↦ ?_⟩
  obtain ⟨_, _, hg, g, rfl, -⟩ := Pass.ends_iff.1 (ends_generate ha ht he (hacc he) run)
  have htext := result_asm_of_generate hv hr he hg
  obtain ⟨s₁, g, hc, heq⟩ := ht.exists_compiles hv htext
  rw [Tree.plain_iff_rejections.1 (hacc he).plain] at hs
  obtain rfl := hc.judged.unique hs
  exact ⟨g, hc, htext.trans (by rw [heq])⟩

/-- Renaming its variables does not change the verdict on a program, as long as different names stay
different. All nodes have the same types, and the same nodes are found wrong for the same reasons
and in the same order. If none is, both programs are compiled, with the same strings, and the cells
are those of the renamed variables in the same order. -/
theorem compile_rename (hv : a.validate = .ok root) (hρ : ρ.Injective) :
    (a.rename ρ).validate = .ok root ∧
    ∃ r r' : Analysis, (a.analyze root).outcome.result = .ok r ∧
      ((a.rename ρ).analyze root).outcome.result = .ok r' ∧
      r'.types = r.types ∧
      r'.report.map Diagnostic.finding = r.report.map Diagnostic.finding ∧
      (r.report = #[] → ∃ text text' assembly assembly',
        (a.compile .asm).outcome.result = .ok (.ok text) ∧
        ((a.rename ρ).compile .asm).outcome.result = .ok (.ok text') ∧
        (a.analyze root >>= a.generate root).outcome.result = .ok (.ok assembly) ∧
        ((a.rename ρ).analyze root >>= (a.rename ρ).generate root).outcome.result =
          .ok (.ok assembly') ∧
        assembly'.pool = assembly.pool ∧
        assembly'.cells = assembly.cells.map fun c ↦ Cell.of c.scope (ρ c.name)) := by
  have hv' : (a.rename ρ).validate = .ok root := a.validate_rename.trans hv
  obtain ⟨-, functions, main, ht⟩ := exists_program hv
  obtain ⟨_, ht', hrenamed⟩ := ht.exists_renamed (ρ := ρ)
  obtain @⟨_, _, f, hf⟩ := hrenamed
  obtain ⟨s, hr, hs, hcompiled⟩ := ht.exists_judged hv
  obtain ⟨s', hr', hs', hcompiled'⟩ := ht'.exists_judged hv'
  have hscopes : forMain (f main) = (forMain main).rename ρ := by
    rw [rename_forMain, forMain, forMain, (hf main (by simp [Node.children])).kind_eq]
  have hrejections : (Tree.mk root (.program (functions.map f) (f main))).rejections =
      (Tree.mk root (.program functions main)).rejections := (Tree.Renamed.mk hf).rejections_eq
  have hstart : Typing.Renamed ρ
      { scopes := forMain main
        report := (Tree.mk root (.program functions main)).rejections.toArray }
      { scopes := forMain (f main)
        report := (Tree.mk root (.program (functions.map f) (f main))).rejections.toArray } :=
    ⟨hscopes, rfl, rfl, by rw [hrejections]⟩
  obtain ⟨s₁, hj, hm⟩ := hs.renamed hρ (.cons (.mk hf) .nil) hstart
  obtain rfl := hs'.unique hj
  have hempty : s.report = #[] → s'.report = #[] := by
    intro he
    simpa [he] using hm.report
  refine ⟨hv', s.analysis, s'.analysis, hr, hr', hm.types, hm.report, fun he ↦ ?_⟩
  obtain ⟨g, hc, htext⟩ := hcompiled he
  obtain ⟨g', hc', htext'⟩ := hcompiled' (hempty he)
  have hplaces := hc.generated.coded.renamed hρ hc'.generated.coded (.cons (.mk hf) .nil)
    hm.scopes hm.types ⟨rfl, Array.map_empty.symm, rfl⟩
  exact ⟨_, _, g.assembly root, g'.assembly root, htext, htext', hc.result_generate,
    hc'.result_generate, hplaces.pool, hplaces.cells⟩

end Arena

namespace shadowed

theorem report_eq :
    (shadowed.analyze ⟨7⟩).outcome.result.toOption.map (·.report) = some #[] := by
  decide +kernel

theorem compile_rename_at :
    shadowed.validate = .ok ⟨7⟩ ∧ Function.Injective (Equiv.swap "x" "y") ∧
    (shadowed.rename (Equiv.swap "x" "y")).get? ⟨1⟩ = some (.variableRef "y") ∧
    ∃ text text' assembly assembly', (shadowed.compile .asm).outcome.result = .ok (.ok text) ∧
      ((shadowed.rename (Equiv.swap "x" "y")).compile .asm).outcome.result = .ok (.ok text') ∧
      (shadowed.analyze ⟨7⟩ >>= shadowed.generate ⟨7⟩).outcome.result = .ok (.ok assembly) ∧
      ((shadowed.rename (Equiv.swap "x" "y")).analyze ⟨7⟩ >>=
        (shadowed.rename (Equiv.swap "x" "y")).generate ⟨7⟩).outcome.result =
          .ok (.ok assembly') ∧
      assembly'.pool = assembly.pool ∧
      assembly'.cells =
        assembly.cells.map fun c ↦ Cell.of c.scope (Equiv.swap "x" "y" c.name) := by
  have hρ : Function.Injective (Equiv.swap "x" "y") := (Equiv.swap "x" "y").injective
  obtain ⟨-, r, -, hr, -, -, -, hcompiled⟩ := Arena.compile_rename validate_eq hρ
  have hreport : r.report = #[] := by
    have h := report_eq
    rw [hr] at h
    exact Option.some.inj h
  exact ⟨validate_eq, hρ, by decide +kernel, hcompiled hreport⟩

end shadowed

end SpimCompiler
