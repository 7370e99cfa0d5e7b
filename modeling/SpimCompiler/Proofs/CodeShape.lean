import SpimCompiler.Proofs.MintedLabels

namespace SpimCompiler

open Mips ScopeTree

def Node.variableName? {ι : Type} : Node ι → Option String
  | .variableDeclaration name _ _ | .assignment name _ | .variableRef name => some name
  | _ => none

@[simp]
theorem Node.variableName?_map {ι κ : Type} (f : ι → κ) (n : Node ι) :
    (n.map f).variableName? = n.variableName? := by
  cases n <;> rfl

def isIdentifier (x : String) : Bool := x.toList.all isNameChar

namespace Mips

theorem Cell.labelFor_main (x : String) : Cell.labelFor "main" x = "var_main_" ++ x := by
  have h : "var_" ++ "main" ++ "_" = "var_main_" := by decide
  rw [Cell.labelFor, if_neg (by decide), h]

theorem Cell.labelFor_main_injective : Function.Injective (Cell.labelFor "main") := by
  intro x y h
  simpa [labelFor_main] using h

/-- The cells are those of distinct variables, all of which have a property. -/
structure Storage.Serves (P : String → String → Prop) (s : Storage) : Prop where
  cell : ∀ c ∈ s.cells.toList, c = Cell.of c.scope c.name ∧ P c.scope c.name
  nodup : (s.cells.toList.map fun c ↦ (c.scope, c.name)).Nodup

namespace Storage

variable {P : String → String → Prop} {s : Storage} {scope x : String}

theorem Serves.allocate (h : s.Serves P) (hx : P scope x) :
    (s.allocate scope x).1 = Cell.labelFor scope x ∧ (s.allocate scope x).2.Serves P ∧
      Cell.of scope x ∈ (s.allocate scope x).2.cells.toList := by
  have hfind := s.find?_eq scope x
  cases hf : s.find? scope x with
  | some c =>
    rw [hf] at hfind
    have hmem : c ∈ s.cells.toList :=
      Array.mem_toList_iff.2 (Array.mem_of_find?_eq_some hfind.symm)
    obtain ⟨rfl, rfl⟩ : c.scope = scope ∧ c.name = x := by
      simpa [Cell.key] using Array.find?_some hfind.symm
    have hc := (h.cell c hmem).1
    rw [allocate_of_find? s _ _ hf]
    exact ⟨congrArg Cell.label hc, h, hc ▸ hmem⟩
  | none =>
    have hnone : (scope, x) ∉ s.cells.toList.map fun c ↦ (c.scope, c.name) := by
      intro hmem
      obtain ⟨c, hc, he⟩ := List.mem_map.1 hmem
      have hne := Array.find?_eq_none.1 (hfind.symm.trans hf) c (Array.mem_toList_iff.1 hc)
      exact hne (beq_iff_eq.2 he)
    rw [allocate_of_find?_none s scope x hf]
    refine ⟨rfl, ⟨fun c hc ↦ ?_, ?_⟩, by simp⟩
    · rw [toList_cells_push, List.mem_append, List.mem_singleton] at hc
      rcases hc with hc | rfl
      · exact h.cell c hc
      · exact ⟨rfl, hx⟩
    · rw [toList_cells_push, List.map_append, List.nodup_append]
      refine ⟨h.nodup, List.nodup_singleton _, fun y hy z hz ↦ ?_⟩
      obtain rfl : z = (scope, x) := List.mem_singleton.1 hz
      exact fun he ↦ hnone (he ▸ hy)

theorem mem_cells_allocate {c : Cell} (h : c ∈ s.cells.toList) (scope x : String) :
    c ∈ (s.allocate scope x).2.cells.toList := by
  unfold allocate
  split
  · exact h
  · rw [toList_cells_push]
    exact List.mem_append_left _ h

def Tidy (s : Storage) : Prop := s.Serves fun scope x ↦ scope = "main" ∧ isIdentifier x

theorem Tidy.cell (h : s.Tidy) {c : Cell} (hc : c ∈ s.cells.toList) :
    c = Cell.of "main" c.name ∧ isIdentifier c.name := by
  obtain ⟨hcell, hscope, hname⟩ := Serves.cell h c hc
  exact ⟨hscope ▸ hcell, hname⟩

theorem Tidy.nodup (h : s.Tidy) : (s.cells.toList.map Cell.name).Nodup := by
  have hpairs : (s.cells.toList.map fun c ↦ (c.scope, c.name)) =
      (s.cells.toList.map Cell.name).map ("main", ·) := by
    rw [List.map_map]
    exact List.map_congr_left fun c hc ↦ congrArg (·, c.name) (Serves.cell h c hc).2.1
  exact (hpairs ▸ Serves.nodup h).of_map _

end Storage

end Mips

structure Visible (scopes : ScopeTree) (x : String) : Prop where
  identifier : isIdentifier x
  scope : scopes.definingScope? mainScope x = some mainScope

structure Node.Inner (scopes : ScopeTree) (n : Node Tree) : Prop where
  program : n.kind ≠ .program
  block : n.kind ≠ .executableBlock
  string : n.kind ≠ .stringLiteral
  visible : ∀ x ∈ n.variableName?, Visible scopes x

variable {r : Analysis} {part : NodeId → Fragment} {i : NodeId} {p q : Places} {n : Node Tree}

theorem Places.cell_main (hq : r.scopes.qualifiedName mainScope = "main") {x : String}
    (hx : Visible r.scopes x) : p.cell r.scopes mainScope x = ((p.storage.allocate "main" x).1,
      { p with storage := (p.storage.allocate "main" x).2 }) := by
  simp [cell, takeCell, hx.scope, hq]

theorem storage_compose (r : Analysis) (u : ScopeId) (part : NodeId → Fragment) (i : NodeId)
    (p : Places) (n : Node NodeId) :
    (compose r u part i p n).2.storage =
      n.variableName?.elim p.storage fun x ↦ (p.cell r.scopes u x).2.storage := by
  cases n with
  | ifStatement condition thenBlock elseBlock => cases elseBlock <;> rfl
  | unary op operand => cases op <;> rfl
  | addSub op lhs rhs =>
    rw [compose]
    split <;> rfl
  | _ => rfl

theorem pool_compose (r : Analysis) (u : ScopeId) (part : NodeId → Fragment) (i : NodeId)
    (p : Places) {n : Node NodeId} (hn : n.kind ≠ .stringLiteral) :
    (compose r u part i p n).2.pool = p.pool := by
  have hcell (x : String) : (p.cell r.scopes u x).2.pool = p.pool := by
    unfold Places.cell Places.takeCell
    split <;> rfl
  cases n with
  | stringLiteral => simp [Node.kind] at hn
  | ifStatement condition thenBlock elseBlock => cases elseBlock <;> rfl
  | unary op operand => cases op <;> rfl
  | addSub op lhs rhs =>
    rw [compose]
    split <;> rfl
  | variableDeclaration name | assignment name | variableRef name => exact hcell name
  | _ => rfl

namespace Mips.Fragment

def Clean (f : Fragment) : Prop := ∀ l ∈ f, l.isCode ∧ l.Readable

@[simp]
theorem clean_nil : Clean [] := by simp [Clean]

@[simp]
theorem clean_append {f g : Fragment} : Clean (f ++ g) ↔ Clean f ∧ Clean g :=
  List.forall_mem_append

@[simp]
theorem clean_instr {j : Instr} {f : Fragment} : Clean (.instr j :: f) ↔ j.Readable ∧ Clean f := by
  simp [Clean, Line.isCode, Line.Readable]

@[simp]
theorem clean_label {name : String} {f : Fragment} :
    Clean (.label name :: f) ↔ isName name ∧ Clean f := by
  simp [Clean, Line.isCode, Line.Readable]

theorem clean_flatMap {α : Type} {l : List α} {part : α → Fragment} (h : ∀ c ∈ l, Clean (part c)) :
    Clean (l.flatMap part) := by
  intro line hline
  obtain ⟨c, hc, hline⟩ := List.mem_flatMap.1 hline
  exact h c hc line hline

theorem clean_operands {l r : Fragment} (hl : Clean l) (hr : Clean r) :
    Clean (Template.operands l r) := by
  simp [Template.operands, hl, hr, Instr.Readable, Address.Readable]

theorem clean_binary {mnemonic : String} (hm : mnemonic ∈ operations) {l r : Fragment}
    (hl : Clean l) (hr : Clean r) : Clean (Template.binary mnemonic l r) := by
  simp [Template.binary, clean_operands hl hr, Instr.Readable, hm]

end Mips.Fragment

open Mips.Fragment

theorem isName_labelFor {x : String} (h : isIdentifier x) : isName (Cell.labelFor "main" x) := by
  rw [Cell.labelFor_main]
  exact isName_append (by decide) h

theorem isName_takeLabel (p : Places) (base : String) (hb : base ∈ labelBases) :
    isName (p.takeLabel base).1 :=
  isName_numbered hb p.labels.next

theorem clean_compose (r : Analysis) (u : ScopeId) (part : NodeId → Fragment) (i : NodeId)
    {n : Node NodeId} (hn : n.kind ≠ .program)
    (hcell : ∀ x ∈ n.variableName?, isName (p.cell r.scopes u x).1)
    (hc : ∀ c ∈ n.children, Clean (part c)) : Clean (compose r u part i p n).1 := by
  cases n with
  | program => exact absurd rfl hn
  | executableBlock | variableBlock | statementBlock => exact clean_flatMap hc
  | stringLiteral =>
    have hlabel := isName_takeLabel p "string" (by decide)
    simp [compose, Template.loadAddress, Instr.Readable, hlabel]
  | variableDeclaration name type init =>
    cases init with
    | none => exact clean_nil
    | some value =>
      simp only [Node.children, Option.toList_some, List.mem_singleton, forall_eq] at hc
      simp [compose, Template.storeVariable, hc, Instr.Readable, Address.Readable, hcell name rfl]
  | assignment name value =>
    simp only [Node.children, List.mem_singleton, forall_eq] at hc
    simp [compose, Template.storeVariable, hc, Instr.Readable, Address.Readable, hcell name rfl]
  | variableRef name =>
    simp [compose, Template.loadVariable, Instr.Readable, Address.Readable, hcell name rfl]
  | ifStatement condition thenBlock elseBlock =>
    cases elseBlock with
    | none =>
      simp only [Node.children, Option.toList_none, List.mem_cons, List.not_mem_nil, or_false,
        forall_eq_or_imp, forall_eq] at hc
      have hend := isName_takeLabel p "endif" (by decide)
      simp [compose, Template.ifThen, hc, Instr.Readable, hend]
    | some elseBlock =>
      simp only [Node.children, Option.toList_some, List.mem_cons, List.not_mem_nil, or_false,
        forall_eq_or_imp, forall_eq] at hc
      have helse := isName_takeLabel p "else" (by decide)
      have hend := isName_takeLabel (p.takeLabel "else").2 "endif" (by decide)
      simp [compose, Template.ifElse, hc, Instr.Readable, helse, hend]
  | whileStatement condition body =>
    simp only [Node.children, List.mem_cons, List.not_mem_nil, or_false, forall_eq_or_imp,
      forall_eq] at hc
    have hstart := isName_takeLabel p "loop_start" (by decide)
    have hend := isName_takeLabel (p.takeLabel "loop_start").2 "loop_end" (by decide)
    simp [compose, Template.whileLoop, hc, Instr.Readable, hstart, hend]
  | printStatement value =>
    have hv := hc value (by simp [Node.children])
    have htrue : isName "bool_true" := by decide
    have hfalse : isName "bool_false" := by decide
    simp only [compose]
    cases (r.types.get? value).getD .error <;>
      simp [printing, Template.printBool, Template.printBy, Template.call, hv, Instr.Readable,
        htrue, hfalse]
  | intLiteral | boolLiteral => simp [compose, Template.loadImmediate, Instr.Readable]
  | parenthesized e => exact hc e (by simp [Node.children])
  | unary op e =>
    have he := hc e (by simp [Node.children])
    cases op <;> simp [compose, Template.unaryMinus, Template.logicalNot, he, Instr.Readable,
      operations]
  | mulDiv op lhs rhs =>
    have hm : op.mnemonic ∈ operations := by cases op <;> decide
    exact clean_binary hm (hc lhs (by simp [Node.children])) (hc rhs (by simp [Node.children]))
  | compare op lhs rhs =>
    have hm : op.mnemonic ∈ operations := by cases op <;> decide
    exact clean_binary hm (hc lhs (by simp [Node.children])) (hc rhs (by simp [Node.children]))
  | addSub op lhs rhs =>
    have hl := hc lhs (by simp [Node.children])
    have hr := hc rhs (by simp [Node.children])
    have hm : op.mnemonic ∈ operations := by cases op <;> decide
    simp only [compose]
    split
    · simp (disch := decide) [Template.concatStrings, clean_operands hl hr, Instr.Readable,
        Address.Readable, Template.measure, Template.call, Places.takeConcatLabels,
        isName_takeLabel]
    · exact clean_binary hm hl hr
  | functionDefinition | functionCall | returnStatement => exact clean_nil

theorem readable_program {cells strings code : Fragment} (hcells : ∀ l ∈ cells, l.Readable)
    (hstrings : ∀ l ∈ strings, l.Readable) (hcode : Clean code) :
    ∀ l ∈ Template.program cells strings code, l.Readable := by
  have hfixed : ∀ x ∈ ["bool_true", "bool_false", "main"], isName x := by decide
  simp only [List.mem_cons, List.not_mem_nil, or_false, forall_eq_or_imp, forall_eq] at hfixed
  intro l hl
  simp only [Template.program, Template.call, List.mem_append, List.mem_cons, List.not_mem_nil,
    or_false] at hl
  rcases hl with ((((((rfl | rfl | rfl) | hl) | hl) | (rfl | rfl)) | hl) | (rfl | rfl)) | rfl
  · exact .inl rfl
  · exact ⟨hfixed.1, by decide⟩
  · exact ⟨hfixed.2.1, by decide⟩
  · exact hcells l hl
  · exact hstrings l hl
  · exact .inr rfl
  · exact hfixed.2.2
  · exact (hcode l hl).2
  · trivial
  · trivial
  · rfl

/-- The code of every node of the tree is composed of that of its children, in the scope of the main
block. -/
inductive Composed (r : Analysis) (part : NodeId → Fragment) : Tree → Prop
  | mk {i : NodeId} {n : Node Tree} {p : Places} : n.Inner r.scopes → p.storage.Tidy →
      (compose r mainScope part i p (n.map Tree.id)).1 = part i →
      (∀ c ∈ n.children, Composed r part c) → Composed r part (.mk i n)

def Places.vars (p : Places) : List String := p.storage.cells.toList.map Cell.name

theorem tidy_compose (hq : r.scopes.qualifiedName mainScope = "main") (hn : n.Inner r.scopes)
    (hp : p.storage.Tidy) (hi : (compose r mainScope part i p (n.map Tree.id)).2 = q) :
    q.storage.Tidy ∧ p.vars ⊆ q.vars ∧ ∀ x ∈ n.variableName?, x ∈ q.vars := by
  have hstorage := storage_compose r mainScope part i p (n.map Tree.id)
  rw [hi, Node.variableName?_map] at hstorage
  cases hv : n.variableName? with
  | none =>
    have hstorage : q.storage = p.storage := by simpa [hv] using hstorage
    simp [Places.vars, hstorage, hp]
  | some x =>
    have hx := hn.visible x hv
    have hstorage : q.storage = (p.storage.allocate "main" x).2 := by
      simpa [hv, Places.cell_main hq hx] using hstorage
    obtain ⟨-, htidy, hmem⟩ := Storage.Serves.allocate hp ⟨rfl, hx.identifier⟩
    rw [Places.vars, Places.vars, hstorage]
    refine ⟨htidy, fun y hy ↦ ?_, fun y hy ↦ ?_⟩
    · obtain ⟨c, hc, rfl⟩ := List.mem_map.1 hy
      exact List.mem_map_of_mem (Storage.mem_cells_allocate hc "main" x)
    · obtain rfl := Option.mem_some.1 hy
      exact List.mem_map_of_mem (f := Cell.name) hmem

theorem Coded.composed {ts : List Tree} (h : Coded r part mainScope ts p q)
    (hq : r.scopes.qualifiedName mainScope = "main") (ht : ∀ t ∈ ts, t.Every (Node.Inner r.scopes))
    (hp : p.storage.Tidy) :
    q.storage.Tidy ∧ q.pool = p.pool ∧ p.vars ⊆ q.vars ∧
      ∀ t ∈ ts, Composed r part t ∧ Clean (part t.id) ∧
        t.Every fun n ↦ ∀ x ∈ n.variableName?, x ∈ q.vars := by
  generalize hu : mainScope = u at h
  induction h with
  | nil => exact ⟨hp, rfl, fun _ hx ↦ hx, by simp⟩
  | @cons u i n ts p q p' q' _ hi _ ihc iht =>
    subst hu
    simp only [List.mem_cons, forall_eq_or_imp] at ht
    obtain ⟨hn, htc⟩ := ht.1
    have hscope : n.innerScope mainScope = mainScope := if_neg hn.block
    rw [hscope] at ihc hi
    obtain ⟨hqt, hqpool, hqvars, hcs⟩ := ihc htc hp rfl
    obtain ⟨hpt, hpvars, hvar⟩ := tidy_compose hq hn hqt (congrArg Prod.snd hi)
    have hppool : p'.pool = q.pool := by
      have hpool := pool_compose r mainScope part i q (n := n.map Tree.id)
        (by simpa using hn.string)
      rwa [hi] at hpool
    obtain ⟨hqt', hqpool', hqvars', hts⟩ := iht ht.2 hpt rfl
    have hcode : (compose r mainScope part i q (n.map Tree.id)).1 = part i := congrArg Prod.fst hi
    have hcell : ∀ x ∈ (n.map Tree.id).variableName?,
        isName (q.cell r.scopes mainScope x).1 := by
      intro x hx
      have hv := hn.visible x (by simpa using hx)
      rw [Places.cell_main hq hv, (Storage.Serves.allocate hqt ⟨rfl, hv.identifier⟩).1]
      exact isName_labelFor hv.identifier
    have hclean := clean_compose r mainScope part i (by simpa using hn.program) hcell
      fun c hc ↦ by
        rw [Node.children_map] at hc
        obtain ⟨t, ht, rfl⟩ := List.mem_map.1 hc
        exact (hcs t ht).2.1
    refine ⟨hqt', hqpool'.trans (hppool.trans hqpool), fun x hx ↦ hqvars' (hpvars (hqvars hx)), ?_⟩
    simp only [List.mem_cons, forall_eq_or_imp]
    refine ⟨⟨.mk hn hqt hcode fun c hc ↦ (hcs c hc).1, hcode ▸ hclean, .mk ?_ fun c hc ↦ ?_⟩, hts⟩
    · exact fun x hx ↦ hqvars' (hvar x hx)
    · exact (hcs c hc).2.2.mono fun m hm x hx ↦ hqvars' (hpvars (hm x hx))

end SpimCompiler
