import SpimCompiler.Proofs.StorageLabels

namespace SpimCompiler

open Mips ScopeTree

namespace Mips

def Line.targets : Line → List String
  | .instr (.beqz _ target) | .instr (.bnez _ target) | .instr (.j target) => [target]
  | _ => []

namespace Fragment

variable {f g : Fragment}

def targets (f : Fragment) : List String := f.flatMap Line.targets

@[simp]
theorem targets_nil : targets [] = [] := rfl

@[simp]
theorem targets_cons (l : Line) (f : Fragment) : targets (l :: f) = l.targets ++ targets f := rfl

@[simp]
theorem targets_append (f g : Fragment) : targets (f ++ g) = targets f ++ targets g :=
  List.flatMap_append

/-- Every jump in the fragment goes to a label in it. -/
def Closed (f : Fragment) : Prop := ∀ l ∈ f.targets, Line.label l ∈ f

theorem closed_nil : Closed [] := by simp [Closed]

theorem Closed.append (hf : f.Closed) (hg : g.Closed) : Closed (f ++ g) := by
  intro l hl
  rw [targets_append, List.mem_append] at hl
  rcases hl with hl | hl
  · exact List.mem_append_left g (hf l hl)
  · exact List.mem_append_right f (hg l hl)

theorem closed_flatMap {α : Type} {cs : List α} {part : α → Fragment}
    (h : ∀ c ∈ cs, Closed (part c)) : Closed (cs.flatMap part) := by
  induction cs with
  | nil => exact closed_nil
  | cons c cs ih =>
    simp only [List.mem_cons, forall_eq_or_imp] at h
    exact h.1.append (ih h.2)

theorem closed_operands (hf : f.Closed) (hg : g.Closed) : Closed (Template.operands f g) := by
  intro l hl
  simp only [Template.operands, targets_append, targets_cons, targets_nil, Line.targets,
    List.mem_append, List.not_mem_nil, or_false] at hl ⊢
  rcases hl with hl | hl
  · simp [hf l hl]
  · simp [hg l hl]

theorem closed_ifThen (hf : f.Closed) (hg : g.Closed) (target : String) :
    Closed (Template.ifThen f g target) := by
  intro l hl
  simp [Template.ifThen, Line.targets] at hl ⊢
  rcases hl with hl | rfl | hl
  · simp [hf l hl]
  · simp
  · simp [hg l hl]

theorem closed_ifElse {h : Fragment} (hf : f.Closed) (hg : g.Closed) (hh : h.Closed)
    (elseTarget target : String) : Closed (Template.ifElse f g h elseTarget target) := by
  intro l hl
  simp [Template.ifElse, Line.targets] at hl ⊢
  rcases hl with hl | rfl | hl | rfl | hl
  · simp [hf l hl]
  · simp
  · simp [hg l hl]
  · simp
  · simp [hh l hl]

theorem closed_whileLoop (hf : f.Closed) (hg : g.Closed) (start target : String) :
    Closed (Template.whileLoop f g start target) := by
  intro l hl
  simp [Template.whileLoop, Line.targets] at hl ⊢
  rcases hl with hl | rfl | hl | rfl
  · simp [hf l hl]
  · simp
  · simp [hg l hl]
  · simp

theorem closed_concatStrings (hf : f.Closed) (hg : g.Closed) (labels : ConcatLabels) :
    Closed (Template.concatStrings f g labels) := by
  have hown : Closed ((Template.concatStrings f g labels).drop (Template.operands f g).length) := by
    simp [Template.concatStrings, Template.measure, Template.call, Closed, Line.targets]
  have h := (closed_operands hf hg).append hown
  simpa [Template.concatStrings] using h

theorem closed_program {cells strings : Fragment} (hcells : cells.targets = [])
    (hstrings : strings.targets = []) (hf : f.Closed) :
    Closed (Template.program cells strings f) := by
  intro l hl
  simp [Template.program, Template.call, Line.targets, hcells, hstrings] at hl ⊢
  simp [hf l hl]

end Fragment

end Mips

open Mips.Fragment

theorem closed_compose (r : Analysis) (u : ScopeId) (part : NodeId → Fragment) (i : NodeId)
    (p : Places) {n : Node NodeId} (hc : ∀ c ∈ n.children, Closed (part c)) :
    Closed (compose r u part i p n).1 := by
  cases n with
  | executableBlock | variableBlock | statementBlock => exact closed_flatMap hc
  | program functions main =>
    refine closed_program ?_ ?_ (hc main (by simp [Node.children])) <;>
      simp [targets, List.flatMap_map, Line.targets]
  | variableDeclaration name type init =>
    cases init with
    | none => exact closed_nil
    | some value => exact (hc value (by simp [Node.children])).append (by simp [Closed, Line.targets])
  | assignment name value =>
    exact (hc value (by simp [Node.children])).append (by simp [Closed, Line.targets])
  | ifStatement condition thenBlock elseBlock =>
    have hcond := hc condition (by simp [Node.children])
    have hthen := hc thenBlock (by simp [Node.children])
    cases elseBlock with
    | none => exact closed_ifThen hcond hthen _
    | some elseBlock => exact closed_ifElse hcond hthen (hc elseBlock (by simp [Node.children])) _ _
  | whileStatement condition body =>
    exact closed_whileLoop (hc condition (by simp [Node.children]))
      (hc body (by simp [Node.children])) _ _
  | printStatement value =>
    have hv := hc value (by simp [Node.children])
    simp only [compose]
    cases (r.types.get? value).getD .error <;>
      exact (hv.append (by simp [Closed, Line.targets])).append
        (by simp [Closed, Line.targets, Template.call])
  | parenthesized e => exact hc e (by simp [Node.children])
  | unary op e =>
    have he := hc e (by simp [Node.children])
    cases op <;> exact he.append (by simp [Closed, Line.targets])
  | mulDiv op lhs rhs | compare op lhs rhs =>
    have hl := hc lhs (by simp [Node.children])
    have hr := hc rhs (by simp [Node.children])
    exact (closed_operands hl hr).append (by simp [Closed, Line.targets])
  | addSub op lhs rhs =>
    have hl := hc lhs (by simp [Node.children])
    have hr := hc rhs (by simp [Node.children])
    simp only [compose]
    split
    · exact closed_concatStrings hl hr _
    · exact (closed_operands hl hr).append (by simp [Closed, Line.targets])
  | intLiteral | boolLiteral | stringLiteral | variableRef =>
    simp [compose, Template.loadImmediate, Template.loadAddress, Template.loadVariable, Closed,
      Line.targets]
  | functionDefinition | functionCall | returnStatement => exact closed_nil

section trees

variable {r : Analysis} {part : NodeId → Fragment} {u v : ScopeId} {ts : List Tree} {t t' : Tree}
  {p q : Places}

theorem Coded.closed (h : Coded r part u ts p q) : ∀ t ∈ ts, Closed (part t.id) := by
  induction h with
  | nil => simp
  | @cons u i n ts p q p' q' _ hi _ ihc iht =>
    have hnode := closed_compose r (n.innerScope u) part i q (n := n.map Tree.id) (by
      simpa [Node.children_map] using ihc)
    rw [hi] at hnode
    simpa using ⟨hnode, iht⟩

theorem Places.Leads.next_le (h : p.Leads r part q) : p.labels.next ≤ q.labels.next := by
  induction h with
  | refl => exact Nat.le_refl _
  | @node q _ u i n _ hn ih =>
    rw [← hn, next_compose]
    omega

theorem Tree.Every.occurs {P : Node Tree → Prop} (h : t'.Every P) (ho : t.Occurs v u t') :
    t.Every P := by
  induction ho with
  | here => exact h
  | inside hc _ ih =>
    obtain ⟨-, hcs⟩ := h
    exact ih (hcs _ hc)

theorem Coded.minted (h : Coded r part u ts p q)
    (hk : ∀ t ∈ ts, t.Every fun n ↦ n.kind ≠ .program) (ht : t' ∈ ts) (ho : t.Occurs v u t') :
    ∀ x ∈ Fragment.labels (part t.id), Minted p.labels.next q.labels.next x := by
  obtain ⟨p₁, q₁, hp, hcode, hq⟩ := h.mem ht
  obtain ⟨p₂, q₂, hp', hcode, hq'⟩ := hcode.occurs ho
  obtain ⟨-, -, hminted⟩ := hcode.labels (by simpa using (hk t' ht).occurs ho)
  intro x hx
  have hp := (hp.trans hp').next_le
  have hq := (hq'.trans hq).next_le
  exact (hminted x (by simpa using hx)).mono hp hq

/-- The code of trees that occur beside each other has no label in common. -/
theorem Coded.disjoint_labels (h : Coded r part u ts p q)
    (hk : ∀ t ∈ ts, t.Every fun n ↦ n.kind ≠ .program) {t₁ t₂ c₁ c₂ : Tree} {v₁ v₂ : ScopeId}
    (hc₁ : c₁ ∈ ts) (h₁ : t₁.Occurs v₁ u c₁) (hc₂ : c₂ ∈ ts) (h₂ : t₂.Occurs v₂ u c₂)
    (hne₁ : t₂.id ∉ t₁.ids) (hne₂ : t₁.id ∉ t₂.ids) :
    (Fragment.labels (part t₁.id)).Disjoint (Fragment.labels (part t₂.id)) := by
  induction h generalizing c₁ c₂ v₁ v₂ with
  | nil => cases hc₁
  | @cons u i n ts p q p' q' hc hi hts ihc iht =>
    have hnode : Coded r part u [.mk i n] p p' := .cons hc hi .nil
    have hkn : ∀ t ∈ [Tree.mk i n], t.Every fun n ↦ n.kind ≠ .program := by
      simpa using hk _ List.mem_cons_self
    have hkt : ∀ t ∈ ts, t.Every fun n ↦ n.kind ≠ .program :=
      fun t ht ↦ hk t (List.mem_cons_of_mem _ ht)
    rcases List.mem_cons.1 hc₁ with rfl | hc₁ <;> rcases List.mem_cons.1 hc₂ with rfl | hc₂
    · cases h₁ with
      | here => exact absurd h₂.mem_ids hne₁
      | inside hm₁ h₁ =>
        cases h₂ with
        | here => exact absurd (Tree.Occurs.inside hm₁ h₁).mem_ids hne₂
        | inside hm₂ h₂ =>
          obtain ⟨-, hkc⟩ := hkn _ (List.mem_singleton_self _)
          exact ihc hkc hm₁ h₁ hm₂ h₂
    · intro x hx₁ hx₂
      exact (hnode.minted hkn (List.mem_singleton_self _) h₁ x hx₁).ne
        (hts.minted hkt hc₂ h₂ x hx₂) rfl
    · intro x hx₁ hx₂
      exact (hnode.minted hkn (List.mem_singleton_self _) h₂ x hx₂).ne
        (hts.minted hkt hc₁ h₁ x hx₁) rfl
    · exact iht hkt hc₁ h₁ hc₂ h₂

end trees

def Node.stringValue? {ι : Type} : Node ι → Option String
  | .stringLiteral value => some value
  | _ => none

/-- The name of a variable can be part of a label, and the value of a string stands on one line. -/
def Node.Legible {ι : Type} (n : Node ι) : Prop :=
  (∀ x ∈ n.variableName?, isIdentifier x) ∧ ∀ value ∈ n.stringValue?, '\n' ∉ value.toList

instance {ι : Type} : DecidablePred (Node.Legible (ι := ι)) :=
  fun _ ↦ inferInstanceAs (Decidable (_ ∧ _))

@[simp]
theorem Node.legible_map {ι κ : Type} (f : ι → κ) (n : Node ι) :
    (n.map f).Legible ↔ n.Legible := by
  have h : (n.map f).stringValue? = n.stringValue? := by cases n <;> rfl
  simp [Legible, h]

theorem Arena.Holds.every {a : Arena} {root : NodeId} {P : Node NodeId → Prop}
    (hP : ∀ i n, a.Reaches root i → a.get? i = some n → P n) {t : Tree} (ht : a.Holds t)
    (hr : a.Reaches root t.id) : t.Every fun n ↦ P (n.map Tree.id) := by
  induction t with
  | mk i n ih =>
    refine .mk (hP i _ hr ht.get?) fun c hc ↦ ih c hc (ht.child hc) (hr.child ht.get? ?_)
    rw [Tree.node_mk, Node.children_map]
    exact List.mem_map_of_mem hc

theorem Node.Ready.isSome {scopes : ScopeTree} {types : TypeTable} {u : ScopeId} {i : NodeId}
    {n : Node NodeId} (h : n.Ready scopes u types i) {x : String} (hx : n.variableName? = some x) :
    (scopes.definingScope? u x).isSome := by
  cases n with
  | variableDeclaration | assignment | variableRef =>
    obtain rfl := Option.some.inj hx
    exact h
  | _ => cases hx

theorem Mips.isName_labelFor_of {scope x : String} (hs : scope = "" ∨ scope = "main")
    (hx : isIdentifier x) : isName (Cell.labelFor scope x) := by
  rcases hs with rfl | rfl
  · rw [Cell.labelFor_global]
    exact isName_append (by decide) hx
  · exact isName_labelFor hx

section trees

variable {r : Analysis} {part : NodeId → Fragment} {u v : ScopeId} {ts : List Tree} {t t' : Tree}
  {p q : Places}

theorem Coded.clean (h : Coded r part u ts p q)
    (hb : ∀ scope x, r.scopes.Binds scope x → scope = "" ∨ scope = "main")
    (ht : ∀ t ∈ ts, t.Every fun n ↦ n.kind ≠ .program ∧ n.Legible)
    (hr : ∀ t ∈ ts, t.Ready r.scopes r.types u) (hp : p.storage.Serves r.scopes.Binds) :
    ∀ t ∈ ts, Clean (part t.id) := by
  induction h with
  | nil => simp
  | @cons u i n ts p q p' q' hc hi hts ihc iht =>
    simp only [List.mem_cons, forall_eq_or_imp] at ht hr
    obtain ⟨⟨⟨hn, hnames, -⟩, htc⟩, htt⟩ := ht
    obtain ⟨⟨hrn, hrc⟩, hrt⟩ := hr
    have hq := hc.leads.serves hp
    have hp' : p'.storage.Serves r.scopes.Binds :=
      Places.Leads.serves (.node .refl (congrArg Prod.snd hi)) hq
    have hcell : ∀ x ∈ (n.map Tree.id).variableName?,
        isName (q.cell r.scopes (n.innerScope u) x).1 := by
      intro x hx
      obtain ⟨w, hw⟩ := Option.isSome_iff_exists.1 (hrn.isSome hx)
      rw [Places.label_cell hq hw]
      refine isName_labelFor_of (hb _ x ⟨w, rfl, isSome_local?_of_definingScope? hw⟩) ?_
      exact hnames x (by simpa using hx)
    have hnode := clean_compose r (n.innerScope u) part i (by simpa using hn) hcell (by
      simpa [Node.children_map] using ihc htc hrc hp)
    rw [hi] at hnode
    simpa using ⟨hnode, iht htt hrt hp'⟩

def Mips.Constant.Legible (c : Constant) : Prop :=
  (∃ k, c.label = numbered "string" k) ∧ '\n' ∉ c.value.toList

theorem Coded.legible_pool (h : Coded r part u ts p q) (ht : ∀ t ∈ ts, t.Every Node.Legible)
    (hp : ∀ c ∈ p.pool.entries, c.Legible) : ∀ c ∈ q.pool.entries, c.Legible := by
  induction h with
  | nil => exact hp
  | @cons u i n ts p q p' q' _ hi _ ihc iht =>
    simp only [List.mem_cons, forall_eq_or_imp] at ht
    obtain ⟨⟨⟨-, hvalue⟩, htc⟩, htt⟩ := ht
    have hq := ihc htc hp
    refine iht htt ?_
    have hp' : p' = (compose r (n.innerScope u) part i q (n.map Tree.id)).2 := by rw [hi]
    cases n with
    | stringLiteral value =>
      rw [hp']
      intro c hc
      simp only [compose, Node.map, Pool.push, Array.mem_push] at hc
      rcases hc with hc | rfl
      · exact hq c hc
      · exact ⟨⟨_, rfl⟩, hvalue value rfl⟩
    | _ =>
      rw [hp', pool_compose r _ part i q (by simp [Node.map, Node.kind])]
      exact hq

end trees

/-- What is read of the text of a fragment. An empty one is read as an empty line. -/
theorem Mips.exists_lines {f : Fragment} (h : ∀ l ∈ f, l.Readable) :
    ∃ lines, readProgram f.text = some lines ∧ lines.labels = f.labels ∧
      lines.targets = f.targets ∧ ∀ l, Line.label l ∈ lines ↔ Line.label l ∈ f := by
  by_cases hf : f = []
  · subst hf
    exact ⟨[.verbatim ""], by decide, rfl, rfl, by simp⟩
  · exact ⟨f, readProgram_text hf h, rfl, rfl, fun _ ↦ .rfl⟩

def controlBases : List String :=
  ["else", "endif", "loop_start", "loop_end", "concat_measure_left", "concat_measure_right",
    "concat_allocate", "concat_copy_left", "concat_copy_right"]

def IsControl (label : String) : Prop := ∃ base ∈ controlBases, ∃ k, label = numbered base k

theorem IsControl.head? {label : String} (h : IsControl label) :
    label.toList.head? ∈ [some 'e', some 'l', some 'c'] := by
  obtain ⟨base, hb, k, rfl⟩ := h
  have hbases : ∀ b ∈ controlBases, b.toList ≠ [] ∧
      b.toList.head? ∈ [some 'e', some 'l', some 'c'] := by decide
  obtain ⟨hne, hhead⟩ := hbases base hb
  rwa [toList_numbered, List.head?_append_of_ne_nil _ hne]

/-- In a program only its code defines control labels. -/
theorem IsControl.count_program {label : String} (h : IsControl label) {cells : List Cell}
    {strings : List Constant} {code : Fragment}
    (hcells : ∀ c ∈ cells, c.label.toList.head? = some 'v')
    (hstrings : ∀ c ∈ strings, c.Legible) :
    (Fragment.labels (Template.program (cells.map fun c ↦ .word c.label)
      (strings.map fun c ↦ .asciiz c.label c.value) code)).count label =
      (Fragment.labels code).count label := by
  have hlabels : Fragment.labels (Template.program (cells.map fun c ↦ .word c.label)
      (strings.map fun c ↦ .asciiz c.label c.value) code) =
      (["bool_true", "bool_false"] ++ (cells.map Cell.label ++ (strings.map Constant.label ++
        ["main"]))) ++ Fragment.labels code := by
    simp [Template.program, Template.call, Fragment.labels, Line.labels, List.flatMap_map,
      ← List.map_eq_flatMap]
  have hhead : ∀ x ∈ ["bool_true", "bool_false"] ++ (cells.map Cell.label ++
      (strings.map Constant.label ++ ["main"])),
      x.toList.head? ∈ [some 'b', some 'v', some 's', some 'm'] := by
    simp only [List.forall_mem_append, List.forall_mem_map]
    refine ⟨by decide, fun c hc ↦ by simp [hcells c hc], fun c hc ↦ ?_, by decide⟩
    obtain ⟨⟨k, hk⟩, -⟩ := hstrings c hc
    simp [hk, toList_numbered]
  have hnot : label ∉ ["bool_true", "bool_false"] ++ (cells.map Cell.label ++
      (strings.map Constant.label ++ ["main"])) := by
    intro hm
    have hl := h.head?
    have hx := hhead label hm
    generalize label.toList.head? = o at hl hx
    simp only [List.mem_cons, List.not_mem_nil, or_false] at hl
    rcases hl with rfl | rfl | rfl <;> revert hx <;> decide
  rw [hlabels, List.count_append, List.count_eq_zero_of_not_mem hnot, Nat.zero_add]

theorem Tree.Every.and {P Q : Node Tree → Prop} {t : Tree} (hp : t.Every P) (hq : t.Every Q) :
    t.Every fun n ↦ P n ∧ Q n := by
  induction hp with
  | mk h _ ih =>
    obtain ⟨h', hcs⟩ := hq
    exact .mk ⟨h, h'⟩ fun c hc ↦ ih c hc (hcs c hc)

namespace Arena

variable {a : Arena} {root : NodeId} {functions : List Tree} {main : Tree} {s : Typing}
  {g : Generation}

theorem Compiles.coded_parts (h : a.Compiles root functions main s g) :
    Coded s.analysis g.part globalScope (functions ++ [main]) {} g.places := by
  cases h.generated.coded with
  | @cons _ _ _ _ _ q _ _ hc hi hnil =>
    obtain rfl : q = g.places := by
      cases hnil
      exact congrArg Prod.snd hi
    exact hc

theorem Compiles.every_part (h : a.Compiles root functions main s g)
    (hl : ∀ i n, a.Reaches root i → a.get? i = some n → n.Legible) {c : Tree}
    (hc : c ∈ functions ++ [main]) : c.Every fun n ↦ n.kind ≠ .program ∧ n.Legible := by
  have hlegible := h.holds.every hl .refl
  obtain ⟨-, hlegible⟩ := hlegible
  refine (((h.holds.child hc).every_kind_ne h.forest (h.holds.kind_child h.forest hc).1).and
    (hlegible c hc)).mono fun n hn ↦ ?_
  simpa using hn

theorem Compiles.code (h : a.Compiles root functions main s g)
    (hl : ∀ i n, a.Reaches root i → a.get? i = some n → n.Legible) {c t : Tree} {v : ScopeId}
    (hc : c ∈ functions ++ [main]) (ho : t.Occurs v globalScope c) :
    Clean (g.part t.id) ∧ Closed (g.part t.id) ∧ (Fragment.labels (g.part t.id)).Nodup := by
  obtain ⟨p₁, q₁, hp, hcode, -⟩ := h.coded_parts.mem hc
  obtain ⟨p₂, q₂, hp', hcode, -⟩ := hcode.occurs ho
  have hserves : p₂.storage.Serves s.analysis.scopes.Binds :=
    (hp.trans hp').serves ⟨by simp, by simp⟩
  have hbinds (scope x : String) (hx : s.analysis.scopes.Binds scope x) :
      scope = "" ∨ scope = "main" := by
    obtain ⟨u, rfl, hx⟩ := hx
    exact (h.local?_cases hx).imp And.right And.right
  have hready : t.Ready s.analysis.scopes s.analysis.types v := by
    obtain ⟨-, hrc⟩ := h.accepted.ready
    exact ho.ready (hrc c hc)
  have hnodes := (h.every_part hl hc).occurs ho
  obtain ⟨-, hnodup, -⟩ := hcode.labels (by simpa using hnodes.mono fun n hn ↦ hn.1)
  have hclean := hcode.clean hbinds (by simpa using hnodes) (by simpa using hready) hserves
  exact ⟨hclean t (List.mem_singleton_self t), hcode.closed t (List.mem_singleton_self t),
    by simpa using hnodup⟩

theorem Compiles.legible_cell (h : a.Compiles root functions main s g)
    (hl : ∀ i n, a.Reaches root i → a.get? i = some n → n.Legible) {c : Cell}
    (hc : c ∈ g.storage.cells.toList) :
    isName c.label ∧ c.label.toList.head? = some 'v' := by
  obtain ⟨u, x, hx, rfl⟩ := (h.mem_cells_iff c).1 hc
  have hscope : s.scopes.qualifiedName u = "" ∨ s.scopes.qualifiedName u = "main" :=
    (h.local?_cases hx).imp And.right And.right
  have hid : isIdentifier x := by
    rcases h.judged.exists_declaration hx with hx | ⟨t, ht, i, type, init, ho⟩
    · simp [local?_forMain] at hx
    · obtain rfl := List.mem_singleton.1 ht
      obtain ⟨⟨hname, -⟩, -⟩ := (h.holds.every hl .refl).occurs ho
      exact hname x rfl
  exact ⟨isName_labelFor_of hscope hid, Cell.head?_labelFor _ x⟩

theorem Compiles.code_root (h : a.Compiles root functions main s g)
    (hl : ∀ i n, a.Reaches root i → a.get? i = some n → n.Legible) :
    (∀ l ∈ g.part root, l.Readable) ∧ Closed (g.part root) ∧
      ∀ l, IsControl l → (Fragment.labels (g.part root)).count l ≤ 1 := by
  obtain ⟨hclean, hclosed, hnodup⟩ := h.code hl (c := main) (by simp) .here
  have hpool : ∀ c ∈ g.pool.entries.toList, c.Legible := by
    have hlegible := h.coded_parts.legible_pool
      (fun t ht ↦ (h.every_part hl ht).mono fun n hn ↦ hn.2) (by simp)
    simpa [Generation.places] using hlegible
  rw [h.generated.part_root]
  refine ⟨readable_program ?_ ?_ hclean, closed_program ?_ ?_ hclosed, fun l hc ↦ ?_⟩
  · simp only [List.forall_mem_map]
    exact fun c hc ↦ (h.legible_cell hl hc).1
  · simp only [List.forall_mem_map]
    intro c hc
    obtain ⟨⟨k, hk⟩, hvalue⟩ := hpool c hc
    exact ⟨hk ▸ isName_numbered (by decide) k, hvalue⟩
  · simp [targets, List.flatMap_map, Line.targets]
  · simp [targets, List.flatMap_map, Line.targets]
  · rw [hc.count_program (fun c hc ↦ (h.legible_cell hl hc).2) hpool]
    exact List.nodup_iff_count_le_one.1 hnodup l

theorem Compiles.code_of_reaches (h : a.Compiles root functions main s g)
    (hl : ∀ i n, a.Reaches root i → a.get? i = some n → n.Legible) {i : NodeId}
    (hi : a.Reaches root i) :
    (∀ l ∈ g.part i, l.Readable) ∧ Closed (g.part i) ∧
      ∀ l, IsControl l → (Fragment.labels (g.part i)).count l ≤ 1 := by
  obtain ⟨n, v, ho⟩ := Tree.exists_occurs (h.holds.reaches_iff.1 hi) globalScope
  cases ho with
  | here => exact h.code_root hl
  | inside hc ho =>
    obtain ⟨hclean, hclosed, hnodup⟩ := h.code hl hc ho
    exact ⟨fun l hl ↦ (hclean l hl).2, hclosed,
      fun l _ ↦ List.nodup_iff_count_le_one.1 hnodup l⟩

theorem Compiles.disjoint_labels (h : a.Compiles root functions main s g) {i j : NodeId}
    (hi : a.Reaches root i) (hj : a.Reaches root j) (hij : ¬a.Reaches i j)
    (hji : ¬a.Reaches j i) :
    (Fragment.labels (g.part i)).Disjoint (Fragment.labels (g.part j)) := by
  obtain ⟨n, v, hoi⟩ := Tree.exists_occurs (h.holds.reaches_iff.1 hi) globalScope
  obtain ⟨m, w, hoj⟩ := Tree.exists_occurs (h.holds.reaches_iff.1 hj) globalScope
  have hni : j ∉ (Tree.mk i n).ids := fun hm ↦ hij ((h.holds.occurs hoi).reaches_iff.2 hm)
  have hnj : i ∉ (Tree.mk j m).ids := fun hm ↦ hji ((h.holds.occurs hoj).reaches_iff.2 hm)
  cases hoi with
  | here => exact absurd hj hij
  | inside hci hoi =>
    cases hoj with
    | here => exact absurd hi hji
    | inside hcj hoj =>
      refine h.coded_parts.disjoint_labels (fun c hc ↦ ?_) hci hoi hcj hoj hni hnj
      exact (h.holds.child hc).every_kind_ne h.forest (h.holds.kind_child h.forest hc).1

/-- The fragments of a compiled program with legible nodes, as they are read from their texts. Every
control label that is jumped to in a fragment is defined in it once, fragments of nodes neither of
which is below the other define no control label in common, and in the whole program every control
label is defined at most once and every jump has its target. -/
theorem jumps_closed {text : String} (hv : a.validate = .ok root)
    (h : (a.compile .asm).outcome.result = .ok (.ok text))
    (hl : ∀ i n, a.Reaches root i → a.get? i = some n → n.Legible) :
    ∃ assembly, (a.analyze root >>= a.generate root).outcome.result = .ok (.ok assembly) ∧
      assembly.text = text ∧
      (∀ i, a.Reaches root i → ∃ f lines, assembly.code.get? i = some f ∧
        readProgram f.text = some lines ∧
        ∀ l ∈ lines.targets, IsControl l → .label l ∈ lines ∧ lines.labels.count l = 1) ∧
      (∀ i j f f' lines lines', a.Reaches root i → a.Reaches root j → ¬a.Reaches i j →
        ¬a.Reaches j i → assembly.code.get? i = some f → assembly.code.get? j = some f' →
        readProgram f.text = some lines → readProgram f'.text = some lines' →
        ∀ l, IsControl l → l ∈ lines.labels → l ∉ lines'.labels) ∧
      ∃ lines, readProgram text = some lines ∧ (∀ l, IsControl l → lines.labels.count l ≤ 1) ∧
        ∀ l ∈ lines.targets, .label l ∈ lines := by
  obtain ⟨root', functions, main, s, g, hc, rfl⟩ := exists_compiles h
  obtain rfl : root' = root := by simpa using hc.valid.symm.trans hv
  have hget {i : NodeId} (hi : a.Reaches root' i) : g.code.get? i = some (g.part i) :=
    hc.get?_code (hc.holds.reaches_iff.1 hi)
  refine ⟨g.assembly root', hc.result_generate, rfl, fun i hi ↦ ?_, ?_, ?_⟩
  · obtain ⟨hread, hclosed, hcount⟩ := hc.code_of_reaches hl hi
    obtain ⟨lines, hlines, hlabels, htargets, hmem⟩ := exists_lines hread
    refine ⟨_, lines, hget hi, hlines, fun l ht hctl ↦ ?_⟩
    have hlabel := hclosed l (htargets ▸ ht)
    have hpos : l ∈ Fragment.labels (g.part i) :=
      List.mem_flatMap.2 ⟨_, hlabel, List.mem_singleton.2 rfl⟩
    refine ⟨(hmem l).2 hlabel, ?_⟩
    rw [hlabels]
    exact Nat.le_antisymm (hcount l hctl) (List.count_pos_iff.2 hpos)
  · intro i j f f' lines lines' hi hj hij hji hf hf' hlines hlines' l _ hli hlj
    obtain rfl : f = g.part i := Option.some.inj (hf.symm.trans (hget hi))
    obtain rfl : f' = g.part j := Option.some.inj (hf'.symm.trans (hget hj))
    obtain ⟨_, hread, hlabels, -, -⟩ := exists_lines (hc.code_of_reaches hl hi).1
    obtain ⟨_, hread', hlabels', -, -⟩ := exists_lines (hc.code_of_reaches hl hj).1
    obtain rfl := Option.some.inj (hlines.symm.trans hread)
    obtain rfl := Option.some.inj (hlines'.symm.trans hread')
    exact hc.disjoint_labels hi hj hij hji (hlabels ▸ hli) (hlabels' ▸ hlj)
  · obtain ⟨hread, hclosed, hcount⟩ := hc.code_root hl
    obtain ⟨lines, hlines, hlabels, htargets, hmem⟩ := exists_lines hread
    exact ⟨lines, hlines, hlabels ▸ hcount, fun l ht ↦ (hmem l).2 (hclosed l (htargets ▸ ht))⟩

end Arena

/-- The program
```
var s : String = "a"
while true { if false { s = s + "b" } else { s = "c" } }
```
-/
def branching : Arena where
  nodes := #[.stringLiteral "a", .variableDeclaration "s" .string (some ⟨0⟩), .variableBlock [⟨1⟩],
    .boolLiteral true, .boolLiteral false, .variableRef "s", .stringLiteral "b",
    .addSub .add ⟨5⟩ ⟨6⟩, .assignment "s" ⟨7⟩, .statementBlock [⟨8⟩], .stringLiteral "c",
    .assignment "s" ⟨10⟩, .statementBlock [⟨11⟩], .ifStatement ⟨4⟩ ⟨9⟩ (some ⟨12⟩),
    .statementBlock [⟨13⟩], .whileStatement ⟨3⟩ ⟨14⟩, .statementBlock [⟨15⟩],
    .executableBlock (some ⟨2⟩) ⟨16⟩, .program [] ⟨17⟩]
  root := some ⟨18⟩

namespace branching

theorem validate_eq : branching.validate = .ok ⟨18⟩ :=
  Arena.validate_of_sound (by decide) (by decide) (by decide)

theorem exists_text : ∃ text, (branching.compile .asm).outcome.result = .ok (.ok text) := by
  have h : ((branching.compileFrom ⟨18⟩ .asm).outcome.result.toOption.bind
      Except.toOption).isSome := by decide +kernel
  obtain ⟨text, htext⟩ := Option.isSome_iff_exists.1 h
  exact ⟨text, Arena.result_compile validate_eq htext⟩

theorem legible {i : NodeId} {n : Node NodeId} (h : branching.get? i = some n) : n.Legible := by
  have hall : ∀ n ∈ branching.nodes.toList, n.Legible := by decide
  exact hall n (Array.mem_toList_iff.2 (Array.mem_of_getElem? h))

theorem jumps_closed_at :
    branching.validate = .ok ⟨18⟩ ∧
    (∀ i n, branching.Reaches ⟨18⟩ i → branching.get? i = some n → n.Legible) ∧
    ∃ text assembly, (branching.compile .asm).outcome.result = .ok (.ok text) ∧
      (branching.analyze ⟨18⟩ >>= branching.generate ⟨18⟩).outcome.result = .ok (.ok assembly) ∧
      (∀ i, branching.Reaches ⟨18⟩ i → ∃ f lines, assembly.code.get? i = some f ∧
        readProgram f.text = some lines ∧
        ∀ l ∈ lines.targets, IsControl l → .label l ∈ lines ∧ lines.labels.count l = 1) ∧
      ∃ lines, readProgram text = some lines ∧ (∀ l, IsControl l → lines.labels.count l ≤ 1) ∧
        ∀ l ∈ lines.targets, .label l ∈ lines := by
  obtain ⟨text, htext⟩ := exists_text
  obtain ⟨assembly, hassembly, -, hparts, -, hprogram⟩ :=
    Arena.jumps_closed validate_eq htext fun _ _ _ ↦ legible
  exact ⟨validate_eq, fun _ _ _ ↦ legible, text, assembly, htext, hassembly, hparts, hprogram⟩

end branching

end SpimCompiler
