import SpimCompiler.Proofs.JumpTargets

namespace SpimCompiler

open Mips ScopeTree

namespace Mips.Fragment

theorem exists_text_append (f g : Fragment) :
    ∃ s, text (f ++ g) = f.text ++ s ++ g.text := by
  induction f with
  | nil => exact ⟨"", by simp⟩
  | cons l f ih =>
    cases f with
    | nil =>
      cases g with
      | nil => exact ⟨"", by simp⟩
      | cons m g => exact ⟨"\n", by simp [text_cons_cons]⟩
    | cons m f =>
      obtain ⟨s, hs⟩ := ih
      refine ⟨s, ?_⟩
      rw [List.cons_append, List.cons_append, text_cons_cons, ← List.cons_append, hs,
        text_cons_cons]
      simp only [String.append_assoc]

theorem exists_text_eq {f g : Fragment} (h : f <:+: g) :
    ∃ x y, g.text = x ++ f.text ++ y := by
  obtain ⟨before, behind, rfl⟩ := h
  obtain ⟨s, hs⟩ := exists_text_append (before ++ f) behind
  obtain ⟨s', hs'⟩ := exists_text_append before f
  refine ⟨text before ++ s', s ++ text behind, ?_⟩
  rw [hs, hs']
  simp only [String.append_assoc]

end Mips.Fragment

/-- Pieces of code in a row, with lines before, between and behind them. -/
def weave : (own parts : List Fragment) → Fragment
  | lines :: own, code :: parts => lines ++ code ++ weave own parts
  | own, parts => own.flatten ++ parts.flatten

theorem infix_weave {own parts : List Fragment} {code : Fragment} (h : code ∈ parts) :
    code <:+: weave own parts := by
  induction parts generalizing own with
  | nil => cases h
  | cons part parts ih =>
    cases own with
    | nil => exact List.infix_of_mem_flatten h
    | cons lines own =>
      rcases List.mem_cons.1 h with rfl | h
      · exact ⟨lines, weave own parts, rfl⟩
      · exact (ih h).trans (List.suffix_append _ _).isInfix

theorem weave_replicate (parts : List Fragment) :
    weave (List.replicate (parts.length + 1) []) parts = parts.flatten := by
  induction parts with
  | nil => rfl
  | cons part parts ih => simpa [weave, List.replicate_succ] using ih

theorem weave_replicate_map (ids : List NodeId) (part : NodeId → Fragment) :
    weave (List.replicate (ids.length + 1) []) (ids.map part) = ids.flatMap part := by
  rw [← List.length_map (f := part), weave_replicate, List.flatMap_def]

def keepLeft : Fragment := [.instr (.addiu .sp .sp (-4)), .instr (.sw .t0 (.offset 0 .sp))]

def bringLeft : Fragment := [.instr (.lw .t1 (.offset 0 .sp)), .instr (.addiu .sp .sp 4)]

/-- The lines of its own that a node has around the code of its children, before the first and
behind each of them. -/
inductive Node.Frame {ι : Type} : Node ι → List Fragment → Prop
  | block {n : Node ι} : n.kind ∈ [.executableBlock, .variableBlock, .statementBlock] →
      n.Frame (.replicate (n.children.length + 1) [])
  | declaration {name : String} {type : TypeName} : Frame (.variableDeclaration name type none) [[]]
  | initialiser {name : String} {type : TypeName} {value : ι} (cell : String) :
      Frame (.variableDeclaration name type (some value)) [[], Template.storeVariable [] cell]
  | assignment {name : String} {value : ι} (cell : String) :
      Frame (.assignment name value) [[], Template.storeVariable [] cell]
  | ifThen {condition thenBlock : ι} (endLabel : String) :
      Frame (.ifStatement condition thenBlock none)
        [[], [.instr (.beqz .t0 endLabel)], [.label endLabel]]
  | ifElse {condition thenBlock elseBlock : ι} (elseLabel endLabel : String) :
      Frame (.ifStatement condition thenBlock (some elseBlock))
        [[], [.instr (.beqz .t0 elseLabel)], [.instr (.j endLabel), .label elseLabel],
          [.label endLabel]]
  | whileStatement {condition body : ι} (startLabel endLabel : String) :
      Frame (.whileStatement condition body)
        [[.label startLabel], [.instr (.beqz .t0 endLabel)],
          [.instr (.j startLabel), .label endLabel]]
  | printStatement {value : ι} (type : Ty) : Frame (.printStatement value) [[], printing [] type]
  | intLiteral {value : Int32} : Frame (.intLiteral value) [Template.loadImmediate value.toInt]
  | boolLiteral {value : Bool} :
      Frame (.boolLiteral value) [Template.loadImmediate (if value then 1 else 0)]
  | stringLiteral {value : String} (label : String) :
      Frame (.stringLiteral value) [Template.loadAddress label]
  | parenthesized {expression : ι} : Frame (.parenthesized expression) [[], []]
  | minus {operand : ι} : Frame (.unary .minus operand) [[], Template.unaryMinus []]
  | not {operand : ι} : Frame (.unary .not operand) [[], Template.logicalNot []]
  | mulDiv {op : MulDivOp} {lhs rhs : ι} :
      Frame (.mulDiv op lhs rhs)
        [[], keepLeft, bringLeft ++ [.instr (.arith op.mnemonic .t0 .t1 .t0)]]
  | addSub {op : AddSubOp} {lhs rhs : ι} :
      Frame (.addSub op lhs rhs)
        [[], keepLeft, bringLeft ++ [.instr (.arith op.mnemonic .t0 .t1 .t0)]]
  | concat {op : AddSubOp} {lhs rhs : ι} (labels : ConcatLabels) :
      Frame (.addSub op lhs rhs)
        [[], keepLeft, bringLeft ++ (Template.concatStrings [] [] labels).drop 4]
  | compare {op : CompareOp} {lhs rhs : ι} :
      Frame (.compare op lhs rhs)
        [[], keepLeft, bringLeft ++ [.instr (.arith op.mnemonic .t0 .t1 .t0)]]
  | variableRef {name : String} (cell : String) :
      Frame (.variableRef name) [Template.loadVariable cell]

theorem printing_eq_append (operand : Fragment) (type : Ty) :
    printing operand type = operand ++ printing [] type := by
  cases type <;> simp [printing, Template.printBool, Template.printBy]

theorem operands_eq_append (left right : Fragment) :
    Template.operands left right = left ++ (keepLeft ++ (right ++ bringLeft)) := by
  simp [Template.operands, keepLeft, bringLeft]

/-- The code of a node is woven of its own lines and the code of its children. -/
theorem exists_frame_compose (r : Analysis) (u : ScopeId) (part : NodeId → Fragment) (i : NodeId)
    (p : Places) {n : Node NodeId} (hp : n.kind ≠ .program) (hn : n.rejection? = none) :
    ∃ own, n.Frame own ∧ (compose r u part i p n).1 = weave own (n.children.map part) := by
  cases n with
  | program => exact absurd rfl hp
  | functionDefinition | functionCall | returnStatement => simp [Node.rejection?] at hn
  | executableBlock | variableBlock | statementBlock =>
    exact ⟨_, .block (by simp [Node.kind]), (weave_replicate_map _ part).symm⟩
  | variableDeclaration name type init =>
    cases init with
    | none => exact ⟨_, .declaration, rfl⟩
    | some value => exact ⟨_, .initialiser (p.cell r.scopes u name).1, rfl⟩
  | assignment name value => exact ⟨_, .assignment (p.cell r.scopes u name).1, rfl⟩
  | ifStatement condition thenBlock elseBlock =>
    cases elseBlock with
    | none =>
      refine ⟨_, .ifThen (p.takeLabel "endif").1, ?_⟩
      simp [compose, weave, Node.children, Template.ifThen]
    | some elseBlock =>
      let q := p.takeLabel "else"
      refine ⟨_, .ifElse q.1 (q.2.takeLabel "endif").1, ?_⟩
      simp [compose, weave, Node.children, Template.ifElse, q]
  | whileStatement condition body =>
    let q := p.takeLabel "loop_start"
    refine ⟨_, .whileStatement q.1 (q.2.takeLabel "loop_end").1, ?_⟩
    simp [compose, weave, Node.children, Template.whileLoop, q]
  | printStatement value =>
    refine ⟨_, .printStatement ((r.types.get? value).getD .error), ?_⟩
    rw [compose, printing_eq_append]
    simp [weave, Node.children]
  | intLiteral => exact ⟨_, .intLiteral, rfl⟩
  | boolLiteral => exact ⟨_, .boolLiteral, rfl⟩
  | stringLiteral value => exact ⟨_, .stringLiteral (p.takeLabel "string").1, rfl⟩
  | parenthesized expression =>
    exact ⟨_, .parenthesized, by simp [compose, weave, Node.children]⟩
  | unary op operand =>
    cases op with
    | minus => exact ⟨_, .minus, rfl⟩
    | not => exact ⟨_, .not, rfl⟩
  | mulDiv op lhs rhs =>
    refine ⟨_, .mulDiv, ?_⟩
    simp [compose, weave, Node.children, Template.binary, operands_eq_append]
  | compare op lhs rhs =>
    refine ⟨_, .compare, ?_⟩
    simp [compose, weave, Node.children, Template.binary, operands_eq_append]
  | addSub op lhs rhs =>
    by_cases ht : r.types.get? i = some .string
    · refine ⟨_, .concat p.takeConcatLabels.1, ?_⟩
      have hbehind : (Template.concatStrings (part lhs) (part rhs) p.takeConcatLabels.1) =
          Template.operands (part lhs) (part rhs) ++
            (Template.concatStrings [] [] p.takeConcatLabels.1).drop 4 := by
        simp [Template.concatStrings, Template.operands]
      simp only [compose, if_pos ht, hbehind, operands_eq_append]
      simp [weave, Node.children]
    · refine ⟨_, .addSub, ?_⟩
      simp [compose, ht, weave, Node.children, Template.binary, operands_eq_append]
  | variableRef name => exact ⟨_, .variableRef (p.cell r.scopes u name).1, rfl⟩

section coded

variable {r : Analysis} {part : NodeId → Fragment} {u v : ScopeId} {t t' : Tree} {p q : Places}

theorem Coded.exists_frame (h : Coded r part u [t] p q) (hk : t.node.kind ≠ .program)
    (hp : t.Plain) :
    ∃ own, (t.node.map Tree.id).Frame own ∧
      part t.id = weave own ((t.node.map Tree.id).children.map part) := by
  cases h with
  | @cons _ i n _ _ q _ _ _ hi _ =>
    obtain ⟨hn, -⟩ := hp
    obtain ⟨own, hown, hcode⟩ := exists_frame_compose r (n.innerScope u) part i q
      (n := n.map Tree.id) (by simpa using hk) (by simpa using hn)
    rw [hi] at hcode
    exact ⟨own, hown, hcode⟩

theorem Coded.infix_part (h : Coded r part u [t'] p q) (ho : t.Occurs v u t')
    (hk : t'.Every fun n ↦ n.kind ≠ .program) (hp : t'.Plain) :
    part t.id <:+: part t'.id := by
  induction ho generalizing p q with
  | here => exact List.infix_rfl
  | @inside u i n c hc _ ih =>
    obtain ⟨hkn, hkc⟩ := hk
    obtain ⟨own, -, hown⟩ := h.exists_frame hkn hp
    obtain ⟨-, hpc⟩ := hp
    cases h with
    | cons hcs =>
      obtain ⟨p₁, q₁, -, hcode, -⟩ := hcs.mem hc
      refine (ih hcode (hkc c hc) (hpc c hc)).trans ?_
      rw [hown]
      refine infix_weave (List.mem_map.2 ⟨c.id, ?_, rfl⟩)
      rw [Node.children_map]
      exact List.mem_map_of_mem hc

end coded

def Assembly.around (assembly : Assembly) (code : Fragment) : Fragment :=
  Template.program (assembly.cells.toList.map fun c ↦ .word c.label)
    (assembly.pool.entries.toList.map fun c ↦ .asciiz c.label c.value) code

theorem Assembly.around_inj {assembly : Assembly} {f g : Fragment} :
    assembly.around f = assembly.around g ↔ f = g := by
  simp [around, Template.program]

theorem Assembly.infix_around (assembly : Assembly) (f : Fragment) : f <:+: assembly.around f :=
  ⟨_, Template.call Service.exit.code ++ [.verbatim ""], (List.append_assoc _ _ _).symm⟩

namespace Arena

variable {a : Arena} {root : NodeId} {functions : List Tree} {main : Tree} {s : Typing}
  {g : Generation}

theorem Compiles.exists_frame (h : a.Compiles root functions main s g) {i : NodeId}
    {n : Node NodeId} (hi : a.Reaches root i) (hne : i ≠ root) (hn : a.get? i = some n) :
    ∃ own, n.Frame own ∧ g.part i = weave own (n.children.map g.part) := by
  have hids := h.holds.reaches_iff.1 hi
  rw [Tree.ids_mk, List.mem_append, List.mem_singleton] at hids
  obtain ⟨c, hc, hic⟩ := List.mem_flatMap.1 (hids.resolve_right hne)
  obtain ⟨m, v, ho⟩ := Tree.exists_occurs hic globalScope
  obtain rfl : m.map Tree.id = n :=
    Option.some.inj (((h.holds.child hc).occurs ho).get?.symm.trans hn)
  obtain ⟨p, q, -, hcode, -⟩ := h.coded_parts.mem hc
  obtain ⟨p', q', -, hcode, -⟩ := hcode.occurs ho
  obtain ⟨hkind, -⟩ :=
    ((h.holds.child hc).every_kind_ne h.forest (h.holds.kind_child h.forest hc).1).occurs ho
  obtain ⟨-, hplain⟩ := h.accepted.plain
  exact hcode.exists_frame hkind (ho.plain (hplain c hc))

theorem Compiles.infix_main (h : a.Compiles root functions main s g) {i : NodeId}
    (hi : a.Reaches main.id i) : g.part i <:+: g.part main.id := by
  have hm : main ∈ functions ++ [main] := by simp
  have hmain := h.holds.child hm
  obtain ⟨n, v, ho⟩ := Tree.exists_occurs (hmain.reaches_iff.1 hi) globalScope
  obtain ⟨p, q, -, hcode, -⟩ := h.coded_parts.mem hm
  obtain ⟨-, hplain⟩ := h.accepted.plain
  exact hcode.infix_part ho (hmain.every_kind_ne h.forest (h.holds.kind_child h.forest hm).1)
    (hplain main hm)

theorem Compiles.infix_part (h : a.Compiles root functions main s g) {i : NodeId}
    (hi : a.Reaches main.id i) : g.part i <:+: g.part root := by
  rw [h.generated.part_root]
  exact (h.infix_main hi).trans (Assembly.infix_around (g.assembly root) _)

/-- The code of a compiled program. Below the root the code of a node is that of its children, each
once and in their order, within the lines of its own kind. At the root it is that of the main part
alone, so the code of every node below the main part is in the text, and nothing is lost exactly if
the nodes beside the main part have no code. -/
theorem code_woven {text : String} (h : (a.compile .asm).outcome.result = .ok (.ok text)) :
    ∃ root functions main assembly, ∃ code : NodeId → Fragment, a.validate = .ok root ∧
      a.get? root = some (.program functions main) ∧
      (a.analyze root >>= a.generate root).outcome.result = .ok (.ok assembly) ∧
      (∀ i, a.Reaches root i → assembly.code.get? i = some (code i)) ∧
      (code root).text = text ∧
      (∀ i n, a.Reaches root i → i ≠ root → a.get? i = some n →
        ∃ own, n.Frame own ∧ code i = weave own (n.children.map code)) ∧
      code root = assembly.around (code main) ∧
      (∀ i, a.Reaches main i → code i <:+: code root ∧ ∃ x y, text = x ++ (code i).text ++ y) ∧
      (code root = assembly.around ((functions ++ [main]).flatMap code) ↔
        ∀ f ∈ functions, code f = []) := by
  obtain ⟨root, functions, main, s, g, hc, rfl⟩ := exists_compiles h
  have hroot : g.part root = (g.assembly root).around (g.part main.id) := hc.generated.part_root
  refine ⟨root, functions.map Tree.id, main.id, g.assembly root, g.part, hc.valid, hc.holds.get?,
    hc.result_generate, fun i hi ↦ hc.get?_code (hc.holds.reaches_iff.1 hi), rfl,
    fun i n hi hne hn ↦ hc.exists_frame hi hne hn, hroot, fun i hi ↦ ?_, ?_⟩
  · exact ⟨hc.infix_part hi, Fragment.exists_text_eq (hc.infix_part hi)⟩
  · rw [hroot, Assembly.around_inj, List.flatMap_append, List.flatMap_singleton,
      List.self_eq_append_left, List.flatMap_eq_nil_iff]

end Arena

def initialised : Arena where
  nodes := #[.intLiteral 5, .variableDeclaration "x" .int (some ⟨0⟩), .variableRef "x",
    .printStatement ⟨2⟩, .statementBlock [⟨3⟩], .executableBlock none ⟨4⟩, .program [⟨1⟩] ⟨5⟩]
  root := some ⟨6⟩

namespace initialised

def declaration : Fragment := [.instr (.li .t0 5), .instr (.sw .t0 (.cell "var_x"))]

def program : Fragment :=
  Template.program [.word "var_x"] []
    [.instr (.lw .t0 (.cell "var_x")), .instr (.move .a0 .t0), .instr (.li .v0 1), .instr .syscall]

theorem validate_eq : initialised.validate = .ok ⟨6⟩ :=
  Arena.validate_of_sound (by decide) (by decide) (by decide)

theorem compile_eq : (initialised.compile .asm).outcome.result = .ok (.ok program.text) :=
  Arena.result_compile validate_eq (by decide +kernel)

theorem code_eq :
    (initialised.analyze ⟨6⟩ >>= initialised.generate ⟨6⟩).outcome.result.map
      (·.map fun assembly ↦ (assembly.code.get? ⟨1⟩, assembly.code.get? ⟨6⟩)) =
      .ok (.ok (some declaration, some program)) := by
  decide +kernel

theorem code_woven_at :
    (initialised.compile .asm).outcome.result = .ok (.ok program.text) ∧
    ∃ assembly, ∃ code : NodeId → Fragment,
      (initialised.analyze ⟨6⟩ >>= initialised.generate ⟨6⟩).outcome.result = .ok (.ok assembly) ∧
      (∀ i, initialised.Reaches ⟨6⟩ i → assembly.code.get? i = some (code i)) ∧
      (∀ i n, initialised.Reaches ⟨6⟩ i → i ≠ ⟨6⟩ → initialised.get? i = some n →
        ∃ own, n.Frame own ∧ code i = weave own (n.children.map code)) ∧
      (∃ x y, program.text = x ++ (code ⟨3⟩).text ++ y) ∧
      code ⟨6⟩ = assembly.around (code ⟨5⟩) ∧ code ⟨1⟩ = declaration ∧
      code ⟨6⟩ ≠ assembly.around (code ⟨1⟩ ++ code ⟨5⟩) := by
  obtain ⟨root, functions, main, assembly, code, hv, hn, hg, hcode, -, hwoven, haround, hmain,
    hiff⟩ := Arena.code_woven compile_eq
  obtain rfl : root = ⟨6⟩ := by simpa using hv.symm.trans validate_eq
  have hprogram : initialised.get? ⟨6⟩ = some (.program [⟨1⟩] ⟨5⟩) := rfl
  obtain ⟨rfl, rfl⟩ : functions = [⟨1⟩] ∧ main = ⟨5⟩ := by simpa using hn.symm.trans hprogram
  have hdeclaration : code ⟨1⟩ = declaration := by
    have hget := hcode ⟨1⟩ (.child .refl hprogram (by decide))
    exact (by simpa [hg, Except.map, hget] using code_eq : _ ∧ _).1
  have hbody : initialised.Reaches ⟨5⟩ ⟨4⟩ :=
    .child (n := .executableBlock none ⟨4⟩) .refl rfl (by decide)
  have hprint : initialised.Reaches ⟨5⟩ ⟨3⟩ :=
    hbody.child (n := .statementBlock [⟨3⟩]) rfl (by decide)
  refine ⟨compile_eq, assembly, code, hg, hcode, hwoven, (hmain _ hprint).2, haround, hdeclaration,
    fun hall ↦ ?_⟩
  have hempty := hiff.1 (by simpa using hall) ⟨1⟩ (List.mem_singleton_self _)
  simp [hdeclaration, declaration] at hempty

/-- The code of the declaration is made and left out: the variable keeps the zero of its cell. -/
theorem declaration_lost :
    (initialised.compile .asm).outcome.result = .ok (.ok program.text) ∧
      (initialised.analyze ⟨6⟩ >>= initialised.generate ⟨6⟩).outcome.result.map
        (·.map fun assembly ↦ (assembly.code.get? ⟨1⟩, assembly.code.get? ⟨6⟩)) =
        .ok (.ok (some declaration, some program)) ∧
      ¬declaration <:+: program :=
  ⟨compile_eq, code_eq, by decide⟩

end initialised

end SpimCompiler
