import SpimCompiler.Mips.Generation
import SpimCompiler.Proofs.TypingGrowth

namespace SpimCompiler

open Mips

/-- What the generator has given out so far. -/
structure Places where
  pool : Pool := {}
  storage : Storage := {}
  labels : Labels := {}

namespace Places

variable (p : Places)

def takeLabel (base : String) : String × Places :=
  ((p.labels.mint base).1, { p with labels := (p.labels.mint base).2 })

def takeConcatLabels : ConcatLabels × Places :=
  let (measureLeft, p) := p.takeLabel "concat_measure_left"
  let (measureRight, p) := p.takeLabel "concat_measure_right"
  let (allocate, p) := p.takeLabel "concat_allocate"
  let (copyLeft, p) := p.takeLabel "concat_copy_left"
  let (copyRight, p) := p.takeLabel "concat_copy_right"
  ({ measureLeft, measureRight, allocate, copyLeft, copyRight }, p)

def takeCell (scopes : ScopeTree) (name : String) : Option ScopeId → String × Places
  | some scope =>
    let (label, storage) := p.storage.allocate (scopes.qualifiedName scope) name
    (label, { p with storage })
  | none => ("", p)

def cell (scopes : ScopeTree) (current : ScopeId) (name : String) : String × Places :=
  p.takeCell scopes name (scopes.definingScope? current name)

end Places

namespace Generation

def places (g : Generation) : Places := ⟨g.pool, g.storage, g.labels⟩

def withPlaces (g : Generation) (p : Places) : Generation :=
  { g with pool := p.pool, storage := p.storage, labels := p.labels }

def part (g : Generation) (id : NodeId) : Fragment := (g.code.get? id).getD []

def keep (g : Generation) (id : NodeId) (code : Fragment) : Generation :=
  { g with code := NodeTable.write g.code id code }

end Generation

def printing (operand : Fragment) : Ty → Fragment
  | .bool => Template.printBool operand
  | .int => Template.printBy operand Service.printInt.code
  | _ => Template.printBy operand Service.printString.code

/-- The code of a node from the code of its parts, and the places after it is made. -/
def compose (r : Analysis) (current : ScopeId) (part : NodeId → Fragment) (id : NodeId)
    (p : Places) : Node NodeId → Fragment × Places
  | .program _ main =>
    (Template.program (p.storage.cells.toList.map fun c ↦ .word c.label)
      (p.pool.entries.toList.map fun c ↦ .asciiz c.label c.value) (part main), p)
  | .executableBlock vars body => ((vars.toList ++ [body]).flatMap part, p)
  | .variableBlock declarations => (declarations.flatMap part, p)
  | .variableDeclaration name _ init =>
    let (cell, q) := p.cell r.scopes current name
    (init.elim [] fun value ↦ Template.storeVariable (part value) cell, q)
  | .statementBlock statements => (statements.flatMap part, p)
  | .assignment name value =>
    let (cell, q) := p.cell r.scopes current name
    (Template.storeVariable (part value) cell, q)
  | .ifStatement condition thenBlock none =>
    let (endLabel, q) := p.takeLabel "endif"
    (Template.ifThen (part condition) (part thenBlock) endLabel, q)
  | .ifStatement condition thenBlock (some elseBlock) =>
    let (elseLabel, q) := p.takeLabel "else"
    let (endLabel, q) := q.takeLabel "endif"
    (Template.ifElse (part condition) (part thenBlock) (part elseBlock) elseLabel endLabel, q)
  | .whileStatement condition body =>
    let (startLabel, q) := p.takeLabel "loop_start"
    let (endLabel, q) := q.takeLabel "loop_end"
    (Template.whileLoop (part condition) (part body) startLabel endLabel, q)
  | .printStatement value => (printing (part value) ((r.types.get? value).getD .error), p)
  | .intLiteral value => (Template.loadImmediate value.toInt, p)
  | .boolLiteral value => (Template.loadImmediate (if value then 1 else 0), p)
  | .stringLiteral value =>
    let (label, q) := p.takeLabel "string"
    (Template.loadAddress label, { q with pool := q.pool.push label value })
  | .parenthesized expression => (part expression, p)
  | .unary .minus operand => (Template.unaryMinus (part operand), p)
  | .unary .not operand => (Template.logicalNot (part operand), p)
  | .mulDiv op lhs rhs => (Template.binary op.mnemonic (part lhs) (part rhs), p)
  | .addSub op lhs rhs =>
    if r.types.get? id = some .string then
      let (labels, q) := p.takeConcatLabels
      (Template.concatStrings (part lhs) (part rhs) labels, q)
    else (Template.binary op.mnemonic (part lhs) (part rhs), p)
  | .compare op lhs rhs => (Template.binary op.mnemonic (part lhs) (part rhs), p)
  | .variableRef name =>
    let (cell, q) := p.cell r.scopes current name
    (Template.loadVariable cell, q)
  | .functionDefinition .. | .functionCall .. | .returnStatement .. => ([], p)

namespace Generation

variable {g : Generation} {run : Run Generation}

section places

@[simp]
theorem withPlaces_places : g.withPlaces g.places = g := rfl

@[simp]
theorem places_withPlaces (p : Places) : (g.withPlaces p).places = p := rfl

@[simp]
theorem withPlaces_withPlaces (p q : Places) : (g.withPlaces p).withPlaces q = g.withPlaces q := rfl

@[simp]
theorem code_withPlaces (p : Places) : (g.withPlaces p).code = g.code := rfl

@[simp]
theorem part_withPlaces (p : Places) : (g.withPlaces p).part = g.part := rfl

@[simp]
theorem current_withPlaces (p : Places) : (g.withPlaces p).current = g.current := rfl

@[simp]
theorem places_keep (id : NodeId) (code : Fragment) : (g.keep id code).places = g.places := rfl

@[simp]
theorem current_keep (id : NodeId) (code : Fragment) : (g.keep id code).current = g.current := rfl

end places

section step

@[simp]
theorem ends_mint (base : String) {Q : String → Run Generation → Prop} :
    (mint base).Ends run Q ↔
      Q (run.state.places.takeLabel base).1
        ⟨run.state.withPlaces (run.state.places.takeLabel base).2, run.trace⟩ := .rfl

theorem ends_fragment {id : NodeId} (h : (run.state.code.get? id).isSome)
    {Q : Fragment → Run Generation → Prop} :
    (fragment id).Ends run Q ↔ Q (run.state.part id) run := by
  obtain ⟨f, hf⟩ := Option.isSome_iff_exists.1 h
  simp [fragment, part, hf]

theorem ends_fragment_withPlaces {id : NodeId} (h : (g.code.get? id).isSome) {p : Places}
    {trace : Array Record} {Q : Fragment → Run Generation → Prop} :
    (fragment id).Ends ⟨g.withPlaces p, trace⟩ Q ↔ Q (g.part id) ⟨g.withPlaces p, trace⟩ := by
  rw [ends_fragment (by exact h), part_withPlaces]

theorem ends_mapM_fragment {ids : List NodeId}
    (h : ∀ i ∈ ids, (run.state.code.get? i).isSome)
    {Q : List Fragment → Run Generation → Prop} :
    (ids.mapM fragment).Ends run Q ↔ Q (ids.map run.state.part) run := by
  induction ids generalizing Q with
  | nil => simp
  | cons i ids ih =>
    rw [List.mapM_cons, Pass.ends_bind, ends_fragment (h i List.mem_cons_self), Pass.ends_bind]
    refine (ih fun j hj ↦ h j (List.mem_cons_of_mem i hj)).trans ?_
    simp

theorem ends_fragments {ids : List NodeId} (h : ∀ i ∈ ids, (run.state.code.get? i).isSome)
    {Q : Fragment → Run Generation → Prop} :
    (fragments ids).Ends run Q ↔ Q (ids.flatMap run.state.part) run := by
  rw [fragments, Pass.ends_bind, ends_mapM_fragment h, Pass.ends_pure, List.flatMap_def]

theorem ends_cellFor {scopes : ScopeTree} {name : String}
    (h : (scopes.definingScope? run.state.current name).isSome)
    {Q : String → Run Generation → Prop} :
    (cellFor scopes name).Ends run Q ↔
      Q (run.state.places.cell scopes run.state.current name).1
        ⟨run.state.withPlaces (run.state.places.cell scopes run.state.current name).2,
          run.trace⟩ := by
  obtain ⟨scope, hs⟩ := Option.isSome_iff_exists.1 h
  simp only [cellFor, Pass.ends_bind, Pass.ends_state, hs, Pass.ends_ofOption, Option.some.injEq,
    exists_eq_left', Pass.ends_update, Pass.ends_pure, Places.cell, Places.takeCell]
  rfl

theorem ends_binary {mnemonic : String} {lhs rhs : NodeId}
    (hl : (run.state.code.get? lhs).isSome) (hr : (run.state.code.get? rhs).isSome)
    {Q : Fragment → Run Generation → Prop} :
    (binary mnemonic lhs rhs).Ends run Q ↔
      Q (Template.binary mnemonic (run.state.part lhs) (run.state.part rhs)) run := by
  simp only [binary, Pass.ends_bind, Pass.ends_pure, ends_fragment hl, ends_fragment hr]

theorem ends_printed {types : TypeTable} {value : NodeId} {type : Ty}
    (hv : (run.state.code.get? value).isSome) (ht : types.get? value = some type)
    (hp : type.isValue) {Q : Fragment → Run Generation → Prop} :
    (printed types value).Ends run Q ↔ Q (printing (run.state.part value) type) run := by
  simp only [printed, typeOf, Pass.ends_bind, ends_fragment hv, ht, Pass.ends_ofOption,
    Option.some.injEq, exists_eq_left']
  cases type with
  | int | bool | string => simp [printing]
  | error | void => simp [Ty.isValue] at hp

theorem ends_ifThen {condition thenBlock : NodeId}
    (hc : (run.state.code.get? condition).isSome) (ht : (run.state.code.get? thenBlock).isSome)
    {Q : Fragment → Run Generation → Prop} :
    (ifCode condition thenBlock none).Ends run Q ↔
      Q (Template.ifThen (run.state.part condition) (run.state.part thenBlock)
          (run.state.places.takeLabel "endif").1)
        ⟨run.state.withPlaces (run.state.places.takeLabel "endif").2, run.trace⟩ := by
  simp only [ifCode, Pass.ends_bind, ends_mint, Pass.ends_pure, ends_fragment_withPlaces hc,
    ends_fragment_withPlaces ht]

theorem ends_ifElse {condition thenBlock elseBlock : NodeId}
    (hc : (run.state.code.get? condition).isSome) (ht : (run.state.code.get? thenBlock).isSome)
    (he : (run.state.code.get? elseBlock).isSome) {Q : Fragment → Run Generation → Prop} :
    (ifCode condition thenBlock (some elseBlock)).Ends run Q ↔
      Q (Template.ifElse (run.state.part condition) (run.state.part thenBlock)
          (run.state.part elseBlock) (run.state.places.takeLabel "else").1
          ((run.state.places.takeLabel "else").2.takeLabel "endif").1)
        ⟨run.state.withPlaces ((run.state.places.takeLabel "else").2.takeLabel "endif").2,
          run.trace⟩ := by
  simp only [ifCode, Pass.ends_bind, ends_mint, Pass.ends_pure, places_withPlaces,
    withPlaces_withPlaces, ends_fragment_withPlaces hc, ends_fragment_withPlaces ht,
    ends_fragment_withPlaces he]

theorem ends_whileCode {condition body : NodeId}
    (hc : (run.state.code.get? condition).isSome) (hb : (run.state.code.get? body).isSome)
    {Q : Fragment → Run Generation → Prop} :
    (whileCode condition body).Ends run Q ↔
      Q (Template.whileLoop (run.state.part condition) (run.state.part body)
          (run.state.places.takeLabel "loop_start").1
          ((run.state.places.takeLabel "loop_start").2.takeLabel "loop_end").1)
        ⟨run.state.withPlaces ((run.state.places.takeLabel "loop_start").2.takeLabel "loop_end").2,
          run.trace⟩ := by
  simp only [whileCode, Pass.ends_bind, ends_mint, Pass.ends_pure, places_withPlaces,
    withPlaces_withPlaces, ends_fragment_withPlaces hc, ends_fragment_withPlaces hb]

@[simp]
theorem ends_mintConcat {Q : ConcatLabels → Run Generation → Prop} :
    mintConcat.Ends run Q ↔
      Q run.state.places.takeConcatLabels.1
        ⟨run.state.withPlaces run.state.places.takeConcatLabels.2, run.trace⟩ := .rfl

theorem ends_addSubCode {types : TypeTable} {id : NodeId} {type : Ty} {op : AddSubOp}
    {lhs rhs : NodeId} (ht : types.get? id = some type) (hl : (run.state.code.get? lhs).isSome)
    (hr : (run.state.code.get? rhs).isSome) {Q : Fragment → Run Generation → Prop} :
    (addSubCode types id op lhs rhs).Ends run Q ↔
      if type = .string then
        Q (Template.concatStrings (run.state.part lhs) (run.state.part rhs)
            run.state.places.takeConcatLabels.1)
          ⟨run.state.withPlaces run.state.places.takeConcatLabels.2, run.trace⟩
      else Q (Template.binary op.mnemonic (run.state.part lhs) (run.state.part rhs)) run := by
  simp only [addSubCode, typeOf, ht, Pass.ends_bind, Pass.ends_ofOption, Option.some.injEq,
    exists_eq_left']
  split
  · simp only [Pass.ends_bind, ends_mintConcat, Pass.ends_pure, ends_fragment_withPlaces hl,
      ends_fragment_withPlaces hr]
  · exact ends_binary hl hr

/-- At a node that is part of the language, whose names and types are known and whose children have
code, code is made and nothing else changes but the places. -/
theorem ends_codeOf {r : Analysis} {id : NodeId} {n : Node NodeId} (hn : n.rejection? = none)
    (hr : n.Ready r.scopes run.state.current r.types id)
    (hc : ∀ c ∈ n.children, (run.state.code.get? c).isSome)
    {Q : Option Fragment → Run Generation → Prop} :
    (codeOf r id n).Ends run Q ↔
      Q (some (compose r run.state.current run.state.part id run.state.places n).1)
        ⟨run.state.withPlaces
          (compose r run.state.current run.state.part id run.state.places n).2, run.trace⟩ := by
  cases n with
  | program functions main =>
    have hm := hc main (by simp [Node.children])
    simp only [codeOf, programCode, Pass.ends_map, Pass.ends_bind, Pass.ends_state, Pass.ends_pure,
      ends_fragment hm]
    rfl
  | executableBlock vars body | variableBlock declarations | statementBlock statements =>
    simp only [codeOf, Pass.ends_map]
    exact ends_fragments hc
  | variableDeclaration name type init =>
    cases init with
    | none =>
      simp only [codeOf, declarationCode, Pass.ends_map, Pass.ends_bind, ends_cellFor hr,
        Pass.ends_pure]
      rfl
    | some value =>
      simp only [codeOf, declarationCode, Pass.ends_map, Pass.ends_bind, ends_cellFor hr,
        Pass.ends_pure]
      exact ends_fragment_withPlaces (hc value (by simp [Node.children]))
  | assignment name value =>
    simp only [codeOf, Pass.ends_bind, ends_cellFor hr, Pass.ends_pure]
    exact ends_fragment_withPlaces (hc value (by simp [Node.children]))
  | ifStatement condition thenBlock elseBlock =>
    cases elseBlock with
    | none =>
      simp only [codeOf, ends_ifThen (hc condition (by simp [Node.children]))
        (hc thenBlock (by simp [Node.children])), Pass.ends_map]
      rfl
    | some elseBlock =>
      simp only [codeOf, ends_ifElse (hc condition (by simp [Node.children]))
        (hc thenBlock (by simp [Node.children])) (hc elseBlock (by simp [Node.children])),
        Pass.ends_map]
      rfl
  | whileStatement condition body =>
    simp only [codeOf, Pass.ends_map, ends_whileCode (hc condition (by simp [Node.children]))
      (hc body (by simp [Node.children]))]
    rfl
  | printStatement value =>
    obtain ⟨type, ht, hp⟩ := hr
    simp only [codeOf, Pass.ends_map, ends_printed (hc value (by simp [Node.children])) ht hp,
      compose, ht]
    rfl
  | intLiteral | boolLiteral | stringLiteral => rfl
  | parenthesized expression =>
    simp only [codeOf, Pass.ends_map, ends_fragment (hc expression (by simp [Node.children]))]
    rfl
  | unary op operand =>
    have := hc operand (by simp [Node.children])
    cases op <;> simp only [codeOf, Pass.ends_bind, Pass.ends_pure, ends_fragment this] <;> rfl
  | mulDiv op lhs rhs | compare op lhs rhs =>
    simp only [codeOf, Pass.ends_map, ends_binary (hc lhs (by simp [Node.children]))
      (hc rhs (by simp [Node.children]))]
    rfl
  | addSub op lhs rhs =>
    obtain ⟨type, ht⟩ := Option.isSome_iff_exists.1 hr
    simp only [codeOf, Pass.ends_map, ends_addSubCode ht (hc lhs (by simp [Node.children]))
      (hc rhs (by simp [Node.children])), compose, ht, Option.some.injEq]
    split <;> rfl
  | variableRef name =>
    simp only [codeOf, Pass.ends_bind, ends_cellFor hr, Pass.ends_pure]
    rfl
  | functionDefinition | functionCall | returnStatement => simp [Node.rejection?] at hn

end step

end Generation

end SpimCompiler
