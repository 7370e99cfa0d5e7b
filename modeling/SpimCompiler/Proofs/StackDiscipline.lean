import SpimCompiler.Proofs.MemoryFrame
import SpimCompiler.Proofs.ProgramImage

namespace SpimCompiler

open Mips ScopeTree

theorem Derives.child {N : Nonterminal} {i : NodeId} {n : Node Tree} (h : Derives N (.mk i n))
    {c : Tree} (hc : c ∈ n.children) : ∃ N', N' ≠ .program ∧ Derives N' c := by
  cases h with
  | program hf hm =>
    rcases List.mem_append.1 hc with hc | hc
    · exact ⟨_, by decide, hf c hc⟩
    · obtain rfl := List.mem_singleton.1 hc
      exact ⟨_, by decide, hm⟩
  | functionDefinition hb =>
    obtain rfl := List.mem_singleton.1 hc
    exact ⟨_, by decide, hb⟩
  | executableBlock hv hb =>
    rcases List.mem_append.1 hc with hc | hc
    · exact ⟨_, by decide, hv c (by simpa using hc)⟩
    · obtain rfl := List.mem_singleton.1 hc
      exact ⟨_, by decide, hb⟩
  | variableBlock h => exact ⟨_, by decide, h c hc⟩
  | variableDeclaration h => exact ⟨_, by decide, h c (by simpa [Node.children] using hc)⟩
  | statementBlock h => exact ⟨_, by decide, h c hc⟩
  | ifStatement hcond ht he =>
    simp only [Node.children, List.mem_cons, Option.mem_toList] at hc
    rcases hc with rfl | rfl | hc
    · exact ⟨_, by decide, hcond⟩
    · exact ⟨_, by decide, ht⟩
    · exact ⟨_, by decide, he c hc⟩
  | whileStatement hcond hb =>
    simp only [Node.children, List.mem_cons, List.not_mem_nil, or_false] at hc
    rcases hc with rfl | rfl
    · exact ⟨_, by decide, hcond⟩
    · exact ⟨_, by decide, hb⟩
  | callStatement h | call h => exact ⟨_, by decide, h c hc⟩
  | returnStatement h => exact ⟨_, by decide, h c (by simpa [Node.children] using hc)⟩
  | assignment h | printStatement h | parenthesized h | unary h =>
    obtain rfl : c = _ := List.mem_singleton.1 hc
    exact ⟨_, by decide, h⟩
  | mulDiv hl hr | addSub hl hr | compare hl hr =>
    simp only [Node.children, List.mem_cons, List.not_mem_nil, or_false] at hc
    rcases hc with rfl | rfl
    · exact ⟨_, by decide, hl⟩
    · exact ⟨_, by decide, hr⟩
  | intLiteral | boolLiteral | stringLiteral | variableRef => cases hc

theorem Tree.Within.occurs {t u : Tree} (h : t.Within u) (w : ScopeId) : ∃ v, t.Occurs v w u := by
  induction h generalizing w with
  | refl => exact ⟨w, .here⟩
  | child hc _ ih =>
    obtain ⟨v, ho⟩ := ih _
    exact ⟨v, .inside hc ho⟩

theorem Derives.within {N : Nonterminal} {t u : Tree} (h : Derives N u) (hN : N ≠ .program)
    (ht : t.Within u) : ∃ N', N' ≠ .program ∧ Derives N' t := by
  induction ht generalizing N with
  | refl => exact ⟨N, hN, h⟩
  | child hc _ ih =>
    obtain ⟨N', hN', hd⟩ := h.child hc
    exact ih hd hN'

section wired

variable {m : Image} {r : Analysis} {part : NodeId → Fragment} {last : Places}

theorem Wired.within {t u : Tree} (h : Wired r part last u) (ht : t.Within u) :
    Wired r part last t := by
  induction ht with
  | refl => exact h
  | child hc _ ih => exact ih (h.child hc)

def Places.cellLabels (p : Places) : List String := p.storage.cells.toList.map Cell.label

/-- The memory besides stack and heap that code of a kind may change: none if it is an expression,
and cells otherwise. -/
def Nonterminal.writes (N : Nonterminal) (m : Image) (cells : List String) : Place → Prop :=
  if N = .expression then fun _ ↦ False else m.CellByte cells

/-- The code of every node of the main block keeps the discipline. -/
theorem Wired.obeys {t : Tree} {N : Nonterminal} (hw : Wired r part last t) (hd : Derives N t)
    (hN : N ≠ .program) :
    m.Obeys stackWatch State.OnStack (part t.id) (State.Frame (N.writes m last.cellLabels)) := by
  induction t generalizing N with
  | mk i n ih =>
    obtain ⟨hi, hvar, -, hcs⟩ := hw
    rw [Tree.id_mk, ← hi]
    have hexpr {e : Tree} (he : e ∈ n.children) (hd : Derives .expression e) :
        m.Obeys stackWatch State.OnStack (part e.id) (State.Frame fun _ ↦ False) :=
      ih e he (hcs e he) hd (by decide)
    have hpart {c : Tree} {N : Nonterminal} (hc : c ∈ n.children) (hd : Derives N c)
        (hN : N ≠ .program) : m.Obeys stackWatch State.OnStack (part c.id)
          (State.Frame (m.CellByte last.cellLabels)) := by
      refine (ih c hc (hcs c hc) hd hN).mono (fun _ hs ↦ hs) fun _ _ _ h ↦ h.mono fun q hq ↦ ?_
      unfold Nonterminal.writes at hq
      split_ifs at hq
      · exact hq.elim
      · exact hq
    have hlist (hd : ∀ c ∈ n.children, ∃ N, N ≠ .program ∧ Derives N c) :
        m.Obeys stackWatch State.OnStack ((n.map Tree.id).children.flatMap part)
          (State.Frame (m.CellByte last.cellLabels)) := by
      refine (discipline_frame _).flatMap fun c hc ↦ ?_
      rw [Node.children_map] at hc
      obtain ⟨t, ht, rfl⟩ := List.mem_map.1 hc
      obtain ⟨N, hN, hd⟩ := hd t ht
      exact hpart ht hd hN
    have hcell {x : String} {p : Places}
        (hx : (p.cell r.scopes mainScope x).1 = Cell.labelFor "main" x ∧
          Cell.of "main" x ∈ last.storage.cells) :
        (p.cell r.scopes mainScope x).1 ∈ last.cellLabels :=
      hx.1 ▸ List.mem_map_of_mem (f := Cell.label) (Array.mem_toList_iff.2 hx.2)
    have hwhole := hd
    cases hd with
    | program => exact absurd rfl hN
    | executableBlock | variableBlock | statementBlock => exact hlist fun c hc ↦ hwhole.child hc
    | functionDefinition | callStatement | returnStatement | call =>
      exact (discipline_frame _).nil
    | @variableDeclaration _ name type init h =>
      cases init with
      | none => exact (discipline_frame _).nil
      | some e =>
        exact frame_storeVariable (hcell (hvar name rfl))
          (hpart (by simp [Node.children]) (h e rfl) (by decide))
    | @assignment _ name value h =>
      exact frame_storeVariable (hcell (hvar name rfl))
        (hpart (by simp [Node.children]) h (by decide))
    | @ifStatement _ condition thenBlock elseBlock hc ht he =>
      have hc := hpart (by simp [Node.children]) hc (by decide)
      have ht := hpart (by simp [Node.children]) ht (by decide)
      cases elseBlock with
      | none => exact (discipline_frame _).ifThen hc ht
      | some b =>
        exact (discipline_frame _).ifElse hc ht
          (hpart (by simp [Node.children]) (he b rfl) (by decide))
    | whileStatement hc hb =>
      exact (discipline_frame _).whileLoop (hpart (by simp [Node.children]) hc (by decide))
        (hpart (by simp [Node.children]) hb (by decide))
    | @printStatement _ value h =>
      have hv := hpart (by simp [Node.children]) h (by decide)
      simp only [Node.map, compose]
      cases (r.types.get? value.id).getD .error <;>
        exact (hv.quiet (by simp [Fragment.Closed, Line.targets])
          (by simp [Instr.dest?, Instr.stores])).quiet
          (by simp [Template.call, Fragment.Closed, Line.targets])
          (by simp [Template.call, Instr.dest?, Instr.stores])
    | intLiteral | boolLiteral | stringLiteral | variableRef =>
      exact obeys_quiet
        (by simp [compose, Node.map, Template.loadImmediate, Template.loadAddress,
          Template.loadVariable, Fragment.Closed, Line.targets])
        (by simp [compose, Node.map, Template.loadImmediate, Template.loadAddress,
          Template.loadVariable, Instr.dest?, Instr.stores])
    | parenthesized h => exact hexpr (by simp [Node.children]) h
    | @unary _ op e h =>
      have he := hexpr (by simp [Node.children]) h
      cases op <;> exact he.quiet (by simp [Fragment.Closed, Line.targets])
        (by simp [Instr.dest?, Instr.stores])
    | mulDiv hl hr | compare hl hr =>
      exact frame_binary _ (hexpr (by simp [Node.children]) hl) (hexpr (by simp [Node.children]) hr)
    | addSub hl hr =>
      have hl := hexpr (by simp [Node.children]) hl
      have hr := hexpr (by simp [Node.children]) hr
      simp only [Node.map, compose]
      split
      · exact frame_concatStrings _ hl hr
      · exact frame_binary _ hl hr

end wired

namespace Mips.Image

variable {m : Image} {w : Watch} {P : State → Prop} {R : State → State → Prop} {s₀ s : State}
  {assembly : Assembly} {code : Fragment}

theorem Obeys.exit (h : m.Obeys w P code R)
    (hli : ∀ s s', P s → R s s' → m.code[s'.pc]? = some (.li .v0 10) → w.good s')
    (hcall : ∀ s s', P s → R s s' → m.code[s'.pc + 1]? = some .syscall →
      w.good (s'.set .v0 (.word 10))) :
    m.Obeys w P (code ++ Template.call Service.exit.code) fun _ _ ↦ False := by
  have hexit : m.Obeys w (fun s' ↦ ∃ s, P s ∧ R s s') (Template.call Service.exit.code)
      fun _ _ ↦ False := by
    refine obeys_instrs [.li .v0 10, .syscall] (by simp [Instr.sequential]) ?_
    rintro s' ⟨s, hs, h⟩ hget
    refine .inr ⟨hli s s' hs h hget, fun t ht hget' ↦ ?_⟩
    obtain rfl : s'.set .v0 (.word 10) = t := Option.some.inj ht
    refine .inr ⟨hcall s s' hs h hget', fun u hu ↦ ?_⟩
    simp [State.exec, State.callService, Value.word?, Service.word, Service.code] at hu
  exact h.append hexit (fun s s' hs h ↦ ⟨s, hs, h⟩) fun _ _ _ _ _ h ↦ h

theorem Carries.outcome (hm : m.Carries assembly code)
    (h : m.Obeys w P (code ++ Template.call Service.exit.code) fun _ _ ↦ False)
    (hs₀ : m.Starts s₀) (hP : P s₀) (hs : m.Steps s₀ s) :
    (∃ t, m.Steps s₀ t ∧ m.Steps t s ∧ w.excuse t) ∨ w.good s := by
  obtain ⟨pc, pc', hpc, hcode⟩ := hm.code
  obtain rfl : pc = s₀.pc := Option.some.inj (hpc.symm.trans hs₀.pc)
  rcases Confines.outcome (fun n ↦ h (n := n) hcode hP) hs with ⟨t, ht, hts, he⟩ | ⟨-, -, hg⟩ |
    ⟨t, -, -, -, hf⟩
  · exact .inl ⟨t, ht.steps, hts, he⟩
  · exact .inr hg
  · exact hf.elim

end Mips.Image

namespace Arena

variable {a : Arena} {root : NodeId} {functions : List Tree} {main : Tree} {s : Typing}
  {g : Generation}

theorem Compiles.wired_main (h : a.Compiles root functions main s g)
    (hg : Derives .program (.mk root (.program functions main))) :
    Wired s.analysis g.part g.places main := by
  obtain rfl := Typing.functions_eq_nil hg h.accepted.plain
  cases hg with
  | program _ hmain =>
    cases hmain with
    | @executableBlock j vars body hv hb =>
      obtain ⟨-, hpart⟩ := h.coded_main
      refine .mk (p := g.places) ?_ (by simp [Node.variableName?]) (by simp [Node.kind]) h.wired
      rw [hpart]
      cases vars <;> simp [compose, Node.map]

theorem Compiles.onStack (h : a.Compiles root functions main s g)
    (hg : Derives .program (.mk root (.program functions main))) {m : Image} {s₀ t : State}
    (hm : m.Carries (g.assembly root) (g.part main.id)) (hs₀ : m.Starts s₀)
    (ht : m.Steps s₀ t) : t.OnStack := by
  have hd : Derives .executableBlock main := by
    cases hg with
    | program _ hmain => exact hmain
  have hmain := (h.wired_main hg).obeys (m := m) hd (by decide)
  have hcode := hmain.exit (fun s s' hs hf _ ↦ hf.onStack hs) fun s s' hs hf _ ↦ hf.onStack hs
  rcases hm.outcome hcode hs₀ ⟨0, hs₀.sp⟩ ht with ⟨_, -, -, hf⟩ | h
  · exact hf.elim
  · exact h

/-- The stack and memory discipline of compiled programs. The fragment of every node below the main
block stands in every image of the program. When the machine, in a run of the program, is at the
start of the fragment and later executes something else, then it has come to the end of the fragment
without leaving it in between; there the stack pointer is what it was, and a byte of memory that has
changed is in a cell, on the stack below the stack pointer or in what was allocated in the
fragment. If the node is an expression, no cell has changed. -/
theorem fragments_framed (hv : a.validate = .ok root)
    (hp : a.Holds (.mk root (.program functions main)))
    (hg : Derives .program (.mk root (.program functions main))) {text : String}
    (htext : (a.compile .asm).outcome.result = .ok (.ok text)) :
    ∃ assembly code, (a.analyze root >>= a.generate root).outcome.result = .ok (.ok assembly) ∧
      assembly.text = text ∧ assembly.code.get? main.id = some code ∧
      ∀ m : Image, m.Carries assembly code → ∀ t : Tree, t.Within main →
        ∃ f, assembly.code.get? t.id = some f ∧ (∃ lo hi, CodeAt m lo f hi) ∧
          ∀ lo hi s₀ s s', CodeAt m lo f hi → m.Starts s₀ → m.Steps s₀ s → s.pc = lo →
            m.Steps s s' → ¬(lo ≤ s'.pc ∧ s'.pc < hi) →
            ∃ u, m.StepsIn lo hi s u ∧ u.pc = hi ∧ m.Steps u s' ∧
              s.Frame (m.CellByte (assembly.cells.toList.map Cell.label)) u ∧
              (Derives .expression t → ∀ q,
                m.CellByte (assembly.cells.toList.map Cell.label) q → u.memory q = s.memory q) := by
  obtain ⟨s, g, hc, rfl⟩ := hp.exists_compiles hv htext
  have hmain : a.Holds main := hp.child (by simp [Node.children])
  have hget {i : NodeId} (hi : a.Reaches main.id i) : g.code.get? i = some (g.part i) := by
    refine hc.get?_code ?_
    rw [Tree.ids_mk, List.mem_append]
    exact .inl (List.mem_flatMap.2 ⟨main, by simp [Node.children], hmain.reaches_iff.1 hi⟩)
  refine ⟨g.assembly root, g.part main.id, hc.result_generate, rfl, hget .refl, ?_⟩
  intro m hm t ht
  have hreach : a.Reaches main.id t.id := by
    obtain ⟨v, ho⟩ := ht.occurs globalScope
    exact hmain.reaches_iff.2 ho.mem_ids
  refine ⟨g.part t.id, hget hreach, ?_, fun lo hi s₀ u u' hcode hs₀ hu hpc hu' hout ↦ ?_⟩
  · obtain ⟨pc, pc', -, hat⟩ := hm.code
    obtain ⟨mid, hat, -⟩ := codeAt_append.1 hat
    obtain ⟨lo, hi, -, -, hcode⟩ := hat.of_infix (hc.infix_main hreach)
    exact ⟨lo, hi, hcode⟩
  · subst hpc
    have hstack := hc.onStack hg hm hs₀ hu
    have hframe {N : Nonterminal} (hN : N ≠ .program) (hd : Derives N t) :
        ∃ v, m.StepsIn u.pc hi u v ∧ v.pc = hi ∧ m.Steps v u' ∧
          u.Frame (N.writes m g.places.cellLabels) v := by
      have hobeys := ((hc.wired_main hg).within ht).obeys (m := m) hd hN
      rcases Image.Confines.outcome (fun n ↦ hobeys (n := n) hcode hstack) hu' with
        ⟨_, -, -, hf⟩ | ⟨-, hin, -⟩ | ⟨v, hv, hvu, hpc, hf⟩
      · exact hf.elim
      · exact absurd hin hout
      · exact ⟨v, hv, hpc, hvu, hf⟩
    by_cases he : Derives .expression t
    · obtain ⟨v, hv, hpc, hvu, hf⟩ := hframe (by decide) he
      refine ⟨v, hv, hpc, hvu, hf.mono fun _ h ↦ h.elim, ?_⟩
      rintro - q ⟨x, -, p, hp, hr, -⟩
      by_contra hne
      rw [Image.region_of_place? hp] at hr
      rcases hf.memory q hne with h | ⟨h, -⟩ | ⟨h, -⟩
      · exact h
      · simp [hr] at h
      · simp [hr] at h
    · have hd : Derives .executableBlock main := by
        cases hg with
        | program _ hmain => exact hmain
      obtain ⟨N, hN, hd⟩ := hd.within (by decide) ht
      obtain ⟨v, hv, hpc, hvu, hf⟩ := hframe hN hd
      have hne : N ≠ .expression := fun h ↦ he (h ▸ hd)
      rw [Nonterminal.writes, if_neg hne] at hf
      exact ⟨v, hv, hpc, hvu, hf, fun h ↦ absurd h he⟩

end Arena

/-- The program
```
var s : String = "a" + "b"
print s
```
-/
def greeting : Arena where
  nodes := #[.stringLiteral "a", .stringLiteral "b", .addSub .add ⟨0⟩ ⟨1⟩,
    .variableDeclaration "s" .string (some ⟨2⟩), .variableBlock [⟨3⟩], .variableRef "s",
    .printStatement ⟨5⟩, .statementBlock [⟨6⟩], .executableBlock (some ⟨4⟩) ⟨7⟩, .program [] ⟨8⟩]
  root := some ⟨9⟩

namespace greeting

def sum : Tree :=
  .mk ⟨2⟩ (.addSub .add (.mk ⟨0⟩ (.stringLiteral "a")) (.mk ⟨1⟩ (.stringLiteral "b")))

def declaration : Tree := .mk ⟨3⟩ (.variableDeclaration "s" .string (some sum))

def output : Tree := .mk ⟨6⟩ (.printStatement (.mk ⟨5⟩ (.variableRef "s")))

def main : Tree :=
  .mk ⟨8⟩ (.executableBlock (some (.mk ⟨4⟩ (.variableBlock [declaration])))
    (.mk ⟨7⟩ (.statementBlock [output])))

theorem validate_eq : greeting.validate = .ok ⟨9⟩ :=
  Arena.validate_of_sound (by decide) (by decide) (by decide)

theorem holds : greeting.Holds (.mk ⟨9⟩ (.program [] main)) := by
  have hsum : greeting.Holds sum := .two rfl rfl (.leaf rfl rfl) (.leaf rfl rfl)
  have hvars : greeting.Holds (.mk ⟨4⟩ (.variableBlock [declaration])) :=
    .one rfl rfl (.one rfl rfl hsum)
  have houtput : greeting.Holds output := .one rfl rfl (.leaf rfl rfl)
  exact .one rfl rfl (.two rfl rfl hvars (.one rfl rfl houtput))

theorem derives : Derives .program (.mk ⟨9⟩ (.program [] main)) := by
  have hsum : Derives .expression sum := .addSub .stringLiteral .stringLiteral
  have houtput : Derives .statement output := .printStatement .variableRef
  refine .program (by simp) (.executableBlock ?_ (.statementBlock (by simpa using houtput)))
  simpa using .variableBlock (by simpa using .variableDeclaration (by simpa using hsum))

theorem exists_text : ∃ text, (greeting.compile .asm).outcome.result = .ok (.ok text) := by
  have h : ((greeting.compileFrom ⟨9⟩ .asm).outcome.result.toOption.bind
      Except.toOption).isSome := by decide +kernel
  obtain ⟨text, htext⟩ := Option.isSome_iff_exists.1 h
  exact ⟨text, Arena.result_compile validate_eq htext⟩

theorem exists_image {assembly : Assembly} {code : Fragment}
    (h : (greeting.analyze ⟨9⟩ >>= greeting.generate ⟨9⟩).outcome.result = .ok (.ok assembly))
    (hcode : assembly.code.get? main.id = some code) : ∃ m : Image, m.Carries assembly code := by
  have hall : ((greeting.analyze ⟨9⟩ >>= greeting.generate ⟨9⟩).outcome.result.toOption.bind
      Except.toOption).all fun assembly ↦ (assembly.code.get? main.id).all fun code ↦
        code.all Line.isCode && (Loader.addAll {} (assembly.around code)).isSome := by
    decide +kernel
  have hassembly : code.all Line.isCode && (Loader.addAll {} (assembly.around code)).isSome := by
    simpa [h, hcode, Except.toOption] using hall
  exact Loader.exists_carries hassembly

theorem fragments_framed_at :
    greeting.validate = .ok ⟨9⟩ ∧ greeting.Holds (.mk ⟨9⟩ (.program [] main)) ∧
    Derives .program (.mk ⟨9⟩ (.program [] main)) ∧
    ∃ text assembly code m f lo hi s₀,
      (greeting.compile .asm).outcome.result = .ok (.ok text) ∧
      (greeting.analyze ⟨9⟩ >>= greeting.generate ⟨9⟩).outcome.result = .ok (.ok assembly) ∧
      assembly.code.get? main.id = some code ∧ m.Carries assembly code ∧
      assembly.code.get? sum.id = some f ∧ CodeAt m lo f hi ∧ m.Starts s₀ ∧
      ∀ s s', m.Steps s₀ s → s.pc = lo → m.Steps s s' → ¬(lo ≤ s'.pc ∧ s'.pc < hi) →
        ∃ u, m.StepsIn lo hi s u ∧ u.pc = hi ∧ m.Steps u s' ∧
          s.Frame (m.CellByte (assembly.cells.toList.map Cell.label)) u ∧
          ∀ q, m.CellByte (assembly.cells.toList.map Cell.label) q → u.memory q = s.memory q := by
  obtain ⟨text, htext⟩ := exists_text
  obtain ⟨assembly, code, hassembly, -, hcode, hframed⟩ :=
    Arena.fragments_framed validate_eq holds derives htext
  obtain ⟨m, hm⟩ := exists_image hassembly hcode
  have hwithin : sum.Within main := .child (c := .mk ⟨4⟩ (.variableBlock [declaration]))
    (by simp [Node.children]) (.child (c := declaration) (by simp [Node.children])
      (.child (c := sum) (by simp [Node.children]) .refl))
  obtain ⟨f, hf, ⟨lo, hi, hat⟩, hrun⟩ := hframed m hm sum hwithin
  obtain ⟨pc, -, hpc, -⟩ := hm.code
  obtain ⟨s₀, hs₀⟩ := Image.exists_starts hpc
  refine ⟨validate_eq, holds, derives, text, assembly, code, m, f, lo, hi, s₀, htext, hassembly,
    hcode, hm, hf, hat, hs₀, fun s s' hs hlo hs' hout ↦ ?_⟩
  obtain ⟨u, hu, hend, hus', hframe, hcells⟩ := hrun lo hi s₀ s s' hat hs₀ hs hlo hs' hout
  exact ⟨u, hu, hend, hus', hframe, hcells (.addSub .stringLiteral .stringLiteral)⟩

end greeting

end SpimCompiler
