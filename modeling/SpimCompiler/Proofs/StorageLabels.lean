import SpimCompiler.Proofs.CodeShape
import SpimCompiler.Proofs.Occurrences
import SpimCompiler.Proofs.ScopeContents

namespace SpimCompiler

open Mips ScopeTree

namespace ScopeTree

variable {scopes : ScopeTree} {u v : ScopeId} {x : String}

def Binds (scopes : ScopeTree) (scope x : String) : Prop :=
  ∃ u, scopes.qualifiedName u = scope ∧ (scopes.local? u x).isSome

theorem isSome_local?_of_definingScope? (h : scopes.definingScope? u x = some v) :
    (scopes.local? v x).isSome :=
  List.find?_some (p := fun w ↦ (scopes.local? w x).isSome) h

theorem definingScope?_of_local? (h : (scopes.local? u x).isSome) :
    scopes.definingScope? u x = some u := by
  simp [definingScope?, chain, h]

theorem lt_of_local? (h : (scopes.local? u x).isSome) : u < scopes.scopes.size := by
  obtain ⟨y, hy⟩ := Option.isSome_iff_exists.1 h
  obtain ⟨scope, hscope, -⟩ := Option.bind_eq_some_iff.1 hy
  exact (Array.getElem?_eq_some_iff.1 hscope).1

theorem size_forMain (main : Tree) : (forMain main).scopes.size ≤ 2 := by
  unfold forMain
  split <;> decide

theorem Extends.local?_cases {main : Tree} (h : (forMain main).Extends scopes)
    (hx : (scopes.local? u x).isSome) :
    (u = globalScope ∧ scopes.qualifiedName u = "") ∨
      (u = mainScope ∧ scopes.qualifiedName u = "main") := by
  have hu := lt_of_local? hx
  have hsize := size_forMain main
  rw [h.size] at hu
  rw [h.qualifiedName_eq]
  obtain rfl | rfl : u = globalScope ∨ u = mainScope := by
    simp only [globalScope, mainScope, ScopeId] at *
    omega
  · exact .inl ⟨rfl, qualifiedName_forMain main⟩
  · refine .inr ⟨rfl, ?_⟩
    unfold forMain at hu ⊢
    split
    · exact qualifiedName_withMain
    · rw [if_neg ‹_›] at hu
      exact absurd hu (by decide)

end ScopeTree

/-- A variable that is bound behind the pass was bound before, or is declared in its scope. -/
theorem Typing.Judged.exists_declaration {phrase : NodeId → String} {ts : List Tree}
    {s s' : Typing} (h : Judged phrase ts s s') {v : ScopeId} {x : String}
    (hx : (s'.scopes.local? v x).isSome) :
    (s.scopes.local? v x).isSome ∨ ∃ t ∈ ts, ∃ i type init,
      (Tree.mk i (.variableDeclaration x type init)).Occurs v s.current t := by
  induction h with
  | nil => exact .inl hx
  | skip _ _ ih =>
    rcases ih hx with hx | ⟨t, ht, ho⟩
    · exact .inl hx
    · exact .inr ⟨t, List.mem_cons_of_mem _ ht, ho⟩
  | @cons s s₁ s' i n ts _ hc _ ihc iht =>
    rcases iht hx with hx | ⟨t, ht, ho⟩
    · by_cases hx₁ : (s₁.scopes.local? v x).isSome
      · rcases ihc hx₁ with hx | ⟨c, hm, j, type, init, ho⟩
        · exact .inl hx
        · exact .inr ⟨_, List.mem_cons_self, j, type, init, .inside hm ho⟩
      · cases hb : (s₁.verdict phrase (n.map Tree.id)).binding with
        | none => exact absurd (by simpa [give, inScope, hb] using hx) hx₁
        | some y =>
          obtain ⟨name, type, init, hn, rfl⟩ := eq_of_binding hb
          have hlocal : s₁.current = v ∧ name = x ∧ (s₁.scopes.get? v).isSome := by
            simpa [give, inScope, hb, local?_define, hx₁] using hx
          obtain ⟨rfl, rfl, -⟩ := hlocal
          cases n with
          | variableDeclaration name' type' init' =>
            obtain ⟨rfl, -⟩ : name' = name ∧ type' = type ∧ _ := by simpa [Node.map] using hn
            rw [hc.grows.current]
            exact .inr ⟨_, List.mem_cons_self, i, type', init', .here⟩
          | _ => simp [Node.map] at hn
    · exact .inr ⟨t, List.mem_cons_of_mem _ ht, ho⟩

section cells

variable {r : Analysis} {part : NodeId → Fragment} {u v w : ScopeId} {i : NodeId} {n : Node Tree}
  {t : Tree} {p q : Places} {x : String}

theorem Places.storage_cell (p : Places) (scopes : ScopeTree) (u : ScopeId) (x : String) :
    (p.cell scopes u x).2.storage = (scopes.definingScope? u x).elim p.storage fun w ↦
      (p.storage.allocate (scopes.qualifiedName w) x).2 := by
  unfold cell takeCell
  cases scopes.definingScope? u x <;> rfl

theorem Places.Leads.mem_cells (h : p.Leads r part q) {c : Cell}
    (hc : c ∈ p.storage.cells.toList) : c ∈ q.storage.cells.toList := by
  induction h with
  | refl => exact hc
  | @node _ _ u i n _ hn ih =>
    rw [← hn, storage_compose]
    cases n.variableName? with
    | none => exact ih
    | some x =>
      simp only [Option.elim_some, storage_cell]
      cases r.scopes.definingScope? u x with
      | none => exact ih
      | some w => exact Storage.mem_cells_allocate ih _ x

theorem Places.Leads.serves (h : p.Leads r part q) (hp : p.storage.Serves r.scopes.Binds) :
    q.storage.Serves r.scopes.Binds := by
  induction h with
  | refl => exact hp
  | @node _ _ u i n _ hn ih =>
    rw [← hn, storage_compose]
    cases n.variableName? with
    | none => exact ih
    | some x =>
      simp only [Option.elim_some, storage_cell]
      cases hw : r.scopes.definingScope? u x with
      | none => exact ih
      | some w => exact (ih.allocate ⟨w, rfl, isSome_local?_of_definingScope? hw⟩).2.1

theorem Places.label_cell (hp : p.storage.Serves r.scopes.Binds)
    (hw : r.scopes.definingScope? u x = some w) :
    (p.cell r.scopes u x).1 = Cell.labelFor (r.scopes.qualifiedName w) x := by
  obtain ⟨hlabel, -⟩ := hp.allocate (x := x) ⟨w, rfl, isSome_local?_of_definingScope? hw⟩
  simpa [cell, takeCell, hw] using hlabel

theorem Node.innerScope_of_variableName? {ι : Type} {n : Node ι} (h : n.variableName? = some x)
    (u : ScopeId) : n.innerScope u = u := by
  cases n with
  | executableBlock => simp [variableName?] at h
  | _ => rfl

/-- The code of a node that declares, assigns or reads a variable is made with the cell of that. -/
theorem Coded.exists_cell (h : Coded r part u [t] p q) (ho : (Tree.mk i n).Occurs v u t)
    (hx : n.variableName? = some x) (hw : r.scopes.definingScope? v x = some w)
    (hp : p.storage.Serves r.scopes.Binds) :
    ∃ p' q', compose r v part i p' (n.map Tree.id) = (part i, q') ∧
      (p'.cell r.scopes v x).1 = Cell.labelFor (r.scopes.qualifiedName w) x ∧
      Cell.of (r.scopes.qualifiedName w) x ∈ q.storage.cells.toList := by
  obtain ⟨p', q', hp', hcode, hq⟩ := h.occurs ho
  cases hcode with
  | @cons _ _ _ _ _ p₁ q₁ _ hc hi hnil =>
    cases hnil
    rw [Node.innerScope_of_variableName? hx] at hi
    have hserves := hc.leads.serves (hp'.serves hp)
    obtain ⟨-, -, hmem⟩ := hserves.allocate (x := x)
      ⟨w, rfl, isSome_local?_of_definingScope? hw⟩
    refine ⟨p₁, q', hi, Places.label_cell hserves hw, hq.mem_cells ?_⟩
    have hstorage := storage_compose r v part i p₁ (n.map Tree.id)
    rw [hi, Node.variableName?_map, hx, Option.elim_some, Places.storage_cell, hw] at hstorage
    rw [hstorage]
    exact hmem

end cells

theorem Mips.Cell.labelFor_global (x : String) : Cell.labelFor "" x = "var_" ++ x := by
  rw [labelFor, if_pos (by decide)]

theorem Mips.Cell.labelFor_global_eq_main (x y : String) :
    Cell.labelFor "" x = Cell.labelFor "main" y ↔ x = "main_" ++ y := by
  have h : "var_main_" = "var_" ++ "main_" := by decide
  rw [labelFor_global, labelFor_main, h, String.append_assoc]
  simp

theorem Mips.Cell.labelFor_global_injective : Function.Injective (Cell.labelFor "") := by
  intro x y h
  simpa [labelFor_global] using h

theorem Generation.Generated.part_root {r : Analysis} {g : Generation} {i : NodeId}
    {functions : List Tree} {main : Tree}
    (h : Generated r {} g [.mk i (.program functions main)]) :
    g.part i = Template.program (g.storage.cells.toList.map fun c ↦ .word c.label)
      (g.pool.entries.toList.map fun c ↦ .asciiz c.label c.value) (g.part main.id) := by
  cases h.coded with
  | @cons _ _ _ _ _ q _ _ _ hi hnil =>
    have hplaces : q = g.places := by
      cases hnil
      exact congrArg Prod.snd hi
    rw [hplaces] at hi
    exact (congrArg Prod.fst hi).symm

namespace Arena

variable {a : Arena} {root : NodeId} {functions : List Tree} {main : Tree} {s : Typing}
  {g : Generation}

theorem Compiles.local?_cases (h : a.Compiles root functions main s g) {u : ScopeId} {x : String}
    (hx : (s.scopes.local? u x).isSome) :
    (u = globalScope ∧ s.scopes.qualifiedName u = "") ∨
      (u = mainScope ∧ s.scopes.qualifiedName u = "main") := by
  have hext : (forMain main).Extends s.scopes := h.judged.grows.scopes
  exact hext.local?_cases hx

theorem Compiles.serves (h : a.Compiles root functions main s g) :
    g.storage.Serves s.scopes.Binds :=
  h.generated.coded.leads.serves ⟨by simp [Generation.places], by simp [Generation.places]⟩

theorem Compiles.mem_cells_iff (h : a.Compiles root functions main s g) (c : Cell) :
    c ∈ g.storage.cells.toList ↔
      ∃ u x, (s.scopes.local? u x).isSome ∧ c = Cell.of (s.scopes.qualifiedName u) x := by
  constructor
  · intro hc
    obtain ⟨hcell, u, hu, hx⟩ := h.serves.cell c hc
    exact ⟨u, c.name, hx, hu ▸ hcell⟩
  · rintro ⟨u, x, hx, rfl⟩
    rcases h.judged.exists_declaration hx with hx' | ⟨t, ht, i, type, init, ho⟩
    · simp [local?_forMain] at hx'
    · obtain rfl := List.mem_singleton.1 ht
      obtain ⟨-, -, -, -, hmem⟩ := h.generated.coded.exists_cell ho rfl
        (definingScope?_of_local? hx) ⟨by simp [Generation.places], by simp [Generation.places]⟩
      exact hmem

theorem Compiles.eq_or_clash (h : a.Compiles root functions main s g) {u v : ScopeId}
    {x y : String} (hx : (s.scopes.local? u x).isSome) (hy : (s.scopes.local? v y).isSome)
    (he : Cell.labelFor (s.scopes.qualifiedName u) x = Cell.labelFor (s.scopes.qualifiedName v) y) :
    (u = v ∧ x = y) ∨ (u = globalScope ∧ v = mainScope ∧ x = "main_" ++ y) ∨
      (u = mainScope ∧ v = globalScope ∧ y = "main_" ++ x) := by
  rcases h.local?_cases hx with ⟨rfl, hu⟩ | ⟨rfl, hu⟩ <;>
    rcases h.local?_cases hy with ⟨rfl, hv⟩ | ⟨rfl, hv⟩ <;>
    simp only [hu, hv] at he
  · exact .inl ⟨rfl, Cell.labelFor_global_injective he⟩
  · exact .inr (.inl ⟨rfl, rfl, (Cell.labelFor_global_eq_main x y).1 he⟩)
  · exact .inr (.inr ⟨rfl, rfl, (Cell.labelFor_global_eq_main y x).1 he.symm⟩)
  · exact .inl ⟨rfl, Cell.labelFor_main_injective he⟩

/-- The storage of a compiled program has one cell for each variable that is bound in its scopes,
and a word in the data for each cell. The labels of the cells are distinct exactly if there is no
`x` in the main block beside a `main_x` of the global scope. -/
theorem nodup_labels_cells_iff {text : String}
    (h : (a.compile .asm).outcome.result = .ok (.ok text)) :
    ∃ root r assembly, a.validate = .ok root ∧ (a.analyze root).outcome.result = .ok r ∧
      (a.analyze root >>= a.generate root).outcome.result = .ok (.ok assembly) ∧
      (∃ strings code, text = Fragment.text (Template.program
        (assembly.cells.toList.map fun c ↦ .word c.label) strings code)) ∧
      (assembly.cells.toList.map fun c ↦ (c.scope, c.name)).Nodup ∧
      (∀ c, c ∈ assembly.cells ↔ ∃ u x, (r.scopes.local? u x).isSome ∧
        c = Cell.of (r.scopes.qualifiedName u) x) ∧
      (∀ u x, (r.scopes.local? u x).isSome → (u = globalScope ∧ r.scopes.qualifiedName u = "") ∨
        (u = mainScope ∧ r.scopes.qualifiedName u = "main")) ∧
      ((assembly.cells.toList.map Cell.label).Nodup ↔
        ∀ x, ¬((r.scopes.local? globalScope ("main_" ++ x)).isSome ∧
          (r.scopes.local? mainScope x).isSome)) := by
  obtain ⟨root, functions, main, s, g, hc, rfl⟩ := exists_compiles h
  refine ⟨root, s.analysis, g.assembly root, hc.valid, hc.result_analyze, hc.result_generate,
    ⟨_, _, congrArg Fragment.text hc.generated.part_root⟩, hc.serves.nodup, ?_,
    fun u x hx ↦ hc.local?_cases hx, ?_⟩
  · simpa [Generation.assembly, Typing.analysis] using hc.mem_cells_iff
  · refine (List.nodup_map_iff_inj_on (hc.serves.nodup.of_map _)).trans ⟨?_, ?_⟩
    · rintro hinj x ⟨hg, hm⟩
      have hgc := (hc.mem_cells_iff _).2 ⟨_, _, hg, rfl⟩
      have hmc := (hc.mem_cells_iff _).2 ⟨_, _, hm, rfl⟩
      obtain ⟨-, hgq⟩ := (hc.local?_cases hg).resolve_right (by simp [globalScope, mainScope])
      obtain ⟨-, hmq⟩ := (hc.local?_cases hm).resolve_left (by simp [globalScope, mainScope])
      rw [hgq] at hgc
      rw [hmq] at hmc
      have heq := hinj _ hgc _ hmc ((Cell.labelFor_global_eq_main _ x).2 rfl)
      simpa [Cell.of] using congrArg Cell.scope heq
    · intro hno c hcm d hdm he
      obtain ⟨u, x, hx, rfl⟩ := (hc.mem_cells_iff c).1 hcm
      obtain ⟨v, y, hy, rfl⟩ := (hc.mem_cells_iff d).1 hdm
      rcases hc.eq_or_clash hx hy he with ⟨rfl, rfl⟩ | ⟨rfl, rfl, rfl⟩ | ⟨rfl, rfl, rfl⟩
      · rfl
      · exact absurd ⟨hx, hy⟩ (hno y)
      · exact absurd ⟨hy, hx⟩ (hno x)

end Arena

def clash : Arena where
  nodes := #[.variableDeclaration "main_x" .int none, .variableDeclaration "x" .int none,
    .variableBlock [⟨1⟩], .statementBlock [], .executableBlock (some ⟨2⟩) ⟨3⟩, .program [⟨0⟩] ⟨4⟩]
  root := some ⟨5⟩

namespace clash

def text : String :=
  ".data\nbool_true: .asciiz \"true\"\nbool_false: .asciiz \"false\"\nvar_main_x: .word 0\n" ++
    "var_main_x: .word 0\n.text\nmain:\nli     $v0 10\nsyscall\n"

theorem validate_eq : clash.validate = .ok ⟨5⟩ :=
  Arena.validate_of_sound (by decide) (by decide) (by decide)

theorem compile_eq : (clash.compile .asm).outcome.result = .ok (.ok text) :=
  Arena.result_compile validate_eq (by decide +kernel)

theorem nodup_labels_cells_iff_at :
    (clash.compile .asm).outcome.result = .ok (.ok text) ∧ ∃ r assembly,
      (clash.analyze ⟨5⟩).outcome.result = .ok r ∧
      (clash.analyze ⟨5⟩ >>= clash.generate ⟨5⟩).outcome.result = .ok (.ok assembly) ∧
      (∀ c, c ∈ assembly.cells ↔ ∃ u x, (r.scopes.local? u x).isSome ∧
        c = Cell.of (r.scopes.qualifiedName u) x) ∧
      ((assembly.cells.toList.map Cell.label).Nodup ↔
        ∀ x, ¬((r.scopes.local? globalScope ("main_" ++ x)).isSome ∧
          (r.scopes.local? mainScope x).isSome)) := by
  obtain ⟨root, r, assembly, hv, hr, hg, -, -, hcells, -, hiff⟩ :=
    Arena.nodup_labels_cells_iff compile_eq
  obtain rfl : root = ⟨5⟩ := by simpa using hv.symm.trans validate_eq
  exact ⟨compile_eq, r, assembly, hr, hg, hcells, hiff⟩

/-- The two words in the data have one label. -/
theorem labels_cells_eq :
    (clash.compile .asm).outcome.result = .ok (.ok text) ∧
      (clash.analyze ⟨5⟩ >>= clash.generate ⟨5⟩).outcome.result.map (·.map Assembly.cells) =
        .ok (.ok #[⟨"var_main_x", "", "main_x"⟩, ⟨"var_main_x", "main", "x"⟩]) :=
  ⟨compile_eq, by decide +kernel⟩

end clash

end SpimCompiler
