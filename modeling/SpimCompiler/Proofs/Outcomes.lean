import SpimCompiler.Compilation
import SpimCompiler.Proofs.GeneratedCode

namespace SpimCompiler

open Mips ScopeTree

theorem Json.prettyText_arr_eq_brackets (vs : List Json) :
    (Json.arr vs).prettyText = "[]" ↔ vs = [] := by
  cases vs with
  | nil => simp [prettyText, pretty]
  | cons v vs =>
    simp only [prettyText, pretty, newline, reduceCtorEq, iff_false]
    intro h
    simpa using congrArg String.toList h

theorem Report.prettyText_eq_brackets (report : Report) :
    (Report.toJson report).prettyText = "[]" ↔ report = #[] := by
  simp [Report.toJson, Json.prettyText_arr_eq_brackets]

namespace Arena

variable {a : Arena} {i : NodeId} {functions : List Tree} {main : Tree}

/-- What the generator relies on: the program is without rejected constructs, its blocks have their
scopes, and variables and types are found. -/
structure Accepted (r : Analysis) (t : Tree) : Prop where
  plain : t.Plain
  placed : t.Placed r.scopes globalScope
  ready : t.Ready r.scopes r.types globalScope

/-- The analysis comes to an end. It starts its second pass with the diagnostics of the first, and
if there are none behind that, the program is accepted. -/
theorem ends_analyze (ha : a.IsForest) (ht : a.Holds (.mk i (.program functions main)))
    (run : Run Unit) :
    (a.analyze i).Ends run fun r _ ↦
      (∃ s, Typing.Judged a.phraseOf [.mk i (.program functions main)]
        { scopes := forMain main
          report := (Tree.mk i (.program functions main)).rejections.toArray } s ∧
        r = ⟨s.scopes, s.types, s.report⟩) ∧
      (r.report = #[] → Accepted r (.mk i (.program functions main))) := by
  have hwalk {σ : Type} (v : Visitor σ) :
      a.walk v i = (Tree.mk i (.program functions main)).walk v := ht.walk_eq ha v
  have hplaced := ht.placed ha
  simp only [analyze, hwalk, Pass.ends_bind, Pass.ends_inside, Pass.ends_log, Pass.ends_pure]
  refine (Binding.ends_walk_program ha ht run.trace).mono fun _ r hr ↦ ?_
  rw [hr.1, hr.2]
  refine (Typing.ends_walk ha ht _ hplaced).mono fun _ r' hr' ↦ ⟨⟨_, hr', rfl⟩, fun he ↦ ?_⟩
  have hp : (Tree.mk i (.program functions main)).Plain := by
    simpa [Tree.plain_iff_rejections] using hr'.grows.report_empty he
  obtain ⟨-, hready⟩ := hr'.checked (Typing.sound_forMain main _) (by simpa using hplaced)
  exact ⟨hp, hplaced.extends hr'.grows.scopes, hready he _ (by simp) hp⟩

theorem ends_generate (ha : a.IsForest) {t : Tree} (ht : a.Holds t) {r : Analysis}
    (he : r.report = #[]) (hr : Accepted r t) (run : Run Unit) :
    (a.generate t.id r).Ends run fun res _ ↦ ∃ g : Generation,
      res = .ok ⟨(g.part t.id).text, g.code, g.pool, g.storage.cells⟩ ∧
        Generation.Generated r {} g [t] := by
  have hok : r.isOk := by simp [Analysis.isOk, he]
  have hfresh : ({} : Generation).code.Fresh [t] := ⟨by simpa using ht.nodup_ids ha, by simp⟩
  simp only [generate, hok, if_true, Pass.ends_bind, Pass.ends_inside, Pass.ends_pure,
    ht.walk_eq ha]
  exact (Generation.ends_walk hr.plain hr.ready hr.placed hfresh).mono
    fun _ r' hr' ↦ ⟨r'.state, rfl, hr'⟩

variable {root : NodeId}

theorem exists_program (h : a.validate = .ok root) :
    a.IsForest ∧ ∃ functions main, a.Holds (.mk root (.program functions main)) := by
  obtain ⟨ha, hroot, functions, main, hp⟩ := validate_eq_ok h
  refine ⟨ha, ?_⟩
  obtain ⟨t, rfl, ht⟩ := ha.exists_tree hp
  obtain ⟨i, n⟩ := t
  cases n with
  | program functions main => exact ⟨functions, main, ht⟩
  | _ => exact absurd (ht.get?.symm.trans hp) (by simp [Node.map])

theorem exists_analysis (h : a.validate = .ok root) :
    ∃ r run, a.analyze root ⟨(), #[]⟩ = .ok r run ∧
      (r.report = #[] → ∃ assembly run', a.generate root r run = .ok (.ok assembly) run') := by
  obtain ⟨ha, functions, main, ht⟩ := exists_program h
  obtain ⟨r, run, hrun, -, hr⟩ := Pass.ends_iff.1 (ends_analyze ha ht ⟨(), #[]⟩)
  refine ⟨r, run, hrun, fun he ↦ ?_⟩
  obtain ⟨res, run', hgen, g, rfl, -⟩ := Pass.ends_iff.1 (ends_generate ha ht he (hr he) run)
  exact ⟨_, run', hgen⟩

theorem result_analyze {r : Analysis} {run : Run Unit}
    (hr : a.analyze root ⟨(), #[]⟩ = .ok r run) : (a.analyze root).outcome.result = .ok r := by
  simp [Pass.outcome, hr]

section result

variable {r : Analysis} {run : Run Unit} (hv : a.validate = .ok root)
  (hr : a.analyze root ⟨(), #[]⟩ = .ok r run)

include hv hr

theorem result_types : (a.compile .types).outcome.result =
    .ok (.ok (TypeTable.toJson r.types).prettyText) := by
  simp [compile, hv, compileFrom, Pass.outcome, bind, EStateM.bind, hr, pure, EStateM.pure]

theorem result_diagnostics : (a.compile .diagnostics).outcome.result =
    .ok (.ok (Report.toJson r.report).prettyText) := by
  simp [compile, hv, compileFrom, Pass.outcome, bind, EStateM.bind, hr, pure, EStateM.pure]

theorem result_asm_of_report (he : r.report ≠ #[]) : (a.compile .asm).outcome.result =
    .ok (.error (.rejected r.report)) := by
  have hok : r.isOk = false := by simpa [Analysis.isOk] using he
  simp [compile, hv, compileFrom, Pass.outcome, bind, EStateM.bind, hr, hok, pure, EStateM.pure]

theorem result_asm_of_generate (he : r.report = #[]) {assembly : Assembly} {run' : Run Unit}
    (hg : a.generate root r run = .ok (.ok assembly) run') :
    (a.compile .asm).outcome.result = .ok (.ok assembly.text) := by
  have hok : r.isOk := by simp [Analysis.isOk, he]
  simp [compile, hv, compileFrom, Pass.outcome, bind, EStateM.bind, hr, hok, hg, pure,
    EStateM.pure]

end result

theorem result_of_defect {d : Defect} (h : a.validate = .error d) (emit : Emit) :
    (a.compile emit).outcome.result = .ok (.error (.malformed d)) := by
  simp [compile, h, Pass.outcome, pure, EStateM.pure]

/-- Every compilation comes to an end without a fault. It fails before the analysis exactly if the
arena is not valid, with the defect that was found. Of a valid arena the types and the diagnostics
are always given; code is given exactly if the list of diagnostics is empty, and otherwise the
compilation fails with these diagnostics. -/
theorem compile_outcomes (a : Arena) :
    (∀ emit, ∃ result, (a.compile emit).outcome.result = .ok result ∧
      (∀ e, result ≠ .error (.generation e)) ∧
      ∀ d, result = .error (.malformed d) ↔ a.validate = .error d) ∧
    ∀ root, a.validate = .ok root → ∃ r : Analysis, (a.analyze root).outcome.result = .ok r ∧
      (a.compile .types).outcome.result = .ok (.ok (TypeTable.toJson r.types).prettyText) ∧
      (a.compile .diagnostics).outcome.result = .ok (.ok (Report.toJson r.report).prettyText) ∧
      ((∃ text, (a.compile .asm).outcome.result = .ok (.ok text)) ↔
        (a.compile .diagnostics).outcome.result = .ok (.ok "[]")) ∧
      ((a.compile .diagnostics).outcome.result ≠ .ok (.ok "[]") →
        (a.compile .asm).outcome.result = .ok (.error (.rejected r.report))) := by
  constructor
  · intro emit
    cases hv : a.validate with
    | error d =>
      refine ⟨_, result_of_defect hv emit, by simp, fun d' ↦ ?_⟩
      simp
    | ok root =>
      obtain ⟨r, run, hr, hg⟩ := exists_analysis hv
      cases emit with
      | types => exact ⟨_, result_types hv hr, by simp, by simp⟩
      | diagnostics => exact ⟨_, result_diagnostics hv hr, by simp, by simp⟩
      | asm =>
        by_cases he : r.report = #[]
        · obtain ⟨assembly, run', hgen⟩ := hg he
          exact ⟨_, result_asm_of_generate hv hr he hgen, by simp, by simp⟩
        · exact ⟨_, result_asm_of_report hv hr he, by simp, by simp⟩
  · intro root hv
    obtain ⟨r, run, hr, hg⟩ := exists_analysis hv
    have hd := result_diagnostics hv hr
    have hempty : (a.compile .diagnostics).outcome.result = .ok (.ok "[]") ↔ r.report = #[] := by
      rw [hd, ← Report.prettyText_eq_brackets]
      simp
    refine ⟨r, result_analyze hr, result_types hv hr, hd, ?_, fun he ↦ ?_⟩
    · rw [hempty]
      refine ⟨fun ⟨text, ht⟩ ↦ ?_, fun he ↦ ?_⟩
      · by_contra he
        rw [result_asm_of_report hv hr he] at ht
        simp at ht
      · obtain ⟨assembly, run', hgen⟩ := hg he
        exact ⟨_, result_asm_of_generate hv hr he hgen⟩
    · exact result_asm_of_report hv hr (hempty.not.1 he)

end Arena

end SpimCompiler
