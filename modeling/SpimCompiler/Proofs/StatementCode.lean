import SpimCompiler.Proofs.CodeShape
import SpimCompiler.Proofs.ExpressionCode

namespace SpimCompiler.Mips

variable {m : Image} {cells : List String} {σ σ' σ'' : Store} {s s' : State}

theorem Image.HasCell.wordMapped {name : String} {k : Nat} (h : m.HasCell name k) (s : State) :
    s.wordMapped m ⟨.data, k⟩ := by
  obtain ⟨hlt, -⟩ := List.getElem?_eq_some_iff.1 (h.zero 3 (by decide))
  have hal := h.aligned
  have hal' : (k : Int) % 4 = 0 := by omega
  have hk₀ : (k : Int) < m.data.length := by omega
  have hk₃ : (k : Int) + 3 < m.data.length := by omega
  have hk₃' : 0 ≤ (k : Int) + 3 := by omega
  simp [State.wordMapped, State.mapped, Place.shift, hal', hk₀, hk₃, hk₃']

theorem Layout.exists_place (hl : Layout m cells) {name : String} (hx : name ∈ cells) (s : State) :
    ∃ k : Nat, m.place? name = some ⟨.data, k⟩ ∧ k % 4 = 0 ∧ 11 ≤ k ∧
      s.wordMapped m ⟨.data, k⟩ := by
  obtain ⟨k, hk, hle⟩ := hl.cell name hx
  exact ⟨k, by simp [Image.place?, hk.lookup], hk.aligned, hle, hk.wordMapped s⟩

theorem Layout.place_ne (hl : Layout m cells) {x y : String} (hx : x ∈ cells) (hy : y ∈ cells)
    (hxy : x ≠ y) {k k' : Nat} (hk : m.place? x = some ⟨.data, k⟩)
    (hk' : m.place? y = some ⟨.data, k'⟩) : k ≠ k' := by
  rintro rfl
  obtain ⟨j, hj, -⟩ := hl.cell x hx
  obtain ⟨j', hj', -⟩ := hl.cell y hy
  simp only [Image.place?, hj.lookup, hj'.lookup, Option.some.injEq, Place.mk.injEq, true_and,
    Int.natCast_inj] at hk hk'
  subst hk hk'
  exact hxy (hl.distinct x hx y hy (hj.lookup.trans hj'.lookup.symm))

/-- A word stored in the cell of a variable changes the value of that variable alone. -/
theorem Represents.store (hl : Layout m cells) (h : Represents m cells σ s) {x : String} {k : Nat}
    (hx : Cell.labelFor "main" x ∈ cells) (hk : m.place? (Cell.labelFor "main" x) = some ⟨.data, k⟩)
    {v : Datum} (hs' : s'.memory = s.putWord ⟨.data, k⟩ (.word v.word)) :
    Represents m cells (σ.set x v) s' := by
  obtain ⟨j, hj, hal, hle, hmapped⟩ := hl.exists_place hx s'
  obtain rfl : k = j := by simpa [Int.natCast_inj] using hk.symm.trans hj
  refine ⟨fun y w hy ↦ ?_, fun i hi ↦ ?_⟩
  · by_cases hxy : y = x
    · subst hxy
      obtain rfl : v = w := by simpa [Store.set] using hy
      exact ⟨hx, _, hk, State.loadWord_putWord hmapped hs'⟩
    · obtain ⟨hmem, p, hp, hw⟩ := h.cell y w (by simpa [Store.set, hxy] using hy)
      obtain ⟨k', hk', hal', -, -⟩ := hl.exists_place hmem s
      obtain rfl : p = ⟨.data, k'⟩ := Option.some.inj (hp.symm.trans hk')
      have hlabel : Cell.labelFor "main" x ≠ Cell.labelFor "main" y :=
        fun he ↦ hxy (Cell.labelFor_main_injective he).symm
      have hne := hl.place_ne hx hmem hlabel hk hk'
      refine ⟨hmem, _, hp, ?_⟩
      rw [State.loadWord_congr (by simp) fun i hi ↦ ?_, hw]
      rw [hs', State.putWord_of_disjoint]
      intro _
      simp [Place.shift]
      omega
  · rw [hs', State.putWord_of_disjoint, h.texts i hi]
    intro _
    exact .inl (by simp; omega)

def State.goto (s : State) (pc : Nat) : State := { s with pc }

theorem Represents.goto (h : Represents m cells σ s) (pc : Nat) : Represents m cells σ (s.goto pc) :=
  h.of_data fun _ ↦ rfl

theorem State.Stacked.goto {top : Int} (h : s.Stacked top) (pc : Nat) : (s.goto pc).Stacked top :=
  ⟨h.sp, h.nonpos, h.aligned⟩

variable {label : String} {f : Fragment} {pc k : Nat}

theorem steps_beqz {b : Bool} (hc : m.code[s.pc]? = some (.beqz .t0 label))
    (ht : s.regs .t0 = .word (flag b)) (hk : m.target? label = some k) :
    m.Steps s (s.goto (if b then s.pc + 1 else k)) := by
  refine .single ?_
  cases b <;> simp [Image.step, hc, State.exec, ht, flag, Value.word?, State.jump, hk, State.goto,
    State.advance]

theorem steps_j (hc : m.code[s.pc]? = some (.j label)) (hk : m.target? label = some k) :
    m.Steps s (s.goto k) := by
  refine .single ?_
  simp [Image.step, hc, State.exec, State.jump, hk, State.goto]

/-- The code runs through, changes the variables and prints the values. -/
def Performs (m : Image) (cells : List String) (f : Fragment) (σ σ' : Store) (o : List Datum) :
    Prop :=
  ∀ ⦃s : State⦄ ⦃top : Int⦄ ⦃pc : Nat⦄, s.Stacked top → Represents m cells σ s →
    CodeAt m s.pc f pc → ∃ s', m.Steps s s' ∧ s'.pc = pc ∧ s'.Stacked top ∧
      Represents m cells σ' s' ∧ s'.output = s.output ++ o.map fun v ↦ utf8 v.text

variable {g : Fragment} {o o' : List Datum}

theorem performs_nil : Performs m cells [] σ σ [] := by
  intro s top pc hs hrep hc
  exact ⟨s, .refl, (codeAt_nil.1 hc).symm, hs, hrep, by simp⟩

theorem Performs.append (hf : Performs m cells f σ σ' o) (hg : Performs m cells g σ' σ'' o') :
    Performs m cells (f ++ g) σ σ'' (o ++ o') := by
  intro s top pc hs hrep hc
  obtain ⟨_, hcf, hcg⟩ := codeAt_append.1 hc
  obtain ⟨s₁, hsteps₁, rfl, hs₁, hrep₁, ho₁⟩ := hf hs hrep hcf
  obtain ⟨s₂, hsteps₂, rfl, hs₂, hrep₂, ho₂⟩ := hg hs₁ hrep₁ hcg
  exact ⟨s₂, hsteps₁.trans hsteps₂, rfl, hs₂, hrep₂, by simp [ho₂, ho₁]⟩

theorem Yields.storeVariable (hl : Layout m cells) {x : String} {v : Datum}
    (hx : Cell.labelFor "main" x ∈ cells) (h : Yields m cells σ f v.word) :
    Performs m cells (Template.storeVariable f (Cell.labelFor "main" x)) σ (σ.set x v) [] := by
  intro s top pc hs hrep hc
  obtain ⟨_, hcf, hcs⟩ := codeAt_append.1 hc
  obtain ⟨s₁, hsteps₁, rfl, ht, hk⟩ := h hs hrep hcf
  obtain ⟨k, hplace, -, -, hmapped⟩ := hl.exists_place hx s₁
  have hoperand : s₁.operand m (.cell (Cell.labelFor "main" x)) = some ⟨.data, k⟩ := hplace
  have hrun := (State.run_singleton _).trans (State.exec_sw .t0 hoperand hmapped)
  obtain ⟨hsteps₂, hpc⟩ := State.steps_run (f := []) (by simp [Instr.sequential]) hcs hrun
  refine ⟨_, hsteps₁.trans hsteps₂, (codeAt_nil.1 hpc).symm, ?_, ?_, ?_⟩
  · exact ⟨hk.sp.trans hs.sp, hs.nonpos, hs.aligned⟩
  · refine Represents.store hl (hrep.of_data hk.data) hx hplace ?_
    simp [ht]
  · simpa using hk.output

theorem Represents.string_eq (hl : Layout m cells) (h : Represents m cells σ s)
    {k : Int} (before bytes after : List UInt8) (hb : 0 ∉ bytes)
    (ht : utf8 "true" ++ 0 :: utf8 "false" ++ [0] = before ++ (bytes ++ 0 :: after))
    (hk : (before.length : Int) = k) : s.string? m ⟨.data, k⟩ = some bytes := by
  subst hk
  obtain ⟨rest, hrest⟩ := hl.texts
  rw [ht] at hrest
  have hlen : before.length + (bytes.length + 1) + after.length = 11 := by
    have hbytes : (utf8 "true" ++ 0 :: utf8 "false" ++ [0]).length = 11 := by decide
    rw [ht] at hbytes
    simp only [List.length_append, List.length_cons] at hbytes
    omega
  have hdata : m.data.length = before.length + (bytes.length + 1) + after.length + rest.length := by
    simp [← hrest]
    omega
  have hmapped : s.mapped m ⟨.data, before.length⟩ := by
    have hlt : before.length < m.data.length := by omega
    simpa [State.mapped] using hlt
  rw [State.string?, if_pos hmapped]
  refine State.bytesFrom_eq hb (fun k hk ↦ ?_) (by simp; omega)
  have hplace : (⟨.data, before.length⟩ : Place).shift k = ⟨.data, (before.length + k : Nat)⟩ := by
    simp [Place.shift]
  rw [hplace, h.texts _ (by omega), ← hrest]
  have hget : (before ++ (bytes ++ 0 :: after) ++ rest)[before.length + k]? =
      (bytes ++ [0])[k]? := by
    have hsplit : before ++ (bytes ++ 0 :: after) ++ rest =
        before ++ (bytes ++ [0] ++ (after ++ rest)) := by simp
    rw [hsplit, List.getElem?_append_right (by omega), Nat.add_sub_cancel_left,
      List.getElem?_append_left (by simp; omega)]
  rw [List.getD_eq_getElem?_getD, List.getD_eq_getElem?_getD, hget]

theorem Yields.print {w : Word} {v : Datum} (h : Yields m cells σ f w) {is : List Instr}
    (hi : ∀ i ∈ is, i.sequential)
    (hr : ∀ s : State, Represents m cells σ s → s.regs .t0 = .word w → ∃ s', s.run m is = some s' ∧
      s'.regs .sp = s.regs .sp ∧ s'.memory = s.memory ∧ s'.output = s.output ++ [utf8 v.text]) :
    Performs m cells (f ++ is.map .instr) σ σ [v] := by
  intro s top pc hs hrep hc
  obtain ⟨_, hcf, hcs⟩ := codeAt_append.1 hc
  obtain ⟨s₁, hsteps₁, rfl, ht, hk⟩ := h hs hrep hcf
  obtain ⟨s₂, hrun, hsp, hmem, hout⟩ := hr s₁ (hrep.of_data hk.data) ht
  obtain ⟨hsteps₂, hpc⟩ := State.steps_run (f := []) hi (by simpa using hcs) hrun
  refine ⟨s₂, hsteps₁.trans hsteps₂, (codeAt_nil.1 hpc).symm, ?_, ?_, ?_⟩
  · exact ⟨hsp.trans (hk.sp.trans hs.sp), hs.nonpos, hs.aligned⟩
  · exact (hrep.of_data hk.data).of_data fun k ↦ congrFun hmem _
  · simp [hout, hk.output]

def State.print (s : State) (bytes : List UInt8) : State :=
  { s.advance with output := s.output ++ [bytes] }

theorem State.callService_printInt {w : Word} (hv : s.regs .v0 = .word 1)
    (ha : s.regs .a0 = .word w) : s.callService m = some (s.print (utf8 (toString w.toInt))) := by
  simp [callService, hv, ha, Value.word?, Service.word, Service.code, print]

theorem State.callService_printString {p : Place} {bytes : List UInt8} (hv : s.regs .v0 = .word 4)
    (ha : s.regs .a0 = .address p) (hs : s.string? m p = some bytes) :
    s.callService m = some (s.print bytes) := by
  simp [callService, hv, ha, Value.word?, Value.place?, Service.word, Service.code, hs, print]

theorem Yields.printInt {n : Int32} (h : Yields m cells σ f n.toBitVec) :
    Performs m cells (Template.printBy f Service.printInt.code) σ σ [.int n] := by
  have hprint : Performs m cells (f ++ [Instr.move .a0 .t0, .li .v0 1, .syscall].map .instr)
      σ σ [.int n] := by
    refine h.print (by simp [Instr.sequential]) fun s _ ht ↦ ?_
    have hrun : s.run m [.move .a0 .t0, .li .v0 1, .syscall] =
        ((s.set .a0 (.word n.toBitVec)).set .v0 (.word 1)).callService m := by
      simp [State.run, State.exec, ht]
    exact ⟨_, hrun.trans (State.callService_printInt rfl rfl), rfl, rfl, rfl⟩
  simpa [Template.printBy, Template.call, Service.code] using hprint

theorem Yields.printBool (hl : Layout m cells) {b : Bool} (h : Yields m cells σ f (flag b)) :
    Performs m cells (Template.printBool f) σ σ [.bool b] := by
  have hprint : Performs m cells (f ++ [Instr.la .a0 "bool_false", .la .t1 "bool_true",
      .movn .a0 .t1 .t0, .li .v0 4, .syscall].map .instr) σ σ [.bool b] := by
    refine h.print (by simp [Instr.sequential]) fun s hrep ht ↦ ?_
    cases b with
    | true =>
      have hrun : s.run m [.la .a0 "bool_false", .la .t1 "bool_true", .movn .a0 .t1 .t0,
          .li .v0 4, .syscall] = ((((s.set .a0 (.address ⟨.data, 5⟩)).set .t1
            (.address ⟨.data, 0⟩)).set .a0 (.address ⟨.data, 0⟩)).set .v0 (.word 4)).callService
              m := by
        simp [State.run, State.exec, State.set, hl.trueText, hl.falseText, ht, flag, Value.word?]
      refine ⟨_, hrun.trans (State.callService_printString rfl rfl ?_), rfl, rfl, rfl⟩
      refine Represents.string_eq hl (hrep.of_data ?_) [] (utf8 "true") (utf8 "false" ++ [0])
        (by decide) rfl ?_
      · exact fun _ ↦ rfl
      · rfl
    | false =>
      have hrun : s.run m [.la .a0 "bool_false", .la .t1 "bool_true", .movn .a0 .t1 .t0,
          .li .v0 4, .syscall] = (((s.set .a0 (.address ⟨.data, 5⟩)).set .t1
            (.address ⟨.data, 0⟩)).advance.set .v0 (.word 4)).callService m := by
        simp [State.run, State.exec, State.set, State.advance, hl.trueText, hl.falseText, ht, flag,
          Value.word?]
      refine ⟨_, hrun.trans (State.callService_printString rfl rfl ?_), rfl, rfl, rfl⟩
      refine Represents.string_eq hl (hrep.of_data ?_) (utf8 "true" ++ [0]) (utf8 "false") []
        (by decide) rfl ?_
      · exact fun _ ↦ rfl
      · decide
  simpa [Template.printBool, Template.call, Service.code] using hprint

theorem Yields.branch {b : Bool} (h : Yields m cells σ f (flag b)) {top : Int}
    (hs : s.Stacked top) (hrep : Represents m cells σ s)
    (hc : CodeAt m s.pc (f ++ [Line.instr (.beqz .t0 label)]) pc) (hk : m.target? label = some k) :
    ∃ s', m.Steps s s' ∧ s'.pc = (if b then pc else k) ∧ s'.Stacked top ∧
      Represents m cells σ s' ∧ s'.output = s.output := by
  obtain ⟨_, hcf, hcb⟩ := codeAt_append.1 hc
  obtain ⟨s₁, hsteps, rfl, ht, hkeeps⟩ := h hs hrep hcf
  obtain ⟨hget, hpc⟩ := codeAt_instr.1 hcb
  obtain rfl := codeAt_nil.1 hpc
  exact ⟨_, hsteps.trans (steps_beqz hget ht hk), rfl, (hkeeps.stacked hs).goto _,
    (hrep.of_data hkeeps.data).goto _, hkeeps.output⟩

theorem Performs.jump (h : Performs m cells f σ σ' o) {top : Int} (hs : s.Stacked top)
    (hrep : Represents m cells σ s) (hc : CodeAt m s.pc f pc)
    (hj : m.code[pc]? = some (.j label)) (hk : m.target? label = some k) :
    ∃ s', m.Steps s s' ∧ s'.pc = k ∧ s'.Stacked top ∧ Represents m cells σ' s' ∧
      s'.output = s.output ++ o.map fun v ↦ utf8 v.text := by
  obtain ⟨s₁, hsteps, rfl, hs₁, hrep₁, ho⟩ := h hs hrep hc
  exact ⟨_, hsteps.trans (steps_j hj hk), rfl, hs₁.goto _, hrep₁.goto _, ho⟩

variable {c t e : Fragment} {startLabel elseLabel endLabel : String}

theorem Yields.ifThen_true (hc : Yields m cells σ c (flag true)) (ht : Performs m cells t σ σ' o) :
    Performs m cells (Template.ifThen c t endLabel) σ σ' o := by
  intro s top pc hs hrep hcode
  simp only [Template.ifThen, codeAt_append (f := _ ++ _), codeAt_label, codeAt_nil] at hcode
  obtain ⟨_, ⟨_, hcc, hct⟩, hend, rfl⟩ := hcode
  obtain ⟨s₁, hsteps₁, rfl, hs₁, hrep₁, ho₁⟩ := hc.branch hs hrep hcc hend
  obtain ⟨s₂, hsteps₂, rfl, hs₂, hrep₂, ho₂⟩ := ht hs₁ hrep₁ hct
  exact ⟨s₂, hsteps₁.trans hsteps₂, rfl, hs₂, hrep₂, by rw [ho₂, ho₁]⟩

theorem Yields.ifThen_false (hc : Yields m cells σ c (flag false)) :
    Performs m cells (Template.ifThen c t endLabel) σ σ [] := by
  intro s top pc hs hrep hcode
  simp only [Template.ifThen, codeAt_append (f := _ ++ _), codeAt_label, codeAt_nil] at hcode
  obtain ⟨_, ⟨_, hcc, hct⟩, hend, rfl⟩ := hcode
  obtain ⟨s₁, hsteps₁, hpc, hs₁, hrep₁, ho₁⟩ := hc.branch hs hrep hcc hend
  exact ⟨s₁, hsteps₁, hpc, hs₁, hrep₁, by simp [ho₁]⟩

theorem Yields.ifElse_true (hc : Yields m cells σ c (flag true)) (ht : Performs m cells t σ σ' o) :
    Performs m cells (Template.ifElse c t e elseLabel endLabel) σ σ' o := by
  intro s top pc hs hrep hcode
  simp only [Template.ifElse, codeAt_append (f := _ ++ _), codeAt_instr, codeAt_label,
    codeAt_nil] at hcode
  obtain ⟨_, ⟨_, ⟨_, ⟨_, hcc, hct⟩, hj, helse, rfl⟩, hce⟩, hend, rfl⟩ := hcode
  obtain ⟨s₁, hsteps₁, rfl, hs₁, hrep₁, ho₁⟩ := hc.branch hs hrep hcc helse
  obtain ⟨s₂, hsteps₂, hpc, hs₂, hrep₂, ho₂⟩ := ht.jump hs₁ hrep₁ hct hj hend
  exact ⟨s₂, hsteps₁.trans hsteps₂, hpc, hs₂, hrep₂, by rw [ho₂, ho₁]⟩

theorem Yields.ifElse_false (hc : Yields m cells σ c (flag false))
    (he : Performs m cells e σ σ' o) :
    Performs m cells (Template.ifElse c t e elseLabel endLabel) σ σ' o := by
  intro s top pc hs hrep hcode
  simp only [Template.ifElse, codeAt_append (f := _ ++ _), codeAt_instr, codeAt_label,
    codeAt_nil] at hcode
  obtain ⟨_, ⟨_, ⟨_, ⟨_, hcc, hct⟩, hj, helse, rfl⟩, hce⟩, hend, rfl⟩ := hcode
  obtain ⟨s₁, hsteps₁, hpc, hs₁, hrep₁, ho₁⟩ := hc.branch hs hrep hcc helse
  have hce : CodeAt m s₁.pc e pc := by rwa [hpc]
  obtain ⟨s₂, hsteps₂, hpc₂, hs₂, hrep₂, ho₂⟩ := he hs₁ hrep₁ hce
  exact ⟨s₂, hsteps₁.trans hsteps₂, hpc₂, hs₂, hrep₂, by rw [ho₂, ho₁]⟩

theorem codeAt_whileLoop {pc' : Nat} :
    CodeAt m pc (Template.whileLoop c t startLabel endLabel) pc' ↔ m.target? startLabel = some pc ∧
      ∃ body last, CodeAt m pc (c ++ [Line.instr (.beqz .t0 endLabel)]) body ∧
        CodeAt m body t last ∧ m.code[last]? = some (.j startLabel) ∧
        m.target? endLabel = some (last + 1) ∧ pc' = last + 1 := by
  have hloop : Template.whileLoop c t startLabel endLabel = .label startLabel ::
      ((c ++ [Line.instr (.beqz .t0 endLabel)]) ++
        (t ++ [Line.instr (.j startLabel), .label endLabel])) := by
    simp [Template.whileLoop]
  rw [hloop, codeAt_label, codeAt_append]
  simp only [codeAt_append (f := t), codeAt_instr, codeAt_label, codeAt_nil, exists_and_left]

theorem Yields.whileLoop_false (hc : Yields m cells σ c (flag false)) :
    Performs m cells (Template.whileLoop c t startLabel endLabel) σ σ [] := by
  intro s top pc hs hrep hcode
  obtain ⟨-, _, last, hcc, -, -, hend, rfl⟩ := codeAt_whileLoop.1 hcode
  obtain ⟨s₁, hsteps₁, hpc, hs₁, hrep₁, ho₁⟩ := hc.branch hs hrep hcc hend
  exact ⟨s₁, hsteps₁, hpc, hs₁, hrep₁, by simp [ho₁]⟩

/-- A loop whose condition holds runs its body and then starts again. -/
theorem Yields.whileLoop_true (hc : Yields m cells σ c (flag true))
    (ht : Performs m cells t σ σ' o)
    (hw : Performs m cells (Template.whileLoop c t startLabel endLabel) σ' σ'' o') :
    Performs m cells (Template.whileLoop c t startLabel endLabel) σ σ'' (o ++ o') := by
  intro s top pc hs hrep hcode
  obtain ⟨hstart, _, last, hcc, hct, hj, hend, -⟩ := codeAt_whileLoop.1 hcode
  obtain ⟨s₁, hsteps₁, rfl, hs₁, hrep₁, ho₁⟩ := hc.branch hs hrep hcc hend
  obtain ⟨s₂, hsteps₂, hpc₂, hs₂, hrep₂, ho₂⟩ := ht.jump hs₁ hrep₁ hct hj hstart
  obtain ⟨s₃, hsteps₃, hpc₃, hs₃, hrep₃, ho₃⟩ := hw hs₂ hrep₂ (by rwa [hpc₂])
  exact ⟨s₃, hsteps₁.trans (hsteps₂.trans hsteps₃), hpc₃, hs₃, hrep₃, by simp [ho₃, ho₂, ho₁]⟩

end SpimCompiler.Mips
