import SpimCompiler.Proofs.PlacedStrings

namespace SpimCompiler

open Mips ScopeTree

def Assembly.literals (assembly : Assembly) : List String :=
  assembly.pool.entries.toList.map Constant.label

theorem Assembly.literals_subset (assembly : Assembly) : assembly.literals ⊆ assembly.strings :=
  List.subset_append_right _ _

variable {m : Image} {assembly : Assembly} {code : Fragment} {Γ Δ : Env} {s₀ s t : State}
  {bare blank blank' : String → Prop} {i : Instr} {f g : Fragment} {P : State → Prop}
  {R : State → State → Prop}

/-- The state uses only strings that the program has placed. Where it reads the cell of a variable
of type `String`, the address of one is there. Where it prints a text, the address is that of one, or
of the text of a truth value. Where it reads a byte, this is a byte of one, or the zero behind it. -/
structure Mips.Image.Heeds (m : Image) (assembly : Assembly) (Γ : Env) (s₀ t : State) : Prop where
  load (x : String) : Γ.lookup x = some .string →
    m.code[t.pc]? = some (.lw .t0 (.cell (Cell.labelFor "main" x))) →
    ∃ v, t.cell? m (Cell.labelFor "main" x) = some v ∧ m.Refers assembly.literals s₀ t v
  print : m.code[t.pc]? = some .syscall → t.regs .v0 = .word Service.printString.word →
    m.Refers assembly.strings s₀ t (t.regs .a0)
  read (rd : Reg) (o : Address) : m.code[t.pc]? = some (.lb rd o) →
    ∃ p bytes, m.Placed assembly.literals s₀ t p bytes ∧
      ∃ k : Nat, k ≤ bytes.length ∧ t.operand m o = some (p.shift k)

/-- All states heed the strings, up to one that reads the cell of a variable without a value. -/
def stringWatch (m : Image) (assembly : Assembly) (Γ : Env) (s₀ : State) (bare : String → Prop) :
    Watch where
  excuse t := ∃ x, bare x ∧ m.code[t.pc]? = some (.lw .t0 (.cell (Cell.labelFor "main" x))) ∧
    t.cell? m (Cell.labelFor "main" x) = some (.word 0)
  good := m.Heeds assembly Γ s₀

def Mips.Instr.harmless : Instr → Bool
  | .lw .t0 (.cell _) | .lb .. | .syscall => false
  | _ => true

theorem Mips.Image.heeds_of_harmless (hc : m.code[t.pc]? = some i) (hi : i.harmless) :
    m.Heeds assembly Γ s₀ t := by
  refine ⟨fun x _ h ↦ ?_, fun h ↦ ?_, fun rd o h ↦ ?_⟩ <;>
    obtain rfl := Option.some.inj (hc.symm.trans h) <;> cases hi

theorem Mips.Image.heeds_of_syscall (hc : m.code[t.pc]? = some .syscall)
    (h : t.regs .v0 = .word Service.printString.word →
      m.Refers assembly.strings s₀ t (t.regs .a0)) : m.Heeds assembly Γ s₀ t :=
  ⟨fun _ _ hi ↦ (by cases hc.symm.trans hi), fun _ ↦ h, fun _ _ hi ↦ (by cases hc.symm.trans hi)⟩

theorem obeys_harmless (hf : f.Closed) (h : ∀ i, .instr i ∈ f → i.harmless) :
    m.Obeys (stringWatch m assembly Γ s₀ bare) P f fun _ _ ↦ True :=
  Image.obeys_area hf (fun _ _ ↦ trivial)
    (fun _ _ i _ _ hi hc ↦ Image.heeds_of_harmless hc (h i hi)) fun _ _ _ _ _ _ _ _ ↦ trivial

theorem Mips.Image.Obeys.harmless (hf : m.Obeys (stringWatch m assembly Γ s₀ bare) P f R)
    (hg : g.Closed) (h : ∀ i, .instr i ∈ g → i.harmless) :
    m.Obeys (stringWatch m assembly Γ s₀ bare) P (f ++ g) fun _ _ ↦ True :=
  hf.append (obeys_harmless (P := fun _ ↦ True) hg h) (fun _ _ _ _ ↦ trivial)
    fun _ _ _ _ _ _ ↦ trivial

/-- The cells of the variables of type `String` hold addresses of placed strings. A cell that may be
blank can hold zero instead. -/
structure Sound (m : Image) (assembly : Assembly) (Γ : Env) (s₀ : State) (blank : String → Prop)
    (t : State) : Prop where
  stack : t.OnStack
  steps : m.Steps s₀ t
  constant (x : String) : x ∈ assembly.strings →
    ∃ p bytes, m.place? x = some p ∧ m.Placed [x] s₀ t p bytes
  cell (x : String) : Γ.lookup x = some .string →
    (blank x ∧ t.cell? m (Cell.labelFor "main" x) = some (.word 0)) ∨
      ∃ v, t.cell? m (Cell.labelFor "main" x) = some v ∧ m.Refers assembly.literals s₀ t v

namespace Sound

theorem spares (h : Sound m assembly Γ s₀ blank s) (hst : m.Steps s t) (hs : s.Spares t)
    (ht : t.OnStack) : Sound m assembly Γ s₀ blank t := by
  refine ⟨ht, h.steps.trans hst, fun x hx ↦ ?_, fun x hx ↦ ?_⟩
  · obtain ⟨p, bytes, hp, hplaced⟩ := h.constant x hx
    exact ⟨p, bytes, hp, hplaced.spares hst hs⟩
  · rw [hs.cell?_eq]
    refine (h.cell x hx).imp_right ?_
    rintro ⟨v, hv, hr⟩
    exact ⟨v, hv, hr.spares hst hs⟩

theorem frame (h : Sound m assembly Γ s₀ blank s) (hst : m.Steps s t)
    (hf : s.Frame (fun _ ↦ False) t) : Sound m assembly Γ s₀ blank t :=
  h.spares hst hf.spares (hf.onStack h.stack)

theorem refers_constant (h : Sound m assembly Γ s₀ blank s) {labels : List String} {x : String}
    (hl : x ∈ labels) (hx : x ∈ assembly.strings) {p : Place} (hp : m.place? x = some p) :
    m.Refers labels s₀ s (.address p) := by
  obtain ⟨q, bytes, hq, hplaced⟩ := h.constant x hx
  obtain rfl : p = q := Option.some.inj (hp.symm.trans hq)
  exact ⟨p, bytes, rfl, hplaced.mono (by simpa using hl)⟩

theorem store (hm : m.Carries assembly code) (hs₀ : m.Starts s₀)
    (hΓ : ∀ x τ, Γ.lookup x = some τ → Cell.of "main" x ∈ assembly.cells)
    (h : Sound m assembly Γ s₀ blank s) {x : String} {τ : TypeName} (hx : Γ.lookup x = some τ)
    (hv : τ = .string → m.Refers assembly.literals s₀ s (s.regs .t0))
    (hblank : ∀ y, y ≠ x → Γ.lookup y = some .string → blank y → blank' y)
    (hc : m.code[s.pc]? = some (.sw .t0 (.cell (Cell.labelFor "main" x))))
    (he : s.exec m (.sw .t0 (.cell (Cell.labelFor "main" x))) = some t) :
    Sound m assembly Γ s₀ blank' t := by
  have hcell {y : String} {τ : TypeName} (hy : Γ.lookup y = some τ) :
      Cell.labelFor "main" y ∈ assembly.cells.toList.map Cell.label :=
    List.mem_map_of_mem (f := Cell.label) (Array.mem_toList_iff.2 (hΓ y τ hy))
  have hst : m.Steps s t := .single ((Image.step_eq hc).trans he)
  have heff := State.exec_effect he
  have hbrk : t.brk = s.brk := heff.brk_eq (by simp)
  obtain ⟨c, hplace, hmapped, ht⟩ := State.exec_sw_eq he
  have hmem : t.memory = s.putWord c (s.regs .t0) := by rw [ht, State.reg_eq (by decide)]
  have hmapped : t.wordMapped m c := by rw [ht]; exact hmapped
  have hplaced {labels : List String} (hl : labels ⊆ assembly.strings) {p : Place}
      {bytes : List UInt8} (h : m.Placed labels s₀ s p bytes) : m.Placed labels s₀ t p bytes :=
    hm.placed_store hs₀ hl h (hcell hx) hplace hmem hbrk hst
  have hrefers {v : Value} (h : m.Refers assembly.literals s₀ s v) :
      m.Refers assembly.literals s₀ t v := by
    obtain ⟨p, bytes, hv, hp⟩ := h
    exact ⟨p, bytes, hv, hplaced assembly.literals_subset hp⟩
  refine ⟨?_, h.steps.trans hst, fun y hy ↦ ?_, fun y hy ↦ ?_⟩
  · obtain ⟨top, htop⟩ := h.stack
    exact ⟨top, (heff.regs .sp (by simp [Instr.dest?])).trans htop⟩
  · obtain ⟨p, bytes, hp, hy'⟩ := h.constant y hy
    exact ⟨p, bytes, hp, hplaced (by simpa using hy) hy'⟩
  · by_cases hyx : y = x
    · subst hyx
      obtain rfl : τ = .string := Option.some.inj (hx.symm.trans hy)
      exact .inr ⟨_, Image.Carries.cell?_store_self hplace hmapped hmem, hrefers (hv rfl)⟩
    · rw [hm.cell?_store_of_ne (hcell hx) (hcell hy)
        (fun he ↦ hyx (Cell.labelFor_main_injective he)) hplace hmem]
      rcases h.cell y hy with ⟨hb, hz⟩ | ⟨v, hv, hr⟩
      · exact .inl ⟨hblank y hyx hy hb, hz⟩
      · exact .inr ⟨v, hv, hrefers hr⟩

theorem start (hm : m.Carries assembly code) (hs₀ : m.Starts s₀)
    (hΓ : ∀ x τ, Γ.lookup x = some τ → Cell.of "main" x ∈ assembly.cells)
    (hblank : ∀ x, Γ.lookup x = some .string → blank x) : Sound m assembly Γ s₀ blank s₀ := by
  refine ⟨⟨0, hs₀.sp⟩, .refl, fun x hx ↦ ?_, fun x hx ↦ .inl ⟨hblank x hx, ?_⟩⟩
  · obtain ⟨p, bytes, hp, hs⟩ := hm.exists_constant hs₀ hx
    exact ⟨p, bytes, hp, .constant (List.mem_singleton_self x) hp hs hs⟩
  · exact hm.cell?_start hs₀
      (List.mem_map_of_mem (f := Cell.label) (Array.mem_toList_iff.2 (hΓ x _ hx)))

end Sound

/-- The second state has the value of an expression in `$t0`, and the memory in use of the first. -/
structure Gives (m : Image) (assembly : Assembly) (s₀ : State) (τ : TypeName) (s t : State) :
    Prop where
  frame : s.Frame (fun _ ↦ False) t
  steps : m.Steps s t
  refers : τ = .string → m.Refers assembly.literals s₀ t (t.regs .t0)

theorem obeys_joining (labels : ConcatLabels) :
    m.Obeys (stringWatch m assembly Γ s₀ bare)
      (fun s ↦ m.Steps s₀ s ∧ m.Refers assembly.literals s₀ s (s.regs .t1) ∧
        m.Refers assembly.literals s₀ s (s.regs .t0))
      (Template.measuring labels ++ (Template.allocating.map .instr ++ Template.copying labels))
      fun _ t ↦ m.Refers assembly.literals s₀ t (t.regs .t0) := by
  rintro hi n s hcode ⟨hs, ⟨p, a, hp, ha⟩, ⟨q, b, hq, hb⟩⟩
  have hends := ends_joining hcode hp hq ha.stringAt hb.stringAt
  refine (Image.Ends.confines (w := stringWatch m assembly Γ s₀ bare)
    (hends.reached fun t hst hin hj ↦ ?_)).imp ?_
  · have hspares : s.Spares t := (hj.grown.frame (W := fun _ ↦ False)).spares
    refine ⟨fun x _ hget ↦ ?_, fun hget hv ↦ ?_, fun rd o hget ↦ ?_⟩
    · obtain ⟨i, hmem, hget'⟩ := hcode.exists_instr hin.1 hin.2
      obtain rfl := Option.some.inj (hget.symm.trans hget')
      simp [Template.measuring, Template.measure, Template.allocating, Template.copying] at hmem
    · have h9 := hv.symm.trans (hj.call hget)
      simp [Service.word, Service.code] at h9
    · obtain ⟨k, ⟨ho, hk⟩ | ⟨ho, hk⟩⟩ := hj.read rd o hget
      · exact ⟨p, a, ha.spares hst.steps hspares, k, hk, ho⟩
      · exact ⟨q, b, hb.spares hst.steps hspares, k, hk, ho⟩
  · rintro t ⟨⟨hend, hjoined, u, u', hsu, hrequest, hbrk, hstep, hut⟩, -⟩
    refine ⟨hend, _, a ++ b, hjoined.t0, .buffer (hs.trans hsu.steps) ?_ hstep ?_ hut.steps ?_ ?_⟩
    · rwa [List.length_append]
    · rw [List.length_append]
      exact hrequest.brk_step (by simpa using hjoined.size) hstep
    · rw [hbrk]
    · refine State.string?_eq_some_iff.2 (hjoined.stringAt fun h ↦ ?_)
      exact (List.mem_append.1 h).elim ha.stringAt.nonzero hb.stringAt.nonzero

theorem Gives.sound {τ : TypeName} (h : Gives m assembly s₀ τ s t)
    (hs : Sound m assembly Γ s₀ blank s) : Sound m assembly Γ s₀ blank t :=
  hs.frame h.steps h.frame

section expressions

variable {r : Analysis} {part : NodeId → Fragment} {last : Places} {e : Tree} {τ : TypeName}

theorem obeys_loadVariable {x : String} (hx : Γ.lookup x = some τ)
    (hbare : τ = .string → blank x → bare x) :
    m.Obeys (stringWatch m assembly Γ s₀ bare) (Sound m assembly Γ s₀ blank)
      (Template.loadVariable (Cell.labelFor "main" x))
      fun _ t ↦ τ = .string → m.Refers assembly.literals s₀ t (t.regs .t0) := by
  refine Image.obeys_instrs [.lw .t0 (.cell (Cell.labelFor "main" x))] (by simp [Instr.sequential])
    fun s hs hget ↦ ?_
  have hheeds (h : τ = .string → ∃ v, s.cell? m (Cell.labelFor "main" x) = some v ∧
      m.Refers assembly.literals s₀ s v) : m.Heeds assembly Γ s₀ s := by
    refine ⟨fun y hy h' ↦ ?_, fun h' ↦ ?_, fun rd o h' ↦ ?_⟩ <;>
      have heq := Option.some.inj (hget.symm.trans h')
    · obtain rfl : x = y := Cell.labelFor_main_injective (by simpa using heq)
      exact h (Option.some.inj (hx.symm.trans hy))
    · cases heq
    · cases heq
  by_cases hτ : τ = .string
  · subst hτ
    rcases hs.cell x hx with ⟨hb, hzero⟩ | ⟨v, hv, hr⟩
    · exact .inl ⟨x, hbare rfl hb, hget, hzero⟩
    · refine .inr ⟨hheeds fun _ ↦ ⟨v, hv, hr⟩, fun t ht _ ↦ ?_⟩
      have hst : m.Steps s t := .single ((Image.step_eq hget).trans ht)
      obtain ⟨p, hp, hload⟩ := Option.bind_eq_some_iff.1 hv
      have hexec : s.exec m (.lw .t0 (.cell (Cell.labelFor "main" x))) = some (s.set .t0 v) :=
        State.exec_lw hp hload
      obtain rfl := Option.some.inj (hexec.symm.trans ht)
      rw [State.regs_set_self]
      exact hr.spares hst (.of_eq rfl rfl)
  · exact .inr ⟨hheeds fun h ↦ absurd h hτ, fun _ _ h ↦ absurd h hτ⟩

theorem obeys_operands_gives {f g : Fragment}
    (hf : m.Obeys (stringWatch m assembly Γ s₀ bare) (Sound m assembly Γ s₀ blank) f
      (Gives m assembly s₀ τ))
    (hg : m.Obeys (stringWatch m assembly Γ s₀ bare) (Sound m assembly Γ s₀ blank) g
      (Gives m assembly s₀ τ)) :
    m.Obeys (stringWatch m assembly Γ s₀ bare) (Sound m assembly Γ s₀ blank)
      (Template.operands f g) fun _ t ↦ m.Steps s₀ t ∧ (τ = .string →
        m.Refers assembly.literals s₀ t (t.regs .t1) ∧
          m.Refers assembly.literals s₀ t (t.regs .t0)) := by
  have hops : ∀ i ∈ Instr.stackOps, i.harmless := by decide
  refine (obeys_operands hf hg (fun s i hi _ hc ↦ Image.heeds_of_harmless hc (hops i hi))
    (fun s t hs h ↦ (h.sound hs).stack) (fun s t hs h ↦ (h.sound hs).stack)
    fun s s₁ s₂ top hs h hp hst ↦ (h.sound hs).spares hst hp.spares hp.onStack).mono
    (fun _ hs ↦ hs) ?_
  rintro s t hs ⟨s₁, s₂, s₃, top, top', h, ⟨hp, hst⟩, h', hp', hst'⟩
  refine ⟨(h.sound hs).steps.trans (hst.trans (h'.steps.trans hst')), fun hτ ↦ ⟨?_, ?_⟩⟩
  · obtain rfl := hp'.top_unique (h'.frame.sp.trans hp.sp')
    have ht1 : s₁.regs .t0 = t.regs .t1 :=
      Option.some.inj ((hp.load_of_frame h'.frame).symm.trans hp'.load)
    rw [← ht1]
    have hpushed := (h.refers hτ).spares hst hp.spares
    exact (hpushed.spares h'.steps h'.frame.spares).spares hst' hp'.spares
  · rw [hp'.t0]
    exact (h'.refers hτ).spares hst' hp'.spares

/-- What is left to show of an expression besides the discipline of the stack. -/
theorem HasType.obeys_gives (hτ : HasType Δ e τ) (hw : Wired r part last e)
    (h : m.Obeys (stringWatch m assembly Γ s₀ bare) (Sound m assembly Γ s₀ blank) (part e.id)
      fun _ t ↦ τ = .string → m.Refers assembly.literals s₀ t (t.regs .t0)) :
    m.Obeys (stringWatch m assembly Γ s₀ bare) (Sound m assembly Γ s₀ blank) (part e.id)
      (Gives m assembly s₀ τ) := by
  refine ((hw.obeys hτ.derives (by decide)).and h fun s hs ↦ hs.stack).steps.mono
    (fun _ hs ↦ hs) ?_
  rintro s t - ⟨⟨hf, hr⟩, hst⟩
  exact ⟨hf, hst, hr⟩

theorem HasType.obeys_gives_of_ne (hτ : HasType Δ e τ) (hne : τ ≠ .string)
    (hw : Wired r part last e) (h : m.Obeys (stringWatch m assembly Γ s₀ bare)
      (Sound m assembly Γ s₀ blank) (part e.id) fun _ _ ↦ True) :
    m.Obeys (stringWatch m assembly Γ s₀ bare) (Sound m assembly Γ s₀ blank) (part e.id)
      (Gives m assembly s₀ τ) :=
  hτ.obeys_gives hw (h.mono (fun _ hs ↦ hs) fun _ _ _ _ h ↦ absurd h hne)

theorem HasType.gives (hτ : HasType Δ e τ) (hw : Wired r part last e)
    (ha : Annotated r.types Δ e) (hΔ : ∀ x τ, Δ.lookup x = some τ → Γ.lookup x = some τ)
    (hbare : ∀ x, Δ.lookup x = some .string → blank x → bare x)
    (hlit : last.pool.entries.toList.map Constant.label ⊆ assembly.literals) :
    m.Obeys (stringWatch m assembly Γ s₀ bare) (Sound m assembly Γ s₀ blank) (part e.id)
      (Gives m assembly s₀ τ) := by
  have hoperands {i : NodeId} {n : Node Tree} {τ : TypeName} {e e' : Tree}
      (hn : n.children = [e, e']) (hk : n.kind ≠ .executableBlock ∧ n.kind ≠ .variableBlock)
      (hw : Wired r part last (.mk i n)) (ha : Annotated r.types Δ (.mk i n))
      (he : Wired r part last e → Annotated r.types Δ e → m.Obeys (stringWatch m assembly Γ s₀ bare)
        (Sound m assembly Γ s₀ blank) (part e.id) (Gives m assembly s₀ τ))
      (he' : Wired r part last e' → Annotated r.types Δ e' → m.Obeys
        (stringWatch m assembly Γ s₀ bare) (Sound m assembly Γ s₀ blank) (part e'.id)
        (Gives m assembly s₀ τ)) :=
    obeys_operands_gives (he (hw.child (by simp [hn])) (ha.child hk (by simp [hn])))
      (he' (hw.child (by simp [hn])) (ha.child hk (by simp [hn])))
  induction hτ with
  | @intLiteral i value | @boolLiteral i value =>
    refine HasType.obeys_gives_of_ne (Δ := Δ) (by constructor) (by decide) hw ?_
    obtain ⟨hi, -, -, -⟩ := hw
    rw [Tree.id_mk, ← hi]
    exact obeys_harmless
      (by simp [compose, Node.map, Template.loadImmediate, Fragment.Closed, Line.targets])
      (by simp [compose, Node.map, Template.loadImmediate, Instr.harmless])
  | @stringLiteral i value =>
    refine HasType.obeys_gives (Δ := Δ) .stringLiteral hw ?_
    obtain ⟨hi, -, hpool, -⟩ := hw
    rw [Tree.id_mk, ← hi]
    simp only [compose, Node.map]
    refine Image.obeys_instrs [.la .t0 _] (by simp [Instr.sequential]) fun s hs hget ↦ .inr
      ⟨Image.heeds_of_harmless hget rfl, fun t ht _ ↦ ?_⟩
    have hst : m.Steps s t := .single ((Image.step_eq hget).trans ht)
    obtain ⟨p, hp, rfl⟩ := Option.map_eq_some_iff.1 ht
    rw [State.regs_set_self]
    have hmem := hlit (hpool rfl)
    exact (hs.refers_constant hmem (assembly.literals_subset hmem) hp).spares hst (.of_eq rfl rfl)
  | @variableRef i x τ hx =>
    refine HasType.obeys_gives (.variableRef hx) hw ?_
    obtain ⟨hi, hvar, -, -⟩ := hw
    rw [Tree.id_mk, ← hi]
    simp only [Node.map, compose, (hvar x rfl).1]
    exact obeys_loadVariable (hΔ x τ hx) fun h ↦ hbare x (h ▸ hx)
  | @parenthesized i e τ he ih =>
    obtain ⟨hi, -, -, hcs⟩ := hw
    rw [Tree.id_mk, ← hi]
    exact ih (hcs e (by simp [Node.children]))
      (ha.child (by simp [Node.kind]) (by simp [Node.children]))
  | @minus i e he ih | @not i e he ih =>
    have hc := ih (hw.child (by simp [Node.children]))
      (ha.child (by simp [Node.kind]) (by simp [Node.children]))
    refine HasType.obeys_gives_of_ne (Δ := Δ) (by constructor; exact he) (by decide) hw ?_
    obtain ⟨hi, -, -, -⟩ := hw
    rw [Tree.id_mk, ← hi]
    exact hc.harmless (by simp [Fragment.Closed, Line.targets]) (by simp [Instr.harmless])
  | @mulDiv i op l r' hl hr ihl ihr | @compare i op l r' hl hr ihl ihr =>
    have hops := hoperands rfl (by simp [Node.kind]) hw ha ihl ihr
    refine HasType.obeys_gives_of_ne (Δ := Δ) (by constructor <;> assumption) (by decide) hw ?_
    obtain ⟨hi, -, -, -⟩ := hw
    rw [Tree.id_mk, ← hi]
    exact hops.harmless (by simp [Fragment.Closed, Line.targets]) (by simp [Instr.harmless])
  | @addSub i op l r' hl hr ihl ihr =>
    have hget : r.types.get? i = some .int := ha.get? (.addSub hl hr)
    have hops := hoperands rfl (by simp [Node.kind]) hw ha ihl ihr
    refine HasType.obeys_gives_of_ne (.addSub hl hr) (by decide) hw ?_
    obtain ⟨hi, -, -, -⟩ := hw
    rw [Tree.id_mk, ← hi]
    simp only [Node.map, compose, hget, Option.some.injEq, reduceCtorEq, if_false]
    exact hops.harmless (by simp [Fragment.Closed, Line.targets]) (by simp [Instr.harmless])
  | @concat i l r' hl hr ihl ihr =>
    have hget : r.types.get? i = some .string := ha.get? (.concat hl hr)
    have hops := hoperands rfl (by simp [Node.kind]) hw ha ihl ihr
    refine HasType.obeys_gives (.concat hl hr) hw ?_
    obtain ⟨hi, -, -, -⟩ := hw
    rw [Tree.id_mk, ← hi]
    simp only [Node.map, compose, hget, if_true, Template.concatStrings_eq]
    exact hops.append (obeys_joining _) (fun s t _ h ↦ ⟨h.1, h.2 rfl⟩) fun _ _ _ _ _ h _ ↦ h

end expressions

theorem Mips.Instr.harmless_of_branch (h : i.sequential = false) : i.harmless := by
  cases i <;> first | rfl | cases h

theorem Sound.exec (h : Sound m assembly Γ s₀ blank s) (hc : m.code[s.pc]? = some i)
    (he : s.exec m i = some t) (hd : i.dest? ≠ some .sp) (hst : i.stores = false) :
    Sound m assembly Γ s₀ blank t := by
  have heff := State.exec_effect he
  exact h.frame (.single ((Image.step_eq hc).trans he)) (heff.frame hd hst)

theorem Sound.mono (h : Sound m assembly Γ s₀ blank s)
    (hb : ∀ x, Γ.lookup x = some .string → blank x → blank' x) : Sound m assembly Γ s₀ blank' s :=
  ⟨h.stack, h.steps, h.constant, fun x hx ↦ (h.cell x hx).imp_left (And.imp_left (hb x hx))⟩

theorem discipline_sound : m.Discipline (stringWatch m assembly Γ s₀ bare)
    (Sound m assembly Γ s₀ bare) fun _ t ↦ Sound m assembly Γ s₀ bare t where
  refl hs := hs
  goto hs hstep := hs.spares (.single hstep) (.of_eq rfl rfl) hs.stack
  trans _ h := h
  keeps _ h := h
  good _ hc hi := Image.heeds_of_harmless hc (Instr.harmless_of_branch hi)

section statements

variable {r : Analysis} {part : NodeId → Fragment} {last : Places} {τ : TypeName}

theorem obeys_storeVariable (hm : m.Carries assembly code) (hs₀ : m.Starts s₀)
    (hΓ : ∀ x τ, Γ.lookup x = some τ → Cell.of "main" x ∈ assembly.cells) {x : String}
    (hx : Γ.lookup x = some τ)
    (hblank : ∀ y, y ≠ x → Γ.lookup y = some .string → blank y → blank' y)
    (hf : m.Obeys (stringWatch m assembly Γ s₀ bare) (Sound m assembly Γ s₀ blank) f
      (Gives m assembly s₀ τ)) :
    m.Obeys (stringWatch m assembly Γ s₀ bare) (Sound m assembly Γ s₀ blank)
      (Template.storeVariable f (Cell.labelFor "main" x))
      fun _ t ↦ Sound m assembly Γ s₀ blank' t := by
  have hstore : m.Obeys (stringWatch m assembly Γ s₀ bare)
      (fun s ↦ Sound m assembly Γ s₀ blank s ∧
        (τ = .string → m.Refers assembly.literals s₀ s (s.regs .t0)))
      ([.sw .t0 (.cell (Cell.labelFor "main" x))].map .instr)
      fun _ t ↦ Sound m assembly Γ s₀ blank' t := by
    refine Image.obeys_instrs _ (by simp [Instr.sequential]) ?_
    rintro s ⟨hs, hv⟩ hget
    exact .inr ⟨Image.heeds_of_harmless hget rfl,
      fun t ht ↦ hs.store hm hs₀ hΓ hx hv hblank hget ht⟩
  exact hf.append hstore (fun s t hs h ↦ ⟨h.sound hs, h.refers⟩) fun _ _ _ _ _ h ↦ h

theorem obeys_call (n : Nat) :
    m.Obeys (stringWatch m assembly Γ s₀ bare)
      (fun s ↦ Sound m assembly Γ s₀ blank s ∧ (BitVec.ofInt 32 n = Service.printString.word →
        m.Refers assembly.strings s₀ s (s.regs .a0)))
      (Template.call n) fun _ t ↦ Sound m assembly Γ s₀ blank t := by
  refine Image.obeys_instrs [.li .v0 n, .syscall] (by simp [Instr.sequential]) ?_
  rintro s ⟨hs, ha⟩ hget
  refine .inr ⟨Image.heeds_of_harmless hget rfl, fun s₁ h₁ hget₁ ↦ ?_⟩
  have hs₁ := hs.exec hget h₁ (by simp [Instr.dest?]) rfl
  have hst : m.Steps s s₁ := .single ((Image.step_eq hget).trans h₁)
  obtain rfl : s.set .v0 (.word (BitVec.ofInt 32 n)) = s₁ := Option.some.inj h₁
  refine .inr ⟨Image.heeds_of_syscall hget₁ fun hv ↦ ?_, fun s₂ h₂ ↦ ?_⟩
  · rw [State.regs_set_self, Value.word.injEq] at hv
    rw [State.regs_set_of_ne _ (by decide)]
    exact (ha hv).spares hst (.of_eq rfl rfl)
  · exact hs₁.exec hget₁ h₂ (by simp [Instr.dest?]) rfl

theorem obeys_chooseText :
    m.Obeys (stringWatch m assembly Γ s₀ bare) (Sound m assembly Γ s₀ blank)
      ([.la .a0 "bool_false", .la .t1 "bool_true", .movn .a0 .t1 .t0].map .instr)
      fun _ t ↦ Sound m assembly Γ s₀ blank t ∧ m.Refers assembly.strings s₀ t (t.regs .a0) := by
  have htext {x : String} (hx : x ∈ ["bool_true", "bool_false"]) : x ∈ assembly.strings :=
    List.mem_append_left _ hx
  refine Image.obeys_instrs _ (by simp [Instr.sequential]) fun s hs hget ↦ .inr
    ⟨Image.heeds_of_harmless hget rfl, fun s₁ h₁ hget₁ ↦ .inr
      ⟨Image.heeds_of_harmless hget₁ rfl, fun s₂ h₂ hget₂ ↦ .inr
        ⟨Image.heeds_of_harmless hget₂ rfl, fun s₃ h₃ ↦ ?_⟩⟩⟩
  have hs₃ := ((hs.exec hget h₁ (by simp [Instr.dest?]) rfl).exec hget₁ h₂
    (by simp [Instr.dest?]) rfl).exec hget₂ h₃ (by simp [Instr.dest?]) rfl
  refine ⟨hs₃, ?_⟩
  obtain ⟨p, hp, rfl⟩ := Option.map_eq_some_iff.1 h₁
  obtain ⟨q, hq, rfl⟩ := Option.map_eq_some_iff.1 h₂
  simp only [State.exec, Option.bind_eq_bind, Option.bind_eq_some_iff] at h₃
  obtain ⟨w, -, h₃⟩ := h₃
  have hs₃' := Option.some.inj h₃
  split_ifs at hs₃'
  · subst hs₃'
    exact hs₃.refers_constant (htext (by decide)) (htext (by decide)) hp
  · subst hs₃'
    exact hs₃.refers_constant (htext (by decide)) (htext (by decide)) hq

theorem obeys_printing (hf : m.Obeys (stringWatch m assembly Γ s₀ bare)
      (Sound m assembly Γ s₀ blank) f (Gives m assembly s₀ τ)) :
    m.Obeys (stringWatch m assembly Γ s₀ bare) (Sound m assembly Γ s₀ blank)
      (printing f τ.toTy) fun _ t ↦ Sound m assembly Γ s₀ blank t := by
  have hby (n : Nat) (hn : BitVec.ofInt 32 n = Service.printString.word → τ = .string) :
      m.Obeys (stringWatch m assembly Γ s₀ bare) (Sound m assembly Γ s₀ blank)
        (Template.printBy f n) fun _ t ↦ Sound m assembly Γ s₀ blank t := by
    have hmove : m.Obeys (stringWatch m assembly Γ s₀ bare)
        (fun s ↦ Sound m assembly Γ s₀ blank s ∧
          (τ = .string → m.Refers assembly.literals s₀ s (s.regs .t0)))
        ([.move .a0 .t0].map .instr) fun _ t ↦ Sound m assembly Γ s₀ blank t ∧
          (τ = .string → m.Refers assembly.literals s₀ t (t.regs .a0)) := by
      refine Image.obeys_instrs _ (by simp [Instr.sequential]) ?_
      rintro s ⟨hs, hv⟩ hget
      refine .inr ⟨Image.heeds_of_harmless hget rfl, fun t ht ↦ ?_⟩
      have hst : m.Steps s t := .single ((Image.step_eq hget).trans ht)
      refine ⟨hs.exec hget ht (by simp [Instr.dest?]) rfl, fun h ↦ ?_⟩
      obtain rfl : s.set .a0 (s.regs .t0) = t := Option.some.inj ht
      rw [State.regs_set_self]
      exact (hv h).spares hst (.of_eq rfl rfl)
    refine (hf.append hmove (fun s t hs h ↦ ⟨h.sound hs, h.refers⟩) fun _ _ _ _ _ h ↦ h).append
      (obeys_call n) (fun s t _ ht ↦ ⟨ht.1, fun h ↦ ?_⟩) fun _ _ _ _ _ h ↦ h
    exact (ht.2 (hn h)).mono assembly.literals_subset
  cases τ with
  | int => exact hby Service.printInt.code (fun h ↦ by revert h; decide)
  | string => exact hby Service.printString.code fun _ ↦ rfl
  | bool =>
    refine (hf.append obeys_chooseText (fun s t hs h ↦ h.sound hs) fun _ _ _ _ _ h ↦ h).append
      (obeys_call _) (fun s t _ ht ↦ ⟨ht.1, fun _ ↦ ht.2⟩) fun _ _ _ _ _ h ↦ h

theorem Checks.obeys (hm : m.Carries assembly code) (hs₀ : m.Starts s₀)
    (hΓ : ∀ x τ, Γ.lookup x = some τ → Cell.of "main" x ∈ assembly.cells)
    (hlit : last.pool.entries.toList.map Constant.label ⊆ assembly.literals) {u : Tree}
    (hu : Checks Γ u) (hw : Wired r part last u) (ha : Annotated r.types Γ u) :
    m.Obeys (stringWatch m assembly Γ s₀ bare) (Sound m assembly Γ s₀ bare) (part u.id)
      fun _ t ↦ Sound m assembly Γ s₀ bare t := by
  have hexpr {e : Tree} {τ : TypeName} (hτ : HasType Γ e τ) (hw : Wired r part last e)
      (ha : Annotated r.types Γ e) : m.Obeys (stringWatch m assembly Γ s₀ bare)
        (Sound m assembly Γ s₀ bare) (part e.id) (Gives m assembly s₀ τ) :=
    hτ.gives hw ha (fun _ _ h ↦ h) (fun _ _ h ↦ h) hlit
  have hcond {e : Tree} (hτ : HasType Γ e .bool) (hw : Wired r part last e)
      (ha : Annotated r.types Γ e) : m.Obeys (stringWatch m assembly Γ s₀ bare)
        (Sound m assembly Γ s₀ bare) (part e.id) fun _ t ↦ Sound m assembly Γ s₀ bare t :=
    (hexpr hτ hw ha).mono (fun _ hs ↦ hs) fun s t hs h ↦ h.sound hs
  induction hu with
  | @statementBlock i statements _ ih =>
    obtain ⟨hi, -, -, hcs⟩ := hw
    rw [Tree.id_mk, ← hi]
    refine discipline_sound.flatMap fun c hc ↦ ?_
    obtain ⟨u, hu, rfl⟩ := List.mem_map.1 hc
    exact ih u hu (hcs u hu) (ha.child (by simp [Node.kind]) hu)
  | @assignment i x value τ hx hτ =>
    obtain ⟨hi, hvar, -, hcs⟩ := hw
    have hv := hexpr hτ (hcs value (by simp [Node.children]))
      (ha.child (by simp [Node.kind]) (by simp [Node.children]))
    rw [Tree.id_mk, ← hi]
    simp only [Node.map, compose, (hvar x rfl).1]
    exact obeys_storeVariable hm hs₀ hΓ hx (fun _ _ _ h ↦ h) hv
  | @ifStatement i condition thenBlock elseBlock hτ _ _ iht ihe =>
    obtain ⟨hi, -, -, hcs⟩ := hw
    have hc := hcond hτ (hcs condition (by simp [Node.children]))
      (ha.child (by simp [Node.kind]) (by simp [Node.children]))
    have ht := iht (hcs thenBlock (by simp [Node.children]))
      (ha.child (by simp [Node.kind]) (by simp [Node.children]))
    rw [Tree.id_mk, ← hi]
    cases elseBlock with
    | none => exact discipline_sound.ifThen hc ht
    | some b =>
      exact discipline_sound.ifElse hc ht (ihe b rfl (hcs b (by simp [Node.children]))
        (ha.child (by simp [Node.kind]) (by simp [Node.children])))
  | @whileStatement i condition body hτ _ ih =>
    obtain ⟨hi, -, -, hcs⟩ := hw
    have hc := hcond hτ (hcs condition (by simp [Node.children]))
      (ha.child (by simp [Node.kind]) (by simp [Node.children]))
    have hb := ih (hcs body (by simp [Node.children]))
      (ha.child (by simp [Node.kind]) (by simp [Node.children]))
    rw [Tree.id_mk, ← hi]
    exact discipline_sound.whileLoop hc hb
  | @printStatement i value τ hτ =>
    obtain ⟨hi, -, -, hcs⟩ := hw
    have hav := ha.child (by simp [Node.kind]) (c := value) (by simp [Node.children])
    have hv := hexpr hτ (hcs value (by simp [Node.children])) hav
    rw [Tree.id_mk, ← hi]
    simp only [Node.map, compose, hav.get? hτ, Option.getD_some]
    exact obeys_printing hv

/-- The variables that may be blank behind some declarations: those without a value, and those that
are not declared yet. -/
def Env.Blank (Δ : Env) (bare : String → Prop) (x : String) : Prop :=
  bare x ∨ Δ.lookup x = none

theorem Declares.lookup_of_mem {ds : List Tree} (h : Declares Δ ds Γ) {i : NodeId} {x : String}
    {τ : TypeName} {init : Option Tree} (hx : .mk i (.variableDeclaration x τ init) ∈ ds) :
    Γ.lookup x = some τ := by
  induction h with
  | nil => cases hx
  | @cons Δ Γ j name σ init' ds hnew _ hd ih =>
    rcases List.mem_cons.1 hx with he | hx
    · cases he
      rw [hd.eq_append, List.append_assoc, List.lookup_append, hnew]
      simp
    · exact ih hx

theorem Declares.obeys (hm : m.Carries assembly code) (hs₀ : m.Starts s₀)
    (hΓ : ∀ x τ, Γ.lookup x = some τ → Cell.of "main" x ∈ assembly.cells)
    (hlit : last.pool.entries.toList.map Constant.label ⊆ assembly.literals) {ds : List Tree}
    (hd : Declares Δ ds Γ) (hw : ∀ d ∈ ds, Wired r part last d)
    (ha : ∀ pre d post, ds = pre ++ d :: post →
      Annotated r.types (Δ ++ pre.filterMap Tree.binding?) d)
    (hbare : ∀ i x, .mk i (.variableDeclaration x .string none) ∈ ds → bare x) :
    m.Obeys (stringWatch m assembly Γ s₀ bare) (Sound m assembly Γ s₀ (Env.Blank Δ bare))
      (ds.flatMap fun d ↦ part d.id) fun _ t ↦ Sound m assembly Γ s₀ (Env.Blank Γ bare) t := by
  induction hd with
  | nil => exact Image.obeys_nil fun _ hs ↦ hs
  | @cons Δ Γ i name τ init ds hnew hinit hd ih =>
    simp only [List.mem_cons, forall_eq_or_imp] at hw
    have hrest := ih hΓ hw.2 (forall_behind ha)
      fun i x hx ↦ hbare i x (List.mem_cons_of_mem _ hx)
    have hΔ : ∀ x σ, Δ.lookup x = some σ → Γ.lookup x = some σ := by
      intro x σ hx
      rw [hd.eq_append, List.append_assoc, List.lookup_append, hx]
      rfl
    have hname := (Declares.cons (i := i) hnew hinit hd).lookup_of_mem List.mem_cons_self
    have hblank : ∀ y, y ≠ name → Γ.lookup y = some .string → Env.Blank Δ bare y →
        Env.Blank (Δ ++ [(name, τ)]) bare y := by
      intro y hy _ h
      refine h.imp_right fun h ↦ ?_
      have hne : (y == name) = false := by simpa using hy
      rw [List.lookup_append, h]
      simp [List.lookup_cons, hne]
    rw [List.flatMap_cons]
    refine Image.Obeys.append
      (R := fun _ t ↦ Sound m assembly Γ s₀ (Env.Blank (Δ ++ [(name, τ)]) bare) t)
      ?_ hrest (fun _ _ _ h ↦ h) fun _ _ _ _ _ h ↦ h
    obtain ⟨hi, hvar, -, hcs⟩ := hw.1
    rw [Tree.id_mk, ← hi]
    cases init with
    | none =>
      refine Image.obeys_nil fun s hs ↦ hs.mono fun y hy hb ↦ ?_
      by_cases hyn : y = name
      · subst hyn
        obtain rfl : τ = .string := Option.some.inj (hname.symm.trans hy)
        exact .inl (hbare i y List.mem_cons_self)
      · exact hblank y hyn hy hb
    | some e =>
      have hdec : Annotated r.types Δ (.mk i (.variableDeclaration name τ (some e))) := by
        simpa using ha [] _ ds rfl
      have he : m.Obeys (stringWatch m assembly Γ s₀ bare)
          (Sound m assembly Γ s₀ (Env.Blank Δ bare)) (part e.id) (Gives m assembly s₀ τ) :=
        (hinit e rfl).gives (hcs e (by simp [Node.children]))
          (hdec.child (by simp [Node.kind]) (by simp [Node.children])) hΔ
          (fun x hx h ↦ h.resolve_right (by simp [hx])) hlit
      simp only [Node.map, compose, (hvar name rfl).1]
      exact obeys_storeVariable hm hs₀ hΓ hname hblank he

theorem obeys_main (hm : m.Carries assembly code) (hs₀ : m.Starts s₀)
    (hΓ : ∀ x τ, Γ.lookup x = some τ → Cell.of "main" x ∈ assembly.cells)
    (hlit : last.pool.entries.toList.map Constant.label ⊆ assembly.literals) {j : NodeId}
    {vars : Option Tree} {body : Tree} (hv : ∀ v ∈ vars, Derives .variableBlock v)
    (hd : Declares [] (vars.toList.flatMap Tree.declarations) Γ) (hb : Checks Γ body)
    (ha : Annotated r.types [] (.mk j (.executableBlock vars body)))
    (hw : ∀ t ∈ vars.toList ++ [body], Wired r part last t)
    (hbare : ∀ i x, .mk i (.variableDeclaration x .string none) ∈
      vars.toList.flatMap Tree.declarations → bare x) :
    m.Obeys (stringWatch m assembly Γ s₀ bare) (Sound m assembly Γ s₀ (Env.Blank [] bare))
      ((vars.toList ++ [body]).flatMap fun t ↦ part t.id)
      fun _ t ↦ Sound m assembly Γ s₀ bare t := by
  have hstatements : m.Obeys (stringWatch m assembly Γ s₀ bare) (Sound m assembly Γ s₀ bare)
      (part body.id) fun _ t ↦ Sound m assembly Γ s₀ bare t :=
    hb.obeys hm hs₀ hΓ hlit (hw body (by simp)) (ha.body hd)
  have hdeclarations : m.Obeys (stringWatch m assembly Γ s₀ bare)
      (Sound m assembly Γ s₀ (Env.Blank [] bare)) (vars.toList.flatMap fun t ↦ part t.id)
      fun _ t ↦ Sound m assembly Γ s₀ (Env.Blank Γ bare) t := by
    cases vars with
    | none =>
      cases hd
      exact Image.obeys_nil fun _ hs ↦ hs
    | some v =>
      have hwv := hw v (by simp)
      have hv := hv v rfl
      cases hv with
      | @variableBlock k ds _ =>
        have hds : (some (Tree.mk k (.variableBlock ds))).toList.flatMap Tree.declarations =
            ds := by simp [Tree.declarations]
        rw [hds] at hd hbare
        obtain ⟨hk, -, -, hcs⟩ := hwv
        have hcode : part k = ds.flatMap fun t ↦ part t.id := by
          rw [← hk]
          simp [compose, Node.map, List.flatMap_map]
        have hann : ∀ pre d post, ds = pre ++ d :: post →
            Annotated r.types ([] ++ pre.filterMap Tree.binding?) d := by
          rintro pre d post rfl
          exact ha.declaration
        simpa [hcode] using hd.obeys hm hs₀ hΓ hlit hcs hann hbare
  rw [List.flatMap_append, List.flatMap_singleton]
  refine hdeclarations.append hstatements (fun _ t _ h ↦ h.mono fun x hx hb ↦ ?_)
    fun _ _ _ _ _ h ↦ h
  exact hb.resolve_right (by simp [hx])

end statements

theorem exists_declaration {ds : List Tree} {x : String} {τ : TypeName}
    (h : (ds.filterMap Tree.binding?).lookup x = some τ) :
    ∃ i init, .mk i (.variableDeclaration x τ init) ∈ ds := by
  obtain ⟨pre, post, hsplit, -⟩ := List.lookup_eq_some_iff.1 h
  have hmem : (x, τ) ∈ ds.filterMap Tree.binding? := by simp [hsplit]
  obtain ⟨⟨i, n⟩, hd, hb⟩ := List.mem_filterMap.1 hmem
  cases n with
  | variableDeclaration name σ init =>
    cases hb
    exact ⟨i, init, hd⟩
  | _ => simp [Tree.binding?] at hb

namespace Arena

variable {a : Arena} {root j : NodeId} {functions : List Tree} {vars : Option Tree} {body : Tree}

def Unset (vars : Option Tree) (x : String) : Prop :=
  ∃ i, .mk i (.variableDeclaration x .string none) ∈ vars.toList.flatMap Tree.declarations

theorem Compiles.heeds {s : Typing} {g : Generation}
    (h : a.Compiles root [] (.mk j (.executableBlock vars body)) s g)
    (hg : Derives .program (.mk root (.program [] (.mk j (.executableBlock vars body)))))
    (hm : m.Carries (g.assembly root) (g.part j)) (hs₀ : m.Starts s₀) (ht : m.Steps s₀ t) :
    ∃ Γ, Declares [] (vars.toList.flatMap Tree.declarations) Γ ∧
      ((∃ u, m.Steps s₀ u ∧ m.Steps u t ∧
          (stringWatch m (g.assembly root) Γ s₀ (Unset vars)).excuse u) ∨
        m.Heeds (g.assembly root) Γ s₀ t) := by
  have hvars : ∀ v ∈ vars, Derives .variableBlock v := by
    cases hg with
    | program _ hmain =>
      cases hmain with
      | executableBlock hvars _ => exact hvars
  obtain ⟨hiff, hann⟩ := Typing.judged_program hg h.accepted.plain (h.holds.nodup_ids h.forest)
    h.judged
  have htyped := hiff.1 h.report
  have hann := (hann htyped).child (c := .mk j (.executableBlock vars body)) (by simp [Node.kind])
    (by simp [Node.children])
  cases htyped with
  | program hd hb =>
    rename_i Γ
    have hcells (x : String) (τ : TypeName) (hx : Γ.lookup x = some τ) :
        Cell.of "main" x ∈ (g.assembly root).cells := by
      rw [hd.eq_append, List.nil_append] at hx
      obtain ⟨i, init, hi⟩ := exists_declaration hx
      obtain ⟨⟨k, n⟩, hv, hi⟩ := List.mem_flatMap.1 hi
      have hw := h.wired (.mk k n) (List.mem_append_left _ hv)
      have hchild : .mk i (.variableDeclaration x τ init) ∈ n.children := by
        cases hvars _ (Option.mem_toList.1 hv)
        exact hi
      cases hw.child hchild with
      | mk _ hcell _ _ => exact (hcell x rfl).2
    have hlit : g.places.pool.entries.toList.map Constant.label ⊆ (g.assembly root).literals :=
      List.Subset.refl _
    have hmain := obeys_main (Γ := Γ) hm hs₀ hcells hlit hvars hd hb hann h.wired
      fun i x hx ↦ (⟨i, hx⟩ : Unset vars x)
    rw [← h.coded_main.2] at hmain
    have hcode := hmain.exit (fun _ _ _ _ hc ↦ Image.heeds_of_harmless hc rfl)
      fun _ _ _ _ hc ↦ Image.heeds_of_syscall hc fun hv ↦ by cases hv
    refine ⟨Γ, hd, hm.outcome hcode hs₀ (.start hm hs₀ hcells ?_) ht⟩
    exact fun x _ ↦ .inr rfl

/-- What compiled programs do with strings. Take a state of a run of the program. Either the run has
come, at the state or before it, to a load of the cell of a variable of type `String` that is
declared without a value, and the cell still held zero. Or the strings that are used in the state
are in place:
- a load of the cell of a variable of type `String` finds the address of a literal or of a buffer
  that was filled by a concatenation;
- the service for strings gets the address of such a string, or of the text of a truth value;
- a byte that is loaded is a byte of such a string, or the zero behind it. -/
theorem strings_placed (hv : a.validate = .ok root)
    (hp : a.Holds (.mk root (.program functions (.mk j (.executableBlock vars body)))))
    (hg : Derives .program (.mk root (.program functions (.mk j (.executableBlock vars body)))))
    {text : String} (htext : (a.compile .asm).outcome.result = .ok (.ok text)) :
    ∃ assembly code, (a.analyze root >>= a.generate root).outcome.result = .ok (.ok assembly) ∧
      assembly.text = text ∧ assembly.code.get? j = some code ∧
      ∀ m : Image, m.Carries assembly code → ∀ s₀ s, m.Starts s₀ → m.Steps s₀ s →
        (∃ i x t, .mk i (.variableDeclaration x .string none) ∈
            vars.toList.flatMap Tree.declarations ∧ m.Steps s₀ t ∧ m.Steps t s ∧
          m.code[t.pc]? = some (.lw .t0 (.cell (Cell.labelFor "main" x))) ∧
          t.cell? m (Cell.labelFor "main" x) = some (.word 0)) ∨
        (∀ i x init, .mk i (.variableDeclaration x .string init) ∈
            vars.toList.flatMap Tree.declarations →
          m.code[s.pc]? = some (.lw .t0 (.cell (Cell.labelFor "main" x))) →
          ∃ p bytes, s.cell? m (Cell.labelFor "main" x) = some (.address p) ∧
            m.Placed assembly.literals s₀ s p bytes) ∧
        (m.code[s.pc]? = some .syscall → s.regs .v0 = .word Service.printString.word →
          ∃ p bytes, s.regs .a0 = .address p ∧ m.Placed assembly.strings s₀ s p bytes) ∧
        ∀ rd o, m.code[s.pc]? = some (.lb rd o) →
          ∃ p bytes, m.Placed assembly.literals s₀ s p bytes ∧
            ∃ k : Nat, k ≤ bytes.length ∧ s.operand m o = some (p.shift k) := by
  obtain ⟨s, g, hc, rfl⟩ := hp.exists_compiles hv htext
  obtain rfl := Typing.functions_eq_nil hg hc.accepted.plain
  have hcode := hc.get?_code (i := j) (by simp [Node.children])
  refine ⟨g.assembly root, g.part j, hc.result_generate, rfl, hcode, ?_⟩
  intro m hm s₀ t hs₀ ht
  obtain ⟨Γ, hd, ⟨u, hu, hut, x, ⟨i, hi⟩, hload, hzero⟩ | hheeds⟩ := hc.heeds hg hm hs₀ ht
  · exact .inl ⟨i, x, u, hi, hu, hut, hload, hzero⟩
  · refine .inr ⟨fun i x init hi hload ↦ ?_, fun hcall hprint ↦ ?_, hheeds.read⟩
    · obtain ⟨_, hcell, p, bytes, rfl, hplaced⟩ := hheeds.load x (hd.lookup_of_mem hi) hload
      exact ⟨p, bytes, hcell, hplaced⟩
    · exact hheeds.print hcall hprint

end Arena

theorem greeting.strings_placed_at :
    greeting.validate = .ok ⟨9⟩ ∧ greeting.Holds (.mk ⟨9⟩ (.program [] main)) ∧
    Derives .program (.mk ⟨9⟩ (.program [] main)) ∧
    ∃ text assembly code, ∃ m : Image, ∃ s₀,
      (greeting.compile .asm).outcome.result = .ok (.ok text) ∧
      (greeting.analyze ⟨9⟩ >>= greeting.generate ⟨9⟩).outcome.result = .ok (.ok assembly) ∧
      assembly.text = text ∧ assembly.code.get? main.id = some code ∧ m.Carries assembly code ∧
      m.Starts s₀ ∧ ∀ s, m.Steps s₀ s →
        (m.code[s.pc]? = some (.lw .t0 (.cell (Cell.labelFor "main" "s"))) →
          ∃ p bytes, s.cell? m (Cell.labelFor "main" "s") = some (.address p) ∧
            m.Placed assembly.literals s₀ s p bytes) ∧
        (m.code[s.pc]? = some .syscall → s.regs .v0 = .word Service.printString.word →
          ∃ p bytes, s.regs .a0 = .address p ∧ m.Placed assembly.strings s₀ s p bytes) ∧
        ∀ rd o, m.code[s.pc]? = some (.lb rd o) →
          ∃ p bytes, m.Placed assembly.literals s₀ s p bytes ∧
            ∃ k : Nat, k ≤ bytes.length ∧ s.operand m o = some (p.shift k) := by
  obtain ⟨text, htext⟩ := exists_text
  obtain ⟨assembly, code, hassembly, heq, hcode, hplaced⟩ :=
    Arena.strings_placed validate_eq holds derives htext
  obtain ⟨m, hm⟩ := exists_image hassembly hcode
  obtain ⟨pc, -, hpc, -⟩ := hm.code
  obtain ⟨s₀, hs₀⟩ := Image.exists_starts hpc
  refine ⟨validate_eq, holds, derives, text, assembly, code, m, s₀, htext, hassembly, heq, hcode,
    hm, hs₀, fun s hs ↦ ?_⟩
  rcases hplaced m hm s₀ s hs₀ hs with ⟨i, x, t, hx, -⟩ | ⟨hload, hprint, hread⟩
  · simp [Tree.declarations, declaration] at hx
  · exact ⟨hload ⟨3⟩ "s" (some sum) (by simp [Tree.declarations, declaration]), hprint, hread⟩

/-- The program
```
var s : String
print s
```
-/
def unset : Arena where
  nodes := #[.variableDeclaration "s" .string none, .variableBlock [⟨0⟩], .variableRef "s",
    .printStatement ⟨2⟩, .statementBlock [⟨3⟩], .executableBlock (some ⟨1⟩) ⟨4⟩, .program [] ⟨5⟩]
  root := some ⟨6⟩

namespace unset

def declaration : Tree := .mk ⟨0⟩ (.variableDeclaration "s" .string none)

def output : Tree := .mk ⟨3⟩ (.printStatement (.mk ⟨2⟩ (.variableRef "s")))

def main : Tree :=
  .mk ⟨5⟩ (.executableBlock (some (.mk ⟨1⟩ (.variableBlock [declaration])))
    (.mk ⟨4⟩ (.statementBlock [output])))

def fragment : Fragment :=
  [.lw .t0 (.cell (Cell.labelFor "main" "s")), .move .a0 .t0, .li .v0 4, .syscall].map .instr

theorem validate_eq : unset.validate = .ok ⟨6⟩ :=
  Arena.validate_of_sound (by decide) (by decide) (by decide)

theorem holds : unset.Holds (.mk ⟨6⟩ (.program [] main)) := by
  have hvars : unset.Holds (.mk ⟨1⟩ (.variableBlock [declaration])) :=
    .one rfl rfl (.leaf rfl rfl)
  have houtput : unset.Holds output := .one rfl rfl (.leaf rfl rfl)
  exact .one rfl rfl (.two rfl rfl hvars (.one rfl rfl houtput))

theorem derives : Derives .program (.mk ⟨6⟩ (.program [] main)) := by
  have houtput : Derives .statement output := .printStatement .variableRef
  refine .program (by simp) (.executableBlock ?_ (.statementBlock (by simpa using houtput)))
  simpa using .variableBlock (by simpa using .variableDeclaration (by simp))

theorem exists_text : ∃ text, (unset.compile .asm).outcome.result = .ok (.ok text) := by
  have h : ((unset.compileFrom ⟨6⟩ .asm).outcome.result.toOption.bind
      Except.toOption).isSome := by decide +kernel
  obtain ⟨text, htext⟩ := Option.isSome_iff_exists.1 h
  exact ⟨text, Arena.result_compile validate_eq htext⟩

theorem generates_fragment {assembly : Assembly}
    (h : (unset.analyze ⟨6⟩ >>= unset.generate ⟨6⟩).outcome.result = .ok (.ok assembly)) :
    assembly.code.get? main.id = some fragment ∧ Cell.of "main" "s" ∈ assembly.cells ∧
      fragment.all Line.isCode && (Loader.addAll {} (assembly.around fragment)).isSome := by
  have hall : ((unset.analyze ⟨6⟩ >>= unset.generate ⟨6⟩).outcome.result.toOption.bind
      Except.toOption).all fun assembly ↦ assembly.code.get? main.id = some fragment ∧
        Cell.of "main" "s" ∈ assembly.cells ∧
        fragment.all Line.isCode && (Loader.addAll {} (assembly.around fragment)).isSome := by
    decide +kernel
  simpa [h, Except.toOption] using hall

/-- A variable without a value is read, and zero is printed as the address of a text. -/
theorem zero_printed :
    unset.validate = .ok ⟨6⟩ ∧ unset.Holds (.mk ⟨6⟩ (.program [] main)) ∧
    Derives .program (.mk ⟨6⟩ (.program [] main)) ∧
    ∃ text assembly code, ∃ m : Image, ∃ s₀ s,
      (unset.compile .asm).outcome.result = .ok (.ok text) ∧
      (unset.analyze ⟨6⟩ >>= unset.generate ⟨6⟩).outcome.result = .ok (.ok assembly) ∧
      assembly.text = text ∧ assembly.code.get? main.id = some code ∧ m.Carries assembly code ∧
      m.Starts s₀ ∧ m.code[s₀.pc]? = some (.lw .t0 (.cell (Cell.labelFor "main" "s"))) ∧
      s₀.cell? m (Cell.labelFor "main" "s") = some (.word 0) ∧ m.Steps s₀ s ∧
      m.code[s.pc]? = some .syscall ∧ s.regs .v0 = .word Service.printString.word ∧
      s.regs .a0 = .word 0 := by
  obtain ⟨text, htext⟩ := exists_text
  obtain ⟨r, g, hc, rfl⟩ := holds.exists_compiles validate_eq htext
  obtain ⟨hcode, hcell, hload⟩ := generates_fragment hc.result_generate
  obtain ⟨m, hm⟩ := Loader.exists_carries hload
  obtain ⟨pc, pc', hpc, hat⟩ := hm.code
  obtain ⟨s₀, hs₀⟩ := Image.exists_starts hpc
  obtain rfl : pc = s₀.pc := Option.some.inj (hpc.symm.trans hs₀.pc)
  have hzero := hm.cell?_start hs₀
    (List.mem_map_of_mem (f := Cell.label) (Array.mem_toList_iff.2 hcell))
  obtain ⟨p, hp, hv⟩ := Option.bind_eq_some_iff.1 hzero
  let is : List Instr := [.lw .t0 (.cell (Cell.labelFor "main" "s")), .move .a0 .t0, .li .v0 4]
  let s : State := ((s₀.set .t0 (.word 0)).set .a0 (.word 0)).set .v0 (.word 4)
  have hat : CodeAt m s₀.pc (is.map .instr ++ .instr .syscall :: Template.call Service.exit.code)
      pc' := hat
  have hrun : s₀.run m is = some s := by
    have hlw : s₀.exec m (.lw .t0 (.cell (Cell.labelFor "main" "s"))) =
        some (s₀.set .t0 (.word 0)) := State.exec_lw hp hv
    rw [State.run, hlw]
    rfl
  obtain ⟨hsteps, hcall⟩ := State.steps_run (by simp [is, Instr.sequential]) hat hrun
  exact ⟨validate_eq, holds, derives, _, _, fragment, m, s₀, s, htext, hc.result_generate, rfl,
    hcode, hm, hs₀, (codeAt_instr.1 hat).1, hzero, hsteps, (codeAt_instr.1 hcall).1, rfl, rfl⟩

end unset

end SpimCompiler
