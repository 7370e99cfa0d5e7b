import SpimCompiler.Proofs.Confinement

namespace SpimCompiler.Mips

variable {m : Image} {s s' s'' : State} {q : Place} {W W' : Place → Prop}

theorem State.mapped_iff {p : Place} : s.mapped m p ↔
    match p.region with
    | .data => 0 ≤ p.offset ∧ p.offset < m.data.length
    | .heap => 0 ≤ p.offset ∧ p.offset < s.brk
    | .stack => p.offset < 0 := by
  unfold State.mapped
  cases p.region <;> simp

def Instr.dest? : Instr → Option Reg
  | .li rd _ | .la rd _ | .lw rd _ | .lb rd _ | .move rd _ | .movn rd _ _ | .arith _ rd _ _
  | .addiu rd _ _ | .xori rd _ _ => some rd
  | .syscall => some .v0
  | .sw .. | .sb .. | .beqz .. | .bnez .. | .j _ => none

def Instr.stores : Instr → Bool
  | .sw .. | .sb .. => true
  | _ => false

/-- What an instruction changes: one register, memory if it stores, and the heap and the output if
it calls a service. -/
structure State.Effect (i : Instr) (s s' : State) : Prop where
  regs (r : Reg) : i.dest? ≠ some r → s'.regs r = s.regs r
  memory : i.stores = false → s'.memory = s.memory
  brk : s.brk ≤ s'.brk
  brk_eq : i ≠ .syscall → s'.brk = s.brk
  output : i ≠ .syscall → s'.output = s.output

theorem State.effect_set (s : State) {i : Instr} {r : Reg} (hr : i.dest? = some r) (v : Value) :
    s.Effect i (s.set r v) where
  regs q hq := s.regs_set_of_ne (by rintro rfl; exact hq hr) v
  memory _ := rfl
  brk := Nat.le_refl _
  brk_eq _ := rfl
  output _ := rfl

theorem State.effect_goto (s : State) (i : Instr) (pc : Nat) : s.Effect i (s.goto pc) :=
  ⟨fun _ _ ↦ rfl, fun _ ↦ rfl, Nat.le_refl _, fun _ ↦ rfl, fun _ ↦ rfl⟩

theorem State.effect_callService (h : s.callService m = some s') : s.Effect .syscall s' := by
  obtain ⟨bytes, rfl⟩ | ⟨size, rfl⟩ := callService_cases h
  · exact ⟨fun _ _ ↦ rfl, fun _ ↦ rfl, Nat.le_refl _, fun _ ↦ rfl, fun he ↦ absurd rfl he⟩
  · exact ⟨fun r hr ↦ s.regs_set_of_ne (by rintro rfl; exact hr rfl) _, fun _ ↦ rfl,
      Nat.le_add_right _ _, fun he ↦ absurd rfl he, fun he ↦ absurd rfl he⟩

theorem State.exec_effect {i : Instr} (h : s.exec m i = some s') : s.Effect i s' := by
  cases i with
  | syscall => exact effect_callService h
  | beqz | bnez | j =>
    rw [(exec_branch rfl h).1]
    exact s.effect_goto _ _
  | li | move =>
    cases h
    exact s.effect_set rfl _
  | la rd label =>
    obtain ⟨p, -, rfl⟩ := Option.map_eq_some_iff.1 h
    exact s.effect_set rfl _
  | addiu rd rs value =>
    simp only [exec] at h
    split at h <;> cases h <;> exact s.effect_set rfl _
  | lw rd source | lb rd source =>
    simp only [exec, Option.bind_eq_bind, Option.bind_eq_some_iff] at h
    obtain ⟨p, -, v, -, h⟩ := h
    cases h
    exact s.effect_set rfl _
  | sw rs target =>
    simp only [exec, Option.bind_eq_bind, Option.bind_eq_some_iff, storeWord] at h
    obtain ⟨p, -, s₁, hs, h⟩ := h
    split_ifs at hs
    cases hs
    cases h
    exact ⟨fun _ _ ↦ rfl, by simp [Instr.stores], Nat.le_refl _, fun _ ↦ rfl, fun _ ↦ rfl⟩
  | sb rs target =>
    simp only [exec, Option.bind_eq_bind, Option.bind_eq_some_iff, storeByte] at h
    obtain ⟨p, -, w, -, s₁, hs, h⟩ := h
    split_ifs at hs
    cases hs
    cases h
    exact ⟨fun _ _ ↦ rfl, by simp [Instr.stores], Nat.le_refl _, fun _ ↦ rfl, fun _ ↦ rfl⟩
  | movn rd rs rt =>
    simp only [exec, Option.bind_eq_bind, Option.bind_eq_some_iff] at h
    obtain ⟨w, -, h⟩ := h
    cases h
    split
    · exact s.effect_goto _ _
    · exact s.effect_set rfl _
  | arith mnemonic rd rs rt =>
    simp only [exec, Option.bind_eq_bind, Option.bind_eq_some_iff] at h
    obtain ⟨a, -, b, -, w, -, h⟩ := h
    cases h
    exact s.effect_set rfl _
  | xori rd rs value =>
    simp only [exec, Option.bind_eq_bind, Option.bind_eq_some_iff] at h
    obtain ⟨w, -, h⟩ := h
    cases h
    exact s.effect_set rfl _

theorem State.exec_sw_eq {rs : Reg} {a : Address} (h : s.exec m (.sw rs a) = some s') :
    ∃ p, s.operand m a = some p ∧ s.wordMapped m p ∧
      s' = { s with pc := s.pc + 1, memory := s.putWord p (s.reg rs) } := by
  simp only [exec, Option.bind_eq_bind, Option.bind_eq_some_iff, storeWord] at h
  obtain ⟨p, hp, s₁, hs, h⟩ := h
  split_ifs at hs with hm
  cases hs
  cases h
  exact ⟨p, hp, hm, rfl⟩

theorem State.exec_sb_eq {rs : Reg} {a : Address} (h : s.exec m (.sb rs a) = some s') :
    ∃ p w, s.operand m a = some p ∧ s.reg rs = .word w ∧ s.mapped m p ∧
      s' = { s with
        pc := s.pc + 1
        memory := fun q ↦ if q = p then .number (UInt8.ofNat w.toNat) else s.memory q } := by
  simp only [exec, Option.bind_eq_bind, Option.bind_eq_some_iff, storeByte] at h
  obtain ⟨p, hp, w, hw, s₁, hs, h⟩ := h
  split_ifs at hs with hm
  cases hs
  cases h
  refine ⟨p, w, hp, ?_, hm, rfl⟩
  cases hr : s.reg rs with
  | word v => simpa [hr, Value.word?] using hw
  | address p => simp [hr, Value.word?] at hw

def State.OnStack (s : State) : Prop := ∃ top, s.regs .sp = .address ⟨.stack, top⟩

/-- The place is on the stack below the last word in use. -/
def State.Below (s : State) (q : Place) : Prop :=
  q.region = .stack ∧ ∃ top, s.regs .sp = .address ⟨.stack, top⟩ ∧ q.offset < top

/-- The place is in the part of the heap that the second state has in use and the first has not. -/
def State.Fresh (s s' : State) (q : Place) : Prop :=
  q.region = .heap ∧ (s.brk : Int) ≤ q.offset ∧ q.offset < s'.brk

/-- The stack pointer is the same, and every byte of memory that differs is one of those in `W`, or
on the stack below it, or allocated since. -/
structure State.Frame (W : Place → Prop) (s s' : State) : Prop where
  sp : s'.regs .sp = s.regs .sp
  brk : s.brk ≤ s'.brk
  memory (q : Place) : s'.memory q ≠ s.memory q → W q ∨ s.Below q ∨ s.Fresh s' q

def Image.CellByte (m : Image) (cells : List String) (q : Place) : Prop :=
  ∃ x ∈ cells, ∃ p, m.place? x = some p ∧
    q.region = p.region ∧ p.offset ≤ q.offset ∧ q.offset < p.offset + 4

namespace State

theorem Frame.of_eq (hsp : s'.regs .sp = s.regs .sp) (hbrk : s.brk ≤ s'.brk)
    (hm : s'.memory = s.memory) : s.Frame W s' :=
  ⟨hsp, hbrk, fun q hq ↦ absurd (congrFun hm q) hq⟩

theorem frame_refl (s : State) : s.Frame W s := .of_eq rfl (Nat.le_refl _) rfl

theorem Frame.trans (h : s.Frame W s') (h' : s'.Frame W s'') : s.Frame W s'' := by
  have hbrk := h.brk
  have hbrk' := h'.brk
  refine ⟨h'.sp.trans h.sp, by omega, fun q hq ↦ ?_⟩
  by_cases hq' : s''.memory q = s'.memory q
  · rw [hq'] at hq
    refine (h.memory q hq).imp_right (Or.imp_right ?_)
    rintro ⟨hr, hlo, hhi⟩
    exact ⟨hr, hlo, by omega⟩
  · refine (h'.memory q hq').imp_right (Or.imp ?_ ?_)
    · rintro ⟨hr, top, hsp, hlt⟩
      exact ⟨hr, top, h.sp ▸ hsp, hlt⟩
    · rintro ⟨hr, hlo, hhi⟩
      exact ⟨hr, by omega, hhi⟩

theorem Frame.mono (h : s.Frame W s') (hW : ∀ q, W q → W' q) : s.Frame W' s' :=
  ⟨h.sp, h.brk, fun q hq ↦ (h.memory q hq).imp_left (hW q)⟩

theorem Frame.onStack (h : s.Frame W s') (hs : s.OnStack) : s'.OnStack := by
  obtain ⟨top, htop⟩ := hs
  exact ⟨top, h.sp.trans htop⟩

theorem Effect.frame {i : Instr} (h : s.Effect i s') (hd : i.dest? ≠ some .sp)
    (hs : i.stores = false) : s.Frame W s' :=
  .of_eq (h.regs _ hd) h.brk (h.memory hs)

structure Pushed (m : Image) (s s' : State) (top : Int) : Prop where
  sp : s.regs .sp = .address ⟨.stack, top⟩
  sp' : s'.regs .sp = .address ⟨.stack, top - 4⟩
  brk : s'.brk = s.brk
  load : s'.loadWord m ⟨.stack, top - 4⟩ = some (s.regs .t0)
  memory (q : Place) : s'.memory q ≠ s.memory q →
    q.region = .stack ∧ top - 4 ≤ q.offset ∧ q.offset < top

structure Popped (m : Image) (s s' : State) (top : Int) : Prop where
  sp : s.regs .sp = .address ⟨.stack, top - 4⟩
  sp' : s'.regs .sp = .address ⟨.stack, top⟩
  brk : s'.brk = s.brk
  load : s.loadWord m ⟨.stack, top - 4⟩ = some (s'.regs .t1)
  t0 : s'.regs .t0 = s.regs .t0
  memory : s'.memory = s.memory

theorem Pushed.onStack {top : Int} (h : s.Pushed m s' top) : s'.OnStack := ⟨_, h.sp'⟩

theorem Popped.top_unique {top top' : Int} (h : s.Popped m s' top)
    (hsp : s.regs .sp = .address ⟨.stack, top' - 4⟩) : top' = top := by
  have he := hsp.symm.trans h.sp
  simp only [Value.address.injEq, Place.mk.injEq, true_and] at he
  omega

/-- What happens between a word is pushed and popped again leaves no trace above the word. -/
theorem Frame.pushed_popped {t t' : State} {top : Int} (hp : s.Pushed m t top)
    (h : t.Frame W t') (hp' : t'.Popped m s' top) : s.Frame W s' := by
  have hbrk := h.brk
  have hb := hp.brk
  have hb' := hp'.brk
  refine ⟨hp'.sp'.trans hp.sp.symm, by omega, fun q hq ↦ ?_⟩
  rw [hp'.memory] at hq
  by_cases hq' : t'.memory q = t.memory q
  · rw [hq'] at hq
    obtain ⟨hr, -, hlt⟩ := hp.memory q hq
    exact .inr (.inl ⟨hr, top, hp.sp, hlt⟩)
  · refine (h.memory q hq').imp_right (Or.imp ?_ ?_)
    · rintro ⟨hr, top', hsp, hlt⟩
      have he := hp.sp'.symm.trans hsp
      simp only [Value.address.injEq, Place.mk.injEq, true_and] at he
      exact ⟨hr, top, hp.sp, by omega⟩
    · rintro ⟨hr, hlo, hhi⟩
      exact ⟨hr, by omega, by omega⟩

theorem Pushed.load_of_frame {t : State} {top : Int} (hp : s.Pushed m s' top)
    (h : s'.Frame (fun _ ↦ False) t) : t.loadWord m ⟨.stack, top - 4⟩ = some (s.regs .t0) := by
  rw [← hp.load]
  refine loadWord_congr (by simp) fun k _ ↦ ?_
  by_contra hne
  rcases h.memory _ hne with hf | ⟨-, top', hsp, hlt⟩ | ⟨hr, -⟩
  · exact hf
  · have he := hp.sp'.symm.trans hsp
    simp only [Value.address.injEq, Place.mk.injEq, true_and] at he
    simp [Place.shift] at hlt
    omega
  · simp [Place.shift] at hr

end State

def stackWatch : Watch where
  good := State.OnStack

variable {w : Watch} {P : State → Prop} {R R' : State → State → Prop} {f g : Fragment}
  {cells : List String}

theorem discipline_frame (W : Place → Prop) :
    m.Discipline stackWatch State.OnStack (State.Frame W) where
  refl {s} _ := s.frame_refl
  goto _ _ := .of_eq rfl (Nat.le_refl _) rfl
  trans := .trans
  keeps hs h := h.onStack hs
  good hs _ _ := hs

theorem obeys_quiet (hf : f.Closed)
    (hq : ∀ i, .instr i ∈ f → i.dest? ≠ some .sp ∧ i.stores = false) :
    m.Obeys stackWatch State.OnStack f (State.Frame W) := by
  refine Image.obeys_area hf (fun s _ ↦ s.frame_refl) (fun s t i hs ht _ _ ↦ ht.onStack hs) ?_
  intro s t t' i _ ht hi hexec
  obtain ⟨hd, hst⟩ := hq i hi
  exact ht.trans ((State.exec_effect hexec).frame hd hst)

theorem Image.Obeys.quiet (h : m.Obeys stackWatch State.OnStack f (State.Frame W)) (hg : g.Closed)
    (hq : ∀ i, .instr i ∈ g → i.dest? ≠ some .sp ∧ i.stores = false) :
    m.Obeys stackWatch State.OnStack (f ++ g) (State.Frame W) :=
  (discipline_frame W).append h (obeys_quiet hg hq)

def Instr.stackOps : List Instr :=
  [.addiu .sp .sp (-4), .sw .t0 (.offset 0 .sp), .lw .t1 (.offset 0 .sp), .addiu .sp .sp 4]

theorem obeys_push
    (hw : ∀ s i, i ∈ Instr.stackOps → s.OnStack → m.code[s.pc]? = some i → w.good s) :
    m.Obeys w State.OnStack [.instr (.addiu .sp .sp (-4)), .instr (.sw .t0 (.offset 0 .sp))]
      fun s s' ↦ ∃ top, s.Pushed m s' top := by
  refine Image.obeys_instrs [.addiu .sp .sp (-4), .sw .t0 (.offset 0 .sp)]
    (by simp [Instr.sequential]) fun s hs hget ↦ .inr ⟨hw s _ (by decide) hs hget, ?_⟩
  intro s₁ h₁ hget₁
  obtain ⟨top, htop⟩ := hs
  have hplace : (⟨.stack, top⟩ : Place).shift (-4) = ⟨.stack, top - 4⟩ := rfl
  have hs₁ : s₁ = s.set .sp (.address ⟨.stack, top - 4⟩) := by
    simpa [State.exec, htop, hplace, eq_comm] using h₁
  have hsp₁ : s₁.regs .sp = .address ⟨.stack, top - 4⟩ := by simp [hs₁]
  refine .inr ⟨hw s₁ _ (by decide) ⟨_, hsp₁⟩ hget₁, fun s₂ h₂ ↦ ?_⟩
  obtain ⟨p, hp, hmapped, rfl⟩ := State.exec_sw_eq h₂
  obtain rfl : p = ⟨.stack, top - 4⟩ := by
    simpa [State.operand, hsp₁, Value.place?, Place.shift, eq_comm] using hp
  have ht : s₁.regs .t0 = s.regs .t0 := by simp [hs₁, State.set]
  refine ⟨top, htop, hsp₁, by simp [hs₁, State.set], ?_, fun q hq ↦ ?_⟩
  · rw [← ht]
    exact State.loadWord_putWord hmapped rfl
  · by_contra hout
    have hm : s₁.memory q = s.memory q := by simp [hs₁, State.set]
    refine hq ((State.putWord_of_disjoint fun hr ↦ ?_).trans hm)
    simp only [hr, true_and] at hout
    simp only
    omega

theorem obeys_pop (hw : ∀ s i, i ∈ Instr.stackOps → s.OnStack → m.code[s.pc]? = some i → w.good s) :
    m.Obeys w State.OnStack [.instr (.lw .t1 (.offset 0 .sp)), .instr (.addiu .sp .sp 4)]
      fun s s' ↦ ∃ top, s.Popped m s' top := by
  refine Image.obeys_instrs [.lw .t1 (.offset 0 .sp), .addiu .sp .sp 4]
    (by simp [Instr.sequential]) fun s hs hget ↦ .inr ⟨hw s _ (by decide) hs hget, ?_⟩
  intro s₁ h₁ hget₁
  obtain ⟨top, htop⟩ := hs
  obtain ⟨v, hv, rfl⟩ : ∃ v, s.loadWord m ⟨.stack, top⟩ = some v ∧ s.set .t1 v = s₁ := by
    simpa [State.exec, State.operand, htop, Value.place?, Place.shift, Option.bind_eq_some_iff]
      using h₁
  have hsp₁ : (s.set .t1 v).regs .sp = .address ⟨.stack, top⟩ := by simpa [State.set] using htop
  refine .inr ⟨hw _ _ (by decide) ⟨_, hsp₁⟩ hget₁, fun s₂ h₂ ↦ ?_⟩
  obtain rfl : (s.set .t1 v).set .sp (.address ⟨.stack, top + 4⟩) = s₂ := by
    simpa [State.exec, hsp₁, Place.shift] using h₂
  have he : top + 4 - 4 = top := by omega
  exact ⟨top + 4, by rw [he]; exact htop, by simp, rfl, by rw [he]; simpa [State.set] using hv,
    by simp [State.set], rfl⟩

theorem obeys_operands {l r : Fragment} (hl : m.Obeys w P l R) (hr : m.Obeys w P r R')
    (hw : ∀ s i, i ∈ Instr.stackOps → s.OnStack → m.code[s.pc]? = some i → w.good s)
    (hsl : ∀ s s', P s → R s s' → s'.OnStack) (hsr : ∀ s s', P s → R' s s' → s'.OnStack)
    (hP : ∀ s s₁ s₂ top, P s → R s s₁ → s₁.Pushed m s₂ top → m.Steps s₁ s₂ → P s₂) :
    m.Obeys w P (Template.operands l r) fun s s' ↦ ∃ s₁ s₂ s₃ top top',
      R s s₁ ∧ (s₁.Pushed m s₂ top ∧ m.Steps s₁ s₂) ∧ R' s₂ s₃ ∧
        s₃.Popped m s' top' ∧ m.Steps s₃ s' := by
  have hpush : m.Obeys w P (l ++ [.instr (.addiu .sp .sp (-4)), .instr (.sw .t0 (.offset 0 .sp))])
      fun s s₂ ↦ ∃ s₁ top, R s s₁ ∧ s₁.Pushed m s₂ top ∧ m.Steps s₁ s₂ := by
    refine hl.append (obeys_push hw).steps hsl ?_
    rintro s s₁ s₂ - h ⟨⟨top, hp⟩, hst⟩
    exact ⟨s₁, top, h, hp, hst⟩
  have hright : m.Obeys w P
      (l ++ [.instr (.addiu .sp .sp (-4)), .instr (.sw .t0 (.offset 0 .sp))] ++ r)
      fun s s₃ ↦ P s ∧ ∃ s₁ s₂ top, R s s₁ ∧ (s₁.Pushed m s₂ top ∧ m.Steps s₁ s₂) ∧ R' s₂ s₃ := by
    refine hpush.append hr ?_ ?_
    · rintro s s₂ hs ⟨s₁, top, h, hp, hst⟩
      exact hP s s₁ s₂ top hs h hp hst
    · rintro s s₂ s₃ hs ⟨s₁, top, h, hp⟩ h'
      exact ⟨hs, s₁, s₂, top, h, hp, h'⟩
  refine hright.append (obeys_pop hw).steps ?_ ?_
  · rintro s s₃ - ⟨hs, s₁, s₂, top, h, ⟨hp, hst⟩, h'⟩
    exact hsr s₂ s₃ (hP s s₁ s₂ top hs h hp hst) h'
  · rintro s s₃ s' - ⟨-, s₁, s₂, top, h, hp, h'⟩ ⟨⟨top', hp'⟩, hst'⟩
    exact ⟨s₁, s₂, s₃, top, top', h, hp, h', hp', hst'⟩

theorem frame_operands {l r : Fragment}
    (hl : m.Obeys stackWatch State.OnStack l (State.Frame W))
    (hr : m.Obeys stackWatch State.OnStack r (State.Frame W)) :
    m.Obeys stackWatch State.OnStack (Template.operands l r) (State.Frame W) := by
  refine (obeys_operands hl hr (fun s i _ hs _ ↦ hs) (fun _ _ hs h ↦ h.onStack hs)
    (fun _ _ hs h ↦ h.onStack hs) fun _ _ _ _ _ _ hp _ ↦ hp.onStack).mono (fun _ hs ↦ hs) ?_
  rintro s s' - ⟨s₁, s₂, s₃, top, top', h, ⟨hp, -⟩, h', hp', -⟩
  obtain rfl := hp'.top_unique (h'.sp.trans hp.sp')
  exact h.trans (.pushed_popped hp h' hp')

theorem frame_binary (mnemonic : String) {l r : Fragment}
    (hl : m.Obeys stackWatch State.OnStack l (State.Frame W))
    (hr : m.Obeys stackWatch State.OnStack r (State.Frame W)) :
    m.Obeys stackWatch State.OnStack (Template.binary mnemonic l r) (State.Frame W) :=
  (frame_operands hl hr).quiet (by simp [Fragment.Closed, Line.targets])
    (by simp [Instr.dest?, Instr.stores])

theorem frame_storeVariable {x : String} (hx : x ∈ cells)
    (h : m.Obeys stackWatch State.OnStack f (State.Frame (m.CellByte cells))) :
    m.Obeys stackWatch State.OnStack (Template.storeVariable f x)
      (State.Frame (m.CellByte cells)) := by
  refine (discipline_frame _).append h (Image.obeys_instrs [.sw .t0 (.cell x)]
    (by simp [Instr.sequential]) fun s hs _ ↦ .inr ⟨hs, fun s' hexec ↦ ?_⟩)
  obtain ⟨p, hp, -, rfl⟩ := State.exec_sw_eq hexec
  refine ⟨rfl, Nat.le_refl _, fun q hq ↦ .inl ⟨x, hx, p, hp, ?_⟩⟩
  by_contra hout
  refine hq (State.putWord_of_disjoint fun hr ↦ ?_)
  simp only [hr, true_and] at hout
  omega

namespace Template

def measuring (labels : ConcatLabels) : Fragment :=
  ([.instr (.move .t2 .t1), .instr (.move .t3 .t0), .instr (.li .t4 1)] : Fragment) ++
    measure labels.measureLeft labels.measureRight .t2 ++
    measure labels.measureRight labels.allocate .t3 ++
    ([.label labels.allocate, .instr (.move .a0 .t4)] : Fragment)

def allocating : List Instr := [.li .v0 9, .syscall, .move .t2 .v0]

def copying (labels : ConcatLabels) : Fragment :=
  [.label labels.copyLeft, .instr (.lb .t5 (.offset 0 .t1)),
    .instr (.beqz .t5 labels.copyRight), .instr (.sb .t5 (.offset 0 .t2)),
    .instr (.addiu .t1 .t1 1), .instr (.addiu .t2 .t2 1), .instr (.j labels.copyLeft),
    .label labels.copyRight, .instr (.lb .t5 (.offset 0 .t0)), .instr (.sb .t5 (.offset 0 .t2)),
    .instr (.addiu .t0 .t0 1), .instr (.addiu .t2 .t2 1), .instr (.bnez .t5 labels.copyRight),
    .instr (.move .t0 .v0)]

theorem concatStrings_eq (left right : Fragment) (labels : ConcatLabels) :
    concatStrings left right labels =
      operands left right ++ (measuring labels ++ (allocating.map .instr ++ copying labels)) := by
  simp [concatStrings, measuring, allocating, copying, call, Service.code]

end Template

theorem closed_measuring (labels : ConcatLabels) : (Template.measuring labels).Closed := by
  simp [Template.measuring, Template.measure, Fragment.Closed, Line.targets]

theorem closed_copying (labels : ConcatLabels) : (Template.copying labels).Closed := by
  simp [Template.copying, Fragment.Closed, Line.targets]

structure State.Allocated (s s' : State) : Prop where
  sp : s'.regs .sp = s.regs .sp
  brk : s.brk ≤ s'.brk
  memory : s'.memory = s.memory
  t2 : s'.regs .t2 = .address ⟨.heap, s.brk⟩

theorem obeys_allocating :
    m.Obeys stackWatch State.OnStack (Template.allocating.map .instr) State.Allocated := by
  refine Image.obeys_instrs _ (by decide) fun s hs _ ↦ .inr ⟨hs, ?_⟩
  rintro s₁ h₁ -
  obtain rfl : s.set .v0 (.word 9) = s₁ := Option.some.inj h₁
  have hs₁ : (s.set .v0 (.word 9)).OnStack := hs
  refine .inr ⟨hs₁, fun s₂ h₂ _ ↦ ?_⟩
  obtain ⟨size, -, rfl⟩ : ∃ size, _ ∧ _ = s₂ := by
    simpa [State.exec, State.callService, Value.word?, Service.word, Service.code,
      Option.bind_eq_some_iff] using h₂
  refine .inr ⟨hs, fun s₃ h₃ ↦ ?_⟩
  cases h₃
  exact ⟨rfl, Nat.le_add_right _ _, rfl, by simp [State.set]⟩

/-- While strings are copied, `$t2` goes upwards in the buffer. -/
structure State.Copying (s s' : State) : Prop where
  sp : s'.regs .sp = s.regs .sp
  brk : s'.brk = s.brk
  t2 (k : Int) : s.regs .t2 = .address ⟨.heap, k⟩ →
    ∃ k', s'.regs .t2 = .address ⟨.heap, k'⟩ ∧ k ≤ k'
  memory (q : Place) (k : Int) : s.regs .t2 = .address ⟨.heap, k⟩ → s'.memory q ≠ s.memory q →
    q.region = .heap ∧ k ≤ q.offset ∧ q.offset < s.brk

def Instr.fills (i : Instr) : Prop :=
  i = .sb .t5 (.offset 0 .t2) ∨ i = .addiu .t2 .t2 1 ∨
    (i.dest? ≠ some .sp ∧ i.dest? ≠ some .t2 ∧ i.stores = false ∧ i ≠ .syscall)

theorem fills_copying {labels : ConcatLabels} {i : Instr}
    (h : .instr i ∈ Template.copying labels) : i.fills := by
  simp only [Template.copying, List.mem_cons, Line.instr.injEq, reduceCtorEq, false_or, or_false,
    List.not_mem_nil] at h
  rcases h with rfl | rfl | rfl | rfl | rfl | rfl | rfl | rfl | rfl | rfl | rfl | rfl <;>
    simp [Instr.fills, Instr.dest?, Instr.stores]

theorem State.Copying.exec {t t' : State} {i : Instr} (hs : ∃ k, s.regs .t2 = .address ⟨.heap, k⟩)
    (h : s.Copying t) (hi : i.fills) (hexec : t.exec m i = some t') : s.Copying t' := by
  obtain ⟨k, hk⟩ := hs
  obtain ⟨k', hk', hle⟩ := h.t2 k hk
  have heff := State.exec_effect hexec
  have hk_eq {j : Int} (hj : s.regs .t2 = .address ⟨.heap, j⟩) : j = k := by
    simpa using hj.symm.trans hk
  rcases hi with rfl | rfl | ⟨hsp, ht2, hst, hsys⟩
  · obtain ⟨p, v, hp, -, hmapped, rfl⟩ := State.exec_sb_eq hexec
    obtain rfl : p = ⟨.heap, k'⟩ := by
      simpa [State.operand, hk', Value.place?, Place.shift, eq_comm] using hp
    refine ⟨h.sp, h.brk, h.t2, fun q j hj hq ↦ ?_⟩
    by_cases he : q = ⟨.heap, k'⟩
    · subst he
      obtain ⟨-, hlt⟩ := State.mapped_iff.1 hmapped
      rw [h.brk] at hlt
      rw [hk_eq hj]
      exact ⟨rfl, hle, hlt⟩
    · simp only [he, if_false] at hq
      exact h.memory q j hj hq
  · have ht' : t' = t.set .t2 (.address ⟨.heap, k' + 1⟩) := by
      simpa [State.exec, hk', Place.shift, eq_comm] using hexec
    refine ⟨(heff.regs .sp (by simp [Instr.dest?])).trans h.sp, (heff.brk_eq (by simp)).trans h.brk,
      fun j hj ↦ ⟨k' + 1, by simp [ht'], ?_⟩, fun q j hj hq ↦ h.memory q j hj ?_⟩
    · rw [hk_eq hj]
      omega
    · rwa [heff.memory rfl] at hq
  · refine ⟨(heff.regs .sp hsp).trans h.sp, (heff.brk_eq hsys).trans h.brk, fun j hj ↦ ?_,
      fun q j hj hq ↦ h.memory q j hj ?_⟩
    · rw [heff.regs .t2 ht2]
      exact h.t2 j hj
    · rwa [heff.memory hst] at hq

theorem obeys_copying (labels : ConcatLabels) :
    m.Obeys stackWatch (fun s ↦ s.OnStack ∧ ∃ k, s.regs .t2 = .address ⟨.heap, k⟩)
      (Template.copying labels) State.Copying := by
  refine Image.obeys_area (closed_copying labels) (fun s _ ↦ ?_) (fun s t i hs ht _ _ ↦ ?_) ?_
  · exact ⟨rfl, rfl, fun k hk ↦ ⟨k, hk, Int.le_refl k⟩, fun q _ _ hq ↦ absurd rfl hq⟩
  · obtain ⟨⟨top, htop⟩, -⟩ := hs
    exact ⟨top, ht.sp.trans htop⟩
  · exact fun s t t' i hs ht hi hexec ↦ ht.exec hs.2 (fills_copying hi) hexec

theorem frame_concatStrings {l r : Fragment} (labels : ConcatLabels)
    (hl : m.Obeys stackWatch State.OnStack l (State.Frame W))
    (hr : m.Obeys stackWatch State.OnStack r (State.Frame W)) :
    m.Obeys stackWatch State.OnStack (Template.concatStrings l r labels) (State.Frame W) := by
  have hmeasure : m.Obeys stackWatch State.OnStack (Template.measuring labels) (State.Frame W) := by
    refine obeys_quiet (closed_measuring labels) fun i hi ↦ ?_
    simp only [Template.measuring, Template.measure, List.cons_append, List.nil_append,
      List.mem_cons, List.not_mem_nil, or_false, reduceCtorEq, false_or, Line.instr.injEq] at hi
    rcases hi with rfl | rfl | rfl | rfl | rfl | rfl | rfl | rfl | rfl | rfl | rfl | rfl | rfl | rfl
      <;> simp [Instr.dest?, Instr.stores]
  have hbuffer : m.Obeys stackWatch State.OnStack
      (Template.allocating.map .instr ++ Template.copying labels) (State.Frame W) := by
    refine obeys_allocating.append (obeys_copying labels) (fun s s' hs h ↦ ?_)
      fun s s' s'' _ h h' ↦ ?_
    · obtain ⟨top, htop⟩ := hs
      exact ⟨⟨top, h.sp.trans htop⟩, _, h.t2⟩
    · have hbrk := h.brk
      refine ⟨h'.sp.trans h.sp, by rw [h'.brk]; exact hbrk, fun q hq ↦ .inr (.inr ?_)⟩
      rw [← h.memory] at hq
      obtain ⟨hr, hlo, hhi⟩ := h'.memory q _ h.t2 hq
      exact ⟨hr, hlo, by rw [h'.brk]; exact hhi⟩
  rw [Template.concatStrings_eq]
  exact (discipline_frame W).append (frame_operands hl hr)
    ((discipline_frame W).append hmeasure hbuffer)

end SpimCompiler.Mips
