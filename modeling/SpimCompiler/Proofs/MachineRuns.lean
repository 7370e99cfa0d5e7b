import SpimCompiler.Proofs.Loading

namespace SpimCompiler.Mips

@[simp]
theorem Place.shift_region (p : Place) (n : Int) : (p.shift n).region = p.region := rfl

@[simp]
theorem Place.shift_offset (p : Place) (n : Int) : (p.shift n).offset = p.offset + n := rfl

@[simp]
theorem Place.shift_shift (p : Place) (j k : Int) : (p.shift j).shift k = p.shift (j + k) := by
  simp [shift, Int.add_assoc]

@[simp]
theorem Place.shift_zero (p : Place) : p.shift 0 = p := by
  simp [shift]

namespace State

variable {m : Image} {s s' : State} {p q : Place} {v : Value}

theorem putWord_of_disjoint
    (h : q.region = p.region → q.offset < p.offset ∨ p.offset + 4 ≤ q.offset) :
    s.putWord p v q = s.memory q := by
  refine if_neg fun ⟨hr, hle, hlt⟩ ↦ ?_
  have := h hr
  omega

theorem putWord_shift (k : Nat) (hk : k < 4) : s.putWord p v (p.shift k) = v.byte k := by
  have h : (p.shift k).region = p.region ∧ p.offset ≤ (p.shift k).offset ∧
      (p.shift k).offset < p.offset + 4 := by
    simp
    omega
  have hoffset : ((p.shift k).offset - p.offset).toNat = k := by
    simp only [Place.shift_offset]
    omega
  rw [putWord, if_pos h, hoffset]

theorem loadWord_putWord (hp : s'.wordMapped m p) (hm : s'.memory = s.putWord p v) :
    s'.loadWord m p = some v := by
  have h0 : s'.memory p = v.byte 0 := by
    rw [hm]
    simpa [Place.shift] using putWord_shift (s := s) (p := p) (v := v) 0 (by decide)
  have h1 := putWord_shift (s := s) (p := p) (v := v) 1 (by decide)
  have h2 := putWord_shift (s := s) (p := p) (v := v) 2 (by decide)
  have h3 := putWord_shift (s := s) (p := p) (v := v) 3 (by decide)
  rw [loadWord, if_pos hp, h0, hm]
  exact (congr (congr (congrArg _ h1) h2) h3).trans v.ofBytes_byte

/-- A word outside the heap depends only on its bytes. -/
theorem loadWord_congr (hp : p.region ≠ .heap)
    (h : ∀ k : Nat, k < 4 → s'.memory (p.shift k) = s.memory (p.shift k)) :
    s'.loadWord m p = s.loadWord m p := by
  have hmapped : s'.wordMapped m p = s.wordMapped m p := by
    cases hr : p.region <;> simp_all [wordMapped, mapped]
  have h0 : s'.memory p = s.memory p := by simpa [Place.shift] using h 0 (by decide)
  have h1 : s'.memory (p.shift 1) = s.memory (p.shift 1) := h 1 (by decide)
  have h2 : s'.memory (p.shift 2) = s.memory (p.shift 2) := h 2 (by decide)
  have h3 : s'.memory (p.shift 3) = s.memory (p.shift 3) := h 3 (by decide)
  rw [loadWord, loadWord, hmapped, h0, h1, h2, h3]

theorem bytesFrom_eq {bytes : List UInt8} (hb : 0 ∉ bytes)
    (h : ∀ k : Nat, k ≤ bytes.length → s.memory (p.shift k) = .number ((bytes ++ [0]).getD k 0))
    {fuel : Nat} (hf : bytes.length < fuel) : s.bytesFrom fuel p = some bytes := by
  induction bytes generalizing p fuel with
  | nil =>
    cases fuel with
    | zero => omega
    | succ fuel =>
      have h0 : s.memory p = .number 0 := by simpa [Place.shift] using h 0 (by simp)
      simp [bytesFrom, h0]
  | cons b bytes ih =>
    cases fuel with
    | zero => omega
    | succ fuel =>
      simp only [List.mem_cons, not_or] at hb
      have h0 : s.memory p = .number b := by simpa [Place.shift] using h 0 (by simp)
      have hrest : s.bytesFrom fuel (p.shift 1) = some bytes := by
        refine ih hb.2 (fun k hk ↦ ?_) (by simpa using hf)
        have hk' := h (k + 1) (by simpa using hk)
        have hplace : (p.shift 1).shift k = p.shift (k + 1 : Nat) := by
          simp only [Place.shift, Place.mk.injEq, true_and]
          omega
        rw [hplace, hk']
        simp
      simp [bytesFrom, h0, hrest, Ne.symm hb.1]

end State

def Instr.sequential : Instr → Bool
  | .beqz .. | .bnez .. | .j _ => false
  | _ => true

namespace State

variable {m : Image} {s s' : State}

@[simp]
theorem reg_eq {r : Reg} (hr : r ≠ .zero) : s.reg r = s.regs r := if_neg hr

@[simp]
theorem reg_zero : s.reg .zero = .word 0 := rfl

@[simp]
theorem regs_set_self (s : State) (r : Reg) (v : Value) : (s.set r v).regs r = v := if_pos rfl

theorem regs_set_of_ne (s : State) {r q : Reg} (h : q ≠ r) (v : Value) :
    (s.set r v).regs q = s.regs q := if_neg h

theorem callService_cases (h : s.callService m = some s') :
    (∃ bytes, s' = { s.advance with output := s.output ++ [bytes] }) ∨
      ∃ size, s' = { s.set .v0 (.address ⟨.heap, s.brk⟩) with brk := s.brk + size } := by
  simp only [callService, Option.bind_eq_bind, Option.bind_eq_some_iff] at h
  obtain ⟨code, -, h⟩ := h
  split_ifs at h
  · obtain ⟨w, -, h⟩ := Option.bind_eq_some_iff.1 h
    exact .inl ⟨_, (Option.some.inj h).symm⟩
  · obtain ⟨p, -, h⟩ := Option.bind_eq_some_iff.1 h
    obtain ⟨bytes, -, h⟩ := Option.bind_eq_some_iff.1 h
    exact .inl ⟨bytes, (Option.some.inj h).symm⟩
  · obtain ⟨size, -, h⟩ := Option.bind_eq_some_iff.1 h
    exact .inr ⟨size.toNat, (Option.some.inj h).symm⟩

theorem pc_callService (h : s.callService m = some s') : s'.pc = s.pc + 1 := by
  obtain ⟨bytes, rfl⟩ | ⟨size, rfl⟩ := callService_cases h <;> rfl

theorem pc_storeWord {p : Place} {v : Value} (h : s.storeWord m p v = some s') : s'.pc = s.pc := by
  unfold storeWord at h
  split_ifs at h
  cases h
  rfl

theorem pc_storeByte {p : Place} {w : Word} (h : s.storeByte m p w = some s') : s'.pc = s.pc := by
  unfold storeByte at h
  split_ifs at h
  cases h
  rfl

theorem pc_exec {i : Instr} (hi : i.sequential) (h : s.exec m i = some s') : s'.pc = s.pc + 1 := by
  cases i with
  | syscall => exact pc_callService h
  | beqz | bnez | j => simp [Instr.sequential] at hi
  | li | move =>
    cases h
    rfl
  | la rd label =>
    obtain ⟨p, -, rfl⟩ := Option.map_eq_some_iff.1 h
    rfl
  | addiu rd rs value =>
    simp only [exec] at h
    split at h <;> cases h <;> rfl
  | lw rd source | lb rd source =>
    simp only [exec, Option.bind_eq_bind, Option.bind_eq_some_iff] at h
    obtain ⟨p, -, v, -, h⟩ := h
    cases h
    rfl
  | sw rs target =>
    simp only [exec, Option.bind_eq_bind, Option.bind_eq_some_iff] at h
    obtain ⟨p, -, s₁, hs, h⟩ := h
    cases h
    exact congrArg (· + 1) (pc_storeWord hs)
  | sb rs target =>
    simp only [exec, Option.bind_eq_bind, Option.bind_eq_some_iff] at h
    obtain ⟨p, -, w, -, s₁, hs, h⟩ := h
    cases h
    exact congrArg (· + 1) (pc_storeByte hs)
  | movn rd rs rt =>
    simp only [exec, Option.bind_eq_bind, Option.bind_eq_some_iff] at h
    obtain ⟨w, -, h⟩ := h
    cases h
    split <;> rfl
  | arith mnemonic rd rs rt =>
    simp only [exec, Option.bind_eq_bind, Option.bind_eq_some_iff] at h
    obtain ⟨a, -, b, -, w, -, h⟩ := h
    cases h
    rfl
  | xori rd rs value =>
    simp only [exec, Option.bind_eq_bind, Option.bind_eq_some_iff] at h
    obtain ⟨w, -, h⟩ := h
    cases h
    rfl

theorem exec_lw {a : Address} {rd : Reg} {p : Place} {v : Value} (ho : s.operand m a = some p)
    (hv : s.loadWord m p = some v) : s.exec m (.lw rd a) = some (s.set rd v) := by
  simp [exec, ho, hv]

theorem exec_sw {a : Address} (rs : Reg) {p : Place} (ho : s.operand m a = some p)
    (hp : s.wordMapped m p) :
    s.exec m (.sw rs a) = some { s with pc := s.pc + 1, memory := s.putWord p (s.reg rs) } := by
  simp [exec, ho, storeWord, hp, advance]

def run (m : Image) : List Instr → State → Option State
  | [], s => some s
  | i :: is, s => (s.exec m i).bind (run m is)

theorem run_singleton (i : Instr) : s.run m [i] = s.exec m i := by
  simp [run]

theorem steps_run {is : List Instr} {f : Fragment} {pc : Nat} (hi : ∀ i ∈ is, i.sequential)
    (hc : CodeAt m s.pc (is.map .instr ++ f) pc) (hr : s.run m is = some s') :
    m.Steps s s' ∧ CodeAt m s'.pc f pc := by
  induction is generalizing s with
  | nil =>
    cases hr
    exact ⟨.refl, hc⟩
  | cons i is ih =>
    simp only [List.mem_cons, forall_eq_or_imp] at hi
    obtain ⟨s₁, he, hr⟩ := Option.bind_eq_some_iff.1 hr
    obtain ⟨hget, hc⟩ := codeAt_instr.1 hc
    rw [← pc_exec hi.1 he] at hc
    obtain ⟨hsteps, hc⟩ := ih hi.2 hc hr
    have hstep : m.step s = some s₁ := by simp [Image.step, hget, he]
    exact ⟨.head hstep hsteps, hc⟩

structure Stacked (s : State) (top : Int) : Prop where
  sp : s.regs .sp = .address ⟨.stack, top⟩
  nonpos : top ≤ 0
  aligned : top % 4 = 0

/-- What the code of an expression leaves as it is: the output, the data and the part of the stack in
use. -/
structure Keeps (top : Int) (s s' : State) : Prop where
  sp : s'.regs .sp = s.regs .sp
  output : s'.output = s.output
  data (k : Int) : s'.memory ⟨.data, k⟩ = s.memory ⟨.data, k⟩
  stack (k : Int) : top ≤ k → s'.memory ⟨.stack, k⟩ = s.memory ⟨.stack, k⟩

variable {s'' : State} {top : Int}

theorem Keeps.trans (h : Keeps top s s') (h' : Keeps top s' s'') : Keeps top s s'' where
  sp := h'.sp.trans h.sp
  output := h'.output.trans h.output
  data k := (h'.data k).trans (h.data k)
  stack k hk := (h'.stack k hk).trans (h.stack k hk)

theorem Keeps.stacked (h : Keeps top s s') (hs : s.Stacked top) : s'.Stacked top :=
  ⟨h.sp.trans hs.sp, hs.nonpos, hs.aligned⟩

def pushed (s : State) (top : Int) : State :=
  { s with
    pc := s.pc + 2
    regs := fun r ↦ if r = .sp then .address ⟨.stack, top - 4⟩ else s.regs r
    memory := s.putWord ⟨.stack, top - 4⟩ (s.regs .t0) }

theorem Stacked.pushed (h : s.Stacked top) : (s.pushed top).Stacked (top - 4) := by
  obtain ⟨hsp, hle, hal⟩ := h
  exact ⟨by simp [State.pushed], by omega, by omega⟩

theorem data_pushed (s : State) (top k : Int) :
    (s.pushed top).memory ⟨.data, k⟩ = s.memory ⟨.data, k⟩ := by
  change s.putWord ⟨.stack, top - 4⟩ (s.regs .t0) ⟨.data, k⟩ = _
  exact putWord_of_disjoint (by simp)

theorem stack_pushed (s : State) {top k : Int} (hk : top ≤ k) :
    (s.pushed top).memory ⟨.stack, k⟩ = s.memory ⟨.stack, k⟩ := by
  change s.putWord ⟨.stack, top - 4⟩ (s.regs .t0) ⟨.stack, k⟩ = _
  exact putWord_of_disjoint fun _ ↦ .inr (by simp; omega)

theorem Stacked.wordMapped (h : s.Stacked top) (hlt : top < 0) (m : Image) :
    s.wordMapped m ⟨.stack, top⟩ := by
  have hal := h.aligned
  have hlast : top + 3 < 0 := by omega
  simp [State.wordMapped, mapped, Place.shift, hal, hlt, hlast]

theorem run_push (h : s.Stacked top) :
    s.run m [.addiu .sp .sp (-4), .sw .t0 (.offset 0 .sp)] = some (s.pushed top) := by
  have hle := h.nonpos
  have hmapped : s.wordMapped m ⟨.stack, top - 4⟩ := h.pushed.wordMapped (by omega) m
  have hplace : (⟨.stack, top⟩ : Place).shift (-4) = ⟨.stack, top - 4⟩ := rfl
  have hsp : s.exec m (.addiu .sp .sp (-4)) = some (s.set .sp (.address ⟨.stack, top - 4⟩)) := by
    simp [exec, h.sp, hplace]
  have hsw : (s.set .sp (.address ⟨.stack, top - 4⟩)).exec m (.sw .t0 (.offset 0 .sp)) =
      some (s.pushed top) := by
    refine exec_sw .t0 (p := ⟨.stack, top - 4⟩) ?_ hmapped
    simp [operand, set, Value.place?, Place.shift]
  simp [run, hsp, hsw]

def popped (s : State) (top : Int) (v : Value) : State :=
  { s with
    pc := s.pc + 2
    regs := fun r ↦ if r = .sp then .address ⟨.stack, top⟩ else if r = .t1 then v else s.regs r }

theorem run_pop {v : Value} (h : s.Stacked (top - 4))
    (hv : s.loadWord m ⟨.stack, top - 4⟩ = some v) :
    s.run m [.lw .t1 (.offset 0 .sp), .addiu .sp .sp 4] = some (s.popped top v) := by
  have hplace : (⟨.stack, top - 4⟩ : Place).shift 4 = ⟨.stack, top⟩ := by simp [Place.shift]
  have hlw : s.exec m (.lw .t1 (.offset 0 .sp)) = some (s.set .t1 v) := by
    refine exec_lw ?_ hv
    simp [operand, h.sp, Value.place?, Place.shift]
  have hsp : (s.set .t1 v).exec m (.addiu .sp .sp 4) = some (s.popped top v) := by
    simp [exec, set, h.sp, hplace, popped]
  simp [run, hlw, hsp]

end State

end SpimCompiler.Mips
