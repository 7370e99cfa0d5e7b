import SpimCompiler.Mips.Generation
import SpimCompiler.Proofs.Evaluation
import SpimCompiler.Proofs.MachineRuns

namespace SpimCompiler

open Mips

def Datum.word : Datum → Word
  | int n => n.toBitVec
  | bool b => flag b

theorem Int32.toBitVec_of_fit {n : Int} {k : Int32} (h : Int32.fit n = some k) :
    k.toBitVec = BitVec.ofInt 32 n ∧ -2147483648 ≤ n ∧ n ≤ 2147483647 := by
  unfold Int32.fit at h
  split_ifs at h with hn
  cases h
  exact ⟨rfl, hn⟩

theorem arithmetic_add {a b n : Int32} (h : Int32.fit (a.toInt + b.toInt) = some n) :
    arithmetic "add" a.toBitVec b.toBitVec = some n.toBitVec := by
  obtain ⟨hn, hlo, hhi⟩ := Int32.toBitVec_of_fit h
  have hover : a.toBitVec.saddOverflow b.toBitVec = false := by
    simp only [BitVec.saddOverflow, Int32.toInt_toBitVec]
    simp
    omega
  have hsum : n.toBitVec = a.toBitVec + b.toBitVec := by
    rw [hn, BitVec.ofInt_add]
    simp [← Int32.toInt_toBitVec]
  simp [arithmetic, hover, hsum]

theorem arithmetic_sub {a b n : Int32} (h : Int32.fit (a.toInt - b.toInt) = some n) :
    arithmetic "sub" a.toBitVec b.toBitVec = some n.toBitVec := by
  obtain ⟨hn, hlo, hhi⟩ := Int32.toBitVec_of_fit h
  have hover : a.toBitVec.ssubOverflow b.toBitVec = false := by
    simp only [BitVec.ssubOverflow, Int32.toInt_toBitVec]
    simp
    omega
  have hdiff : n.toBitVec = a.toBitVec - b.toBitVec := by
    apply BitVec.eq_of_toInt_eq
    rw [hn, BitVec.toInt_ofInt, BitVec.toInt_sub, Int32.toInt_toBitVec, Int32.toInt_toBitVec]
  simp [arithmetic, hover, hdiff]

theorem arithmetic_mulDiv {op : MulDivOp} {a b n : Int32} (h : op.apply a b = some n) :
    arithmetic op.mnemonic a.toBitVec b.toBitVec = some n.toBitVec := by
  cases op with
  | mul =>
    cases h
    simp [arithmetic, MulDivOp.mnemonic]
  | div =>
    unfold MulDivOp.apply at h
    split_ifs at h with hb
    obtain ⟨hn, -⟩ := Int32.toBitVec_of_fit h
    have hzero : b.toBitVec ≠ 0#32 := fun h0 ↦ hb (Int32.toBitVec_inj.1 h0)
    have hquot : n.toBitVec = a.toBitVec.sdiv b.toBitVec := by
      apply BitVec.eq_of_toInt_eq
      rw [hn, BitVec.toInt_ofInt, BitVec.toInt_sdiv, Int32.toInt_toBitVec, Int32.toInt_toBitVec]
    simp [arithmetic, MulDivOp.mnemonic, hzero, hquot]

theorem arithmetic_addSub {op : AddSubOp} {a b n : Int32} (h : op.apply a b = some n) :
    arithmetic op.mnemonic a.toBitVec b.toBitVec = some n.toBitVec := by
  cases op with
  | add => exact arithmetic_add h
  | sub => exact arithmetic_sub h

theorem arithmetic_compare (op : CompareOp) (a b : Int32) :
    arithmetic op.mnemonic a.toBitVec b.toBitVec = some (flag (op.apply a b)) := by
  have heq : a.toBitVec = b.toBitVec ↔ a.toInt = b.toInt := by
    rw [← Int32.toInt_toBitVec, ← Int32.toInt_toBitVec, BitVec.toInt_inj]
  cases op <;> simp [arithmetic, CompareOp.mnemonic, CompareOp.apply, BitVec.slt_eq_decide,
    BitVec.sle_eq_decide, heq]

namespace Mips

/-- The memory of the machine has the values of the variables in their cells, and the texts of the
truth values are in place. -/
structure Represents (m : Image) (cells : List String) (σ : Store) (s : State) : Prop where
  cell (x : String) (v : Datum) : σ x = some v → Cell.labelFor "main" x ∈ cells ∧
    ∃ p, m.place? (Cell.labelFor "main" x) = some p ∧ s.loadWord m p = some (.word v.word)
  texts (k : Nat) : k < 11 → s.memory ⟨.data, k⟩ = .number (m.data.getD k 0)

variable {m : Image} {cells : List String} {σ : Store} {s s' : State}

theorem Image.region_of_place? {name : String} {p : Place} (h : m.place? name = some p) :
    p.region = .data := by
  unfold Image.place? at h
  split at h
  · cases h
    rfl
  · cases h

theorem Represents.of_data (h : Represents m cells σ s)
    (hd : ∀ k, s'.memory ⟨.data, k⟩ = s.memory ⟨.data, k⟩) : Represents m cells σ s' := by
  refine ⟨fun x v hx ↦ ?_, fun k hk ↦ (hd k).trans (h.texts k hk)⟩
  obtain ⟨hmem, p, hp, hv⟩ := h.cell x v hx
  have hregion := Image.region_of_place? hp
  refine ⟨hmem, p, hp, ?_⟩
  rw [State.loadWord_congr (by simp [hregion]) fun j _ ↦ ?_, hv]
  have hdata := hd (p.offset + j)
  rwa [← hregion] at hdata

/-- The code computes a word: wherever it stands, it runs through and leaves the word in `$t0`. -/
def Yields (m : Image) (cells : List String) (σ : Store) (f : Fragment) (w : Word) : Prop :=
  ∀ ⦃s : State⦄ ⦃top : Int⦄ ⦃pc : Nat⦄, s.Stacked top → Represents m cells σ s →
    CodeAt m s.pc f pc → ∃ s', m.Steps s s' ∧ s'.pc = pc ∧ s'.regs .t0 = .word w ∧
      State.Keeps top s s'

theorem State.keeps_set (s : State) (top : Int) {r : Reg} (hr : r ≠ .sp) (v : Value) :
    State.Keeps top s (s.set r v) :=
  ⟨s.regs_set_of_ne hr.symm v, rfl, fun _ ↦ rfl, fun _ _ ↦ rfl⟩

theorem yields_instr {i : Instr} {w : Word} (hi : i.sequential)
    (he : ∀ s : State, Represents m cells σ s → s.exec m i = some (s.set .t0 (.word w))) :
    Yields m cells σ [.instr i] w := by
  intro s top pc hs hrep hc
  have hrun : s.run m [i] = some (s.set .t0 (.word w)) := by simp [State.run, he s hrep]
  obtain ⟨hsteps, hpc⟩ := State.steps_run (f := []) (by simpa using hi) hc hrun
  exact ⟨_, hsteps, (codeAt_nil.1 hpc).symm, s.regs_set_self _ _, s.keeps_set top (by decide) _⟩

theorem Yields.append {f : Fragment} {a w : Word} {i : Instr} (h : Yields m cells σ f a)
    (hi : i.sequential)
    (he : ∀ s : State, s.regs .t0 = .word a → s.exec m i = some (s.set .t0 (.word w))) :
    Yields m cells σ (f ++ [.instr i]) w := by
  intro s top pc hs hrep hc
  obtain ⟨mid, hf, hc⟩ := codeAt_append.1 hc
  obtain ⟨s₁, hsteps₁, rfl, ht, hk⟩ := h hs hrep hf
  have hrun : s₁.run m [i] = some (s₁.set .t0 (.word w)) := by simp [State.run, he s₁ ht]
  obtain ⟨hsteps, hpc⟩ := State.steps_run (f := []) (by simpa using hi) hc hrun
  exact ⟨_, hsteps₁.trans hsteps, (codeAt_nil.1 hpc).symm, s₁.regs_set_self _ _,
    hk.trans (s₁.keeps_set top (by decide) _)⟩

theorem yields_loadImmediate (v : Int) :
    Yields m cells σ (Template.loadImmediate v) (BitVec.ofInt 32 v) :=
  yields_instr rfl fun _ _ ↦ rfl

theorem yields_loadVariable {x : String} {v : Datum} (hx : σ x = some v) :
    Yields m cells σ (Template.loadVariable (Cell.labelFor "main" x)) v.word := by
  refine yields_instr rfl fun s hrep ↦ ?_
  obtain ⟨-, p, hp, hv⟩ := hrep.cell x v hx
  exact State.exec_lw hp hv

theorem Yields.unaryMinus {f : Fragment} {a n : Int32} (h : Yields m cells σ f a.toBitVec)
    (hn : Int32.fit (-a.toInt) = some n) :
    Yields m cells σ (Template.unaryMinus f) n.toBitVec := by
  refine h.append rfl fun s ht ↦ ?_
  have hsub : arithmetic "sub" 0#32 a.toBitVec = some n.toBitVec :=
    arithmetic_sub (a := 0) (by simpa using hn)
  simp [State.exec, ht, Value.word?, hsub]

theorem Yields.logicalNot {f : Fragment} {b : Bool} (h : Yields m cells σ f (flag b)) :
    Yields m cells σ (Template.logicalNot f) (flag !b) := by
  refine h.append rfl fun s ht ↦ ?_
  have hxor : flag b ^^^ 1#32 = flag !b := by cases b <;> decide
  simp [State.exec, ht, Value.word?, hxor]

/-- Both operands run one after the other, with the left one on the stack in between. -/
theorem Yields.binary {l r : Fragment} {a b w : Word} {mnemonic : String}
    (hl : Yields m cells σ l a) (hr : Yields m cells σ r b)
    (hw : arithmetic mnemonic a b = some w) :
    Yields m cells σ (Template.binary mnemonic l r) w := by
  intro s top pc hs hrep hc
  simp only [Template.binary, Template.operands, codeAt_append] at hc
  obtain ⟨_, ⟨_, ⟨_, ⟨_, hcl, hcpush⟩, hcr⟩, hcpop⟩, hcop⟩ := hc
  obtain ⟨s₁, hsteps₁, rfl, ht₁, hk₁⟩ := hl hs hrep hcl
  have hs₁ := hk₁.stacked hs
  obtain ⟨hsteps₂, hpc₂⟩ := State.steps_run (f := []) (by simp [Instr.sequential]) hcpush
    (State.run_push hs₁)
  obtain rfl := codeAt_nil.1 hpc₂
  have hrep₂ : Represents m cells σ (s₁.pushed top) :=
    (hrep.of_data hk₁.data).of_data (s₁.data_pushed top)
  obtain ⟨s₃, hsteps₃, rfl, ht₃, hk₃⟩ := hr hs₁.pushed hrep₂ hcr
  have hs₃ := hk₃.stacked hs₁.pushed
  have hle := hs.nonpos
  have hload₂ : (s₁.pushed top).loadWord m ⟨.stack, top - 4⟩ = some (s₁.regs .t0) :=
    State.loadWord_putWord (hs₁.pushed.wordMapped (by omega) m) rfl
  have hload₃ : s₃.loadWord m ⟨.stack, top - 4⟩ = some (.word a) := by
    have hkept (j : Nat) : s₃.memory (Place.shift ⟨.stack, top - 4⟩ j) =
        (s₁.pushed top).memory (Place.shift ⟨.stack, top - 4⟩ j) :=
      hk₃.stack _ (Int.le_add_of_nonneg_right (Int.natCast_nonneg j))
    rw [State.loadWord_congr (by simp) fun j _ ↦ hkept j, hload₂, ht₁]
  obtain ⟨hsteps₄, hpc₄⟩ := State.steps_run (f := []) (by simp [Instr.sequential]) hcpop
    (State.run_pop hs₃ hload₃)
  obtain rfl := codeAt_nil.1 hpc₄
  have hrun : (s₃.popped top (.word a)).run m [.arith mnemonic .t0 .t1 .t0] =
      some ((s₃.popped top (.word a)).set .t0 (.word w)) := by
    have ht : (s₃.popped top (.word a)).regs .t0 = .word b := ht₃
    have ht' : (s₃.popped top (.word a)).regs .t1 = .word a := rfl
    simp [State.run, State.exec, ht, ht', Value.word?, hw]
  obtain ⟨hsteps₅, hpc₅⟩ := State.steps_run (f := []) (by simp [Instr.sequential]) hcop hrun
  refine ⟨_, hsteps₁.trans (hsteps₂.trans (hsteps₃.trans (hsteps₄.trans hsteps₅))),
    (codeAt_nil.1 hpc₅).symm, State.regs_set_self _ _ _, ?_⟩
  exact {
    sp := hs.sp.symm
    output := hk₃.output.trans hk₁.output
    data := fun k ↦ (hk₃.data k).trans ((s₁.data_pushed top k).trans (hk₁.data k))
    stack := fun k hk ↦
      (hk₃.stack k (by omega)).trans ((s₁.stack_pushed hk).trans (hk₁.stack k hk)) }

end Mips

end SpimCompiler
