import SpimCompiler.Proofs.MemoryFrame

namespace SpimCompiler.Mips

variable {m : Image} {good good' : State → Prop} {trap : Prop} {lo hi lo' hi' : Nat}
  {Q Q' : State → Prop} {s s' t t' : State} {i : Instr} {p q : Place} {bytes : List UInt8}

namespace Image

/-- The machine executes instructions from `lo` up to `hi` in good states until it comes to a state
with the property `Q`, or until it stops, which happens only if `trap` holds. -/
inductive Ends (m : Image) (good : State → Prop) (trap : Prop) (lo hi : Nat)
    (Q : State → Prop) : State → Prop
  | done {s : State} : Q s → Ends m good trap lo hi Q s
  | step {s s' : State} : lo ≤ s.pc ∧ s.pc < hi → good s → m.step s = some s' →
      Ends m good trap lo hi Q s' → Ends m good trap lo hi Q s
  | stop {s : State} : lo ≤ s.pc ∧ s.pc < hi → good s → trap → m.step s = none →
      Ends m good trap lo hi Q s

namespace Ends

theorem exec (hin : lo ≤ t.pc ∧ t.pc < hi) (hg : good t) (hc : m.code[t.pc]? = some i)
    (he : t.exec m i = some t') (h : m.Ends good trap lo hi Q t') :
    m.Ends good trap lo hi Q t :=
  .step hin hg ((step_eq hc).trans he) h

theorem seq (h : m.Ends good trap lo hi Q s) (hlo : lo' ≤ lo) (hhi : hi ≤ hi')
    (hQ : ∀ t, Q t → m.Ends good trap lo' hi' Q' t) : m.Ends good trap lo' hi' Q' s := by
  induction h with
  | done h => exact hQ _ h
  | step hin hg hs _ ih => exact .step (by omega) hg hs ih
  | stop hin hg ht hs => exact .stop (by omega) hg ht hs

theorem imp (h : m.Ends good trap lo hi Q s) (hQ : ∀ t, Q t → Q' t) :
    m.Ends good trap lo hi Q' s :=
  h.seq (Nat.le_refl _) (Nat.le_refl _) fun t ht ↦ .done (hQ t ht)

theorem reached (h : m.Ends good trap lo hi Q s)
    (hgood : ∀ t, m.StepsIn lo hi s t → lo ≤ t.pc ∧ t.pc < hi → good t → good' t) :
    m.Ends good' trap lo hi (fun t ↦ Q t ∧ m.StepsIn lo hi s t) s := by
  have hfrom {t : State} (hst : m.StepsIn lo hi s t) (h : m.Ends good trap lo hi Q t) :
      m.Ends good' trap lo hi (fun t ↦ Q t ∧ m.StepsIn lo hi s t) t := by
    induction h with
    | done h => exact .done ⟨h, hst⟩
    | step hin hg hs _ ih => exact .step hin (hgood _ hst hin hg) hs (ih (hst.tail ⟨hin, hs⟩))
    | stop hin hg ht hs => exact .stop hin (hgood _ hst hin hg) ht hs
  exact hfrom .refl h

theorem confines {w : Watch} {n : Nat} (h : m.Ends w.good trap lo hi Q s) :
    m.Confines w lo hi Q n s := by
  induction h generalizing n with
  | done h => exact .done h
  | step hin hg hs _ ih =>
    refine .step hin (.inr ⟨hg, fun k _ t ht ↦ ?_⟩)
    rw [hs, Option.some.injEq] at ht
    exact ht ▸ ih
  | stop hin hg _ hs =>
    refine .step hin (.inr ⟨hg, fun k _ t ht ↦ ?_⟩)
    rw [hs] at ht
    cases ht

theorem outcome (h : m.Ends good trap lo hi Q s) :
    ∃ t, m.StepsIn lo hi s t ∧ (Q t ∨ trap ∧ (lo ≤ t.pc ∧ t.pc < hi) ∧ m.step t = none) := by
  induction h with
  | done h => exact ⟨_, .refl, .inl h⟩
  | step hin _ hs _ ih =>
    obtain ⟨t, ht, h⟩ := ih
    exact ⟨t, .head ⟨hin, hs⟩ ht, h⟩
  | stop hin _ ht hs => exact ⟨_, .refl, .inr ⟨ht, hin, hs⟩⟩

end Ends

end Image

namespace State

/-- The bytes stand at a place in memory, with a zero behind them and none among them. -/
structure StringAt (m : Image) (s : State) (p : Place) (bytes : List UInt8) : Prop where
  nonzero : 0 ∉ bytes
  mapped (k : Nat) : k ≤ bytes.length → s.mapped m (p.shift k)
  memory (k : Nat) : k ≤ bytes.length → s.memory (p.shift k) = .number ((bytes ++ [0]).getD k 0)

theorem of_bytesFrom {fuel : Nat} (h : s.bytesFrom fuel p = some bytes) :
    0 ∉ bytes ∧ bytes.length < fuel ∧
      ∀ k ≤ bytes.length, s.memory (p.shift k) = .number ((bytes ++ [0]).getD k 0) := by
  induction fuel generalizing p bytes with
  | zero => cases h
  | succ fuel ih =>
    rw [bytesFrom] at h
    split at h
    next n hn =>
      split_ifs at h with h0
      · cases h
        subst h0
        simp [hn]
      · obtain ⟨rest, hrest, rfl⟩ := Option.map_eq_some_iff.1 h
        obtain ⟨hzero, hlt, hmemory⟩ := ih hrest
        refine ⟨by simp [hzero, Ne.symm h0], by simpa using hlt, fun k hk ↦ ?_⟩
        cases k with
        | zero => simpa using hn
        | succ k =>
          have hk' := hmemory k (by simpa using hk)
          rw [Place.shift_shift, Int.add_comm] at hk'
          simpa using hk'
    next => cases h

theorem string?_eq_some_iff : s.string? m p = some bytes ↔ s.StringAt m p bytes := by
  constructor
  · intro h
    unfold string? at h
    split_ifs at h with hp
    rw [mapped_iff] at hp
    obtain ⟨fuel, hfuel, hmapped⟩ : ∃ fuel, s.bytesFrom fuel p = some bytes ∧
        ∀ k : Nat, k < fuel → s.mapped m (p.shift k) := by
      simp only [mapped_iff, Place.shift_region, Place.shift_offset]
      cases hr : p.region <;> simp only [hr] at h hp ⊢ <;>
        exact ⟨_, h, fun k hk ↦ by omega⟩
    obtain ⟨hzero, hlt, hmemory⟩ := of_bytesFrom hfuel
    exact ⟨hzero, fun k hk ↦ hmapped k (by omega), hmemory⟩
  · intro h
    have hp : s.mapped m p := by simpa using h.mapped 0 (Nat.zero_le _)
    have hlast := h.mapped _ (Nat.le_refl _)
    rw [string?, if_pos hp]
    rw [mapped_iff] at hp hlast
    simp only [Place.shift_region, Place.shift_offset] at hlast
    cases hr : p.region <;> simp only [hr] at hp hlast <;>
      exact bytesFrom_eq h.nonzero h.memory (by omega)

theorem StringAt.head {b : UInt8} (h : s.StringAt m p (b :: bytes)) :
    s.mapped m p ∧ s.memory p = .number b ∧ b ≠ 0 := by
  refine ⟨by simpa using h.mapped 0 (by simp), by simpa using h.memory 0 (by simp), ?_⟩
  have hn := h.nonzero
  simp only [List.mem_cons, not_or] at hn
  exact Ne.symm hn.1

theorem StringAt.tail {b : UInt8} (h : s.StringAt m p (b :: bytes)) :
    s.StringAt m (p.shift 1) bytes := by
  refine ⟨fun hn ↦ h.nonzero (List.mem_cons_of_mem b hn), fun k hk ↦ ?_, fun k hk ↦ ?_⟩
  · simpa [Int.add_comm] using h.mapped (k + 1) (by simpa using hk)
  · simpa [Int.add_comm] using h.memory (k + 1) (by simpa using hk)

theorem StringAt.nil (h : s.StringAt m p []) : s.mapped m p ∧ s.memory p = .number 0 :=
  ⟨by simpa using h.mapped 0 (by simp), by simpa using h.memory 0 (by simp)⟩

theorem mapped_of_brk_le (h : s.mapped m p) (hbrk : s.brk ≤ t.brk) : t.mapped m p := by
  rw [mapped_iff] at h ⊢
  cases hr : p.region <;> simp only [hr] at h ⊢ <;> omega

theorem StringAt.of_memory (h : s.StringAt m p bytes) (hbrk : s.brk ≤ t.brk)
    (hm : ∀ k : Nat, k ≤ bytes.length → t.memory (p.shift k) = s.memory (p.shift k)) :
    t.StringAt m p bytes :=
  ⟨h.nonzero, fun k hk ↦ mapped_of_brk_le (h.mapped k hk) hbrk,
    fun k hk ↦ (hm k hk).trans (h.memory k hk)⟩

/-- What the code that joins two strings leaves as it is: all that was in use before. -/
structure Grown (s t : State) : Prop where
  sp : t.regs .sp = s.regs .sp
  output : t.output = s.output
  brk : s.brk ≤ t.brk
  memory (q : Place) : t.memory q ≠ s.memory q → s.Fresh t q

theorem grown_refl (s : State) : s.Grown s := ⟨rfl, rfl, Nat.le_refl _, fun _ h ↦ absurd rfl h⟩

theorem Grown.frame {W : Place → Prop} (h : s.Grown t) : s.Frame W t :=
  ⟨h.sp, h.brk, fun q hq ↦ .inr (.inr (h.memory q hq))⟩

theorem Grown.memory_eq (h : s.Grown t) (hbrk : t.brk = s.brk) : t.memory = s.memory := by
  funext q
  by_contra hne
  obtain ⟨-, hle, hlt⟩ := h.memory q hne
  omega

theorem StringAt.grown (h : s.StringAt m p bytes) (hg : s.Grown t) : t.StringAt m p bytes := by
  refine h.of_memory hg.brk fun k hk ↦ ?_
  by_contra hne
  obtain ⟨hr, hle, -⟩ := hg.memory _ hne
  have hmapped := mapped_iff.1 (h.mapped k hk)
  simp only [hr] at hmapped
  omega

end State

def Instr.reads : Instr → Bool
  | .lw .. | .lb .. | .syscall => true
  | _ => false

def Instr.quiet : Instr → Bool
  | .li rd _ | .move rd _ | .addiu rd _ _ => rd ≠ .sp
  | .beqz .. | .bnez .. | .j _ => true
  | _ => false

theorem Instr.reads_of_quiet (h : i.quiet) : i.reads = false := by
  cases i <;> first | rfl | cases h

theorem State.Grown.exec (h : s.Grown t) (he : t.exec m i = some t') (hd : i.dest? ≠ some .sp)
    (hst : i.stores = false) (hc : i ≠ .syscall) : s.Grown t' := by
  have heff := State.exec_effect he
  refine ⟨(heff.regs _ hd).trans h.sp, (heff.output hc).trans h.output,
    Nat.le_trans h.brk heff.brk, fun q hq ↦ ?_⟩
  rw [heff.memory hst] at hq
  obtain ⟨hr, hlo, hhi⟩ := h.memory q hq
  have hbrk := heff.brk
  exact ⟨hr, hlo, by omega⟩

theorem State.Grown.quiet (h : s.Grown t) (hi : i.quiet) (he : t.exec m i = some t') :
    s.Grown t' := by
  refine h.exec he ?_ ?_ ?_ <;> cases i <;>
    simp_all [Instr.quiet, Instr.dest?, Instr.stores]

theorem ofNat_signExtend (n : UInt8) : UInt8.ofNat (n.toBitVec.signExtend 32).toNat = n := by
  apply UInt8.toBitVec_inj.1
  apply BitVec.eq_of_getLsbD_eq
  intro i hi
  rw [UInt8.toBitVec_ofNat', BitVec.ofNat_toNat, BitVec.getLsbD_setWidth,
    BitVec.getLsbD_signExtend]
  simp [hi]
  omega

theorem signExtend_eq_zero {n : UInt8} : n.toBitVec.signExtend 32 = 0 ↔ n = 0 := by
  refine ⟨fun h ↦ ?_, fun h ↦ by subst h; rfl⟩
  rw [← ofNat_signExtend n, h]
  rfl

namespace State

@[simp]
theorem pc_set (s : State) (r : Reg) (v : Value) : (s.set r v).pc = s.pc + 1 := rfl

@[simp]
theorem pc_goto (s : State) (pc : Nat) : (s.goto pc).pc = pc := rfl

@[simp]
theorem regs_goto (s : State) (pc : Nat) : (s.goto pc).regs = s.regs := rfl

theorem regs_set (s : State) (r q : Reg) (v : Value) :
    (s.set r v).regs q = if q = r then v else s.regs q := rfl

variable {c r : Reg} {v : Value} {w : Word} {k : Int} {label : String} {pc : Nat} {n : UInt8}

theorem exec_lb (hc : c ≠ .zero) (hp : t.regs c = .address p) (hm : t.mapped m p)
    (hn : t.memory p = .number n) : t.exec m (.lb .t5 (.offset 0 c)) =
      some (t.set .t5 (.word (n.toBitVec.signExtend 32))) := by
  simp [exec, operand, hc, hp, Value.place?, loadByte, hm, hn]

theorem exec_addiu_word (hc : c ≠ .zero) (hw : t.regs c = .word w) :
    t.exec m (.addiu c c k) = some (t.set c (.word (w + BitVec.ofInt 32 k))) := by
  simp [exec, hc, hw]

theorem exec_addiu_address (hc : c ≠ .zero) (hp : t.regs c = .address p) :
    t.exec m (.addiu c c k) = some (t.set c (.address (p.shift k))) := by
  simp [exec, hc, hp]

theorem exec_beqz (hc : c ≠ .zero) (hw : t.regs c = .word w) (hl : m.target? label = some pc) :
    t.exec m (.beqz c label) = some (t.goto (if w = 0 then pc else t.pc + 1)) := by
  have hexec : t.exec m (.beqz c label) =
      if w = 0 then some (t.goto pc) else some (t.goto (t.pc + 1)) := by
    simp [exec, hc, hw, Value.word?, jump, hl, goto, advance]
  rw [hexec]
  split_ifs <;> rfl

theorem exec_bnez (hc : c ≠ .zero) (hw : t.regs c = .word w) (hl : m.target? label = some pc) :
    t.exec m (.bnez c label) = some (t.goto (if w = 0 then t.pc + 1 else pc)) := by
  have hexec : t.exec m (.bnez c label) =
      if w = 0 then some (t.goto (t.pc + 1)) else some (t.goto pc) := by
    simp [exec, hc, hw, Value.word?, jump, hl, goto, advance]
  rw [hexec]
  split_ifs <;> rfl

theorem exec_j (hl : m.target? label = some pc) : t.exec m (.j label) = some (t.goto pc) := by
  simp [exec, jump, hl, goto]

/-- The second state differs from the first in the registers of a loop that goes along a string with
`c` and counts with `r`. -/
structure Looped (c r : Reg) (t t' : State) : Prop where
  regs (q : Reg) : q ≠ c → q ≠ r → q ≠ .t5 → t'.regs q = t.regs q
  brk : t'.brk = t.brk

theorem Looped.trans {t'' : State} (h : t.Looped c r t') (h' : t'.Looped c r t'') :
    t.Looped c r t'' :=
  ⟨fun q hc hr h5 ↦ (h'.regs q hc hr h5).trans (h.regs q hc hr h5), h'.brk.trans h.brk⟩

def filled : (Place → Byte) → Int → List UInt8 → Place → Byte
  | memory, _, [] => memory
  | memory, d, n :: bytes =>
    filled (fun x ↦ if x = ⟨.heap, d⟩ then .number n else memory x) (d + 1) bytes

theorem filled_append (memory : Place → Byte) (d : Int) (a b : List UInt8) :
    filled memory d (a ++ b) = filled (filled memory d a) (d + a.length) b := by
  induction a generalizing memory d with
  | nil => simp [filled]
  | cons n a ih =>
    have hd : d + 1 + a.length = d + (n :: a).length := by
      rw [List.length_cons]
      omega
    rw [List.cons_append, filled, ih, filled, hd]

structure Copied (c : Reg) (d : Int) (bytes : List UInt8) (t t' : State) : Prop
    extends Looped c .t2 t t' where
  t2 : t'.regs .t2 = .address ⟨.heap, d + bytes.length⟩
  memory : t'.memory = filled t.memory d bytes

theorem Copied.cons {t'' : State} {d : Int} (h : t.Copied c d [n] t')
    (h' : t'.Copied c (d + 1) bytes t'') : t.Copied c d (n :: bytes) t'' := by
  refine ⟨h.toLooped.trans h'.toLooped, ?_, ?_⟩
  · rw [h'.t2, List.length_cons]
    congr 2
    omega
  · rw [h'.memory, h.memory]
    rfl

/-- Where the copy begins, `$t5` may hold anything. -/
theorem Copied.of_eq {d : Int} (h : t.Copied c d bytes t')
    (hregs : ∀ q, q ≠ .t5 → t.regs q = s.regs q) (hbrk : t.brk = s.brk)
    (hmemory : t.memory = s.memory) : s.Copied c d bytes t' := by
  refine ⟨⟨fun q hc h2 h5 ↦ (h.regs q hc h2 h5).trans (hregs q h5), h.brk.trans hbrk⟩, h.t2, ?_⟩
  rw [h.memory, hmemory]

end State

def Template.copyLeft (start next : String) : Fragment :=
  [.label start, .instr (.lb .t5 (.offset 0 .t1)), .instr (.beqz .t5 next),
    .instr (.sb .t5 (.offset 0 .t2)), .instr (.addiu .t1 .t1 1), .instr (.addiu .t2 .t2 1),
    .instr (.j start)]

def Template.copyRight (start : String) : Fragment :=
  [.label start, .instr (.lb .t5 (.offset 0 .t0)), .instr (.sb .t5 (.offset 0 .t2)),
    .instr (.addiu .t0 .t0 1), .instr (.addiu .t2 .t2 1), .instr (.bnez .t5 start)]

theorem Template.copying_eq (labels : ConcatLabels) : Template.copying labels =
    Template.copyLeft labels.copyLeft labels.copyRight ++
      (Template.copyRight labels.copyRight ++ ([.instr (.move .t0 .v0)] : Fragment)) := rfl

section loops

variable {c : Reg} {start next : String} {w : Word}
  (hq : ∀ t i, s.Grown t → m.code[t.pc]? = some i → i.reads = false → good t)
include hq

theorem Image.Ends.quiet (hg : s.Grown t) (hin : lo ≤ t.pc ∧ t.pc < hi)
    (hc : m.code[t.pc]? = some i) (hi' : i.quiet) (he : t.exec m i = some t')
    (h : s.Grown t' → m.Ends good trap lo hi Q t') : m.Ends good trap lo hi Q t :=
  .exec hin (hq t i hg hc (Instr.reads_of_quiet hi')) hc he (h (hg.quiet hi' he))

/-- The byte at the cursor is read into `$t5`. The zero behind a string leads to the label. -/
theorem ends_test {n : UInt8} {k : Nat} (hc : c ≠ .zero)
    (hlb : m.code[t.pc]? = some (.lb .t5 (.offset 0 c)))
    (hbeqz : m.code[t.pc + 1]? = some (.beqz .t5 next)) (hnext : m.target? next = some k)
    (hin : lo ≤ t.pc ∧ t.pc + 1 < hi) (hgood : good t) (hg : s.Grown t)
    (hcur : t.regs c = .address p) (hm : t.mapped m p) (hn : t.memory p = .number n)
    (h : s.Grown ((t.set .t5 (.word (n.toBitVec.signExtend 32))).goto
        (if n = 0 then k else t.pc + 2)) →
      m.Ends good trap lo hi Q ((t.set .t5 (.word (n.toBitVec.signExtend 32))).goto
        (if n = 0 then k else t.pc + 2))) : m.Ends good trap lo hi Q t := by
  have hexec := State.exec_lb hc hcur hm hn
  have hbranch := State.exec_beqz (by decide)
    (State.regs_set_self t .t5 (.word (n.toBitVec.signExtend 32))) hnext
  simp only [signExtend_eq_zero, State.pc_set] at hbranch
  refine .exec (by omega) hgood hlb hexec ?_
  exact .quiet hq (hg.exec hexec (by simp [Instr.dest?]) rfl (by simp)) (by simp; omega) hbeqz rfl
    hbranch h

theorem ends_measure (hc : c ∉ [Reg.zero, .t4, .t5, .sp])
    (hcode : CodeAt m lo (Template.measure start next c) hi) (hnext : m.target? next = some hi)
    (hs : s.StringAt m p bytes)
    (hread : ∀ t (k : Nat), s.Grown t → m.code[t.pc]? = some (.lb .t5 (.offset 0 c)) →
      t.regs c = .address (p.shift k) → k ≤ bytes.length → good t)
    (hg : s.Grown t) (hpc : t.pc = lo) (hcur : t.regs c = .address p)
    (hw : t.regs .t4 = .word w) :
    m.Ends good trap lo hi (fun t' ↦ t'.pc = hi ∧ s.Grown t' ∧ t.Looped c .t4 t' ∧
      t'.regs .t4 = .word (w + BitVec.ofNat 32 bytes.length)) t := by
  simp only [List.mem_cons, List.not_mem_nil, or_false, not_or] at hc
  obtain ⟨hzero, ht4, ht5, hsp⟩ := hc
  simp only [Template.measure, codeAt_label, codeAt_instr, codeAt_nil] at hcode
  obtain ⟨hstart, hlb, hbeqz, hcount, hmove, hj, rfl⟩ := hcode
  -- on the bytes ahead of the cursor; `w` is the count when it stands there
  induction bytes generalizing p t w with
  | nil =>
    subst hpc
    obtain ⟨hm, hn⟩ := (hs.grown hg).nil
    refine ends_test hq hzero hlb hbeqz hnext (by omega)
      (hread t 0 hg hlb (by simpa using hcur) (by simp)) hg hcur hm hn fun hg₁ ↦ ?_
    refine .done ⟨rfl, hg₁, ⟨fun q _ _ h5 ↦ State.regs_set_of_ne t h5 _, rfl⟩, ?_⟩
    simpa [State.regs_set] using hw
  | cons b bytes ih =>
    subst hpc
    obtain ⟨hm, hn, hne⟩ := (hs.grown hg).head
    refine ends_test hq hzero hlb hbeqz hnext (by omega)
      (hread t 0 hg hlb (by simpa using hcur) (by simp)) hg hcur hm hn fun hg₁ ↦ ?_
    rw [if_neg hne] at hg₁ ⊢
    refine .quiet hq hg₁ (by simp) hcount rfl (State.exec_addiu_word (w := w) (by decide) ?_)
      fun hg₂ ↦ ?_
    · simpa [State.regs_set] using hw
    refine .quiet hq hg₂ (by simp; omega) hmove (by simp [Instr.quiet, hsp])
      (State.exec_addiu_address (p := p) hzero ?_) fun hg₃ ↦ ?_
    · simpa [State.regs_set, ht4, ht5] using hcur
    refine .quiet hq hg₃ (by simp; omega) hj rfl (State.exec_j hstart) fun hg₄ ↦ ?_
    refine (ih hs.tail (fun u k hu hget hk hle ↦ ?_) hg₄ rfl (w := w + 1) ?_ ?_).imp ?_
    · exact hread u (k + 1) hu hget (by simpa [Int.add_comm] using hk) (by simpa using hle)
    · simp
    · simp [State.regs_set, Ne.symm ht4]
    · rintro u ⟨hpc, hu, hloop, hcounted⟩
      refine ⟨hpc, hu, ⟨fun q hc h4 h5 ↦ (hloop.regs q hc h4 h5).trans ?_, hloop.brk⟩, ?_⟩
      · simp [State.regs_set, hc, h4, h5]
      · rw [hcounted, List.length_cons, Nat.add_comm, BitVec.ofNat_add, BitVec.add_assoc]
        rfl

theorem ends_put {n : UInt8} {d : Int} (hc : c ∉ [Reg.zero, .t2, .t5, .sp])
    (hsb : m.code[t.pc]? = some (.sb .t5 (.offset 0 .t2)))
    (hmove : m.code[t.pc + 1]? = some (.addiu c c 1))
    (hfill : m.code[t.pc + 2]? = some (.addiu .t2 .t2 1)) (hin : lo ≤ t.pc ∧ t.pc + 2 < hi)
    (hg : s.Grown t) (hd : (s.brk : Int) ≤ d) (hn : t.regs .t5 = .word (n.toBitVec.signExtend 32))
    (ht2 : t.regs .t2 = .address ⟨.heap, d⟩) (hcur : t.regs c = .address p)
    (htrap : (t.brk : Int) ≤ d → trap)
    (hnext : ∀ t', t'.pc = t.pc + 3 → s.Grown t' → t.Copied c d [n] t' →
      t'.regs c = .address (p.shift 1) → t'.regs .t5 = t.regs .t5 → d < t.brk →
      m.Ends good trap lo hi Q t') : m.Ends good trap lo hi Q t := by
  simp only [List.mem_cons, List.not_mem_nil, or_false, not_or] at hc
  obtain ⟨hzero, h2, h5, hsp⟩ := hc
  have hgood : good t := hq t _ hg hsb rfl
  have hoperand : t.operand m (.offset 0 .t2) = some ⟨.heap, d⟩ := by
    simp [State.operand, ht2, Value.place?]
  by_cases hlt : d < t.brk
  · have hmapped : t.mapped m ⟨.heap, d⟩ := State.mapped_iff.2 ⟨by simp only; omega, hlt⟩
    have hexec : t.exec m (.sb .t5 (.offset 0 .t2)) = some { t with
        pc := t.pc + 1
        memory := fun x ↦ if x = ⟨.heap, d⟩ then .number n else t.memory x } := by
      simp [State.exec, hoperand, hn, Value.word?, State.storeByte, hmapped, State.advance,
        ofNat_signExtend]
    refine .exec (by omega) hgood hsb hexec ?_
    have hg₁ : s.Grown { t with
        pc := t.pc + 1
        memory := fun x ↦ if x = ⟨.heap, d⟩ then .number n else t.memory x } := by
      refine ⟨hg.sp, hg.output, hg.brk, fun x hx ↦ ?_⟩
      by_cases he : x = ⟨.heap, d⟩
      · exact ⟨by rw [he], by rw [he]; exact hd, by rw [he]; exact hlt⟩
      · simp only [he, if_false] at hx
        exact hg.memory x hx
    refine .quiet hq hg₁ (by simp; omega) hmove (by simp [Instr.quiet, hsp])
      (State.exec_addiu_address hzero (p := p) hcur) fun hg₂ ↦ ?_
    refine .quiet hq hg₂ (by simp; omega) hfill rfl
      (State.exec_addiu_address (p := ⟨.heap, d⟩) (by decide) ?_) fun hg₃ ↦ ?_
    · simpa [State.regs_set, Ne.symm h2] using ht2
    refine hnext _ rfl hg₃ ⟨⟨fun q hc h2 h5 ↦ ?_, rfl⟩, ?_, rfl⟩ ?_ ?_ hlt
    · simp [State.regs_set, hc, h2]
    · simp [Place.shift]
    · simp [State.regs_set, h2]
    · simp [State.regs_set, Ne.symm h5]
  · -- there is no memory at the place, and the machine stops
    refine .stop (by omega) hgood (htrap (by omega)) ?_
    have hmapped : t.mapped m ⟨.heap, d⟩ = false := by
      rw [← Bool.not_eq_true, State.mapped_iff]
      exact fun h ↦ hlt h.2
    rw [Image.step_eq hsb]
    simp [State.exec, hoperand, hn, Value.word?, State.storeByte, hmapped]

theorem ends_copyLeft {d : Int}
    (hcode : CodeAt m lo (Template.copyLeft start next) hi)
    (hnext : m.target? next = some hi) (hs : s.StringAt m p bytes)
    (hread : ∀ t (k : Nat), s.Grown t → m.code[t.pc]? = some (.lb .t5 (.offset 0 .t1)) →
      t.regs .t1 = .address (p.shift k) → k ≤ bytes.length → good t)
    (hg : s.Grown t) (hpc : t.pc = lo) (hcur : t.regs .t1 = .address p)
    (hd : (s.brk : Int) ≤ d) (ht2 : t.regs .t2 = .address ⟨.heap, d⟩)
    (htrap : (t.brk : Int) < d + bytes.length → trap) :
    m.Ends good trap lo hi (fun t' ↦ t'.pc = hi ∧ s.Grown t' ∧ t.Copied .t1 d bytes t') t := by
  simp only [Template.copyLeft, codeAt_label, codeAt_instr, codeAt_nil] at hcode
  obtain ⟨hstart, hlb, hbeqz, hsb, hmove, hfill, hj, rfl⟩ := hcode
  induction bytes generalizing p t d with
  | nil =>
    subst hpc
    obtain ⟨hm, hn⟩ := (hs.grown hg).nil
    refine ends_test hq (by decide) hlb hbeqz hnext (by omega)
      (hread t 0 hg hlb (by simpa using hcur) (by simp)) hg hcur hm hn fun hg₁ ↦ ?_
    refine .done ⟨rfl, hg₁, ⟨fun q _ _ h5 ↦ State.regs_set_of_ne t h5 _, rfl⟩, ?_, rfl⟩
    simpa [State.regs_set] using ht2
  | cons b bytes ih =>
    subst hpc
    obtain ⟨hm, hn, hne⟩ := (hs.grown hg).head
    rw [List.length_cons] at htrap
    refine ends_test hq (by decide) hlb hbeqz hnext (by omega)
      (hread t 0 hg hlb (by simpa using hcur) (by simp)) hg hcur hm hn fun hg₁ ↦ ?_
    rw [if_neg hne] at hg₁ ⊢
    refine ends_put hq (c := .t1) (n := b) (p := p) (by decide) hsb hmove hfill (by simp) hg₁ hd
      (by simp) (by simpa [State.regs_set] using ht2) (by simpa [State.regs_set] using hcur)
      (fun h ↦ htrap ?_) ?_
    · have hbrk : t.brk ≤ d := h
      omega
    · intro t₂ hpc₂ hg₂ hput hcur₂ _ _
      refine .quiet hq hg₂ (by simp [hpc₂]; omega) (by rw [hpc₂]; exact hj) rfl
        (State.exec_j hstart) fun hg₃ ↦ ?_
      have hbrk : t₂.brk = t.brk := hput.brk
      refine (ih hs.tail (fun u k hu hget hk hle ↦ ?_) hg₃ rfl hcur₂ (d := d + 1) (by omega)
        (by simpa using hput.t2) fun h ↦ htrap ?_).imp ?_
      · exact hread u (k + 1) hu hget (by simpa [Int.add_comm] using hk) (by simpa using hle)
      · have hlt : t₂.brk < d + 1 + bytes.length := h
        omega
      · rintro u ⟨hpc, hu, hcopy⟩
        have hfirst := hput.of_eq (s := t) (fun q h5 ↦ State.regs_set_of_ne t h5 _) rfl rfl
        exact ⟨hpc, hu, hfirst.cons (hcopy.of_eq (fun _ _ ↦ rfl) rfl rfl)⟩

theorem ends_round {n : UInt8} {d : Int} (hstart : m.target? start = some t.pc)
    (hlb : m.code[t.pc]? = some (.lb .t5 (.offset 0 .t0)))
    (hsb : m.code[t.pc + 1]? = some (.sb .t5 (.offset 0 .t2)))
    (hmove : m.code[t.pc + 2]? = some (.addiu .t0 .t0 1))
    (hfill : m.code[t.pc + 3]? = some (.addiu .t2 .t2 1))
    (hbnez : m.code[t.pc + 4]? = some (.bnez .t5 start)) (hin : lo ≤ t.pc ∧ t.pc + 4 < hi)
    (hgood : good t) (hg : s.Grown t) (hcur : t.regs .t0 = .address p) (hm : t.mapped m p)
    (hn : t.memory p = .number n) (hd : (s.brk : Int) ≤ d)
    (ht2 : t.regs .t2 = .address ⟨.heap, d⟩) (htrap : (t.brk : Int) ≤ d → trap)
    (hnext : ∀ t', t'.pc = (if n = 0 then t.pc + 5 else t.pc) → s.Grown t' →
      t.Copied .t0 d [n] t' → t'.regs .t0 = .address (p.shift 1) → d < t.brk →
      m.Ends good trap lo hi Q t') : m.Ends good trap lo hi Q t := by
  have hexec := State.exec_lb (by decide) hcur hm hn
  refine .exec (by omega) hgood hlb hexec ?_
  have hg₁ := hg.exec hexec (by simp [Instr.dest?]) rfl (by simp)
  refine ends_put hq (c := .t0) (n := n) (p := p) (by decide) hsb hmove hfill (by simp; omega) hg₁
    hd (by simp) (by simpa [State.regs_set] using ht2) (by simpa [State.regs_set] using hcur)
    htrap fun t₂ hpc₂ hg₂ hput hcur₂ h5 hlt ↦ ?_
  have hpc : t₂.pc = t.pc + 4 := hpc₂
  have hbranch := State.exec_bnez (m := m) (by decide) (h5.trans (State.regs_set_self ..)) hstart
  simp only [signExtend_eq_zero, hpc] at hbranch
  refine .quiet hq hg₂ (by omega) (hpc ▸ hbnez) rfl hbranch fun hg₃ ↦ hnext _ rfl hg₃ ?_ hcur₂ hlt
  have hround := hput.of_eq (s := t) (fun q h5 ↦ State.regs_set_of_ne t h5 _) rfl rfl
  exact ⟨⟨hround.regs, hround.brk⟩, hround.t2, hround.memory⟩

/-- The bytes of the right string are copied with the zero behind them, which ends the loop. -/
theorem ends_copyRight {d : Int}
    (hcode : CodeAt m lo (Template.copyRight start) hi) (hs : s.StringAt m p bytes)
    (hread : ∀ t (k : Nat), s.Grown t → m.code[t.pc]? = some (.lb .t5 (.offset 0 .t0)) →
      t.regs .t0 = .address (p.shift k) → k ≤ bytes.length → good t)
    (hg : s.Grown t) (hpc : t.pc = lo) (hcur : t.regs .t0 = .address p)
    (hd : (s.brk : Int) ≤ d) (ht2 : t.regs .t2 = .address ⟨.heap, d⟩)
    (htrap : (t.brk : Int) ≤ d + bytes.length → trap) :
    m.Ends good trap lo hi (fun t' ↦ t'.pc = hi ∧ s.Grown t' ∧ t.Copied .t0 d (bytes ++ [0]) t' ∧
      d + bytes.length < t.brk) t := by
  simp only [Template.copyRight, codeAt_label, codeAt_instr, codeAt_nil] at hcode
  obtain ⟨hstart, hlb, hsb, hmove, hfill, hbnez, rfl⟩ := hcode
  induction bytes generalizing p t d with
  | nil =>
    obtain ⟨hm, hn⟩ := (hs.grown hg).nil
    subst hpc
    refine ends_round hq hstart hlb hsb hmove hfill hbnez (by omega)
      (hread t 0 hg hlb (by simpa using hcur) (by simp)) hg hcur hm hn hd ht2
      (fun h ↦ htrap (by simpa using h)) fun t' hpc' hg' hput _ hlt ↦ ?_
    exact .done ⟨hpc', hg', hput, by simpa using hlt⟩
  | cons b bytes ih =>
    obtain ⟨hm, hn, hne⟩ := (hs.grown hg).head
    rw [List.length_cons] at htrap
    subst hpc
    refine ends_round hq hstart hlb hsb hmove hfill hbnez (by omega)
      (hread t 0 hg hlb (by simpa using hcur) (by simp)) hg hcur hm hn hd ht2
      (fun h ↦ htrap (by omega)) fun t' hpc' hg' hput hcur' hlt ↦ ?_
    rw [if_neg hne] at hpc'
    have hbrk := hput.brk
    refine (ih hs.tail (fun u k hu hget hk hle ↦ ?_) hg' hpc' hcur' (d := d + 1) (by omega)
      hput.t2 fun h ↦ htrap ?_).imp ?_
    · exact hread u (k + 1) hu hget (by simpa [Int.add_comm] using hk) (by simpa using hle)
    · omega
    · rintro u ⟨hpc, hu, hcopy, hend⟩
      refine ⟨hpc, hu, hput.cons hcopy, ?_⟩
      rw [List.length_cons]
      omega

theorem ends_measuring {labels : ConcatLabels} {a b : List UInt8}
    (hcode : CodeAt m s.pc (Template.measuring labels) hi)
    (hread : ∀ t c (k : Nat), s.Grown t → m.code[t.pc]? = some (.lb .t5 (.offset 0 c)) →
      c ≠ .zero → (t.regs c = .address (p.shift k) ∧ k ≤ a.length) ∨
        (t.regs c = .address (q.shift k) ∧ k ≤ b.length) → good t)
    (hp : s.regs .t1 = .address p) (hq' : s.regs .t0 = .address q) (ha : s.StringAt m p a)
    (hb : s.StringAt m q b) :
    m.Ends good trap s.pc hi (fun t ↦ t.pc = hi ∧ s.Grown t ∧ t.brk = s.brk ∧
      t.regs .t0 = s.regs .t0 ∧ t.regs .t1 = s.regs .t1 ∧
      t.regs .a0 = .word (BitVec.ofNat 32 (a.length + b.length + 1))) s := by
  simp only [Template.measuring, codeAt_append, codeAt_instr, codeAt_label, codeAt_nil] at hcode
  obtain ⟨back, ⟨mid, ⟨front, ⟨hmove, hmove', hone, rfl⟩, hleft⟩, hright⟩, halloc, hsize, rfl⟩ :=
    hcode
  have hle := hleft.le
  have hle' := hright.le
  have hnext := (codeAt_label.1 hright).1
  refine .quiet hq s.grown_refl (by omega) hmove rfl rfl fun hg₁ ↦ ?_
  refine .quiet hq hg₁ (by simp; omega) hmove' rfl rfl fun hg₂ ↦ ?_
  refine .quiet hq hg₂ (by simp; omega) hone rfl rfl fun hg₃ ↦ ?_
  refine (ends_measure hq (c := .t2) (p := p) (w := 1) (by decide) hleft hnext ha
    (fun t k hg hc hk hle ↦ hread t .t2 k hg hc (by decide) (.inl ⟨hk, hle⟩)) hg₃ rfl
    (by simpa [State.regs_set] using hp) (by simp [State.regs_set])).seq (by omega) (by omega) ?_
  rintro t ⟨hpc, hgt, hloop, ht4⟩
  refine (ends_measure hq (c := .t3) (p := q) (by decide) hright halloc hb
    (fun t k hg hc hk hle ↦ hread t .t3 k hg hc (by decide) (.inr ⟨hk, hle⟩)) hgt hpc
    ?_ ht4).seq (by omega) (by omega) ?_
  · rw [hloop.regs .t3 (by decide) (by decide) (by decide)]
    simpa [State.regs_set] using hq'
  rintro u ⟨hpcu, hgu, hloop', ht4⟩
  refine .quiet hq hgu (by omega) (hpcu ▸ hsize) rfl rfl fun hg₄ ↦ ?_
  have hkeep {r : Reg} (hr : r ∉ [Reg.t2, .t3, .t4, .t5, .a0]) :
      (u.set .a0 (u.reg .t4)).regs r = s.regs r := by
    simp only [List.mem_cons, List.not_mem_nil, or_false, not_or] at hr
    obtain ⟨h2, h3, h4, h5, ha0⟩ := hr
    rw [State.regs_set_of_ne _ ha0, hloop'.regs r h3 h4 h5, hloop.regs r h2 h4 h5]
    simp [State.regs_set, h2, h3, h4]
  refine .done ⟨by simp [hpcu], hg₄, hloop'.brk.trans hloop.brk, hkeep (by decide),
    hkeep (by decide), ?_⟩
  have hsum : a.length + b.length + 1 = 1 + a.length + b.length := by omega
  rw [State.regs_set_self, State.reg_eq (by decide), ht4, hsum, BitVec.ofNat_add, BitVec.ofNat_add]
  rfl

theorem ends_copying {labels : ConcatLabels} {a b : List UInt8}
    (hcode : CodeAt m lo (Template.copying labels) hi)
    (hread : ∀ t c (k : Nat), s.Grown t → m.code[t.pc]? = some (.lb .t5 (.offset 0 c)) →
      c ≠ .zero → (t.regs c = .address (p.shift k) ∧ k ≤ a.length) ∨
        (t.regs c = .address (q.shift k) ∧ k ≤ b.length) → good t)
    (ha : s.StringAt m p a) (hb : s.StringAt m q b) (hg : s.Grown t) (hpc : t.pc = lo)
    (hp : t.regs .t1 = .address p) (hq' : t.regs .t0 = .address q)
    (ht2 : t.regs .t2 = .address ⟨.heap, s.brk⟩) (hv : t.regs .v0 = .address ⟨.heap, s.brk⟩)
    (htrap : t.brk ≤ s.brk + a.length + b.length → trap) :
    m.Ends good trap lo hi (fun t' ↦ t'.pc = hi ∧ s.Grown t' ∧
      t'.regs .t0 = .address ⟨.heap, s.brk⟩ ∧ t'.brk = t.brk ∧
      t'.memory = State.filled t.memory s.brk (a ++ b ++ [0]) ∧
      s.brk + a.length + b.length < t.brk) t := by
  rw [Template.copying_eq, codeAt_append] at hcode
  obtain ⟨mid, hleft, hcode⟩ := hcode
  obtain ⟨back, hright, hcode⟩ := codeAt_append.1 hcode
  simp only [codeAt_instr, codeAt_nil] at hcode
  obtain ⟨hmove, rfl⟩ := hcode
  have hle := hleft.le
  have hle' := hright.le
  refine (ends_copyLeft hq hleft (codeAt_label.1 hright).1 ha
    (fun t k hg hc hk hle ↦ hread t .t1 k hg hc (by decide) (.inl ⟨hk, hle⟩)) hg hpc hp
    (Int.le_refl _) ht2 fun h ↦ htrap (by omega)).seq (by omega) (by omega) ?_
  rintro u ⟨hpcu, hgu, hcopy⟩
  have hbrk := hcopy.brk
  refine (ends_copyRight hq hright hb
    (fun t k hg hc hk hle ↦ hread t .t0 k hg hc (by decide) (.inr ⟨hk, hle⟩)) hgu hpcu
    ((hcopy.regs .t0 (by decide) (by decide) (by decide)).trans hq') (by omega) hcopy.t2
    fun h ↦ htrap (by omega)).seq (by omega) (by omega) ?_
  rintro v ⟨hpcv, hgv, hcopy', hlt⟩
  have hbrk' := hcopy'.brk
  refine .quiet hq hgv (by omega) (hpcv ▸ hmove) rfl rfl fun hg₃ ↦ ?_
  refine .done ⟨by simp [hpcv], hg₃, ?_, hbrk'.trans hbrk, ?_, by omega⟩
  · rw [State.regs_set_self, State.reg_eq (by decide),
      hcopy'.regs .v0 (by decide) (by decide) (by decide),
      hcopy.regs .v0 (by decide) (by decide) (by decide), hv]
  · rw [List.append_assoc, State.filled_append, ← hcopy.memory]
    exact hcopy'.memory

end loops

end SpimCompiler.Mips
