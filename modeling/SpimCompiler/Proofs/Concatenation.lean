import Mathlib.Algebra.Group.Nat.Defs
import SpimCompiler.Proofs.StringLoops

namespace SpimCompiler.Mips

variable {m : Image} {good good' : State → Prop} {trap : Prop} {lo hi lo' hi' : Nat}
  {Q Q' : State → Prop} {s s' t t' : State} {i : Instr} {p q : Place} {bytes : List UInt8}

structure State.Joining (m : Image) (p q : Place) (a b : List UInt8) (s t : State) : Prop where
  grown : s.Grown t
  read (rd : Reg) (o : Address) : m.code[t.pc]? = some (.lb rd o) →
    ∃ k : Nat, (t.operand m o = some (p.shift k) ∧ k ≤ a.length) ∨
      (t.operand m o = some (q.shift k) ∧ k ≤ b.length)
  call : m.code[t.pc]? = some .syscall → t.regs .v0 = .word Service.allocate.word

structure Image.Requests (m : Image) (u : State) (n : Nat) : Prop where
  call : m.code[u.pc]? = some .syscall
  service : u.regs .v0 = .word Service.allocate.word
  size : u.regs .a0 = .word (BitVec.ofNat 32 n)

/-- The second state has the bytes and a zero behind them in a buffer that has just their size, and
its address in `$t0`; nothing else has changed in the memory of the first. -/
structure State.Joined (bytes : List UInt8) (s s' : State) : Prop where
  sp : s'.regs .sp = s.regs .sp
  output : s'.output = s.output
  t0 : s'.regs .t0 = .address ⟨.heap, s.brk⟩
  size : bytes.length + 1 < 2 ^ 32
  brk : s'.brk = s.brk + (bytes.length + 1)
  memory : s'.memory = State.filled s.memory s.brk (bytes ++ [0])

theorem State.exec_allocate {n : Nat} (h : m.Requests s n) : s.exec m .syscall =
    some { s.set .v0 (.address ⟨.heap, s.brk⟩) with brk := s.brk + n % 2 ^ 32 } := by
  simp [State.exec, State.callService, h.service, h.size, Value.word?, Service.word, Service.code]

theorem Image.Requests.brk_step {n : Nat} (h : m.Requests s n) (hn : n < 2 ^ 32)
    (hs : m.step s = some s') : s'.brk = s.brk + n := by
  have he := ((Image.step_eq h.call).symm.trans hs).symm.trans (State.exec_allocate h)
  cases he
  rw [Nat.mod_eq_of_lt hn]

theorem ends_joining {labels : ConcatLabels} {a b : List UInt8}
    (hcode : CodeAt m s.pc (Template.measuring labels ++
      (Template.allocating.map .instr ++ Template.copying labels)) hi)
    (hp : s.regs .t1 = .address p) (hq : s.regs .t0 = .address q) (ha : s.StringAt m p a)
    (hb : s.StringAt m q b) :
    m.Ends (State.Joining m p q a b s) (2 ^ 32 ≤ a.length + b.length + 1) s.pc hi
      (fun s' ↦ s'.pc = hi ∧ s.Joined (a ++ b) s' ∧ ∃ u u', m.StepsIn s.pc hi s u ∧
        m.Requests u (a.length + b.length + 1) ∧ u.brk = s.brk ∧ m.step u = some u' ∧
        m.StepsIn s.pc hi u' s') s := by
  have hquiet (t : State) (i : Instr) (hg : s.Grown t) (hc : m.code[t.pc]? = some i)
      (hi : i.reads = false) : State.Joining m p q a b s t := by
    refine ⟨hg, fun rd o h ↦ ?_, fun h ↦ ?_⟩ <;> cases hc.symm.trans h <;> cases hi
  have hread (t : State) (c : Reg) (k : Nat) (hg : s.Grown t)
      (hc : m.code[t.pc]? = some (.lb .t5 (.offset 0 c))) (hz : c ≠ .zero)
      (h : (t.regs c = .address (p.shift k) ∧ k ≤ a.length) ∨
        (t.regs c = .address (q.shift k) ∧ k ≤ b.length)) : State.Joining m p q a b s t := by
    refine ⟨hg, fun rd o h' ↦ ⟨k, ?_⟩, fun h' ↦ ?_⟩ <;> cases hc.symm.trans h'
    refine h.imp (And.imp_left fun h ↦ ?_) (And.imp_left fun h ↦ ?_) <;>
      simp [State.operand, hz, h, Value.place?]
  rw [codeAt_append] at hcode
  obtain ⟨mid, hmeasure, hcode⟩ := hcode
  obtain ⟨back, halloc, hcopy⟩ := codeAt_append.1 hcode
  simp only [Template.allocating, List.map_cons, List.map_nil, codeAt_instr, codeAt_nil] at halloc
  obtain ⟨hli, hcall, hmove, rfl⟩ := halloc
  have hle := hmeasure.le
  have hle' := hcopy.le
  refine ((ends_measuring hquiet hmeasure hread hp hq ha hb).reached fun _ _ _ h ↦ h).seq
    (Nat.le_refl _) (by omega) ?_
  rintro t ⟨⟨hpc, hg, hbrk, ht0, ht1, ha0⟩, hst⟩
  subst hpc
  refine .quiet hquiet hg (by omega) hli rfl rfl fun hgu ↦ ?_
  have hrequest : m.Requests (t.set .v0 (.word Service.allocate.word)) (a.length + b.length + 1) :=
    ⟨hcall, State.regs_set_self .., by simpa [State.regs_set] using ha0⟩
  have hexec := State.exec_allocate hrequest
  have hsu : m.StepsIn s.pc hi s (t.set .v0 (.word Service.allocate.word)) :=
    (hst.wider (Nat.le_refl _) (by omega)).tail ⟨by omega, Image.step_eq hli⟩
  have hgood : State.Joining m p q a b s (t.set .v0 (.word Service.allocate.word)) := by
    refine ⟨hgu, fun rd o h ↦ ?_, fun _ ↦ hrequest.service⟩
    cases hcall.symm.trans h
  refine .exec (by simp; omega) hgood hcall hexec ?_
  have hmemory := hg.memory_eq hbrk
  set u' : State := { (t.set .v0 (.word Service.allocate.word)).set .v0
    (.address ⟨.heap, t.brk⟩) with brk := t.brk + (a.length + b.length + 1) % 2 ^ 32 } with hu'
  have hgu' : s.Grown u' := by
    refine ⟨hgu.sp, hgu.output, ?_, fun x hx ↦ ?_⟩
    · simp only [hu', hbrk]
      omega
    · exact absurd (congrFun hmemory x) hx
  have hcopied : m.Ends (State.Joining m p q a b s) (2 ^ 32 ≤ a.length + b.length + 1) s.pc hi
      (fun s' ↦ s'.pc = hi ∧ s.Joined (a ++ b) s') u' := by
    refine .quiet hquiet hgu' (by simp [hu']; omega) hmove rfl rfl fun hg₂ ↦ ?_
    refine (ends_copying hquiet hcopy hread ha hb hg₂ rfl ?_ ?_ ?_ ?_ fun h ↦ ?_).seq (by omega)
      (Nat.le_refl _) ?_
    · simpa [hu', State.regs_set, ht1] using hp
    · simpa [hu', State.regs_set, ht0] using hq
    · simp [hu', hbrk]
    · simp [hu', State.regs_set, hbrk]
    · -- the size has wrapped around, so a byte is put behind the end of the heap
      have hshort : t.brk + (a.length + b.length + 1) % 2 ^ 32 ≤ s.brk + a.length + b.length := h
      omega
    · rintro s' ⟨hend, hgs, ht0', hbrk', hmem, hlt⟩
      have hfit : s.brk + a.length + b.length < t.brk + (a.length + b.length + 1) % 2 ^ 32 := hlt
      have hall : s'.brk = t.brk + (a.length + b.length + 1) % 2 ^ 32 := hbrk'
      have hlen : (a ++ b).length = a.length + b.length := List.length_append
      refine .done ⟨hend, hgs.sp, hgs.output, ht0', by omega, by omega, ?_⟩
      rw [hmem]
      exact congrArg (State.filled · s.brk (a ++ b ++ [0])) hmemory
  refine (hcopied.reached fun _ _ _ h ↦ h).imp ?_
  rintro s' ⟨⟨hend, hjoined⟩, hsteps⟩
  exact ⟨hend, hjoined, _, u', hsu, hrequest, hbrk, (Image.step_eq hcall).trans hexec, hsteps⟩

/-- Code that runs from one state to another, where it leaves the address of a string in `$t0`. It
keeps all memory in use, and the string is in use behind it. -/
structure Image.Delivers (m : Image) (f : Fragment) (s s' : State) (p : Place)
    (bytes : List UInt8) : Prop where
  run {hi : Nat} : CodeAt m s.pc f hi → m.StepsIn s.pc hi s s' ∧ s'.pc = hi
  frame : s.Frame (fun _ ↦ False) s'
  t0 : s'.regs .t0 = .address p
  string : s'.string? m p = some bytes
  live : ¬s'.Below p

theorem State.stepsIn_run (is : List Instr) (hi : ∀ i ∈ is, i.sequential)
    (hc : CodeAt m s.pc (is.map .instr) hi') (hr : s.run m is = some s') :
    m.StepsIn s.pc hi' s s' ∧ s'.pc = hi' := by
  induction is generalizing s with
  | nil =>
    cases hr
    exact ⟨.refl, (codeAt_nil.1 hc).symm⟩
  | cons i is ih =>
    simp only [List.mem_cons, forall_eq_or_imp] at hi
    obtain ⟨s₁, he, hr⟩ := Option.bind_eq_some_iff.1 hr
    obtain ⟨hget, hc⟩ := codeAt_instr.1 hc
    rw [← pc_exec hi.1 he] at hc
    obtain ⟨hsteps, hpc⟩ := ih hi.2 hc hr
    have hle := hc.le
    have hpc₁ := pc_exec hi.1 he
    refine ⟨.head ⟨by omega, (Image.step_eq hget).trans he⟩ ?_, hpc⟩
    exact Image.StepsIn.wider hsteps (by omega) (Nat.le_refl _)

namespace State

variable {top : Int} {v : Value}

theorem Stacked.pushed_pushed (h : s.Stacked top) : s.Pushed m (s.pushed top) top := by
  have hle := h.nonpos
  refine ⟨h.sp, h.pushed.sp, rfl, ?_, fun q hq ↦ ?_⟩
  · exact loadWord_putWord (h.pushed.wordMapped (by omega) m) rfl
  · by_contra hout
    refine hq (putWord_of_disjoint fun hr ↦ ?_)
    simp only [hr, true_and] at hout
    simp only
    omega

theorem Stacked.popped_popped (h : s.Stacked (top - 4))
    (hv : s.loadWord m ⟨.stack, top - 4⟩ = some v) : s.Popped m (s.popped top v) top :=
  ⟨h.sp, by simp [State.popped], rfl, by simpa [State.popped] using hv, by simp [State.popped], rfl⟩

theorem StringAt.frame (h : s.StringAt m p bytes) (hf : s.Frame (fun _ ↦ False) t)
    (hp : ¬s.Below p) : t.StringAt m p bytes := by
  refine h.of_memory hf.brk fun k hk ↦ ?_
  by_contra hne
  rcases hf.memory _ hne with h | ⟨hr, top, hsp, hlt⟩ | ⟨hr, hle, -⟩
  · exact h
  · refine hp ⟨hr, top, hsp, ?_⟩
    rw [Place.shift_offset] at hlt
    omega
  · have hmapped := mapped_iff.1 (h.mapped k hk)
    simp only [hr] at hmapped
    omega

theorem filled_of_outside {memory : Place → Byte} {d : Int}
    (h : q.region = .heap → q.offset < d ∨ d + bytes.length ≤ q.offset) :
    filled memory d bytes q = memory q := by
  induction bytes generalizing memory d with
  | nil => rfl
  | cons n bytes ih =>
    rw [List.length_cons] at h
    rw [filled, ih fun hr ↦ by have := h hr; omega, if_neg]
    rintro rfl
    have := h rfl
    simp only at this
    omega

theorem filled_of_lt {memory : Place → Byte} {d : Int} {k : Nat} (hk : k < bytes.length) :
    filled memory d bytes ⟨.heap, d + k⟩ = .number (bytes.getD k 0) := by
  induction bytes generalizing memory d k with
  | nil => simp at hk
  | cons n bytes ih =>
    cases k with
    | zero =>
      rw [filled, filled_of_outside fun _ ↦ .inl (by simp only; omega)]
      simp
    | succ k =>
      have hd : d + (k + 1 : Nat) = d + 1 + k := by omega
      rw [filled, hd, ih (by simpa using hk)]
      simp

theorem Joined.stringAt (h : s.Joined bytes t) (hb : 0 ∉ bytes) :
    t.StringAt m ⟨.heap, s.brk⟩ bytes := by
  have hbrk := h.brk
  refine ⟨hb, fun k hk ↦ mapped_iff.2 ?_, fun k hk ↦ ?_⟩
  · simp only [Place.shift_region, Place.shift_offset]
    omega
  · rw [h.memory]
    refine filled_of_lt ?_
    rw [List.length_append, List.length_singleton]
    omega

theorem Joined.grown (h : s.Joined bytes t) : s.Grown t := by
  have hbrk := h.brk
  refine ⟨h.sp, h.output, by omega, fun q hq ↦ ?_⟩
  by_contra hout
  rw [h.memory] at hq
  refine hq (filled_of_outside fun hr ↦ ?_)
  simp only [State.Fresh, hr, true_and] at hout
  rw [List.length_append, List.length_singleton]
  omega

end State

def ConcatLabels.toList (labels : ConcatLabels) : List String :=
  [labels.measureLeft, labels.measureRight, labels.allocate, labels.copyLeft, labels.copyRight]

/-- Lines are loaded into an image, and in the one that this gives the code stands between two
places. -/
structure Image.Loads (m₀ : Image) (lines code : Fragment) (m : Image) (lo hi : Nat) : Prop where
  addAll : Loader.addAll ⟨false, m₀⟩ lines = some ⟨false, m⟩
  extends_image : m₀.Extends m
  data : m.data = m₀.data
  codeAt : CodeAt m lo code hi

theorem Loader.addAll_concatStrings {front left right back : Fragment} {labels : ConcatLabels}
    {m₀ : Image} (hcode : ∀ l ∈ front ++ (left ++ right) ++ back, l.isCode)
    (hrest : (Fragment.labels (front ++ (left ++ right) ++ back)).Nodup)
    (hnew : ∀ x ∈ Fragment.labels (front ++ (left ++ right) ++ back), x ∉ m₀.names)
    (hfive : labels.toList.Nodup) (hfresh : ∀ x ∈ labels.toList,
      x ∉ m₀.names ∧ x ∉ Fragment.labels (front ++ (left ++ right) ++ back)) :
    ∃ m lo hi, m₀.Loads (front ++ Template.concatStrings left right labels ++ back)
      (Template.concatStrings left right labels) m lo hi := by
  have hperm : (Fragment.labels (front ++ Template.concatStrings left right labels ++ back)).Perm
      (labels.toList ++ Fragment.labels (front ++ (left ++ right) ++ back)) := by
    have hlabels : Fragment.labels (Template.concatStrings left right labels) =
        Fragment.labels left ++ (Fragment.labels right ++ labels.toList) := by
      simp [Template.concatStrings, Template.operands, Template.measure, Template.call,
        Fragment.labels, Line.labels, ConcatLabels.toList]
    simp only [Fragment.labels, List.flatMap_append] at hlabels ⊢
    rw [hlabels, List.perm_iff_count]
    intro x
    simp only [List.count_append]
    omega
  have hcode' : ∀ l ∈ front ++ Template.concatStrings left right labels ++ back, l.isCode := by
    simp only [List.mem_append, or_imp, forall_and] at hcode
    obtain ⟨⟨hf, hl, hr⟩, hb⟩ := hcode
    have hconcat : (Template.concatStrings left right labels).all Line.isCode := by
      simp only [Template.concatStrings, Template.operands, Template.measure, Template.call,
        List.all_append, List.all_cons, List.all_nil, Line.isCode, List.all_eq_true.2 hl,
        List.all_eq_true.2 hr, Bool.and_self]
    intro l hl
    rcases List.mem_append.1 hl with hl | hl
    · exact (List.mem_append.1 hl).elim (hf l) (List.all_eq_true.1 hconcat l)
    · exact hb l hl
  have hnodup := hperm.nodup_iff.2 (List.nodup_append.2
    ⟨hfive, hrest, fun x hx y hy he ↦ (hfresh x hx).2 (he ▸ hy)⟩)
  have hnew' : ∀ x ∈ Fragment.labels (front ++ Template.concatStrings left right labels ++ back),
      x ∉ m₀.names := by
    intro x hx
    rcases List.mem_append.1 (hperm.mem_iff.1 hx) with hx | hx
    · exact (hfresh x hx).1
    · exact hnew x hx
  obtain ⟨m, hload, hext, hdata, hat⟩ := Loader.addAll_code hcode' hnodup hnew'
  obtain ⟨hi, hat, -⟩ := codeAt_append.1 hat
  obtain ⟨lo, -, hat⟩ := codeAt_append.1 hat
  exact ⟨m, lo, hi, hload, hext, hdata, hat⟩

/-- The state in which two strings have been joined. The operands are left in the states `s₁` and
`s₂`, and between them the first one is pushed. The buffer is the only memory that was asked for and
written, and the strings are as they were. -/
structure Joins (m : Image) (lo hi : Nat) (s s₁ s₂ : State) (top : Int) (p q : Place)
    (a b : List UInt8) (s' : State) : Prop where
  pc : s'.pc = hi
  t0 : s'.regs .t0 = .address ⟨.heap, s₂.brk⟩
  buffer (k : Nat) : k ≤ a.length + b.length →
    s'.memory ⟨.heap, s₂.brk + k⟩ = .number ((a ++ b ++ [0]).getD k 0)
  brk : s'.brk = s₂.brk + (a.length + b.length + 1)
  request : ∃ u u', m.StepsIn lo hi s u ∧ m.Requests u (a.length + b.length + 1) ∧
    u.brk = s₂.brk ∧ m.step u = some u' ∧ m.StepsIn lo hi u' s'
  memory (x : Place) : s'.memory x ≠ s₂.memory x → s₂.Fresh s' x
  slot (x : Place) : (s₁.pushed top).memory x ≠ s₁.memory x →
    x.region = .stack ∧ top - 4 ≤ x.offset ∧ x.offset < top
  left : s'.string? m p = some a
  right : s'.string? m q = some b
  output : s'.output = s₂.output
  frame : s.Frame (fun _ ↦ False) s'

/-- The code that joins two strings. Its operands are any fragments that deliver strings, of any
lengths, and its labels any five that stand nowhere else. -/
theorem concatStrings_joins {front left right back : Fragment} {labels : ConcatLabels}
    {m₀ : Image} (hcode : ∀ l ∈ front ++ (left ++ right) ++ back, l.isCode)
    (hrest : (Fragment.labels (front ++ (left ++ right) ++ back)).Nodup)
    (hnew : ∀ x ∈ Fragment.labels (front ++ (left ++ right) ++ back), x ∉ m₀.names)
    (hfive : labels.toList.Nodup) (hfresh : ∀ x ∈ labels.toList,
      x ∉ m₀.names ∧ x ∉ Fragment.labels (front ++ (left ++ right) ++ back)) :
    ∃ m lo hi, m₀.Loads (front ++ Template.concatStrings left right labels ++ back)
        (Template.concatStrings left right labels) m lo hi ∧
      ∀ s s₁ s₂ top p q a b, s.pc = lo → s.Stacked top → m.Delivers left s s₁ p a →
        m.Delivers right (s₁.pushed top) s₂ q b →
        ∃ s', m.StepsIn lo hi s s' ∧
          (a.length + b.length + 1 < 2 ^ 32 → Joins m lo hi s s₁ s₂ top p q a b s') ∧
          (2 ^ 32 ≤ a.length + b.length + 1 → (lo ≤ s'.pc ∧ s'.pc < hi) ∧ m.step s' = none) := by
  obtain ⟨m, lo, hi, hload⟩ := Loader.addAll_concatStrings hcode hrest hnew hfive hfresh
  refine ⟨m, lo, hi, hload, ?_⟩
  rintro s s₁ s₂ top p q a b rfl hs hl hr
  have hat := hload.codeAt
  rw [Template.concatStrings_eq, codeAt_append] at hat
  obtain ⟨mid, hops, hcore⟩ := hat
  simp only [Template.operands, codeAt_append] at hops
  obtain ⟨pc₃, ⟨pc₂, ⟨pc₁, hleft, hpush⟩, hright⟩, hpop⟩ := hops
  have hle := hleft.le
  have hle₁ := hpush.le
  have hle₂ := hright.le
  have hle₃ := hpop.le
  have hle₄ := hcore.le
  obtain ⟨hsteps₁, rfl⟩ := hl.run hleft
  have hs₁ : s₁.Stacked top := ⟨hl.frame.sp.trans hs.sp, hs.nonpos, hs.aligned⟩
  have hpushed := hs₁.pushed_pushed (m := m)
  obtain ⟨hsteps₂, rfl⟩ := State.stepsIn_run [.addiu .sp .sp (-4), .sw .t0 (.offset 0 .sp)]
    (by decide) hpush (State.run_push hs₁)
  obtain ⟨hsteps₃, rfl⟩ := hr.run hright
  have hs₂ : s₂.Stacked (top - 4) :=
    ⟨hr.frame.sp.trans hs₁.pushed.sp, hs₁.pushed.nonpos, hs₁.pushed.aligned⟩
  have hload₂ := hpushed.load_of_frame hr.frame
  have hpopped := hs₂.popped_popped hload₂
  obtain ⟨hsteps₄, rfl⟩ := State.stepsIn_run [.lw .t1 (.offset 0 .sp), .addiu .sp .sp 4]
    (by decide) hpop (State.run_pop hs₂ hload₂)
  have hframe := State.Frame.pushed_popped hpushed hr.frame hpopped
  have ht1 : (s₂.popped top (s₁.regs .t0)).regs .t1 = .address p := hl.t0
  have ht0 : (s₂.popped top (s₁.regs .t0)).regs .t0 = .address q := hr.t0
  have ha := (State.string?_eq_some_iff.1 hl.string).frame hframe hl.live
  have hb : (s₂.popped top (s₁.regs .t0)).StringAt m q b :=
    (State.string?_eq_some_iff.1 hr.string).of_memory (Nat.le_refl _) fun _ _ ↦ rfl
  have hto : m.StepsIn s.pc hi s (s₂.popped top (s₁.regs .t0)) :=
    (((hsteps₁.wider (Nat.le_refl _) (by omega)).trans (hsteps₂.wider hle (by omega))).trans
      (hsteps₃.wider (by omega) (by omega))).trans (hsteps₄.wider (by omega) hle₄)
  obtain ⟨s', hs', h⟩ := (ends_joining hcore ht1 ht0 ha hb).outcome
  refine ⟨s', hto.trans (hs'.wider (by omega) (Nat.le_refl _)), fun hfits ↦ ?_, fun htoo ↦ ?_⟩
  · obtain ⟨hend, hjoined, u, u', hsu, hrequest, hbrk, hstep, hsu'⟩ :=
      h.resolve_right fun h ↦ absurd h.1 (by omega)
    have hgrown := hjoined.grown
    refine ⟨hend, hjoined.t0, fun k hk ↦ ?_, ?_, ?_, hgrown.memory, hpushed.memory, ?_, ?_,
      hgrown.output, hl.frame.trans (hframe.trans hgrown.frame)⟩
    · rw [hjoined.memory]
      refine State.filled_of_lt ?_
      rw [List.length_append, List.length_append, List.length_singleton]
      omega
    · rw [hjoined.brk, List.length_append]
      rfl
    · exact ⟨u, u', hto.trans (hsu.wider (by omega) (Nat.le_refl _)), hrequest, hbrk, hstep,
        hsu'.wider (by omega) (Nat.le_refl _)⟩
    · exact State.string?_eq_some_iff.2 (ha.grown hgrown)
    · exact State.string?_eq_some_iff.2 (hb.grown hgrown)
  · rcases h with ⟨-, hjoined, -⟩ | ⟨-, hin, hstop⟩
    · have hsize := hjoined.size
      rw [List.length_append] at hsize
      omega
    · exact ⟨by omega, hstop⟩

theorem Image.delivers_loadAddress {x : String} (hx : m.place? x = some p)
    (hs : s.StringAt m p bytes) (hp : ¬s.Below p) :
    m.Delivers (Template.loadAddress x) s (s.set .t0 (.address p)) p bytes := by
  have hexec : s.exec m (.la .t0 x) = some (s.set .t0 (.address p)) := by simp [State.exec, hx]
  refine ⟨fun hc ↦ ?_, ?_, State.regs_set_self .., ?_, hp⟩
  · exact State.stepsIn_run [.la .t0 x] (by simp [Instr.sequential]) hc (by simp [State.run, hexec])
  · exact .of_eq rfl (Nat.le_refl _) rfl
  · exact State.string?_eq_some_iff.2 (hs.of_memory (Nat.le_refl _) fun _ _ ↦ rfl)

namespace doubled

def image : Image where
  data := utf8 "ab" ++ [0]
  symbols := [("text", .data 0)]

def labels : ConcatLabels where
  measureLeft := "measure_left"
  measureRight := "measure_right"
  allocate := "allocate"
  copyLeft := "copy_left"
  copyRight := "copy_right"

def start (pc : Nat) : State where
  pc
  regs _ := .address ⟨.stack, 0⟩
  memory p := .number ((utf8 "ab" ++ [0]).getD p.offset.toNat 0)

theorem stringAt {m : Image} (hm : m.data = image.data) (pc : Nat) :
    (start pc).StringAt m ⟨.data, 0⟩ (utf8 "ab") := by
  refine ⟨by decide, fun k hk ↦ State.mapped_iff.2 ?_, fun k hk ↦ ?_⟩
  · have hlen : m.data.length = 3 := by rw [hm]; decide
    have hk : k ≤ 2 := hk
    simp only [Place.shift_region, Place.shift_offset, hlen]
    omega
  · simp [start, Place.shift]

theorem concatStrings_joins_at : ∃ m lo hi s s',
    Loader.addAll ⟨false, image⟩ ([] ++ Template.concatStrings (Template.loadAddress "text")
      (Template.loadAddress "text") labels ++ []) = some ⟨false, m⟩ ∧
    s.pc = lo ∧ s.Stacked 0 ∧ m.StepsIn lo hi s s' ∧ s'.pc = hi ∧
    s'.regs .t0 = .address ⟨.heap, 0⟩ ∧ s'.brk = 5 ∧
    ∀ k : Nat, k ≤ 4 → s'.memory ⟨.heap, k⟩ = .number ((utf8 "abab" ++ [0]).getD k 0) := by
  obtain ⟨m, lo, hi, hload, hrun⟩ := @concatStrings_joins []
    (Template.loadAddress "text") (Template.loadAddress "text") [] labels image (by decide)
    (by decide) (by decide) (by decide) (by decide)
  have hx : m.place? "text" = some ⟨.data, 0⟩ := by
    have hlookup : m.symbols.lookup "text" = some (.data 0) := hload.extends_image.lookup rfl
    simp [Image.place?, hlookup]
  have hlive (t : State) : ¬t.Below ⟨.data, 0⟩ := fun h ↦ by simp [State.Below] at h
  have hs : (start lo).Stacked 0 := ⟨rfl, Int.le_refl _, rfl⟩
  have hstring := stringAt hload.data lo
  have hleft := Image.delivers_loadAddress hx hstring (hlive _)
  have hpushed : (((start lo).set .t0 (.address ⟨.data, 0⟩)).pushed 0).StringAt m ⟨.data, 0⟩
      (utf8 "ab") := hstring.of_memory (Nat.le_refl _) fun k _ ↦ State.data_pushed ..
  have hright := Image.delivers_loadAddress hx hpushed (hlive _)
  obtain ⟨s', hsteps, hfits, -⟩ := hrun (start lo) _ _ 0 _ _ _ _ rfl hs hleft hright
  have hjoins := hfits (by decide)
  refine ⟨m, lo, hi, start lo, s', hload.addAll, rfl, hs, hsteps, hjoins.pc, hjoins.t0, hjoins.brk,
    fun k hk ↦ ?_⟩
  have hbyte := hjoins.buffer k hk
  have hoffset : ((0 : Nat) : Int) + k = k := by omega
  have hjoin : utf8 "ab" ++ utf8 "ab" ++ [0] = utf8 "abab" ++ [0] := by decide
  rw [hjoin] at hbyte
  exact hoffset ▸ hbyte

end doubled

end SpimCompiler.Mips
