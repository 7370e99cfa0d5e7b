import SpimCompiler.Proofs.JumpTargets
import SpimCompiler.Proofs.StatementCode

/-!
# Runs that stay in a fragment

A logic for code that need not come to its end: as long as the machine runs it executes only
instructions of the fragment, all its states are good, and where it leaves the fragment it does so
over its end. What is said of the states can be called off by an excuse on the way. The judgement
counts steps, so a loop is followed by induction on their number.
-/

namespace SpimCompiler.Mips

/-- What is asked of the states of a run: each is good, up to one that excuses all behind it. -/
structure Watch where
  excuse : State → Prop := fun _ ↦ False
  good : State → Prop

namespace Image

variable (m : Image)

/-- The machine gets from one state to another and executes only instructions from `lo` up to
`hi`. -/
def StepsIn (lo hi : Nat) : State → State → Prop :=
  Relation.ReflTransGen fun s s' ↦ (lo ≤ s.pc ∧ s.pc < hi) ∧ m.step s = some s'

/-- For a number of steps, the machine executes instructions from `lo` up to `hi` in good states,
unless it comes to a state with the property `Q` or to an excuse. -/
def Confines (w : Watch) (lo hi : Nat) (Q : State → Prop) : Nat → State → Prop
  | 0, _ => True
  | n + 1, s => Q s ∨ (lo ≤ s.pc ∧ s.pc < hi) ∧
      (w.excuse s ∨ w.good s ∧ ∀ s', m.step s = some s' → Confines w lo hi Q n s')

/-- Started at the fragment in a state with the property `P`, the machine stays in it and leaves it
over its end, in a state that is related to the first one by `Q`. -/
def Obeys (w : Watch) (P : State → Prop) (f : Fragment) (Q : State → State → Prop) : Prop :=
  ∀ ⦃hi n : Nat⦄ ⦃s : State⦄, CodeAt m s.pc f hi → P s →
    m.Confines w s.pc hi (fun s' ↦ s'.pc = hi ∧ Q s s') n s

end Image

variable {m : Image} {w : Watch} {lo hi lo' hi' n k pc : Nat} {P P' : State → Prop}
  {Q Q' : State → Prop} {R R' : State → State → Prop} {s s' t : State} {f g : Fragment}
  {label : String}

theorem Image.StepsIn.steps (h : m.StepsIn lo hi s s') : m.Steps s s' :=
  Relation.ReflTransGen.mono (fun _ _ h ↦ h.2) _ _ h

theorem Image.StepsIn.wider (h : m.StepsIn lo hi s s') (hlo : lo' ≤ lo) (hhi : hi ≤ hi') :
    m.StepsIn lo' hi' s s' :=
  Relation.ReflTransGen.mono (fun _ _ h ↦ ⟨by omega, h.2⟩) _ _ h

namespace Image.Confines

theorem done (h : Q s) : m.Confines w lo hi Q n s := by
  cases n with
  | zero => trivial
  | succ n => exact .inl h

theorem step (hin : lo ≤ s.pc ∧ s.pc < hi)
    (h : w.excuse s ∨
      w.good s ∧ ∀ k < n, ∀ s', m.step s = some s' → m.Confines w lo hi Q k s') :
    m.Confines w lo hi Q n s := by
  cases n with
  | zero => trivial
  | succ n => exact .inr ⟨hin, h.imp_right fun h ↦ ⟨h.1, h.2 n (Nat.lt_succ_self n)⟩⟩

theorem seq (h : m.Confines w lo hi Q n s) (hlo : lo' ≤ lo) (hhi : hi ≤ hi')
    (hQ : ∀ k ≤ n, ∀ t, Q t → m.Confines w lo' hi' Q' k t) : m.Confines w lo' hi' Q' n s := by
  induction n generalizing s with
  | zero => trivial
  | succ n ih =>
    rcases h with h | ⟨hin, h⟩
    · exact hQ _ (Nat.le_refl _) s h
    · refine .inr ⟨by omega, h.imp_right fun h ↦ ⟨h.1, fun s' hs ↦ ?_⟩⟩
      exact ih (h.2 s' hs) fun k hk ↦ hQ k (by omega)

theorem imp (h : m.Confines w lo hi Q n s) (hQ : ∀ t, Q t → Q' t) : m.Confines w lo hi Q' n s :=
  h.seq (Nat.le_refl _) (Nat.le_refl _) fun _ _ t ht ↦ done (hQ t ht)

theorem reached (h : m.Confines w lo hi Q n s) :
    m.Confines w lo hi (fun s' ↦ Q s' ∧ m.StepsIn lo hi s s') n s := by
  have hfrom {t : State} (ht : m.StepsIn lo hi s t) (h : m.Confines w lo hi Q n t) :
      m.Confines w lo hi (fun s' ↦ Q s' ∧ m.StepsIn lo hi s s') n t := by
    clear * - ht h
    induction n generalizing t with
    | zero => trivial
    | succ n ih =>
      rcases h with h | ⟨hin, h⟩
      · exact .inl ⟨h, ht⟩
      · refine .inr ⟨hin, h.imp_right fun h ↦ ⟨h.1, fun t' hs ↦ ?_⟩⟩
        exact ih (ht.tail ⟨hin, hs⟩) (h.2 t' hs)
  exact hfrom .refl h

theorem and {good : State → Prop} (h : m.Confines { good } lo hi Q n s)
    (h' : m.Confines w lo hi Q' n s) (hQ : ∀ t, Q t → t.pc = hi) (hQ' : ∀ t, Q' t → t.pc = hi) :
    m.Confines w lo hi (fun t ↦ Q t ∧ Q' t) n s := by
  induction n generalizing s with
  | zero => trivial
  | succ n ih =>
    rcases h with h | ⟨hin, h⟩ <;> rcases h' with h' | ⟨hin', h'⟩
    · exact .inl ⟨h, h'⟩
    · have := hQ s h
      omega
    · have := hQ' s h'
      omega
    · refine .inr ⟨hin, h'.imp_right fun h' ↦ ⟨h'.1, fun s' hs ↦ ?_⟩⟩
      exact ih ((h.resolve_left id).2 s' hs) (h'.2 s' hs)

theorem outcome (h : ∀ n, m.Confines w lo hi Q n s) (hs : m.Steps s s') :
    (∃ t, m.StepsIn lo hi s t ∧ m.Steps t s' ∧ w.excuse t) ∨
      (m.StepsIn lo hi s s' ∧ (lo ≤ s'.pc ∧ s'.pc < hi) ∧ w.good s') ∨
      ∃ t, m.StepsIn lo hi s t ∧ m.Steps t s' ∧ Q t := by
  induction hs using Relation.ReflTransGen.head_induction_on with
  | refl =>
    rcases h 1 with h | ⟨hin, h | h⟩
    · exact .inr (.inr ⟨s', .refl, .refl, h⟩)
    · exact .inl ⟨s', .refl, .refl, h⟩
    · exact .inr (.inl ⟨.refl, hin, h.1⟩)
  | @head s t hst hts ih =>
    by_cases hQ : Q s
    · exact .inr (.inr ⟨s, .refl, .head hst hts, hQ⟩)
    by_cases he : w.excuse s
    · exact .inl ⟨s, .refl, .head hst hts, he⟩
    have hin : lo ≤ s.pc ∧ s.pc < hi := ((h 1).resolve_left hQ).1
    have ht : ∀ n, m.Confines w lo hi Q n t := fun n ↦
      ((((h (n + 1)).resolve_left hQ).2).resolve_left he).2 t hst
    rcases ih ht with ⟨u, hu, hus, he⟩ | ⟨hu, hg⟩ | ⟨u, hu, hus, hq⟩
    · exact .inl ⟨u, .head ⟨hin, hst⟩ hu, hus, he⟩
    · exact .inr (.inl ⟨.head ⟨hin, hst⟩ hu, hg⟩)
    · exact .inr (.inr ⟨u, .head ⟨hin, hst⟩ hu, hus, hq⟩)

end Image.Confines

theorem CodeAt.le (h : CodeAt m lo f hi) : lo ≤ hi := by
  induction h with
  | nil => exact Nat.le_refl _
  | instr _ _ ih => omega
  | label _ _ ih => exact ih

theorem CodeAt.of_infix (h : CodeAt m lo g hi) (hf : f <:+: g) :
    ∃ lo' hi', lo ≤ lo' ∧ hi' ≤ hi ∧ CodeAt m lo' f hi' := by
  obtain ⟨front, back, rfl⟩ := hf
  obtain ⟨hi', hfront, hback⟩ := codeAt_append.1 h
  obtain ⟨lo', hfront, hmid⟩ := codeAt_append.1 hfront
  exact ⟨lo', hi', hfront.le, hback.le, hmid⟩

theorem CodeAt.exists_instr (h : CodeAt m lo f hi) (hlo : lo ≤ pc) (hhi : pc < hi) :
    ∃ i, .instr i ∈ f ∧ m.code[pc]? = some i := by
  induction h with
  | nil => omega
  | @instr lo hi i f hi' _ ih =>
    by_cases hpc : pc = lo
    · subst hpc
      exact ⟨i, List.mem_cons_self, hi'⟩
    · obtain ⟨j, hj, hget⟩ := ih (by omega) hhi
      exact ⟨j, List.mem_cons_of_mem _ hj, hget⟩
  | label _ _ ih =>
    obtain ⟨j, hj, hget⟩ := ih hlo hhi
    exact ⟨j, List.mem_cons_of_mem _ hj, hget⟩

theorem CodeAt.exists_target (h : CodeAt m lo f hi) (hl : .label label ∈ f) :
    ∃ pc, m.target? label = some pc ∧ lo ≤ pc ∧ pc ≤ hi := by
  induction h with
  | nil => cases hl
  | instr _ _ ih =>
    obtain ⟨pc, hpc, hle, hge⟩ := ih (by simpa using hl)
    exact ⟨pc, hpc, by omega, hge⟩
  | @label lo hi name f hn hf ih =>
    rcases List.mem_cons.1 hl with he | hl
    · cases he
      exact ⟨lo, hn, Nat.le_refl _, hf.le⟩
    · exact ih hl

theorem State.exec_branch {i : Instr} (hi : i.sequential = false) (h : s.exec m i = some s') :
    s' = s.goto s'.pc ∧
      (s'.pc = s.pc + 1 ∨ ∃ x ∈ Line.targets (.instr i), m.target? x = some s'.pc) := by
  have hjump {x : String} (h : s.jump m x = some s') :
      s' = s.goto s'.pc ∧ m.target? x = some s'.pc := by
    obtain ⟨pc, hpc, rfl⟩ := Option.map_eq_some_iff.1 h
    exact ⟨rfl, hpc⟩
  cases i with
  | beqz r x | bnez r x =>
    simp only [exec, Option.bind_eq_bind, Option.bind_eq_some_iff] at h
    obtain ⟨v, -, h⟩ := h
    split_ifs at h
    all_goals first
      | exact ⟨(hjump h).1, .inr ⟨x, List.mem_singleton_self x, (hjump h).2⟩⟩
      | cases h; exact ⟨rfl, .inl rfl⟩
  | j x => exact ⟨(hjump h).1, .inr ⟨x, List.mem_singleton_self x, (hjump h).2⟩⟩
  | _ => simp [Instr.sequential] at hi

theorem Image.step_eq {i : Instr} (h : m.code[s.pc]? = some i) : m.step s = s.exec m i := by
  simp [step, h]

namespace Image

theorem obeys_nil (h : ∀ s, P s → R s s) : m.Obeys w P [] R := by
  intro hi n s hc hs
  exact .done ⟨(codeAt_nil.1 hc).symm, h s hs⟩

theorem Obeys.mono (h : m.Obeys w P f R) (hP : ∀ s, P' s → P s)
    (hR : ∀ s s', P' s → R s s' → R' s s') : m.Obeys w P' f R' := by
  intro hi n s hc hs
  exact (h hc (hP s hs)).imp fun t ht ↦ ⟨ht.1, hR s t hs ht.2⟩

theorem Obeys.steps (h : m.Obeys w P f R) :
    m.Obeys w P f fun s s' ↦ R s s' ∧ m.Steps s s' := by
  intro hi n s hc hs
  exact (h hc hs).reached.imp fun t ht ↦ ⟨ht.1.1, ht.1.2, ht.2.steps⟩

theorem Obeys.and {good : State → Prop} (h : m.Obeys { good } P f R) (h' : m.Obeys w P' f R')
    (hP : ∀ s, P' s → P s) : m.Obeys w P' f fun s s' ↦ R s s' ∧ R' s s' := by
  intro hi n s hc hs
  refine ((h hc (hP s hs)).and (h' hc hs) (fun t ht ↦ ht.1) fun t ht ↦ ht.1).imp fun t ht ↦ ?_
  exact ⟨ht.1.1, ht.1.2, ht.2.2⟩

theorem Obeys.append {T : State → State → Prop} (hf : m.Obeys w P f R)
    (hg : m.Obeys w P' g R') (hP : ∀ s s', P s → R s s' → P' s')
    (hR : ∀ s s' s'', P s → R s s' → R' s' s'' → T s s'') : m.Obeys w P (f ++ g) T := by
  intro hi n s hc hs
  obtain ⟨mid, hcf, hcg⟩ := codeAt_append.1 hc
  refine (hf hcf hs).seq (Nat.le_refl _) hcg.le ?_
  rintro k - t ⟨rfl, ht⟩
  refine (hg hcg (hP s t hs ht)).seq hcf.le (Nat.le_refl _) fun _ _ u hu ↦ ?_
  exact .done ⟨hu.1, hR s t u hs ht hu.2⟩

/-- What has to be known of a state for one instruction after the other to be executed in good
states and to end with the property `Q`. -/
def Admits (m : Image) (w : Watch) : List Instr → (State → Prop) → State → Prop
  | [], Q, s => Q s
  | i :: is, Q, s => m.code[s.pc]? = some i →
      w.excuse s ∨ w.good s ∧ ∀ s', s.exec m i = some s' → Admits m w is Q s'

theorem obeys_instrs (is : List Instr) (hi : ∀ i ∈ is, i.sequential)
    (h : ∀ s, P s → m.Admits w is (R s) s) : m.Obeys w P (is.map .instr) R := by
  have hfrom {Q : State → Prop} {is : List Instr} (hi : ∀ i ∈ is, i.sequential) :
      ∀ {s : State} {hi n : Nat}, CodeAt m s.pc (is.map .instr) hi → m.Admits w is Q s →
        m.Confines w s.pc hi (fun s' ↦ s'.pc = hi ∧ Q s') n s := by
    induction is with
    | nil => exact fun hc hs ↦ .done ⟨(codeAt_nil.1 hc).symm, hs⟩
    | cons i is ih =>
      intro s last n hc hs
      simp only [List.mem_cons, forall_eq_or_imp] at hi
      obtain ⟨hget, hc⟩ := codeAt_instr.1 hc
      refine .step ⟨Nat.le_refl _, hc.le⟩ ((hs hget).imp_right fun hs ↦ ⟨hs.1, ?_⟩)
      intro k _ s' hstep
      rw [step_eq hget] at hstep
      have hpc := State.pc_exec hi.1 hstep
      rw [← hpc] at hc
      exact (ih hi.2 hc (hs.2 s' hstep)).seq (by omega) (Nat.le_refl _) fun _ _ t ht ↦ .done ht
  exact fun _ _ s hc hs ↦ hfrom hi hc (h s hs)

/-- Code that may jump about in itself, with a relation that all its instructions keep. -/
theorem obeys_area (hf : f.Closed) (hR : ∀ s, P s → R s s)
    (hgood : ∀ s t i, P s → R s t → .instr i ∈ f → m.code[t.pc]? = some i → w.good t)
    (hkeep : ∀ s t t' i, P s → R s t → .instr i ∈ f → t.exec m i = some t' → R s t') :
    m.Obeys w P f R := by
  intro hi n s hc hs
  have hfrom {t : State} (hlo : s.pc ≤ t.pc) (hhi : t.pc ≤ hi) (ht : R s t) :
      m.Confines w s.pc hi (fun s' ↦ s'.pc = hi ∧ R s s') n t := by
    induction n generalizing t with
    | zero => trivial
    | succ n ih =>
      rcases Nat.lt_or_eq_of_le hhi with hlt | heq
      · obtain ⟨i, hmem, hget⟩ := hc.exists_instr hlo hlt
        refine .inr ⟨⟨hlo, hlt⟩, .inr ⟨hgood s t i hs ht hmem hget, fun t' hstep ↦ ?_⟩⟩
        rw [step_eq hget] at hstep
        have ht' := hkeep s t t' i hs ht hmem hstep
        by_cases hseq : i.sequential
        · have hpc := State.pc_exec hseq hstep
          exact ih (by omega) (by omega) ht'
        · obtain ⟨-, hpc | ⟨x, hx, hpc⟩⟩ := State.exec_branch (by simpa using hseq) hstep
          · exact ih (by omega) (by omega) ht'
          · obtain ⟨pc, hpc', hle, hge⟩ :=
              hc.exists_target (hf x (List.mem_flatMap.2 ⟨_, hmem, hx⟩))
            obtain rfl : pc = t'.pc := Option.some.inj (hpc'.symm.trans hpc)
            exact ih hle hge ht'
      · exact .inl ⟨heq, ht⟩
  exact hfrom (Nat.le_refl _) hc.le (hR s hs)

/-- A property of states and a relation between them for which the code of statements can be put
together. -/
structure Discipline (m : Image) (w : Watch) (P : State → Prop) (R : State → State → Prop) :
    Prop where
  refl {s : State} : P s → R s s
  goto {s : State} {pc : Nat} : P s → m.step s = some (s.goto pc) → R s (s.goto pc)
  trans {s s' s'' : State} : R s s' → R s' s'' → R s s''
  keeps {s s' : State} : P s → R s s' → P s'
  good {s : State} {i : Instr} :
    P s → m.code[s.pc]? = some i → i.sequential = false → w.good s

theorem Confines.beqz (hc : m.code[s.pc]? = some (.beqz .t0 label))
    (hk : m.target? label = some k) (hin : lo ≤ s.pc ∧ s.pc < hi) (hg : w.good s)
    (hnext : m.step s = some (s.goto (s.pc + 1)) →
      ∀ j < n, m.Confines w lo hi Q j (s.goto (s.pc + 1)))
    (htarget : m.step s = some (s.goto k) → ∀ j < n, m.Confines w lo hi Q j (s.goto k)) :
    m.Confines w lo hi Q n s := by
  refine .step hin (.inr ⟨hg, fun j hj s' hs ↦ ?_⟩)
  obtain ⟨he, hpc | ⟨x, hx, hpc⟩⟩ := State.exec_branch rfl ((step_eq hc).symm.trans hs)
  · rw [hpc] at he
    rw [he] at hs ⊢
    exact hnext hs j hj
  · obtain rfl : x = label := List.mem_singleton.1 hx
    obtain rfl := Option.some.inj (hk.symm.trans hpc)
    rw [he] at hs ⊢
    exact htarget hs j hj

theorem Confines.j (hc : m.code[s.pc]? = some (.j label)) (hk : m.target? label = some k)
    (hin : lo ≤ s.pc ∧ s.pc < hi) (hg : w.good s)
    (htarget : m.step s = some (s.goto k) → ∀ j < n, m.Confines w lo hi Q j (s.goto k)) :
    m.Confines w lo hi Q n s := by
  have hstep : m.step s = some (s.goto k) := by
    simp [step_eq hc, State.exec, State.jump, hk, State.goto]
  refine .step hin (.inr ⟨hg, fun j hj s' hs ↦ ?_⟩)
  obtain rfl : s.goto k = s' := Option.some.inj (hstep.symm.trans hs)
  exact htarget hstep j hj

namespace Discipline

variable {c e : Fragment} {startLabel elseLabel endLabel : String}

theorem nil (d : Discipline m w P R) : m.Obeys w P [] R :=
  obeys_nil fun _ hs ↦ d.refl hs

theorem append (d : Discipline m w P R) (hf : m.Obeys w P f R) (hg : m.Obeys w P g R) :
    m.Obeys w P (f ++ g) R :=
  hf.append hg (fun _ _ ↦ d.keeps) fun _ _ _ _ ↦ d.trans

theorem flatMap (d : Discipline m w P R) {α : Type} {cs : List α} {part : α → Fragment}
    (h : ∀ c ∈ cs, m.Obeys w P (part c) R) : m.Obeys w P (cs.flatMap part) R := by
  induction cs with
  | nil => exact d.nil
  | cons c cs ih =>
    simp only [List.mem_cons, forall_eq_or_imp] at h
    exact d.append h.1 (ih h.2)

theorem ifThen (d : Discipline m w P R) (hc : m.Obeys w P c R) (hf : m.Obeys w P f R) :
    m.Obeys w P (Template.ifThen c f endLabel) R := by
  intro last n s hcode hs
  simp only [Template.ifThen, codeAt_append, codeAt_instr, codeAt_label, codeAt_nil] at hcode
  obtain ⟨_, ⟨_, ⟨_, hcc, hget, rfl⟩, hcf⟩, hend, rfl⟩ := hcode
  have hle := hcc.le
  have hle' := hcf.le
  refine (hc hcc hs).seq (Nat.le_refl _) (by omega) ?_
  rintro k - t ⟨rfl, ht⟩
  have hPt := d.keeps hs ht
  refine .beqz hget hend ⟨by omega, by omega⟩ (d.good hPt hget rfl) (fun hstep j _ ↦ ?_)
    fun hstep j _ ↦ .done ⟨rfl, d.trans ht (d.goto hPt hstep)⟩
  have hnext := d.trans ht (d.goto hPt hstep)
  refine (hf hcf (d.keeps hs hnext)).seq (by simp [State.goto]; omega) (Nat.le_refl _) ?_
  exact fun _ _ u hu ↦ .done ⟨hu.1, d.trans hnext hu.2⟩

theorem ifElse (d : Discipline m w P R) (hc : m.Obeys w P c R) (hf : m.Obeys w P f R)
    (he : m.Obeys w P e R) : m.Obeys w P (Template.ifElse c f e elseLabel endLabel) R := by
  intro last n s hcode hs
  simp only [Template.ifElse, codeAt_append, codeAt_instr, codeAt_label, codeAt_nil] at hcode
  obtain ⟨_, ⟨_, ⟨back, ⟨_, ⟨_, hcc, hget, rfl⟩, hcf⟩, hj, helse, rfl⟩, hce⟩, hend, rfl⟩ := hcode
  have hle := hcc.le
  have hle' := hcf.le
  have hle'' := hce.le
  refine (hc hcc hs).seq (Nat.le_refl _) (by omega) ?_
  rintro k - t ⟨rfl, ht⟩
  have hPt := d.keeps hs ht
  refine .beqz hget helse ⟨by omega, by omega⟩ (d.good hPt hget rfl) (fun hstep j _ ↦ ?_)
    fun hstep j _ ↦ ?_
  · have hnext := d.trans ht (d.goto hPt hstep)
    refine (hf hcf (d.keeps hs hnext)).seq (by simp [State.goto]; omega) (by omega) ?_
    rintro k - u ⟨rfl, hu⟩
    have hPu := d.keeps (d.keeps hs hnext) hu
    exact .j hj hend ⟨by omega, by omega⟩ (d.good hPu hj rfl) fun hstep _ _ ↦
      .done ⟨rfl, d.trans hnext (d.trans hu (d.goto hPu hstep))⟩
  · have hother := d.trans ht (d.goto hPt hstep)
    refine (he hce (d.keeps hs hother)).seq (by simp [State.goto]; omega) (Nat.le_refl _) ?_
    exact fun _ _ u hu ↦ .done ⟨hu.1, d.trans hother hu.2⟩

/-- The loop comes back to its start with fewer steps left, so the induction is on these. -/
theorem whileLoop (d : Discipline m w P R) (hc : m.Obeys w P c R) (hf : m.Obeys w P f R) :
    m.Obeys w P (Template.whileLoop c f startLabel endLabel) R := by
  intro last n s hcode hs
  obtain ⟨hstart, body, back, hcb, hcf, hj, hend, rfl⟩ := codeAt_whileLoop.1 hcode
  simp only [codeAt_append, codeAt_instr, codeAt_nil] at hcb
  obtain ⟨_, hcc, hget, rfl⟩ := hcb
  have hle := hcc.le
  have hle' := hcf.le
  have hfrom {t : State} (hpc : t.pc = s.pc) (ht : R s t) :
      m.Confines w s.pc (back + 1) (fun s' ↦ s'.pc = back + 1 ∧ R s s') n t := by
    induction n using Nat.strongRecOn generalizing t with
    | ind n ih =>
      refine (hc (hpc ▸ hcc) (d.keeps hs ht)).seq (by omega) (by omega) ?_
      rintro k hk u ⟨rfl, hr⟩
      have hsu := d.trans ht hr
      have hPu := d.keeps hs hsu
      refine .beqz hget hend ⟨by omega, by omega⟩ (d.good hPu hget rfl) (fun hstep j hjk ↦ ?_)
        fun hstep j _ ↦ .done ⟨rfl, d.trans hsu (d.goto hPu hstep)⟩
      have hnext := d.trans hsu (d.goto hPu hstep)
      refine (hf hcf (d.keeps hs hnext)).seq (by simp [State.goto]; omega) (by omega) ?_
      rintro i hij v ⟨rfl, hv⟩
      have hsv := d.trans hnext hv
      have hPv := d.keeps hs hsv
      exact .j hj hstart ⟨by omega, by omega⟩ (d.good hPv hj rfl) fun hstep l hl ↦
        ih l (by omega) rfl (d.trans hsv (d.goto hPv hstep))
  exact hfrom rfl (d.refl hs)

end Discipline

end Image

end SpimCompiler.Mips
