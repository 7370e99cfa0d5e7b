import SpimCompiler.Proofs.ExpressionTyping
import SpimCompiler.Proofs.StorageLabels

namespace SpimCompiler

open Mips ScopeTree

section recorded

variable {σ τ α : Type}

def Pass.first (p : Pass σ α) : Pass (σ × τ) α := fun run ↦
  match p ⟨run.state.1, run.trace⟩ with
  | .ok a r => .ok a ⟨(r.state, run.state.2), r.trace⟩
  | .error e r => .error e ⟨(r.state, run.state.2), r.trace⟩

@[simp]
theorem Pass.ends_first (p : Pass σ α) {run : Run (σ × τ)} {Q : α → Run (σ × τ) → Prop} :
    (first p).Ends run Q ↔
      p.Ends ⟨run.state.1, run.trace⟩ fun a r ↦ Q a ⟨(r.state, run.state.2), r.trace⟩ := by
  unfold Ends first
  cases p ⟨run.state.1, run.trace⟩ <;> rfl

/-- The same walk. The state in which a node is left is kept for it. -/
def Visitor.recorded (v : Visitor σ) : Visitor (σ × NodeTable σ) where
  enter i n := Pass.first (v.enter i n)
  exit i n := do
    Pass.update fun s ↦ (s.1, s.2.write i s.1)
    Pass.first (v.exit i n)

end recorded

def Arena.analyzeRecorded (a : Arena) (root : NodeId) :
    Pass Unit (Analysis × NodeTable Typing) := do
  let ((), b) ← Pass.inside {} (a.walk Binding.visitor root)
  let ((), s) ← Pass.inside ({ scopes := b.scopes, report := b.report }, {})
    (a.walk (Typing.visitor a).recorded root)
  return (s.1.analysis, s.2)

namespace Typing

variable {phrase : NodeId → String} {T T' : NodeTable Typing} {ts ts' : List Tree} {t : Tree}
  {s s' s'' : Typing}

/-- The pass goes from one state to the other, and the table has the states in which it left the
nodes. -/
inductive Recorded (phrase : NodeId → String) (T : NodeTable Typing) :
    List Tree → Typing → Typing → Prop
  | nil {s : Typing} : Recorded phrase T [] s s
  | skip {s s' : Typing} {i : NodeId} {n : Node Tree} {ts : List Tree} :
      n.kind = .functionDefinition → Recorded phrase T ts s s' →
      Recorded phrase T (.mk i n :: ts) s s'
  | cons {s s₁ s' : Typing} {i : NodeId} {n : Node Tree} {ts : List Tree} :
      n.kind ≠ .functionDefinition →
      Recorded phrase T n.children (s.inScope (n.innerScope s.current)) s₁ →
      T.get? i = some s₁ →
      Recorded phrase T ts ((s₁.give i (s₁.verdict phrase (n.map Tree.id))).inScope s.current) s' →
      Recorded phrase T (.mk i n :: ts) s s'

theorem Recorded.judged (h : Recorded phrase T ts s s') : Judged phrase ts s s' := by
  induction h with
  | nil => exact .nil
  | skip hk _ ih => exact .skip hk ih
  | cons hk _ _ _ ihc iht => exact .cons hk ihc iht

theorem Recorded.mono (h : Recorded phrase T ts s s')
    (hT : ∀ i x, T.get? i = some x → T'.get? i = some x) : Recorded phrase T' ts s s' := by
  induction h with
  | nil => exact .nil
  | skip hk _ ih => exact .skip hk ih
  | cons hk _ hi _ ihc iht => exact .cons hk ihc (hT _ _ hi) iht

theorem Recorded.append (h : Recorded phrase T ts s s') (h' : Recorded phrase T ts' s' s'') :
    Recorded phrase T (ts ++ ts') s s'' := by
  induction h with
  | nil => exact h'
  | skip hk _ ih => exact .skip hk (ih h')
  | cons hk hc hi _ _ ih => exact .cons hk hc hi (ih h')

theorem Judged.unique (h : Judged phrase ts s s') (h' : Judged phrase ts s s'') : s' = s'' := by
  induction h generalizing s'' with
  | nil => exact (judged_nil_iff.1 h').symm
  | skip hk _ ih =>
    cases h' with
    | skip _ h' => exact ih h'
    | cons hk' => exact absurd hk hk'
  | cons hk _ _ ihc iht =>
    cases h' with
    | skip hk' => exact absurd hk' hk
    | cons _ hc h' =>
      obtain rfl := ihc hc
      exact iht h'

/-- The walk through `ts` went from `run` to `r`, and the table has only got entries for their
nodes. -/
structure Kept (a : Arena) (ts : List Tree) (run r : Run (Typing × NodeTable Typing)) : Prop where
  recorded : Recorded a.phraseOf r.state.2 ts run.state.1 r.state.1
  frame : ∀ i ∉ ts.flatMap Tree.ids, r.state.2.get? i = run.state.2.get? i

variable {a : Arena} {run r : Run (Typing × NodeTable Typing)}

theorem Kept.get? (h : Kept a ts run r) (hf : run.state.2.Fresh ts) {i : NodeId} {x : Typing}
    (hi : run.state.2.get? i = some x) : r.state.2.get? i = some x := by
  rw [h.frame i fun hm ↦ ?_, hi]
  rw [hf.absent i hm] at hi
  cases hi

theorem ends_walk_recorded_all {cs : List Tree}
    (hcs : ∀ c ∈ cs, ∀ run, c.Placed run.state.1.scopes run.state.1.current →
      run.state.2.Fresh [c] →
      (c.walk (visitor a).recorded).Ends run fun _ r ↦ Kept a [c] run r)
    (hp : ∀ c ∈ cs, c.Placed run.state.1.scopes run.state.1.current) (hf : run.state.2.Fresh cs) :
    Pass.Ends (cs.forM (Tree.walk (visitor a).recorded)) run fun _ r ↦ Kept a cs run r := by
  refine Pass.ends_forM (fun done r ↦ Kept a done run r) ⟨.nil, fun _ _ ↦ rfl⟩ ?_
  intro done c rest r hn hr
  have hc : c ∈ cs := by simp [hn]
  have hn' : cs = (done ++ [c]) ++ rest := by simp [hn]
  have hf' : run.state.2.Fresh (done ++ [c]) := (hn' ▸ hf).left
  have hfc := hf'.of_frame hr.frame
  have hgrows := hr.recorded.judged.grows
  refine (hcs c hc r ?_ hfc).mono fun _ r' hr' ↦ ⟨?_, fun i hi ↦ ?_⟩
  · rw [hgrows.current]
    exact (hp c hc).extends hgrows.scopes
  · exact (hr.recorded.mono fun i x hi ↦ hr'.get? hfc hi).append hr'.recorded
  · rw [List.flatMap_append, List.mem_append, not_or] at hi
    rw [hr'.frame i hi.2, hr.frame i hi.1]

theorem ends_walk_recorded (ha : a.IsForest) (ht : a.Holds t)
    (run : Run (Typing × NodeTable Typing))
    (hp : t.Placed run.state.1.scopes run.state.1.current) (hf : run.state.2.Fresh [t]) :
    (t.walk (visitor a).recorded).Ends run fun _ r ↦ Kept a [t] run r := by
  induction t generalizing run with
  | mk i n ih =>
    obtain ⟨hb, hpc⟩ := hp
    rw [Pass.ends_walk]
    simp only [Visitor.recorded, Pass.ends_first]
    refine ends_enter_node a (fun hk ↦ (hb (by simpa using hk)).1) ?_
    by_cases hd : n.kind = .functionDefinition
    · simp only [Node.kind_map, hd, ne_eq, not_true_eq_false, decide_false, Bool.false_eq_true,
        if_false, Node.innerScope, reduceCtorEq]
      exact ⟨.skip hd .nil, by simp⟩
    · simp only [Node.kind_map, ne_eq, hd, not_false_eq_true, decide_true, if_true]
      have hphrase := fun c (hc : c ∈ (n.map Tree.id).children) ↦ ht.phrase_child ha hc
      rw [Node.innerScope_map]
      refine Pass.Ends.mono (ends_walk_recorded_all
        (fun c hc run hp hf ↦ ih c hc (ht.child hc) run hp hf) (hpc hd) hf.children)
        fun _ r hr ↦ ?_
      have hget : r.state.2.get? i = none :=
        (hr.frame i hf.notMem_children).trans hf.get?_eq_none
      have hwrite (j : NodeId) : (r.state.2.write i r.state.1).get? j =
          if i = j then some r.state.1 else r.state.2.get? j := by
        simp [NodeTable.get?_write, hget]
      have hgrows := hr.recorded.judged.grows
      simp only [Pass.ends_bind, Pass.ends_update, Pass.ends_first]
      refine ends_exit_node hphrase ?_ (fun hk ↦ ?_) fun _ ↦
        ⟨.cons hd (hr.recorded.mono ?_) ?_ .nil, ?_⟩
      · rw [Node.innerScope_map]
        exact hgrows.current
      · rw [hgrows.scopes.leave_eq]
        exact (hb (by simpa using hk)).2
      · intro j x hj
        rw [hwrite, if_neg, hj]
        rintro rfl
        rw [hget] at hj
        cases hj
      · rw [hwrite, if_pos rfl]
      · intro j hj
        simp only [List.flatMap_singleton, Tree.ids_mk, List.mem_append, List.mem_singleton,
          not_or] at hj
        rw [hwrite, if_neg (Ne.symm hj.2), hr.frame j hj.1]

theorem get?_of_isValue {i : NodeId} {type : Ty} (h : type = s.type i) (hv : type.isValue) :
    s.types.get? i = some type := by
  unfold Typing.type at h
  cases ht : s.types.get? i with
  | none => simp [h, ht, Ty.isValue] at hv
  | some type' => simp [h, ht]

theorem Grows.inScope (h : s.Grows s') (u : ScopeId) : (s.inScope u).Grows (s'.inScope u) :=
  ⟨h.scopes, rfl, h.types, h.report⟩

/-- The state in which a node was left: it is in the scope of the node, the node has no type in it,
and all that the pass finds out from there on is found in the last state. -/
theorem Recorded.occurs (h : Recorded phrase T ts s s') (hf : s.types.Fresh ts) (ht : t ∈ ts)
    (hp : t.Plain) {i : NodeId} {n : Node Tree} {v : ScopeId}
    (ho : (Tree.mk i n).Occurs v s.current t) :
    ∃ s₁, T.get? i = some s₁ ∧ s₁.current = n.innerScope v ∧ s₁.types.get? i = none ∧
      (s₁.give i (s₁.verdict phrase (n.map Tree.id))).Grows (s'.inScope (n.innerScope v)) := by
  induction h generalizing t v with
  | nil => cases ht
  | @skip s s' j m ts hk h ih =>
    have hfs : s.types.Fresh ([.mk j m] ++ ts) := hf
    rcases List.mem_cons.1 ht with rfl | ht
    · exact absurd hk hp.kind_ne
    · exact ih (hfs.of_frame fun _ _ ↦ rfl) ht hp ho
  | @cons s s₁ s' j m ts hk hc hj hts ihc iht =>
    have hfs : s.types.Fresh ([.mk j m] ++ ts) := hf
    have hnode : Judged phrase [.mk j m] s
        ((s₁.give j (s₁.verdict phrase (m.map Tree.id))).inScope s.current) :=
      .cons hk hc.judged .nil
    rcases List.mem_cons.1 ht with rfl | ht
    · have hlast (u : ScopeId) : (s₁.inScope u).Grows (s'.inScope u) :=
        ((s₁.grows_give j _).inScope u).trans (hts.judged.grows.inScope u)
      cases ho with
      | here =>
        have hcur : s₁.current = n.innerScope s.current := hc.judged.grows.current
        have hgrows := hts.judged.grows
        refine ⟨s₁, hj, hcur, ?_, ⟨hgrows.scopes, hcur.symm, hgrows.types, hgrows.report⟩⟩
        exact (hc.judged.frame hfs.left.notMem_children).trans hfs.left.get?_eq_none
      | inside hm ho =>
        obtain ⟨-, hpc⟩ := hp
        obtain ⟨s₂, hi, hcur, hnone, hgrows⟩ := ihc hfs.left.children hm (hpc _ hm) ho
        exact ⟨s₂, hi, hcur, hnone, hgrows.trans (hlast _)⟩
    · exact iht (hfs.of_frame fun i hi ↦ hnode.frame hi) ht hp ho

end Typing

namespace ScopeTree

variable {scopes scopes' : ScopeTree} {u v w : ScopeId} {x : String} {y : Symbol}

theorem resolve?_eq_some_iff :
    scopes.resolve? u x = some y ↔
      ∃ v, scopes.definingScope? u x = some v ∧ scopes.local? v x = some y := by
  unfold resolve? definingScope?
  induction scopes.chain u with
  | nil => simp
  | cons v vs ih => cases hv : scopes.local? v x <;> simp [hv, ih]

theorem length_outerOf_forMain (main : Tree) (u : ScopeId) :
    ((forMain main).outerOf u).length ≤ 1 := by
  have h : ∀ t ∈ [initial, withMain], ∀ s ∈ t.scopes, s.outer.length ≤ 1 := by decide
  have hmem : forMain main ∈ [initial, withMain] := by
    unfold forMain
    split <;> simp
  cases hu : (forMain main).get? u with
  | none => simp [outerOf, hu]
  | some s =>
    have hs : s ∈ (forMain main).scopes := Array.mem_of_getElem? hu
    simpa [outerOf, hu] using h _ hmem s hs

/-- Where there is one scope around another at most, a name goes on to stand for the same variable
unless a nearer one of that name is bound. -/
theorem Extends.definingScope?_eq_iff (h : scopes.Extends scopes')
    (hu : (scopes.outerOf u).length ≤ 1) (hv : scopes.definingScope? u x = some v)
    (hw : scopes'.definingScope? u x = some w) :
    v = w ↔ (scopes.local? u x).isSome ∨ scopes'.local? u x = none := by
  have hlater (hx : (scopes.local? u x).isSome) : (scopes'.local? u x).isSome := by
    obtain ⟨y, hy⟩ := Option.isSome_iff_exists.1 hx
    simp [h.found hy]
  by_cases hx : (scopes.local? u x).isSome
  · obtain rfl : u = v := Option.some.inj ((definingScope?_of_local? hx).symm.trans hv)
    obtain rfl : u = w := Option.some.inj ((definingScope?_of_local? (hlater hx)).symm.trans hw)
    simp [hx]
  · by_cases hx' : (scopes'.local? u x).isSome
    · obtain rfl : u = w := Option.some.inj ((definingScope?_of_local? hx').symm.trans hw)
      have hne : v ≠ u := by
        rintro rfl
        exact hx (isSome_local?_of_definingScope? hv)
      simp [hne, hx, Option.isSome_iff_ne_none.1 hx']
    · have hnone : scopes'.local? u x = none := by simpa using hx'
      have hv : (scopes.outerOf u).find? (fun w ↦ (scopes.local? w x).isSome) = some v := by
        simpa [definingScope?, chain, hx] using hv
      have hw : (scopes.outerOf u).find? (fun w ↦ (scopes'.local? w x).isSome) = some w := by
        simpa [definingScope?, chain, hnone, h.outerOf] using hw
      have hvm := List.mem_of_find?_eq_some hv
      have hwm := List.mem_of_find?_eq_some hw
      have heq : v = w := by
        rcases ho : scopes.outerOf u with _ | ⟨o, _ | ⟨o', os⟩⟩
        · simp [ho] at hvm
        · rw [ho, List.mem_singleton] at hvm hwm
          exact hvm.trans hwm.symm
        · simp [ho] at hu
      simp [heq, hnone]

end ScopeTree

namespace Arena

variable {a : Arena} {root : NodeId} {functions : List Tree} {main : Tree} {s : Typing}
  {g : Generation}

theorem Compiles.exists_recorded (h : a.Compiles root functions main s g) :
    ∃ T, (a.analyzeRecorded root).outcome.result = .ok (s.analysis, T) ∧
      Typing.Recorded a.phraseOf T [.mk root (.program functions main)]
        { scopes := forMain main } s := by
  have hwalk {σ : Type} (v : Visitor σ) :
      a.walk v root = (Tree.mk root (.program functions main)).walk v := h.holds.walk_eq h.forest v
  have hends : (a.analyzeRecorded root).Ends ⟨(), #[]⟩ fun x _ ↦ x.1 = s.analysis ∧
      Typing.Recorded a.phraseOf x.2 [.mk root (.program functions main)]
        { scopes := forMain main } s := by
    simp only [analyzeRecorded, hwalk, Pass.ends_bind, Pass.ends_inside, Pass.ends_pure]
    refine (Binding.ends_walk_program h.forest h.holds #[]).mono fun _ b hb ↦ ?_
    rw [hb.1, hb.2, Tree.plain_iff_rejections.1 h.accepted.plain]
    refine (Typing.ends_walk_recorded h.forest h.holds _ (h.holds.placed h.forest) ?_).mono
      fun _ r hr ↦ ?_
    · exact ⟨by simpa using h.holds.nodup_ids h.forest, by simp⟩
    · obtain rfl : r.state.1 = s := hr.recorded.judged.unique h.judged
      exact ⟨rfl, hr.recorded⟩
  obtain ⟨⟨r, T⟩, -, hT, rfl, hrec⟩ := hends.outcome
  exact ⟨T, hT, hrec⟩

theorem Compiles.sound (h : a.Compiles root functions main s g) : s.Sound :=
  (h.judged.checked (Typing.sound_forMain main #[]) (by simpa using h.holds.placed h.forest)).1

/-- A use of the name `x`. The second pass was in the state `s` then and found the variable `y` of
the scope `v`. The generator finds `z` of the scope `w`. -/
structure Resolves (r : Analysis) (s : Typing) (x : String) (v w : ScopeId) (y z : Symbol) :
    Prop where
  judged : s.scopes.definingScope? s.current x = some v
  bound : s.scopes.local? v x = some y
  lookup : s.lookup x = some y
  generated : r.scopes.definingScope? s.current x = some w
  found : r.scopes.local? w x = some z
  agrees : v = w ↔ (s.scopes.local? s.current x).isSome ∨ r.scopes.local? s.current x = none
  same : v = w → y = z

theorem Compiles.resolves (h : a.Compiles root functions main s g) {s₁ : Typing}
    (hext : s₁.scopes.Extends s.scopes) {x : String} {y : Symbol} (hy : s₁.lookup x = some y) :
    ∃ v w z, Resolves s.analysis s₁ x v w y z := by
  obtain ⟨v, hv, hlocal⟩ := resolve?_eq_some_iff.1 hy
  have hw := hext.isSome_definingScope? (Option.isSome_iff_exists.2 ⟨v, hv⟩)
  obtain ⟨w, hw⟩ := Option.isSome_iff_exists.1 hw
  obtain ⟨z, hz⟩ := Option.isSome_iff_exists.1 (isSome_local?_of_definingScope? hw)
  have houter : (s₁.scopes.outerOf s₁.current).length ≤ 1 := by
    have hstart : (forMain main).Extends s.scopes := h.judged.grows.scopes
    rw [← hext.outerOf, hstart.outerOf]
    exact length_outerOf_forMain main _
  refine ⟨v, w, z, hv, hlocal, hy, hw, hz, hext.definingScope?_eq_iff houter hv hw, ?_⟩
  rintro rfl
  exact Option.some.inj ((hext.found hlocal).symm.trans hz)

/-- The second pass left the node of every use of a variable in a state in which the variable was
found, and the code of the node is made with the cell that the generator finds. -/
theorem Compiles.exists_use (h : a.Compiles root functions main s g) {T : NodeTable Typing}
    (hT : Typing.Recorded a.phraseOf T [.mk root (.program functions main)]
      { scopes := forMain main } s) {i : NodeId} {n : Node NodeId} (hi : a.Reaches root i)
    (hn : a.get? i = some n) {x : String} (hx : n.variableName? = some x)
    (hfound : ∀ s₁ : Typing, (s₁.verdict a.phraseOf n).complaint = none →
      (s₁.lookup x).isSome) :
    ∃ s₁ v w y z, T.get? i = some s₁ ∧ Resolves s.analysis s₁ x v w y z ∧
      s₁.types.get? i = none ∧ (s₁.verdict a.phraseOf n).complaint = none ∧
      (s₁.give i (s₁.verdict a.phraseOf n)).Grows (s.inScope s₁.current) ∧
      ∃ p : Places, (p.cell s.analysis.scopes s₁.current x).1 =
          Cell.labelFor (s.analysis.scopes.qualifiedName w) x ∧
        (compose s.analysis s₁.current g.part i p n).1 = g.part i := by
  obtain ⟨m, v, ho⟩ := Tree.exists_occurs (h.holds.reaches_iff.1 hi) globalScope
  have hm : a.get? i = some (m.map Tree.id) := (h.holds.occurs ho).get?
  obtain rfl : m.map Tree.id = n := Option.some.inj (hm.symm.trans hn)
  rw [Node.variableName?_map] at hx
  have hfresh : ({ scopes := forMain main } : Typing).types.Fresh
      [.mk root (.program functions main)] :=
    ⟨by simpa using h.holds.nodup_ids h.forest, by simp⟩
  obtain ⟨s₁, hget, hcur, hnone, hgrows⟩ :=
    hT.occurs hfresh List.mem_cons_self h.accepted.plain ho
  rw [Node.innerScope_of_variableName? hx] at hcur hgrows
  subst hcur
  have hcomplaint : (s₁.verdict a.phraseOf (m.map Tree.id)).complaint = none :=
    Typing.complaint_eq_none (hgrows.report_empty h.report)
  obtain ⟨y, hy⟩ := Option.isSome_iff_exists.1 (hfound s₁ hcomplaint)
  obtain ⟨v, w, z, hres⟩ := h.resolves ((s₁.grows_give i _).scopes.trans hgrows.scopes) hy
  obtain ⟨p, q, hcode, hlabel, -⟩ := h.generated.coded.exists_cell ho hx hres.generated
    ⟨by simp [Generation.places], by simp [Generation.places]⟩
  exact ⟨s₁, v, w, y, z, hget, hres, hnone, hcomplaint, hgrows, p, hlabel,
    congrArg Prod.fst hcode⟩

/-- In a compiled program the code of every use of a variable has the label of the cell that the
generator finds, and the type of the use is that of the variable that the second pass found. The
two are the same variable, unless there was none of the name in the scope of the use at that time
and one is declared there later. -/
theorem compile_resolves {text : String} (h : (a.compile .asm).outcome.result = .ok (.ok text)) :
    ∃ root r states assembly, a.validate = .ok root ∧
      (a.analyze root).outcome.result = .ok r ∧
      (a.analyzeRecorded root).outcome.result = .ok (r, states) ∧
      (a.analyze root >>= a.generate root).outcome.result = .ok (.ok assembly) ∧
      (∀ i x, a.Reaches root i → a.get? i = some (.variableRef x) →
        ∃ s v w y z, states.get? i = some s ∧ Resolves r s x v w y z ∧
          r.types.get? i = some y.type ∧
          assembly.code.get? i =
            some (Template.loadVariable (Cell.labelFor (r.scopes.qualifiedName w) x))) ∧
      ∀ i x value, a.Reaches root i → a.get? i = some (.assignment x value) →
        ∃ s v w y z f, states.get? i = some s ∧ Resolves r s x v w y z ∧
          r.types.get? value = some y.type ∧ assembly.code.get? value = some f ∧
          assembly.code.get? i =
            some (Template.storeVariable f (Cell.labelFor (r.scopes.qualifiedName w) x)) := by
  obtain ⟨root, functions, main, s, g, hc, rfl⟩ := exists_compiles h
  obtain ⟨T, hT, hrec⟩ := hc.exists_recorded
  have hcode {i : NodeId} (hi : a.Reaches root i) : g.code.get? i = some (g.part i) :=
    hc.get?_code (hc.holds.reaches_iff.1 hi)
  refine ⟨root, s.analysis, T, g.assembly root, hc.valid, hc.result_analyze, hT,
    hc.result_generate, fun i x hi hx ↦ ?_, fun i x value hi hx ↦ ?_⟩
  · obtain ⟨s₁, v, w, y, z, hget, hres, hnone, -, hgrows, p, hlabel, hpart⟩ :=
      hc.exists_use hrec hi hx rfl fun s₁ hs ↦ by
        cases hy : s₁.lookup x <;> simp [Typing.verdict, Typing.variableVerdict, hy] at hs ⊢
    refine ⟨s₁, v, w, y, z, hget, hres, hgrows.types (Typing.get?_give_type hnone ?_), ?_⟩
    · simp [Typing.verdict, Typing.variableVerdict, hres.lookup]
    · rw [← hlabel]
      exact (hcode hi).trans (congrArg some hpart.symm)
  · obtain ⟨s₁, v, w, y, z, hget, hres, -, hcomplaint, hgrows, p, hlabel, hpart⟩ :=
      hc.exists_use hrec hi hx rfl fun s₁ hs ↦ by
        cases hy : s₁.lookup x <;> simp [Typing.verdict, Typing.assignmentVerdict, hy] at hs ⊢
    refine ⟨s₁, v, w, y, z, g.part value, hget, hres, ?_, ?_, ?_⟩
    · have htype : y.type = s₁.type value := by
        simpa [Typing.verdict, Typing.assignmentVerdict, hres.lookup, Typing.Verdict.expected]
          using hcomplaint
      have hall := (s₁.grows_give i (s₁.verdict a.phraseOf (.assignment x value))).trans hgrows
      have hvalue : y.type.isValue := hc.sound.symbols (hall.scopes.found hres.bound)
      exact hall.types (Typing.get?_of_isValue htype hvalue)
    · exact hcode (hi.child hx (by simp [Node.children]))
    · rw [← hlabel]
      exact (hcode hi).trans (congrArg some hpart.symm)

end Arena

def shadowed : Arena where
  nodes := #[.variableDeclaration "x" .int none, .variableRef "x",
    .variableDeclaration "y" .int (some ⟨1⟩), .variableDeclaration "x" .string none,
    .variableBlock [⟨2⟩, ⟨3⟩], .statementBlock [], .executableBlock (some ⟨4⟩) ⟨5⟩,
    .program [⟨0⟩] ⟨6⟩]
  root := some ⟨7⟩

namespace shadowed

def text : String :=
  ".data\nbool_true: .asciiz \"true\"\nbool_false: .asciiz \"false\"\nvar_x: .word 0\n" ++
    "var_main_x: .word 0\nvar_main_y: .word 0\n.text\nmain:\nlw     $t0 var_main_x\n" ++
    "sw     $t0 var_main_y\nli     $v0 10\nsyscall\n"

theorem validate_eq : shadowed.validate = .ok ⟨7⟩ :=
  Arena.validate_of_sound (by decide) (by decide) (by decide)

theorem compile_eq : (shadowed.compile .asm).outcome.result = .ok (.ok text) :=
  Arena.result_compile validate_eq (by decide +kernel)

theorem compile_resolves_at :
    (shadowed.compile .asm).outcome.result = .ok (.ok text) ∧ shadowed.Reaches ⟨7⟩ ⟨1⟩ ∧
      ∃ r states assembly, (shadowed.analyze ⟨7⟩).outcome.result = .ok r ∧
        (shadowed.analyzeRecorded ⟨7⟩).outcome.result = .ok (r, states) ∧
        (shadowed.analyze ⟨7⟩ >>= shadowed.generate ⟨7⟩).outcome.result = .ok (.ok assembly) ∧
        ∃ s v w y z, states.get? ⟨1⟩ = some s ∧ Arena.Resolves r s "x" v w y z ∧
          r.types.get? ⟨1⟩ = some y.type ∧ assembly.code.get? ⟨1⟩ =
            some (Template.loadVariable (Cell.labelFor (r.scopes.qualifiedName w) "x")) := by
  have hreaches : shadowed.Reaches ⟨7⟩ ⟨1⟩ := by
    have h6 : shadowed.Reaches ⟨7⟩ ⟨6⟩ := .child .refl rfl (by decide)
    have h4 : shadowed.Reaches ⟨7⟩ ⟨4⟩ := h6.child rfl (by decide)
    have h2 : shadowed.Reaches ⟨7⟩ ⟨2⟩ := h4.child rfl (by decide)
    exact h2.child rfl (by decide)
  obtain ⟨root, r, states, assembly, hv, hr, hs, hg, huses, -⟩ :=
    Arena.compile_resolves compile_eq
  obtain rfl : root = ⟨7⟩ := by simpa using hv.symm.trans validate_eq
  exact ⟨compile_eq, hreaches, r, states, assembly, hr, hs, hg, huses ⟨1⟩ "x" hreaches rfl⟩

/-- The use of `x` in the value of `y` is typed as one of the number in the global scope, and
compiled as one of the string in the main block. -/
theorem scopes_ne :
    (shadowed.compile .asm).outcome.result = .ok (.ok text) ∧
      (shadowed.analyzeRecorded ⟨7⟩).outcome.result.map (fun (r, states) ↦
        ((states.get? ⟨1⟩).map fun s ↦ (s.scopes.definingScope? s.current "x", s.lookup "x"),
          r.types.get? ⟨1⟩, r.scopes.definingScope? mainScope "x",
          r.scopes.local? mainScope "x")) =
        .ok (some (some globalScope, some ⟨"x", .int⟩), some .int, some mainScope,
          some ⟨"x", .string⟩) ∧
      (shadowed.analyze ⟨7⟩ >>= shadowed.generate ⟨7⟩).outcome.result.map
        (·.map fun g ↦ g.code.get? ⟨1⟩) = .ok (.ok (some (Template.loadVariable "var_main_x"))) :=
  ⟨compile_eq, by decide +kernel, by decide +kernel⟩

end shadowed

end SpimCompiler
