import SpimCompiler.Proofs.ExpressionTyping
import SpimCompiler.Proofs.StatementCode

namespace SpimCompiler

open Mips ScopeTree

theorem HasType.derives {Γ : Env} {e : Tree} {τ : TypeName} (h : HasType Γ e τ) :
    Derives .expression e := by
  induction h with
  | intLiteral => exact .intLiteral
  | boolLiteral => exact .boolLiteral
  | stringLiteral => exact .stringLiteral
  | variableRef => exact .variableRef
  | parenthesized _ ih => exact .parenthesized ih
  | minus _ ih | not _ ih => exact .unary ih
  | mulDiv _ _ ihl ihr => exact .mulDiv ihl ihr
  | addSub _ _ ihl ihr | concat _ _ ihl ihr => exact .addSub ihl ihr
  | compare _ _ ihl ihr => exact .compare ihl ihr

theorem HasType.weaken {Γ : Env} {e : Tree} {τ : TypeName} (h : HasType Γ e τ) (Δ : Env) :
    HasType (Γ ++ Δ) e τ := by
  induction h with
  | intLiteral => exact .intLiteral
  | boolLiteral => exact .boolLiteral
  | stringLiteral => exact .stringLiteral
  | variableRef hx => exact .variableRef (by simp [List.lookup_append, hx])
  | parenthesized _ ih => exact .parenthesized ih
  | minus _ ih => exact .minus ih
  | not _ ih => exact .not ih
  | mulDiv _ _ ihl ihr => exact .mulDiv ihl ihr
  | addSub _ _ ihl ihr => exact .addSub ihl ihr
  | concat _ _ ihl ihr => exact .concat ihl ihr
  | compare _ _ ihl ihr => exact .compare ihl ihr

theorem Annotated.child {types : TypeTable} {Γ : Env} {i : NodeId} {n : Node Tree}
    (h : Annotated types Γ (.mk i n))
    (hk : n.kind ≠ .executableBlock ∧ n.kind ≠ .variableBlock) {c : Tree}
    (hc : c ∈ n.children) : Annotated types Γ c :=
  fun Δ e hs he ↦ h Δ e (.child hk.1 hk.2 hc hs) he

theorem Annotated.body {types : TypeTable} {Γ Γ' : Env} {j : NodeId} {vars : Option Tree}
    {body : Tree} (h : Annotated types Γ (.mk j (.executableBlock vars body)))
    (hd : Declares Γ (vars.toList.flatMap Tree.declarations) Γ') : Annotated types Γ' body := by
  rw [hd.eq_append]
  exact fun Δ e hs he ↦ h Δ e (.body hs) he

theorem Annotated.declaration {types : TypeTable} {Γ : Env} {j k : NodeId} {pre post : List Tree}
    {d body : Tree} (h : Annotated types Γ
      (.mk j (.executableBlock (some (.mk k (.variableBlock (pre ++ d :: post)))) body))) :
    Annotated types (Γ ++ pre.filterMap Tree.binding?) d :=
  fun Δ e hs he ↦ h Δ e (.vars (.declaration hs)) he

theorem Annotated.get? {types : TypeTable} {Γ : Env} {e : Tree} {τ : TypeName}
    (h : Annotated types Γ e) (hτ : HasType Γ e τ) : types.get? e.id = some τ.toTy := by
  obtain ⟨σ, hσ, hget⟩ := h Γ e .here hτ.derives
  rw [hget, hσ.unique hτ]

theorem Annotated.weaken {types : TypeTable} {Γ : Env} {e : Tree} {τ : TypeName}
    (h : Annotated types Γ e) (hτ : HasType Γ e τ) (Δ : Env) : Annotated types (Γ ++ Δ) e := by
  have hnode {i : NodeId} {n : Node Tree} {τ : TypeName}
      (hk : n.kind ≠ .executableBlock ∧ n.kind ≠ .variableBlock) (hτ : HasType Γ (.mk i n) τ)
      (h : Annotated types Γ (.mk i n))
      (hc : ∀ c ∈ n.children, Annotated types Γ c → Annotated types (Γ ++ Δ) c) :
      Annotated types (Γ ++ Δ) (.mk i n) :=
    .node hk.1 hk.2 (fun _ ↦ ⟨τ, hτ.weaken Δ, h.get? hτ⟩) fun c hm ↦ hc c hm (h.child hk hm)
  induction hτ with
  | intLiteral => exact hnode (by simp [Node.kind]) .intLiteral h (by simp [Node.children])
  | boolLiteral => exact hnode (by simp [Node.kind]) .boolLiteral h (by simp [Node.children])
  | stringLiteral => exact hnode (by simp [Node.kind]) .stringLiteral h (by simp [Node.children])
  | variableRef hx =>
    exact hnode (by simp [Node.kind]) (.variableRef hx) h (by simp [Node.children])
  | parenthesized he ih =>
    exact hnode (by simp [Node.kind]) (.parenthesized he) h (by simpa [Node.children] using ih)
  | minus he ih =>
    exact hnode (by simp [Node.kind]) (.minus he) h (by simpa [Node.children] using ih)
  | not he ih => exact hnode (by simp [Node.kind]) (.not he) h (by simpa [Node.children] using ih)
  | mulDiv hl hr ihl ihr =>
    exact hnode (by simp [Node.kind]) (.mulDiv hl hr) h (by simpa [Node.children] using ⟨ihl, ihr⟩)
  | addSub hl hr ihl ihr =>
    exact hnode (by simp [Node.kind]) (.addSub hl hr) h (by simpa [Node.children] using ⟨ihl, ihr⟩)
  | concat hl hr ihl ihr =>
    exact hnode (by simp [Node.kind]) (.concat hl hr) h (by simpa [Node.children] using ⟨ihl, ihr⟩)
  | compare hl hr ihl ihr =>
    exact hnode (by simp [Node.kind]) (.compare hl hr) h (by simpa [Node.children] using ⟨ihl, ihr⟩)

variable {r : Analysis} {part : NodeId → Fragment} {m : Image} {cells : List String}
  {Γ : Env} {σ σ' : Store}

/-- What is known of a tree in a main block whose variables have the given cells. -/
structure Translated (r : Analysis) (part : NodeId → Fragment) (cells : List String) (Γ : Env)
    (t : Tree) : Prop where
  annotated : Annotated r.types Γ t
  composed : Composed r part t
  named : t.Every fun n ↦ ∀ x ∈ n.variableName?, Cell.labelFor "main" x ∈ cells

namespace Translated

variable {i : NodeId} {n : Node Tree}

theorem child (h : Translated r part cells Γ (.mk i n)) (hv : n.kind ≠ .variableBlock) {c : Tree}
    (hc : c ∈ n.children) : Translated r part cells Γ c := by
  obtain ⟨ha, hcomp, hnamed⟩ := h
  obtain ⟨hn, -, -, hcs⟩ := hcomp
  obtain ⟨-, hnamed⟩ := hnamed
  exact ⟨ha.child ⟨hn.block, hv⟩ hc, hcs c hc, hnamed c hc⟩

theorem part_eq (h : Translated r part cells Γ (.mk i n)) :
    ∃ p : Places, n.Inner r.scopes ∧ p.storage.Tidy ∧
      (compose r mainScope part i p (n.map Tree.id)).1 = part i := by
  obtain ⟨hn, hp, hi, -⟩ := h.composed
  exact ⟨_, hn, hp, hi⟩

theorem mem_cells (h : Translated r part cells Γ (.mk i n)) {x : String}
    (hx : x ∈ n.variableName?) : Cell.labelFor "main" x ∈ cells := by
  obtain ⟨hnamed, -⟩ := h.named
  exact hnamed x hx

theorem operand (h : Translated r part cells Γ (.mk i n)) (hv : n.kind ≠ .variableBlock) {e : Tree}
    (hn : n.children = [e]) : Translated r part cells Γ e :=
  h.child hv (by simp [hn])

theorem operands (h : Translated r part cells Γ (.mk i n)) (hv : n.kind ≠ .variableBlock)
    {e e' : Tree} (hn : n.children = [e, e']) :
    Translated r part cells Γ e ∧ Translated r part cells Γ e' :=
  ⟨h.child hv (by simp [hn]), h.child hv (by simp [hn])⟩

theorem weaken {e : Tree} {τ : TypeName} (h : Translated r part cells Γ e) (hτ : HasType Γ e τ)
    (Δ : Env) : Translated r part cells (Γ ++ Δ) e :=
  ⟨h.annotated.weaken hτ Δ, h.composed, h.named⟩

end Translated

theorem Places.cell_label (hq : r.scopes.qualifiedName mainScope = "main") {p : Places}
    (hp : p.storage.Tidy) {x : String} (hx : Visible r.scopes x) :
    (p.cell r.scopes mainScope x).1 = Cell.labelFor "main" x := by
  rw [Places.cell_main hq hx]
  exact (Storage.Serves.allocate hp ⟨rfl, hx.identifier⟩).1

/-- The code of an expression computes its value. -/
theorem Evaluates.yields (hq : r.scopes.qualifiedName mainScope = "main") {e : Tree} {v : Datum}
    {τ : TypeName} (h : Evaluates σ e v) (hσ : σ.Typed Γ) (hτ : HasType Γ e τ)
    (ht : Translated r part cells Γ e) : Yields m cells σ (part e.id) v.word := by
  induction h generalizing τ with
  | @intLiteral i n =>
    obtain ⟨p, -, -, hi⟩ := ht.part_eq
    have hword : BitVec.ofInt 32 n.toInt = n.toBitVec := by simp [← Int32.toInt_toBitVec]
    rw [Tree.id_mk, ← hi, Datum.word, ← hword]
    exact yields_loadImmediate n.toInt
  | @boolLiteral i b =>
    obtain ⟨p, -, -, hi⟩ := ht.part_eq
    rw [Tree.id_mk, ← hi]
    cases b with
    | true => exact yields_loadImmediate 1
    | false => exact yields_loadImmediate 0
  | @variableRef i name v hx =>
    obtain ⟨p, hn, hp, hi⟩ := ht.part_eq
    rw [Tree.id_mk, ← hi]
    simp only [Node.map, compose, Places.cell_label hq hp (hn.visible name rfl)]
    exact yields_loadVariable hx
  | @parenthesized i e v _ ih =>
    obtain ⟨p, -, -, hi⟩ := ht.part_eq
    cases hτ with
    | parenthesized hτ =>
      rw [Tree.id_mk, ← hi]
      exact ih hτ (ht.operand (by simp [Node.kind]) rfl)
  | @minus i e a n _ hfit ih =>
    obtain ⟨p, -, -, hi⟩ := ht.part_eq
    cases hτ with
    | minus hτ =>
      rw [Tree.id_mk, ← hi]
      exact (ih hτ (ht.operand (by simp [Node.kind]) rfl)).unaryMinus hfit
  | @not i e b _ ih =>
    obtain ⟨p, -, -, hi⟩ := ht.part_eq
    cases hτ with
    | not hτ =>
      rw [Tree.id_mk, ← hi]
      exact (ih hτ (ht.operand (by simp [Node.kind]) rfl)).logicalNot
  | @mulDiv i op l r' a b n _ _ happly ihl ihr =>
    obtain ⟨p, -, -, hi⟩ := ht.part_eq
    obtain ⟨hl, hr⟩ := ht.operands (by simp [Node.kind]) rfl
    cases hτ with
    | mulDiv hτl hτr =>
      rw [Tree.id_mk, ← hi]
      exact (ihl hτl hl).binary (ihr hτr hr) (arithmetic_mulDiv happly)
  | @compare i op l r' a b _ _ ihl ihr =>
    obtain ⟨p, -, -, hi⟩ := ht.part_eq
    obtain ⟨hl, hr⟩ := ht.operands (by simp [Node.kind]) rfl
    cases hτ with
    | compare hτl hτr =>
      rw [Tree.id_mk, ← hi]
      exact (ihl hτl hl).binary (ihr hτr hr) (arithmetic_compare op a b)
  | @addSub i op l r' a b n hel her happly ihl ihr =>
    obtain ⟨p, -, -, hi⟩ := ht.part_eq
    obtain ⟨hl, hr⟩ := ht.operands (by simp [Node.kind]) rfl
    obtain rfl : TypeName.int = τ := (Evaluates.addSub hel her happly).type_eq hσ hτ
    have hget : r.types.get? i = some .int := ht.annotated.get? hτ
    cases hτ with
    | addSub hτl hτr =>
      rw [Tree.id_mk, ← hi]
      simp only [Node.map, compose, hget, Option.some.injEq, reduceCtorEq, if_false]
      exact (ihl hτl hl).binary (ihr hτr hr) (arithmetic_addSub happly)

theorem performs_printing (hl : Layout m cells) {f : Fragment} {v : Datum}
    (h : Yields m cells σ f v.word) : Performs m cells (printing f v.type.toTy) σ σ [v] := by
  cases v with
  | int n => exact h.printInt
  | bool b => exact h.printBool hl

theorem Executes.performs (hq : r.scopes.qualifiedName mainScope = "main") (hl : Layout m cells)
    {ts : List Tree} {o : List Datum} (h : Executes σ ts σ' o) (hσ : σ.Typed Γ)
    (hts : ∀ t ∈ ts, Checks Γ t ∧ Translated r part cells Γ t) :
    Performs m cells (ts.flatMap fun t ↦ part t.id) σ σ' o := by
  -- on the run and not on the statements, since a loop runs its own statement again
  induction h with
  | nil => exact performs_nil
  | cons h _ ih ih' =>
    simp only [List.mem_cons, forall_eq_or_imp] at hts
    have ht := ih hσ (by simpa using hts.1)
    have hts' := ih' (h.typed hσ (by simpa using hts.1.1)) hts.2
    simpa using ht.append hts'
  | @statementBlock σ σ' i ts o _ ih =>
    obtain ⟨hch, htr⟩ := hts _ (List.mem_singleton_self _)
    obtain ⟨p, -, -, hi⟩ := htr.part_eq
    obtain ⟨hch⟩ := hch
    have hbody := ih hσ fun t ht ↦ ⟨hch t ht, htr.child (by simp [Node.kind]) ht⟩
    simpa [← hi, compose, Node.map, List.flatMap_map] using hbody
  | @assignment σ i name e v he =>
    obtain ⟨hch, htr⟩ := hts _ (List.mem_singleton_self _)
    obtain ⟨p, hn, hp, hi⟩ := htr.part_eq
    obtain _ | ⟨hx, hτ⟩ := hch
    have hy := he.yields (m := m) hq hσ hτ (htr.operand (by simp [Node.kind]) rfl)
    have hstore := hy.storeVariable hl (htr.mem_cells (x := name) rfl)
    simpa [← hi, compose, Node.map, Places.cell_label hq hp (hn.visible name rfl)] using hstore
  | @printStatement σ i e v he =>
    obtain ⟨hch, htr⟩ := hts _ (List.mem_singleton_self _)
    obtain ⟨p, -, -, hi⟩ := htr.part_eq
    obtain _ | _ | _ | _ | hτ := hch
    have hte := htr.operand (e := e) (by simp [Node.kind]) rfl
    have hprint := performs_printing hl (he.yields (m := m) hq hσ hτ hte)
    have hget := hte.annotated.get? hτ
    rw [← he.type_eq hσ hτ] at hget
    simpa [← hi, compose, Node.map, hget] using hprint
  | @ifTrue σ σ' i c t f o he _ ih =>
    obtain ⟨hch, htr⟩ := hts _ (List.mem_singleton_self _)
    obtain ⟨p, -, -, hi⟩ := htr.part_eq
    obtain _ | _ | ⟨hτ, hct, hcf⟩ := hch
    have hy := he.yields (m := m) hq hσ hτ
      (htr.child (by simp [Node.kind]) (by simp [Node.children]))
    have ht := ih hσ (by
      simpa using ⟨hct, htr.child (c := t) (by simp [Node.kind]) (by simp [Node.children])⟩)
    rw [List.flatMap_singleton] at ht ⊢
    rw [Tree.id_mk, ← hi]
    cases f with
    | none => exact Yields.ifThen_true hy ht
    | some f => exact Yields.ifElse_true hy ht
  | @ifFalse σ σ' i c t f o he h ih =>
    obtain ⟨hch, htr⟩ := hts _ (List.mem_singleton_self _)
    obtain ⟨p, -, -, hi⟩ := htr.part_eq
    obtain _ | _ | ⟨hτ, hct, hcf⟩ := hch
    have hy := he.yields (m := m) hq hσ hτ
      (htr.child (by simp [Node.kind]) (by simp [Node.children]))
    rw [List.flatMap_singleton, Tree.id_mk, ← hi]
    cases f with
    | none =>
      cases h
      exact Yields.ifThen_false hy
    | some f =>
      have hf := ih hσ (by
        simpa using ⟨hcf f rfl, htr.child (c := f) (by simp [Node.kind]) (by simp [Node.children])⟩)
      simp only [Option.toList_some, List.flatMap_singleton] at hf
      exact Yields.ifElse_false hy hf
  | @whileTrue σ σ' σ'' i c b o o' he hb _ ih ih' =>
    obtain ⟨hch, htr⟩ := hts _ (List.mem_singleton_self _)
    obtain ⟨p, -, -, hi⟩ := htr.part_eq
    obtain ⟨htc, htb⟩ := htr.operands (by simp [Node.kind]) rfl
    obtain _ | _ | _ | ⟨hτ, hcb⟩ := hch
    have hy := he.yields (m := m) hq hσ hτ htc
    have ht := ih hσ (by simpa using ⟨hcb, htb⟩)
    have hloop := ih' (hb.typed hσ (by simpa using hcb)) hts
    rw [List.flatMap_singleton, Tree.id_mk, ← hi] at hloop
    rw [List.flatMap_singleton] at ht ⊢
    rw [Tree.id_mk, ← hi]
    exact Yields.whileLoop_true hy ht hloop
  | @whileFalse σ i c b he =>
    obtain ⟨hch, htr⟩ := hts _ (List.mem_singleton_self _)
    obtain ⟨p, -, -, hi⟩ := htr.part_eq
    obtain ⟨htc, -⟩ := htr.operands (by simp [Node.kind]) rfl
    obtain _ | _ | _ | ⟨hτ, -⟩ := hch
    rw [List.flatMap_singleton, Tree.id_mk, ← hi]
    exact Yields.whileLoop_false (he.yields (m := m) hq hσ hτ htc)

/-- What each declaration has in the environment of those before it, each behind the first one has
in an environment with the first variable. -/
theorem forall_behind {P : Env → Tree → Prop} {i : NodeId} {name : String} {τ : TypeName}
    {init : Option Tree} {ds : List Tree}
    (h : ∀ pre d post, .mk i (.variableDeclaration name τ init) :: ds = pre ++ d :: post →
      P (Γ ++ pre.filterMap Tree.binding?) d) :
    ∀ pre d post, ds = pre ++ d :: post →
      P (Γ ++ [(name, τ)] ++ pre.filterMap Tree.binding?) d := by
  intro pre d post hs
  have hd : P (Γ ++ (name, τ) :: pre.filterMap Tree.binding?) d :=
    h (.mk i (.variableDeclaration name τ init) :: pre) d post (by rw [hs, List.cons_append])
  simpa using hd

/-- The code of declarations runs their initialisers. An initialiser is typed in the variables
before it, but runs in a store that has all of them. -/
theorem Initialises.performs (hq : r.scopes.qualifiedName mainScope = "main") (hl : Layout m cells)
    {ds : List Tree} {Γ' : Env} (h : Initialises σ ds σ') (hd : Declares Γ ds Γ')
    (hσ : σ.Typed Γ')
    (hds : ∀ pre d post, ds = pre ++ d :: post →
      Translated r part cells (Γ ++ pre.filterMap Tree.binding?) d) :
    Performs m cells (ds.flatMap fun t ↦ part t.id) σ σ' [] ∧ σ'.Typed Γ' := by
  induction h generalizing Γ with
  | nil =>
    cases hd
    exact ⟨performs_nil, hσ⟩
  | @bare σ σ' i name τ ds _ ih =>
    have hdec : Translated r part cells Γ (.mk i (.variableDeclaration name τ none)) := by
      simpa using hds [] _ ds rfl
    obtain ⟨p, -, -, hi⟩ := hdec.part_eq
    cases hd with
    | cons hx _ hd =>
      obtain ⟨hrest, hσ'⟩ := ih hd hσ (forall_behind hds)
      refine ⟨?_, hσ'⟩
      simpa [← hi, compose, Node.map] using hrest
  | @value σ σ' i name τ e v ds he _ ih =>
    have hdec : Translated r part cells Γ (.mk i (.variableDeclaration name τ (some e))) := by
      simpa using hds [] _ ds rfl
    obtain ⟨p, hn, hp, hi⟩ := hdec.part_eq
    have hte := hdec.operand (e := e) (by simp [Node.kind]) rfl
    cases hd with
    | cons hx hinit hd =>
      have hτ := hinit e rfl
      have hweak : Γ' = Γ ++ ((name, τ) :: ds.filterMap Tree.binding?) := by simp [hd.eq_append]
      have hτ' : HasType Γ' e τ := hweak ▸ hτ.weaken _
      have hy : Yields m cells σ (part e.id) v.word :=
        he.yields hq hσ hτ' (hweak ▸ hte.weaken hτ _)
      have hset : (σ.set name v).Typed Γ' := by
        refine hσ.set ?_
        rw [he.type_eq hσ hτ', hweak, List.lookup_append, hx]
        simp
      obtain ⟨hrest, hσ'⟩ := ih hd hset (forall_behind hds)
      have hstore := (hy.storeVariable hl (hdec.mem_cells rfl)).append hrest
      refine ⟨?_, hσ'⟩
      simpa [← hi, compose, Node.map, Places.cell_label hq hp (hn.visible name rfl)] using hstore

end SpimCompiler
