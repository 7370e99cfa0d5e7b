import SpimCompiler.Proofs.VisitedNodes

namespace SpimCompiler

open Mips

variable {σ α β : Type}

/-- A table of a pass: the nodes that have an entry, and the records of writes and of attempts to
write again. -/
structure Logbook (σ : Type) where
  has : σ → NodeId → Prop
  written? : Record → Option NodeId
  again : Record → Bool

namespace Logbook

variable (b : Logbook σ)

def written (trace : Trace) : List NodeId := trace.toList.filterMap b.written?

structure Agrees (run : Run σ) : Prop where
  has_iff (i : NodeId) : b.has run.state i ↔ i ∈ b.written run.trace
  once : (b.written run.trace).Nodup → ∀ r ∈ run.trace, b.again r = false

/-- Between the two runs these nodes were written. -/
structure Step (is : List NodeId) (run r : Run σ) : Prop where
  written : b.written r.trace = b.written run.trace ++ is
  agrees : b.Agrees run → b.Agrees r

def Silent (r : Record) : Prop := b.written? r = none ∧ b.again r = false

variable {b} {run r r' : Run σ} {is js : List NodeId}

theorem Step.refl (run : Run σ) : b.Step [] run run := ⟨by simp, id⟩

theorem Step.trans (h : b.Step is run r) (h' : b.Step js r r') : b.Step (is ++ js) run r' :=
  ⟨by rw [h'.written, h.written, List.append_assoc], fun hr ↦ h'.agrees (h.agrees hr)⟩

theorem written_push (trace : Trace) (x : Record) :
    b.written (trace.push x) = b.written trace ++ (b.written? x).toList := by
  cases h : b.written? x <;> simp [written, h]

theorem Step.log {x : Record} (hx : b.Silent x) :
    b.Step [] run ⟨run.state, run.trace.push x⟩ := by
  have hw : b.written (run.trace.push x) = b.written run.trace := by simp [written_push, hx.1]
  refine ⟨by simp [hw], fun hr ↦ ⟨fun i ↦ by rw [hw, hr.has_iff], fun hn y hy ↦ ?_⟩⟩
  rcases Array.mem_push.1 hy with hy | rfl
  · exact hr.once (hw ▸ hn) y hy
  · exact hx.2

theorem Step.update {s : σ} (hs : ∀ i, b.has s i ↔ b.has run.state i) :
    b.Step [] run ⟨s, run.trace⟩ :=
  ⟨by simp, fun hr ↦ ⟨fun i ↦ (hs i).trans (hr.has_iff i), hr.once⟩⟩

/-- A write leaves its record, and a second one if the node has an entry already. -/
theorem Step.write {s : σ} {i : NodeId} {x : Record} {y : Option Record}
    (hs : ∀ j, b.has s j ↔ b.has run.state j ∨ j = i) (hx : b.written? x = some i)
    (hxa : b.again x = false) (hy : ∀ z ∈ y, b.has run.state i ∧ b.written? z = none) :
    b.Step [i] run ⟨s, y.elim (run.trace.push x) (run.trace.push x).push⟩ := by
  have hw : b.written (y.elim (run.trace.push x) (run.trace.push x).push) =
      b.written run.trace ++ [i] := by
    cases y with
    | none => simp [written_push, hx]
    | some z => simp [written_push, hx, (hy z rfl).2]
  refine ⟨hw, fun hr ↦ ⟨fun j ↦ ?_, fun hn ↦ ?_⟩⟩
  · rw [hw, hs, hr.has_iff, List.mem_append, List.mem_singleton]
  · rw [hw, List.nodup_append'] at hn
    cases y with
    | none =>
      intro z hz
      rcases Array.mem_push.1 hz with hz | rfl
      · exact hr.once hn.1 z hz
      · exact hxa
    | some z =>
      have hi := (hr.has_iff i).1 (hy z rfl).1
      exact absurd (List.mem_singleton_self i) (hn.2.2 hi)

end Logbook

namespace Pass

variable {b : Logbook σ} {is js : List NodeId}

theorem bind_eq_ok {p : Pass σ β} {f : β → Pass σ α} {run r : Run σ} {x : α} :
    (p >>= f) run = .ok x r ↔ ∃ y r', p run = .ok y r' ∧ f y r' = .ok x r := by
  simp only [bind, EStateM.bind]
  cases p run <;> simp

theorem map_eq_ok {p : Pass σ β} {f : β → α} {run r : Run σ} {x : α} :
    (f <$> p : Pass σ α) run = .ok x r ↔ ∃ y, p run = .ok y r ∧ f y = x := by
  simp only [Functor.map, EStateM.map]
  cases p run <;> simp [and_comm]

/-- Whenever the pass comes to its end, it has written these nodes in this order. -/
def Writes (p : Pass σ α) (b : Logbook σ) (is : List NodeId) : Prop :=
  ∀ run x r, p run = .ok x r → b.Step is run r

theorem writes_pure (x : α) : (pure x : Pass σ α).Writes b [] := by
  rintro run _ _ ⟨⟩
  exact .refl run

theorem Writes.bind {p : Pass σ β} {f : β → Pass σ α} (hp : p.Writes b is)
    (hf : ∀ y, (f y).Writes b js) : (p >>= f).Writes b (is ++ js) := by
  intro run x r h
  obtain ⟨y, r', hy, hx⟩ := bind_eq_ok.1 h
  exact (hp run y r' hy).trans (hf y r' x r hx)

theorem Writes.after {p : Pass σ β} {f : β → Pass σ α} (hp : p.Writes b [])
    (hf : ∀ y, (f y).Writes b is) : (p >>= f).Writes b is :=
  hp.bind hf

theorem Writes.map {p : Pass σ β} (hp : p.Writes b is) (f : β → α) :
    (f <$> p : Pass σ α).Writes b is := by
  rw [map_eq_pure_bind, ← List.append_nil is]
  exact hp.bind fun y ↦ writes_pure _

theorem writes_log {x : Record} (hx : b.Silent x := by exact ⟨rfl, rfl⟩) :
    (log x).Writes b [] := by
  rintro run _ _ ⟨⟩
  exact .log hx

theorem writes_state : (state : Pass σ σ).Writes b [] := by
  rintro run _ _ ⟨⟩
  exact .refl run

theorem writes_update {f : σ → σ}
    (hf : ∀ s i, b.has (f s) i ↔ b.has s i := by exact fun _ _ ↦ .rfl) :
    (update f).Writes b [] := by
  rintro run _ _ ⟨⟩
  exact .update (hf run.state)

theorem writes_throw (e : Fault) : (throw e : Pass σ α).Writes b is := by
  rintro run _ _ ⟨⟩

theorem writes_ofOption (e : Fault) (x : Option α) : (ofOption e x : Pass σ α).Writes b [] := by
  cases x with
  | none => exact writes_throw e
  | some x => exact writes_pure x

theorem writes_ofExcept (x : Except Fault α) : (ofExcept x : Pass σ α).Writes b [] := by
  cases x with
  | error e => exact writes_throw e
  | ok x => exact writes_pure x

theorem writes_ite {c : Prop} [Decidable c] {p q : Pass σ α} (hp : p.Writes b is)
    (hq : q.Writes b is) : (if c then p else q).Writes b is := by
  split
  · exact hp
  · exact hq

theorem writes_forM {f : β → Pass σ Unit} {g : β → List NodeId} {ys : List β}
    (h : ∀ y ∈ ys, (f y).Writes b (g y)) : (ys.forM f).Writes b (ys.flatMap g) := by
  induction ys with
  | nil => exact writes_pure ()
  | cons y ys ih =>
    exact (h y List.mem_cons_self).bind fun _ ↦ ih fun z hz ↦ h z (List.mem_cons_of_mem y hz)

theorem writes_mapM {f : β → Pass σ α} (h : ∀ y, (f y).Writes b []) (ys : List β) :
    (ys.mapM f).Writes b [] := by
  induction ys with
  | nil => exact writes_pure []
  | cons y ys ih =>
    rw [List.mapM_cons]
    exact (h y).after fun _ ↦ ih.after fun _ ↦ writes_pure _

end Pass

/-- A visitor that enters all nodes but function definitions, and writes the nodes of certain kinds
when it leaves them. -/
structure Visitor.Writes (v : Visitor σ) (b : Logbook σ) (w : Kind → Bool) : Prop where
  enter (i : NodeId) (n : Node NodeId) : (v.enter i n).Writes b []
  entered {i : NodeId} {n : Node NodeId} {run r : Run σ} {x : Bool} :
    v.enter i n run = .ok x r → x = decide (n.kind ≠ .functionDefinition)
  exit (i : NodeId) (n : Node NodeId) : (v.exit i n).Writes b (if w n.kind then [i] else [])
  definition : w .functionDefinition = false

def Tree.left (t : Tree) (w : Kind → Bool) : List NodeId :=
  (t.postorder.filter fun u ↦ w u.node.kind).map Tree.id

theorem Tree.left_mk (i : NodeId) (n : Node Tree) (w : Kind → Bool) :
    (mk i n).left w = n.entered.flatMap (left · w) ++ if w n.kind then [i] else [] := by
  unfold left
  rw [postorder_mk, List.filter_append, List.map_append, List.filter_flatMap, List.map_flatMap]
  cases h : w n.kind <;> simp [h]

theorem Visitor.Writes.walk {v : Visitor σ} {b : Logbook σ} {w : Kind → Bool} (h : v.Writes b w)
    (t : Tree) : (t.walk v).Writes b (t.left w) := by
  induction t with
  | mk i n ih =>
    intro run x r hr
    rw [Tree.walk_mk] at hr
    obtain ⟨y, r', hy, hr⟩ := Pass.bind_eq_ok.1 hr
    have henter := h.enter i _ run y r' hy
    rw [h.entered hy, Node.kind_map] at hr
    rw [Tree.left_mk]
    by_cases hk : n.kind = .functionDefinition
    · simp only [hk, ne_eq, not_true_eq_false, decide_false, Bool.false_eq_true, if_false] at hr
      cases hr
      simpa [Node.entered, hk, h.definition] using henter
    · simp only [hk, ne_eq, not_false_eq_true, decide_true, if_true] at hr
      rw [Node.entered_eq hk]
      have hexit := h.exit i (n.map Tree.id)
      rw [Node.kind_map] at hexit
      exact henter.trans ((Pass.writes_forM ih).bind (fun _ ↦ hexit) r' x r hr)

def Kind.isSupported : Kind → Bool
  | functionDefinition | functionCall | returnStatement => false
  | _ => true

theorem Node.isSupported_kind {ι : Type} (n : Node ι) :
    n.kind.isSupported = n.rejection?.isNone := by
  cases n <;> rfl

theorem Tree.Plain.left_isSupported {t : Tree} (h : t.Plain) : t.left Kind.isSupported = t.ids := by
  have hs : ∀ u ∈ t.postorder, u.node.kind.isSupported := by
    intro u hu
    obtain ⟨hn, -⟩ := h.of_mem_postorder hu
    simp [Node.isSupported_kind, hn]
  rw [left, List.filter_eq_self.2 hs, h.map_id_postorder]

namespace Record

def typed? : Record → Option NodeId
  | typed _ id _ => some id
  | _ => none

def isRetyped : Record → Bool
  | retyped .. => true
  | _ => false

def coded? : Record → Option NodeId
  | coded id _ => some id
  | _ => none

def isRecoded : Record → Bool
  | recoded .. => true
  | _ => false

end Record

theorem NodeTable.isSome_get?_write (t : NodeTable α) (i j : NodeId) (x : α) :
    ((t.write i x).get? j).isSome ↔ (t.get? j).isSome ∨ j = i := by
  rw [get?_write]
  split
  · simp_all
  · by_cases h : j = i <;> simp_all [Option.isSome_iff_ne_none]

def Binding.logbook : Logbook Binding := ⟨fun _ _ ↦ False, Record.typed?, Record.isRetyped⟩

theorem Binding.visitor_writes : visitor.Writes logbook fun _ ↦ false where
  enter i n := by
    have hcomplain (c : Complaint) : (complain i c).Writes logbook [] :=
      Pass.writes_update
    cases n with
    | executableBlock vars body =>
      exact (Pass.writes_update).after fun _ ↦ Pass.writes_state.after fun _ ↦
        (Pass.writes_log).after fun _ ↦ Pass.writes_pure true
    | functionDefinition name parameters returnType body =>
      exact (Pass.writes_log).after fun _ ↦ (hcomplain _).after fun _ ↦
        Pass.writes_pure false
    | functionCall name arguments =>
      exact (Pass.writes_log).after fun _ ↦ (hcomplain _).after fun _ ↦
        Pass.writes_pure true
    | returnStatement value => exact (hcomplain _).after fun _ ↦ Pass.writes_pure true
    | _ => exact Pass.writes_pure true
  entered {i n run r x} h := by
    cases n <;> cases h <;> rfl
  exit i n := by
    cases n with
    | executableBlock vars body =>
      exact Pass.writes_state.after fun _ ↦ (Pass.writes_log).after fun _ ↦
        Pass.writes_update
    | _ => exact Pass.writes_pure ()
  definition := rfl

namespace Typing

def logbook : Logbook Typing where
  has s i := (s.types.get? i).isSome
  written? := Record.typed?
  again := Record.isRetyped

theorem writes_complain (i : NodeId) (c : Complaint) : (complain i c).Writes logbook [] :=
  Pass.writes_update

theorem writes_typeOf (i : NodeId) : (typeOf i).Writes logbook [] :=
  Pass.writes_state.after fun _ ↦ Pass.writes_pure _

theorem writes_assign (kind : Kind) (i : NodeId) (type : Ty) :
    (assign kind i type).Writes logbook [i] := by
  intro run x r h
  have hrun : assign kind i type run = .ok ()
      ⟨{ run.state with types := NodeTable.write run.state.types i type },
        ((run.state.types.get? i).map fun e ↦ Record.retyped i e type).elim
          (run.trace.push (.typed kind i type)) (run.trace.push (.typed kind i type)).push⟩ := by
    cases hi : run.state.types.get? i with
    | none =>
      simp [assign, TypeTable.write, bind, EStateM.bind, hi]
      rfl
    | some type' => simp [assign, TypeTable.write, bind, EStateM.bind, hi]
  rw [hrun] at h
  cases h
  refine .write (fun j ↦ NodeTable.isSome_get?_write _ i j type) rfl rfl fun z hz ↦ ?_
  obtain ⟨e, he, rfl⟩ := Option.map_eq_some_iff.1 hz
  exact ⟨by simp [logbook, he], rfl⟩

theorem writes_assignOrComplain (kind : Kind) (i : NodeId) (type : Ty) (c : Complaint) :
    (assignOrComplain kind i type c).Writes logbook [i] :=
  (writes_assign kind i type).bind fun _ ↦
    Pass.writes_ite (writes_complain i c) (Pass.writes_pure ())

theorem writes_checkDeclaration (i : NodeId) (name : String) (declared : Ty)
    (init : Option NodeId) : (checkDeclaration i name declared init).Writes logbook [] := by
  refine Pass.writes_state.after fun s ↦ ?_
  split
  · exact writes_complain i _
  · refine (Pass.writes_update).after fun _ ↦
      (Pass.writes_log).after fun _ ↦ ?_
    cases init with
    | none => exact Pass.writes_pure ()
    | some value =>
      exact (writes_typeOf value).after fun _ ↦
        Pass.writes_ite (writes_complain i _) (Pass.writes_pure ())

theorem writes_checkAssignment (i : NodeId) (name : String) (value : NodeId) :
    (checkAssignment i name value).Writes logbook [] := by
  refine (Pass.writes_state.after fun _ ↦ Pass.writes_pure _).after fun x ↦ ?_
  split
  · exact (writes_typeOf value).after fun _ ↦
      Pass.writes_ite (writes_complain i _) (Pass.writes_pure ())
  · exact writes_complain i _

theorem writes_checkCondition (a : Arena) (i : NodeId) (statement : String) (condition : NodeId) :
    (checkCondition a i statement condition).Writes logbook [] :=
  (writes_typeOf condition).after fun _ ↦ Pass.writes_ite
    ((Pass.writes_ofExcept _).after fun _ ↦ writes_complain i _) (Pass.writes_pure ())

theorem writes_checkPrint (a : Arena) (i value : NodeId) :
    (checkPrint a i value).Writes logbook [] :=
  (writes_typeOf value).after fun _ ↦ Pass.writes_ite
    ((Pass.writes_ofExcept _).after fun _ ↦ writes_complain i _) (Pass.writes_pure ())

theorem writes_checkVariable (i : NodeId) (name : String) :
    (checkVariable i name).Writes logbook [i] := by
  refine (Pass.writes_state.after fun _ ↦ Pass.writes_pure _).after fun x ↦ ?_
  split
  · exact writes_assign .variableRef i _
  · exact (writes_assign .variableRef i .error).bind fun _ ↦ writes_complain i _

theorem writes_leaveScope : leaveScope.Writes logbook [] :=
  Pass.writes_update

/-- The second pass writes a type for every expression that it leaves. -/
theorem visitor_writes (a : Arena) : (visitor a).Writes logbook Kind.isExpression where
  enter i n := by
    cases n with
    | executableBlock vars body =>
      exact (Pass.writes_state.after fun _ ↦ (Pass.writes_ofOption _ _).after fun _ ↦
        Pass.writes_update).after fun _ ↦ Pass.writes_pure true
    | functionDefinition => exact Pass.writes_pure false
    | _ => exact Pass.writes_pure true
  entered {i n run r x} h := by
    cases n with
    | executableBlock vars body =>
      obtain ⟨_, _, -, h⟩ := Pass.bind_eq_ok.1 h
      cases h
      rfl
    | _ =>
      cases h
      rfl
  exit i n := by
    cases n with
    | executableBlock => exact writes_leaveScope
    | variableDeclaration name type init => exact writes_checkDeclaration i name type.toTy init
    | assignment name value => exact writes_checkAssignment i name value
    | ifStatement condition thenBlock elseBlock => exact writes_checkCondition a i "If" condition
    | whileStatement condition body => exact writes_checkCondition a i "While" condition
    | printStatement value => exact writes_checkPrint a i value
    | functionCall | intLiteral | boolLiteral | stringLiteral => exact writes_assign _ i _
    | parenthesized expression => exact (writes_typeOf expression).after fun _ ↦ writes_assign _ i _
    | unary op operand =>
      exact (writes_typeOf operand).after fun _ ↦ writes_assignOrComplain _ i _ _
    | mulDiv op lhs rhs | addSub op lhs rhs | compare op lhs rhs =>
      exact (writes_typeOf lhs).after fun _ ↦ (writes_typeOf rhs).after fun _ ↦
        writes_assignOrComplain _ i _ _
    | variableRef name => exact writes_checkVariable i name
    | program | variableBlock | statementBlock | functionDefinition | returnStatement =>
      exact Pass.writes_pure ()
  definition := rfl

end Typing

namespace Generation

def logbook : Logbook Generation where
  has g i := (g.code.get? i).isSome
  written? := Record.coded?
  again := Record.isRecoded

theorem writes_emit (i : NodeId) (code : Fragment) : (emit i code).Writes logbook [i] := by
  intro run x r h
  have hrun : emit i code run = .ok () ⟨run.state.keep i code,
      (if run.state.code.contains i then some (Record.recoded i) else none).elim
        (run.trace.push (.coded i code)) (run.trace.push (.coded i code)).push⟩ := by
    cases hi : run.state.code.contains i <;>
      simp [emit, CodeTable.write, bind, EStateM.bind, hi] <;> rfl
  rw [hrun] at h
  cases h
  refine .write (fun j ↦ NodeTable.isSome_get?_write _ i j code) rfl rfl fun z hz ↦ ?_
  rw [Option.mem_def, Option.ite_none_right_eq_some] at hz
  obtain ⟨hi, hz⟩ := hz
  cases hz
  exact ⟨by rwa [NodeTable.contains_eq_isSome_get?] at hi, rfl⟩

theorem writes_fragment (i : NodeId) : (fragment i).Writes logbook [] :=
  Pass.writes_state.after fun _ ↦ Pass.writes_ofOption _ _

theorem writes_fragments (is : List NodeId) : (fragments is).Writes logbook [] :=
  (Pass.writes_mapM writes_fragment is).after fun _ ↦ Pass.writes_pure _

theorem writes_mint (base : String) : (mint base).Writes logbook [] := by
  refine Pass.writes_state.after fun _ ↦ ?_
  split
  exact (Pass.writes_update).after fun _ ↦ Pass.writes_pure _

theorem writes_cellFor (scopes : ScopeTree) (name : String) :
    (cellFor scopes name).Writes logbook [] := by
  refine Pass.writes_state.after fun _ ↦ (Pass.writes_ofOption _ _).after fun _ ↦ ?_
  split
  exact (Pass.writes_update).after fun _ ↦ Pass.writes_pure _

theorem writes_mintConcat : mintConcat.Writes logbook [] :=
  (writes_mint _).after fun _ ↦ (writes_mint _).after fun _ ↦ (writes_mint _).after fun _ ↦
    (writes_mint _).after fun _ ↦ (writes_mint _).after fun _ ↦ Pass.writes_pure _

theorem writes_binary (mnemonic : String) (lhs rhs : NodeId) :
    (binary mnemonic lhs rhs).Writes logbook [] :=
  (writes_fragment lhs).after fun _ ↦ (writes_fragment rhs).after fun _ ↦ Pass.writes_pure _

theorem writes_printed (types : TypeTable) (value : NodeId) :
    (printed types value).Writes logbook [] := by
  refine (writes_fragment value).after fun _ ↦ (Pass.writes_ofOption _ _).after fun type ↦ ?_
  cases type with
  | int | bool | string => exact Pass.writes_pure _
  | void | error => exact Pass.writes_throw _

theorem writes_ifCode (condition thenBlock : NodeId) (elseBlock : Option NodeId) :
    (ifCode condition thenBlock elseBlock).Writes logbook [] := by
  cases elseBlock with
  | none =>
    exact (writes_mint _).after fun _ ↦ (writes_fragment _).after fun _ ↦
      (writes_fragment _).after fun _ ↦ Pass.writes_pure _
  | some elseBlock =>
    exact (writes_mint _).after fun _ ↦ (writes_mint _).after fun _ ↦
      (writes_fragment _).after fun _ ↦ (writes_fragment _).after fun _ ↦
      (writes_fragment _).after fun _ ↦ Pass.writes_pure _

theorem writes_addSubCode (types : TypeTable) (i : NodeId) (op : AddSubOp) (lhs rhs : NodeId) :
    (addSubCode types i op lhs rhs).Writes logbook [] := by
  refine (Pass.writes_ofOption _ _).after fun type ↦ Pass.writes_ite ?_ ?_
  · exact writes_mintConcat.after fun _ ↦ (writes_fragment lhs).after fun _ ↦
      (writes_fragment rhs).after fun _ ↦ Pass.writes_pure _
  · exact writes_binary op.mnemonic lhs rhs

theorem writes_declarationCode (scopes : ScopeTree) (name : String) (init : Option NodeId) :
    (declarationCode scopes name init).Writes logbook [] := by
  refine (writes_cellFor scopes name).after fun _ ↦ ?_
  cases init with
  | none => exact Pass.writes_pure _
  | some value => exact (writes_fragment value).after fun _ ↦ Pass.writes_pure _

theorem writes_codeOf (r : Analysis) (i : NodeId) (n : Node NodeId) :
    (codeOf r i n).Writes logbook [] := by
  cases n with
  | program functions main =>
    exact (Pass.writes_state.after fun _ ↦ (writes_fragment main).after fun _ ↦
      Pass.writes_pure _).map some
  | executableBlock vars body => exact (writes_fragments (vars.toList ++ [body])).map some
  | variableBlock declarations => exact (writes_fragments declarations).map some
  | variableDeclaration name type init => exact (writes_declarationCode r.scopes name init).map some
  | statementBlock statements => exact (writes_fragments statements).map some
  | assignment name value =>
    exact (writes_cellFor r.scopes name).after fun _ ↦ (writes_fragment value).after fun _ ↦
      Pass.writes_pure _
  | ifStatement condition thenBlock elseBlock =>
    exact (writes_ifCode condition thenBlock elseBlock).map some
  | whileStatement condition body =>
    exact ((writes_mint _).after fun _ ↦ (writes_mint _).after fun _ ↦
      (writes_fragment condition).after fun _ ↦ (writes_fragment body).after fun _ ↦
      Pass.writes_pure _).map some
  | printStatement value => exact (writes_printed r.types value).map some
  | stringLiteral value =>
    exact ((writes_mint _).after fun _ ↦ (Pass.writes_update).after
      fun _ ↦ Pass.writes_pure _).map some
  | parenthesized expression => exact (writes_fragment expression).map some
  | unary op operand =>
    cases op <;> exact (writes_fragment operand).after fun _ ↦ Pass.writes_pure _
  | mulDiv op lhs rhs | compare op lhs rhs => exact (writes_binary op.mnemonic lhs rhs).map some
  | addSub op lhs rhs => exact (writes_addSubCode r.types i op lhs rhs).map some
  | variableRef name =>
    exact (writes_cellFor r.scopes name).after fun _ ↦ Pass.writes_pure _
  | intLiteral | boolLiteral | functionDefinition | functionCall | returnStatement =>
    exact Pass.writes_pure _

theorem isSome_codeOf {r : Analysis} {i : NodeId} {n : Node NodeId} {run run' : Run Generation}
    {code : Option Fragment} (h : codeOf r i n run = .ok code run') :
    code.isSome = n.kind.isSupported := by
  cases n with
  | assignment =>
    obtain ⟨_, _, -, h⟩ := Pass.bind_eq_ok.1 h
    obtain ⟨_, _, -, h⟩ := Pass.bind_eq_ok.1 h
    cases h
    rfl
  | unary op =>
    cases op
    all_goals
      obtain ⟨_, _, -, h⟩ := Pass.bind_eq_ok.1 h
      cases h
      rfl
  | variableRef =>
    obtain ⟨_, _, -, h⟩ := Pass.bind_eq_ok.1 h
    cases h
    rfl
  | intLiteral | boolLiteral | functionDefinition | functionCall | returnStatement =>
    cases h
    rfl
  | _ =>
    obtain ⟨_, -, rfl⟩ := Pass.map_eq_ok.1 h
    rfl

/-- The generator writes code for every node that it leaves, calls and returns apart. -/
theorem visitor_writes (r : Analysis) : (visitor r).Writes logbook Kind.isSupported where
  enter i n := by
    cases n with
    | executableBlock vars body =>
      exact (Pass.writes_state.after fun _ ↦ (Pass.writes_ofOption _ _).after fun _ ↦
        Pass.writes_update).after fun _ ↦ Pass.writes_pure true
    | functionDefinition => exact Pass.writes_pure false
    | _ => exact Pass.writes_pure true
  entered {i n run r x} h := by
    cases n with
    | executableBlock vars body =>
      obtain ⟨_, _, -, h⟩ := Pass.bind_eq_ok.1 h
      cases h
      rfl
    | _ =>
      cases h
      rfl
  exit i n := by
    intro run x run' h
    obtain ⟨code, run₁, hcode, h⟩ := Pass.bind_eq_ok.1 h
    obtain ⟨_, run₂, hemit, h⟩ := Pass.bind_eq_ok.1 h
    have hsome := isSome_codeOf hcode
    have h₁ := writes_codeOf r i n run code run₁ hcode
    have h₂ : logbook.Step (if n.kind.isSupported then [i] else []) run₁ run₂ := by
      cases code with
      | none =>
        rw [← hsome]
        cases hemit
        exact .refl _
      | some code =>
        rw [← hsome]
        exact writes_emit i code run₁ () run₂ hemit
    have h₃ : logbook.Step [] run₂ run' := by
      split at h
      · exact (Pass.writes_update) run₂ x run' h
      · cases h
        exact .refl _
    simpa using (h₁.trans h₂).trans h₃
  definition := rfl

end Generation

/-- The trace has a record of one write to each of these nodes and of no other, and none of an attempt
to write again. -/
structure Trace.WritesOnce (trace : Trace) (written? : Record → Option NodeId)
    (again : Record → Bool) (nodes : NodeId → Prop) : Prop where
  nodup : (trace.toList.filterMap written?).Nodup
  mem_iff (i : NodeId) : i ∈ trace.toList.filterMap written? ↔ nodes i
  fresh : ∀ r ∈ trace, again r = false

theorem Logbook.Agrees.writesOnce {b : Logbook σ} {run : Run σ} (h : b.Agrees run)
    (hn : (b.written run.trace).Nodup) :
    run.trace.WritesOnce b.written? b.again (b.has run.state) :=
  ⟨hn, fun i ↦ (h.has_iff i).symm, h.once hn⟩

theorem Trace.WritesOnce.push {trace : Trace} {written? : Record → Option NodeId}
    {again : Record → Bool} {nodes : NodeId → Prop} (h : trace.WritesOnce written? again nodes)
    {x : Record} (hx : written? x = none ∧ again x = false) :
    Trace.WritesOnce (trace.push x) written? again nodes := by
  obtain ⟨hnodup, hmem, hfresh⟩ := h
  refine ⟨by simpa [hx.1] using hnodup, by simpa [hx.1] using hmem, fun r hr ↦ ?_⟩
  rcases Array.mem_push.1 hr with hr | rfl
  · exact hfresh r hr
  · exact hx.2

theorem Pass.inside_eq_ok {τ : Type} {s s' : τ} {p : Pass τ β} {run r : Run σ} {y : β} :
    inside s p run = .ok (y, s') r ↔
      ∃ trace, p ⟨s, run.trace⟩ = .ok y ⟨s', trace⟩ ∧ r = ⟨run.state, trace⟩ := by
  unfold inside
  cases p ⟨s, run.trace⟩ with
  | ok z r' =>
    obtain ⟨s'', trace⟩ := r'
    simp [eq_comm, and_assoc]
  | error e r' => simp

namespace Arena

variable {a : Arena} {root : NodeId} {t : Tree}

theorem Holds.mem_left_iff (ht : a.Holds t) {w : Kind → Bool} {i : NodeId} :
    i ∈ t.left w ↔ a.Meets t.id i ∧ ∃ n, a.get? i = some n ∧ w n.kind := by
  rw [ht.meets_iff, Tree.left, List.mem_map]
  constructor
  · rintro ⟨u, hu, rfl⟩
    obtain ⟨hu, hw⟩ := List.mem_filter.1 hu
    exact ⟨⟨u, hu, rfl⟩, _, (ht.of_mem_postorder hu).get?, by simpa using hw⟩
  · rintro ⟨⟨u, hu, rfl⟩, n, hn, hw⟩
    rw [(ht.of_mem_postorder hu).get?] at hn
    obtain rfl := Option.some.inj hn
    exact ⟨u, List.mem_filter.2 ⟨hu, by simpa using hw⟩, rfl⟩

theorem Holds.nodup_left (ha : a.IsForest) (ht : a.Holds t) (w : Kind → Bool) :
    (t.left w).Nodup :=
  ((List.filter_sublist).map Tree.id).nodup (ht.nodup_postorder ha)

theorem analyze_eq_ok {r : Analysis} {run : Run Unit}
    (h : a.analyze root ⟨(), #[]⟩ = .ok r run) :
    ∃ b s trace trace', a.walk Binding.visitor root ⟨{}, #[]⟩ = .ok () ⟨b, trace⟩ ∧
      a.walk (Typing.visitor a) root
        ⟨{ scopes := b.scopes, report := b.report }, trace.push (.bound b.report.size)⟩ =
        .ok () ⟨s, trace'⟩ ∧
      r = s.analysis ∧ run.trace = trace'.push (.inferred s.types.size s.report.size) := by
  obtain ⟨⟨⟨⟩, b⟩, run₁, h₁, h⟩ := Pass.bind_eq_ok.1 h
  obtain ⟨trace, hb, rfl⟩ := Pass.inside_eq_ok.1 h₁
  obtain ⟨⟨⟩, run₂, ⟨⟩, h⟩ := Pass.bind_eq_ok.1 h
  obtain ⟨⟨⟨⟩, s⟩, run₃, h₃, h⟩ := Pass.bind_eq_ok.1 h
  obtain ⟨trace', hs, rfl⟩ := Pass.inside_eq_ok.1 h₃
  cases h
  exact ⟨b, s, trace, trace', hb, hs, rfl, rfl⟩

theorem Holds.types_written (ha : a.IsForest) (ht : a.Holds t) {r : Analysis} {run : Run Unit}
    (hr : a.analyze t.id ⟨(), #[]⟩ = .ok r run) :
    (∀ i, r.types.contains i ↔ i ∈ t.left Kind.isExpression) ∧
      run.trace.WritesOnce Record.typed? Record.isRetyped (r.types.contains ·) := by
  obtain ⟨b, s, trace, trace', hb, hs, rfl, hrun⟩ := analyze_eq_ok hr
  rw [ht.walk_eq ha] at hb hs
  have hfirst : Binding.logbook.Agrees ⟨b, trace⟩ :=
    (Binding.visitor_writes.walk t _ _ _ hb).agrees
      ⟨by simp [Binding.logbook, Logbook.written], by simp⟩
  have hbound : Typing.logbook.Agrees ⟨{ scopes := b.scopes, report := b.report }, trace⟩ :=
    ⟨fun i ↦ ⟨by simp [Typing.logbook], fun hi ↦ ((hfirst.has_iff i).2 hi).elim⟩, hfirst.once⟩
  have hstart := (Logbook.Step.log (x := .bound b.report.size) ⟨rfl, rfl⟩).agrees hbound
  have hstep := (Typing.visitor_writes a).walk t _ _ _ hs
  have hend := hstep.agrees hstart
  have hwritten : Typing.logbook.written trace' = t.left Kind.isExpression := by
    have hnil : Typing.logbook.written (trace.push (.bound b.report.size)) = [] :=
      List.eq_nil_iff_forall_not_mem.2 fun i hi ↦ by
        simpa [Typing.logbook] using (hstart.has_iff i).2 hi
    simpa [hnil] using hstep.written
  have hhas (i : NodeId) : s.analysis.types.contains i ↔ Typing.logbook.has s i := by
    rw [NodeTable.contains_eq_isSome_get?]
    rfl
  simp only [hhas]
  refine ⟨fun i ↦ by rw [hend.has_iff, hwritten], hrun ▸ .push (hend.writesOnce ?_) ⟨rfl, rfl⟩⟩
  exact hwritten ▸ ht.nodup_left ha _

theorem Holds.code_written (ha : a.IsForest) (ht : a.Holds t) (hp : t.Plain) {r : Analysis}
    {assembly : Assembly} {run : Run Unit} (hr : r.report = #[])
    (hg : a.generate t.id r ⟨(), #[]⟩ = .ok (.ok assembly) run) :
    (∀ i, assembly.code.contains i ↔ i ∈ t.ids) ∧
      run.trace.WritesOnce Record.coded? Record.isRecoded (assembly.code.contains ·) := by
  have hok : r.isOk := by simp [Analysis.isOk, hr]
  rw [generate, if_pos hok] at hg
  obtain ⟨⟨⟨⟩, g⟩, run₁, h₁, hg⟩ := Pass.bind_eq_ok.1 hg
  obtain ⟨trace, hw, rfl⟩ := Pass.inside_eq_ok.1 h₁
  cases hg
  rw [ht.walk_eq ha] at hw
  have hstep := (Generation.visitor_writes r).walk t _ _ _ hw
  have hend := hstep.agrees ⟨by simp [Generation.logbook, Logbook.written], by simp⟩
  have hwritten : Generation.logbook.written trace = t.ids := by
    rw [hstep.written, ← hp.left_isSupported]
    simp [Logbook.written]
  have hhas (i : NodeId) : g.code.contains i ↔ Generation.logbook.has g i := by
    rw [NodeTable.contains_eq_isSome_get?]
    rfl
  simp only [hhas]
  refine ⟨fun i ↦ by rw [hend.has_iff, hwritten], hend.writesOnce ?_⟩
  exact hwritten ▸ ht.nodup_ids ha

/-- In a valid arena the types of the expressions that are reached without going into a function
definition are written, each once, and no others. If there are no diagnostics, then so is the code of
all nodes that are reached. -/
theorem tables_written_once (hv : a.validate = .ok root) :
    ∃ r, (a.analyze root).outcome.result = .ok r ∧
      (∀ i, r.types.contains i ↔ a.Meets root i ∧ ∃ n, a.get? i = some n ∧ n.isExpression) ∧
      (a.analyze root).outcome.trace.WritesOnce Record.typed? Record.isRetyped
        (r.types.contains ·) ∧
      (r.report = #[] → ∃ assembly, (a.generate root r).outcome.result = .ok (.ok assembly) ∧
        (∀ i, assembly.code.contains i ↔ a.Reaches root i) ∧
        (a.generate root r).outcome.trace.WritesOnce Record.coded? Record.isRecoded
          (assembly.code.contains ·)) := by
  obtain ⟨ha, functions, main, ht⟩ := exists_program hv
  obtain ⟨r, run, hr, -, hacc⟩ := Pass.ends_iff.1 (ends_analyze ha ht ⟨(), #[]⟩)
  obtain ⟨htypes, honce⟩ := ht.types_written ha hr
  refine ⟨r, result_analyze hr, fun i ↦ (htypes i).trans ht.mem_left_iff, ?_, fun he ↦ ?_⟩
  · simpa [Pass.outcome, hr] using honce
  · have hacc := hacc he
    obtain ⟨res, run', hg, g, rfl, -⟩ := Pass.ends_iff.1 (ends_generate ha ht he hacc ⟨(), #[]⟩)
    obtain ⟨hcode, honce⟩ := ht.code_written ha hacc.plain he hg
    simp only [Tree.id_mk] at hg
    refine ⟨_, by simp [Pass.outcome, hg], fun i ↦ (hcode i).trans ht.reaches_iff.symm, ?_⟩
    simpa [Pass.outcome, hg] using honce

end Arena

/-- The program `print (-2)`, and a literal that belongs to nothing. -/
def orphaned : Arena where
  nodes := #[.intLiteral 7, .intLiteral 2, .unary .minus ⟨1⟩, .parenthesized ⟨2⟩,
    .printStatement ⟨3⟩, .statementBlock [⟨4⟩], .executableBlock none ⟨5⟩, .program [] ⟨6⟩]
  root := some ⟨7⟩

namespace orphaned

theorem validate_eq : orphaned.validate = .ok ⟨7⟩ :=
  Arena.validate_of_sound (by decide) (by decide) (by decide)

theorem report_eq : (orphaned.analyze ⟨7⟩).outcome.result.map Analysis.report = .ok #[] := by
  decide +kernel

theorem tables_written_once_at :
    orphaned.validate = .ok ⟨7⟩ ∧
    ∃ r assembly, (orphaned.analyze ⟨7⟩).outcome.result = .ok r ∧ r.report = #[] ∧
      (orphaned.generate ⟨7⟩ r).outcome.result = .ok (.ok assembly) ∧
      (orphaned.analyze ⟨7⟩).outcome.trace.WritesOnce Record.typed? Record.isRetyped
        (r.types.contains ·) ∧
      (orphaned.generate ⟨7⟩ r).outcome.trace.WritesOnce Record.coded? Record.isRecoded
        (assembly.code.contains ·) := by
  obtain ⟨r, hr, -, htypes, hcode⟩ := Arena.tables_written_once validate_eq
  have he : r.report = #[] := by simpa [hr, Except.map] using report_eq
  obtain ⟨assembly, hg, -, honce⟩ := hcode he
  exact ⟨validate_eq, r, assembly, hr, he, hg, htypes, honce⟩

end orphaned

end SpimCompiler
