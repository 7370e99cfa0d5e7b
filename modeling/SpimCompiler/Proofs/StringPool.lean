import SpimCompiler.Proofs.HookOrder
import SpimCompiler.Proofs.JumpTargets
import SpimCompiler.Proofs.NameResolution

namespace SpimCompiler

open Mips ScopeTree

def Visit.literal? (v : Visit) : Option NodeId :=
  if v.hook = .enter .stringLiteral then some v.node else none

namespace Tree

def literals (t : Tree) : List NodeId := (t.visits fun _ _ ↦ false).filterMap Visit.literal?

theorem literals_mk (i : NodeId) (n : Node Tree) : (mk i n).literals =
    n.children.flatMap literals ++ if n.kind = .stringLiteral then [i] else [] := by
  have hexit : (n.exitVisits (fun _ _ ↦ false) i).filterMap Visit.literal? = [] := by
    unfold Node.exitVisits
    split <;> simp [Visit.literal?]
  have hentry : (n.entryVisits (fun _ _ ↦ false) i).filterMap Visit.literal? =
      if n.kind = .stringLiteral then [i] else [] := by
    unfold Node.entryVisits
    by_cases hk : n.kind = .stringLiteral <;> split <;> simp_all [Visit.literal?, Node.isExpression]
  have hchildren : (n.children.flatMap (visits fun _ _ ↦ false)).filterMap Visit.literal? =
      n.children.flatMap literals := List.filterMap_flatMap ..
  have hskipped : n.skippedAtEntry (fun _ _ ↦ false) i = false := by simp [Node.skippedAtEntry]
  rw [literals, visits_mk, hskipped, if_neg Bool.false_ne_true, List.filterMap_append,
    List.filterMap_append, hentry, hchildren, hexit, List.append_nil]
  split
  · have hleaf : n.children = [] := by cases n <;> simp_all [Node.kind, Node.children]
    simp [hleaf]
  · simp

end Tree

namespace Arena

variable {a : Arena} {t : Tree}

theorem Holds.literals_eq (ht : a.Holds t) :
    t.literals = t.ids.filter fun i ↦ (a.get? i).any fun n ↦ n.kind = .stringLiteral := by
  induction t with
  | mk i n ih =>
    have hself : (a.get? i).any (fun n ↦ n.kind = .stringLiteral) =
        decide (n.kind = .stringLiteral) := by
      rw [show a.get? i = some (n.map Tree.id) from ht.get?, Option.any_some, Node.kind_map]
    rw [Tree.literals_mk, Tree.ids_mk, List.filter_append, List.filter_flatMap,
      List.flatMap_congr fun c hc ↦ ih c hc (ht.child hc), List.filter_singleton, hself]
    simp

theorem Holds.nodup_literals (ha : a.IsForest) (ht : a.Holds t) : t.literals.Nodup := by
  rw [ht.literals_eq]
  exact (ht.nodup_ids ha).filter _

theorem Holds.mem_literals_iff (ht : a.Holds t) {i : NodeId} :
    i ∈ t.literals ↔ a.Reaches t.id i ∧ ∃ value, a.get? i = some (.stringLiteral value) := by
  have hkind : (a.get? i).any (fun n ↦ n.kind = .stringLiteral) ↔
      ∃ value, a.get? i = some (.stringLiteral value) := by
    cases a.get? i with
    | none => simp
    | some n => cases n <;> simp [Node.kind]
  rw [ht.literals_eq, List.mem_filter, hkind, ht.reaches_iff]

end Arena

/-- New entries of the pool: they are those of the given literals, and their labels are minted one
after the other. -/
structure Pooled (a : Arena) (part : NodeId → Fragment) (lo hi : ℕ) (ids : List NodeId)
    (entries : List Constant) : Prop where
  le : lo ≤ hi
  listed : List.Forall₂ (fun i c ↦ a.get? i = some (.stringLiteral c.value) ∧
    part i = Template.loadAddress c.label) ids entries
  minted : ∀ c ∈ entries, Minted lo hi c.label
  nodup : (entries.map Constant.label).Nodup

section pool

variable {a : Arena} {r : Analysis} {part : NodeId → Fragment} {u : ScopeId} {ts : List Tree}
  {p q : Places} {lo mid hi : ℕ} {ids ids' : List NodeId} {entries entries' : List Constant}

theorem pooled_nil (h : lo ≤ hi) : Pooled a part lo hi [] [] :=
  ⟨h, .nil, by simp, by simp⟩

theorem Pooled.append (h : Pooled a part lo mid ids entries)
    (h' : Pooled a part mid hi ids' entries') :
    Pooled a part lo hi (ids ++ ids') (entries ++ entries') := by
  refine ⟨Nat.le_trans h.le h'.le, List.rel_append h.listed h'.listed, fun c hc ↦ ?_, ?_⟩
  · rcases List.mem_append.1 hc with hc | hc
    · exact (h.minted c hc).mono (Nat.le_refl _) h'.le
    · exact (h'.minted c hc).mono h.le (Nat.le_refl _)
  · rw [List.map_append, List.nodup_append]
    refine ⟨h.nodup, h'.nodup, fun x hx y hy ↦ ?_⟩
    obtain ⟨c, hc, rfl⟩ := List.mem_map.1 hx
    obtain ⟨d, hd, rfl⟩ := List.mem_map.1 hy
    exact (h.minted c hc).ne (h'.minted d hd)

theorem exists_pooled_compose {i : NodeId} {n : Node NodeId} (hn : a.get? i = some n)
    (hi : compose r u part i p n = (part i, q)) :
    ∃ own, q.pool.entries.toList = p.pool.entries.toList ++ own ∧
      Pooled a part p.labels.next q.labels.next
        (if n.kind = .stringLiteral then [i] else []) own := by
  by_cases hk : n.kind = .stringLiteral
  · cases n with
    | stringLiteral value =>
      obtain ⟨hpart, rfl⟩ := Prod.mk.inj hi
      have hlabel : (p.takeLabel "string").1 = numbered "string" p.labels.next := rfl
      refine ⟨[⟨(p.takeLabel "string").1, value⟩], by simp [Pool.push, Places.takeLabel],
        Nat.le_succ _, .cons ⟨hn, hpart.symm⟩ .nil, ?_, by simp⟩
      simp only [List.mem_singleton, forall_eq, hlabel]
      exact ⟨"string", by decide, _, Nat.le_refl _, Nat.lt_succ_self _, rfl⟩
    | _ => cases hk
  · have hpool : q.pool = p.pool := by
      rw [← pool_compose r u part i p hk, hi]
    have hle : p.labels.next ≤ q.labels.next :=
      Places.Leads.next_le (.node .refl (congrArg Prod.snd hi))
    rw [if_neg hk]
    exact ⟨[], by simp [hpool], pooled_nil hle⟩

theorem Coded.exists_pooled (h : Coded r part u ts p q) (hts : ∀ t ∈ ts, a.Holds t) :
    ∃ entries, q.pool.entries.toList = p.pool.entries.toList ++ entries ∧
      Pooled a part p.labels.next q.labels.next (ts.flatMap Tree.literals) entries := by
  induction h with
  | nil => exact ⟨[], by simp, pooled_nil (Nat.le_refl _)⟩
  | @cons u i n ts p q p' q' hc hi hrest ihc iht =>
    simp only [List.mem_cons, forall_eq_or_imp] at hts
    obtain ⟨below, hpool, hbelow⟩ := ihc fun c hm ↦ hts.1.child hm
    obtain ⟨own, hpool', hown⟩ := exists_pooled_compose hts.1.get? hi
    obtain ⟨behind, hpool'', hbehind⟩ := iht hts.2
    refine ⟨below ++ own ++ behind, by simp [hpool'', hpool', hpool], ?_⟩
    rw [Tree.node_mk, Node.kind_map] at hown
    rw [List.flatMap_cons, Tree.literals_mk]
    exact (hbelow.append hown).append hbehind

end pool

namespace Node

variable {ι κ : Type}

def blank : Node ι → Node ι
  | .stringLiteral _ => .stringLiteral ""
  | n => n

theorem blank_map (f : ι → κ) (n : Node ι) : (n.map f).blank = n.blank.map f := by
  cases n <;> rfl

@[simp]
theorem kind_blank (n : Node ι) : n.blank.kind = n.kind := by
  cases n <;> rfl

@[simp]
theorem children_blank (n : Node ι) : n.blank.children = n.children := by
  cases n <;> rfl

theorem kind_eq_of_blank {n m : Node ι} (h : m.blank = n.blank) : m.kind = n.kind := by
  rw [← m.kind_blank, h, n.kind_blank]

theorem blank_of_kind_ne {n : Node ι} (h : n.kind ≠ .stringLiteral) : n.blank = n := by
  cases n with
  | stringLiteral => exact absurd rfl h
  | _ => rfl

theorem exists_map_eq {f : ι → κ} {n : Node ι} {m : Node κ} (h : m.blank = (n.map f).blank) :
    ∃ n' : Node ι, n'.map f = m ∧ n'.blank = n.blank := by
  by_cases hk : n.kind = .stringLiteral
  · have hm := kind_eq_of_blank h
    cases n with
    | stringLiteral =>
      cases m with
      | stringLiteral value => exact ⟨.stringLiteral value, rfl, rfl⟩
      | _ => cases hm
    | _ => cases hk
  · have hm : m.kind ≠ .stringLiteral := by rwa [kind_eq_of_blank h, kind_map]
    rw [blank_of_kind_ne hm, blank_of_kind_ne (by rwa [kind_map])] at h
    exact ⟨n, h.symm, rfl⟩

end Node

inductive Tree.Reworded : Tree → Tree → Prop
  | mk {i : NodeId} {n m : Node Tree} {f : Tree → Tree} :
      m.blank = (n.map f).blank → (∀ c ∈ n.children, c.Reworded (f c)) →
      Reworded (.mk i n) (.mk i m)

namespace Tree.Reworded

variable {t t' : Tree} {n m : Node Tree} {f : Tree → Tree}

theorem id_eq (h : t.Reworded t') : t'.id = t.id := by
  cases h
  rfl

theorem kind_eq (h : t.Reworded t') : t'.node.kind = t.node.kind := by
  cases h with
  | mk hm => exact (Node.kind_eq_of_blank hm).trans (Node.kind_map ..)

theorem children_eq (h : m.blank = (n.map f).blank) : m.children = n.children.map f := by
  rw [← m.children_blank, h, Node.children_blank, Node.children_map]

theorem forall₂_children (h : m.blank = (n.map f).blank)
    (hf : ∀ c ∈ n.children, c.Reworded (f c)) :
    List.Forall₂ Tree.Reworded n.children m.children := by
  rw [children_eq h, List.forall₂_map_right_iff, List.forall₂_same]
  exact hf

theorem forall₂_parts {i : NodeId} {functions functions' : List Tree} {main main' : Tree}
    (h : (Tree.mk i (.program functions main)).Reworded (.mk i (.program functions' main'))) :
    List.Forall₂ Tree.Reworded (functions ++ [main]) (functions' ++ [main']) := by
  cases h with
  | mk hm hf => exact forall₂_children hm hf

theorem blank_map_id (h : m.blank = (n.map f).blank) (hf : ∀ c ∈ n.children, c.Reworded (f c)) :
    (m.map Tree.id).blank = (n.map Tree.id).blank := by
  rw [Node.blank_map, h, ← Node.blank_map, Node.map_map]
  exact congrArg Node.blank (Node.map_congr fun c hc ↦ (hf c hc).id_eq)

theorem innerScope_eq (h : m.blank = (n.map f).blank) (u : ScopeId) :
    m.innerScope u = n.innerScope u := by
  rw [Node.innerScope, Node.innerScope, Node.kind_eq_of_blank h, Node.kind_map]

theorem ids_eq (h : t.Reworded t') : t'.ids = t.ids := by
  induction h with
  | mk h _ ih =>
    rw [ids_mk, ids_mk, children_eq h, List.flatMap_map, List.flatMap_congr ih]

end Tree.Reworded

/-- The two arenas differ in the values of string literals only. -/
structure Arena.Reworded (a b : Arena) : Prop where
  root_eq : b.root = a.root
  nodes_eq : b.nodes.map Node.blank = a.nodes.map Node.blank

namespace Arena

variable {a b : Arena} {t : Tree}

theorem Reworded.exists_get? (h : a.Reworded b) {i : NodeId} {n : Node NodeId}
    (hn : a.get? i = some n) : ∃ m, b.get? i = some m ∧ m.blank = n.blank := by
  have hi : (b.get? i).map Node.blank = (a.get? i).map Node.blank := by
    simpa [Arena.get?] using congrArg (·[i.index]?) h.nodes_eq
  rw [hn, Option.map_some, Option.map_eq_some_iff] at hi
  exact hi

theorem Reworded.exists_tree (h : a.Reworded b) (ht : a.Holds t) :
    ∃ t', b.Holds t' ∧ t.Reworded t' := by
  induction t with
  | mk i n ih =>
    have hc : ∀ c ∈ n.children, ∃ d, b.Holds d ∧ c.Reworded d :=
      fun c hc ↦ ih c hc (ht.child hc)
    choose! f hf using hc
    obtain ⟨m, hm, hblank⟩ := h.exists_get? ht.get?
    obtain ⟨n', rfl, hn'⟩ := Node.exists_map_eq hblank
    have hchildren : n'.children = n.children := by
      rw [← n'.children_blank, hn']
      exact n.children_blank
    have hid : (n'.map f).map Tree.id = n'.map Tree.id := by
      rw [Node.map_map]
      exact Node.map_congr fun c hc ↦ (hf c (hchildren ▸ hc)).2.id_eq
    refine ⟨.mk i (n'.map f), .mk (hid ▸ hm) fun d hd ↦ ?_, .mk ?_ fun c hc ↦ (hf c hc).2⟩
    · rw [Node.children_map, hchildren] at hd
      obtain ⟨c, hc, rfl⟩ := List.mem_map.1 hd
      exact (hf c hc).1
    · rw [Node.blank_map, hn', Node.blank_map]
      rfl

end Arena

namespace Typing

variable {phrase phrase' : NodeId → String} {s s' : Typing} {ts ts' : List Tree}

theorem verdict_blank (s : Typing) (phrase : NodeId → String) (n : Node NodeId) :
    s.verdict phrase n.blank = s.verdict phrase n := by
  cases n <;> rfl

/-- The text of a node is used in complaints only. -/
theorem verdict_congr {n : Node NodeId} (h : (s.verdict phrase n).complaint = none) :
    s.verdict phrase' n = s.verdict phrase n := by
  cases n with
  | ifStatement | whileStatement | printStatement => simp_all [verdict, Verdict.expected]
  | _ => rfl

/-- Without diagnostics the second pass takes the same way whatever the strings are. -/
theorem Judged.reworded (h : Judged phrase ts s s') (hr : s'.report = #[])
    (hts : List.Forall₂ Tree.Reworded ts ts') : Judged phrase' ts' s s' := by
  induction h generalizing ts' with
  | nil =>
    cases hts
    exact .nil
  | skip hk _ ih =>
    cases hts with
    | cons ht hts =>
      cases ht with
      | mk hm => exact .skip (by rwa [Node.kind_eq_of_blank hm, Node.kind_map]) (ih hr hts)
  | @cons s s₁ s' i n ts hk hc hrest ihc iht =>
    have hreport : (s₁.give i (s₁.verdict phrase (n.map Tree.id))).report = #[] :=
      Grows.report_empty (s := (s₁.give i _).inScope s.current) hrest.grows hr
    cases hts with
    | cons ht hts =>
      cases ht with
      | @mk _ _ m f hm hf =>
        have hverdict : s₁.verdict phrase' (m.map Tree.id) =
            s₁.verdict phrase (n.map Tree.id) := by
          rw [← verdict_blank, Tree.Reworded.blank_map_id hm hf, verdict_blank,
            verdict_congr (complaint_eq_none hreport)]
        refine .cons (by rwa [Node.kind_eq_of_blank hm, Node.kind_map]) ?_ (hverdict ▸ iht hr hts)
        rw [Tree.Reworded.innerScope_eq hm]
        exact ihc ((s₁.grows_give i _).report_empty hreport)
          (Tree.Reworded.forall₂_children hm hf)

end Typing

/-- What the generator has given out, without the values of the strings. -/
def Places.blank (p : Places) : Places :=
  { p with pool := ⟨p.pool.entries.map fun c ↦ { c with value := "" }⟩ }

theorem Places.labels_blank (p : Places) :
    p.blank.pool.entries.map Constant.label = p.pool.entries.map Constant.label := by
  simp [blank, Function.comp_def]

section code

variable {r : Analysis} {part part' : NodeId → Fragment} {u : ScopeId} {p p' q q' : Places}
  {ts ts' : List Tree}

theorem Places.cell_blank (p : Places) (scopes : ScopeTree) (x : String) :
    p.blank.cell scopes u x = ((p.cell scopes u x).1, (p.cell scopes u x).2.blank) := by
  unfold cell takeCell
  split <;> rfl

theorem compose_blank (r : Analysis) (u : ScopeId) (part : NodeId → Fragment) (i : NodeId)
    (p : Places) {n : Node NodeId} (hn : n.kind ≠ .program) :
    compose r u part i p.blank n.blank =
      ((compose r u part i p n).1, (compose r u part i p n).2.blank) := by
  cases n with
  | program => exact absurd rfl hn
  | variableDeclaration | assignment | variableRef =>
    simp only [Node.blank, compose, Places.cell_blank]
  | stringLiteral value =>
    simp [Node.blank, compose, Places.blank, Places.takeLabel, Pool.push]
  | ifStatement condition thenBlock elseBlock => cases elseBlock <;> rfl
  | unary op operand => cases op <;> rfl
  | addSub op lhs rhs =>
    simp only [Node.blank, compose]
    split <;> rfl
  | _ => rfl

theorem Coded.reworded (h : Coded r part u ts p q) (h' : Coded r part' u ts' p' q')
    (hts : List.Forall₂ Tree.Reworded ts ts') (hk : ∀ t ∈ ts, t.Every fun n ↦ n.kind ≠ .program)
    (hp : p'.blank = p.blank) :
    q'.blank = q.blank ∧ ∀ i ∈ ts.flatMap Tree.ids, part' i = part i := by
  induction h generalizing ts' p' q' with
  | nil =>
    cases hts
    cases h'
    exact ⟨hp, by simp⟩
  | @cons u i n ts p q p₁ q₁ hc hi _ ihc iht =>
    cases hts with
    | cons ht hts =>
      cases ht with
      | @mk _ _ m f hm hf =>
        cases h' with
        | @cons _ _ _ _ _ q₂ p₂ _ hc' hi' hts' =>
          simp only [List.mem_cons, forall_eq_or_imp] at hk
          obtain ⟨⟨hn, hkc⟩, hkt⟩ := hk
          rw [Tree.Reworded.innerScope_eq hm] at hc' hi'
          obtain ⟨hq, hpart⟩ := ihc hc' (Tree.Reworded.forall₂_children hm hf) hkc hp
          have hmk : (m.map Tree.id).kind ≠ .program := by
            rwa [Node.kind_map, Node.kind_eq_of_blank hm, Node.kind_map]
          have hnode : (part' i, p₂.blank) = (part i, p₁.blank) := calc
            _ = compose r (n.innerScope u) part' i q₂.blank (m.map Tree.id).blank := by
              rw [compose_blank r _ part' i q₂ hmk, hi']
            _ = compose r (n.innerScope u) part i q.blank (n.map Tree.id).blank := by
              rw [hq, Tree.Reworded.blank_map_id hm hf]
              refine compose_congr fun c hc ↦ hpart c ?_
              rw [Node.children_blank, Node.children_map] at hc
              obtain ⟨d, hd, rfl⟩ := List.mem_map.1 hc
              exact List.mem_flatMap.2 ⟨d, hd, d.id_mem_ids⟩
            _ = (part i, p₁.blank) := by
              rw [compose_blank r _ part i q (by rwa [Node.kind_map]), hi]
          obtain ⟨hparti, hp₁⟩ := Prod.mk.inj hnode
          obtain ⟨hq₁, hparts⟩ := iht hts' hts hkt hp₁
          simp only [List.flatMap_cons, Tree.ids_mk, List.mem_append, List.mem_singleton]
          refine ⟨hq₁, ?_⟩
          rintro j ((hj | rfl) | hj)
          · exact hpart j hj
          · exact hparti
          · exact hparts j hj

end code

theorem Mips.Template.exists_program_eq (cells main : Fragment) :
    ∃ before behind, ∀ strings, program cells strings main = before ++ strings ++ behind := by
  refine ⟨([.directive "data", .asciiz "bool_true" "true", .asciiz "bool_false" "false"] : Fragment) ++
      cells, ([.directive "text", .label "main"] : Fragment) ++ main ++ call Service.exit.code ++
      ([.verbatim ""] : Fragment), ?_⟩
  intro strings
  simp [program]

namespace Arena

variable {a b : Arena} {root : NodeId} {functions : List Tree} {main : Tree} {s : Typing}
  {g : Generation}

theorem Compiles.pooled (h : a.Compiles root functions main s g) :
    Pooled a g.part 0 g.labels.next (Tree.mk root (.program functions main)).literals
      g.pool.entries.toList := by
  obtain ⟨entries, hpool, hpooled⟩ := h.coded_parts.exists_pooled fun t ht ↦ h.holds.child ht
  have hentries : g.pool.entries.toList = entries := by simpa [Generation.places] using hpool
  rw [hentries, Tree.literals_mk, if_neg (by simp [Node.kind]), List.append_nil]
  exact hpooled

theorem Compiles.forall₂_literals (h : a.Compiles root functions main s g) :
    List.Forall₂ (fun i c ↦ a.get? i = some (.stringLiteral c.value) ∧
        g.code.get? i = some (Template.loadAddress c.label))
      (Tree.mk root (.program functions main)).literals g.pool.entries.toList := by
  refine h.pooled.listed.imp fun i c hi ↦ ⟨hi.1, ?_⟩
  have hpart := hi.2
  cases hcode : g.code.get? i with
  | none => simp [Generation.part, hcode, Template.loadAddress] at hpart
  | some f => simpa [Generation.part, hcode] using hpart

theorem Compiles.exists_reworded (h : a.Compiles root functions main s g) (hb : a.Reworded b)
    {text : String} (hc : (b.compile .asm).outcome.result = .ok (.ok text)) :
    ∃ functions' main' g', b.Compiles root functions' main' s g' ∧ (g'.part root).text = text ∧
      main'.id = main.id ∧
      (Tree.mk root (.program functions main)).Reworded
        (.mk root (.program functions' main')) := by
  obtain ⟨root', _, _, _, _, hcompiles, -⟩ := exists_compiles hc
  obtain rfl : root' = root := by
    obtain ⟨-, hroot, -⟩ := validate_eq_ok h.valid
    obtain ⟨-, hroot', -⟩ := validate_eq_ok hcompiles.valid
    rw [hb.root_eq, hroot] at hroot'
    exact (Option.some.inj hroot').symm
  obtain ⟨t', ht', hreworded⟩ := hb.exists_tree h.holds
  cases hreworded with
  | @mk _ _ m f hm hf =>
    have hkind : m.kind ≠ .stringLiteral := by
      rw [Node.kind_eq_of_blank hm]
      exact Kind.noConfusion
    rw [Node.blank_of_kind_ne hkind] at hm
    subst hm
    obtain ⟨s', g', hc', htext⟩ := ht'.exists_compiles hcompiles.valid hc
    have hmain := hf main (by simp [Node.children])
    have hscopes : forMain (f main) = forMain main := by
      rw [forMain, forMain, hmain.kind_eq]
    have hjudged : Typing.Judged b.phraseOf [.mk root' ((Node.program functions main).map f)]
        { scopes := forMain main } s := h.judged.reworded h.report (.cons (.mk rfl hf) .nil)
    rw [← hscopes] at hjudged
    obtain rfl := hc'.judged.unique hjudged
    exact ⟨functions.map f, f main, g', hc', htext, hmain.id_eq, .mk rfl hf⟩

theorem Compiles.reworded (h : a.Compiles root functions main s g) {functions' : List Tree}
    {main' : Tree} {g' : Generation} (h' : b.Compiles root functions' main' s g')
    (ht : (Tree.mk root (.program functions main)).Reworded
      (.mk root (.program functions' main'))) :
    g'.places.blank = g.places.blank ∧ ∀ i, i ≠ root → g'.code.get? i = g.code.get? i := by
  obtain ⟨hplaces, hparts⟩ := h.coded_parts.reworded h'.coded_parts ht.forall₂_parts
    (fun c hc ↦ (h.holds.child hc).every_kind_ne h.forest (h.holds.kind_child h.forest hc).1) rfl
  refine ⟨hplaces, fun i hi ↦ ?_⟩
  by_cases hm : i ∈ (Tree.mk root (.program functions main)).ids
  · rw [h.get?_code hm, h'.get?_code (ht.ids_eq ▸ hm)]
    rw [Tree.ids_mk, List.mem_append, List.mem_singleton] at hm
    exact congrArg some (hparts i (hm.resolve_right hi))
  · rw [h.generated.frame i (by simpa using hm),
      h'.generated.frame i (by simpa [ht.ids_eq] using hm)]

theorem Compiles.part_main_eq (h : a.Compiles root functions main s g) {g' : Generation}
    (hcode : ∀ i, i ≠ root → g'.code.get? i = g.code.get? i) :
    g'.part main.id = g.part main.id := by
  have hne : main.id ≠ root := by
    intro he
    have hlt := h.holds.lt h.forest (c := main) (by simp [Node.children])
    simp [he] at hlt
  rw [Generation.part, Generation.part, hcode _ hne]

/-- The pool has one entry for each of the string literals: its value is that of the literal, its
label is given out once, and the code of the literal loads the address of that label. -/
structure Pools (a : Arena) (root : NodeId) (assembly : Assembly) (literals : List NodeId) :
    Prop where
  nodup : literals.Nodup
  mem_iff (i : NodeId) : i ∈ literals ↔
    a.Reaches root i ∧ ∃ value, a.get? i = some (.stringLiteral value)
  listed : List.Forall₂ (fun i c ↦ a.get? i = some (.stringLiteral c.value) ∧
      assembly.code.get? i = some (Template.loadAddress c.label))
    literals assembly.pool.entries.toList
  nodup_labels : (assembly.pool.entries.toList.map Constant.label).Nodup

theorem Compiles.pools (h : a.Compiles root functions main s g) :
    a.Pools root (g.assembly root) (Tree.mk root (.program functions main)).literals where
  nodup := h.holds.nodup_literals h.forest
  mem_iff _ := h.holds.mem_literals_iff
  listed := h.forall₂_literals
  nodup_labels := h.pooled.nodup

/-- Two programs that differ in the strings of their pools only, and their texts. -/
structure SameButStrings (root : NodeId) (assembly assembly' : Assembly) (text text' : String) :
    Prop where
  code (i : NodeId) : i ≠ root → assembly'.code.get? i = assembly.code.get? i
  cells : assembly'.cells = assembly.cells
  labels : assembly'.pool.entries.map Constant.label = assembly.pool.entries.map Constant.label
  texts : ∃ before behind : Fragment,
    text = Fragment.text (before ++
      assembly.pool.entries.toList.map (fun c ↦ .asciiz c.label c.value) ++ behind) ∧
    text' = Fragment.text (before ++
      assembly'.pool.entries.toList.map (fun c ↦ .asciiz c.label c.value) ++ behind)

theorem Compiles.sameButStrings (h : a.Compiles root functions main s g)
    {functions' : List Tree} {main' : Tree} {g' : Generation}
    (h' : b.Compiles root functions' main' s g') (hmain : main'.id = main.id)
    (ht : (Tree.mk root (.program functions main)).Reworded
      (.mk root (.program functions' main'))) :
    SameButStrings root (g.assembly root) (g'.assembly root) (g.part root).text
      (g'.part root).text := by
  obtain ⟨hplaces, hcode⟩ := h.reworded h' ht
  have hstorage : g'.storage = g.storage := congrArg Places.storage hplaces
  have hlabels := g'.places.labels_blank
  rw [hplaces, Places.labels_blank] at hlabels
  obtain ⟨before, behind, hprogram⟩ := Template.exists_program_eq
    (g.storage.cells.toList.map fun c ↦ .word c.label) (g.part main.id)
  refine ⟨hcode, congrArg Storage.cells hstorage, hlabels.symm, before, behind, ?_, ?_⟩
  · rw [h.generated.part_root, hprogram]
    rfl
  · rw [h'.generated.part_root, hstorage, hmain, h.part_main_eq hcode, hprogram]
    rfl

/-- The strings of a compiled program. The pool has one entry for every string literal, in the order
in which a walk enters them. If a program that differs in the values of string literals only is
compiled, too, then the code of all nodes but the root, the cells and the labels of the pool are the
same, and the texts differ in the entries of the pool only. -/
theorem strings_pooled {text : String} (h : (a.compile .asm).outcome.result = .ok (.ok text)) :
    ∃ root r assembly visits, a.Yields root r assembly visits ∧
      a.Pools root assembly (visits.toList.filterMap Visit.literal?) ∧
      ∀ b text', a.Reworded b → (b.compile .asm).outcome.result = .ok (.ok text') →
        ∃ r' assembly' visits', b.Yields root r' assembly' visits' ∧
          SameButStrings root assembly assembly' text text' := by
  obtain ⟨root, functions, main, s, g, hc, rfl⟩ := exists_compiles h
  obtain ⟨visits, hyields, hlist⟩ := hc.exists_yields
  refine ⟨root, s.analysis, g.assembly root, visits, hyields, ?_, fun b text' hb hcb ↦ ?_⟩
  · rw [hlist]
    exact hc.pools
  · obtain ⟨functions', main', g', hc', rfl, hmain, ht⟩ := hc.exists_reworded hb hcb
    obtain ⟨visits', hyields', -⟩ := hc'.exists_yields
    exact ⟨s.analysis, g'.assembly root, visits', hyields', hc.sameButStrings hc' hmain ht⟩

end Arena

def Node.lengthened : Node NodeId → Node NodeId
  | .stringLiteral value => .stringLiteral (value ++ "!")
  | n => n

namespace branching

def longer : Arena := { branching with nodes := ⟨branching.nodes.toList.map Node.lengthened⟩ }

theorem reworded : branching.Reworded longer := ⟨rfl, by decide +kernel⟩

theorem exists_text_longer :
    ∃ text, (longer.compile .asm).outcome.result = .ok (.ok text) := by
  have hv : longer.validate = .ok ⟨18⟩ :=
    Arena.validate_of_sound (by decide) (by decide) (by decide)
  have h : ((longer.compileFrom ⟨18⟩ .asm).outcome.result.toOption.bind
      Except.toOption).isSome := by decide +kernel
  obtain ⟨text, htext⟩ := Option.isSome_iff_exists.1 h
  exact ⟨text, Arena.result_compile hv htext⟩

theorem literals_eq : (branching.visits (fun _ _ ↦ false) ⟨18⟩).outcome.result.map
    (·.toList.filterMap Visit.literal?) = .ok [⟨0⟩, ⟨6⟩, ⟨10⟩] := by
  decide +kernel

theorem strings_pooled_at :
    branching.Reworded longer ∧ ∃ text text' assembly assembly',
      (branching.compile .asm).outcome.result = .ok (.ok text) ∧
      (longer.compile .asm).outcome.result = .ok (.ok text') ∧
      (branching.analyze ⟨18⟩ >>= branching.generate ⟨18⟩).outcome.result = .ok (.ok assembly) ∧
      (longer.analyze ⟨18⟩ >>= longer.generate ⟨18⟩).outcome.result = .ok (.ok assembly') ∧
      List.Forall₂ (fun i c ↦ branching.get? i = some (.stringLiteral c.value) ∧
          assembly.code.get? i = some (Template.loadAddress c.label))
        [⟨0⟩, ⟨6⟩, ⟨10⟩] assembly.pool.entries.toList ∧
      (assembly.pool.entries.toList.map Constant.label).Nodup ∧
      (∀ i, i ≠ ⟨18⟩ → assembly'.code.get? i = assembly.code.get? i) ∧
      assembly'.cells = assembly.cells ∧
      assembly'.pool.entries.map Constant.label = assembly.pool.entries.map Constant.label := by
  obtain ⟨text, htext⟩ := exists_text
  obtain ⟨text', htext'⟩ := exists_text_longer
  obtain ⟨root, r, assembly, visits, hyields, hpools, hother⟩ := Arena.strings_pooled htext
  obtain rfl : root = ⟨18⟩ := by simpa using hyields.valid.symm.trans validate_eq
  have hliterals : visits.toList.filterMap Visit.literal? = [⟨0⟩, ⟨6⟩, ⟨10⟩] := by
    have h := literals_eq
    rw [hyields.visited] at h
    exact Except.ok.inj h
  obtain ⟨r', assembly', visits', hyields', hsame⟩ := hother longer text' reworded htext'
  exact ⟨reworded, text, text', assembly, assembly', htext, htext', hyields.generated,
    hyields'.generated, hliterals ▸ hpools.listed, hpools.nodup_labels, hsame.code, hsame.cells,
    hsame.labels⟩

end branching

end SpimCompiler
