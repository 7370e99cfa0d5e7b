import Mathlib.Data.List.Perm.Subperm
import SpimCompiler.Proofs.GeneratedCode
import SpimCompiler.Proofs.Grammar
import SpimCompiler.Proofs.Loading

namespace SpimCompiler

open Mips

def labelBases : List String :=
  ["endif", "else", "loop_start", "loop_end", "string", "concat_measure_left",
    "concat_measure_right", "concat_allocate", "concat_copy_left", "concat_copy_right"]

def numbered (base : String) (k : Nat) : String := base ++ "_" ++ toString k

theorem toList_numbered (base : String) (k : Nat) :
    (numbered base k).toList = base.toList ++ '_' :: Nat.toDigits 10 k := by
  simp [numbered]

/-- The number of a label is what stands behind its last underscore. -/
theorem numbered_right_injective {b b' : String} {k k' : Nat} (h : numbered b k = numbered b' k') :
    k = k' := by
  have hlist := congrArg (fun s ↦ (s.toList.splitOn '_').getLast?) h
  simp only [toList_numbered, List.splitOn_append_cons_self,
    List.splitOn_eq_singleton Nat.underscore_not_in_toDigits, List.getLast?_append,
    List.getLast?_singleton, Option.some_or, Option.some.injEq] at hlist
  have hdigits := congrArg (Nat.ofDigitChars 10 · 0) hlist
  simpa using hdigits

theorem isName_append {a b : String} (ha : isName a) (hb : b.toList.all isNameChar) :
    isName (a ++ b) := by
  simp only [isName, Bool.and_eq_true] at ha
  cases hl : a.toList with
  | nil => simp [hl] at ha
  | cons c cs =>
    simp only [hl, List.head?_cons, Option.any_some, List.all_cons, Bool.and_eq_true] at ha
    simp only [isName, String.toList_append, hl, List.cons_append, List.head?_cons,
      Option.any_some, List.all_cons, List.all_append, Bool.and_eq_true]
    exact ⟨ha.1, ha.2.1, ha.2.2, hb⟩

theorem isName_numbered {base : String} (h : base ∈ labelBases) (k : Nat) :
    isName (numbered base k) := by
  have hbases : ∀ b ∈ labelBases, isName b := by decide
  have hdigits : (toString k).toList.all isNameChar := by
    rw [List.all_eq_true]
    intro c hc
    have hc : c ∈ Nat.toDigits 10 k := by simpa using hc
    have hdigit := Nat.isDigit_of_mem_toDigits (by decide) (by decide) hc
    simp [isNameChar, Char.isAlphanum, hdigit]
  exact isName_append (isName_append (hbases base h) (by decide)) hdigits

/-- A label that was minted with a number in the given range. -/
def Minted (lo hi : Nat) (label : String) : Prop :=
  ∃ base ∈ labelBases, ∃ k, lo ≤ k ∧ k < hi ∧ label = numbered base k

theorem Minted.mono {lo hi lo' hi' : Nat} {label : String} (h : Minted lo hi label)
    (hlo : lo' ≤ lo) (hhi : hi ≤ hi') : Minted lo' hi' label := by
  obtain ⟨base, hb, k, hk, hk', rfl⟩ := h
  exact ⟨base, hb, k, by omega, by omega, rfl⟩

theorem Minted.ne {lo mid hi : Nat} {label label' : String} (h : Minted lo mid label)
    (h' : Minted mid hi label') : label ≠ label' := by
  obtain ⟨base, -, k, -, hk, rfl⟩ := h
  obtain ⟨base', -, k', hk', -, rfl⟩ := h'
  intro he
  have := numbered_right_injective he
  omega

theorem Minted.head? {lo hi : Nat} {label : String} (h : Minted lo hi label) :
    label.toList.head? ∈ [some 'e', some 'l', some 's', some 'c'] := by
  obtain ⟨base, hb, k, -, -, rfl⟩ := h
  have hbases : ∀ b ∈ labelBases, b.toList ≠ [] ∧
      b.toList.head? ∈ [some 'e', some 'l', some 's', some 'c'] := by decide
  obtain ⟨hne, hhead⟩ := hbases base hb
  rwa [toList_numbered, List.head?_append_of_ne_nil _ hne]

theorem Mips.Cell.head?_labelFor (scope x : String) :
    (Cell.labelFor scope x).toList.head? = some 'v' := by
  unfold labelFor
  split <;> simp

theorem Minted.ne_labelFor {lo hi : Nat} {label : String} (h : Minted lo hi label)
    (scope x : String) : label ≠ Cell.labelFor scope x := by
  intro he
  have hhead := h.head?
  rw [he, Cell.head?_labelFor] at hhead
  exact absurd hhead (by decide)

theorem Minted.notMem_fixed {lo hi : Nat} {label : String} (h : Minted lo hi label) :
    label ∉ ["main", "bool_true", "bool_false"] := by
  intro hmem
  have hfixed : ∀ x ∈ ["main", "bool_true", "bool_false"],
      x.toList.head? ∉ [some 'e', some 'l', some 's', some 'c'] := by decide
  exact hfixed label hmem h.head?

theorem Mips.Cell.labelFor_notMem_fixed (scope x : String) :
    Cell.labelFor scope x ∉ ["main", "bool_true", "bool_false"] := by
  intro hmem
  have hfixed : ∀ y ∈ ["main", "bool_true", "bool_false"], y.toList.head? ≠ some 'v' := by decide
  exact hfixed _ hmem (Cell.head?_labelFor scope x)

def mints (k : Nat) : List String → List String
  | [] => []
  | base :: bases => numbered base k :: mints (k + 1) bases

theorem exists_of_mem_mints {bases : List String} {k : Nat} {label : String}
    (h : label ∈ mints k bases) :
    ∃ base ∈ bases, ∃ j, k ≤ j ∧ j < k + bases.length ∧ label = numbered base j := by
  induction bases generalizing k with
  | nil => simp [mints] at h
  | cons base bases ih =>
    rw [mints, List.mem_cons] at h
    rw [List.length_cons]
    obtain rfl | h := h
    · exact ⟨base, List.mem_cons_self, k, Nat.le_refl _, by omega, rfl⟩
    · obtain ⟨b, hb, j, hj, hj', rfl⟩ := ih h
      exact ⟨b, List.mem_cons_of_mem _ hb, j, by omega, by omega, rfl⟩

theorem minted_of_mem_mints {bases : List String} (hb : ∀ b ∈ bases, b ∈ labelBases) {k : Nat}
    {label : String} (h : label ∈ mints k bases) : Minted k (k + bases.length) label := by
  obtain ⟨base, hbase, j, hj⟩ := exists_of_mem_mints h
  exact ⟨base, hb base hbase, j, hj⟩

theorem mints_append (k : Nat) (bases bases' : List String) :
    mints k (bases ++ bases') = mints k bases ++ mints (k + bases.length) bases' := by
  induction bases generalizing k with
  | nil => rfl
  | cons base bases ih =>
    rw [List.cons_append, mints, mints, ih, List.cons_append, List.length_cons, Nat.add_right_comm]
    rfl

theorem nodup_mints (k : Nat) (bases : List String) : (mints k bases).Nodup := by
  induction bases generalizing k with
  | nil => exact List.nodup_nil
  | cons base bases ih =>
    refine List.nodup_cons.2 ⟨fun h ↦ ?_, ih (k + 1)⟩
    obtain ⟨b, -, j, hj, -, he⟩ := exists_of_mem_mints h
    have := numbered_right_injective he
    omega

namespace Mips.Fragment

@[simp]
theorem labels_nil : labels [] = [] := rfl

@[simp]
theorem labels_append (f g : Fragment) : labels (f ++ g) = labels f ++ labels g :=
  List.flatMap_append

@[simp]
theorem labels_instr (i : Instr) (f : Fragment) : labels (.instr i :: f) = labels f := rfl

@[simp]
theorem labels_label (name : String) (f : Fragment) :
    labels (.label name :: f) = name :: labels f := rfl

@[simp]
theorem labels_flatMap {α : Type} (l : List α) (part : α → Fragment) :
    labels (l.flatMap part) = l.flatMap fun c ↦ labels (part c) := by
  rw [labels, List.flatMap_assoc]
  rfl

end Mips.Fragment

open Mips.Fragment

variable {r : Analysis} {part : NodeId → Fragment} {u : ScopeId} {i : NodeId} {p q : Places}

def Places.strings (p : Places) : List String := p.pool.entries.toList.map Constant.label

@[simp]
theorem Places.labels_cell (scopes : ScopeTree) (x : String) :
    (p.cell scopes u x).2.labels = p.labels := by
  unfold cell takeCell
  split <;> rfl

@[simp]
theorem Places.strings_cell (scopes : ScopeTree) (x : String) :
    (p.cell scopes u x).2.strings = p.strings := by
  unfold cell takeCell
  split <;> rfl

def Node.bases {ι : Type} (type : Option Ty) : Node ι → List String
  | .ifStatement _ _ none => ["endif"]
  | .ifStatement _ _ (some _) => ["else", "endif"]
  | .whileStatement .. => ["loop_start", "loop_end"]
  | .stringLiteral _ => ["string"]
  | .addSub .. =>
    if type = some .string then
      ["concat_measure_left", "concat_measure_right", "concat_allocate", "concat_copy_left",
        "concat_copy_right"]
    else []
  | _ => []

@[simp]
theorem Node.bases_map {ι κ : Type} (f : ι → κ) (type : Option Ty) (n : Node ι) :
    (n.map f).bases type = n.bases type := by
  cases n with
  | ifStatement condition thenBlock elseBlock => cases elseBlock <;> rfl
  | _ => rfl

theorem Node.mem_labelBases {ι : Type} {type : Option Ty} {n : Node ι} {base : String}
    (h : base ∈ n.bases type) : base ∈ labelBases := by
  have hsub : n.bases type ⊆ labelBases := by
    cases n with
    | ifStatement condition thenBlock elseBlock =>
      cases elseBlock <;> simp [bases, labelBases]
    | addSub =>
      rw [bases]
      split <;> simp [labelBases]
    | _ => simp [bases, labelBases]
  exact hsub h

theorem next_compose (r : Analysis) (u : ScopeId) (part : NodeId → Fragment) (i : NodeId)
    (p : Places) (n : Node NodeId) :
    (compose r u part i p n).2.labels.next =
      p.labels.next + (n.bases (r.types.get? i)).length := by
  cases n with
  | variableDeclaration | assignment | variableRef => simp [compose, Node.bases]
  | ifStatement condition thenBlock elseBlock => cases elseBlock <;> rfl
  | unary op operand => cases op <;> rfl
  | addSub =>
    rw [compose, Node.bases]
    split <;> rfl
  | _ => rfl

/-- The labels of composed code and of new strings are those of its parts and the ones minted for
it. -/
theorem exists_perm_compose (r : Analysis) (u : ScopeId) (part : NodeId → Fragment) (i : NodeId)
    (p : Places) {n : Node NodeId} (hn : n.kind ≠ .program) (hr : n.rejection? = none) :
    ∃ own, (compose r u part i p n).2.strings = p.strings ++ own ∧
      (labels (compose r u part i p n).1 ++ own).Perm
        ((n.children.flatMap fun c ↦ labels (part c)) ++
          mints p.labels.next (n.bases (r.types.get? i))) := by
  cases n with
  | program => exact absurd rfl hn
  | functionDefinition | functionCall | returnStatement => simp [Node.rejection?] at hr
  | stringLiteral value =>
    refine ⟨[numbered "string" p.labels.next], ?_, .refl _⟩
    simp [compose, Places.strings, Pool.push, Places.takeLabel, Labels.mint, numbered]
  | executableBlock | variableBlock | statementBlock | intLiteral | boolLiteral | parenthesized
  | mulDiv | compare =>
    refine ⟨[], (List.append_nil _).symm, .of_eq ?_⟩
    simp [compose, Node.children, Node.bases, mints, Template.loadImmediate, Template.binary,
      Template.operands]
  | variableDeclaration name type init =>
    refine ⟨[], by simp [compose], .of_eq ?_⟩
    cases init <;> simp [compose, Node.children, Node.bases, mints, Template.storeVariable]
  | assignment | variableRef =>
    refine ⟨[], by simp [compose], .of_eq ?_⟩
    simp [compose, Node.children, Node.bases, mints, Template.storeVariable, Template.loadVariable]
  | ifStatement condition thenBlock elseBlock =>
    cases elseBlock with
    | none =>
      refine ⟨[], (List.append_nil _).symm, .of_eq ?_⟩
      simp [compose, Node.children, Node.bases, mints, Template.ifThen, Places.takeLabel,
        Labels.mint, numbered]
    | some elseBlock =>
      refine ⟨[], (List.append_nil _).symm, ?_⟩
      simp only [compose, Template.ifElse, labels_append, labels_instr, labels_label, labels_nil,
        List.append_nil, List.singleton_append, List.append_assoc, Node.children,
        Option.toList_some, List.flatMap_cons, List.flatMap_nil]
      exact (List.perm_middle.symm.append_left _).append_left _
  | whileStatement condition body =>
    refine ⟨[], (List.append_nil _).symm, ?_⟩
    simp only [compose, Template.whileLoop, labels_append, labels_instr, labels_label, labels_nil,
      List.append_nil, Node.children, List.flatMap_cons, List.flatMap_nil]
    exact List.perm_middle.symm
  | printStatement value =>
    refine ⟨[], (List.append_nil _).symm, .of_eq ?_⟩
    simp only [compose]
    cases (r.types.get? value).getD .error <;>
      simp [printing, Node.children, Node.bases, mints, Template.printBool, Template.printBy,
        Template.call]
  | unary op operand =>
    refine ⟨[], by cases op <;> exact (List.append_nil _).symm, .of_eq ?_⟩
    cases op <;> simp [compose, Node.children, Node.bases, mints, Template.unaryMinus,
      Template.logicalNot]
  | addSub op lhs rhs =>
    by_cases ht : r.types.get? i = some .string
    · refine ⟨[], ?_, .of_eq ?_⟩
      · rw [compose, if_pos ht]
        exact (List.append_nil _).symm
      · rw [compose, if_pos ht]
        simp [Node.children, Node.bases, mints, ht, Template.concatStrings, Template.operands,
          Template.measure, Template.call, Places.takeConcatLabels, Places.takeLabel, Labels.mint,
          numbered]
    · refine ⟨[], by simp [compose, ht], .of_eq ?_⟩
      simp [compose, Node.children, Node.bases, mints, ht, Template.binary, Template.operands]

theorem labels_compose (r : Analysis) (u : ScopeId) (part : NodeId → Fragment) (i : NodeId)
    (p : Places) {n : Node NodeId} (hn : n.kind ≠ .program) :
    (labels (compose r u part i p n).1).Subperm
      ((n.children.flatMap fun c ↦ labels (part c)) ++
        mints p.labels.next (n.bases (r.types.get? i))) := by
  cases hr : n.rejection? with
  | none =>
    obtain ⟨own, -, hperm⟩ := exists_perm_compose r u part i p hn hr
    exact (List.sublist_append_left _ own).subperm.trans hperm.subperm
  | some complaint =>
    have hempty : (compose r u part i p n).1 = [] := by
      cases n <;> first | rfl | simp [Node.rejection?] at hr
    rw [hempty]
    exact List.nil_subperm

theorem Coded.labels {ts : List Tree} (h : Coded r part u ts p q)
    (hk : ∀ t ∈ ts, t.Every fun n ↦ n.kind ≠ .program) :
    p.labels.next ≤ q.labels.next ∧
      (ts.flatMap fun t ↦ Fragment.labels (part t.id)).Nodup ∧
      ∀ x ∈ ts.flatMap fun t ↦ Fragment.labels (part t.id), Minted p.labels.next q.labels.next x := by
  induction h with
  | nil => simp
  | @cons u i n ts p q p' q' _ hi _ ihc iht =>
    simp only [List.mem_cons, forall_eq_or_imp] at hk
    obtain ⟨hn, hkc⟩ := hk.1
    obtain ⟨hle, hnodup, hminted⟩ := ihc hkc
    obtain ⟨hle', hnodup', hminted'⟩ := iht hk.2
    have hnext : p'.labels.next =
        q.labels.next + ((n.map Tree.id).bases (r.types.get? i)).length := by
      rw [← next_compose r (n.innerScope u) part i q, hi]
    have hsub := labels_compose r (n.innerScope u) part i q (n := n.map Tree.id) (by simpa using hn)
    rw [hi, Node.children_map, List.flatMap_map] at hsub
    obtain ⟨l, hperm, hsubl⟩ := hsub
    have hmints : ∀ x ∈ mints q.labels.next ((n.map Tree.id).bases (r.types.get? i)),
        Minted q.labels.next p'.labels.next x :=
      fun x hx ↦ hnext ▸ minted_of_mem_mints (fun _ ↦ Node.mem_labelBases) hx
    have hall := List.nodup_append.2 ⟨hnodup, nodup_mints q.labels.next _, fun x hx y hy ↦
      (hminted x hx).ne (hmints y hy)⟩
    have hnode : ∀ x ∈ Fragment.labels (part i), Minted p.labels.next p'.labels.next x := by
      intro x hx
      obtain hx | hx := List.mem_append.1 (hsubl.subset (hperm.mem_iff.2 hx))
      · exact (hminted x hx).mono (Nat.le_refl _) (by omega)
      · exact (hmints x hx).mono hle (Nat.le_refl _)
    refine ⟨by omega, ?_, fun x hx ↦ ?_⟩
    · rw [List.flatMap_cons, List.nodup_append]
      exact ⟨hperm.nodup_iff.1 (hsubl.nodup hall), hnodup', fun x hx y hy ↦
        (hnode x hx).ne (hminted' y hy)⟩
    · rw [List.flatMap_cons, List.mem_append] at hx
      obtain hx | hx := hx
      · exact (hnode x hx).mono (Nat.le_refl _) hle'
      · exact (hminted' x hx).mono (by omega) (Nat.le_refl _)

end SpimCompiler
