import Mathlib.Logic.Relation
import SpimCompiler.Proofs.NameResolution

namespace SpimCompiler

namespace ScopeTree

inductive Call
  | create (s : ScopeId) (name : String) (returnType : Ty)
  | define (s : ScopeId) (name : String) (type : Ty)
deriving DecidableEq, Repr

namespace Call

def scope : Call → ScopeId
  | create s .. => s
  | define s .. => s

def apply (t : ScopeTree) : Call → ScopeTree
  | create s name returnType => (t.addChild s name returnType).2
  | define s name type => (t.define s name type).2

def created? : Call → Option (ScopeId × String)
  | create s name _ => some (s, name)
  | define .. => none

def bound? (u : ScopeId) (x : String) : Call → Option Symbol
  | create .. => none
  | define s name type => if s = u ∧ name = x then some ⟨name, type⟩ else none

end Call

/-- Calls on scopes that are there when the call is made, and the tree behind them. -/
inductive History : List Call → ScopeTree → Prop
  | nil : History [] initial
  | snoc {calls : List Call} {t : ScopeTree} {call : Call} :
      History calls t → call.scope < t.scopes.size → History (calls ++ [call]) (call.apply t)

/-- The scopes in which others were opened, with the names of those, in order of creation. The scope
of an entry has the number of the entry, counted from 1. -/
def creations (calls : List Call) : List (ScopeId × String) := calls.filterMap Call.created?

variable {t : ScopeTree} {calls : List Call} {p s u v w : ScopeId} {n : String}

/-- The first scope is the second one or lies around it. -/
def Encloses (t : ScopeTree) (w s : ScopeId) : Prop :=
  Relation.ReflTransGen (fun c p ↦ t.enclosing? c = some p) s w

section Step

variable (t s n) (type : Ty)

theorem size_addChild : (t.addChild s n type).2.scopes.size = t.scopes.size + 1 := by
  simp [addChild]

theorem outerOf_addChild (u : ScopeId) : (t.addChild s n type).2.outerOf u =
    if u = t.scopes.size then t.chain s else t.outerOf u := by
  by_cases hu : u = t.scopes.size <;> simp [outerOf, get?_addChild, hu]

theorem enclosing?_addChild (u : ScopeId) : (t.addChild s n type).2.enclosing? u =
    if u = t.scopes.size then some s else t.enclosing? u := by
  unfold enclosing?
  rw [outerOf_addChild]
  split <;> rfl

theorem nameOf_addChild (u : ScopeId) : (t.addChild s n type).2.nameOf u =
    if u = t.scopes.size then n else t.nameOf u := by
  by_cases hu : u = t.scopes.size <;> simp [nameOf, get?_addChild, hu]

@[simp]
theorem enclosing?_define (u : ScopeId) :
    (t.define s n type).2.enclosing? u = t.enclosing? u := by
  simp [enclosing?]

@[simp]
theorem encloses_define : (t.define s n type).2.Encloses u v ↔ t.Encloses u v := by
  simp [Encloses]

theorem chain_addChild (hu : u < t.scopes.size) :
    (t.addChild s n type).2.chain u = t.chain u := by
  rw [chain, outerOf_addChild, if_neg (Nat.ne_of_lt hu), chain]

end Step

theorem lt_size_of_enclosing? (h : t.enclosing? u = some v) : u < t.scopes.size := by
  by_contra hu
  simp [enclosing?, outerOf, get?, Nat.not_lt.1 hu] at h

structure Linked (t : ScopeTree) : Prop where
  chain_eq {c p : ScopeId} : t.enclosing? c = some p → t.chain c = c :: t.chain p
  lt {c p : ScopeId} : t.enclosing? c = some p → p < c

theorem Linked.addChild (h : t.Linked) (hs : s < t.scopes.size) (type : Ty) :
    (t.addChild s n type).2.Linked := by
  constructor <;> intro c p hp <;> rw [enclosing?_addChild] at hp <;> split at hp
  · obtain rfl := Option.some.inj hp
    rw [chain_addChild t s n type hs, chain, outerOf_addChild, if_pos ‹_›]
  · have hc := lt_size_of_enclosing? hp
    have hlt := h.lt hp
    rw [chain_addChild t s n type hc, chain_addChild t s n type (Nat.lt_trans hlt hc)]
    exact h.chain_eq hp
  · obtain rfl := Option.some.inj hp
    subst c
    exact hs
  · exact h.lt hp

theorem Linked.define (h : t.Linked) (type : Ty) : (t.define s n type).2.Linked := by
  constructor <;> intro c p hp <;> rw [enclosing?_define] at hp
  · rw [chain_define, chain_define, h.chain_eq hp]
  · exact h.lt hp

theorem History.linked (h : History calls t) : t.Linked := by
  induction h with
  | nil =>
    have hnone (u : ScopeId) : initial.enclosing? u = none := by cases u <;> rfl
    exact ⟨by simp [hnone], by simp [hnone]⟩
  | @snoc _ _ call _ hcall ih =>
    cases call with
    | create s n type => exact ih.addChild hcall type
    | define s n type => exact ih.define type

/-- What the calls have made: the scopes that were opened, in order, and in each scope the variables
that were first defined there. -/
structure Records (calls : List Call) (t : ScopeTree) : Prop where
  size : t.scopes.size = (creations calls).length + 1
  enclosing_global : t.enclosing? globalScope = none
  enclosing (k : Nat) : t.enclosing? (k + 1) = (creations calls)[k]?.map Prod.fst
  nameOf (k : Nat) : t.nameOf (k + 1) = (creations calls)[k]?.elim "" Prod.snd
  local? (s : ScopeId) (x : String) : t.local? s x = calls.findSome? (Call.bound? s x)

theorem creations_concat (call : Call) :
    creations (calls ++ [call]) = creations calls ++ call.created?.toList := by
  cases h : call.created? <;> simp [creations, h]

theorem Records.apply (h : Records calls t) {call : Call} (hcall : call.scope < t.scopes.size) :
    Records (calls ++ [call]) (call.apply t) := by
  cases call with
  | create s n type =>
    have hentry (k : Nat) : (creations (calls ++ [.create s n type]))[k]? =
        if k + 1 = t.scopes.size then some (s, n) else (creations calls)[k]? := by
      rw [creations_concat, h.size]
      grind [Call.created?]
    refine ⟨?_, ?_, fun k ↦ ?_, fun k ↦ ?_, fun u x ↦ ?_⟩
    · simp [Call.apply, size_addChild, h.size, creations_concat, Call.created?]
    · rw [Call.apply, enclosing?_addChild, if_neg, h.enclosing_global]
      simp [globalScope, h.size]
    · rw [Call.apply, enclosing?_addChild, hentry, h.enclosing]
      split <;> rfl
    · rw [Call.apply, nameOf_addChild, hentry, h.nameOf]
      split <;> rfl
    · rw [Call.apply, local?_addChild, h.local?]
      simp [List.findSome?_append, Call.bound?]
  | define s n type =>
    have hcreations : creations (calls ++ [.define s n type]) = creations calls := by
      simp [creations_concat, Call.created?]
    refine ⟨?_, ?_, fun k ↦ ?_, fun k ↦ ?_, fun u x ↦ ?_⟩
    · rw [Call.apply, size_define, hcreations, h.size]
    · rw [Call.apply, enclosing?_define, h.enclosing_global]
    · rw [Call.apply, enclosing?_define, hcreations, h.enclosing]
    · rw [Call.apply, nameOf_define, hcreations, h.nameOf]
    · have hs : (t.get? s).isSome := by simpa [get?, Call.scope] using hcall
      rw [Call.apply, local?_define, h.local?, List.findSome?_append]
      congr 1
      grind [Call.bound?]

theorem History.records (h : History calls t) : Records calls t := by
  induction h with
  | nil => exact ⟨rfl, rfl, fun k ↦ rfl, fun k ↦ rfl, fun s x ↦ by cases s <;> rfl⟩
  | snoc _ hcall ih => exact ih.apply hcall

theorem encloses_iff_of_none (hp : t.enclosing? s = none) : t.Encloses w s ↔ w = s := by
  rw [Encloses, Relation.ReflTransGen.cases_head_iff]
  simp [hp, eq_comm]

theorem encloses_iff_of_some (hp : t.enclosing? s = some p) :
    t.Encloses w s ↔ w = s ∨ t.Encloses w p := by
  rw [Encloses, Relation.ReflTransGen.cases_head_iff]
  simp [hp, eq_comm, Encloses]

theorem Encloses.trans (h : t.Encloses u v) (h' : t.Encloses v w) : t.Encloses u w :=
  Relation.ReflTransGen.trans h' h

theorem Encloses.total (h : t.Encloses u s) (h' : t.Encloses v s) :
    t.Encloses v u ∨ t.Encloses u v :=
  Relation.ReflTransGen.total_of_right_unique
    (fun _ _ _ hp hq ↦ Option.some.inj (hp.symm.trans hq)) h h'

namespace Linked

theorem le_of_encloses (h : t.Linked) (hw : t.Encloses w s) : w ≤ s := by
  induction hw with
  | refl => exact Nat.le_refl _
  | tail _ hp ih => exact Nat.le_trans (Nat.le_of_lt (h.lt hp)) ih

theorem encloses_antisymm (h : t.Linked) (hu : t.Encloses u v) (hv : t.Encloses v u) : u = v :=
  Nat.le_antisymm (h.le_of_encloses hu) (h.le_of_encloses hv)

theorem definingScope?_eq (h : t.Linked) (s : ScopeId) (n : String) : t.definingScope? s n =
    if (t.local? s n).isSome then some s
    else (t.enclosing? s).bind fun p ↦ t.definingScope? p n := by
  cases hp : t.enclosing? s with
  | none =>
    have houter : t.outerOf s = [] := List.head?_eq_none_iff.1 hp
    rw [definingScope?, chain, houter, List.find?_singleton, Option.bind_none]
  | some p =>
    rw [definingScope?, h.chain_eq hp, List.find?_cons]
    split <;> simp_all [definingScope?]

/-- The scope that binds a name is the nearest one: all others around that bind it lie around that
scope too. -/
theorem definingScope?_eq_some_iff (h : t.Linked) : t.definingScope? s n = some w ↔
    t.Encloses w s ∧ (t.local? w n).isSome ∧
      ∀ v, t.Encloses v s → (t.local? v n).isSome → t.Encloses v w := by
  induction s using Nat.strongRecOn with
  | ind s ih =>
    rw [h.definingScope?_eq]
    by_cases hs : (t.local? s n).isSome
    · rw [if_pos hs]
      constructor
      · rintro ⟨⟩
        exact ⟨.refl, hs, fun v hv _ ↦ hv⟩
      · rintro ⟨hw, -, hnear⟩
        rw [h.encloses_antisymm hw (hnear s .refl hs)]
    · rw [if_neg hs]
      cases hp : t.enclosing? s with
      | none =>
        simp only [Option.bind_none, reduceCtorEq, false_iff]
        rintro ⟨hw, hb, -⟩
        rw [encloses_iff_of_none hp] at hw
        exact hs (hw ▸ hb)
      | some p =>
        have hup {v : ScopeId} (hv : (t.local? v n).isSome) :
            t.Encloses v s ↔ t.Encloses v p := by
          rw [encloses_iff_of_some hp, or_iff_right]
          intro he
          exact hs (he ▸ hv)
        rw [Option.bind_some, ih p (h.lt hp)]
        constructor
        · rintro ⟨hw, hb, hnear⟩
          exact ⟨(hup hb).2 hw, hb, fun v hv hvb ↦ hnear v ((hup hvb).1 hv) hvb⟩
        · rintro ⟨hw, hb, hnear⟩
          exact ⟨(hup hb).1 hw, hb, fun v hv hvb ↦ hnear v ((hup hvb).2 hv) hvb⟩

theorem mem_chain_iff (h : t.Linked) : w ∈ t.chain s ↔ t.Encloses w s := by
  induction s using Nat.strongRecOn with
  | ind s ih =>
    cases hp : t.enclosing? s with
    | none =>
      have houter : t.outerOf s = [] := List.head?_eq_none_iff.1 hp
      rw [chain, houter, List.mem_singleton, encloses_iff_of_none hp]
    | some p => rw [h.chain_eq hp, List.mem_cons, ih p (h.lt hp), encloses_iff_of_some hp]

theorem isSome_definingScope? (h : t.Linked) (hw : t.Encloses w s) (hb : (t.local? w n).isSome) :
    (t.definingScope? s n).isSome :=
  List.find?_isSome.2 ⟨w, h.mem_chain_iff.2 hw, hb⟩

end Linked

theorem resolve?_eq_bind (t : ScopeTree) (s : ScopeId) (n : String) :
    t.resolve? s n = (t.definingScope? s n).bind fun w ↦ t.local? w n := by
  ext y
  rw [resolve?_eq_some_iff, Option.bind_eq_some_iff]

theorem isSome_resolve? (t : ScopeTree) (s : ScopeId) (n : String) :
    (t.resolve? s n).isSome = (t.definingScope? s n).isSome := by
  rw [resolve?_eq_bind]
  cases hw : t.definingScope? s n with
  | none => rfl
  | some w => exact isSome_local?_of_definingScope? hw

/-- A definition of the name in the first scope would be seen in the second: the first scope is the
second or lies around it, and none from the second to the first binds the name. -/
def Seen (t : ScopeTree) (s : ScopeId) (n : String) (u : ScopeId) : Prop :=
  t.Encloses s u ∧ ∀ v, t.Encloses s v → t.Encloses v u → t.local? v n = none

section Define

variable {m : String} {type : Ty}

theorem local?_define_of_isSome (hb : (t.local? u m).isSome) :
    (t.define s n type).2.local? u m = t.local? u m := by
  obtain ⟨y, hy⟩ := Option.isSome_iff_exists.1 hb
  rw [local?_define, hy, Option.some_or]

theorem local?_define_of_ne (h : ¬(s = u ∧ n = m)) :
    (t.define s n type).2.local? u m = t.local? u m := by
  rw [local?_define, if_neg fun h' ↦ h ⟨h'.1, h'.2.1⟩, Option.or_none]

theorem local?_define_self (hs : s < t.scopes.size) (hb : t.local? s n = none) :
    (t.define s n type).2.local? s n = some ⟨n, type⟩ := by
  have hget : (t.get? s).isSome := by simpa [get?] using hs
  rw [local?_define, hb, if_pos ⟨rfl, rfl, hget⟩, Option.none_or]

theorem define_fst (t : ScopeTree) (s : ScopeId) (n : String) (type : Ty) :
    (t.define s n type).1 = (t.local? s n).getD ⟨n, type⟩ := by
  unfold define
  cases t.local? s n <;> rfl

theorem local?_define_fst (hs : s < t.scopes.size) :
    (t.define s n type).2.local? s n = some (t.define s n type).1 := by
  rw [define_fst]
  cases hb : t.local? s n with
  | none => exact local?_define_self hs hb
  | some y => rw [local?_define_of_isSome (by simp [hb]), hb, Option.getD_some]

theorem define_snd_of_isSome (hb : (t.local? s n).isSome) : (t.define s n type).2 = t := by
  obtain ⟨y, hy⟩ := Option.isSome_iff_exists.1 hb
  rw [define, hy]

theorem Linked.definingScope?_define_of_seen (h : t.Linked) (hs : s < t.scopes.size)
    (hseen : t.Seen s n u) : (t.define s n type).2.definingScope? u n = some s := by
  obtain ⟨hsu, hfree⟩ := hseen
  rw [(h.define type).definingScope?_eq_some_iff]
  refine ⟨by simpa using hsu, by simp [local?_define_self hs (hfree s .refl hsu)], ?_⟩
  intro v hv hb
  rw [encloses_define] at hv ⊢
  rcases hv.total hsu with hsv | hvs
  · by_cases hne : s = v
    · exact hne ▸ .refl
    · rw [local?_define_of_ne fun h ↦ hne h.1, hfree v hsv hv] at hb
      cases hb
  · exact hvs

/-- A definition that is not seen in a scope changes no look-up there. -/
theorem Linked.definingScope?_define_of_not_seen (h : t.Linked)
    (hseen : n = m → ¬t.Seen s n u) :
    (t.define s n type).2.definingScope? u m = t.definingScope? u m := by
  by_cases hcase : n = m ∧ t.Encloses s u ∧ t.local? s n = none
  · obtain ⟨rfl, hsu, hfree⟩ := hcase
    obtain ⟨v, hsv, hvu, hb⟩ : ∃ v, t.Encloses s v ∧ t.Encloses v u ∧ (t.local? v n).isSome := by
      by_contra hno
      refine hseen rfl ⟨hsu, fun v hsv hvu ↦ ?_⟩
      by_contra hb
      exact hno ⟨v, hsv, hvu, Option.isSome_iff_ne_none.2 hb⟩
    obtain ⟨w, hw⟩ := Option.isSome_iff_exists.1 (h.isSome_definingScope? hvu hb)
    obtain ⟨hwu, hwb, hnear⟩ := h.definingScope?_eq_some_iff.1 hw
    rw [hw, (h.define type).definingScope?_eq_some_iff]
    refine ⟨by simpa using hwu, by rwa [local?_define_of_isSome hwb], fun v' hv' hb' ↦ ?_⟩
    rw [encloses_define] at hv' ⊢
    by_cases hne : s = v'
    · exact hne ▸ hsv.trans (hnear v hvu hb)
    · rw [local?_define_of_ne fun h ↦ hne h.1] at hb'
      exact hnear v' hv' hb'
  · have hsame : ∀ v, t.Encloses v u → (t.define s n type).2.local? v m = t.local? v m := by
      intro v hv
      by_cases heq : s = v ∧ n = m
      · obtain ⟨rfl, rfl⟩ := heq
        refine local?_define_of_isSome (Option.isSome_iff_ne_none.2 fun hb ↦ ?_)
        exact hcase ⟨rfl, hv, hb⟩
      · exact local?_define_of_ne heq
    ext w
    rw [(h.define type).definingScope?_eq_some_iff, h.definingScope?_eq_some_iff]
    simp only [encloses_define]
    refine and_congr_right fun hw ↦ ?_
    rw [hsame w hw]
    refine and_congr_right fun _ ↦ forall_congr' fun v ↦ forall_congr' fun hv ↦ ?_
    rw [hsame v hv]

theorem Linked.resolve?_define_of_not_seen (h : t.Linked) (hseen : n = m → ¬t.Seen s n u) :
    (t.define s n type).2.resolve? u m = t.resolve? u m := by
  rw [resolve?_eq_bind, resolve?_eq_bind, h.definingScope?_define_of_not_seen hseen]
  cases hw : t.definingScope? u m with
  | none => rfl
  | some w => exact local?_define_of_isSome (isSome_local?_of_definingScope? hw)

end Define

theorem Records.childNamed? (h : Records calls t) (s : ScopeId) (c : String) :
    t.childNamed? s c = ((creations calls).findIdx? (· == (s, c))).map (· + 1) := by
  have hglobal : t.enclosing? 0 = none := h.enclosing_global
  have hentry (k : Nat) : t.enclosing? (k + 1) = some s ∧ t.nameOf (k + 1) = c ↔
      (creations calls)[k]? = some (s, c) := by
    rw [h.enclosing, h.nameOf]
    cases (creations calls)[k]? <;> simp [Prod.ext_iff]
  have hfirst (k : Nat) : (creations calls).findIdx? (· == (s, c)) = some k ↔
      (creations calls)[k]? = some (s, c) ∧ ∀ j < k, (creations calls)[j]? ≠ some (s, c) := by
    rw [List.findIdx?_eq_some_iff_getElem]
    grind
  ext u
  rw [ScopeTree.childNamed?, childrenOf, List.find?_filter, h.size, List.find?_range_eq_some]
  cases u with
  | zero => simp [hglobal]
  | succ k =>
    have hlt (hk : (creations calls)[k]? = some (s, c)) : k < (creations calls).length :=
      (List.getElem?_eq_some_iff.1 hk).1
    simp only [Nat.succ_eq_add_one, Nat.forall_lt_succ_left, beq_iff_eq, hentry, hglobal]
    simp [hfirst]
    tauto

/-- After any history of calls, a scope binds a name to the variable of the first definition there;
a further definition answers with it and changes nothing. Scopes are numbered as they were opened,
and each lies in the one in which it was opened. A name is found in the nearest scope that binds it
and stands for what is bound there, and a scope is found by its name if it is the first of that name
opened in a scope. A definition changes what a name stands for where it is seen, and nowhere
else. -/
theorem History.nested_environments (h : History calls t) :
    (∀ s n, t.local? s n = calls.findSome? (Call.bound? s n)) ∧
    (∀ s n type, s < t.scopes.size →
      (t.define s n type).1 = (t.local? s n).getD ⟨n, type⟩ ∧
      (t.define s n type).2.local? s n = some (t.define s n type).1 ∧
      ((t.local? s n).isSome → (t.define s n type).2 = t)) ∧
    (∀ s n type, (t.addChild s n type).1 = (creations calls).length + 1) ∧
    t.enclosing? globalScope = none ∧
    (∀ k, t.enclosing? (k + 1) = (creations calls)[k]?.map Prod.fst) ∧
    (∀ s n w, t.definingScope? s n = some w ↔ t.Encloses w s ∧ (t.local? w n).isSome ∧
      ∀ v, t.Encloses v s → (t.local? v n).isSome → t.Encloses v w) ∧
    (∀ s n, t.resolve? s n = (t.definingScope? s n).bind (t.local? · n) ∧
      (t.resolve? s n).isSome = (t.definingScope? s n).isSome) ∧
    (∀ s c, t.childNamed? s c = ((creations calls).findIdx? (· == (s, c))).map (· + 1)) ∧
    ∀ s n type u m, s < t.scopes.size →
      (¬(n = m ∧ t.Seen s n u) → (t.define s n type).2.resolve? u m = t.resolve? u m) ∧
      (t.Seen s n u → (t.define s n type).2.resolve? u n = some ⟨n, type⟩) := by
  have hlinked := h.linked
  have hrecords := h.records
  refine ⟨hrecords.local?,
    fun s n type hs ↦ ⟨t.define_fst s n type, local?_define_fst hs, define_snd_of_isSome⟩,
    fun s n type ↦ hrecords.size, hrecords.enclosing_global, hrecords.enclosing,
    fun s n w ↦ hlinked.definingScope?_eq_some_iff,
    fun s n ↦ ⟨t.resolve?_eq_bind s n, isSome_resolve? t s n⟩, hrecords.childNamed?,
    fun s n type u m hs ↦ ⟨fun hseen ↦ ?_, fun hseen ↦ ?_⟩⟩
  · exact hlinked.resolve?_define_of_not_seen fun hn h ↦ hseen ⟨hn, h⟩
  · rw [resolve?_eq_bind, hlinked.definingScope?_define_of_seen hs hseen, Option.bind_some]
    exact local?_define_self hs (hseen.2 s .refl hseen.1)

end ScopeTree

namespace reopened

open ScopeTree

def calls : List Call :=
  [.define 0 "x" .int, .create 0 "$main" .void, .create 1 "inner" .void, .define 1 "x" .string,
    .define 1 "x" .bool, .create 0 "$main" .int]

def scopes : ScopeTree := calls.foldl Call.apply .initial

theorem history : History calls scopes := by
  have hx : History [.define 0 "x" .int] _ := History.nil.snoc (by decide)
  have hmain : History [.define 0 "x" .int, .create 0 "$main" .void] _ := hx.snoc (by decide)
  have hinner : History [.define 0 "x" .int, .create 0 "$main" .void, .create 1 "inner" .void] _ :=
    hmain.snoc (by decide)
  exact ((hinner.snoc (by decide)).snoc (by decide)).snoc (by decide)

theorem nested_environments_at :
    History calls scopes ∧ 1 < scopes.scopes.size ∧ 2 < scopes.scopes.size ∧
    scopes.local? 1 "x" = some ⟨"x", .string⟩ ∧
    scopes.define 1 "x" .bool = (⟨"x", .string⟩, scopes) ∧
    scopes.childNamed? 0 "$main" = some 1 ∧ scopes.definingScope? 2 "x" = some 1 ∧
    scopes.resolve? 2 "x" = scopes.local? 1 "x" ∧
    scopes.Seen 2 "x" 2 ∧ (scopes.define 2 "x" .int).2.resolve? 2 "x" = some ⟨"x", .int⟩ ∧
    (scopes.define 2 "x" .int).2.resolve? 1 "x" = scopes.resolve? 1 "x" := by
  obtain ⟨hlocal, hagain, -, -, -, -, hresolve, hchild, hdefine⟩ := history.nested_environments
  have hone : 1 < scopes.scopes.size := by decide
  have htwo : 2 < scopes.scopes.size := by decide
  have hx : scopes.local? 1 "x" = some ⟨"x", .string⟩ := hlocal 1 "x"
  obtain ⟨hfst, -, hsame⟩ := hagain 1 "x" .bool hone
  rw [hx, Option.getD_some] at hfst
  have hsnd : (scopes.define 1 "x" .bool).2 = scopes := hsame (by rw [hx]; rfl)
  have hnear : scopes.definingScope? 2 "x" = some 1 := by decide
  have hseen : scopes.Seen 2 "x" 2 := by
    refine ⟨.refl, fun v hv hv' ↦ ?_⟩
    rw [history.linked.encloses_antisymm hv' hv]
    exact hlocal 2 "x"
  have hhidden : ¬scopes.Seen 2 "x" 1 := by
    intro h
    exact absurd (history.linked.le_of_encloses h.1) (by decide)
  refine ⟨history, hone, htwo, hx, Prod.ext hfst hsnd, ?_, hnear, ?_, hseen,
    (hdefine 2 "x" .int 2 "x" htwo).2 hseen,
    (hdefine 2 "x" .int 1 "x" htwo).1 fun h ↦ hhidden h.2⟩
  · exact hchild 0 "$main"
  · rw [(hresolve 2 "x").1, hnear, Option.bind_some]

end reopened

end SpimCompiler
