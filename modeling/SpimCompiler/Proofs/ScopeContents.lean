import SpimCompiler.Proofs.Grammar
import SpimCompiler.Proofs.Outcomes

namespace SpimCompiler

namespace ScopeTree

variable {t t' : ScopeTree}

theorem Extends.chain_eq (h : t.Extends t') (u : ScopeId) : t'.chain u = t.chain u := by
  simp only [chain, h.outerOf]

theorem Extends.qualifiedName_eq (h : t.Extends t') (u : ScopeId) :
    t'.qualifiedName u = t.qualifiedName u := by
  simp only [qualifiedName, h.chain_eq, enclosing?, h.outerOf, h.nameOf]

theorem chain_withMain : withMain.chain mainScope = [mainScope, globalScope] := by
  decide

theorem qualifiedName_withMain : withMain.qualifiedName mainScope = "main" := by
  decide

theorem qualifiedName_forMain (main : Tree) :
    (forMain main).qualifiedName globalScope = "" := by
  unfold forMain
  split <;> decide

theorem local?_forMain (main : Tree) (u : ScopeId) (x : String) :
    (forMain main).local? u x = none := by
  have hinit : initial.local? u x = none := by cases u <;> rfl
  unfold forMain withMain
  split
  · rw [local?_addChild, hinit]
  · exact hinit

end ScopeTree

open ScopeTree

/-- Trees without a block bind nothing but in the scope in which they stand. -/
theorem Typing.Judged.local?_of_flat {phrase : NodeId → String} {ts : List Tree} {s s' : Typing}
    (h : Judged phrase ts s s') (hts : ∀ t ∈ ts, t.Flat) {u : ScopeId} (hu : u ≠ s.current)
    (x : String) : s'.scopes.local? u x = s.scopes.local? u x := by
  induction h with
  | nil => rfl
  | skip _ _ ih => exact ih (fun t ht ↦ hts t (List.mem_cons_of_mem _ ht)) hu
  | @cons s s₁ s' i n ts hk hc _ ihc iht =>
    have hflat := hts _ List.mem_cons_self
    have hscope : n.innerScope s.current = s.current := if_neg hflat.kind_ne
    have hcur : s₁.current = s.current := hc.grows.current.trans hscope
    have hchildren : s₁.scopes.local? u x = s.scopes.local? u x :=
      ihc (fun c hm ↦ hflat.child hk hm) (by rw [hscope]; exact hu)
    rw [iht (fun t ht ↦ hts t (List.mem_cons_of_mem _ ht)) hu, ← hchildren]
    cases hb : (s₁.verdict phrase (n.map Tree.id)).binding with
    | none => simp [give, inScope, hb]
    | some y => simp [give, inScope, hb, local?_define, hcur, Ne.symm hu]

theorem Arena.Holds.every_kind_ne {a : Arena} (ha : a.IsForest) {t : Tree} (ht : a.Holds t)
    (hk : t.node.kind ≠ .program) : t.Every fun n ↦ n.kind ≠ .program := by
  induction t with
  | mk i n ih => exact .mk hk fun c hc ↦ ih c hc (ht.child hc) (ht.kind_child ha hc).1

end SpimCompiler
