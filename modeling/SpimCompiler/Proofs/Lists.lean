import Mathlib.Data.List.Forall2

namespace List

theorem Forall₂.exists_of_mem_right {α β : Type} {R : α → β → Prop} {xs : List α} {ys : List β}
    (h : Forall₂ R xs ys) {y : β} (hy : y ∈ ys) : ∃ x ∈ xs, R x y := by
  induction h with
  | nil => cases hy
  | cons hxy _ ih =>
    rcases mem_cons.1 hy with rfl | hy
    · exact ⟨_, mem_cons_self, hxy⟩
    · obtain ⟨x, hx, hxy⟩ := ih hy
      exact ⟨x, mem_cons_of_mem _ hx, hxy⟩

theorem exists_mapM_eq_some {α β γ : Type} {R : β → γ → Prop} {g : α → Option γ} {xs : List α}
    {ys : List β} (hl : xs.length = ys.length)
    (h : ∀ p ∈ xs.zip ys, ∃ z, g p.1 = some z ∧ R p.2 z) :
    ∃ zs, xs.mapM g = some zs ∧ Forall₂ R ys zs := by
  induction xs generalizing ys with
  | nil =>
    obtain rfl := eq_nil_of_length_eq_zero hl.symm
    exact ⟨[], rfl, .nil⟩
  | cons x xs ih =>
    obtain ⟨y, ys, rfl⟩ := exists_cons_of_length_eq_add_one hl.symm
    obtain ⟨⟨z, hz, hyz⟩, hxs⟩ := forall_mem_cons.1 h
    obtain ⟨zs, hzs, hyzs⟩ := ih (Nat.succ.inj hl) hxs
    exact ⟨z :: zs, by simp [mapM_cons, hz, hzs], .cons hyz hyzs⟩

theorem exists_mapM_eq_ok {α β ε : Type} {f : α → Except ε β} {xs : List α}
    (h : ∀ x ∈ xs, ∃ y, f x = .ok y) : ∃ ys, xs.mapM f = .ok ys := by
  induction xs with
  | nil => exact ⟨[], rfl⟩
  | cons x xs ih =>
    obtain ⟨⟨y, hy⟩, hxs⟩ := forall_mem_cons.1 h
    obtain ⟨ys, hys⟩ := ih hxs
    exact ⟨y :: ys, by rw [mapM_cons, hy, hys]; rfl⟩

theorem mapM_congr_of_mem {α β ε : Type} {f g : α → Except ε β} {xs : List α}
    (h : ∀ x ∈ xs, f x = g x) : xs.mapM f = xs.mapM g := by
  induction xs with
  | nil => rfl
  | cons x xs ih =>
    rw [mapM_cons, mapM_cons, h x mem_cons_self, ih fun y hy ↦ h y (mem_cons_of_mem x hy)]

theorem eraseDups_concat {α : Type} [BEq α] [LawfulBEq α] (xs : List α) (x : α) :
    (xs ++ [x]).eraseDups = xs.eraseDups ++ if x ∈ xs then [] else [x] := by
  rw [eraseDups_append, removeAll]
  by_cases hx : x ∈ xs <;> simp [hx, eraseDups_cons]

end List
