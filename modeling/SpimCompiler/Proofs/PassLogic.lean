import Mathlib.Tactic.Common
import SpimCompiler.Pass

namespace SpimCompiler.Pass

variable {σ τ α β : Type}

/-- From `run` the pass ends without a fault, with an answer and a last run that satisfy `Q`. -/
def Ends (p : Pass σ α) (run : Run σ) (Q : α → Run σ → Prop) : Prop :=
  match p run with
  | .ok a r => Q a r
  | .error _ _ => False

variable {p : Pass σ α} {run : Run σ} {Q R : α → Run σ → Prop}

theorem ends_iff : p.Ends run Q ↔ ∃ a r, p run = .ok a r ∧ Q a r := by
  unfold Ends
  cases p run <;> simp

theorem Ends.mono (h : p.Ends run R) (hq : ∀ a r, R a r → Q a r) : p.Ends run Q := by
  obtain ⟨a, r, hp, hr⟩ := ends_iff.1 h
  exact ends_iff.2 ⟨a, r, hp, hq a r hr⟩

@[simp]
theorem ends_pure (a : α) : (pure a : Pass σ α).Ends run Q ↔ Q a run := .rfl

@[simp]
theorem ends_bind (p : Pass σ β) (f : β → Pass σ α) :
    Ends (p >>= f) run Q ↔ p.Ends run fun b r ↦ (f b).Ends r Q := by
  unfold Ends
  simp only [bind, EStateM.bind]
  cases p run <;> rfl

@[simp]
theorem ends_map (p : Pass σ β) (f : β → α) :
    Ends (f <$> p) run Q ↔ p.Ends run fun b r ↦ Q (f b) r := by
  unfold Ends
  simp only [Functor.map, EStateM.map]
  cases p run <;> rfl

@[simp]
theorem ends_log (r : Record) {Q : Unit → Run σ → Prop} :
    Ends (log r) run Q ↔ Q () ⟨run.state, run.trace.push r⟩ := .rfl

@[simp]
theorem ends_state {Q : σ → Run σ → Prop} : Ends state run Q ↔ Q run.state run := .rfl

@[simp]
theorem ends_update (f : σ → σ) {Q : Unit → Run σ → Prop} :
    Ends (update f) run Q ↔ Q () ⟨f run.state, run.trace⟩ := .rfl

@[simp]
theorem ends_ofExcept (x : Except Fault α) :
    Ends (ofExcept x) run Q ↔ ∃ a, x = .ok a ∧ Q a run := by
  cases x with
  | error e => simp [Ends]
  | ok a => simp [Ends]

@[simp]
theorem ends_ofOption (e : Fault) (x : Option α) :
    Ends (ofOption e x) run Q ↔ ∃ a, x = some a ∧ Q a run := by
  cases x <;> simp [Ends]

@[simp]
theorem ends_inside (s : τ) (p : Pass τ β) {Q : β × τ → Run σ → Prop} :
    Ends (inside s p) run Q ↔
      p.Ends ⟨s, run.trace⟩ fun b r ↦ Q (b, r.state) ⟨run.state, r.trace⟩ := by
  unfold Ends inside
  cases p ⟨s, run.trace⟩ <;> rfl

@[simp]
theorem ends_forM_nil (f : β → Pass σ Unit) {Q : Unit → Run σ → Prop} :
    Ends ([].forM f) run Q ↔ Q () run := .rfl

@[simp]
theorem ends_forM_cons (f : β → Pass σ Unit) (b : β) (bs : List β) {Q : Unit → Run σ → Prop} :
    Ends ((b :: bs).forM f) run Q ↔ (f b).Ends run fun _ r ↦ Ends (bs.forM f) r Q :=
  ends_bind (f b) fun _ ↦ bs.forM f

theorem ends_forM_append (f : β → Pass σ Unit) (bs cs : List β) {Q : Unit → Run σ → Prop} :
    Ends ((bs ++ cs).forM f) run Q ↔
      Ends (bs.forM f) run fun _ r ↦ Ends (cs.forM f) r Q := by
  rw [List.forM_eq_forM, List.forM_append, ends_bind]

theorem ends_forM {f : β → Pass σ Unit} {bs : List β} (I : List β → Run σ → Prop)
    (h₀ : I [] run)
    (h : ∀ done b rest r, bs = done ++ b :: rest → I done r →
      (f b).Ends r fun _ r' ↦ I (done ++ [b]) r') :
    Ends (bs.forM f) run fun _ r ↦ I bs r := by
  suffices hs : ∀ rest done r, bs = done ++ rest → I done r →
      Ends (rest.forM f) r fun _ r' ↦ I bs r' from hs bs [] run rfl h₀
  intro rest
  induction rest with
  | nil =>
    intro done r hb hr
    simpa [hb] using hr
  | cons b rest ih =>
    intro done r hb hr
    rw [ends_forM_cons]
    exact (h done b rest r hb hr).mono fun _ r' hr' ↦ ih (done ++ [b]) r' (by simpa using hb) hr'

@[simp]
theorem ends_option_forM_none (f : β → Pass σ Unit) {Q : Unit → Run σ → Prop} :
    Ends ((none : Option β).forM f) run Q ↔ Q () run := .rfl

@[simp]
theorem ends_option_forM_some (f : β → Pass σ Unit) (b : β) {Q : Unit → Run σ → Prop} :
    Ends ((some b).forM f) run Q ↔ (f b).Ends run Q := .rfl

theorem forM_congr {f g : β → Pass σ Unit} {bs : List β} (h : ∀ b ∈ bs, f b = g b) :
    bs.forM f = bs.forM g := by
  induction bs with
  | nil => rfl
  | cons b bs ih =>
    have hb := h b List.mem_cons_self
    have hbs := ih fun c hc ↦ h c (List.mem_cons_of_mem b hc)
    exact congrArg₂ (fun x y ↦ x >>= fun _ ↦ y) hb hbs

theorem Ends.outcome {p : Pass Unit α} {Q : α → Run Unit → Prop} (h : p.Ends ⟨(), #[]⟩ Q) :
    ∃ a r, p.outcome.result = .ok a ∧ Q a r := by
  obtain ⟨a, r, hp, hq⟩ := ends_iff.1 h
  exact ⟨a, r, by simp [Pass.outcome, hp], hq⟩

end SpimCompiler.Pass
