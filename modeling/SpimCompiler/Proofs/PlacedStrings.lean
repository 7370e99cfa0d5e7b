import SpimCompiler.Proofs.Concatenation
import SpimCompiler.Proofs.StackDiscipline

namespace SpimCompiler.Mips

variable {m : Image} {labels : List String} {s₀ s t : State} {p q : Place} {bytes : List UInt8}
  {v : Value} {W : Place → Prop} {top : Int}

namespace State

structure Spares (s t : State) : Prop where
  brk : s.brk ≤ t.brk
  memory (q : Place) : q.region = .data ∨ q.region = .heap ∧ q.offset < s.brk →
    t.memory q = s.memory q

theorem Spares.of_eq (hbrk : t.brk = s.brk) (hm : t.memory = s.memory) : s.Spares t :=
  ⟨Nat.le_of_eq hbrk.symm, fun q _ ↦ congrFun hm q⟩

theorem Frame.spares (h : s.Frame (fun _ ↦ False) t) : s.Spares t := by
  refine ⟨h.brk, fun q hq ↦ ?_⟩
  by_contra hne
  rcases h.memory q hne with hf | ⟨hr, -⟩ | ⟨hr, hle, -⟩
  · exact hf
  · simp [hr] at hq
  · simp only [hr, reduceCtorEq, true_and, false_or] at hq
    omega

theorem Pushed.spares (h : s.Pushed m t top) : s.Spares t := by
  refine ⟨Nat.le_of_eq h.brk.symm, fun q hq ↦ ?_⟩
  by_contra hne
  obtain ⟨hr, -⟩ := h.memory q hne
  simp [hr] at hq

theorem Popped.spares (h : s.Popped m t top) : s.Spares t := .of_eq h.brk h.memory

theorem StringAt.spares (h : s.StringAt m p bytes) (hp : p.region ≠ .stack) (hs : s.Spares t) :
    t.StringAt m p bytes := by
  refine h.of_memory hs.brk fun k hk ↦ hs.memory _ ?_
  have hmapped := mapped_iff.1 (h.mapped k hk)
  cases hr : p.region with
  | data => exact .inl hr
  | heap =>
    simp only [Place.shift_region, hr] at hmapped
    exact .inr ⟨hr, hmapped.2⟩
  | stack => exact absurd hr hp

def cell? (m : Image) (s : State) (label : String) : Option Value :=
  (m.place? label).bind (s.loadWord m)

theorem Spares.cell?_eq (h : s.Spares t) (label : String) : t.cell? m label = s.cell? m label := by
  unfold cell?
  cases hp : m.place? label with
  | none => rfl
  | some p =>
    have hr := Image.region_of_place? hp
    exact loadWord_congr (by simp [hr]) fun k _ ↦ h.memory _ (.inl hr)

end State

/-- In a run from `s₀` the program has put a string at the place: it is the constant with one of the
labels, or a buffer of just its size that was asked for on the way. -/
inductive Image.Placed (m : Image) (labels : List String) (s₀ s : State) (p : Place)
    (bytes : List UInt8) : Prop
  | constant {x : String} : x ∈ labels → m.place? x = some p → s₀.string? m p = some bytes →
      s.string? m p = some bytes → Placed m labels s₀ s p bytes
  | buffer {u u' : State} : m.Steps s₀ u → m.Requests u (bytes.length + 1) →
      m.step u = some u' → u'.brk = u.brk + (bytes.length + 1) → m.Steps u' s →
      p = ⟨.heap, u.brk⟩ → s.string? m p = some bytes → Placed m labels s₀ s p bytes

def Image.Refers (m : Image) (labels : List String) (s₀ s : State) (v : Value) : Prop :=
  ∃ p bytes, v = .address p ∧ m.Placed labels s₀ s p bytes

namespace Image

theorem Placed.stringAt (h : m.Placed labels s₀ s p bytes) : s.StringAt m p bytes := by
  cases h with
  | constant _ _ _ hs | buffer _ _ _ _ _ _ hs => exact State.string?_eq_some_iff.1 hs

theorem Placed.region_ne (h : m.Placed labels s₀ s p bytes) : p.region ≠ .stack := by
  cases h with
  | constant _ hp => simp [region_of_place? hp]
  | buffer _ _ _ _ _ hp => simp [hp]

theorem Placed.later (h : m.Placed labels s₀ s p bytes) (hst : m.Steps s t)
    (ht : t.StringAt m p bytes) : m.Placed labels s₀ t p bytes := by
  have ht := State.string?_eq_some_iff.2 ht
  cases h with
  | constant hx hp hs₀ => exact .constant hx hp hs₀ ht
  | buffer hu hn hs hbrk hus hp => exact .buffer hu hn hs hbrk (hus.trans hst) hp ht

theorem Placed.spares (h : m.Placed labels s₀ s p bytes) (hst : m.Steps s t) (hs : s.Spares t) :
    m.Placed labels s₀ t p bytes :=
  h.later hst (h.stringAt.spares h.region_ne hs)

theorem Placed.mono {labels' : List String} (h : m.Placed labels s₀ s p bytes)
    (hl : labels ⊆ labels') : m.Placed labels' s₀ s p bytes := by
  cases h with
  | constant hx hp hs₀ hs => exact .constant (hl hx) hp hs₀ hs
  | buffer hu hn hs hbrk hus hp hstr => exact .buffer hu hn hs hbrk hus hp hstr

theorem Refers.spares (h : m.Refers labels s₀ s v) (hst : m.Steps s t) (hs : s.Spares t) :
    m.Refers labels s₀ t v := by
  obtain ⟨p, bytes, hv, hp⟩ := h
  exact ⟨p, bytes, hv, hp.spares hst hs⟩

theorem Refers.mono {labels' : List String} (h : m.Refers labels s₀ s v) (hl : labels ⊆ labels') :
    m.Refers labels' s₀ s v := by
  obtain ⟨p, bytes, hv, hp⟩ := h
  exact ⟨p, bytes, hv, hp.mono hl⟩

end Image

/-- A zero among some bytes ends a string at their beginning. -/
theorem exists_string {data : List UInt8} {n : Nat} (h : data[n]? = some 0) :
    ∃ bytes, 0 ∉ bytes ∧ bytes.length ≤ n ∧
      ∀ j ≤ bytes.length, data[j]? = some ((bytes ++ [0]).getD j 0) := by
  induction data generalizing n with
  | nil => simp at h
  | cons b data ih =>
    by_cases hb : b = 0
    · exact ⟨[], by simp, by simp, by simp [hb]⟩
    · cases n with
      | zero => exact absurd (by simpa using h) hb
      | succ n =>
        obtain ⟨bytes, hzero, hlen, hget⟩ := ih (by simpa using h)
        refine ⟨b :: bytes, by simp [hzero, Ne.symm hb], by simpa using hlen, fun j hj ↦ ?_⟩
        cases j with
        | zero => simp
        | succ j => simpa using hget j (by simpa using hj)

section constants

variable {assembly : Assembly} {code : Fragment} {x : String}

theorem Image.Starts.memory_data (h : m.Starts s₀) {k : Nat} {b : UInt8}
    (hk : m.data[k]? = some b) :
    s₀.memory ⟨.data, k⟩ = .number b := by
  obtain ⟨hlt, -⟩ := List.getElem?_eq_some_iff.1 hk
  rw [h.data k hlt, List.getD_eq_getElem?_getD, hk, Option.getD_some]

namespace Image.Carries

theorem exists_constant (hm : m.Carries assembly code) (hs₀ : m.Starts s₀)
    (hx : x ∈ assembly.strings) :
    ∃ p bytes, m.place? x = some p ∧ s₀.string? m p = some bytes := by
  obtain ⟨k, n, hk, hn, -⟩ := hm.string x hx
  obtain ⟨hlt, -⟩ := List.getElem?_eq_some_iff.1 hn
  have hdrop : (m.data.drop k)[n]? = some 0 := by simpa using hn
  obtain ⟨bytes, hzero, hlen, hget⟩ := exists_string hdrop
  refine ⟨⟨.data, k⟩, bytes, by simp [Image.place?, hk],
    State.string?_eq_some_iff.2 ⟨hzero, ?_, ?_⟩⟩
  · intro j hj
    refine State.mapped_iff.2 ?_
    simp only [Place.shift_region, Place.shift_offset]
    omega
  · intro j hj
    exact hs₀.memory_data (k := k + j) (by simpa using hget j hj)

theorem not_cellByte (hm : m.Carries assembly code) (hs₀ : m.Starts s₀)
    (hx : x ∈ assembly.strings) (hp : m.place? x = some p) (hs : s₀.string? m p = some bytes)
    {j : Nat} (hj : j ≤ bytes.length) :
    ¬m.CellByte (assembly.cells.toList.map Cell.label) (p.shift j) := by
  rintro ⟨y, hy, c, hc, -, hle, hlt⟩
  obtain ⟨d, hd, rfl⟩ := List.mem_map.1 hy
  obtain ⟨k, n, hk, hn, hdisjoint⟩ := hm.string x hx
  obtain ⟨i, hi⟩ := hm.cell d (Array.mem_toList_iff.1 hd)
  obtain rfl : p = ⟨.data, k⟩ := by simpa [Image.place?, hk, eq_comm] using hp
  obtain rfl : c = ⟨.data, i⟩ := by simpa [Image.place?, hi.lookup, eq_comm] using hc
  have hstring := State.string?_eq_some_iff.1 hs
  have hlen : bytes.length ≤ n := by
    by_contra hgt
    have hb := hstring.memory n (by omega)
    have hz : s₀.memory ⟨.data, k + n⟩ = .number 0 := hs₀.memory_data (k := k + n) hn
    have hshift : (⟨.data, k⟩ : Place).shift n = ⟨.data, k + n⟩ := rfl
    rw [hshift, hz, List.getD_eq_getElem?_getD, List.getElem?_append_left (by omega)] at hb
    refine hstring.nonzero ?_
    have hget : bytes[n]? = some 0 := by
      rw [List.getElem?_eq_getElem (by omega)] at hb ⊢
      simpa using hb.symm
    exact List.mem_of_getElem? hget
  have hfar := hdisjoint d (Array.mem_toList_iff.1 hd) i hi
  simp only [Place.shift_offset] at hle hlt
  omega

theorem placed_store (hm : m.Carries assembly code) (hs₀ : m.Starts s₀)
    (hl : labels ⊆ assembly.strings) (h : m.Placed labels s₀ s p bytes)
    (hx : x ∈ assembly.cells.toList.map Cell.label) {c : Place} (hc : m.place? x = some c)
    (ht : t.memory = s.putWord c v) (hbrk : t.brk = s.brk) (hst : m.Steps s t) :
    m.Placed labels s₀ t p bytes := by
  refine h.later hst (h.stringAt.of_memory (Nat.le_of_eq hbrk.symm) fun k hk ↦ ?_)
  rw [ht]
  refine State.putWord_of_disjoint fun hr ↦ ?_
  cases h with
  | constant hy hp hstart _ =>
    by_contra hin
    exact hm.not_cellByte hs₀ (hl hy) hp hstart hk ⟨x, hx, c, hc, hr, by omega, by omega⟩
  | buffer _ _ _ _ _ hp _ =>
    rw [region_of_place? hc, hp] at hr
    cases hr

theorem cell?_store_self {c : Place} (hc : m.place? x = some c) (hmapped : t.wordMapped m c)
    (ht : t.memory = s.putWord c v) : t.cell? m x = some v := by
  rw [State.cell?, hc, Option.bind_some]
  exact State.loadWord_putWord hmapped ht

theorem cell?_store_of_ne (hm : m.Carries assembly code) {y : String}
    (hx : x ∈ assembly.cells.toList.map Cell.label) (hy : y ∈ assembly.cells.toList.map Cell.label)
    (hxy : y ≠ x) {c : Place} (hc : m.place? x = some c) (ht : t.memory = s.putWord c v) :
    t.cell? m y = s.cell? m y := by
  obtain ⟨d, hd, rfl⟩ := List.mem_map.1 hx
  obtain ⟨e, he, rfl⟩ := List.mem_map.1 hy
  obtain ⟨i, hi⟩ := hm.cell d (Array.mem_toList_iff.1 hd)
  obtain ⟨j, hj⟩ := hm.cell e (Array.mem_toList_iff.1 he)
  obtain rfl : c = ⟨.data, i⟩ := by simpa [Image.place?, hi.lookup, eq_comm] using hc
  have hplace : m.place? e.label = some ⟨.data, j⟩ := by simp [Image.place?, hj.lookup]
  have hne : j ≠ i := by
    rintro rfl
    exact hxy (hm.distinct e (Array.mem_toList_iff.1 he) d (Array.mem_toList_iff.1 hd)
      (hj.lookup.trans hi.lookup.symm))
  have hi4 := hi.aligned
  have hj4 := hj.aligned
  rw [State.cell?, State.cell?, hplace, Option.bind_some, Option.bind_some]
  refine State.loadWord_congr (by simp) fun k hk ↦ ?_
  rw [ht]
  refine State.putWord_of_disjoint fun _ ↦ ?_
  simp only [Place.shift_offset]
  omega

theorem cell?_start (hm : m.Carries assembly code) (hs₀ : m.Starts s₀)
    (hx : x ∈ assembly.cells.toList.map Cell.label) : s₀.cell? m x = some (.word 0) := by
  obtain ⟨d, hd, rfl⟩ := List.mem_map.1 hx
  obtain ⟨i, hi⟩ := hm.cell d (Array.mem_toList_iff.1 hd)
  have hplace : m.place? d.label = some ⟨.data, i⟩ := by simp [Image.place?, hi.lookup]
  rw [State.cell?, hplace, Option.bind_some, hi.loadWord_start hs₀]

end Image.Carries

end constants

end SpimCompiler.Mips
