import Mathlib.Data.List.Forall2
import SpimCompiler.Proofs.CodeShape
import SpimCompiler.Proofs.Lists

namespace SpimCompiler.Mips

/-- A request for the cell of a variable of a scope. The scope trees of two requests may differ. -/
structure Request where
  scopes : ScopeTree
  scope : ScopeId
  name : String
deriving DecidableEq, Repr

def Request.key (r : Request) : String × String := (r.scopes.qualifiedName r.scope, r.name)

namespace Storage

variable {s : Storage} {keys : List (String × String)} {k : String × String} {i : Nat}
  {scope x : String}

def serve (s : Storage) : List Request → List String × Storage
  | [] => ([], s)
  | r :: rs =>
    let (label, s) := s.allocate (r.scopes.qualifiedName r.scope) r.name
    let (labels, s) := s.serve rs
    (label :: labels, s)

/-- The cells are those of the variables that were asked for, in the order of the first requests. -/
structure Lists (keys : List (String × String)) (s : Storage) : Prop where
  serves : s.Serves fun scope x ↦ (scope, x) ∈ keys
  keys_eq : s.cells.toList.map Cell.key = keys.eraseDups

theorem Lists.nil : Lists [] {} := ⟨⟨by simp, by simp⟩, rfl⟩

theorem Lists.isSome_find?_iff (h : s.Lists keys) :
    (s.find? scope x).isSome ↔ (scope, x) ∈ keys := by
  rw [← List.mem_eraseDups, ← h.keys_eq, find?_eq, Array.find?_isSome]
  simp

theorem Lists.getElem?_index_eq_some_iff (h : s.Lists keys) :
    s.index[k]? = some i ↔ s.cells[i]?.map Cell.key = some k := by
  rw [s.getElem?_index, Array.findIdx?_eq_some_iff_getElem]
  constructor
  · rintro ⟨hi, hk, -⟩
    simpa [hi] using hk
  · intro hk
    obtain ⟨c, hc, rfl⟩ := Option.map_eq_some_iff.1 hk
    obtain ⟨hi, rfl⟩ := Array.getElem?_eq_some_iff.1 hc
    refine ⟨hi, beq_self_eq_true _, fun j hj he ↦ ?_⟩
    have hne := List.pairwise_iff_getElem.1 h.serves.nodup j i
      (by simpa using Nat.lt_trans hj hi) (by simpa using hi) hj
    simp only [List.getElem_map, Array.getElem_toList] at hne
    exact hne (beq_iff_eq.1 he)

/-- The answer to a request is the label of the variable's cell. A first request adds the cell
behind all others, and a repeated one changes nothing. -/
theorem Lists.allocate (h : s.Lists keys) (scope x : String) :
    (s.allocate scope x).1 = Cell.labelFor scope x ∧
      (s.allocate scope x).2.Lists (keys ++ [(scope, x)]) ∧
      s.cells.toList <+: (s.allocate scope x).2.cells.toList ∧
      ((scope, x) ∈ keys → (s.allocate scope x).2 = s) := by
  -- the variable is added to those that may have cells before it is asked for
  have hmore : s.Serves fun scope' x' ↦ (scope', x') ∈ keys ++ [(scope, x)] :=
    ⟨fun c hc ↦ ⟨(h.serves.cell c hc).1, List.mem_append_left _ (h.serves.cell c hc).2⟩,
      h.serves.nodup⟩
  obtain ⟨hlabel, hserves, -⟩ := hmore.allocate (List.mem_append_right keys List.mem_cons_self)
  have hkeys := List.eraseDups_concat keys (scope, x)
  simp only [← h.isSome_find?_iff, ← h.keys_eq] at hkeys ⊢
  cases hf : s.find? scope x with
  | some c =>
    rw [allocate_of_find? s scope x hf] at hlabel hserves ⊢
    exact ⟨hlabel, ⟨hserves, by simp [hkeys, hf]⟩, List.prefix_rfl, fun _ ↦ rfl⟩
  | none =>
    rw [allocate_of_find?_none s scope x hf] at hlabel hserves ⊢
    refine ⟨hlabel, ⟨hserves, ?_⟩, ?_, by simp⟩
    · simp [hkeys, hf, Cell.key, Cell.of]
    · rw [toList_cells_push]
      exact List.prefix_append ..

theorem Lists.serve (h : s.Lists keys) (rs : List Request) :
    (s.serve rs).1 = rs.map (fun r ↦ Cell.labelFor r.key.1 r.key.2) ∧
      (s.serve rs).2.Lists (keys ++ rs.map Request.key) ∧
      s.cells.toList <+: (s.serve rs).2.cells.toList := by
  induction rs generalizing s keys with
  | nil =>
    rw [List.map_nil, List.map_nil, List.append_nil]
    exact ⟨rfl, h, List.prefix_rfl⟩
  | cons r rs ih =>
    obtain ⟨hlabel, hlists, hprefix, -⟩ := h.allocate r.key.1 r.key.2
    obtain ⟨hlabels, hrest, hprefix'⟩ := ih hlists
    rw [List.append_assoc] at hrest
    exact ⟨congrArg₂ List.cons hlabel hlabels, hrest, hprefix.trans hprefix'⟩

theorem serve_append (s : Storage) (rs rs' : List Request) :
    s.serve (rs ++ rs') =
      ((s.serve rs).1 ++ ((s.serve rs).2.serve rs').1, ((s.serve rs).2.serve rs').2) := by
  induction rs generalizing s with
  | nil => rfl
  | cons r rs ih => simp [serve, ih]

theorem Lists.getElem?_index_mono (h : s.Lists keys) {s' : Storage} {keys' : List (String × String)}
    (h' : s'.Lists keys') (hcells : s.cells.toList <+: s'.cells.toList)
    (hk : s.index[k]? = some i) : s'.index[k]? = some i := by
  rw [h.getElem?_index_eq_some_iff] at hk
  rw [h'.getElem?_index_eq_some_iff]
  obtain ⟨c, hc, rfl⟩ := Option.map_eq_some_iff.1 hk
  obtain ⟨cells, hcells⟩ := hcells
  rw [← Array.getElem?_toList] at hc ⊢
  rw [← hcells, List.getElem?_append_left (List.getElem?_eq_some_iff.1 hc).1, hc, Option.map_some]

theorem Lists.exists_cell (h : s.Lists keys) (hk : (scope, x) ∈ keys) :
    ∃ i, s.index[(scope, x)]? = some i ∧ s.cells[i]? = some (Cell.of scope x) := by
  rw [← List.mem_eraseDups, ← h.keys_eq] at hk
  obtain ⟨c, hc, he⟩ := List.mem_map.1 hk
  obtain ⟨i, hi⟩ := List.mem_iff_getElem?.1 hc
  obtain ⟨rfl, rfl⟩ := Prod.mk.inj he
  rw [Array.getElem?_toList] at hi
  refine ⟨i, h.getElem?_index_eq_some_iff.2 (by rw [hi]; rfl), ?_⟩
  rw [hi, ← (h.serves.cell c hc).1]

/-- After any history of requests the cells are those of the variables that were asked for, each
once and in the order of the first requests, and the index leads from a variable to the position of
its cell. Every answer is the label at the position of the variable. Positions do not change with
further requests. A repeated request is answered as before and changes nothing. -/
theorem serve_consistent (rs : List Request) :
    ∃ labels s, serve {} rs = (labels, s) ∧
      s.cells.toList.map Cell.key = (rs.map Request.key).eraseDups ∧
      (s.cells.toList.map Cell.key).Nodup ∧
      (∀ (k : String × String) i, s.index[k]? = some i ↔ s.cells[i]?.map Cell.key = some k) ∧
      List.Forall₂ (fun r label ↦ ∃ i c, s.index[r.key]? = some i ∧ s.cells[i]? = some c ∧
        c = Cell.of r.key.1 r.key.2 ∧ c.label = label) rs labels ∧
      (∀ more, ∃ labels' s', serve {} (rs ++ more) = (labels ++ labels', s') ∧
        s.cells.toList <+: s'.cells.toList ∧
        ∀ (k : String × String) i, s.index[k]? = some i → s'.index[k]? = some i) ∧
      ∀ r label, (r, label) ∈ rs.zip labels →
        s.allocate (r.scopes.qualifiedName r.scope) r.name = (label, s) := by
  obtain ⟨hlabels, hlists, -⟩ := Lists.nil.serve rs
  refine ⟨_, _, rfl, hlists.keys_eq, hlists.serves.nodup,
    fun k i ↦ hlists.getElem?_index_eq_some_iff, ?_, fun more ↦ ?_, fun r label hr ↦ ?_⟩
  · rw [hlabels, List.forall₂_map_right_iff, List.forall₂_same]
    intro r hr
    obtain ⟨i, hi, hc⟩ := hlists.exists_cell (List.mem_map_of_mem hr)
    exact ⟨i, _, hi, hc, rfl, rfl⟩
  · obtain ⟨-, hlists', hprefix⟩ := hlists.serve more
    exact ⟨_, _, serve_append {} rs more, hprefix,
      fun k i ↦ hlists.getElem?_index_mono hlists' hprefix⟩
  · obtain ⟨hlabel, -, -, hsame⟩ := hlists.allocate r.key.1 r.key.2
    rw [hlabels, ← List.map_prod_left_eq_zip, List.mem_map] at hr
    obtain ⟨r', hr', he⟩ := hr
    obtain ⟨rfl, rfl⟩ := Prod.mk.inj he
    exact Prod.ext hlabel (hsame (List.mem_map_of_mem hr'))

end Storage

namespace asked

open ScopeTree

def requests : List Request :=
  [⟨withMain, mainScope, "x"⟩, ⟨withMain, mainScope, "y"⟩, ⟨initial, globalScope, "x"⟩,
    ⟨withMain, mainScope, "x"⟩]

theorem serve_consistent_at :
    ∃ labels s, Storage.serve {} requests = (labels, s) ∧
      labels = ["var_main_x", "var_main_y", "var_x", "var_main_x"] ∧
      s.cells.toList.map Cell.key = [("main", "x"), ("main", "y"), ("", "x")] ∧
      s.index[("", "x")]? = some 2 ∧
      (⟨initial, globalScope, "x"⟩, "var_x") ∈ requests.zip labels ∧
      s.allocate (initial.qualifiedName globalScope) "x" = ("var_x", s) := by
  obtain ⟨labels, s, hs, hkeys, -, hindex, -, -, hagain⟩ := Storage.serve_consistent requests
  have hlabels : labels = ["var_main_x", "var_main_y", "var_x", "var_main_x"] := by
    have h := congrArg Prod.fst hs
    exact h.symm.trans (by decide +kernel)
  have hkeys' : s.cells.toList.map Cell.key = [("main", "x"), ("main", "y"), ("", "x")] :=
    hkeys.trans (by decide +kernel)
  have hmem : (⟨initial, globalScope, "x"⟩, "var_x") ∈ requests.zip labels := by
    simp [hlabels, requests]
  have hposition : s.index[("", "x")]? = some 2 := by
    rw [hindex, ← Array.getElem?_toList, ← List.getElem?_map, hkeys']
    rfl
  have hsame := hagain _ _ hmem
  exact ⟨labels, s, hs, hlabels, hkeys', hposition, hmem, hsame⟩

end asked

end SpimCompiler.Mips
