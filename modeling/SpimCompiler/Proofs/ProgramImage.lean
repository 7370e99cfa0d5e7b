import SpimCompiler.Proofs.CodePlacement
import SpimCompiler.Proofs.Confinement
import SpimCompiler.Proofs.Preservation

namespace SpimCompiler

open Mips ScopeTree

def Assembly.strings (assembly : Assembly) : List String :=
  ["bool_true", "bool_false"] ++ assembly.pool.entries.toList.map Constant.label

/-- The image is that of a program: the code is found at the label `main`, each cell is a word of
zeros in a place of its own, and each string ends with a zero byte before or behind every cell. How
the characters of a string are stored is left open. -/
structure Mips.Image.Carries (m : Image) (assembly : Assembly) (code : Fragment) : Prop where
  code : ∃ pc pc', m.target? "main" = some pc ∧
    CodeAt m pc (code ++ Template.call Service.exit.code) pc'
  cell : ∀ c ∈ assembly.cells, ∃ k, m.HasCell c.label k
  distinct : ∀ c ∈ assembly.cells, ∀ d ∈ assembly.cells,
    m.symbols.lookup c.label = m.symbols.lookup d.label → c.label = d.label
  string : ∀ x ∈ assembly.strings, ∃ k n, m.symbols.lookup x = some (.data k) ∧
    m.data[k + n]? = some 0 ∧
    ∀ c ∈ assembly.cells, ∀ j, m.HasCell c.label j → j + 4 ≤ k ∨ k + n < j

namespace Mips

namespace Loader

variable {l l' : Loader} {f g : Fragment}

theorem addAll_append_eq (l : Loader) (f g : Fragment) :
    l.addAll (f ++ g) = (l.addAll f).bind fun l' ↦ l'.addAll g := by
  simp [addAll, Option.bind_eq_bind]

theorem define_eq_some {m m' : Image} {name : String} {location : Location}
    (h : m.define name location = some m') :
    name ∉ m.names ∧ m' = m.addSymbol name location := by
  unfold Image.define at h
  split_ifs at h with hs
  refine ⟨fun hmem ↦ hs ?_, (Option.some.inj h).symm⟩
  obtain ⟨⟨x, loc⟩, hx, rfl⟩ := List.mem_map.1 hmem
  rw [Option.isSome_iff_ne_none, Ne, List.lookup_eq_none_iff]
  exact fun hall ↦ by simpa using hall _ hx

theorem names_add {line : Line} (h : l.add line = some l') :
    l'.image.names = l.image.names ++ line.labels ∧ ∀ x ∈ line.labels, x ∉ l.image.names := by
  cases line with
  | directive name =>
    simp only [add] at h
    split_ifs at h <;> cases h <;> simp [Line.labels]
  | label name =>
    simp only [add, Option.bind_eq_bind, Option.bind_eq_some_iff] at h
    obtain ⟨m, hm, h⟩ := h
    cases h
    obtain ⟨hnew, rfl⟩ := define_eq_some hm
    exact ⟨Image.names_addSymbol name _, by simpa [Line.labels] using hnew⟩
  | word name =>
    simp only [add] at h
    split_ifs at h
    simp only [Option.bind_eq_bind, Option.bind_eq_some_iff] at h
    obtain ⟨m, hm, h⟩ := h
    cases h
    obtain ⟨hnew, rfl⟩ := define_eq_some hm
    have hnew : name ∉ l.image.names := hnew
    exact ⟨Image.names_addSymbol name _, by simpa [Line.labels] using hnew⟩
  | asciiz name value =>
    simp only [add] at h
    split_ifs at h
    simp only [Option.bind_eq_bind, Option.bind_eq_some_iff] at h
    obtain ⟨m, hm, h⟩ := h
    cases h
    obtain ⟨hnew, rfl⟩ := define_eq_some hm
    exact ⟨Image.names_addSymbol name _, by simpa [Line.labels] using hnew⟩
  | instr i =>
    simp only [add] at h
    split_ifs at h
    cases h
    simp [Line.labels, Image.addInstr, Image.names]
  | verbatim text =>
    simp only [add] at h
    split_ifs at h
    cases h
    simp [Line.labels]

theorem nodup_labels (h : l.addAll f = some l') :
    f.labels.Nodup ∧ ∀ x ∈ f.labels, x ∉ l.image.names := by
  induction f generalizing l with
  | nil => simp [Fragment.labels]
  | cons line f ih =>
    obtain ⟨l₁, hl, h⟩ := Option.bind_eq_some_iff.1 (show (l.add line).bind _ = some l' from h)
    obtain ⟨hnames, hnew⟩ := names_add hl
    obtain ⟨hnodup, hnew'⟩ := ih h
    simp only [hnames, List.mem_append, not_or] at hnew'
    have hlabels : Fragment.labels (line :: f) = line.labels ++ Fragment.labels f := rfl
    rw [hlabels, List.nodup_append]
    refine ⟨⟨?_, hnodup, fun x hx y hy he ↦ (hnew' y hy).2 (he ▸ hx)⟩, fun x hx ↦ ?_⟩
    · cases line <;> simp [Line.labels]
    · exact (List.mem_append.1 hx).elim (hnew x) fun hx ↦ (hnew' x hx).1

theorem addAll_strings {strings : List Constant} {m : Image}
    (h : addAll ⟨true, m⟩ (strings.map fun c ↦ .asciiz c.label c.value) = some l) :
    l.inData = true ∧ m.Extends l.image ∧ l.image.code = m.code ∧
      ∀ c ∈ strings, ∃ k n, l.image.symbols.lookup c.label = some (.data k) ∧
        l.image.data[k + n]? = some 0 ∧ m.data.length ≤ k := by
  induction strings generalizing m with
  | nil =>
    cases h
    exact ⟨rfl, .refl m, rfl, by simp⟩
  | cons c strings ih =>
    obtain ⟨l₁, hl, h⟩ := Option.bind_eq_some_iff.1
      (show (add ⟨true, m⟩ (.asciiz c.label c.value)).bind _ = some l from h)
    simp only [add] at hl
    split_ifs at hl
    simp only [Option.bind_eq_bind, Option.bind_eq_some_iff] at hl
    obtain ⟨m₁, hm, hl⟩ := hl
    cases hl
    obtain ⟨hnew, rfl⟩ := define_eq_some hm
    obtain ⟨hin, hext, hcode, hstrings⟩ := ih h
    have hsymbol := Image.lookup_addSymbol hnew (.data m.data.length)
    have hfirst := (m.extends_addSymbol c.label (.data m.data.length)).trans
      (Image.extends_addBytes _ (utf8 c.value ++ [0]))
    refine ⟨hin, hfirst.trans hext, hcode, ?_⟩
    simp only [List.mem_cons, forall_eq_or_imp]
    refine ⟨⟨m.data.length, (utf8 c.value).length, hext.lookup hsymbol, ?_, Nat.le_refl _⟩,
      fun d hd ↦ ?_⟩
    · obtain ⟨rest, hrest⟩ := hext.data
      rw [← hrest]
      simp [Image.addBytes, Image.addSymbol]
    · obtain ⟨k, n, hk, hn, hle⟩ := hstrings d hd
      refine ⟨k, n, hk, hn, Nat.le_trans ?_ hle⟩
      simp [Image.addBytes, Image.addSymbol]

end Loader

end Mips

/-- The images on the way to that of a program: the first has its cells behind the texts of the
truth values, the second has its strings behind them, and the last has its code. -/
structure Mips.Loader.Stages (assembly : Assembly) (code : Fragment) (m₁ m₂ m : Image) : Prop where
  texts : constants.Extends m₁
  strings : m₁.Extends m₂
  whole : m₂.Extends m
  data : m.data = m₂.data
  cell : ∀ c ∈ assembly.cells, ∃ k, m₁.HasCell c.label k ∧ constants.data.length ≤ k
  distinct : ∀ c ∈ assembly.cells, ∀ d ∈ assembly.cells,
    m₁.symbols.lookup c.label = m₁.symbols.lookup d.label → c.label = d.label
  string : ∀ c ∈ assembly.pool.entries.toList, ∃ k n, m₂.symbols.lookup c.label = some (.data k) ∧
    m₂.data[k + n]? = some 0 ∧ m₁.data.length ≤ k
  code : CodeAt m m₂.code.length (.label "main" :: (code ++ Template.call Service.exit.code))
    m.code.length

theorem Mips.Loader.exists_stages {assembly : Assembly} {code : Fragment} {l : Loader}
    (hcode : ∀ line ∈ code, line.isCode)
    (h : Loader.addAll {} (assembly.around code) = some l) :
    ∃ m₁ m₂, Stages assembly code m₁ m₂ l.image := by
  have hprogram : assembly.around code =
      ([.directive "data", .asciiz "bool_true" "true", .asciiz "bool_false" "false"] : Fragment) ++
        ((assembly.cells.toList.map Cell.label).map Line.word ++
          (assembly.pool.entries.toList.map (fun c ↦ Line.asciiz c.label c.value) ++
            (Line.directive "text" :: ((Line.label "main" :: (code ++
              Template.call Service.exit.code)) ++ [Line.verbatim ""])))) := by
    simp [Assembly.around, Template.program]
  rw [hprogram, addAll_append addAll_constants, addAll_append_eq] at h
  obtain ⟨l₁, h₁, h⟩ := Option.bind_eq_some_iff.1 h
  have hlabels : Fragment.labels ((assembly.cells.toList.map Cell.label).map Line.word) =
      assembly.cells.toList.map Cell.label := by
    simp [Fragment.labels, List.flatMap_map, Line.labels, ← List.map_eq_flatMap]
  obtain ⟨hnodup, hnew⟩ := nodup_labels h₁
  rw [hlabels] at hnodup hnew
  obtain ⟨m₁, hm₁, hext₁, -, -, hcells, hdistinct⟩ := addAll_words hnodup hnew
  obtain rfl : ⟨true, m₁⟩ = l₁ := Option.some.inj (hm₁.symm.trans h₁)
  have hlabel {c : Cell} (hc : c ∈ assembly.cells) :
      c.label ∈ assembly.cells.toList.map Cell.label :=
    List.mem_map_of_mem (Array.mem_toList_iff.2 hc)
  rw [addAll_append_eq] at h
  obtain ⟨⟨_, m₂⟩, h₂, h⟩ := Option.bind_eq_some_iff.1 h
  obtain ⟨rfl, hext₂, -, hstrings⟩ := addAll_strings h₂
  have hsection : add ⟨true, m₂⟩ (.directive "text") = some ⟨false, m₂⟩ := rfl
  rw [addAll_cons hsection, addAll_append_eq] at h
  obtain ⟨l₃, h₃, h⟩ := Option.bind_eq_some_iff.1 h
  obtain ⟨hnodup₃, hnew₃⟩ := nodup_labels h₃
  have hlines : ∀ line ∈ .label "main" :: (code ++ Template.call Service.exit.code),
      line.isCode := by
    intro line hl
    simp only [Template.call, List.mem_cons, List.mem_append, List.not_mem_nil, or_false] at hl
    rcases hl with rfl | hl | rfl | rfl
    · rfl
    · exact hcode line hl
    · rfl
    · rfl
  obtain ⟨m, hm, hext₃, hdata, hat⟩ := addAll_code hlines hnodup₃ hnew₃
  obtain rfl : ⟨false, m⟩ = l₃ := Option.some.inj (hm.symm.trans h₃)
  obtain rfl : ⟨false, m⟩ = l := Option.some.inj h
  exact ⟨m₁, m₂, hext₁, hext₂, hext₃, hdata, fun c hc ↦ hcells c.label (hlabel hc),
    fun c hc d hd ↦ hdistinct c.label (hlabel hc) d.label (hlabel hd), hstrings, hat⟩

theorem Mips.Loader.Stages.carries {assembly : Assembly} {code : Fragment} {m₁ m₂ m : Image}
    (h : Stages assembly code m₁ m₂ m) : m.Carries assembly code := by
  have hext := h.strings.trans h.whole
  have hplace {c : Cell} (hc : c ∈ assembly.cells) {j : Nat} (hj : m.HasCell c.label j) :
      constants.data.length ≤ j ∧ j + 4 ≤ m₁.data.length := by
    obtain ⟨k, hk, hle⟩ := h.cell c hc
    have hkj := (hk.extends hext).lookup.symm.trans hj.lookup
    obtain rfl : k = j := by simpa using hkj
    obtain ⟨hlt, -⟩ := List.getElem?_eq_some_iff.1 (hk.zero 3 (by decide))
    exact ⟨hle, by omega⟩
  have hconstant {x : String} {k n : Nat} (hx : constants.symbols.lookup x = some (.data k))
      (hn : constants.data[k + n]? = some 0) :
      ∃ k n, m.symbols.lookup x = some (.data k) ∧ m.data[k + n]? = some 0 ∧
        ∀ c ∈ assembly.cells, ∀ j, m.HasCell c.label j → j + 4 ≤ k ∨ k + n < j := by
    obtain ⟨hlt, -⟩ := List.getElem?_eq_some_iff.1 hn
    obtain ⟨rest, hrest⟩ := (h.texts.trans hext).data
    refine ⟨k, n, (h.texts.trans hext).lookup hx, ?_, fun c hc j hj ↦ .inr ?_⟩
    · rw [← hrest, List.getElem?_append_left hlt, hn]
    · exact Nat.lt_of_lt_of_le hlt (hplace hc hj).1
  refine ⟨⟨m₂.code.length, m.code.length, codeAt_label.1 h.code⟩, fun c hc ↦ ?_,
    fun c hc d hd he ↦ ?_, fun x hx ↦ ?_⟩
  · obtain ⟨k, hk, -⟩ := h.cell c hc
    exact ⟨k, hk.extends hext⟩
  · obtain ⟨k, hk, -⟩ := h.cell c hc
    obtain ⟨k', hk', -⟩ := h.cell d hd
    refine h.distinct c hc d hd ?_
    rw [hext.lookup hk.lookup, hext.lookup hk'.lookup] at he
    rw [hk.lookup, hk'.lookup, he]
  · rw [Assembly.strings, List.mem_append] at hx
    rcases hx with hx | hx
    · simp only [List.mem_cons, List.not_mem_nil, or_false] at hx
      rcases hx with rfl | rfl
      · exact hconstant (k := 0) (n := 4) rfl rfl
      · exact hconstant (k := 5) (n := 5) rfl rfl
    · obtain ⟨c, hc, rfl⟩ := List.mem_map.1 hx
      obtain ⟨k, n, hk, hn, hle⟩ := h.string c hc
      refine ⟨k, n, h.whole.lookup hk, by rw [h.data, hn], fun d hd j hj ↦ .inl ?_⟩
      have := (hplace hd hj).2
      omega

theorem Mips.Loader.carries {assembly : Assembly} {code : Fragment} {l : Loader}
    (hcode : ∀ line ∈ code, line.isCode)
    (h : Loader.addAll {} (assembly.around code) = some l) : l.image.Carries assembly code := by
  obtain ⟨m₁, m₂, h⟩ := exists_stages hcode h
  exact h.carries

theorem Mips.Loader.exists_carries {assembly : Assembly} {code : Fragment}
    (h : code.all Line.isCode && (Loader.addAll {} (assembly.around code)).isSome) :
    ∃ m : Image, m.Carries assembly code := by
  obtain ⟨hlines, hload⟩ := Bool.and_eq_true_iff.1 h
  obtain ⟨l, hl⟩ := Option.isSome_iff_exists.1 hload
  exact ⟨l.image, Loader.carries (List.all_eq_true.1 hlines) hl⟩

/-- The code of every node of the tree is composed of that of its children, in the scope of the main
block. Its variable has a cell among those given out in the end, and its string is in the pool. -/
inductive Wired (r : Analysis) (part : NodeId → Fragment) (last : Places) : Tree → Prop
  | mk {i : NodeId} {n : Node Tree} {p : Places} :
      (compose r mainScope part i p (n.map Tree.id)).1 = part i →
      (∀ x ∈ n.variableName?, (p.cell r.scopes mainScope x).1 = Cell.labelFor "main" x ∧
        Cell.of "main" x ∈ last.storage.cells) →
      (n.kind = .stringLiteral →
        (p.takeLabel "string").1 ∈ last.pool.entries.toList.map Constant.label) →
      (∀ c ∈ n.children, Wired r part last c) → Wired r part last (.mk i n)

theorem Tree.Flat.every_kind_ne {t : Tree} (h : t.Flat) (hp : t.Plain) :
    t.Every fun n ↦ n.kind ≠ .executableBlock := by
  induction t with
  | mk i n ih =>
    have hdef : n.kind ≠ .functionDefinition := hp.kind_ne
    obtain ⟨-, hpc⟩ := hp
    exact .mk h.kind_ne fun c hc ↦ ih c hc (h.child hdef hc) (hpc c hc)

section wired

variable {r : Analysis} {part : NodeId → Fragment} {p q last : Places} {i : NodeId} {n : Node Tree}

theorem Wired.child (h : Wired r part last (.mk i n)) {c : Tree} (hc : c ∈ n.children) :
    Wired r part last c := by
  obtain ⟨-, -, -, hcs⟩ := h
  exact hcs c hc

theorem Places.Leads.mem_pool (h : p.Leads r part q) {x : String}
    (hx : x ∈ p.pool.entries.toList.map Constant.label) :
    x ∈ q.pool.entries.toList.map Constant.label := by
  induction h with
  | refl => exact hx
  | @node q _ u i n _ hn ih =>
    subst hn
    cases n with
    | stringLiteral value =>
      simp only [compose, Pool.push, takeLabel, Array.toList_push, List.map_append,
        List.mem_append]
      exact .inl ih
    | _ =>
      rw [pool_compose r u part i q (by simp [Node.kind])]
      exact ih

theorem Coded.wired {ts : List Tree} (h : Coded r part mainScope ts p q)
    (hq : r.scopes.qualifiedName mainScope = "main")
    (hscope : ∀ x, (r.scopes.definingScope? mainScope x).isSome →
      r.scopes.definingScope? mainScope x = some mainScope)
    (hb : ∀ t ∈ ts, t.Every fun n ↦ n.kind ≠ .executableBlock)
    (hr : ∀ t ∈ ts, t.Ready r.scopes r.types mainScope)
    (hp : p.storage.Serves r.scopes.Binds) (hlast : q.Leads r part last) :
    ∀ t ∈ ts, Wired r part last t := by
  generalize hu : mainScope = u at h
  induction h with
  | nil => simp
  | @cons u i n ts p q p' q' hc hi hts ihc iht =>
    subst hu
    simp only [List.mem_cons, forall_eq_or_imp] at hb hr ⊢
    obtain ⟨⟨hbn, hbc⟩, hbt⟩ := hb
    obtain ⟨⟨hrn, hrc⟩, hrt⟩ := hr
    have hinner : n.innerScope mainScope = mainScope := if_neg hbn
    rw [hinner] at hc hi ihc hrn hrc
    have hnode : q.Leads r part p' := .node .refl (congrArg Prod.snd hi)
    have hserves := hc.leads.serves hp
    have hbehind := hts.leads.trans hlast
    refine ⟨.mk (p := q) (congrArg Prod.fst hi) (fun x hx ↦ ?_) (fun hk ↦ ?_) ?_, ?_⟩
    · have hx' : (n.map Tree.id).variableName? = some x := by simpa using hx
      have hw := hscope x (hrn.isSome hx')
      have hbinds : r.scopes.Binds "main" x :=
        ⟨mainScope, hq, isSome_local?_of_definingScope? hw⟩
      refine ⟨hq ▸ Places.label_cell hserves hw, Array.mem_toList_iff.1 (hbehind.mem_cells ?_)⟩
      have hstorage := storage_compose r mainScope part i q (n.map Tree.id)
      rw [hi, hx', Option.elim_some, Places.storage_cell, hw, Option.elim_some, hq] at hstorage
      rw [hstorage]
      exact (hserves.allocate hbinds).2.2
    · refine hbehind.mem_pool ?_
      cases n with
      | stringLiteral value =>
        obtain rfl : _ = p' := congrArg Prod.snd hi
        simp [compose, Node.map, Pool.push]
      | _ => simp [Node.kind] at hk
    · exact ihc hbc hrc hp (hnode.trans hbehind) rfl
    · exact iht hbt hrt (hnode.serves hserves) hlast rfl

end wired

namespace Arena

variable {a : Arena} {root j : NodeId} {vars : Option Tree} {body main : Tree} {s : Typing}
  {g : Generation}

theorem Compiles.coded_main (h : a.Compiles root [] (.mk j (.executableBlock vars body)) s g) :
    Coded s.analysis g.part mainScope (vars.toList ++ [body]) {} g.places ∧
      g.part j = (vars.toList ++ [body]).flatMap fun t ↦ g.part t.id := by
  cases h.coded_parts with
  | @cons _ _ _ _ _ q _ _ hc hi hnil =>
    obtain rfl : q = g.places := by
      cases hnil
      exact congrArg Prod.snd hi
    refine ⟨hc, ?_⟩
    have hcode : _ = g.part j := congrArg Prod.fst hi
    rw [← hcode]
    cases vars <;> simp [compose, Node.map]

/-- All variables that are found in the main block are its own. -/
theorem Compiles.definingScope?_main
    (h : a.Compiles root [] (.mk j (.executableBlock vars body)) s g) {x : String}
    (hx : (s.scopes.definingScope? mainScope x).isSome) :
    s.scopes.definingScope? mainScope x = some mainScope := by
  have hext : withMain.Extends s.scopes := h.judged.grows.scopes
  have hglobal := local?_global h.forest h.holds h.judged
  rw [definingScope?, hext.chain_eq, chain_withMain] at hx ⊢
  by_cases hl : (s.scopes.local? mainScope x).isSome
  · simp [hl]
  · simp [hl, hglobal] at hx

theorem Compiles.wired (h : a.Compiles root [] (.mk j (.executableBlock vars body)) s g) :
    ∀ t ∈ vars.toList ++ [body], Wired s.analysis g.part g.places t := by
  have hext : withMain.Extends s.scopes := h.judged.grows.scopes
  have hm := h.holds.child (c := .mk j (.executableBlock vars body)) (by simp [Node.children])
  obtain ⟨⟨-, hplain⟩, -, ⟨-, hready⟩⟩ := h.accepted
  obtain ⟨-, hplain⟩ := hplain (.mk j (.executableBlock vars body)) (by simp [Node.children])
  obtain ⟨-, hready⟩ := hready (.mk j (.executableBlock vars body)) (by simp [Node.children])
  refine h.coded_main.1.wired ((hext.qualifiedName_eq _).trans qualifiedName_withMain)
    (fun x hx ↦ h.definingScope?_main hx) (fun t ht ↦ ?_) hready ⟨by simp, by simp⟩ .refl
  exact (hm.flat_of_block h.forest ht).every_kind_ne (hplain t ht)

theorem Compiles.carries {functions : List Tree} (h : a.Compiles root functions main s g)
    (hl : ∀ i n, a.Reaches root i → a.get? i = some n → n.Legible) {m : Image}
    (hm : assemble (g.part root).text = some m) :
    m.Carries (g.assembly root) (g.part main.id) := by
  obtain ⟨hclean, -⟩ := h.code hl (c := main) (by simp) .here
  have hroot : g.part root = (g.assembly root).around (g.part main.id) := h.generated.part_root
  have hread := readProgram_text (f := g.part root)
    (by rw [hroot]; simp [Assembly.around, Template.program]) (h.code_root hl).1
  obtain ⟨l, hload, rfl⟩ : ∃ l, Loader.addAll {} (g.part root) = some l ∧ l.image = m := by
    simpa [assemble, hread, Option.bind_eq_some_iff] using hm
  exact Loader.carries (fun line hline ↦ (hclean line hline).1) (hroot ▸ hload)

end Arena

end SpimCompiler
