import SpimCompiler.Proofs.AssemblyText

namespace SpimCompiler.Mips

/-- The fragment stands in the code of the image from one index to the other. -/
inductive CodeAt (m : Image) : Nat → Fragment → Nat → Prop
  | nil {pc : Nat} : CodeAt m pc [] pc
  | instr {pc pc' : Nat} {i : Instr} {f : Fragment} :
      m.code[pc]? = some i → CodeAt m (pc + 1) f pc' → CodeAt m pc (.instr i :: f) pc'
  | label {pc pc' : Nat} {name : String} {f : Fragment} :
      m.target? name = some pc → CodeAt m pc f pc' → CodeAt m pc (.label name :: f) pc'

variable {m : Image} {pc pc' : Nat} {f g : Fragment}

theorem codeAt_nil : CodeAt m pc [] pc' ↔ pc' = pc :=
  ⟨fun h ↦ by cases h; rfl, fun h ↦ h ▸ .nil⟩

theorem codeAt_instr {i : Instr} :
    CodeAt m pc (.instr i :: f) pc' ↔ m.code[pc]? = some i ∧ CodeAt m (pc + 1) f pc' :=
  ⟨fun h ↦ by cases h; exact ⟨‹_›, ‹_›⟩, fun h ↦ .instr h.1 h.2⟩

theorem codeAt_label {name : String} :
    CodeAt m pc (.label name :: f) pc' ↔ m.target? name = some pc ∧ CodeAt m pc f pc' :=
  ⟨fun h ↦ by cases h; exact ⟨‹_›, ‹_›⟩, fun h ↦ .label h.1 h.2⟩

theorem codeAt_append :
    CodeAt m pc (f ++ g) pc' ↔ ∃ mid, CodeAt m pc f mid ∧ CodeAt m mid g pc' := by
  constructor
  · intro h
    induction f generalizing pc with
    | nil => exact ⟨pc, .nil, h⟩
    | cons l f ih =>
      cases h with
      | instr hi h =>
        obtain ⟨mid, hf, hg⟩ := ih h
        exact ⟨mid, .instr hi hf, hg⟩
      | label hl h =>
        obtain ⟨mid, hf, hg⟩ := ih h
        exact ⟨mid, .label hl hf, hg⟩
  · rintro ⟨mid, hf, hg⟩
    induction hf with
    | nil => exact hg
    | instr hi _ ih => exact .instr hi (ih hg)
    | label hl _ ih => exact .label hl (ih hg)

def Line.isCode : Line → Bool
  | .label _ | .instr _ => true
  | _ => false

def Line.labels : Line → List String
  | .label name | .word name | .asciiz name _ => [name]
  | _ => []

def Fragment.labels (f : Fragment) : List String := f.flatMap Line.labels

namespace Image

structure Extends (m m' : Image) : Prop where
  code : m.code <+: m'.code
  data : m.data <+: m'.data
  symbols : m.symbols <+: m'.symbols

variable {m m' m'' : Image}

theorem Extends.refl (m : Image) : m.Extends m :=
  ⟨List.prefix_rfl, List.prefix_rfl, List.prefix_rfl⟩

theorem Extends.trans (h : m.Extends m') (h' : m'.Extends m'') : m.Extends m'' :=
  ⟨h.code.trans h'.code, h.data.trans h'.data, h.symbols.trans h'.symbols⟩

theorem Extends.lookup (h : m.Extends m') {name : String} {location : Location}
    (hl : m.symbols.lookup name = some location) : m'.symbols.lookup name = some location :=
  h.symbols.lookup_eq_some hl

def names (m : Image) : List String := m.symbols.map Prod.fst

theorem lookup_eq_none {name : String} (h : name ∉ m.names) : m.symbols.lookup name = none := by
  rw [List.lookup_eq_none_iff]
  intro p hp
  have hne : p.1 ≠ name := fun he ↦ h (he ▸ List.mem_map_of_mem hp)
  simpa using hne.symm

theorem define_eq {name : String} (h : name ∉ m.names) (location : Location) :
    m.define name location = some (m.addSymbol name location) := by
  simp [define, lookup_eq_none h]

theorem lookup_addSymbol {name : String} (h : name ∉ m.names) (location : Location) :
    (m.addSymbol name location).symbols.lookup name = some location := by
  simp [addSymbol, List.lookup_append, lookup_eq_none h]

theorem names_addSymbol (name : String) (location : Location) :
    (m.addSymbol name location).names = m.names ++ [name] := by
  simp [addSymbol, names]

theorem extends_addInstr (m : Image) (i : Instr) : m.Extends (m.addInstr i) :=
  ⟨List.prefix_append _ _, List.prefix_rfl, List.prefix_rfl⟩

theorem extends_addBytes (m : Image) (bytes : List UInt8) : m.Extends (m.addBytes bytes) :=
  ⟨List.prefix_rfl, List.prefix_append _ _, List.prefix_rfl⟩

theorem extends_addSymbol (m : Image) (name : String) (location : Location) :
    m.Extends (m.addSymbol name location) :=
  ⟨List.prefix_rfl, List.prefix_rfl, List.prefix_append _ _⟩

end Image

namespace Loader

theorem addAll_cons {l l₁ : Loader} {line : Line} (h : l.add line = some l₁) (f : Fragment) :
    l.addAll (line :: f) = l₁.addAll f := by
  simp [addAll, h]

/-- Code whose labels are new is loaded at the end of the code. -/
theorem addAll_code (hf : ∀ l ∈ f, l.isCode) (hn : f.labels.Nodup) {m : Image}
    (hnew : ∀ name ∈ f.labels, name ∉ m.names) :
    ∃ m', addAll ⟨false, m⟩ f = some ⟨false, m'⟩ ∧ m.Extends m' ∧ m'.data = m.data ∧
      CodeAt m' m.code.length f m'.code.length := by
  induction f generalizing m with
  | nil => exact ⟨m, rfl, .refl _, rfl, .nil⟩
  | cons line f ih =>
    simp only [List.mem_cons, forall_eq_or_imp] at hf
    cases line with
    | instr i =>
      have hadd : add ⟨false, m⟩ (.instr i) = some ⟨false, m.addInstr i⟩ := rfl
      have hlen : (m.addInstr i).code.length = m.code.length + 1 := by simp [Image.addInstr]
      obtain ⟨m', hl, hext, hdata, hcode⟩ := ih hf.2 hn (m := m.addInstr i) hnew
      refine ⟨m', (addAll_cons hadd f).trans hl, (m.extends_addInstr i).trans hext, hdata, ?_⟩
      refine .instr ?_ (hlen ▸ hcode)
      obtain ⟨rest, hrest⟩ := hext.code
      simp [← hrest, Image.addInstr]
    | label name =>
      simp only [Fragment.labels, List.flatMap_cons, Line.labels, List.singleton_append,
        List.nodup_cons, List.mem_cons, forall_eq_or_imp] at hn hnew
      have hadd : add ⟨false, m⟩ (.label name) =
          some ⟨false, m.addSymbol name (.code m.code.length)⟩ := by
        simp [add, Image.define_eq hnew.1]
      have hnew' : ∀ x ∈ Fragment.labels f,
          x ∉ (m.addSymbol name (.code m.code.length)).names := by
        intro x hx
        rw [Image.names_addSymbol, List.mem_append, List.mem_singleton, not_or]
        exact ⟨hnew.2 x hx, fun he ↦ hn.1 (he ▸ hx)⟩
      obtain ⟨m', hl, hext, hdata, hcode⟩ := ih hf.2 hn.2 hnew'
      refine ⟨m', (addAll_cons hadd f).trans hl, (m.extends_addSymbol _ _).trans hext, hdata, ?_⟩
      refine .label ?_ hcode
      simp [Image.target?, hext.lookup (Image.lookup_addSymbol hnew.1 _)]
    | _ => simp [Line.isCode] at hf

end Loader

/-- The label is that of a cell, a word of zero bytes, at the given offset in the data. -/
structure Image.HasCell (m : Image) (name : String) (offset : Nat) : Prop where
  lookup : m.symbols.lookup name = some (.data offset)
  aligned : offset % 4 = 0
  zero (j : Nat) : j < 4 → m.data[offset + j]? = some 0

theorem Image.HasCell.extends {m m' : Image} {name : String} {k : Nat} (h : m.HasCell name k)
    (he : m.Extends m') : m'.HasCell name k := by
  refine ⟨he.lookup h.lookup, h.aligned, fun j hj ↦ ?_⟩
  obtain ⟨hlt, hget⟩ := List.getElem?_eq_some_iff.1 (h.zero j hj)
  obtain ⟨rest, hrest⟩ := he.data
  rw [← hrest, List.getElem?_append_left hlt, h.zero j hj]

namespace Loader

theorem add_word {m : Image} {name : String} (h : name ∉ m.names) :
    ∃ m' k, add ⟨true, m⟩ (.word name) = some ⟨true, m'⟩ ∧ m.Extends m' ∧ m'.code = m.code ∧
      m'.names = m.names ++ [name] ∧ m'.HasCell name k ∧ m.data.length ≤ k ∧
      m'.data.length = k + 4 := by
  have hnew : name ∉ m.align.names := h
  have halign : m.Extends m.align := m.extends_addBytes _
  have hext := (halign.trans (m.align.extends_addSymbol name (.data m.align.data.length))).trans
    (Image.extends_addBytes _ [0, 0, 0, 0])
  have hlen : m.align.data.length = m.data.length + (3 - (m.data.length + 3) % 4) := by
    simp [Image.align, Image.addBytes]
  refine ⟨(m.align.addSymbol name (.data m.align.data.length)).addBytes [0, 0, 0, 0],
    m.align.data.length, ?_, hext, rfl, ?_, ⟨?_, ?_, ?_⟩, ?_, ?_⟩
  · simp [add, Image.define_eq hnew]
  · exact Image.names_addSymbol name _
  · exact (Image.extends_addBytes _ _).lookup (Image.lookup_addSymbol hnew _)
  · omega
  · intro j hj
    have hdata : (List.replicate 4 (0 : UInt8))[j]? = some 0 := List.getElem?_replicate_of_lt hj
    simp [Image.addBytes, Image.addSymbol, List.getElem?_append_right, ← hdata]
  · omega
  · simp [Image.addBytes, Image.addSymbol]

theorem addAll_words {cells : List String} (hn : cells.Nodup) {m : Image}
    (hnew : ∀ x ∈ cells, x ∉ m.names) :
    ∃ m', addAll ⟨true, m⟩ (cells.map .word) = some ⟨true, m'⟩ ∧ m.Extends m' ∧ m'.code = m.code ∧
      m'.names = m.names ++ cells ∧
      (∀ x ∈ cells, ∃ k, m'.HasCell x k ∧ m.data.length ≤ k) ∧
      ∀ x ∈ cells, ∀ y ∈ cells, m'.symbols.lookup x = m'.symbols.lookup y → x = y := by
  induction cells generalizing m with
  | nil => exact ⟨m, rfl, .refl m, rfl, by simp, by simp, by simp⟩
  | cons x cells ih =>
    simp only [List.nodup_cons, List.mem_cons, forall_eq_or_imp] at hn hnew
    obtain ⟨m₁, k, hadd, hext₁, hcode₁, hnames₁, hcell, hk, hlen⟩ := add_word hnew.1
    have hnew₁ : ∀ y ∈ cells, y ∉ m₁.names := by
      intro y hy
      rw [hnames₁, List.mem_append, List.mem_singleton, not_or]
      exact ⟨hnew.2 y hy, fun he ↦ hn.1 (he ▸ hy)⟩
    obtain ⟨m', hl, hext, hcode, hnames, hcells, hinj⟩ := ih hn.2 hnew₁
    have hx := hcell.extends hext
    have hne : ∀ y ∈ cells, m'.symbols.lookup x ≠ m'.symbols.lookup y := by
      intro y hy he
      obtain ⟨k', hy', hk'⟩ := hcells y hy
      rw [hx.lookup, hy'.lookup] at he
      obtain rfl : k = k' := by simpa using he
      omega
    refine ⟨m', (addAll_cons hadd _).trans hl, hext₁.trans hext, hcode.trans hcode₁, ?_, ?_, ?_⟩
    · simp [hnames, hnames₁]
    · simp only [List.mem_cons, forall_eq_or_imp]
      refine ⟨⟨k, hx, hk⟩, fun y hy ↦ ?_⟩
      obtain ⟨k', hy', hk'⟩ := hcells y hy
      exact ⟨k', hy', by omega⟩
    · simp only [List.mem_cons, forall_eq_or_imp]
      refine ⟨⟨by simp, fun y hy he ↦ absurd he (hne y hy)⟩, fun y hy ↦ ⟨fun he ↦ ?_, hinj y hy⟩⟩
      exact absurd he.symm (hne y hy)

theorem addAll_append {l l' : Loader} {f : Fragment} (h : l.addAll f = some l') (g : Fragment) :
    l.addAll (f ++ g) = l'.addAll g := by
  have h' : f.foldlM add l = some l' := h
  simp [addAll, h']

end Loader

/-- How the data of a program with the given cells are laid out: the texts of the truth values first,
and then the cells, each in a place of its own. -/
structure Layout (m : Image) (cells : List String) : Prop where
  texts : utf8 "true" ++ 0 :: utf8 "false" ++ [0] <+: m.data
  trueText : m.place? "bool_true" = some ⟨.data, 0⟩
  falseText : m.place? "bool_false" = some ⟨.data, 5⟩
  cell : ∀ x ∈ cells, ∃ k, m.HasCell x k ∧ 11 ≤ k
  distinct : ∀ x ∈ cells, ∀ y ∈ cells, m.symbols.lookup x = m.symbols.lookup y → x = y

def constants : Image where
  data := utf8 "true" ++ 0 :: utf8 "false" ++ [0]
  symbols := [("bool_true", .data 0), ("bool_false", .data 5)]

theorem addAll_constants :
    Loader.addAll {} [.directive "data", .asciiz "bool_true" "true",
      .asciiz "bool_false" "false"] = some ⟨true, constants⟩ := by
  rfl

variable {cells : List String} {code : Fragment}

theorem labels_program : Fragment.labels (Template.program (cells.map .word) [] code) =
    ["bool_true", "bool_false"] ++ (cells ++ "main" :: Fragment.labels code) := by
  simp [Template.program, Template.call, Fragment.labels, Line.labels, List.flatMap_map]

theorem assemble_program (hcode : ∀ l ∈ code, l.isCode)
    (hread : ∀ l ∈ Template.program (cells.map .word) [] code, l.Readable)
    (hn : (Fragment.labels (Template.program (cells.map .word) [] code)).Nodup) :
    ∃ m pc pc', assemble (Fragment.text (Template.program (cells.map .word) [] code)) = some m ∧
      m.target? "main" = some pc ∧
      CodeAt m pc (code ++ Template.call Service.exit.code) pc' ∧ Layout m cells := by
  rw [labels_program, List.nodup_append, List.nodup_append] at hn
  obtain ⟨-, ⟨hcells, hlabels, hdisjoint⟩, hconstants⟩ := hn
  have hprogram : Template.program (cells.map .word) [] code =
      ([.directive "data", .asciiz "bool_true" "true", .asciiz "bool_false" "false"] : Fragment) ++
        (cells.map Line.word ++ (Line.directive "text" :: ((Line.label "main" :: (code ++
          Template.call Service.exit.code)) ++ [Line.verbatim ""]))) := by
    simp [Template.program]
  have hmain : Fragment.labels (.label "main" :: (code ++ Template.call Service.exit.code)) =
      "main" :: Fragment.labels code := by
    simp [Template.call, Fragment.labels, Line.labels]
  have hnew : ∀ x ∈ cells, x ∉ constants.names := by
    intro x hx hc
    exact hconstants x hc x (List.mem_append_left _ hx) rfl
  obtain ⟨m₁, hl₁, hext₁, hcode₁, hnames₁, hcell₁, hdistinct⟩ := Loader.addAll_words hcells hnew
  have hnew : ∀ x ∈ "main" :: Fragment.labels code, x ∉ m₁.names := by
    intro x hx hc
    rw [hnames₁, List.mem_append] at hc
    obtain hc | hc := hc
    · exact hconstants x hc x (List.mem_append_right _ hx) rfl
    · exact hdisjoint x hc x hx rfl
  have hcode' : ∀ l ∈ .label "main" :: (code ++ Template.call Service.exit.code), l.isCode := by
    intro l hl
    simp only [Template.call, List.mem_cons, List.mem_append, List.not_mem_nil, or_false] at hl
    obtain rfl | hl | rfl | rfl := hl
    · rfl
    · exact hcode l hl
    · rfl
    · rfl
  obtain ⟨m, hl, hext, hdata, hat⟩ := Loader.addAll_code hcode' (hmain ▸ hlabels) (hmain ▸ hnew)
  have hload : Loader.addAll {} (Template.program (cells.map .word) [] code) =
      some ⟨false, m⟩ := by
    have hsection : Loader.add ⟨true, m₁⟩ (.directive "text") = some ⟨false, m₁⟩ := rfl
    rw [hprogram, Loader.addAll_append addAll_constants, Loader.addAll_append hl₁,
      Loader.addAll_cons hsection, Loader.addAll_append hl]
    rfl
  rw [codeAt_label] at hat
  have htrue : constants.symbols.lookup "bool_true" = some (.data 0) := rfl
  have hfalse : constants.symbols.lookup "bool_false" = some (.data 5) := rfl
  obtain ⟨hpc, hat⟩ := hat
  have hassemble : assemble (Fragment.text (Template.program (cells.map .word) [] code)) =
      some m := by
    rw [assemble, readProgram_text (by simp [hprogram]) hread]
    simp [hload]
  refine ⟨m, m₁.code.length, m.code.length, hassemble, hpc, hat, ⟨?_, ?_, ?_, ?_, ?_⟩⟩
  · exact (hext₁.trans hext).data
  · simp [Image.place?, (hext₁.trans hext).lookup htrue]
  · simp [Image.place?, (hext₁.trans hext).lookup hfalse]
  · intro x hx
    obtain ⟨k, hk, hle⟩ := hcell₁ x hx
    exact ⟨k, hk.extends hext, hle⟩
  · intro x hx y hy he
    obtain ⟨k, hk, -⟩ := hcell₁ x hx
    obtain ⟨k', hk', -⟩ := hcell₁ y hy
    refine hdistinct x hx y hy ?_
    rw [hk.lookup, hk'.lookup]
    rw [hext.lookup hk.lookup, hext.lookup hk'.lookup] at he
    exact he

end SpimCompiler.Mips
