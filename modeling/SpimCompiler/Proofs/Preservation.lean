import SpimCompiler.Proofs.ScopeContents
import SpimCompiler.Proofs.Simulation
import SpimCompiler.Proofs.TypingCorrectness

namespace SpimCompiler

open Mips ScopeTree

theorem Tree.Ready.inner {scopes : ScopeTree} {types : TypeTable}
    (hchain : scopes.chain mainScope = [mainScope, globalScope])
    (hglobal : ∀ x, scopes.local? globalScope x = none) {t : Tree}
    (hr : t.Ready scopes types mainScope) (hf : t.Flat) (hp : t.Plain)
    (hk : t.Every fun n ↦ n.kind ≠ .program)
    (hid : t.Every fun n ↦ n.kind ≠ .stringLiteral ∧ ∀ x ∈ n.variableName?, isIdentifier x) :
    t.Every (Node.Inner scopes) := by
  have hscope {x : String} (hx : (scopes.definingScope? mainScope x).isSome) :
      scopes.definingScope? mainScope x = some mainScope := by
    rw [definingScope?, hchain] at hx ⊢
    by_cases hl : (scopes.local? mainScope x).isSome
    · simp [hl]
    · simp [hl, hglobal] at hx
  induction t with
  | mk i n ih =>
    have hblock : n.kind ≠ .executableBlock := hf.kind_ne
    have hinner : n.innerScope mainScope = mainScope := if_neg hblock
    obtain ⟨hrn, hrc⟩ := hr
    obtain ⟨hkn, hkc⟩ := hk
    obtain ⟨⟨hstring, hname⟩, hidc⟩ := hid
    have hdef : n.kind ≠ .functionDefinition := hp.kind_ne
    obtain ⟨-, hpc⟩ := hp
    rw [hinner] at hrn hrc
    refine .mk ⟨hkn, hblock, hstring, fun x hx ↦ ⟨hname x hx, hscope ?_⟩⟩ fun c hc ↦
      ih c hc (hrc c hc) (hf.child hdef hc) (hpc c hc) (hkc c hc) (hidc c hc)
    cases n with
    | variableDeclaration name type init | assignment name value | variableRef name =>
      obtain rfl : name = x := by simpa [Node.variableName?] using hx
      exact hrn
    | _ => simp [Node.variableName?] at hx

/-- The cells of a program and its code have no label in common, and neither has one of the labels
that every program has. -/
theorem nodup_labels_program {names : List String} {code : Fragment} {lo hi : Nat}
    (hnames : names.Nodup) (hcode : (Fragment.labels code).Nodup)
    (hminted : ∀ x ∈ Fragment.labels code, Minted lo hi x) :
    (Fragment.labels (Template.program ((names.map (Cell.labelFor "main")).map .word) [] code)).Nodup
      := by
  rw [labels_program, List.nodup_append, List.nodup_append]
  refine ⟨by decide, ⟨hnames.map Cell.labelFor_main_injective, List.nodup_cons.2 ⟨?_, hcode⟩, ?_⟩,
    ?_⟩
  · intro h
    exact (hminted _ h).notMem_fixed (by simp)
  · intro x hx y hy he
    obtain ⟨name, -, rfl⟩ := List.mem_map.1 hx
    obtain rfl | hy := List.mem_cons.1 hy
    · exact Cell.labelFor_notMem_fixed "main" name (by simp [he])
    · exact (hminted y hy).ne_labelFor "main" name he.symm
  · intro x hx y hy he
    subst he
    have hfixed : x ∈ ["main", "bool_true", "bool_false"] := List.mem_cons_of_mem _ hx
    obtain hy | hy := List.mem_append.1 hy
    · obtain ⟨name, -, rfl⟩ := List.mem_map.1 hy
      exact Cell.labelFor_notMem_fixed "main" name hfixed
    · obtain rfl | hy := List.mem_cons.1 hy
      · exact absurd hx (by decide)
      · exact (hminted x hy).notMem_fixed hfixed

variable {m : Image} {cells : List String} {s : State}

theorem Mips.Image.exists_starts {pc : Nat} (h : m.target? "main" = some pc) : ∃ s, m.Starts s := by
  let s : State :=
    { pc
      regs := fun _ ↦ .address ⟨.stack, 0⟩
      memory := fun p ↦ .number (m.data.getD p.offset.toNat 0) }
  exact ⟨s, h, rfl, fun k _ ↦ rfl, rfl, rfl⟩

theorem Datum.word_of_initial {τ : TypeName} {v : Datum} (h : Datum.initial τ = some v) :
    v.word = 0 := by
  cases τ <;> simp [Datum.initial] at h <;> subst h <;> rfl

theorem Mips.Image.HasCell.loadWord_start {name : String} {k : Nat} (h : m.HasCell name k)
    (hs : m.Starts s) : s.loadWord m ⟨.data, k⟩ = some (.word 0) := by
  have hbyte (j : Nat) (hj : j < 4) : s.memory ⟨.data, (k : Int) + j⟩ = .number 0 := by
    obtain ⟨hlt, hzero⟩ := List.getElem?_eq_some_iff.1 (h.zero j hj)
    have hdata := hs.data (k + j) hlt
    rw [List.getD_eq_getElem?_getD, h.zero j hj] at hdata
    simpa using hdata
  have h0 : s.memory ⟨.data, k⟩ = .number 0 := by simpa using hbyte 0 (by decide)
  have h1 : s.memory ⟨.data, (k : Int) + 1⟩ = .number 0 := hbyte 1 (by decide)
  have h2 : s.memory ⟨.data, (k : Int) + 2⟩ = .number 0 := hbyte 2 (by decide)
  have h3 : s.memory ⟨.data, (k : Int) + 3⟩ = .number 0 := hbyte 3 (by decide)
  rw [State.loadWord, if_pos (h.wordMapped s)]
  simp [Place.shift, h0, h1, h2, h3, Value.ofBytes]

theorem represents_start (hl : Layout m cells) (hs : m.Starts s) {Γ : Env}
    (hΓ : ∀ x τ, Γ.lookup x = some τ → Cell.labelFor "main" x ∈ cells) :
    Represents m cells (.start Γ) s := by
  refine ⟨fun x v hx ↦ ?_, fun k hk ↦ hs.data k ?_⟩
  · obtain ⟨τ, hτ, hv⟩ := Option.bind_eq_some_iff.1 hx
    have hmem := hΓ x τ hτ
    obtain ⟨k, hk, -⟩ := hl.cell _ hmem
    refine ⟨hmem, ⟨.data, k⟩, by simp [Image.place?, hk.lookup], ?_⟩
    rw [hk.loadWord_start hs, Datum.word_of_initial hv]
  · have hlen := hl.texts.length_le
    have hbytes : (utf8 "true" ++ 0 :: utf8 "false" ++ [0]).length = 11 := by decide
    omega

theorem Mips.Image.steps_exit {pc : Nat} (h : CodeAt m s.pc (Template.call Service.exit.code) pc) :
    ∃ s', m.Steps s s' ∧ m.AtExit s' ∧ s'.output = s.output := by
  have hcode : CodeAt m s.pc ([Instr.li .v0 10].map .instr ++ [.instr .syscall]) pc := h
  have hrun : s.run m [.li .v0 10] = some (s.set .v0 (.word 10)) := rfl
  obtain ⟨hsteps, hc⟩ := State.steps_run (by simp [Instr.sequential]) hcode hrun
  exact ⟨_, hsteps, ⟨(codeAt_instr.1 hc).1, rfl⟩, rfl⟩

variable {r : Analysis} {part : NodeId → Fragment} {σ σ' : Store} {Γ : Env} {o : List Datum}

theorem Tree.Every.of_lookup {P : Node Tree → Prop} {vars : Option Tree}
    (h : ∀ v ∈ vars, v.Every P) {x : String} {τ : TypeName}
    (hx : ((vars.toList.flatMap Tree.declarations).filterMap Tree.binding?).lookup x = some τ) :
    ∃ init, P (.variableDeclaration x τ init) := by
  obtain ⟨pre, post, hsplit, -⟩ := List.lookup_eq_some_iff.1 hx
  have hmem : (x, τ) ∈ (vars.toList.flatMap Tree.declarations).filterMap Tree.binding? := by
    simp [hsplit]
  obtain ⟨⟨i, n⟩, hd, hb⟩ := List.mem_filterMap.1 hmem
  obtain ⟨⟨k, b⟩, hv, hd⟩ := List.mem_flatMap.1 hd
  obtain ⟨-, hchildren⟩ := h _ (by simpa using hv)
  cases b with
  | variableBlock ds =>
    obtain ⟨hn, -⟩ := hchildren _ hd
    cases n with
    | variableDeclaration name type init =>
      obtain ⟨rfl, rfl⟩ : name = x ∧ type = τ := by simpa [Tree.binding?] using hb
      exact ⟨init, hn⟩
    | _ => simp [Tree.binding?] at hb
  | _ => simp [Tree.declarations] at hd

theorem performs_main (hq : r.scopes.qualifiedName mainScope = "main") (hl : Layout m cells)
    {j : NodeId} {vars : Option Tree} {body : Tree} (hv : ∀ v ∈ vars, Derives .variableBlock v)
    (hd : Declares [] (vars.toList.flatMap Tree.declarations) Γ) (hb : Checks Γ body)
    (ha : Annotated r.types [] (.mk j (.executableBlock vars body)))
    (hc : ∀ t ∈ vars.toList ++ [body], Composed r part t ∧
      t.Every fun n ↦ ∀ x ∈ n.variableName?, Cell.labelFor "main" x ∈ cells)
    (hi : Initialises (.start Γ) (vars.toList.flatMap Tree.declarations) σ)
    (he : Executes σ [body] σ' o) :
    Performs m cells ((vars.toList ++ [body]).flatMap fun t ↦ part t.id) (.start Γ) σ' o := by
  have hperform (hσ : σ.Typed Γ) : Performs m cells (part body.id) σ σ' o := by
    obtain ⟨hcomp, hnamed⟩ := hc body (by simp)
    simpa using he.performs hq hl hσ (by simpa using ⟨hb, ha.body hd, hcomp, hnamed⟩)
  cases vars with
  | none =>
    cases hi
    simpa using hperform (Store.typed_start Γ)
  | some v =>
    obtain ⟨hcomp, hnamed⟩ := hc v (by simp)
    have hv := hv v rfl
    cases hv with
    | @variableBlock k ds _ =>
      have hds : (some (Tree.mk k (.variableBlock ds))).toList.flatMap Tree.declarations = ds := by
        simp [Tree.declarations]
      rw [hds] at hd hi
      obtain ⟨-, -, hk, hcs⟩ := hcomp
      obtain ⟨-, hnamed⟩ := hnamed
      have htr : ∀ pre d post, ds = pre ++ d :: post →
          Translated r part cells ([] ++ pre.filterMap Tree.binding?) d := by
        rintro pre d post rfl
        have hmem : d ∈ pre ++ d :: post := by simp
        exact ⟨ha.declaration, hcs d hmem, hnamed d hmem⟩
      obtain ⟨hinit, hσ⟩ := hi.performs hq hl hd (Store.typed_start Γ) htr
      have hcode : part k = ds.flatMap fun t ↦ part t.id := by
        rw [← hk]
        simp [compose, Node.map, List.flatMap_map]
      simpa [hcode] using hinit.append (hperform hσ)

theorem Generation.Generated.part_program {g : Generation} {i j : NodeId} {vars : Option Tree}
    {body : Tree}
    (hg : Generated r {} g [.mk i (.program [] (.mk j (.executableBlock vars body)))]) :
    ∃ q : Places, Coded r g.part mainScope (vars.toList ++ [body]) {} q ∧
      g.part i = Template.program (q.storage.cells.toList.map fun c ↦ .word c.label)
        (q.pool.entries.toList.map fun c ↦ .asciiz c.label c.value)
        ((vars.toList ++ [body]).flatMap fun t ↦ g.part t.id) := by
  obtain _ | ⟨hc, hi, -⟩ := hg.coded
  obtain _ | ⟨hcm, hj, hnil⟩ := hc
  cases hnil
  refine ⟨_, hcm, ?_⟩
  have hj' := congrArg Prod.fst hj
  have hp' := congrArg Prod.snd hj
  have hi' := congrArg Prod.fst hi
  simp only [compose, Node.map] at hi' hj' hp'
  subst hp'
  rw [← hi', Tree.id_mk, ← hj']
  cases vars <;> simp

/-- The code of an accepted main block without strings is assembled, and runs as the block does. -/
theorem assemble_main (hq : r.scopes.qualifiedName mainScope = "main") {vars : Option Tree}
    {body : Tree} {j : NodeId} {q : Places}
    (hcoded : Coded r part mainScope (vars.toList ++ [body]) {} q)
    (hinner : ∀ t ∈ vars.toList ++ [body], t.Every (Node.Inner r.scopes))
    (hv : ∀ v ∈ vars, Derives .variableBlock v)
    (hd : Declares [] (vars.toList.flatMap Tree.declarations) Γ) (hb : Checks Γ body)
    (ha : Annotated r.types [] (.mk j (.executableBlock vars body)))
    (hi : Initialises (.start Γ) (vars.toList.flatMap Tree.declarations) σ)
    (he : Executes σ [body] σ' o) :
    ∃ m, assemble (Fragment.text (Template.program
        (q.storage.cells.toList.map fun c ↦ .word c.label)
        (q.pool.entries.toList.map fun c ↦ .asciiz c.label c.value)
        ((vars.toList ++ [body]).flatMap fun t ↦ part t.id))) = some m ∧
      (∃ s, m.Starts s) ∧
      ∀ s, m.Starts s → ∃ s', m.Steps s s' ∧ m.AtExit s' ∧
        s'.output = o.map fun v ↦ utf8 v.text := by
  obtain ⟨htidy, hpool, -, hts⟩ := hcoded.composed hq hinner ⟨by simp, by simp⟩
  obtain ⟨-, hnodup, hminted⟩ := hcoded.labels fun t ht ↦ (hinner t ht).mono fun _ h ↦ h.program
  have hcells : (q.storage.cells.toList.map fun c ↦ Line.word c.label) =
      (q.vars.map (Cell.labelFor "main")).map .word := by
    simp only [Places.vars, List.map_map]
    refine List.map_congr_left fun c hc ↦ ?_
    exact congrArg (fun d : Cell ↦ Line.word d.label) (htidy.cell hc).1
  have hstrings : (q.pool.entries.toList.map fun c ↦ Line.asciiz c.label c.value) = [] := by
    rw [hpool]
    rfl
  rw [hcells, hstrings]
  have hclean : Fragment.Clean ((vars.toList ++ [body]).flatMap fun t ↦ part t.id) :=
    Fragment.clean_flatMap fun t ht ↦ (hts t ht).2.1
  have hwords : ∀ l ∈ (q.vars.map (Cell.labelFor "main")).map Line.word, l.Readable := by
    intro l hl
    simp only [Places.vars, List.map_map, List.mem_map] at hl
    obtain ⟨c, hc, rfl⟩ := hl
    exact isName_labelFor (htidy.cell hc).2
  rw [← Fragment.labels_flatMap] at hnodup hminted
  obtain ⟨m, pc, pc', hasm, hmain, hat, hl⟩ := assemble_program (fun l hl ↦ (hclean l hl).1)
    (readable_program hwords (by simp) hclean) (nodup_labels_program htidy.nodup hnodup hminted)
  refine ⟨m, hasm, Image.exists_starts hmain, fun s hs ↦ ?_⟩
  have hnamed : ∀ t ∈ vars.toList ++ [body], t.Every fun n ↦ ∀ x ∈ n.variableName?,
      Cell.labelFor "main" x ∈ q.vars.map (Cell.labelFor "main") := fun t ht ↦
    (hts t ht).2.2.mono fun n hn x hx ↦ List.mem_map_of_mem (hn x hx)
  have hperforms := performs_main hq hl hv hd hb ha (fun t ht ↦ ⟨(hts t ht).1, hnamed t ht⟩) hi he
  have hstart : Represents m (q.vars.map (Cell.labelFor "main")) (.start Γ) s := by
    refine represents_start hl hs fun x τ hx ↦ ?_
    rw [hd.eq_append, List.nil_append] at hx
    obtain ⟨init, hmem⟩ := Tree.Every.of_lookup (fun v hv ↦ hnamed v (List.mem_append_left _ (by simpa using hv))) hx
    exact hmem x rfl
  obtain ⟨_, hcode, hexit⟩ := codeAt_append.1 hat
  have hpc : s.pc = pc := Option.some.inj (hs.pc.symm.trans hmain)
  rw [← hpc] at hcode
  obtain ⟨s₁, hsteps, rfl, -, -, hout⟩ := hperforms ⟨hs.sp, Int.le_refl _, rfl⟩ hstart hcode
  obtain ⟨s₂, hsteps₂, hat₂, hout₂⟩ := Image.steps_exit hexit
  exact ⟨s₂, hsteps.trans hsteps₂, hat₂, by simp [hout₂, hout, hs.output]⟩

namespace Arena

theorem local?_global {a : Arena} (ha : a.IsForest) {i j : NodeId} {vars : Option Tree}
    {body : Tree} (hp : a.Holds (.mk i (.program [] (.mk j (.executableBlock vars body)))))
    {phrase : NodeId → String} {report : Report} {s : Typing}
    (hs : Typing.Judged phrase [.mk i (.program [] (.mk j (.executableBlock vars body)))]
      { scopes := withMain, report } s) (x : String) :
    s.scopes.local? globalScope x = none := by
  obtain ⟨s₁, hs₁, rfl⟩ := hs.inv (by simp [Node.kind]) (by simp [Node.kind])
  cases hs₁ with
  | skip hk => simp [Node.kind] at hk
  | @cons _ s₂ _ _ _ _ _ hs₂ hs₁ =>
    obtain rfl := Typing.judged_nil_iff.1 hs₁
    have hm := hp.child (c := .mk j (.executableBlock vars body)) (by simp [Node.children])
    have hne : globalScope ≠ mainScope := by decide
    have hl := hs₂.local?_of_flat (fun c hc ↦ hm.flat_of_block ha hc) hne x
    exact hl.trans (local?_forMain (.mk j (.executableBlock vars body)) globalScope x)

theorem Accepted.inner {a : Arena} (ha : a.IsForest) {i j : NodeId} {vars : Option Tree}
    {body : Tree} (hp : a.Holds (.mk i (.program [] (.mk j (.executableBlock vars body)))))
    (h : Accepted r (.mk i (.program [] (.mk j (.executableBlock vars body)))))
    (hext : withMain.Extends r.scopes) (hglobal : ∀ x, r.scopes.local? globalScope x = none)
    (hid : (Tree.mk i (.program [] (.mk j (.executableBlock vars body)))).Every
      fun n ↦ n.kind ≠ .stringLiteral ∧ ∀ x ∈ n.variableName?, isIdentifier x) :
    ∀ t ∈ vars.toList ++ [body], t.Every (Node.Inner r.scopes) := by
  intro t ht
  have hm := hp.child (c := .mk j (.executableBlock vars body)) (by simp [Node.children])
  obtain ⟨⟨-, hplain⟩, -, ⟨-, hready⟩⟩ := h
  obtain ⟨-, hplain⟩ := hplain (.mk j (.executableBlock vars body)) (by simp [Node.children])
  obtain ⟨-, hready⟩ := hready (.mk j (.executableBlock vars body)) (by simp [Node.children])
  obtain ⟨-, hid⟩ := hid
  obtain ⟨-, hid⟩ := hid (.mk j (.executableBlock vars body)) (by simp [Node.children])
  have hchain := (hext.chain_eq mainScope).trans chain_withMain
  exact (hready t ht).inner hchain hglobal (hm.flat_of_block ha ht) (hplain t ht)
    ((hm.child ht).every_kind_ne ha (hm.kind_child ha ht).1) (hid t ht)

/-- The compiler preserves the meaning of programs of numbers and truth values: if a program of the
grammar without string literals is compiled to a text and has a run that prints some values, then
the text is assembled and the machine, started in any way, comes to its exit with the texts of
these values printed. -/
theorem compile_preserves {a : Arena} {p : Tree} (hv : a.validate = .ok p.id) (hp : a.Holds p)
    (hg : Derives .program p)
    (hid : p.Every fun n ↦ n.kind ≠ .stringLiteral ∧ ∀ x ∈ n.variableName?, isIdentifier x)
    {text : String} (htext : (a.compile .asm).outcome.result = .ok (.ok text))
    {o : List Datum} (hrun : Runs p o) :
    ∃ m, assemble text = some m ∧ (∃ s, m.Starts s) ∧
      ∀ s, m.Starts s → ∃ s', m.Steps s s' ∧ m.AtExit s' ∧
        s'.output = o.map fun v ↦ utf8 v.text := by
  obtain ⟨ha, -⟩ := exists_program hv
  cases hrun with
  | @program i j functions vars body σ σ' o hinit hexec =>
    obtain ⟨r, run, hr, ⟨s, hs, hrs⟩, hacc⟩ := Pass.ends_iff.1 (ends_analyze ha hp ⟨(), #[]⟩)
    have hreport : r.report = #[] := by
      by_contra he
      rw [result_asm_of_report hv hr he] at htext
      simp at htext
    have hacc := hacc hreport
    obtain ⟨res, run', hgen, g, rfl, hgenerated⟩ :=
      Pass.ends_iff.1 (ends_generate ha hp hreport hacc run)
    rw [result_asm_of_generate hv hr hreport hgen] at htext
    obtain rfl : (g.part i).text = text := by simpa using htext
    obtain rfl := Typing.functions_eq_nil hg hacc.plain
    obtain ⟨scopes, types, report⟩ := r
    obtain ⟨rfl, rfl, rfl⟩ : scopes = s.scopes ∧ types = s.types ∧ report = s.report := by
      simpa using hrs
    have hext : withMain.Extends s.scopes := hs.grows.scopes
    have hq : s.scopes.qualifiedName mainScope = "main" := by
      rw [hext.qualifiedName_eq, qualifiedName_withMain]
    have hglobal := local?_global ha hp hs
    rw [Tree.plain_iff_rejections.1 hacc.plain] at hs
    obtain ⟨hiff, hann⟩ := Typing.judged_program hg hacc.plain (hp.nodup_ids ha) hs
    have htyped := hiff.1 hreport
    have hann := (hann htyped).child (c := .mk j (.executableBlock vars body)) (by simp [Node.kind])
      (by simp [Node.children])
    obtain ⟨q, hcoded, hpart⟩ := hgenerated.part_program
    cases htyped with
    | program hd hb =>
      cases hg with
      | program _ hmain =>
        cases hmain with
        | executableBlock hvars _ =>
          rw [hpart]
          rw [← List.nil_append ((vars.toList.flatMap _).filterMap _), ← hd.eq_append] at hinit
          exact assemble_main (r := ⟨s.scopes, s.types, s.report⟩) hq hcoded
            (hacc.inner ha hp hext hglobal hid) hvars hd hb hann hinit hexec

theorem exists_text {a : Arena} {p : Tree} (hv : a.validate = .ok p.id) (hp : a.Holds p)
    (hg : Derives .program p) (hw : WellTyped p) :
    ∃ text, (a.compile .asm).outcome.result = .ok (.ok text) := by
  obtain ⟨ha, -⟩ := exists_program hv
  have hplain := hw.plain hg
  cases hw with
  | program hd hb =>
    obtain ⟨r, run, hr, ⟨s, hs, rfl⟩, hacc⟩ := Pass.ends_iff.1 (ends_analyze ha hp ⟨(), #[]⟩)
    rw [Tree.plain_iff_rejections.1 hplain] at hs
    obtain ⟨hiff, -⟩ := Typing.judged_program hg hplain (hp.nodup_ids ha) hs
    have hreport := hiff.2 (.program hd hb)
    obtain ⟨res, run', hgen, g, rfl, -⟩ :=
      Pass.ends_iff.1 (ends_generate ha hp hreport (hacc hreport) run)
    exact ⟨_, result_asm_of_generate hv hr hreport hgen⟩

end Arena

namespace countdown

theorem runs : Runs tree [.int 1, .bool true] := by
  have hgt : CompareOp.gt.apply 1 0 = true ∧ CompareOp.gt.apply 0 0 = false := by decide
  have heq : CompareOp.eq.apply 0 0 = true := by decide
  have hsub : AddSubOp.sub.apply 1 1 = some 0 := by decide
  have hcondition {σ : Store} {n : Int32} (hn : σ "n" = some (.int n)) :
      Evaluates σ condition (.bool (CompareOp.gt.apply n 0)) :=
    .compare (.variableRef hn) .intLiteral
  have hbody {σ : Store} (hn : σ "n" = some (.int 1)) :
      Executes σ [.mk ⟨12⟩ (.statementBlock [output, step])] (σ.set "n" (.int 0)) [.int 1] :=
    .statementBlock (.cons (.printStatement (.variableRef hn))
      (.cons (.assignment (.addSub (.variableRef hn) .intLiteral hsub)) .nil))
  have hloop {σ : Store} (hn : σ "n" = some (.int 1)) :
      Executes σ [loop] (σ.set "n" (.int 0)) [.int 1] :=
    .whileTrue (hgt.1 ▸ hcondition hn) (hbody hn) (.whileFalse (hgt.2 ▸ hcondition rfl))
  have hcheck {σ : Store} (hn : σ "n" = some (.int 0)) : Executes σ [check] σ [.bool true] :=
    .printStatement (heq ▸ .compare (.variableRef hn) .intLiteral)
  have hinit : Initialises (.start [("n", .int)]) [declaration]
      ((Store.start [("n", .int)]).set "n" (.int 1)) := .value .intLiteral .nil
  exact .program hinit (.statementBlock (.cons (hloop rfl) (.cons (hcheck rfl) .nil)))

theorem every_identifier :
    tree.Every fun n ↦ n.kind ≠ .stringLiteral ∧ ∀ x ∈ n.variableName?, isIdentifier x := by
  have node {n : Node Tree} (h : n.kind ≠ .stringLiteral ∧ n.variableName?.all isIdentifier) :
      n.kind ≠ .stringLiteral ∧ ∀ x ∈ n.variableName?, isIdentifier x :=
    ⟨h.1, by simpa [Option.all_eq_true] using h.2⟩
  have leaf {i : NodeId} {n : Node Tree}
      (h : n.kind ≠ .stringLiteral ∧ n.variableName?.all isIdentifier) (hn : n.children = []) :
      (Tree.mk i n).Every fun n ↦ n.kind ≠ .stringLiteral ∧ ∀ x ∈ n.variableName?, isIdentifier x :=
    .leaf (node h) hn
  have hvars : (Tree.mk ⟨2⟩ (.variableBlock [declaration])).Every _ :=
    .one (node (by decide)) rfl (.one (node (by decide)) rfl (leaf (by decide) rfl))
  have hcondition : condition.Every _ :=
    .two (node (by decide)) rfl (leaf (by decide) rfl) (leaf (by decide) rfl)
  have houtput : output.Every _ := .one (node (by decide)) rfl (leaf (by decide) rfl)
  have hstep : step.Every _ := .one (node (by decide)) rfl
    (.two (node (by decide)) rfl (leaf (by decide) rfl) (leaf (by decide) rfl))
  have hloop : loop.Every _ := .two (node (by decide)) rfl hcondition
    (.two (node (by decide)) rfl houtput hstep)
  have hcheck : check.Every _ := .one (node (by decide)) rfl
    (.two (node (by decide)) rfl (leaf (by decide) rfl) (leaf (by decide) rfl))
  exact .one (node (by decide)) rfl
    (.two (node (by decide)) rfl hvars (.two (node (by decide)) rfl hloop hcheck))

theorem compile_preserves_at :
    countdown.validate = .ok tree.id ∧ countdown.Holds tree ∧ Derives .program tree ∧
      Runs tree [.int 1, .bool true] ∧
      ∃ text, (countdown.compile .asm).outcome.result = .ok (.ok text) ∧
        ∃ m, assemble text = some m ∧ (∃ s, m.Starts s) ∧
          ∀ s, m.Starts s → ∃ s', m.Steps s s' ∧ m.AtExit s' ∧
            s'.output = [utf8 "1", utf8 "true"] := by
  obtain ⟨text, htext⟩ := Arena.exists_text validate_eq holds derives wellTyped
  exact ⟨validate_eq, holds, derives, runs, text, htext,
    Arena.compile_preserves validate_eq holds derives every_identifier htext runs⟩

end countdown

end SpimCompiler
