import SpimCompiler.Proofs.NodeEncoding

namespace SpimCompiler

open Json

theorem Kind.readsAs (k : Kind) : ReadsAs Kind.read (tokens (.str k.name)) k := by
  intro ts cs _ hts
  rw [tokens_scalar (.str _)] at hts
  obtain ⟨rest, hskip, hrest⟩ := exists_quote hts
  have hname : Named.ofName? k.name = some k := Named.ofName?_name k
  refine ⟨rest, ?_, hrest⟩
  simp [Kind.read, hskip, stringBody_quoted, hname, bind, Except.bind]

namespace Node

variable {n : Node NodeId}

def Draft.add (d : Draft) (m : String × Json) : Draft := { d with fields := m :: d.fields }

theorem foldl_add (ms : List (String × Json)) (d : Draft) :
    ms.foldl Draft.add d = ⟨d.kind, ms.reverse ++ d.fields⟩ := by
  induction ms generalizing d with
  | nil => rfl
  | cons m ms ih => simp [ih, Draft.add]

theorem exists_split {k : Kind} {ms : List (String × Json)} {ws : List Json}
    (h : fieldValues? (⟨"kind", false⟩ :: k.fields) (.obj ms) = some (.str k.name :: ws)) :
    ∃ before behind, ms = before ++ ("kind", .str k.name) :: behind ∧
      (∀ m ∈ before ++ behind, m.1 ≠ "kind") ∧
      fieldValues? k.fields (.obj (before ++ behind)) = some ws := by
  simp only [fieldValues?, List.mapM_cons, Option.bind_eq_bind, Option.bind_eq_some_iff,
    Option.pure_def, Option.some.injEq, List.cons.injEq] at h
  obtain ⟨_, hkind, _, hfields, rfl, rfl⟩ := h
  obtain ⟨before, behind, rfl, hbefore, -, hbehind⟩ :=
    List.filter_eq_cons_iff.1 (filter_eq_of_lookup? rfl hkind)
  have hnot : ∀ m ∈ before ++ behind, m.1 ≠ "kind" := by
    intro m hm
    rcases List.mem_append.1 hm with hm | hm
    · simpa using hbefore m hm
    · simpa using List.filter_eq_nil_iff.1 hbehind m hm
  refine ⟨before, behind, rfl, hnot, ?_⟩
  rw [← fieldValues?_append_cons (m := ("kind", .str k.name)) k.name_ne_kind]
  exact hfields

theorem readMember_kind_readsAs (k : Kind) (fields : List (String × Json)) :
    ReadsAs (readMember ⟨none, fields⟩ "kind") ([':'] :: tokens (.str k.name))
      ⟨some k, fields⟩ := by
  intro ts cs hd hts
  obtain ⟨cs', rest, hcolon, hread, hrest⟩ := k.readsAs.exists_behind_colon hd hts
  refine ⟨rest, ?_, hrest⟩
  simp [readMember, hcolon, hread, bind, Except.bind]

theorem readMember_field_readsAs {m : String × Json} (hk : m.1 ≠ "kind") (hm : m.2.Within 2)
    (d : Draft) : ReadsAs (readMember d m.1) ([':'] :: m.2.tokens) (d.add m) := by
  intro ts cs hd hts
  have hvalue : ReadsAs (value maxDepth) m.2.tokens m.2 := (hm.mono (by decide)).readsAs
  obtain ⟨rest, hread, hrest⟩ := hvalue.pushMember d.fields m.1 ts cs hd hts
  refine ⟨rest, ?_, hrest⟩
  simp only [readMember, if_neg hk, hread, bind, Except.bind]
  rfl

theorem readsMembers_split {k : Kind} {before behind : List (String × Json)}
    (hk : ∀ m ∈ before ++ behind, m.1 ≠ "kind") (hw : ∀ m ∈ before ++ behind, m.2.Within 2) :
    ReadsMembers readMember ⟨none, []⟩ (before ++ ("kind", .str k.name) :: behind)
      ⟨some k, (before ++ behind).reverse⟩ := by
  have hfields {ms : List (String × Json)} (hms : ms ⊆ before ++ behind) (d : Draft) :
      ReadsMembers readMember d ms ⟨d.kind, ms.reverse ++ d.fields⟩ := by
    rw [← foldl_add]
    exact .of_push (fun m hm d ↦ readMember_field_readsAs (hk m (hms hm)) (hw m (hms hm)) d) d
  have hbefore := hfields (List.subset_append_left before behind) ⟨none, []⟩
  have hbehind := hfields (List.subset_append_right before behind) ⟨some k, before.reverse⟩
  rw [List.append_nil] at hbefore
  rw [List.reverse_append]
  exact hbefore.append (.cons (readMember_kind_readsAs k before.reverse) hbehind)

theorem readObject_readsAs {before behind : List (String × Json)}
    (hk : ∀ m ∈ before ++ behind, m.1 ≠ "kind") (hw : ∀ m ∈ before ++ behind, m.2.Within 2)
    (h : ofRecord n.kind (.obj (before ++ behind)) = .ok n) :
    ReadsAs Node.read (tokens (.obj (before ++ ("kind", .str n.kind.name) :: behind))) n := by
  intro ts cs hd hts
  rw [tokens_obj] at hts
  obtain ⟨cs', rest, hskip, hmembers, hrest⟩ :=
    (readsMembers_split hk hw).members_row.exists_behind (by decide) hd hts
  refine ⟨rest, ?_, hrest⟩
  simp only [Node.read, hskip, readObject, hmembers, List.reverse_reverse, h, bind, Except.bind]

theorem readArray_readsAs {vs : List Json} (hw : ∀ v ∈ vs, v.Within 2)
    (h : ofRecord n.kind (.arr vs) = .ok n) :
    ReadsAs Node.read (tokens (.arr (.str n.kind.name :: vs))) n := by
  have hitems : ReadsItems (pushItem (value maxDepth)) [] (vs.map tokens)
      (vs.foldl (fun ws v ↦ v :: ws) []) :=
    .of_push (fun v hv ↦ (hw v hv).opens)
      (fun v hv ws ↦ ((hw v hv).mono (by decide)).readsAs.pushItem ws) []
  have hopens : Opens (tokens (.str n.kind.name)) := Within.opens (d := 0) (.str _)
  intro ts cs hd hts
  have htokens : tokens (.arr (.str n.kind.name :: vs)) ++ ts = ['['] :: (tokens (.str n.kind.name)
      ++ ((vs.map tokens).flatMap ([','] :: ·) ++ [']'] :: ts)) := by
    simp [tokens_arr, row]
  rw [htokens] at hts
  obtain ⟨cs₁, hskip, hcs₁⟩ := hts.exists_skipBlanks (by decide)
  obtain ⟨cs₂, hnext, hcs₂⟩ := hopens.nextItem_first hcs₁
  obtain ⟨cs₃, hkind, hcs₃⟩ := n.kind.readsAs _ cs₂ (delimited_more (.inl rfl) _ ts) hcs₂
  obtain ⟨rest, hread, hrest⟩ := hitems.items_more ts cs₃ hd (by rwa [List.append_assoc])
  refine ⟨rest, ?_, hrest⟩
  simp only [Node.read, hskip, List.nil_append, readArray, hnext, hkind, hread, bind, Except.bind]
  simp [h]

theorem readsAs_of_respelled {v : Json} (h : n.toJson.Respelled v) :
    ReadsAs Node.read v.tokens n := by
  obtain ⟨ws, hws, hvalues⟩ := exists_fieldValues?_of_respelled h
  have hwithin := h.within n.within_toJson
  have hrecord {fields : Json} (hfields : fieldValues? n.kind.fields fields = some ws) :
      ofRecord n.kind fields = .ok n := by
    rw [ofRecord, ofRecord?, hfields, Option.bind_some, ofValues?_of_respelled hvalues]
  cases v with
  | obj ms =>
    obtain ⟨before, behind, rfl, hkind, hfields⟩ := exists_split hws
    cases hwithin with
    | obj hms =>
      refine readObject_readsAs hkind (fun m hm ↦ hms m ?_) (hrecord hfields)
      rcases List.mem_append.1 hm with hm | hm
      · exact List.mem_append_left _ hm
      · exact List.mem_append_right _ (List.mem_cons_of_mem _ hm)
  | arr vs =>
    simp only [fieldValues?, Option.ite_none_right_eq_some, Option.some.injEq] at hws
    obtain ⟨hlength, rfl⟩ := hws
    cases hwithin with
    | arr hvs =>
      refine readArray_readsAs (fun v hv ↦ hvs v (List.mem_cons_of_mem _ hv)) (hrecord ?_)
      simp only [fieldValues?, Nat.succ.inj hlength, if_true]
  | null | bool _ | int _ | real _ | str _ => cases hws

end Node

namespace Arena

variable {a : Arena}

theorem readsItems_pushRead {ns : List (Node NodeId)} {ws : List Json}
    (h : List.Forall₂ Respelled (ns.map Node.toJson) ws) (nodes : Array (Node NodeId)) :
    ReadsItems pushRead nodes (ws.map tokens) (ns.foldl Array.push nodes) := by
  induction ns generalizing ws nodes with
  | nil =>
    cases h
    exact .nil nodes
  | cons n ns ih =>
    cases h with
    | cons hn h =>
      refine .cons (hn.within n.within_toJson).opens ?_ (ih h (nodes.push n))
      intro ts cs hd hts
      obtain ⟨rest, hread, hrest⟩ := Node.readsAs_of_respelled hn ts cs hd hts
      refine ⟨rest, ?_, hrest⟩
      simp only [pushRead, hread, bind, Except.bind]

theorem readNodes_readsAs {nodes : Array (Node NodeId)} {v : Json}
    (h : (arr (nodes.toList.map Node.toJson)).Respelled v) : ReadsAs readNodes v.tokens nodes := by
  cases h with
  | @arr _ ws h =>
    have hitems := (readsItems_pushRead h #[]).items_row
    have hpush : nodes.toList.foldl Array.push #[] = nodes := by simp [-Array.foldl_toList]
    rw [hpush] at hitems
    intro ts cs hd hts
    rw [tokens_arr] at hts
    obtain ⟨cs', rest, hskip, hread, hrest⟩ := hitems.exists_behind (by decide) hd hts
    refine ⟨rest, ?_, hrest⟩
    simp only [readNodes, hskip, hread]

theorem readRoot_readsAs {root : Option NodeId} {v : Json}
    (h : (Encoding.toJson root).Respelled v) : ReadsAs readRoot v.tokens root := by
  intro ts cs hd hts
  have hwithin := Encoding.Lawful.within root
  obtain ⟨c, cs', rest, hskip, hc, hscalar, hrest⟩ :=
    exists_scalar_of_spaced (h.within hwithin) hd hts
  have hsquare : c ≠ '[' := hc.ne (by decide) (by decide)
  have hcurly : c ≠ '{' := hc.ne (by decide) (by decide)
  refine ⟨rest, ?_, hrest⟩
  simp [readRoot, hskip, hsquare, hcurly, hscalar, Encoding.ofJson?_of_respelled h, bind,
    Except.bind]

theorem readMember_nodes_readsAs {nodes : Array (Node NodeId)} {v : Json}
    (h : (arr (nodes.toList.map Node.toJson)).Respelled v) (root : Option (Option NodeId)) :
    ReadsAs (readMember ⟨none, root⟩ "nodes") ([':'] :: v.tokens) ⟨some nodes, root⟩ := by
  intro ts cs hd hts
  obtain ⟨cs', rest, hcolon, hread, hrest⟩ := (readNodes_readsAs h).exists_behind_colon hd hts
  refine ⟨rest, ?_, hrest⟩
  simp [readMember, hcolon, hread, bind, Except.bind]

theorem readMember_root_readsAs {root : Option NodeId} {v : Json}
    (h : (Encoding.toJson root).Respelled v) (nodes : Option (Array (Node NodeId))) :
    ReadsAs (readMember ⟨nodes, none⟩ "root") ([':'] :: v.tokens) ⟨nodes, some root⟩ := by
  intro ts cs hd hts
  obtain ⟨cs', rest, hcolon, hread, hrest⟩ := (readRoot_readsAs h).exists_behind_colon hd hts
  refine ⟨rest, ?_, hrest⟩
  simp [readMember, hcolon, hread, bind, Except.bind]

theorem exists_closeArray {ts : List Token} {cs : List Char} (h : Spaced ([']'] :: ts) cs) :
    ∃ rest, closeArray cs = .ok rest ∧ Spaced ts rest := by
  obtain ⟨rest, hskip, hrest⟩ := h.exists_skipBlanks (by decide)
  refine ⟨rest, ?_, hrest⟩
  simp only [closeArray, hskip, List.nil_append, if_true]

theorem exists_readsMembers {kept ms : List (String × Json)} {ws : List Json}
    (ho : Omits [("nodes", .arr (a.nodes.toList.map Node.toJson)), ("root", Encoding.toJson a.root)]
      kept) (hp : kept.Perm ms) (h : List.Forall₂ Respelled (ms.map Prod.snd) ws) :
    ∃ d, ReadsMembers readMember ⟨none, none⟩ ((ms.map Prod.fst).zip ws) d ∧
      d.nodes = some a.nodes ∧ d.root.join = a.root := by
  rcases ho.eq_or_eq nofun with rfl | ⟨rfl, hroot⟩
  · rcases List.pair_perm.1 hp with rfl | rfl
    · cases h with | cons hnodes h
      cases h with | cons hroot h
      cases h
      exact ⟨_, .cons (readMember_nodes_readsAs hnodes none)
        (.cons (readMember_root_readsAs hroot _) (.nil _)), rfl, rfl⟩
    · cases h with | cons hroot h
      cases h with | cons hnodes h
      cases h
      exact ⟨_, .cons (readMember_root_readsAs hroot none)
        (.cons (readMember_nodes_readsAs hnodes _) (.nil _)), rfl, rfl⟩
  · obtain rfl := List.singleton_perm.1 hp
    cases h with | cons hnodes h
    cases h
    refine ⟨_, .cons (readMember_nodes_readsAs hnodes none) (.nil _), rfl, ?_⟩
    cases hnone : a.root with
    | none => rfl
    | some id => simp [hnone, Encoding.toJson] at hroot

theorem readObject_readsAs {ms : List (String × Json)} {d : Draft}
    (h : ReadsMembers readMember ⟨none, none⟩ ms d) (hnodes : d.nodes = some a.nodes)
    (hroot : d.root.join = a.root) : ReadsAs readDocument (tokens (.obj ms)) a := by
  intro ts cs hd hts
  rw [tokens_obj] at hts
  obtain ⟨cs', rest, hskip, hmembers, hrest⟩ := h.members_row.exists_behind (by decide) hd hts
  refine ⟨rest, ?_, hrest⟩
  simp only [readDocument, hskip, readObject, hmembers, hnodes, hroot, bind, Except.bind]

theorem readArray_readsAs {v w : Json}
    (hv : (arr (a.nodes.toList.map Node.toJson)).Respelled v)
    (hw : (Encoding.toJson a.root).Respelled w) :
    ReadsAs readDocument (tokens (.arr [v, w])) a := by
  intro ts cs hd hts
  have hopens : Opens v.tokens := by
    cases hv with
    | arr _ => exact ⟨'[', [], _, tokens_arr _, by decide, by decide⟩
  have hopens' : Opens w.tokens := (hw.within (Encoding.Lawful.within a.root)).opens
  have htokens : tokens (.arr [v, w]) ++ ts =
      ['['] :: (v.tokens ++ [','] :: (w.tokens ++ [']'] :: ts)) := by
    simp [tokens_arr, row]
  rw [htokens] at hts
  obtain ⟨cs₁, hskip, hcs₁⟩ := hts.exists_skipBlanks (by decide)
  obtain ⟨cs₂, hfirst, hcs₂⟩ := hopens.nextItem_first hcs₁
  obtain ⟨cs₃, hnodes, hcs₃⟩ := readNodes_readsAs hv _ cs₂ (by simp [Delimited]) hcs₂
  obtain ⟨cs₄, hcomma, hcs₄⟩ := hopens'.nextItem_comma hcs₃
  obtain ⟨cs₅, hroot, hcs₅⟩ := readRoot_readsAs hw _ cs₄ (by simp [Delimited]) hcs₄
  obtain ⟨rest, hclose, hrest⟩ := exists_closeArray hcs₅
  refine ⟨rest, ?_, hrest⟩
  simp only [readDocument, hskip, List.nil_append, readArray, hfirst, hnodes, hcomma, hroot, hclose,
    bind, Except.bind]

theorem readDocument_readsAs {v : Json} (h : a.toJson.Respelled v) :
    ReadsAs readDocument v.tokens a := by
  cases h with
  | obj ho hp h =>
    obtain ⟨d, hd, hnodes, hroot⟩ := exists_readsMembers ho hp h
    exact readObject_readsAs hd hnodes hroot
  | values h =>
    cases h with | cons hnodes h
    cases h with | cons hroot h
    cases h
    exact readArray_readsAs hnodes hroot

theorem read_of_spaced {v : Json} {text : String} (h : a.toJson.Respelled v)
    (htext : Spaced v.tokens text.toList) : read text = .ok a := by
  rw [← List.append_nil v.tokens] at htext
  have hend : Delimited [] := by simp [Delimited]
  obtain ⟨rest, hread, hrest⟩ := readDocument_readsAs h [] text.toList hend htext
  simp [read, hread, hrest.skipBlanks_eq_nil, bind, Except.bind]

theorem toList_text (a : Arena) : a.text.toList = a.toJson.tokens.flatten := by
  rw [text, compactText, String.toList_ofList, flatten_tokens]

/-- An arena is read from the text that is written for it. -/
theorem read_text_eq_ok (a : Arena) : read a.text = .ok a := by
  refine read_of_spaced (.refl _) ?_
  rw [toList_text, ← List.flatMap_id]
  exact Spaced.flatMap (b := []) (by simp) _

/-- The compact text of an arena is one of its spellings, and each of them is read as the arena. -/
theorem read_respelled (a : Arena) :
    a.toJson.tokens.flatten = a.text.toList ∧
      ∀ (v : Json) (text : String), a.toJson.Respelled v → Spaced v.tokens text.toList →
        read text = .ok a :=
  ⟨a.toList_text.symm, fun _ _ hv htext ↦ read_of_spaced hv htext⟩

end Arena

def respelt : Arena :=
  ⟨#[.functionDefinition "f" [⟨"a", .int⟩] none ⟨1⟩, .statementBlock []], some ⟨0⟩⟩

namespace respelt

def spelling : Json :=
  .arr [.arr [.obj [("body", .int 1), ("parameters", .arr [.arr [.str "a", .str "Int"]]),
      ("name", .str "f"), ("kind", .str "FunctionDefinition")],
    .arr [.str "StatementBlock", .arr []]], .int 0]

def spacedText : String :=
  " [ [ \x7b \"body\" : 1 , \"parameters\" : [ [ \"a\" , \"Int\" ] ] , \"name\" : \"f\" , " ++
  "\"kind\" : \"FunctionDefinition\" \x7d , [ \"StatementBlock\" , [ ] ] ] , 0 ]"

theorem respelled : respelt.toJson.Respelled spelling := by
  have hparameter : (Encoding.toJson (⟨"a", .int⟩ : Parameter)).Respelled
      (.arr [.str "a", .str "Int"]) :=
    .values (.cons (.str _) (.cons (.str _) .nil))
  have hfunction :
      (Node.toJson (.functionDefinition "f" [⟨"a", .int⟩] none (⟨1⟩ : NodeId))).Respelled
      (.obj [("body", .int 1), ("parameters", .arr [.arr [.str "a", .str "Int"]]),
        ("name", .str "f"), ("kind", .str "FunctionDefinition")]) :=
    .obj (.keep _ (.keep _ (.keep _ (.drop _ (.keep _ .nil))))) (List.reverse_perm _).symm
      (.cons (.int 1) (.cons (.arr (.cons hparameter .nil)) (.cons (.str _) (.cons (.str _) .nil))))
  have hblock : (Node.toJson (.statementBlock ([] : List NodeId))).Respelled
      (.arr [.str "StatementBlock", .arr []]) :=
    .values (.cons (.str _) (.cons (.arr .nil) .nil))
  exact .values (.cons (.arr (.cons hfunction (.cons hblock .nil))) (.cons (.int 0) .nil))

theorem spaced : Spaced spelling.tokens spacedText.toList := by
  have htext : spacedText.toList = spelling.tokens.flatMap ([' '] ++ ·) := by cbv
  rw [htext]
  exact .flatMap (List.forall_mem_singleton.2 rfl) _

theorem read_respelled_at :
    respelt.toJson.Respelled spelling ∧ Spaced spelling.tokens spacedText.toList ∧
      Arena.read spacedText = .ok respelt :=
  ⟨respelled, spaced, (Arena.read_respelled respelt).2 spelling spacedText respelled spaced⟩

end respelt

end SpimCompiler
