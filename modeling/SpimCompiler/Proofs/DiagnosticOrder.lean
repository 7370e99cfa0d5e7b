import SpimCompiler.Proofs.Renumbering
import SpimCompiler.Proofs.WrittenTables

namespace SpimCompiler

namespace Typing

variable {phrase : NodeId → String} {s s' : Typing} {ts : List Tree}

theorem Verdict.eq_of_expected {isOk : Bool} {c d : Complaint}
    (h : (expected isOk c).complaint = some d) : d = c := by
  simp only [expected, Option.ite_none_left_eq_some, Option.some.injEq] at h
  exact h.2.symm

theorem Verdict.eq_of_operation {type : Ty} {c d : Complaint}
    (h : (operation type c).complaint = some d) : d = c := by
  simp only [operation, Option.ite_none_right_eq_some, Option.some.injEq] at h
  exact h.2.symm

/-- The second pass does not complain about the constructs that the first one rejects, and it rejects
no others. -/
theorem isSupported_of_complaint {n : Node NodeId} {c : Complaint}
    (h : (s.verdict phrase n).complaint = some c) :
    n.kind.isSupported ∧ c.category ≠ .unsupportedLanguageFeature := by
  cases n with
  | variableDeclaration name declared init =>
    refine ⟨rfl, ?_⟩
    cases hx : s.scopes.local? s.current name with
    | some x =>
      rw [verdict, hx] at h
      obtain rfl := Option.some.inj h
      simp [Complaint.category]
    | none =>
      rw [verdict, hx] at h
      obtain ⟨value, -, h⟩ := Option.bind_eq_some_iff.1 h
      obtain ⟨-, h⟩ := Option.ite_none_left_eq_some.1 h
      obtain rfl := Option.some.inj h
      simp [Complaint.category]
  | assignment name value =>
    refine ⟨rfl, ?_⟩
    cases hx : s.lookup name with
    | some x =>
      rw [verdict, hx] at h
      obtain rfl := Verdict.eq_of_expected h
      simp [Complaint.category]
    | none =>
      rw [verdict, hx] at h
      obtain rfl := Option.some.inj h
      simp [Complaint.category]
  | ifStatement | whileStatement | printStatement =>
    obtain rfl := Verdict.eq_of_expected h
    exact ⟨rfl, by simp [Complaint.category]⟩
  | unary | mulDiv | addSub | compare =>
    obtain rfl := Verdict.eq_of_operation h
    exact ⟨rfl, by simp [Complaint.category]⟩
  | variableRef name =>
    refine ⟨rfl, ?_⟩
    cases hx : s.lookup name with
    | some x => simp [verdict, variableVerdict, hx] at h
    | none =>
      rw [verdict, hx] at h
      obtain rfl := Option.some.inj h
      simp [Complaint.category]
  | _ => simp [verdict] at h

theorem Judged.exists_diagnostics (h : Judged phrase ts s s') :
    ∃ ds, s'.report.toList = s.report.toList ++ ds ∧
      (ds.map Diagnostic.node).Sublist (ts.flatMap (·.left Kind.isSupported)) ∧
      ∀ d ∈ ds, d.category ≠ .unsupportedLanguageFeature := by
  induction h with
  | nil => exact ⟨[], by simp⟩
  | @skip s s' i n ts hk _ ih =>
    obtain ⟨ds, hreport, hnodes, hcategory⟩ := ih
    refine ⟨ds, hreport, ?_, hcategory⟩
    rw [List.flatMap_cons]
    exact hnodes.trans (List.sublist_append_right _ _)
  | @cons s s₁ s' i n ts hk _ _ ihc iht =>
    obtain ⟨cs, hcs, hcnodes, hccategory⟩ := ihc
    obtain ⟨ds, hds, hdnodes, hdcategory⟩ := iht
    rw [List.flatMap_cons, Tree.left_mk, Node.entered_eq hk]
    cases hc : (s₁.verdict phrase (n.map Tree.id)).complaint with
    | none =>
      refine ⟨cs ++ ds, ?_, ?_, ?_⟩
      · simpa [inScope, give, hc, hcs] using hds
      · rw [List.map_append]
        exact (hcnodes.trans (List.sublist_append_left _ _)).append hdnodes
      · simpa [or_imp, forall_and] using ⟨hccategory, hdcategory⟩
    | some c =>
      obtain ⟨hn, hcategory⟩ := isSupported_of_complaint hc
      rw [Node.kind_map] at hn
      rw [if_pos hn]
      refine ⟨cs ++ .of i c :: ds, ?_, ?_, ?_⟩
      · simpa [inScope, give, hc, hcs] using hds
      · rw [List.map_append, List.map_cons, List.append_cons]
        exact (hcnodes.append (.refl _)).append hdnodes
      · rintro d hd
        rcases List.mem_append.1 hd with hd | hd
        · exact hccategory d hd
        · rcases List.mem_cons.1 hd with rfl | hd
          · exact hcategory
          · exact hdcategory d hd

end Typing

namespace Tree

theorem map_node_rejections (t : Tree) :
    t.rejections.map Diagnostic.node =
      (t.preorder.filter fun u ↦ !u.node.kind.isSupported).map id := by
  rw [rejections_eq]
  generalize t.preorder = us
  induction us with
  | nil => rfl
  | cons u us ih =>
    cases h : u.node.rejection? with
    | none => simp [Node.isSupported_kind, h, ih]
    | some c =>
      simp only [List.filterMap_cons, h, Option.map_some, List.map_cons, ih,
        Node.isSupported_kind, Option.isNone_some, Bool.not_false, List.filter_cons_of_pos]
      rfl

theorem category_of_mem_rejections {t : Tree} {d : Diagnostic} (h : d ∈ t.rejections) :
    d.category = .unsupportedLanguageFeature := by
  rw [rejections_eq] at h
  obtain ⟨u, -, h⟩ := List.mem_filterMap.1 h
  obtain ⟨c, hc, rfl⟩ := Option.map_eq_some_iff.1 h
  generalize u.node = n at hc
  cases n <;> simp [Node.rejection?] at hc <;> subst hc <;> rfl

theorem rejections_perm (t : Tree) :
    (t.rejections.map Diagnostic.node).Perm (t.left fun k ↦ !k.isSupported) := by
  rw [map_node_rejections]
  exact (t.preorder_perm_postorder.filter _).map _

end Tree

namespace Arena

variable {a : Arena} {root : NodeId}

/-- The diagnostics of a valid arena are those of the first pass, followed by those of the second. The
first pass rejects the function definitions, calls and returns that it visits, in the order in which
it enters them; the second one complains about other nodes, in the order in which it leaves them.
There is at most one diagnostic about a node, and none about a node in a function definition; what
is in one may be replaced by anything else. -/
theorem analyze_report_order (hv : a.validate = .ok root) :
    ∃ (r : Analysis) (t : Tree) (rejections complaints : List Diagnostic),
      (a.analyze root).outcome.result = .ok r ∧ a.Holds t ∧ t.id = root ∧
      (∀ i, a.Meets root i ↔ ∃ u ∈ t.preorder, u.id = i) ∧
      r.report.toList = rejections ++ complaints ∧
      rejections.map Diagnostic.node =
        (t.preorder.filter fun u ↦ !u.node.kind.isSupported).map Tree.id ∧
      (∀ d ∈ rejections, d.category = .unsupportedLanguageFeature) ∧
      (complaints.map Diagnostic.node).Sublist (t.postorder.map Tree.id) ∧
      (∀ d ∈ complaints, d.category ≠ .unsupportedLanguageFeature) ∧
      (r.report.toList.map Diagnostic.node).Nodup ∧
      (∀ d ∈ r.report, a.Meets root d.node) ∧
      ∀ φ b root', b.validate = .ok root' → Alike φ a root b root' →
        ∃ r', (b.analyze root').outcome.result = .ok r' ∧
          r'.report = r.report.map (Diagnostic.renumber φ) := by
  obtain ⟨ha, functions, main, ht⟩ := exists_program hv
  obtain ⟨_, run, hr, ⟨s, hs, rfl⟩, -⟩ := Pass.ends_iff.1 (ends_analyze ha ht ⟨(), #[]⟩)
  obtain ⟨ds, hds, hnodes, hcategory⟩ := hs.exists_diagnostics
  set t := Tree.mk root (.program functions main)
  simp only [List.flatMap_singleton] at hds hnodes
  refine ⟨_, t, t.rejections, ds, result_analyze hr, ht, rfl, fun i ↦ ?_, hds,
    t.map_node_rejections, fun d ↦ Tree.category_of_mem_rejections,
    hnodes.trans ((List.filter_sublist).map _), hcategory, ?_, ?_, fun φ b root' hv' h ↦ ?_⟩
  · refine ht.meets_iff.trans ?_
    simp only [t.preorder_perm_postorder.mem_iff]
  · rw [hds, List.map_append, List.nodup_append']
    refine ⟨t.rejections_perm.nodup_iff.2 (ht.nodup_left ha _), hnodes.nodup (ht.nodup_left ha _),
      fun i hi hi' ↦ ?_⟩
    obtain ⟨-, n, hn, hk⟩ := ht.mem_left_iff.1 (t.rejections_perm.subset hi)
    obtain ⟨-, n', hn', hk'⟩ := ht.mem_left_iff.1 (hnodes.subset hi')
    obtain rfl := Option.some.inj (hn.symm.trans hn')
    simp [hk'] at hk
  · intro d hd
    rw [← Array.mem_toList_iff, hds, List.mem_append] at hd
    rcases hd with hd | hd
    · exact (ht.mem_left_iff.1 (t.rejections_perm.subset (List.mem_map_of_mem hd))).1
    · exact (ht.mem_left_iff.1 (hnodes.subset (List.mem_map_of_mem hd))).1
  · obtain ⟨s₁, s', hr₁, hr', hm, -⟩ := h.compile hv hv'
    have hsame : s₁.analysis = ⟨s.scopes, s.types, s.report⟩ :=
      Except.ok.inj (hr₁.symm.trans (result_analyze hr))
    exact ⟨_, hr', hm.report.trans (by rw [← (Analysis.mk.inj hsame).2.2])⟩

end Arena

/-- The program
```
func f() : Int { return 1 }
main { print f(x) }
```
-/
def calling : Arena where
  nodes := #[.intLiteral 1, .returnStatement (some ⟨0⟩), .statementBlock [⟨1⟩],
    .executableBlock none ⟨2⟩, .functionDefinition "f" [] (some .int) ⟨3⟩, .variableRef "x",
    .functionCall "f" [⟨5⟩], .printStatement ⟨6⟩, .statementBlock [⟨7⟩],
    .executableBlock none ⟨8⟩, .program [⟨4⟩] ⟨9⟩]
  root := some ⟨10⟩

namespace calling

def emptied : Arena where
  nodes := #[.statementBlock [], .executableBlock none ⟨0⟩,
    .functionDefinition "f" [] (some .int) ⟨1⟩, .variableRef "x", .functionCall "f" [⟨3⟩],
    .printStatement ⟨4⟩, .statementBlock [⟨5⟩], .executableBlock none ⟨6⟩, .program [⟨2⟩] ⟨7⟩]
  root := some ⟨8⟩

def shift (i : NodeId) : NodeId := ⟨i.val - 2⟩

theorem validate_eq : calling.validate = .ok ⟨10⟩ :=
  Arena.validate_of_sound (by decide) (by decide) (by decide)

theorem validate_emptied : emptied.validate = .ok ⟨8⟩ :=
  Arena.validate_of_sound (by decide) (by decide) (by decide)

theorem le_of_meets {i : NodeId} (h : calling.Meets ⟨10⟩ i) : 4 ≤ i.val := by
  have hall : ∀ p ∈ calling.toList, 4 ≤ p.1.val → ∀ c ∈ p.2.entered, 4 ≤ c.val := by decide
  induction h with
  | refl => decide
  | child _ hn hc ih => exact hall _ (Arena.mem_toList hn) ih _ hc

theorem alike : Arena.Alike shift calling ⟨10⟩ emptied ⟨8⟩ where
  map_root := rfl
  get?_map {i n} hi hn := by
    have hall : ∀ p ∈ calling.toList, 4 ≤ p.1.val → emptied.get? (shift p.1) =
        some (p.2.map (if p.2.kind = .functionDefinition then fun _ ↦ ⟨1⟩ else shift)) := by
      decide
    refine ⟨_, hall (i, n) (Arena.mem_toList hn) (le_of_meets hi), fun c hc ↦ ?_⟩
    unfold Node.entered at hc
    split at hc
    · cases hc
    · rw [if_neg ‹_›]

theorem analyze_report_order_at :
    calling.validate = .ok ⟨10⟩ ∧ emptied.validate = .ok ⟨8⟩ ∧
    Arena.Alike shift calling ⟨10⟩ emptied ⟨8⟩ ∧
    ∃ (r r' : Analysis) (t : Tree) (rejections complaints : List Diagnostic),
      (calling.analyze ⟨10⟩).outcome.result = .ok r ∧ calling.Holds t ∧ t.id = ⟨10⟩ ∧
      (emptied.analyze ⟨8⟩).outcome.result = .ok r' ∧
      r.report.toList = rejections ++ complaints ∧
      rejections.map Diagnostic.node =
        (t.preorder.filter fun u ↦ !u.node.kind.isSupported).map Tree.id ∧
      (complaints.map Diagnostic.node).Sublist (t.postorder.map Tree.id) ∧
      r'.report = r.report.map (Diagnostic.renumber shift) := by
  obtain ⟨r, t, rejections, complaints, hr, ht, hid, -, hreport, hrej, -, hcomp, -, -, -, hother⟩ :=
    Arena.analyze_report_order validate_eq
  obtain ⟨r', hr', hsame⟩ := hother shift emptied ⟨8⟩ validate_emptied alike
  exact ⟨validate_eq, validate_emptied, alike, r, r', t, rejections, complaints, hr, ht, hid, hr',
    hreport, hrej, hcomp, hsame⟩

end calling

end SpimCompiler
