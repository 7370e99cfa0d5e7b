import Mathlib.Data.List.Permutation
import SpimCompiler.Proofs.Forest
import SpimCompiler.Proofs.JsonSpellings
import SpimCompiler.Tree.Reading

namespace SpimCompiler

namespace Json

theorem lookup?_of_mem {f : Field} {v : Json} {ms : List (String × Json)}
    (hn : (ms.map Prod.fst).Nodup) (hm : (f.name, v) ∈ ms) : f.lookup? ms = some v := by
  have hfilter : ms.filter (fun m ↦ m.1 == f.name) = [(f.name, v)] := by
    induction ms with
    | nil => cases hm
    | cons m ms ih =>
      obtain ⟨hnotin, hn⟩ := List.nodup_cons.1 hn
      rcases List.mem_cons.1 hm with rfl | hm
      · have hrest : ms.filter (fun m ↦ m.1 == f.name) = [] := by
          refine List.filter_eq_nil_iff.2 fun m hm heq ↦ hnotin ?_
          exact List.mem_map.2 ⟨m, hm, eq_of_beq heq⟩
        simp [hrest]
      · have hne : m.1 ≠ f.name := fun heq ↦ hnotin (List.mem_map.2 ⟨_, hm, heq.symm⟩)
        simpa [hne] using ih hn hm
  rw [Field.lookup?, hfilter]

theorem lookup?_of_notMem {f : Field} {ms : List (String × Json)} (h : f.name ∉ ms.map Prod.fst)
    (hf : f.isOptional) : f.lookup? ms = some .null := by
  have hfilter : ms.filter (fun m ↦ m.1 == f.name) = [] := by
    refine List.filter_eq_nil_iff.2 fun m hm heq ↦ h ?_
    exact List.mem_map.2 ⟨m, hm, eq_of_beq heq⟩
  rw [Field.lookup?, hfilter]
  simp [hf]

theorem fieldValues?_append_cons {fields : List Field} {m : String × Json}
    (h : ∀ f ∈ fields, f.name ≠ m.1) (ms ms' : List (String × Json)) :
    fieldValues? fields (.obj (ms ++ m :: ms')) = fieldValues? fields (.obj (ms ++ ms')) := by
  simp only [fieldValues?]
  induction fields with
  | nil => rfl
  | cons f fields ih =>
    obtain ⟨hf, hfields⟩ := List.forall_mem_cons.1 h
    have hlookup : f.lookup? (ms ++ m :: ms') = f.lookup? (ms ++ ms') := by
      simp [Field.lookup?, beq_false_of_ne hf.symm]
    rw [List.mapM_cons, List.mapM_cons, hlookup, ih hfields]

theorem filter_eq_of_lookup? {f : Field} {ms : List (String × Json)} {v : Json}
    (hf : f.isOptional = false) (h : f.lookup? ms = some v) :
    ms.filter (fun m ↦ m.1 == f.name) = [(f.name, v)] := by
  rw [Field.lookup?] at h
  split at h
  · simp [hf] at h
  · rename_i m hfilter
    have hmem : m ∈ ms.filter (fun m ↦ m.1 == f.name) := hfilter ▸ List.mem_cons_self
    obtain rfl : m.2 = v := Option.some.inj h
    rw [hfilter, ← eq_of_beq (List.mem_filter.1 hmem).2]
  · cases h

section members

variable {ms : List (String × Json)} {ws : List Json}

theorem map_fst_zip_of_forall₂ (h : List.Forall₂ Respelled (ms.map Prod.snd) ws) :
    ((ms.map Prod.fst).zip ws).map Prod.fst = ms.map Prod.fst := by
  have hl := h.length_eq
  rw [List.length_map] at hl
  exact List.map_fst_zip (by simp [hl])

theorem exists_mem_zip (h : List.Forall₂ Respelled (ms.map Prod.snd) ws) {m : String × Json}
    (hm : m ∈ ms) : ∃ w, (m.1, w) ∈ (ms.map Prod.fst).zip ws ∧ m.2.Respelled w := by
  induction ms generalizing ws with
  | nil => cases hm
  | cons m' ms ih =>
    cases h with
    | @cons _ w _ ws hw h =>
      rcases List.mem_cons.1 hm with rfl | hm
      · exact ⟨w, List.mem_cons_self, hw⟩
      · obtain ⟨w, hmem, hw⟩ := ih h hm
        exact ⟨w, List.mem_cons_of_mem _ hmem, hw⟩

end members

/-- A record is taken back from every spelling, up to the spellings of its values. -/
theorem Respelled.exists_fieldValues? {fields : List Field} {values : List Json} {v : Json}
    (h : (record fields values).Respelled v) (hn : (fields.map Field.name).Nodup)
    (hl : fields.length = values.length)
    (hnull : ∀ p ∈ fields.zip values, p.2 = .null → p.1.isOptional) :
    ∃ ws, fieldValues? fields v = some ws ∧ List.Forall₂ Respelled values ws := by
  have hfst : ((fields.map Field.name).zip values).map Prod.fst = fields.map Field.name :=
    List.map_fst_zip (by simp [hl])
  have hsnd : ((fields.map Field.name).zip values).map Prod.snd = values :=
    List.map_snd_zip (by simp [hl])
  cases h with
  | @values _ ws h =>
    rw [hsnd] at h
    refine ⟨ws, ?_, h⟩
    simp only [fieldValues?, hl, h.length_eq, if_true]
  | @obj _ kept ms ws ho hp h =>
    refine List.exists_mapM_eq_some hl fun p hp' ↦ ?_
    have hmem : (p.1.name, p.2) ∈ (fields.map Field.name).zip values := by
      rw [List.zip_map_left]
      exact List.mem_map.2 ⟨p, hp', rfl⟩
    have hkeys : (((ms.map Prod.fst).zip ws).map Prod.fst).Nodup := by
      rw [map_fst_zip_of_forall₂ h]
      refine (hp.map Prod.fst).nodup_iff.1 ((ho.sublist.map Prod.fst).nodup ?_)
      rwa [hfst]
    -- a field without a member was null, and so it is optional and null again
    by_cases hk : (p.1.name, p.2) ∈ kept
    · obtain ⟨w, hw, hpw⟩ := exists_mem_zip h (hp.mem_iff.1 hk)
      exact ⟨w, lookup?_of_mem hkeys hw, hpw⟩
    · have hpnull := (ho.mem_or hmem).resolve_left hk
      refine ⟨.null, lookup?_of_notMem ?_ (hnull p hp' hpnull), ?_⟩
      · rw [map_fst_zip_of_forall₂ h]
        have hnot := ho.notMem (by rwa [hfst]) hmem hk
        exact fun hin ↦ hnot ((hp.map Prod.fst).mem_iff.2 hin)
      · rw [show p.2 = .null from hpnull]
        exact .null

theorem Respelled.eq_of_within_zero {v w : Json} (h : v.Respelled w) (hv : v.Within 0) :
    w = v := by
  cases hv <;> cases h <;> rfl

end Json

open Json

namespace Encoding

/-- Encodings in which a value is taken back from every spelling of the JSON it is written as, whose
brackets nest at most `depth` deep. -/
class Lawful (α : Type) [Encoding α] (depth : outParam Nat) : Prop where
  ofJson?_of_respelled {x : α} {v : Json} (h : (toJson x).Respelled v) : ofJson? v = some x
  within (x : α) : (toJson x).Within depth

export Lawful (ofJson?_of_respelled)

theorem Lawful.of_scalar {α : Type} [Encoding α] (h : ∀ x : α, ofJson? (toJson x) = some x)
    (hw : ∀ x : α, (toJson x).Within 0) : Lawful α 0 where
  ofJson?_of_respelled {x v} hv := by rw [hv.eq_of_within_zero (hw x), h]
  within := hw

instance : Lawful String 0 := .of_scalar (fun _ ↦ rfl) .str

instance : Lawful Bool 0 := .of_scalar (fun _ ↦ rfl) .bool

instance : Lawful Int32 0 := by
  refine .of_scalar (fun n ↦ ?_) fun n ↦ ?_
  · have h := And.intro n.minValue_le_toInt n.toInt_le
    simp only [toJson, ofJson?, h, and_self, if_true, Int32.ofInt_toInt]
  · have hlo := n.le_toInt
    have hhi := n.toInt_lt
    have hsize : UInt32.size = 2 ^ 32 := rfl
    exact .int (by omega)

instance : Lawful NodeId 0 := by
  refine .of_scalar (fun id ↦ ?_) fun id ↦ .int id.val.toNat_lt_size
  have h : (0 : Int) ≤ id.index ∧ (id.index : Int) < UInt32.size := by
    have := id.val.toNat_lt_size
    unfold NodeId.index
    omega
  simp only [toJson, ofJson?, h, and_self, if_true, Int.toNat_natCast, NodeId.ofIndex_index]

theorem lawful_ofNamed (α : Type) [Named α] : @Lawful α (ofNamed α) 0 :=
  @Lawful.of_scalar α (ofNamed α) Named.ofName?_name fun _ ↦ .str _

instance : Lawful TypeName 0 := lawful_ofNamed TypeName

instance : Lawful UnaryOp 0 := lawful_ofNamed UnaryOp

instance : Lawful MulDivOp 0 := lawful_ofNamed MulDivOp

instance : Lawful AddSubOp 0 := lawful_ofNamed AddSubOp

instance : Lawful CompareOp 0 := lawful_ofNamed CompareOp

theorem lawful_option {α : Type} [Encoding α] [Lawful α 0]
    (h : (ofJson? .null : Option α) = none) : Lawful (Option α) 0 := by
  refine .of_scalar ?_ ?_
  · rintro (_ | x)
    · rfl
    · have hx : ofJson? (toJson x) = some x := ofJson?_of_respelled (.refl _)
      have hsome : (toJson (some x) : Json) = toJson x := rfl
      rw [hsome]
      generalize toJson x = v at hx
      cases v with
      | null => simp [h] at hx
      | _ => simp [ofJson?, hx]
  · rintro (_ | x)
    · exact .null
    · exact Lawful.within x

instance : Lawful (Option NodeId) 0 := lawful_option rfl

instance : Lawful (Option TypeName) 0 := lawful_option rfl

instance : Lawful Parameter 1 where
  ofJson?_of_respelled {p v} h := by
    obtain ⟨ws, hws, hvalues⟩ := h.exists_fieldValues? (by decide) rfl (by simp [toJson])
    cases hvalues with
    | cons hname hvalues =>
      cases hvalues with
      | cons htype hvalues =>
        cases hvalues
        have hname' := ofJson?_of_respelled hname
        have htype' := ofJson?_of_respelled htype
        simp only [ofJson?] at hname' htype' ⊢
        simp [hws, hname', htype']
  within p := by
    refine .obj fun m hm ↦ ?_
    simp only [List.map_cons, List.map_nil, List.zip_cons_cons, List.zip_nil_right, List.mem_cons,
      List.not_mem_nil, or_false] at hm
    rcases hm with rfl | rfl
    · exact Lawful.within p.name
    · exact Lawful.within p.type

instance (α : Type) [Encoding α] {depth : Nat} [Lawful α depth] : Lawful (List α) (depth + 1) where
  ofJson?_of_respelled {xs v} h := by
    cases h with
    | @arr _ ws h =>
      induction xs generalizing ws with
      | nil =>
        cases h
        rfl
      | cons x xs ih =>
        cases h with
        | cons hx h =>
          have hxs := ih h
          simp only [ofJson?] at hxs ⊢
          simp [List.mapM_cons, ofJson?_of_respelled hx, hxs]
  within xs := by
    refine .arr fun v hv ↦ ?_
    obtain ⟨x, -, rfl⟩ := List.mem_map.1 hv
    exact Lawful.within x

end Encoding

namespace Kind

theorem nodup_fields (k : Kind) : (k.fields.map Field.name).Nodup := by
  cases k <;> decide

theorem name_ne_kind (k : Kind) : ∀ f ∈ k.fields, f.name ≠ "kind" := by
  cases k <;> decide

end Kind

namespace Node

open Encoding (ofJson?_of_respelled)

variable {n : Node NodeId}

theorem length_values (n : Node NodeId) : n.kind.fields.length = n.values.length := by
  cases n <;> rfl

/-- The deepest field is the list of parameters. -/
theorem within_values (n : Node NodeId) : ∀ v ∈ n.values, v.Within 2 := by
  have hw {α : Type} {depth : Nat} [Encoding α] [Encoding.Lawful α depth] (x : α)
      (hd : depth ≤ 2) : (Encoding.toJson x).Within 2 := (Encoding.Lawful.within x).mono hd
  cases n <;> simp only [values, List.forall_mem_cons, List.not_mem_nil, false_implies,
    implies_true, and_true] <;> simp only [hw _ (Nat.zero_le 2), hw _ (Nat.le_succ 1),
    hw _ (Nat.le_refl 2), and_self]

theorem isOptional_of_null (n : Node NodeId) :
    ∀ p ∈ n.kind.fields.zip n.values, p.2 = .null → p.1.isOptional := by
  cases n <;> simp [kind, Kind.fields, values, Encoding.toJson]

theorem ofValues?_of_respelled {ws : List Json} (h : List.Forall₂ Respelled n.values ws) :
    ofValues? n.kind ws = some n := by
  cases n with
  | variableBlock _ | statementBlock _ | printStatement _ | returnStatement _ | intLiteral _
  | boolLiteral _ | stringLiteral _ | parenthesized _ | variableRef _ =>
    cases h with | cons h₁ h
    cases h
    simp [kind, ofValues?, ofJson?_of_respelled h₁]
  | program _ _ | executableBlock _ _ | assignment _ _ | whileStatement _ _ | functionCall _ _
  | unary _ _ =>
    cases h with | cons h₁ h
    cases h with | cons h₂ h
    cases h
    simp [kind, ofValues?, ofJson?_of_respelled h₁, ofJson?_of_respelled h₂]
  | variableDeclaration _ _ _ | ifStatement _ _ _ | mulDiv _ _ _ | addSub _ _ _ | compare _ _ _ =>
    cases h with | cons h₁ h
    cases h with | cons h₂ h
    cases h with | cons h₃ h
    cases h
    simp [kind, ofValues?, ofJson?_of_respelled h₁, ofJson?_of_respelled h₂,
      ofJson?_of_respelled h₃]
  | functionDefinition _ _ _ _ =>
    cases h with | cons h₁ h
    cases h with | cons h₂ h
    cases h with | cons h₃ h
    cases h with | cons h₄ h
    cases h
    simp [kind, ofValues?, ofJson?_of_respelled h₁, ofJson?_of_respelled h₂,
      ofJson?_of_respelled h₃, ofJson?_of_respelled h₄]

theorem within_toJson (n : Node NodeId) : n.toJson.Within 3 := by
  refine .obj fun m hm ↦ ?_
  rcases List.mem_cons.1 hm with rfl | hm
  · exact .str _
  · exact n.within_values _ (List.of_mem_zip hm).2

theorem exists_fieldValues?_of_respelled {v : Json} (h : n.toJson.Respelled v) :
    ∃ ws, fieldValues? (⟨"kind", false⟩ :: n.kind.fields) v = some (.str n.kind.name :: ws) ∧
      List.Forall₂ Respelled n.values ws := by
  have hnodup : ((⟨"kind", false⟩ :: n.kind.fields : List Field).map Field.name).Nodup := by
    refine List.nodup_cons.2 ⟨fun hmem ↦ ?_, n.kind.nodup_fields⟩
    obtain ⟨f, hf, hname⟩ := List.mem_map.1 hmem
    exact n.kind.name_ne_kind f hf hname
  have hnull : ∀ p ∈ (⟨"kind", false⟩ :: n.kind.fields : List Field).zip
      (.str n.kind.name :: n.values), p.2 = .null → p.1.isOptional :=
    List.forall_mem_cons.2 ⟨nofun, n.isOptional_of_null⟩
  obtain ⟨ws, hws, hvalues⟩ :=
    h.exists_fieldValues? hnodup (congrArg Nat.succ n.length_values) hnull
  cases hvalues with
  | cons hkind hvalues =>
    cases hkind
    exact ⟨_, hws, hvalues⟩

end Node

end SpimCompiler
