import Mathlib.Tactic.Common
import SpimCompiler.Json.Reader
import SpimCompiler.Json.Writer

namespace SpimCompiler.Json

inductive Stops : List Char → Prop where
  | nil : Stops []
  | blank {c : Char} (h : isBlank c) (cs : List Char) : Stops (c :: cs)
  | comma (cs : List Char) : Stops (',' :: cs)
  | square (cs : List Char) : Stops (']' :: cs)
  | curly (cs : List Char) : Stops ('}' :: cs)

theorem eq_of_isBlank {c : Char} (h : isBlank c) : c = ' ' ∨ c = '\n' ∨ c = '\t' ∨ c = '\r' := by
  simpa [isBlank, or_assoc] using h

theorem decimal_toDigits (n : Nat) : decimal (Nat.toDigits 10 n) = n := by
  have h : (fun (m : Nat) c ↦ m * 10 + digitValue c) =
      fun m c ↦ 10 * m + (c.toNat - '0'.toNat) := by
    funext m c
    rw [digitValue, Nat.mul_comm]
  rw [decimal, h]
  exact Nat.ofDigitChars_toDigits (by omega) (by omega)

theorem isDigit_of_mem_toDigits {n : Nat} {c : Char} (h : c ∈ Nat.toDigits 10 n) : isDigit c :=
  Nat.isDigit_of_mem_toDigits (by omega) (by omega) h

theorem exists_toDigits (n : Nat) : ∃ c cs, Nat.toDigits 10 n = c :: cs ∧ isDigit c := by
  obtain ⟨c, cs, h⟩ := List.exists_cons_of_ne_nil (Nat.toDigits_ne_nil (n := n) (b := 10))
  exact ⟨c, cs, h, isDigit_of_mem_toDigits (h ▸ List.mem_cons_self)⟩

theorem eq_zero_of_head?_toDigits {n : Nat} (h : (Nat.toDigits 10 n).head? = some '0') :
    n = 0 := by
  induction n using Nat.strongRecOn with
  | ind n ih =>
    by_cases hn : n < 10
    · have hchar : ∀ k < 10, k.digitChar = '0' → k = 0 := by decide
      rw [Nat.toDigits_of_lt_base hn, List.head?_cons, Option.some.injEq] at h
      exact hchar n hn h
    · obtain ⟨c, cs, hcs, -⟩ := exists_toDigits (n / 10)
      rw [Nat.toDigits_of_base_le (by omega) (by omega), hcs] at h
      have := ih (n / 10) (by omega) (hcs ▸ h)
      omega

theorem digits1_append {ds rest : List Char} (hne : ds ≠ []) (hds : ∀ c ∈ ds, isDigit c)
    (hr : Stops rest) : digits1 (ds ++ rest) = .ok (ds, rest) := by
  have hrest : rest.takeWhile isDigit = [] ∧ rest.dropWhile isDigit = rest := by
    cases hr with
    | blank h => rcases eq_of_isBlank h with rfl | rfl | rfl | rfl <;> exact ⟨rfl, rfl⟩
    | _ => exact ⟨rfl, rfl⟩
  cases ds with
  | nil => contradiction
  | cons c ds =>
    obtain ⟨hc, hds⟩ := List.forall_mem_cons.1 hds
    rw [List.cons_append, digits1, if_pos hc, List.takeWhile_append_of_pos hds,
      List.dropWhile_append_of_pos hds, hrest.1, hrest.2, List.append_nil]

theorem wholeDigits_toDigits (n : Nat) {rest : List Char} (hr : Stops rest) :
    wholeDigits (Nat.toDigits 10 n ++ rest) = .ok (Nat.toDigits 10 n, rest) := by
  have hread : digits1 (Nat.toDigits 10 n ++ rest) = .ok (Nat.toDigits 10 n, rest) :=
    digits1_append Nat.toDigits_ne_nil (fun c hc ↦ isDigit_of_mem_toDigits hc) hr
  simp only [wholeDigits, hread, bind, Except.bind]
  split
  · rename_i c ds h
    obtain rfl := eq_zero_of_head?_toDigits (n := n) (by rw [h]; rfl)
    cases h
  · rfl

theorem Stops.fractionPart_eq {rest : List Char} (h : Stops rest) :
    fractionPart rest = .ok (none, rest) := by
  cases h with
  | blank h => rcases eq_of_isBlank h with rfl | rfl | rfl | rfl <;> rfl
  | _ => rfl

theorem Stops.exponentPart_eq {rest : List Char} (h : Stops rest) :
    exponentPart rest = .ok (none, rest) := by
  cases h with
  | blank h => rcases eq_of_isBlank h with rfl | rfl | rfl | rfl <;> rfl
  | _ => rfl

theorem le_foldl_decimal (ds : List Char) (m : Nat) :
    m ≤ ds.foldl (fun n c ↦ n * 10 + digitValue c) m := by
  induction ds generalizing m with
  | nil => exact Nat.le_refl m
  | cons c ds ih =>
    have := ih (m * 10 + digitValue c)
    rw [List.foldl_cons]
    omega

theorem foldl_wholeDigit (ds : List Char) (m : Nat)
    (h : ds.foldl (fun n c ↦ n * 10 + digitValue c) m < UInt64.size) :
    ds.foldl Scaled.wholeDigit ⟨m, 0⟩ =
      ⟨ds.foldl (fun n c ↦ n * 10 + digitValue c) m, 0⟩ := by
  induction ds generalizing m with
  | nil => rfl
  | cons c ds ih =>
    rw [List.foldl_cons] at h ⊢
    have hnext := Nat.lt_of_le_of_lt (le_foldl_decimal ds _) h
    rw [Scaled.wholeDigit, if_pos ⟨rfl, hnext⟩]
    exact ih _ h

theorem Numeral.value_whole {n : Nat} {negative : Bool} (hn : n < UInt32.size)
    (hz : negative → n ≠ 0) :
    Numeral.value ⟨negative, Nat.toDigits 10 n, none, none⟩ =
      .ok (.int (if negative then -(n : Int) else n)) := by
  have hsize : UInt32.size < UInt64.size ∧ UInt32.size < 1 <<< 53 ∧
      UInt32.size < 1 <<< 1024 - 1 <<< 970 := by decide
  have hscaled : Numeral.scaled ⟨negative, Nat.toDigits 10 n, none, none⟩ = ⟨n, 0⟩ := by
    have hdec : (Nat.toDigits 10 n).foldl (fun n c ↦ n * 10 + digitValue c) 0 = n :=
      decimal_toDigits n
    have hfold := foldl_wholeDigit (Nat.toDigits 10 n) 0 (by omega)
    simp [scaled, hfold, hdec, Scaled.fractionDigits]
  have hflow : Scaled.overflows ⟨n, 0⟩ = false := by
    have hone : nearestDouble (Nat.pow 10 (0 : Int).toNat) = 1 := by decide
    have hmine : nearestDouble n = n := if_pos (by omega)
    have hlt : decide (n ≥ 1 <<< 1024 - 1 <<< 970) = false := decide_eq_false (by omega)
    rw [Scaled.overflows, hone, hmine, Nat.mul_one, hlt]
    simp
  have hwhole : Numeral.isWhole ⟨negative, Nat.toDigits 10 n, none, none⟩ = true := by
    cases negative with
    | false => rfl
    | true => simp [isWhole, decimal_toDigits, hz rfl]
  rw [value, hscaled, if_neg (by simp [hflow]), if_pos hwhole]
  simp only [decimal_toDigits]

theorem integer_of_nonneg (n : Nat) : integer n = Nat.toDigits 10 n := by
  simp [integer, Int.toString_eq_repr, Int.repr_eq_if, Nat.toList_repr]

theorem integer_of_neg {n : Nat} (hn : n ≠ 0) : integer (-n) = '-' :: Nat.toDigits 10 n := by
  simp [integer, Int.toString_eq_repr, Int.repr_eq_if, Nat.toList_repr, hn]

theorem minusSign_of_isDigit {c : Char} (hc : isDigit c) (cs : List Char) :
    minusSign (c :: cs) = (false, c :: cs) := by
  rw [minusSign.eq_def]
  split
  · rename_i h
    cases h
    exact absurd hc (by decide)
  · rfl

theorem Numeral.read_of_minusSign {cs rest : List Char} {negative : Bool} {n : Nat}
    (h : minusSign cs = (negative, Nat.toDigits 10 n ++ rest)) (hr : Stops rest) :
    Numeral.read cs = .ok (⟨negative, Nat.toDigits 10 n, none, none⟩, rest) := by
  simp only [read, h, wholeDigits_toDigits n hr, hr.fractionPart_eq, hr.exponentPart_eq, bind,
    Except.bind]

theorem number_integer {n : Int} (hn : n.natAbs < UInt32.size) {rest : List Char}
    (hr : Stops rest) : number (integer n ++ rest) = .ok (.int n, rest) := by
  by_cases hneg : n < 0
  · obtain ⟨m, rfl⟩ : ∃ m : Nat, n = -m := ⟨n.natAbs, by omega⟩
    have hm : m ≠ 0 := by omega
    have hsign : minusSign (integer (-m) ++ rest) = (true, Nat.toDigits 10 m ++ rest) := by
      rw [integer_of_neg hm]
      rfl
    simp only [number, Numeral.read_of_minusSign hsign hr,
      Numeral.value_whole (n := m) (by omega) fun _ ↦ hm, bind, Except.bind, if_true]
  · obtain ⟨m, rfl⟩ : ∃ m : Nat, n = m := ⟨n.natAbs, by omega⟩
    obtain ⟨c, cs, hcs, hc⟩ := exists_toDigits m
    have hsign : minusSign (integer m ++ rest) = (false, Nat.toDigits 10 m ++ rest) := by
      rw [integer_of_nonneg, hcs]
      exact minusSign_of_isDigit hc _
    simp only [number, Numeral.read_of_minusSign hsign hr,
      Numeral.value_whole (n := m) (by omega) (absurd · Bool.false_ne_true), bind, Except.bind,
      Bool.false_eq_true, if_false]

theorem stringBody_escape {acc cs rest : List Char} {e : Char}
    (h : readEscape cs = .ok (e, rest)) :
    stringBody acc ('\\' :: cs) = stringBody (e :: acc) rest := by
  rw [stringBody, if_neg (by decide), if_pos rfl]
  split
  · simp_all
  · simp_all

theorem stringBody_char {acc cs : List Char} {c : Char} (hq : c ≠ '"') (hb : c ≠ '\\')
    (hc : ¬c.toNat < 0x20) : stringBody acc (c :: cs) = stringBody (c :: acc) cs := by
  rw [stringBody, if_neg hq, if_neg hb, if_neg hc]

theorem hexValue?_hexDigit {k : Nat} (hk : k < 16) : hexValue? (hexDigit k) = some k := by
  have h : ∀ k < 16, hexValue? (hexDigit k) = some k := by decide
  exact h k hk

theorem readEscape_control {c : Char} (hc : c.toNat < 0x20) (rest : List Char) :
    readEscape ('u' :: '0' :: '0' :: hexDigit (c.toNat / 16) :: hexDigit (c.toNat % 16) :: rest) =
      .ok (c, rest) := by
  have hhex : hexEscape ('0' :: '0' :: hexDigit (c.toNat / 16) :: hexDigit (c.toNat % 16) :: rest) =
      .ok (c.toNat, rest) := by
    have hzero : hexValue? '0' = some 0 := by decide
    have hsum : ((0 * 16 + 0) * 16 + c.toNat / 16) * 16 + c.toNat % 16 = c.toNat := by omega
    simp only [hexEscape, hzero, hexValue?_hexDigit (k := c.toNat / 16) (by omega),
      hexValue?_hexDigit (k := c.toNat % 16) (by omega), hsum]
  have htrail : isTrail c.toNat = false := by simp [isTrail]; omega
  have hlead : isLead c.toNat = false := by simp [isLead]; omega
  simp [readEscape, unicodeEscape, hhex, htrail, hlead, bind, Except.bind]

theorem stringBody_escape_append (acc rest : List Char) (c : Char) :
    stringBody acc (escape c ++ rest) = stringBody (c :: acc) rest := by
  unfold escape
  split_ifs with hq hb _ _ _ _ _ hc
  iterate 7 (subst c; exact stringBody_escape rfl)
  · exact stringBody_escape (readEscape_control hc rest)
  · exact stringBody_char hq hb hc

theorem stringBody_flatMap (s acc rest : List Char) :
    stringBody acc (s.flatMap escape ++ '"' :: rest) =
      .ok (String.ofList (acc.reverse ++ s), rest) := by
  induction s generalizing acc with
  | nil => rw [List.flatMap_nil, List.nil_append, stringBody, if_pos rfl, List.append_nil]
  | cons c s ih =>
    rw [List.flatMap_cons, List.append_assoc, stringBody_escape_append, ih]
    simp

theorem stringBody_quoted (s : String) (rest : List Char) :
    stringBody [] (s.toList.flatMap escape ++ '"' :: rest) = .ok (s, rest) := by
  rw [stringBody_flatMap]
  simp

/-- The value has only whole numbers of at most 32 bits, and its brackets nest at most `d` deep. -/
inductive Within : Nat → Json → Prop where
  | null {d : Nat} : Within d null
  | bool {d : Nat} (b : Bool) : Within d (bool b)
  | int {d : Nat} {n : Int} (h : n.natAbs < UInt32.size) : Within d (int n)
  | str {d : Nat} (s : String) : Within d (str s)
  | arr {d : Nat} {vs : List Json} (h : ∀ v ∈ vs, Within d v) : Within (d + 1) (arr vs)
  | obj {d : Nat} {ms : List (String × Json)} (h : ∀ m ∈ ms, Within d m.2) : Within (d + 1) (obj ms)

theorem Within.mono {d : Nat} {v : Json} (h : v.Within d) {e : Nat} (he : d ≤ e) : v.Within e := by
  induction h generalizing e with
  | null => exact .null
  | bool b => exact .bool b
  | int h => exact .int h
  | str s => exact .str s
  | arr _ ih =>
    obtain ⟨e, rfl⟩ := Nat.exists_eq_succ_of_ne_zero (Nat.ne_zero_of_lt he)
    exact .arr fun v hv ↦ ih v hv (Nat.le_of_succ_le_succ he)
  | obj _ ih =>
    obtain ⟨e, rfl⟩ := Nat.exists_eq_succ_of_ne_zero (Nat.ne_zero_of_lt he)
    exact .obj fun m hm ↦ ih m hm (Nat.le_of_succ_le_succ he)

def IsOpening (c : Char) : Prop := c ∈ ['n', 't', 'f', '"', '-'] ∨ isDigit c

theorem IsOpening.ne {c d : Char} (h : IsOpening c) (hd : d ∉ ['n', 't', 'f', '"', '-'])
    (hdigit : isDigit d = false) : c ≠ d := by
  rintro rfl
  rcases h with h | h
  · exact hd h
  · simp [hdigit] at h

theorem IsOpening.isBlank_eq {c : Char} (h : IsOpening c) : isBlank c = false := by
  have hne (d : Char) (hd : d ∉ ['n', 't', 'f', '"', '-']) (hdigit : isDigit d = false) :
      (c == d) = false := beq_false_of_ne (h.ne hd hdigit)
  simp [isBlank, hne ' ' (by decide) (by decide), hne '\n' (by decide) (by decide),
    hne '\t' (by decide) (by decide), hne '\r' (by decide) (by decide)]

theorem exists_integer (n : Int) : ∃ c cs, integer n = c :: cs ∧ (c = '-' ∨ isDigit c) := by
  by_cases hneg : n < 0
  · obtain ⟨m, rfl⟩ : ∃ m : Nat, n = -m := ⟨n.natAbs, by omega⟩
    exact ⟨'-', _, integer_of_neg (by omega), .inl rfl⟩
  · obtain ⟨m, rfl⟩ : ∃ m : Nat, n = m := ⟨n.natAbs, by omega⟩
    obtain ⟨c, cs, hcs, hc⟩ := exists_toDigits m
    exact ⟨c, cs, (integer_of_nonneg m).trans hcs, .inr hc⟩

theorem scalar_integer {n : Int} (hn : n.natAbs < UInt32.size) {rest : List Char}
    (hr : Stops rest) : scalar (integer n ++ rest) = .ok (.int n, rest) := by
  rw [← number_integer hn hr]
  obtain ⟨c, cs, hcs, hc⟩ := exists_integer n
  have hne {d : Char} (hd : d ≠ '-' ∧ isDigit d = false) : c ≠ d := by
    rintro rfl
    simp [hd] at hc
  have hn : c ≠ 'n' := hne (by decide)
  have ht : c ≠ 't' := hne (by decide)
  have hf : c ≠ 'f' := hne (by decide)
  have hq : c ≠ '"' := hne (by decide)
  simp [hcs, scalar, hc]

theorem exists_scalar {v : Json} (h : v.Within 0) : ∃ c cs, compact v = c :: cs ∧ IsOpening c ∧
    ∀ rest, Stops rest → scalar (compact v ++ rest) = .ok (v, rest) := by
  cases h with
  | null => exact ⟨_, _, rfl, .inl (by decide), fun rest _ ↦ rfl⟩
  | bool b => cases b <;> exact ⟨_, _, rfl, .inl (by decide), fun rest _ ↦ rfl⟩
  | @int _ n hn =>
    obtain ⟨c, cs, hcs, hc⟩ := exists_integer n
    exact ⟨c, cs, hcs, hc.imp_left (by simp [·]), fun rest ↦ scalar_integer hn⟩
  | str s =>
    refine ⟨_, _, rfl, .inl (by decide), fun rest _ ↦ ?_⟩
    simp [compact, quoted, scalar, stringBody_quoted, Except.map]

end SpimCompiler.Json
