import Std.Data.String.ToInt
import SpimCompiler.Proofs.Assembler

namespace SpimCompiler.Mips

def IsWord (s : String) : Prop := s ≠ "" ∧ ∀ c ∈ s.toList, c ≠ ' ' ∧ c ≠ '\n'

theorem words_append_blank (a b : List Char) : words (a ++ ' ' :: b) = words a ++ words b := by
  simp [words, List.splitOn_append_cons_self]

theorem words_of_isWord {s : String} (h : IsWord s) : words s.toList = [s] := by
  have hs : s.toList ≠ [] := fun he ↦ h.1 (String.toList_eq_nil_iff.1 he)
  rw [words, List.splitOn_eq_singleton fun hc ↦ (h.2 _ hc).1 rfl]
  simp [hs]

theorem words_cons {s : String} (h : IsWord s) (cs : List Char) :
    words (s.toList ++ ' ' :: cs) = s :: words cs := by
  rw [words_append_blank, words_of_isWord h, List.singleton_append]

theorem words_blanks (k : Nat) (cs : List Char) :
    words (List.replicate k ' ' ++ cs) = words cs := by
  induction k with
  | zero => rfl
  | succ k ih =>
    have h := words_append_blank [] (List.replicate k ' ' ++ cs)
    rw [List.nil_append, ih] at h
    rw [List.replicate_succ, List.cons_append, h]
    rfl

structure Spells (text : String) (ws : List String) : Prop where
  words_eq : words text.toList = ws
  oneLine : '\n' ∉ text.toList

namespace Spells

theorem word {s : String} (h : IsWord s) : Spells s [s] :=
  ⟨words_of_isWord h, fun hc ↦ (h.2 _ hc).2 rfl⟩

theorem cons {s t : String} {ws : List String} (hs : IsWord s) (ht : Spells t ws) :
    Spells (s ++ " " ++ t) (s :: ws) := by
  have htext : (s ++ " " ++ t).toList = s.toList ++ ' ' :: t.toList := by simp
  refine ⟨?_, ?_⟩
  · rw [htext, words_cons hs, ht.words_eq]
  · simpa [htext] using ⟨fun hc ↦ (hs.2 _ hc).2 rfl, ht.oneLine⟩

theorem instruction {mnemonic operands : String} {ws : List String} (hm : IsWord mnemonic)
    (h : Spells operands ws) : Spells (instruction mnemonic operands) (mnemonic :: ws) := by
  have hblanks (k : Nat) : List.replicate k ' ' ++ ' ' :: operands.toList =
      ' ' :: (List.replicate k ' ' ++ operands.toList) := by
    rw [← List.singleton_append, ← List.append_assoc, ← List.replicate_succ',
      List.replicate_succ, List.cons_append]
  have htext : (Mips.instruction mnemonic operands).toList = mnemonic.toList ++ ' ' ::
      (List.replicate (6 - mnemonic.length) ' ' ++ operands.toList) := by
    simp [Mips.instruction, padRight, hblanks]
  refine ⟨?_, ?_⟩
  · rw [htext, words_cons hm, words_blanks, h.words_eq]
  · simpa [htext, List.mem_replicate] using ⟨fun hc ↦ (hm.2 _ hc).2 rfl, h.oneLine⟩

end Spells

theorem ne_of_isNameChar {c d : Char} (hc : isNameChar c) (hd : isNameChar d = false) : c ≠ d := by
  rintro rfl
  simp [hc] at hd

theorem isNameChar_of_mem {s : String} (h : isName s) {c : Char} (hc : c ∈ s.toList) :
    isNameChar c := by
  simp only [isName, Bool.and_eq_true, List.all_eq_true] at h
  exact h.2 c hc

theorem isWord_of_isName {s : String} (h : isName s) : IsWord s := by
  refine ⟨?_, fun c hc ↦ ?_⟩
  · rintro rfl
    simp [isName] at h
  · have hn := isNameChar_of_mem h hc
    exact ⟨ne_of_isNameChar hn (by decide), ne_of_isNameChar hn (by decide)⟩

theorem readName_eq {s : String} (h : isName s) : readName s = some s := if_pos h

theorem isWord_reg (r : Reg) : IsWord r.text := by
  cases r <;> simp [IsWord, Reg.text]

theorem Reg.read_text (r : Reg) : Reg.read r.text = some r := by
  cases r <;> rfl

theorem mem_repr {n : Int} {c : Char} (hc : c ∈ n.repr.toList) :
    c = '-' ∨ isNameChar c := by
  have hdigit {k : Nat} (h : c ∈ Nat.toDigits 10 k) : isNameChar c := by
    have := Nat.isDigit_of_mem_toDigits (by decide) (by decide) h
    simp [isNameChar, Char.isAlphanum, this]
  rw [Int.repr_eq_if] at hc
  split at hc
  · exact .inr (hdigit (by simpa using hc))
  · simp only [String.toList_append, List.mem_append, Nat.toList_repr] at hc
    obtain hc | hc := hc
    · exact .inl (by simpa using hc)
    · exact .inr (hdigit hc)

theorem isWord_repr (n : Int) : IsWord n.repr := by
  refine ⟨?_, fun c hc ↦ ?_⟩
  · rw [Int.repr_eq_if, ne_eq, ← String.toList_eq_nil_iff]
    split <;> simp [Nat.toDigits_ne_nil]
  · obtain rfl | hn := mem_repr hc
    · decide
    · exact ⟨ne_of_isNameChar hn (by decide), ne_of_isNameChar hn (by decide)⟩

def Address.Readable : Address → Prop
  | cell label => isName label
  | offset _ _ => True

theorem toList_text_offset (n : Int) (base : Reg) : (Address.offset n base).text.toList =
    n.repr.toList ++ '(' :: (base.text.toList ++ [')']) := by
  change (n.repr ++ "(" ++ base.text ++ ")").toList = _
  simp

theorem isWord_address {a : Address} (h : a.Readable) : IsWord a.text := by
  cases a with
  | cell label => exact isWord_of_isName h
  | offset n base =>
    refine ⟨fun he ↦ ?_, fun c hc ↦ ?_⟩
    · have hlist := toList_text_offset n base
      simp [he] at hlist
    · rw [toList_text_offset] at hc
      simp only [List.mem_append, List.mem_cons, List.not_mem_nil, or_false] at hc
      obtain hc | rfl | hc | rfl := hc
      · exact (isWord_repr n).2 c hc
      · decide
      · exact (isWord_reg base).2 c hc
      · decide

theorem Address.read_text {a : Address} (h : a.Readable) : Address.read a.text = some a := by
  cases a with
  | cell label =>
    have hsplit : label.toList.splitOn '(' = [label.toList] :=
      List.splitOn_eq_singleton fun hc ↦ ne_of_isNameChar (isNameChar_of_mem h hc) (by decide) rfl
    simp [Address.read, Address.text, hsplit, readName_eq h]
  | offset n base =>
    have hn : '(' ∉ n.repr.toList := fun hc ↦ by
      obtain h | h := mem_repr hc
      · simp at h
      · exact ne_of_isNameChar h (by decide) rfl
    have hbase : '(' ∉ base.text.toList ++ [')'] := by cases base <;> simp [Reg.text]
    rw [Address.read, toList_text_offset, List.splitOn_append_cons_self,
      List.splitOn_eq_singleton hn, List.splitOn_eq_singleton hbase]
    simp [Reg.read_text]

namespace Instr

def Readable : Instr → Prop
  | la _ label | beqz _ label | bnez _ label | j label => isName label
  | lw _ a | sw _ a | lb _ a | sb _ a => a.Readable
  | arith mnemonic _ _ _ => mnemonic ∈ operations
  | _ => True

def tokens : Instr → List String
  | li rd value => ["li", rd.text, value.repr]
  | la rd label => ["la", rd.text, label]
  | lw rd source => ["lw", rd.text, source.text]
  | sw rs target => ["sw", rs.text, target.text]
  | lb rd source => ["lb", rd.text, source.text]
  | sb rs target => ["sb", rs.text, target.text]
  | move rd rs => ["move", rd.text, rs.text]
  | movn rd rs rt => ["movn", rd.text, rs.text, rt.text]
  | arith mnemonic rd rs rt => [mnemonic, rd.text, rs.text, rt.text]
  | addiu rd rs value => ["addiu", rd.text, rs.text, value.repr]
  | xori rd rs value => ["xori", rd.text, rs.text, value.repr]
  | beqz rs label => ["beqz", rs.text, label]
  | bnez rs label => ["bnez", rs.text, label]
  | j label => ["j", label]
  | syscall => ["syscall"]

theorem isWord_tokens {i : Instr} (h : i.Readable) : ∀ w ∈ i.tokens, IsWord w := by
  have hops : ∀ m ∈ operations, IsWord m := by simp [operations, IsWord]
  have hlit : ∀ m ∈ ["li", "la", "lw", "sw", "lb", "sb", "move", "movn", "addiu", "xori", "beqz",
      "bnez", "j", "syscall"], IsWord m := by simp [IsWord]
  simp only [List.mem_cons, List.not_mem_nil, or_false, forall_eq_or_imp, forall_eq] at hlit
  cases i with
  | li | move | movn | addiu | xori | syscall => simp [tokens, hlit, isWord_reg, isWord_repr]
  | la _ label | beqz _ label | bnez _ label | j label =>
    simp [tokens, hlit, isWord_reg, isWord_of_isName h]
  | lw _ a | sw _ a | lb _ a | sb _ a => simp [tokens, hlit, isWord_reg, isWord_address h]
  | arith mnemonic => simp [tokens, isWord_reg, hops mnemonic h]

theorem spells_text {i : Instr} (h : i.Readable) : Spells i.text i.tokens := by
  have hw := isWord_tokens h
  cases i with
  | syscall => exact .word (hw _ (List.mem_singleton_self _))
  | j label =>
    simp only [tokens, List.mem_cons, List.not_mem_nil, or_false, forall_eq_or_imp,
      forall_eq] at hw
    exact .instruction hw.1 (.word hw.2)
  | movn | arith | addiu | xori =>
    simp only [tokens, List.mem_cons, List.not_mem_nil, or_false, forall_eq_or_imp,
      forall_eq] at hw
    have hthree := Spells.cons hw.2.1 (.cons hw.2.2.1 (.word hw.2.2.2))
    rw [← String.append_assoc, ← String.append_assoc] at hthree
    exact .instruction hw.1 hthree
  | _ =>
    simp only [tokens, List.mem_cons, List.not_mem_nil, or_false, forall_eq_or_imp,
      forall_eq] at hw
    exact .instruction hw.1 (.cons hw.2.1 (.word hw.2.2))

theorem read_tokens {i : Instr} (h : i.Readable) : Instr.read i.tokens = some i := by
  cases i with
  | arith mnemonic rd rs rt =>
    simp only [Readable, operations, List.mem_cons, List.not_mem_nil, or_false] at h
    rcases h with rfl | rfl | rfl | rfl | rfl | rfl | rfl | rfl | rfl | rfl <;>
      simp [tokens, Instr.read, readThree, operations, Reg.read_text]
  | li | move | movn | addiu | xori | syscall =>
    simp [tokens, Instr.read, readTwo, readThree, Reg.read_text]
  | la _ label | beqz _ label | bnez _ label | j label =>
    have hname := readName_eq h
    simp [tokens, Instr.read, readTwo, Reg.read_text, hname]
  | lw _ a | sw _ a | lb _ a | sb _ a =>
    have hread := Address.read_text h
    simp [tokens, Instr.read, readTwo, Reg.read_text, hread]

end Instr

namespace Line

def Readable : Line → Prop
  | directive name => name = "data" ∨ name = "text"
  | word name | label name => isName name
  | asciiz name value => isName name ∧ '\n' ∉ value.toList
  | instr i => i.Readable
  | verbatim text => text = ""

theorem isWord_colon {name : String} (h : isName name) : IsWord (name ++ ":") := by
  refine ⟨by simp, fun c hc ↦ ?_⟩
  simp only [String.toList_append, List.mem_append] at hc
  obtain hc | hc := hc
  · exact (isWord_of_isName h).2 c hc
  · obtain rfl : c = ':' := by simpa using hc
    decide

theorem read_of_label {name : String} {cs : List Char} {ws : List String} (hn : isName name)
    (h : words cs = (name ++ ":") :: ws) : Line.read cs = readLabelled name cs ws := by
  have hlast : (name ++ ":").toList.getLast? = some ':' := by simp
  have hdata : name ++ ":" ≠ ".data" := fun he ↦ by simp [he] at hlast
  have htext : name ++ ":" ≠ ".text" := fun he ↦ by simp [he] at hlast
  simp [Line.read, h, hdata, htext, readName_eq hn]

theorem read_of_instr {i : Instr} {cs : List Char} (hi : i.Readable) (h : words cs = i.tokens) :
    Line.read cs = some (.instr i) := by
  have hread := Instr.read_tokens hi
  cases i with
  | arith mnemonic rd rs rt =>
    have hlast : ∀ m ∈ operations, m.toList.getLast? ≠ some ':' := by simp [operations]
    have hlast' : mnemonic.toList.getLast? ≠ some ':' := hlast mnemonic hi
    simp only [Instr.tokens] at h hread
    simp [Line.read, h, hread, hlast']
  | _ =>
    simp only [Instr.tokens] at h hread
    simp [Line.read, h, hread]

theorem quoted_append {a b : List Char} (h : '"' ∉ a) :
    quoted (a ++ '"' :: (b ++ ['"'])) = some (String.ofList b) := by
  have hdrop : (a ++ '"' :: (b ++ ['"'])).dropWhile (· ≠ '"') = '"' :: (b ++ ['"']) := by
    rw [List.dropWhile_append_of_pos]
    · simp
    · intro c hc
      have hne : c ≠ '"' := fun he ↦ h (he ▸ hc)
      simpa using hne
  rw [quoted, hdrop]
  simp

theorem read_text {l : Line} (h : l.Readable) :
    Line.read l.text.toList = some l ∧ '\n' ∉ l.text.toList := by
  cases l with
  | directive name =>
    obtain rfl | rfl := h <;> decide
  | word name =>
    have hs : Spells (name ++ ":" ++ " " ++ (".word" ++ " " ++ "0")) [name ++ ":", ".word", "0"] :=
      .cons (isWord_colon h) (.cons (by simp [IsWord]) (.word (by simp [IsWord])))
    have htext : (word name).text = name ++ ":" ++ " " ++ (".word" ++ " " ++ "0") := by
      simp [text, String.append_assoc]
    rw [htext, read_of_label h hs.words_eq]
    exact ⟨rfl, hs.oneLine⟩
  | asciiz name value =>
    obtain ⟨hn, hv⟩ := h
    have hquote : '"' ∉ name.toList ++ ": .asciiz ".toList := by
      intro hc
      rw [List.mem_append] at hc
      obtain hc | hc := hc
      · exact ne_of_isNameChar (isNameChar_of_mem hn hc) (by decide) rfl
      · simp at hc
    have htext : (asciiz name value).text.toList =
        name.toList ++ ": .asciiz ".toList ++ '"' :: (value.toList ++ ['"']) := by
      simp [text]
    have hwords : words (asciiz name value).text.toList =
        (name ++ ":") :: ".asciiz" :: words ('"' :: (value.toList ++ ['"'])) := by
      rw [← words_cons (s := ".asciiz") (by simp [IsWord]), ← words_cons (isWord_colon hn)]
      simp [text]
    refine ⟨?_, ?_⟩
    · rw [read_of_label hn hwords, readLabelled, htext, quoted_append hquote]
      simp
    · have hname : '\n' ∉ name.toList := fun hc ↦ ((isWord_of_isName hn).2 _ hc).2 rfl
      simp [text, hname, hv]
  | label name =>
    have hs : Spells (name ++ ":") [name ++ ":"] := .word (isWord_colon h)
    refine ⟨?_, hs.oneLine⟩
    rw [text, read_of_label h hs.words_eq, readLabelled]
  | instr i =>
    have hs := Instr.spells_text h
    exact ⟨read_of_instr h hs.words_eq, hs.oneLine⟩
  | verbatim text =>
    subst h
    decide

end Line

/-- A fragment is read back from its text. -/
theorem readProgram_text {f : Fragment} (hf : f ≠ []) (h : ∀ l ∈ f, l.Readable) :
    readProgram f.text = some f := by
  have hlines : f.text.toList.splitOn '\n' = f.map fun l ↦ l.text.toList := by
    have htext : f.text.toList = ['\n'].intercalate (f.map fun l ↦ l.text.toList) := by
      simp [Fragment.text, String.toList_intercalate, Function.comp_def]
    rw [htext, List.splitOn_intercalate]
    · simpa using fun l hl ↦ (Line.read_text (h l hl)).2
    · simpa using hf
  have hread : ∀ l ∈ f, Line.read l.text.toList = some l := fun l hl ↦ (Line.read_text (h l hl)).1
  rw [readProgram, hlines]
  clear hf h hlines
  induction f with
  | nil => rfl
  | cons l f ih =>
    simp only [List.mem_cons, forall_eq_or_imp] at hread
    simp [hread.1, ih hread.2]

end SpimCompiler.Mips
