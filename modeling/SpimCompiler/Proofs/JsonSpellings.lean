import Mathlib.Data.List.Nodup
import Mathlib.Data.List.TakeWhile
import SpimCompiler.Proofs.JsonScalars
import SpimCompiler.Proofs.Lists

namespace SpimCompiler.Json

abbrev Token := List Char

/-- Elements with commas between them and a bracket at the end. -/
def row (close : Char) : List (List Token) → List Token
  | [] => [[close]]
  | us :: uss => us ++ uss.flatMap ([','] :: ·) ++ [[close]]

def entry (k : String) (us : List Token) : List Token := quoted k :: [':'] :: us

mutual

def tokens : Json → List Token
  | arr vs => ['['] :: row ']' (tokensOfItems vs)
  | obj ms => ['{'] :: row '}' (tokensOfMembers ms)
  | v => [compact v]

def tokensOfItems : List Json → List (List Token)
  | [] => []
  | v :: vs => tokens v :: tokensOfItems vs

def tokensOfMembers : List (String × Json) → List (List Token)
  | [] => []
  | (k, v) :: ms => entry k (tokens v) :: tokensOfMembers ms

end

theorem tokens_arr (vs : List Json) : tokens (arr vs) = ['['] :: row ']' (vs.map tokens) := by
  have h : tokensOfItems vs = vs.map tokens := by
    induction vs with
    | nil => rfl
    | cons v vs ih => rw [tokensOfItems, ih, List.map_cons]
  rw [tokens, h]

theorem tokens_obj (ms : List (String × Json)) :
    tokens (obj ms) = ['{'] :: row '}' (ms.map fun m ↦ entry m.1 m.2.tokens) := by
  have h : tokensOfMembers ms = ms.map fun m ↦ entry m.1 m.2.tokens := by
    induction ms with
    | nil => rfl
    | cons m ms ih => rw [tokensOfMembers, ih, List.map_cons]
  rw [tokens, h]

mutual

theorem flatten_tokens (v : Json) : v.tokens.flatten = v.compact := by
  match v with
  | arr [] | obj [] => simp [tokens, tokensOfItems, tokensOfMembers, row, compact]
  | arr (v :: vs) =>
    simp [tokens, tokensOfItems, row, compact, flatten_tokens v, ← flatten_tokensOfItems vs]
  | obj ((k, v) :: ms) =>
    simp [tokens, tokensOfMembers, row, entry, compact, flatten_tokens v,
      ← flatten_tokensOfMembers ms]
  | null | bool _ | int _ | real _ | str _ => simp [tokens]

theorem flatten_tokensOfItems (vs : List Json) :
    ((tokensOfItems vs).flatMap ([','] :: ·)).flatten ++ [']'] = compactItems vs := by
  match vs with
  | [] => rfl
  | v :: vs => simp [tokensOfItems, compactItems, flatten_tokens v, ← flatten_tokensOfItems vs]

theorem flatten_tokensOfMembers (ms : List (String × Json)) :
    ((tokensOfMembers ms).flatMap ([','] :: ·)).flatten ++ ['}'] = compactMembers ms := by
  match ms with
  | [] => rfl
  | (k, v) :: ms =>
    simp [tokensOfMembers, entry, compactMembers, flatten_tokens v, ← flatten_tokensOfMembers ms]

end

theorem skipBlanks_cons {c : Char} (hc : isBlank c = false) (cs : List Char) :
    skipBlanks (c :: cs) = c :: cs := by
  simp [skipBlanks, hc]

/-- A text of the given tokens, with blanks before, between and behind them. -/
inductive Spaced : List Token → List Char → Prop where
  | nil {b : List Char} (hb : ∀ c ∈ b, isBlank c) : Spaced [] b
  | cons {b cs : List Char} {w : Token} {ts : List Token} (hb : ∀ c ∈ b, isBlank c)
      (h : Spaced ts cs) : Spaced (w :: ts) (b ++ (w ++ cs))

def Delimited (ts : List Token) : Prop := ∀ w ∈ ts.head?, w = [','] ∨ w = [']'] ∨ w = ['}']

/-- The reader reads the given tokens as `x` from every spaced text, whatever tokens follow. -/
def ReadsAs {β : Type} (read : List Char → Except ReadError (β × List Char)) (us : List Token)
    (x : β) : Prop :=
  ∀ ts cs, Delimited ts → Spaced (us ++ ts) cs →
    ∃ rest, read cs = .ok (x, rest) ∧ Spaced ts rest

namespace Spaced

variable {c : Char} {w : Token} {ts : List Token} {cs : List Char}

theorem exists_skipBlanks (h : Spaced ((c :: w) :: ts) cs) (hc : isBlank c = false) :
    ∃ rest, skipBlanks cs = c :: (w ++ rest) ∧ Spaced ts rest := by
  cases h with
  | @cons b rest _ _ hb h =>
    refine ⟨rest, ?_, h⟩
    rw [skipBlanks, List.dropWhile_append_of_pos hb]
    exact skipBlanks_cons hc _

theorem skipBlanks_eq_nil (h : Spaced [] cs) : skipBlanks cs = [] := by
  cases h with
  | nil hb => exact List.dropWhile_eq_nil_iff.2 hb

theorem stops (h : Spaced ts cs) (hd : Delimited ts) : Stops cs := by
  cases h with
  | nil hb =>
    cases cs with
    | nil => exact .nil
    | cons c b => exact .blank (hb c List.mem_cons_self) b
  | @cons b cs w ts hb h =>
    cases b with
    | cons c b => exact .blank (hb c List.mem_cons_self) _
    | nil =>
      rcases hd w rfl with rfl | rfl | rfl
      · exact .comma cs
      · exact .square cs
      · exact .curly cs

theorem length_le (h : Spaced ts cs) : ts.flatten.length ≤ cs.length := by
  induction h with
  | nil hb => exact Nat.zero_le _
  | cons hb h ih =>
    simp only [List.flatten_cons, List.length_append]
    omega

theorem flatMap {b : List Char} (hb : ∀ c ∈ b, isBlank c) (ts : List Token) :
    Spaced ts (ts.flatMap (b ++ ·)) := by
  induction ts with
  | nil => exact .nil (by simp)
  | cons w ts ih =>
    rw [List.flatMap_cons, List.append_assoc]
    exact .cons hb ih

end Spaced

section behind

variable {β : Type} {read : List Char → Except ReadError (β × List Char)} {us ts : List Token}
  {x : β} {cs : List Char}

theorem ReadsAs.exists_behind {c : Char} (h : ReadsAs read us x) (hc : isBlank c = false)
    (hd : Delimited ts) (hts : Spaced ([c] :: (us ++ ts)) cs) :
    ∃ cs' rest, skipBlanks cs = c :: cs' ∧ read cs' = .ok (x, rest) ∧ Spaced ts rest := by
  obtain ⟨cs', hskip, hcs'⟩ := hts.exists_skipBlanks hc
  obtain ⟨rest, hread, hrest⟩ := h ts cs' hd hcs'
  exact ⟨cs', rest, hskip, hread, hrest⟩

theorem ReadsAs.exists_behind_colon (h : ReadsAs read us x) (hd : Delimited ts)
    (hts : Spaced ([':'] :: (us ++ ts)) cs) :
    ∃ cs' rest, colon cs = .ok cs' ∧ read cs' = .ok (x, rest) ∧ Spaced ts rest := by
  obtain ⟨cs', rest, hskip, hread, hrest⟩ := h.exists_behind (by decide) hd hts
  refine ⟨cs', rest, ?_, hread, hrest⟩
  simp only [colon, hskip, if_true]

end behind

section elements

variable {σ : Type}

theorem delimited_more {close : Char} (hclose : close = ']' ∨ close = '}')
    (uss : List (List Token)) (ts : List Token) :
    Delimited (uss.flatMap ([','] :: ·) ++ [close] :: ts) := by
  intro w hw
  cases uss with
  | nil =>
    obtain rfl : [close] = w := by simpa using hw
    rcases hclose with rfl | rfl
    · exact .inr (.inl rfl)
    · exact .inr (.inr rfl)
  | cons us uss =>
    obtain rfl : [','] = w := by simpa using hw
    exact .inl rfl

theorem length_le_more (uss : List (List Token)) :
    uss.length ≤ (uss.flatMap ([','] :: ·)).flatten.length := by
  induction uss with
  | nil => exact Nat.le_refl _
  | cons us uss ih =>
    simp only [List.flatMap_cons, List.flatten_append, List.flatten_cons, List.length_append,
      List.length_cons]
    omega

theorem length_lt_of_spaced {close : Char} {us ts : List Token} {uss : List (List Token)}
    {cs : List Char} (h : Spaced (us ++ (uss.flatMap ([','] :: ·) ++ [close] :: ts)) cs) :
    us.flatten.length + uss.length < cs.length := by
  have hmore := length_le_more uss
  have hlen := h.length_le
  simp only [List.flatten_append, List.flatten_cons, List.length_append, List.length_cons] at hlen
  omega

section items

def Opens (us : List Token) : Prop :=
  ∃ c w vs, us = (c :: w) :: vs ∧ isBlank c = false ∧ c ≠ ']'

/-- The steps that read the elements of an array one after the other lead from `s` to `s'`. -/
inductive ReadsItems (step : σ → List Char → Except ReadError (σ × List Char)) :
    σ → List (List Token) → σ → Prop where
  | nil (s : σ) : ReadsItems step s [] s
  | cons {s s₁ s' : σ} {us : List Token} {uss : List (List Token)} (ho : Opens us)
      (h : ReadsAs (step s) us s₁) (hs : ReadsItems step s₁ uss s') :
      ReadsItems step s (us :: uss) s'

theorem ReadsItems.of_push {α : Type} {step : σ → List Char → Except ReadError (σ × List Char)}
    {write : α → List Token} {push : σ → α → σ} {xs : List α} (ho : ∀ x ∈ xs, Opens (write x))
    (h : ∀ x ∈ xs, ∀ s, ReadsAs (step s) (write x) (push s x)) (s : σ) :
    ReadsItems step s (xs.map write) (xs.foldl push s) := by
  induction xs generalizing s with
  | nil => exact .nil s
  | cons x xs ih =>
    obtain ⟨hox, hoxs⟩ := List.forall_mem_cons.1 ho
    obtain ⟨hx, hxs⟩ := List.forall_mem_cons.1 h
    exact .cons hox (hx s) (ih hoxs hxs (push s x))

variable {us ts : List Token} {cs : List Char}

theorem nextItem_close (first : Bool) (h : Spaced ([']'] :: ts) cs) :
    ∃ rest, nextItem first cs = .ok (.close rest) ∧ Spaced ts rest := by
  obtain ⟨rest, hskip, hrest⟩ := h.exists_skipBlanks (by decide)
  refine ⟨rest, ?_, hrest⟩
  simp only [nextItem, hskip, List.nil_append, if_true]

theorem Opens.exists_skipBlanks (ho : Opens us) (h : Spaced (us ++ ts) cs) :
    ∃ c rest, skipBlanks cs = c :: rest ∧ c ≠ ']' ∧ Spaced (us ++ ts) (c :: rest) := by
  obtain ⟨c, w, vs, rfl, hc, hne⟩ := ho
  obtain ⟨rest, hskip, hrest⟩ := h.exists_skipBlanks hc
  exact ⟨c, w ++ rest, hskip, hne, .cons (b := []) (by simp) hrest⟩

theorem Opens.nextItem_first (ho : Opens us) (h : Spaced (us ++ ts) cs) :
    ∃ rest, nextItem true cs = .ok (.more () rest) ∧ Spaced (us ++ ts) rest := by
  obtain ⟨c, rest, hskip, hne, hrest⟩ := ho.exists_skipBlanks h
  refine ⟨c :: rest, ?_, hrest⟩
  simp only [nextItem, hskip, if_neg hne, if_true]

theorem Opens.nextItem_comma (ho : Opens us) (h : Spaced ([','] :: (us ++ ts)) cs) :
    ∃ rest, nextItem false cs = .ok (.more () rest) ∧ Spaced (us ++ ts) rest := by
  obtain ⟨cs', hskip', hcs'⟩ := h.exists_skipBlanks (by decide)
  obtain ⟨c, rest, hskip, hne, hrest⟩ := ho.exists_skipBlanks hcs'
  refine ⟨c :: rest, ?_, hrest⟩
  simp [nextItem, hskip', hskip, hne]

variable {step : σ → List Char → Except ReadError (σ × List Char)} {s s' : σ}
  {uss : List (List Token)}

theorem ReadsItems.itemsLoop_more (h : ReadsItems step s uss s') {bound : List Char}
    (hb : uss.length < bound.length) (hts : Spaced (uss.flatMap ([','] :: ·) ++ [']'] :: ts) cs) :
    ∃ rest, itemsLoop step bound false s cs = .ok (s', rest) ∧ Spaced ts rest := by
  induction h generalizing bound cs with
  | nil s =>
    obtain ⟨b, bound, rfl⟩ := List.exists_cons_of_length_pos hb
    obtain ⟨rest, hnext, hrest⟩ := nextItem_close false hts
    refine ⟨rest, ?_, hrest⟩
    simp only [itemsLoop, hnext, bind, Except.bind]
  | @cons s s₁ s' us uss ho h hs ih =>
    -- each round takes one character off the bound, and each element has a comma to pay for it
    obtain ⟨b, bound, rfl⟩ := List.exists_cons_of_length_pos (Nat.zero_lt_of_lt hb)
    rw [List.flatMap_cons, List.cons_append, List.cons_append, List.append_assoc] at hts
    obtain ⟨cs₁, hnext, hcs₁⟩ := ho.nextItem_comma hts
    obtain ⟨cs₂, hstep, hcs₂⟩ := h _ _ (delimited_more (.inl rfl) uss ts) hcs₁
    obtain ⟨rest, hloop, hrest⟩ := ih (Nat.lt_of_succ_lt_succ hb) hcs₂
    refine ⟨rest, ?_, hrest⟩
    simp only [itemsLoop, hnext, bind, Except.bind, hstep, hloop]

theorem ReadsItems.items_more (h : ReadsItems step s uss s') :
    ReadsAs (items step false s) (uss.flatMap ([','] :: ·) ++ [[']']]) s' := by
  intro ts cs _ hts
  rw [List.append_assoc] at hts
  have hb : ([] : List Token).flatten.length + uss.length < cs.length := length_lt_of_spaced hts
  exact h.itemsLoop_more (by simpa using hb) hts

theorem ReadsItems.items_row (h : ReadsItems step s uss s') :
    ReadsAs (items step true s) (row ']' uss) s' := by
  intro ts cs _ hts
  cases h with
  | nil s =>
    obtain ⟨b, bound, rfl⟩ :=
      List.exists_cons_of_length_pos (Nat.lt_of_lt_of_le (by simp [row]) hts.length_le)
    obtain ⟨rest, hnext, hrest⟩ := nextItem_close true hts
    refine ⟨rest, ?_, hrest⟩
    simp only [items, itemsLoop, hnext, bind, Except.bind]
  | @cons s s₁ s' us uss ho h hs =>
    rw [row, List.append_assoc, List.append_assoc] at hts
    have hb := length_lt_of_spaced hts
    obtain ⟨b, bound, rfl⟩ := List.exists_cons_of_length_pos (Nat.zero_lt_of_lt hb)
    obtain ⟨cs₁, hnext, hcs₁⟩ := ho.nextItem_first hts
    obtain ⟨cs₂, hstep, hcs₂⟩ := h _ _ (delimited_more (.inl rfl) uss ts) hcs₁
    -- no comma stands before the first element, but it has a character of its own
    have hbound : uss.length < bound.length := by
      obtain ⟨c, w, vs, rfl, -⟩ := ho
      simp only [List.flatten_cons, List.length_append, List.length_cons] at hb
      omega
    obtain ⟨rest, hloop, hrest⟩ := hs.itemsLoop_more hbound hcs₂
    refine ⟨rest, ?_, hrest⟩
    simp only [items, itemsLoop, hnext, bind, Except.bind, hstep, hloop]

end items

section members

inductive ReadsMembers (step : σ → String → List Char → Except ReadError (σ × List Char)) :
    σ → List (String × Json) → σ → Prop where
  | nil (s : σ) : ReadsMembers step s [] s
  | cons {s s₁ s' : σ} {m : String × Json} {ms : List (String × Json)}
      (h : ReadsAs (step s m.1) ([':'] :: m.2.tokens) s₁) (hs : ReadsMembers step s₁ ms s') :
      ReadsMembers step s (m :: ms) s'

variable {step : σ → String → List Char → Except ReadError (σ × List Char)} {s s₁ s' : σ}
  {ms ms' : List (String × Json)} {k : String} {ts : List Token} {cs : List Char}

theorem ReadsMembers.append (h : ReadsMembers step s ms s₁) (h' : ReadsMembers step s₁ ms' s') :
    ReadsMembers step s (ms ++ ms') s' := by
  induction h with
  | nil s => exact h'
  | cons h _ ih => exact .cons h (ih h')

theorem ReadsMembers.of_push {ms : List (String × Json)} {push : σ → String × Json → σ}
    (h : ∀ m ∈ ms, ∀ s, ReadsAs (step s m.1) ([':'] :: tokens m.2) (push s m)) (s : σ) :
    ReadsMembers step s ms (ms.foldl push s) := by
  induction ms generalizing s with
  | nil => exact .nil s
  | cons m ms ih =>
    obtain ⟨hm, hms⟩ := List.forall_mem_cons.1 h
    exact .cons (hm s) (ih hms (push s m))

theorem exists_quote (h : Spaced (quoted k :: ts) cs) :
    ∃ rest, skipBlanks cs = '"' :: (k.toList.flatMap escape ++ '"' :: rest) ∧ Spaced ts rest := by
  obtain ⟨rest, hskip, hrest⟩ := h.exists_skipBlanks (by decide)
  refine ⟨rest, ?_, hrest⟩
  rw [hskip]
  simp

theorem exists_key (h : Spaced (quoted k :: ts) cs) :
    ∃ rest, key cs = .ok (.more k rest) ∧ Spaced ts rest := by
  obtain ⟨rest, hskip, hrest⟩ := exists_quote h
  refine ⟨rest, ?_, hrest⟩
  simp only [key, hskip, if_true, stringBody_quoted, Except.map]

theorem nextKey_close (first : Bool) (h : Spaced (['}'] :: ts) cs) :
    ∃ rest, nextKey first cs = .ok (.close rest) ∧ Spaced ts rest := by
  obtain ⟨rest, hskip, hrest⟩ := h.exists_skipBlanks (by decide)
  refine ⟨rest, ?_, hrest⟩
  simp only [nextKey, hskip, List.nil_append, if_true]

theorem nextKey_first (h : Spaced (quoted k :: ts) cs) :
    ∃ rest, nextKey true cs = .ok (.more k rest) ∧ Spaced ts rest := by
  obtain ⟨rest, hskip, hrest⟩ := exists_quote h
  refine ⟨rest, ?_, hrest⟩
  have hquote : skipBlanks ('"' :: (k.toList.flatMap escape ++ '"' :: rest)) = _ :=
    skipBlanks_cons (by decide) _
  simp [nextKey, key, hskip, hquote, stringBody_quoted, Except.map]

theorem nextKey_comma (h : Spaced ([','] :: quoted k :: ts) cs) :
    ∃ rest, nextKey false cs = .ok (.more k rest) ∧ Spaced ts rest := by
  obtain ⟨cs', hskip, hcs'⟩ := h.exists_skipBlanks (by decide)
  obtain ⟨rest, hkey, hrest⟩ := exists_key hcs'
  refine ⟨rest, ?_, hrest⟩
  simp [nextKey, hskip, hkey]

theorem ReadsMembers.membersLoop_more (h : ReadsMembers step s ms s') {bound : List Char}
    (hb : ms.length < bound.length)
    (hts : Spaced ((ms.map fun m ↦ entry m.1 m.2.tokens).flatMap ([','] :: ·) ++ ['}'] :: ts) cs) :
    ∃ rest, membersLoop step bound false s cs = .ok (s', rest) ∧ Spaced ts rest := by
  induction h generalizing bound cs with
  | nil s =>
    obtain ⟨b, bound, rfl⟩ := List.exists_cons_of_length_pos hb
    obtain ⟨rest, hnext, hrest⟩ := nextKey_close false hts
    refine ⟨rest, ?_, hrest⟩
    simp only [membersLoop, hnext, bind, Except.bind]
  | @cons s s₁ s' m ms h hs ih =>
    obtain ⟨b, bound, rfl⟩ := List.exists_cons_of_length_pos (Nat.zero_lt_of_lt hb)
    rw [List.map_cons, List.flatMap_cons, List.cons_append, List.cons_append,
      List.append_assoc] at hts
    obtain ⟨cs₁, hnext, hcs₁⟩ := nextKey_comma hts
    obtain ⟨cs₂, hstep, hcs₂⟩ := h _ _ (delimited_more (.inr rfl) _ ts) hcs₁
    obtain ⟨rest, hloop, hrest⟩ := ih (Nat.lt_of_succ_lt_succ hb) hcs₂
    refine ⟨rest, ?_, hrest⟩
    simp only [membersLoop, hnext, bind, Except.bind, hstep, hloop]

theorem ReadsMembers.members_row (h : ReadsMembers step s ms s') :
    ReadsAs (members step s) (row '}' (ms.map fun m ↦ entry m.1 m.2.tokens)) s' := by
  intro ts cs _ hts
  cases h with
  | nil s =>
    obtain ⟨b, bound, rfl⟩ :=
      List.exists_cons_of_length_pos (Nat.lt_of_lt_of_le (by simp [row]) hts.length_le)
    obtain ⟨rest, hnext, hrest⟩ := nextKey_close true hts
    refine ⟨rest, ?_, hrest⟩
    simp only [members, membersLoop, hnext, bind, Except.bind]
  | @cons s s₁ s' m ms h hs =>
    rw [List.map_cons, row, List.append_assoc, List.append_assoc] at hts
    have hb := length_lt_of_spaced hts
    obtain ⟨b, bound, rfl⟩ := List.exists_cons_of_length_pos (Nat.zero_lt_of_lt hb)
    obtain ⟨cs₁, hnext, hcs₁⟩ := nextKey_first hts
    obtain ⟨cs₂, hstep, hcs₂⟩ := h _ _ (delimited_more (.inr rfl) _ ts) hcs₁
    have hbound : ms.length < bound.length := by
      simp only [entry, quoted, List.flatten_cons, List.length_append, List.length_cons,
        List.length_map] at hb
      omega
    obtain ⟨rest, hloop, hrest⟩ := hs.membersLoop_more hbound hcs₂
    refine ⟨rest, ?_, hrest⟩
    simp only [members, membersLoop, hnext, bind, Except.bind, hstep, hloop]

end members

end elements

section values

variable {read : List Char → Except ReadError (Json × List Char)} {us : List Token} {v : Json}
  {d : Nat}

theorem ReadsAs.pushItem (h : ReadsAs read us v) (vs : List Json) :
    ReadsAs (pushItem read vs) us (v :: vs) := by
  intro ts cs hd hts
  obtain ⟨rest, hread, hrest⟩ := h ts cs hd hts
  refine ⟨rest, ?_, hrest⟩
  simp only [Json.pushItem, hread, bind, Except.bind]

theorem ReadsAs.pushMember (h : ReadsAs read us v) (ms : List (String × Json)) (k : String) :
    ReadsAs (pushMember read ms k) ([':'] :: us) ((k, v) :: ms) := by
  intro ts cs hd hts
  obtain ⟨cs', rest, hcolon, hread, hrest⟩ := h.exists_behind_colon hd hts
  refine ⟨rest, ?_, hrest⟩
  simp only [Json.pushMember, hcolon, hread, bind, Except.bind]

theorem tokens_scalar (h : v.Within 0) : v.tokens = [v.compact] := by
  cases h <;> simp [tokens]

theorem Within.opens (h : v.Within d) : Opens v.tokens := by
  have hscalar (h : v.Within 0) : Opens v.tokens := by
    obtain ⟨c, cs, hcs, hc, -⟩ := exists_scalar h
    rw [tokens_scalar h, hcs]
    exact ⟨c, cs, [], rfl, hc.isBlank_eq, hc.ne (by decide) (by decide)⟩
  cases h with
  | null => exact hscalar .null
  | bool b => exact hscalar (.bool b)
  | int hn => exact hscalar (.int hn)
  | str s => exact hscalar (.str s)
  | arr _ => exact ⟨'[', [], _, tokens_arr _, by decide, by decide⟩
  | obj _ => exact ⟨'{', [], _, tokens_obj _, by decide, by decide⟩

theorem exists_scalar_of_spaced (h : v.Within 0) {ts : List Token} {cs : List Char}
    (hd : Delimited ts) (hts : Spaced (v.tokens ++ ts) cs) :
    ∃ c cs' rest, skipBlanks cs = c :: cs' ∧ IsOpening c ∧
      scalar (c :: cs') = .ok (v, rest) ∧ Spaced ts rest := by
  obtain ⟨c, w, hw, hc, hread⟩ := exists_scalar h
  rw [tokens_scalar h, hw] at hts
  obtain ⟨rest, hskip, hrest⟩ := hts.exists_skipBlanks hc.isBlank_eq
  refine ⟨c, w ++ rest, rest, hskip, hc, ?_, hrest⟩
  rw [← hread rest (hrest.stops hd), hw]
  rfl

/-- A value is read from every spaced text of its tokens. -/
theorem Within.readsAs (h : v.Within d) : ReadsAs (value d) v.tokens v := by
  have hscalar {d : Nat} {v : Json} (h : v.Within 0) : ReadsAs (value d) v.tokens v := by
    intro ts cs hd hts
    obtain ⟨c, cs', rest, hskip, hc, hread, hrest⟩ := exists_scalar_of_spaced h hd hts
    have hsquare : c ≠ '[' := hc.ne (by decide) (by decide)
    have hcurly : c ≠ '{' := hc.ne (by decide) (by decide)
    refine ⟨rest, ?_, hrest⟩
    rw [← hread]
    cases d <;> simp [value, hskip, hsquare, hcurly]
  induction h with
  | null => exact hscalar .null
  | bool b => exact hscalar (.bool b)
  | int hn => exact hscalar (.int hn)
  | str s => exact hscalar (.str s)
  | @arr d vs h ih =>
    have hitems := (ReadsItems.of_push (fun v hv ↦ (h v hv).opens)
      (fun v hv s ↦ (ih v hv).pushItem s) []).items_row
    intro ts cs hd hts
    rw [tokens_arr] at hts
    obtain ⟨cs', rest, hskip, hread, hrest⟩ := hitems.exists_behind (by decide) hd hts
    refine ⟨rest, ?_, hrest⟩
    simp only [value, hskip, hread, bind, Except.bind]
    simp
  | @obj d ms h ih =>
    have hmembers := (ReadsMembers.of_push (fun m hm s ↦ (ih m hm).pushMember s m.1) []).members_row
    intro ts cs hd hts
    rw [tokens_obj] at hts
    obtain ⟨cs', rest, hskip, hread, hrest⟩ := hmembers.exists_behind (by decide) hd hts
    refine ⟨rest, ?_, hrest⟩
    simp only [value, hskip, hread, bind, Except.bind]
    simp

end values

inductive Omits : List (String × Json) → List (String × Json) → Prop where
  | nil : Omits [] []
  | keep {ms ms' : List (String × Json)} (m : String × Json) (h : Omits ms ms') :
      Omits (m :: ms) (m :: ms')
  | drop {ms ms' : List (String × Json)} (k : String) (h : Omits ms ms') :
      Omits ((k, null) :: ms) ms'

/-- The second value is another spelling of the first. -/
inductive Respelled : Json → Json → Prop where
  | null : Respelled null null
  | bool (b : Bool) : Respelled (bool b) (bool b)
  | int (n : Int) : Respelled (int n) (int n)
  | real (spelling : String) : Respelled (real spelling) (real spelling)
  | str (s : String) : Respelled (str s) (str s)
  | arr {vs ws : List Json} (h : List.Forall₂ Respelled vs ws) : Respelled (arr vs) (arr ws)
  /-- Members are left out and moved. -/
  | obj {ms kept ms' : List (String × Json)} {ws : List Json} (ho : Omits ms kept)
      (hp : kept.Perm ms') (h : List.Forall₂ Respelled (ms'.map Prod.snd) ws) :
      Respelled (obj ms) (obj ((ms'.map Prod.fst).zip ws))
  /-- The names of the members are left out. -/
  | values {ms : List (String × Json)} {ws : List Json}
      (h : List.Forall₂ Respelled (ms.map Prod.snd) ws) : Respelled (obj ms) (arr ws)

theorem Omits.sublist {ms kept : List (String × Json)} (h : Omits ms kept) : kept.Sublist ms := by
  induction h with
  | nil => exact .slnil
  | keep m _ ih => exact ih.cons_cons m
  | drop k _ ih => exact ih.cons _

theorem Omits.mem_or {ms kept : List (String × Json)} (h : Omits ms kept) {m : String × Json}
    (hm : m ∈ ms) : m ∈ kept ∨ m.2 = null := by
  induction h with
  | nil => cases hm
  | keep m' _ ih =>
    rcases List.mem_cons.1 hm with rfl | hm
    · exact .inl List.mem_cons_self
    · exact (ih hm).imp_left (List.mem_cons_of_mem m')
  | drop k _ ih =>
    rcases List.mem_cons.1 hm with rfl | hm
    · exact .inr rfl
    · exact ih hm

/-- A member that is left out is not replaced by another one. -/
theorem Omits.notMem {ms kept : List (String × Json)} (h : Omits ms kept)
    (hn : (ms.map Prod.fst).Nodup) {m : String × Json} (hm : m ∈ ms) (hk : m ∉ kept) :
    m.1 ∉ kept.map Prod.fst := by
  intro hmem
  obtain ⟨m', hm', heq⟩ := List.mem_map.1 hmem
  have hsame := List.inj_on_of_nodup_map hn (h.sublist.subset hm') hm heq
  exact hk (hsame ▸ hm')

theorem Omits.eq_or_eq {m m' : String × Json} {kept : List (String × Json)}
    (h : Omits [m, m'] kept) (hm : m.2 ≠ .null) :
    kept = [m, m'] ∨ kept = [m] ∧ m'.2 = .null := by
  cases h with
  | drop k h => exact absurd rfl hm
  | keep _ h =>
    cases h with
    | keep _ h =>
      cases h
      exact .inl rfl
    | drop k h =>
      cases h
      exact .inr ⟨rfl, rfl⟩

theorem Omits.refl (ms : List (String × Json)) : Omits ms ms := by
  induction ms with
  | nil => exact .nil
  | cons m ms ih => exact .keep m ih

mutual

theorem Respelled.refl (v : Json) : v.Respelled v := by
  match v with
  | null => exact .null
  | bool b => exact .bool b
  | int n => exact .int n
  | real spelling => exact .real spelling
  | str s => exact .str s
  | arr vs => exact .arr (forall₂_respelled vs)
  | obj ms =>
    have hzip : (ms.map Prod.fst).zip (ms.map Prod.snd) = ms := by simp [List.zip_map']
    have h := Respelled.obj (.refl ms) (.refl ms) (forall₂_respelled_snd ms)
    rwa [hzip] at h

theorem forall₂_respelled (vs : List Json) : List.Forall₂ Respelled vs vs := by
  match vs with
  | [] => exact .nil
  | v :: vs => exact .cons (.refl v) (forall₂_respelled vs)

theorem forall₂_respelled_snd (ms : List (String × Json)) :
    List.Forall₂ Respelled (ms.map Prod.snd) (ms.map Prod.snd) := by
  match ms with
  | [] => exact .nil
  | (k, v) :: ms => exact .cons (.refl v) (forall₂_respelled_snd ms)

end

theorem Respelled.within {d : Nat} {v w : Json} (h : v.Respelled w) (hv : v.Within d) :
    w.Within d := by
  induction hv generalizing w with
  | null =>
    cases h
    exact .null
  | bool b =>
    cases h
    exact .bool b
  | int hn =>
    cases h
    exact .int hn
  | str s =>
    cases h
    exact .str s
  | arr _ ih =>
    cases h with
    | arr h =>
      refine .arr fun w hw ↦ ?_
      obtain ⟨v, hv, hvw⟩ := h.exists_of_mem_right hw
      exact ih v hv hvw
  | obj _ ih =>
    cases h with
    | obj ho hp h =>
      refine .obj fun m hm ↦ ?_
      obtain ⟨v, hv, hvw⟩ := h.exists_of_mem_right (List.of_mem_zip hm).2
      obtain ⟨m', hm', rfl⟩ := List.mem_map.1 hv
      exact ih m' (ho.sublist.subset (hp.mem_iff.2 hm')) hvw
    | values h =>
      refine .arr fun w hw ↦ ?_
      obtain ⟨v, hv, hvw⟩ := h.exists_of_mem_right hw
      obtain ⟨m, hm, rfl⟩ := List.mem_map.1 hv
      exact ih m hm hvw

end SpimCompiler.Json
