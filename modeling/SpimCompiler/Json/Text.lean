import SpimCompiler.Json.Basic

namespace SpimCompiler.Json

def hexValue? (c : Char) : Option Nat :=
  if '0' ≤ c && c ≤ '9' then some (c.toNat - '0'.toNat)
  else if 'a' ≤ c && c ≤ 'f' then some (c.toNat - 'a'.toNat + 10)
  else if 'A' ≤ c && c ≤ 'F' then some (c.toNat - 'A'.toNat + 10)
  else none

def hasBytes : Nat → List Char → Bool
  | 0, _ => true
  | _ + 1, [] => false
  | n + 1, c :: cs => hasBytes (n + 1 - c.utf8Size) cs

def hexEscape : List Char → Except ReadError (Nat × List Char)
  | a :: b :: c :: d :: rest =>
    match hexValue? a, hexValue? b, hexValue? c, hexValue? d with
    | some a, some b, some c, some d => .ok (((a * 16 + b) * 16 + c) * 16 + d, rest)
    | _, _, _, _ => .error .malformed
  | cs => .error (if hasBytes 4 cs then .malformed else .truncated)

def isLead (n : Nat) : Bool := 0xD800 ≤ n && n ≤ 0xDBFF

def isTrail (n : Nat) : Bool := 0xDC00 ≤ n && n ≤ 0xDFFF

def trailEscape (lead : Nat) : List Char → Except ReadError (Char × List Char)
  | '\\' :: 'u' :: cs => do
    let (trail, rest) ← hexEscape cs
    if isTrail trail then
      .ok (Char.ofNat (0x10000 + (lead - 0xD800) * 0x400 + (trail - 0xDC00)), rest)
    else .error .malformed
  | [] | ['\\'] => .error .truncated
  | _ => .error .malformed

def unicodeEscape (cs : List Char) : Except ReadError (Char × List Char) := do
  let (n, rest) ← hexEscape cs
  if isTrail n then .error .malformed
  else if isLead n then trailEscape n rest
  else .ok (Char.ofNat n, rest)

def shortEscape? : Char → Option Char
  | '"' => some '"'
  | '\\' => some '\\'
  | '/' => some '/'
  | 'b' => some '\x08'
  | 'f' => some '\x0c'
  | 'n' => some '\n'
  | 'r' => some '\r'
  | 't' => some '\t'
  | _ => none

def readEscape : List Char → Except ReadError (Char × List Char)
  | [] => .error .truncated
  | c :: cs =>
    if c = 'u' then unicodeEscape cs
    else match shortEscape? c with
      | some e => .ok (e, cs)
      | none => .error .malformed

/-- Passes an escape; its digits are looked at, but not the character they stand for. -/
def skipEscape : List Char → Except ReadError (List Char)
  | [] => .error .truncated
  | c :: cs =>
    if c = 'u' then (hexEscape cs).map Prod.snd
    else if (shortEscape? c).isSome then .ok cs
    else .error .malformed

theorem hexEscape_length {cs rest : List Char} {n : Nat} (h : hexEscape cs = .ok (n, rest)) :
    rest.length < cs.length := by
  unfold hexEscape at h
  split at h
  · split at h
    · cases h
      simp only [List.length_cons]
      omega
    · cases h
  · cases h

theorem trailEscape_length {lead : Nat} {cs rest : List Char} {c : Char}
    (h : trailEscape lead cs = .ok (c, rest)) : rest.length < cs.length := by
  unfold trailEscape at h
  split at h
  · rename_i cs
    cases hx : hexEscape cs with
    | error e => simp [hx, bind, Except.bind] at h
    | ok p =>
      have hlen := @hexEscape_length _ p.2 p.1 hx
      simp only [hx, bind, Except.bind] at h
      split at h
      · simp only [Except.ok.injEq, Prod.mk.injEq] at h
        simp only [← h.2, List.length_cons]
        omega
      · cases h
  all_goals cases h

theorem unicodeEscape_length {cs rest : List Char} {c : Char}
    (h : unicodeEscape cs = .ok (c, rest)) : rest.length < cs.length := by
  unfold unicodeEscape at h
  cases hx : hexEscape cs with
  | error e => simp [hx, bind, Except.bind] at h
  | ok p =>
    have hlen := @hexEscape_length _ p.2 p.1 hx
    simp only [hx, bind, Except.bind] at h
    split at h
    · cases h
    · split at h
      · exact Nat.lt_trans (trailEscape_length h) hlen
      · cases h
        exact hlen

theorem readEscape_length {cs rest : List Char} {c : Char} (h : readEscape cs = .ok (c, rest)) :
    rest.length < cs.length := by
  unfold readEscape at h
  split at h
  · cases h
  · split at h
    · exact Nat.lt_succ_of_lt (unicodeEscape_length h)
    · split at h
      · cases h
        exact Nat.lt_succ_self _
      · cases h

theorem skipEscape_length {cs rest : List Char} (h : skipEscape cs = .ok rest) :
    rest.length < cs.length := by
  unfold skipEscape at h
  split at h
  · cases h
  · rename_i c cs
    split at h
    · cases hx : hexEscape cs with
      | error e => simp [hx, Except.map] at h
      | ok p =>
        simp only [hx, Except.map, Except.ok.injEq] at h
        have hlen := @hexEscape_length _ p.2 p.1 hx
        rw [← h]
        exact Nat.lt_succ_of_lt hlen
    · split at h
      · cases h
        exact Nat.lt_succ_self _
      · cases h

/-- Reads a string from behind its opening quote; `acc` holds what is read so far, last first. -/
def stringBody (acc : List Char) (cs : List Char) : Except ReadError (String × List Char) :=
  match cs with
  | [] => .error .truncated
  | c :: cs' =>
    if c = '"' then .ok (String.ofList acc.reverse, cs')
    else if c = '\\' then
      match h : readEscape cs' with
      | .error e => .error e
      | .ok (e, rest) =>
        have := readEscape_length h
        stringBody (e :: acc) rest
    else if c.toNat < 0x20 then .error .malformed
    else stringBody (c :: acc) cs'
termination_by cs.length
decreasing_by all_goals simp only [List.length_cons]; omega

def skipString (cs : List Char) : Except ReadError (List Char) :=
  match cs with
  | [] => .error .truncated
  | c :: cs' =>
    if c = '"' then .ok cs'
    else if c = '\\' then
      match h : skipEscape cs' with
      | .error e => .error e
      | .ok rest =>
        have := skipEscape_length h
        skipString rest
    else if c.toNat < 0x20 then .error .malformed
    else skipString cs'
termination_by cs.length
decreasing_by all_goals simp only [List.length_cons]; omega

end SpimCompiler.Json
