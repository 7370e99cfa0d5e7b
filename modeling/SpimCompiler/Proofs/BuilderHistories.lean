import Mathlib.Data.List.Forall2
import SpimCompiler.Proofs.FirstDefect

namespace SpimCompiler

namespace Builder

/-- A call of a builder. All builders but one append a single node. -/
inductive Call where
  | push (n : Node NodeId)
  | mainProgram (declarations statements : List NodeId)
deriving DecidableEq

def Call.builder : Call → Builder NodeId
  | push n => Builder.push n
  | mainProgram declarations statements => Builder.mainProgram declarations statements

structure Push where
  id : NodeId
  node : Node NodeId
deriving DecidableEq

/-- What a call appends behind `next` nodes. -/
def Call.pushes (next : Nat) : Call → List Push
  | push n => [⟨.ofIndex next, n⟩]
  | mainProgram declarations statements =>
    let vars :=
      if declarations.isEmpty then [] else [⟨.ofIndex next, .variableBlock declarations⟩]
    let next := next + vars.length
    vars ++ [⟨.ofIndex next, .statementBlock statements⟩,
      ⟨.ofIndex (next + 1), .executableBlock (vars.head?.map Push.id) (.ofIndex next)⟩,
      ⟨.ofIndex (next + 2), .program [] (.ofIndex (next + 1))⟩]

def log (next : Nat) : List Call → List (List Push)
  | [] => []
  | c :: cs => c.pushes next :: log (next + (c.pushes next).length) cs

def replay (cs : List Call) : List NodeId × Arena := (cs.mapM Call.builder).run {}

def lastProgram? (ps : List Push) : Option NodeId :=
  (ps.filter fun p ↦ p.node.kind = .program).getLast?.map Push.id

/-- Every id that was given as a child was answered before and is given only once. It is not the id
of a program, and that of an executable block only where the parent has its block. -/
structure Linear (ps : List Push) : Prop where
  earlier {before behind : List Push} {p : Push} : ps = before ++ p :: behind →
    ∀ c ∈ p.node.children, c ∈ before.map Push.id
  once : (ps.flatMap fun p ↦ p.node.children).Nodup
  not_program {p q : Push} : p ∈ ps → q ∈ ps → q.id ∈ p.node.children → q.node.kind ≠ .program
  block {p q : Push} : p ∈ ps → q ∈ ps → q.id ∈ p.node.children →
    q.node.kind = .executableBlock → p.node.block? = some q.id

/-- The node that an id names. Ids are counted modulo their number, and one that is answered again
still names the first of its nodes. -/
def named? (ps : List Push) (c : NodeId) : Option (Node NodeId) :=
  (ps.find? fun p ↦ p.id = c).map Push.node

/-- Every id that was given as a child is below that of the parent and is given only once. It does
not name a program, and an executable block only where the parent has its block. -/
structure Descending (ps : List Push) : Prop where
  below {p : Push} {c : NodeId} : p ∈ ps → c ∈ p.node.children → c.index < p.id.index
  once : (ps.flatMap fun p ↦ p.node.children).Nodup
  not_program {p : Push} {c : NodeId} {n : Node NodeId} : p ∈ ps → c ∈ p.node.children →
    named? ps c = some n → n.kind ≠ .program
  block {p : Push} {c : NodeId} {n : Node NodeId} : p ∈ ps → c ∈ p.node.children →
    named? ps c = some n → n.kind = .executableBlock → p.node.block? = some c

structure Records (ps : List Push) (a : Arena) : Prop where
  nodes : a.nodes.toList = ps.map Push.node
  ids : ps.map Push.id = (List.range ps.length).map NodeId.ofIndex
  root : a.root = lastProgram? ps

variable {ps before behind : List Push} {p q : Push} {a : Arena} {c : NodeId} {n : Node NodeId}

theorem Records.empty : Records [] {} := ⟨rfl, rfl, rfl⟩

theorem Records.size (h : Records ps a) : a.size = ps.length := by
  rw [Arena.size, ← Array.length_toList, h.nodes, List.length_map]

theorem Records.push (h : Records ps a) (n : Node NodeId) :
    Records (ps ++ [⟨.ofIndex ps.length, n⟩]) (a.push n) where
  nodes := by simp [Arena.push, h.nodes]
  ids := by simp [h.ids, List.range_succ]
  root := by
    by_cases hn : n.kind = .program
    · simp [Arena.push, lastProgram?, hn, Arena.nextId, h.size]
    · simp [Arena.push, lastProgram?, hn, h.root]

theorem Records.call (h : Records ps a) (c : Call) :
    ∃ id a', c.builder.run a = (id, a') ∧
      (c.pushes ps.length).getLast?.map Push.id = some id ∧
      Records (ps ++ c.pushes ps.length) a' := by
  cases c with
  | push n => exact ⟨_, _, rfl, by simp [Call.pushes, Arena.nextId, h.size], h.push n⟩
  | mainProgram declarations statements =>
    cases declarations with
    | nil =>
      have hblock := h.push (.statementBlock statements)
      have hmain := hblock.push (.executableBlock none a.nextId)
      have hprogram := hmain.push (.program [] (a.push (.statementBlock statements)).nextId)
      refine ⟨_, _, rfl, by simp [Call.pushes, Arena.nextId, h.size], ?_⟩
      simpa [Call.pushes, Arena.nextId, h.size] using hprogram
    | cons d ds =>
      have hvars := h.push (.variableBlock (d :: ds))
      have hblock := hvars.push (.statementBlock statements)
      have hmain := hblock.push (.executableBlock (some a.nextId) (.ofIndex (a.size + 1)))
      have hprogram := hmain.push (.program [] (.ofIndex (a.size + 2)))
      refine ⟨_, _, rfl, by simp [Call.pushes, Arena.nextId, h.size], ?_⟩
      simpa [Call.pushes, Arena.nextId, h.size, Nat.add_assoc] using hprogram

theorem run_mapM_cons (c : Call) (cs : List Call) (a : Arena) :
    ((c :: cs).mapM Call.builder).run a =
      let (id, a) := c.builder.run a
      let (ids, a) := (cs.mapM Call.builder).run a
      (id :: ids, a) := by
  rw [List.mapM_cons]
  rfl

theorem Records.calls (h : Records ps a) (cs : List Call) :
    ∃ ids a', (cs.mapM Call.builder).run a = (ids, a') ∧
      List.Forall₂ (fun id qs ↦ qs.getLast?.map Push.id = some id) ids (log ps.length cs) ∧
      Records (ps ++ (log ps.length cs).flatten) a' := by
  induction cs generalizing ps a with
  | nil => exact ⟨[], a, rfl, .nil, by simpa [log] using h⟩
  | cons c cs ih =>
    obtain ⟨id, a', hrun, hid, h'⟩ := h.call c
    obtain ⟨ids, a'', hruns, hids, h''⟩ := ih h'
    rw [List.length_append] at hids h''
    refine ⟨id :: ids, a'', ?_, .cons hid hids, by simpa [log] using h''⟩
    simp only [run_mapM_cons, hrun, hruns]

theorem Records.id_eq (h : Records ps a) {i : Nat} (hp : ps[i]? = some p) : p.id = .ofIndex i := by
  obtain ⟨hi, rfl⟩ := List.getElem?_eq_some_iff.1 hp
  have hid := congrArg (·[i]?) h.ids
  simpa [hi] using hid

theorem Records.get?_eq (h : Records ps a) (c : NodeId) : a.get? c = named? ps c := by
  rw [Arena.get?, ← Array.getElem?_toList, h.nodes, List.getElem?_map, named?]
  congr 1
  cases hp : ps[c.index]? with
  | none =>
    refine (List.find?_eq_none.2 fun q hq ↦ ?_).symm
    obtain ⟨i, hi⟩ := List.mem_iff_getElem?.1 hq
    have hlt := (List.getElem?_eq_some_iff.1 hi).1
    have hle := List.getElem?_eq_none_iff.1 hp
    rw [h.id_eq hi, decide_eq_true_iff]
    rintro rfl
    have := NodeId.index_ofIndex_le i
    omega
  | some p =>
    obtain ⟨hlt, rfl⟩ := List.getElem?_eq_some_iff.1 hp
    refine (List.find?_eq_some_iff_getElem.2 ⟨?_, c.index, hlt, rfl, fun j hj ↦ ?_⟩).symm
    · rw [h.id_eq hp, NodeId.ofIndex_index, decide_eq_true_iff]
    · have hj' := List.getElem?_eq_getElem (Nat.lt_trans hj hlt)
      rw [h.id_eq hj', Bool.not_eq_true', decide_eq_false_iff_not]
      rintro rfl
      exact absurd hj (Nat.not_lt.2 (NodeId.index_ofIndex_le j))

theorem Records.named?_eq_some_iff (h : Records ps a) (hsize : ps.length ≤ UInt32.size) :
    named? ps c = some n ↔ ⟨c, n⟩ ∈ ps := by
  rw [← h.get?_eq, Arena.get?, ← Array.getElem?_toList, h.nodes, List.getElem?_map]
  constructor
  · intro hn
    obtain ⟨p, hp, rfl⟩ := Option.map_eq_some_iff.1 hn
    have hid : p.id = c := by rw [h.id_eq hp, NodeId.ofIndex_index]
    exact hid ▸ List.mem_of_getElem? hp
  · intro hn
    obtain ⟨i, hi⟩ := List.mem_iff_getElem?.1 hn
    have hlt : i < UInt32.size := Nat.lt_of_lt_of_le (List.getElem?_eq_some_iff.1 hi).1 hsize
    obtain rfl : c = .ofIndex i := h.id_eq hi
    rw [NodeId.index_ofIndex hlt, hi, Option.map_some]

theorem Records.exists_get? (h : Records ps a) (hp : p ∈ ps) (hlt : c.index < p.id.index) :
    ∃ n, a.get? c = some n := by
  obtain ⟨i, hi⟩ := List.mem_iff_getElem?.1 hp
  have hsize : c.index < a.size := by
    have hle := NodeId.index_ofIndex_le i
    have hi' := (List.getElem?_eq_some_iff.1 hi).1
    rw [h.id_eq hi] at hlt
    rw [h.size]
    omega
  exact ⟨_, Array.getElem?_eq_getElem hsize⟩

theorem Records.mem_ids_iff (h : Records (before ++ p :: behind) a)
    (hsize : (before ++ p :: behind).length ≤ UInt32.size) :
    c ∈ before.map Push.id ↔ c.index < p.id.index := by
  have hids : before.map Push.id = (List.range before.length).map NodeId.ofIndex := by
    have hp := congrArg (List.take before.length) h.ids
    simpa [← List.map_take, List.take_range] using hp
  have hlt : before.length < UInt32.size := by
    rw [List.length_append, List.length_cons] at hsize
    omega
  have hp : p.id.index = before.length := by
    rw [h.id_eq (i := before.length) (by simp), NodeId.index_ofIndex hlt]
  rw [hp, hids]
  simp only [List.mem_map, List.mem_range]
  constructor
  · rintro ⟨i, hi, rfl⟩
    rwa [NodeId.index_ofIndex (Nat.lt_trans hi hlt)]
  · intro hc
    exact ⟨c.index, hc, NodeId.ofIndex_index c⟩

theorem Records.toList (h : Records ps a) : a.toList = ps.map fun p ↦ (p.id, p.node) := by
  refine List.ext_getElem? fun i ↦ ?_
  rw [Arena.toList, h.nodes]
  cases hp : ps[i]? with
  | none => simp [hp]
  | some p => simp [hp, h.id_eq hp]

theorem Records.firstDefect?_eq_none_iff (h : Records ps a) :
    a.firstDefect? ∅ a.edges = none ↔
      (∀ p ∈ ps, ∀ c ∈ p.node.children, a.Sound ⟨p.id, p.node, c⟩) ∧
        (ps.flatMap fun p ↦ p.node.children).Nodup := by
  rw [Arena.firstDefect?_eq_none, Arena.map_child_edges, h.toList, List.flatMap_map]
  refine and_congr_left fun _ ↦ ?_
  simp only [Arena.edges, h.toList, List.mem_flatMap, List.mem_map]
  constructor
  · intro hs p hp c hc
    exact (hs _ ⟨_, ⟨p, hp, rfl⟩, c, hc, rfl⟩).2
  · rintro hs _ ⟨_, ⟨p, hp, rfl⟩, c, hc, rfl⟩
    exact ⟨Std.HashSet.not_mem_empty, hs p hp c hc⟩

theorem Records.sound_iff_descending (h : Records ps a) :
    a.firstDefect? ∅ a.edges = none ↔ Descending ps := by
  rw [h.firstDefect?_eq_none_iff]
  constructor
  · rintro ⟨hsound, honce⟩
    have hadmits {p : Push} {c : NodeId} {n : Node NodeId} (hp : p ∈ ps)
        (hc : c ∈ p.node.children) (hn : named? ps c = some n) : p.node.Admits c n := by
      obtain ⟨n', hn', -, haccepts⟩ := hsound p hp c hc
      obtain rfl := Option.some.inj (hn.symm.trans ((h.get?_eq c).symm.trans hn'))
      exact Node.accepts_iff.1 haccepts
    refine ⟨fun hp hc ↦ ?_, honce, fun hp hc hn ↦ (hadmits hp hc hn).1,
      fun hp hc hn ↦ (hadmits hp hc hn).2⟩
    obtain ⟨-, -, hlt, -⟩ := hsound _ hp _ hc
    exact hlt
  · intro hdesc
    refine ⟨fun p hp c hc ↦ ?_, hdesc.once⟩
    obtain ⟨n, hn⟩ := h.exists_get? hp (hdesc.below hp hc)
    have hnamed := (h.get?_eq c).symm.trans hn
    exact ⟨n, hn, hdesc.below hp hc,
      Node.accepts_iff.2 ⟨hdesc.not_program hp hc hnamed, hdesc.block hp hc hnamed⟩⟩

theorem Records.descending_iff_linear (h : Records ps a) (hsize : ps.length ≤ UInt32.size) :
    Descending ps ↔ Linear ps := by
  constructor
  · intro hdesc
    have hnamed {q : Push} (hq : q ∈ ps) : named? ps q.id = some q.node :=
      (h.named?_eq_some_iff hsize).2 hq
    refine ⟨?_, hdesc.once, fun hp hq hc ↦ hdesc.not_program hp hc (hnamed hq),
      fun hp hq hc ↦ hdesc.block hp hc (hnamed hq)⟩
    rintro before behind p rfl c hc
    exact (h.mem_ids_iff hsize).2 (hdesc.below (by simp) hc)
  · intro hlinear
    refine ⟨fun {p c} hp hc ↦ ?_, hlinear.once,
      fun hp hc hn ↦ hlinear.not_program hp ((h.named?_eq_some_iff hsize).1 hn) hc,
      fun hp hc hn ↦ hlinear.block hp ((h.named?_eq_some_iff hsize).1 hn) hc⟩
    obtain ⟨before, behind, rfl⟩ := List.append_of_mem hp
    exact (h.mem_ids_iff hsize).1 (hlinear.earlier rfl c hc)

theorem Records.programRoot_eq_ok_iff (h : Records ps a) {r : NodeId} :
    a.programRoot = .ok r ↔
      lastProgram? ps = some r ∧
        ∃ functions main, named? ps r = some (.program functions main) := by
  rw [Arena.programRoot_eq_ok_iff, h.root, h.get?_eq]

theorem Records.validate_eq_ok_iff (h : Records ps a) {r : NodeId} :
    a.validate = .ok r ↔
      Descending ps ∧ lastProgram? ps = some r ∧
        ∃ functions main, named? ps r = some (.program functions main) := by
  rw [← h.programRoot_eq_ok_iff, ← h.sound_iff_descending, Arena.validate]
  cases a.firstDefect? ∅ a.edges <;> simp

theorem Records.exists_named?_of_lastProgram? (h : Records ps a) (hsize : ps.length ≤ UInt32.size)
    {r : NodeId} (hr : lastProgram? ps = some r) :
    ∃ functions main, named? ps r = some (.program functions main) := by
  obtain ⟨p, hp, rfl⟩ := Option.map_eq_some_iff.1 hr
  obtain ⟨hmem, hkind⟩ := List.mem_filter.1 (List.mem_of_getLast? hp)
  rw [(h.named?_eq_some_iff hsize).2 hmem]
  cases hn : p.node <;> simp_all [Node.kind]

theorem records_replay (cs : List Call) :
    List.Forall₂ (fun id qs ↦ qs.getLast?.map Push.id = some id) (replay cs).1 (log 0 cs) ∧
      Records (log 0 cs).flatten (replay cs).2 := by
  obtain ⟨ids, a, hrun, hids, h⟩ := Records.empty.calls cs
  rw [replay, hrun]
  exact ⟨hids, h⟩

/-- After any calls the answers are the ids of the nodes they appended last, and the nodes of the
arena are those they appended, one by one. The arena is valid if ids were used in descending order
and the id of the last program names a program, and only then; this program is the root. As long as
there are no more nodes than ids, that is the case if ids were used linearly and some program was
appended. -/
theorem validate_calls_iff (cs : List Call) :
    List.Forall₂ (fun id qs ↦ qs.getLast?.map Push.id = some id) (replay cs).1 (log 0 cs) ∧
      (replay cs).2.toList = (log 0 cs).flatten.map (fun p ↦ (p.id, p.node)) ∧
      (∀ r, (replay cs).2.validate = .ok r ↔
        Descending (log 0 cs).flatten ∧ lastProgram? (log 0 cs).flatten = some r ∧
          ∃ functions main, named? (log 0 cs).flatten r = some (.program functions main)) ∧
      ((log 0 cs).flatten.length ≤ UInt32.size → ∀ r, (replay cs).2.validate = .ok r ↔
        Linear (log 0 cs).flatten ∧ lastProgram? (log 0 cs).flatten = some r) := by
  obtain ⟨hids, h⟩ := records_replay cs
  refine ⟨hids, h.toList, fun _ ↦ h.validate_eq_ok_iff, fun hsize r ↦ ?_⟩
  rw [h.validate_eq_ok_iff, h.descending_iff_linear hsize]
  exact and_congr_right fun _ ↦
    and_iff_left_of_imp fun hr ↦ h.exists_named?_of_lastProgram? hsize hr

end Builder

namespace rebuilt

open Builder

def calls : List Call :=
  [.push (.variableDeclaration "x" .int none), .push (.variableRef "x"),
    .push (.printStatement ⟨1⟩), .mainProgram [⟨0⟩] [⟨2⟩], .mainProgram [] []]

theorem validate_calls_iff_at :
    (log 0 calls).flatten.length ≤ UInt32.size ∧ (replay calls).1 = [⟨0⟩, ⟨1⟩, ⟨2⟩, ⟨6⟩, ⟨9⟩] ∧
      (replay calls).2.validate = .ok ⟨9⟩ ∧ Linear (log 0 calls).flatten := by
  have hsize : (log 0 calls).flatten.length ≤ UInt32.size := by decide
  obtain ⟨-, -, -, hvalid⟩ := validate_calls_iff calls
  have hok : (replay calls).2.validate = .ok ⟨9⟩ :=
    Arena.validate_of_sound (by decide +kernel) (by decide +kernel) (by decide +kernel)
  exact ⟨hsize, by decide, hok, ((hvalid hsize _).1 hok).1⟩

end rebuilt

namespace overrun

open Builder

/-- A program behind `n` literals. -/
def calls (n : Nat) : List Call :=
  List.replicate n (.push (.intLiteral 0)) ++ [.mainProgram [] []]

def literals (start n : Nat) : List Push :=
  (List.range' start n).map fun i ↦ ⟨.ofIndex i, .intLiteral 0⟩

def program : List Push :=
  [⟨⟨0⟩, .statementBlock []⟩, ⟨⟨1⟩, .executableBlock none ⟨0⟩⟩, ⟨⟨2⟩, .program [] ⟨1⟩⟩]

theorem flatten_log (start n : Nat) :
    (log start (calls n)).flatten =
      literals start n ++ Call.pushes (start + n) (.mainProgram [] []) := by
  induction n generalizing start with
  | zero => simp [calls, log, literals]
  | succ n ih =>
    have hcalls : calls (n + 1) = .push (.intLiteral 0) :: calls n := by
      simp [calls, List.replicate_succ]
    have hliterals : literals start (n + 1) =
        ⟨.ofIndex start, .intLiteral 0⟩ :: literals (start + 1) n := by
      simp [literals, List.range'_succ]
    rw [hcalls, log, List.flatten_cons]
    simp only [Call.pushes, List.length_singleton]
    rw [ih, hliterals, Nat.add_right_comm, Nat.add_assoc]
    rfl

theorem node_eq_of_mem_literals {start n : Nat} {p : Push} (h : p ∈ literals start n) :
    p.node = .intLiteral 0 := by
  obtain ⟨i, -, rfl⟩ := List.mem_map.1 h
  rfl

theorem pushes_size : Call.pushes UInt32.size (.mainProgram [] []) = program := by decide +kernel

theorem flatten_log_size :
    (log 0 (calls UInt32.size)).flatten = literals 0 UInt32.size ++ program := by
  rw [flatten_log, Nat.zero_add, pushes_size]

theorem named?_literals_append {n : Nat} (hn : 3 ≤ n) (ps : List Push) {c : NodeId}
    (hc : c = ⟨0⟩ ∨ c = ⟨1⟩ ∨ c = ⟨2⟩) :
    named? (literals 0 n ++ ps) c = some (.intLiteral 0) := by
  obtain ⟨k, rfl⟩ := Nat.exists_eq_add_of_le' hn
  have hliterals : literals 0 (k + 3) =
      ⟨⟨0⟩, .intLiteral 0⟩ :: ⟨⟨1⟩, .intLiteral 0⟩ :: ⟨⟨2⟩, .intLiteral 0⟩ :: literals 3 k := rfl
  rw [hliterals, named?]
  rcases hc with rfl | rfl | rfl <;> rfl

theorem mem_append_program {n : Nat} {p : Push} (h : p ∈ literals 0 n ++ program) :
    p.node = .intLiteral 0 ∨ p = ⟨⟨0⟩, .statementBlock []⟩ ∨
      p = ⟨⟨1⟩, .executableBlock none ⟨0⟩⟩ ∨ p = ⟨⟨2⟩, .program [] ⟨1⟩⟩ := by
  rcases List.mem_append.1 h with h | h
  · exact .inl (node_eq_of_mem_literals h)
  · exact .inr (by simpa [program] using h)

theorem child_cases {n : Nat} {p : Push} {c : NodeId} (hp : p ∈ literals 0 n ++ program)
    (hc : c ∈ p.node.children) :
    p = ⟨⟨1⟩, .executableBlock none ⟨0⟩⟩ ∧ c = ⟨0⟩ ∨ p = ⟨⟨2⟩, .program [] ⟨1⟩⟩ ∧ c = ⟨1⟩ := by
  rcases mem_append_program hp with h | rfl | rfl | rfl
  · rw [h] at hc
    cases hc
  all_goals simp_all [Node.children]

theorem flatMap_children (n : Nat) :
    ((literals 0 n ++ program).flatMap fun p ↦ p.node.children) = [⟨0⟩, ⟨1⟩] := by
  have hnil : (literals 0 n).flatMap (fun p ↦ p.node.children) = [] := by
    refine List.flatMap_eq_nil_iff.2 fun p hp ↦ ?_
    rw [node_eq_of_mem_literals hp]
    rfl
  rw [List.flatMap_append, hnil]
  rfl

theorem mem_ids_of_child {n : Nat} {before behind : List Push} {p : Push} {c : NodeId}
    (h : literals 0 n ++ program = before ++ p :: behind) (hc : c ∈ p.node.children) :
    c ∈ before.map Push.id := by
  have hp : p ∈ literals 0 n ++ program := by simp [h]
  rcases List.append_eq_append_iff.1 h with ⟨xs, rfl, hxs⟩ | ⟨xs, hls, hxs⟩
  · rcases child_cases hp hc with ⟨rfl, rfl⟩ | ⟨rfl, rfl⟩
    · rcases xs with - | ⟨x, xs⟩
      · simp [program] at hxs
      · obtain ⟨rfl, -⟩ := List.cons.inj hxs
        simp
    · rcases xs with - | ⟨x, - | ⟨y, xs⟩⟩
      · simp [program] at hxs
      · simp [program] at hxs
      · obtain ⟨-, hxs⟩ := List.cons.inj hxs
        obtain ⟨rfl, -⟩ := List.cons.inj hxs
        simp
  · rcases xs with - | ⟨x, xs⟩
    · obtain ⟨rfl, -⟩ := List.cons.inj hxs
      cases hc
    · obtain ⟨rfl, -⟩ := List.cons.inj hxs
      have hp : p ∈ literals 0 n := by simp [hls]
      rw [node_eq_of_mem_literals hp] at hc
      cases hc

theorem linear (n : Nat) : Linear (literals 0 n ++ program) where
  earlier h _ hc := mem_ids_of_child h hc
  once := by
    rw [flatMap_children]
    decide
  not_program hp hq hc := by
    rcases mem_append_program hq with h | rfl | rfl | rfl
    · simp [h, Node.kind]
    · decide
    · decide
    · rcases child_cases hp hc with ⟨-, hid⟩ | ⟨-, hid⟩ <;> exact absurd hid (by decide)
  block hp hq hc hkind := by
    rcases child_cases hp hc with ⟨rfl, hid⟩ | ⟨rfl, hid⟩
    · rcases mem_append_program hq with h | rfl | rfl | rfl
      · simp [h, Node.kind] at hkind
      all_goals simp_all [Node.kind]
    · rw [hid]
      rfl

theorem descending {n : Nat} (hn : 3 ≤ n) : Descending (literals 0 n ++ program) := by
  have hnode {p : Push} {c : NodeId} {m : Node NodeId} (hp : p ∈ literals 0 n ++ program)
      (hc : c ∈ p.node.children) (hm : named? (literals 0 n ++ program) c = some m) :
      m = .intLiteral 0 := by
    have hid : c = ⟨0⟩ ∨ c = ⟨1⟩ ∨ c = ⟨2⟩ := by
      rcases child_cases hp hc with ⟨-, rfl⟩ | ⟨-, rfl⟩ <;> simp
    exact Option.some.inj (hm.symm.trans (named?_literals_append hn _ hid))
  refine ⟨fun hp hc ↦ ?_, ?_, fun hp hc hm ↦ ?_, fun hp hc hm hkind ↦ ?_⟩
  · rcases child_cases hp hc with ⟨rfl, rfl⟩ | ⟨rfl, rfl⟩ <;> decide
  · rw [flatMap_children]
    decide
  · simp [hnode hp hc hm, Node.kind]
  · simp [hnode hp hc hm, Node.kind] at hkind

theorem lastProgram?_append_program (n : Nat) :
    lastProgram? (literals 0 n ++ program) = some ⟨2⟩ := by
  simp [lastProgram?, program, Node.kind]

theorem validate_eq_error {n : Nat} {a : Arena} (hn : 3 ≤ n)
    (h : Records (literals 0 n ++ program) a) :
    a.validate = .error (.rootNotProgram .intLiteral) := by
  have hroot := h.root.trans (lastProgram?_append_program n)
  have hnode := (h.get?_eq ⟨2⟩).trans (named?_literals_append hn program (by simp))
  rw [Arena.validate, h.sound_iff_descending.2 (descending hn)]
  simp [Arena.programRoot, hroot, hnode, Node.kind]

/-- Behind as many literals as there are ids, the nodes of a program have ids that name literals.
They are used linearly, and yet the root is no program. -/
theorem validate_replay :
    Linear (log 0 (calls UInt32.size)).flatten ∧
      lastProgram? (log 0 (calls UInt32.size)).flatten = some ⟨2⟩ ∧
      (replay (calls UInt32.size)).2.validate = .error (.rootNotProgram .intLiteral) := by
  obtain ⟨-, h⟩ := records_replay (calls UInt32.size)
  rw [flatten_log_size] at h ⊢
  exact ⟨linear _, lastProgram?_append_program _, validate_eq_error (by decide) h⟩

end overrun

end SpimCompiler
