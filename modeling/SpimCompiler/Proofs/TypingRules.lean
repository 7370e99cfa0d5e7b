import SpimCompiler.Proofs.Grammar

namespace SpimCompiler

abbrev Env := List (String × TypeName)

inductive HasType (Γ : Env) : Tree → TypeName → Prop
  | intLiteral {i : NodeId} {value : Int32} : HasType Γ (.mk i (.intLiteral value)) .int
  | boolLiteral {i : NodeId} {value : Bool} : HasType Γ (.mk i (.boolLiteral value)) .bool
  | stringLiteral {i : NodeId} {value : String} : HasType Γ (.mk i (.stringLiteral value)) .string
  | parenthesized {i : NodeId} {e : Tree} {τ : TypeName} :
      HasType Γ e τ → HasType Γ (.mk i (.parenthesized e)) τ
  | minus {i : NodeId} {e : Tree} : HasType Γ e .int → HasType Γ (.mk i (.unary .minus e)) .int
  | not {i : NodeId} {e : Tree} : HasType Γ e .bool → HasType Γ (.mk i (.unary .not e)) .bool
  | mulDiv {i : NodeId} {op : MulDivOp} {l r : Tree} :
      HasType Γ l .int → HasType Γ r .int → HasType Γ (.mk i (.mulDiv op l r)) .int
  | addSub {i : NodeId} {op : AddSubOp} {l r : Tree} :
      HasType Γ l .int → HasType Γ r .int → HasType Γ (.mk i (.addSub op l r)) .int
  | concat {i : NodeId} {l r : Tree} :
      HasType Γ l .string → HasType Γ r .string → HasType Γ (.mk i (.addSub .add l r)) .string
  | compare {i : NodeId} {op : CompareOp} {l r : Tree} :
      HasType Γ l .int → HasType Γ r .int → HasType Γ (.mk i (.compare op l r)) .bool
  | variableRef {i : NodeId} {name : String} {τ : TypeName} :
      Γ.lookup name = some τ → HasType Γ (.mk i (.variableRef name)) τ

inductive Checks (Γ : Env) : Tree → Prop
  | statementBlock {i : NodeId} {statements : List Tree} :
      (∀ s ∈ statements, Checks Γ s) → Checks Γ (.mk i (.statementBlock statements))
  | assignment {i : NodeId} {name : String} {value : Tree} {τ : TypeName} :
      Γ.lookup name = some τ → HasType Γ value τ → Checks Γ (.mk i (.assignment name value))
  | ifStatement {i : NodeId} {condition thenBlock : Tree} {elseBlock : Option Tree} :
      HasType Γ condition .bool → Checks Γ thenBlock → (∀ b ∈ elseBlock, Checks Γ b) →
      Checks Γ (.mk i (.ifStatement condition thenBlock elseBlock))
  | whileStatement {i : NodeId} {condition body : Tree} :
      HasType Γ condition .bool → Checks Γ body → Checks Γ (.mk i (.whileStatement condition body))
  | printStatement {i : NodeId} {value : Tree} {τ : TypeName} :
      HasType Γ value τ → Checks Γ (.mk i (.printStatement value))

/-- The declarations are well typed one after the other, and lead from one environment to the
other. A variable is added behind its initialiser. -/
inductive Declares : Env → List Tree → Env → Prop
  | nil {Γ : Env} : Declares Γ [] Γ
  | cons {Γ Γ' : Env} {i : NodeId} {name : String} {τ : TypeName} {init : Option Tree}
      {ds : List Tree} :
      Γ.lookup name = none → (∀ e ∈ init, HasType Γ e τ) → Declares (Γ ++ [(name, τ)]) ds Γ' →
      Declares Γ (.mk i (.variableDeclaration name τ init) :: ds) Γ'

def Tree.declarations : Tree → List Tree
  | .mk _ (.variableBlock declarations) => declarations
  | _ => []

/-- The program is well typed: it has no functions, and its main block declares the variables with
which its statements are well typed. -/
inductive WellTyped : Tree → Prop
  | program {i j : NodeId} {vars : Option Tree} {body : Tree} {Γ : Env} :
      Declares [] (vars.toList.flatMap Tree.declarations) Γ → Checks Γ body →
      WellTyped (.mk i (.program [] (.mk j (.executableBlock vars body))))

def Tree.binding? : Tree → Option (String × TypeName)
  | .mk _ (.variableDeclaration name τ _) => some (name, τ)
  | _ => none

/-- Where a tree stands below another one, and in which environment: if the second tree stands in
the first environment, then the last one stands in the third argument. -/
inductive Stands : Env → Tree → Env → Tree → Prop
  | here {Γ : Env} {t : Tree} : Stands Γ t Γ t
  | child {Γ Δ : Env} {t c : Tree} {i : NodeId} {n : Node Tree} :
      n.kind ≠ .executableBlock → n.kind ≠ .variableBlock → c ∈ n.children → Stands Γ c Δ t →
      Stands Γ (.mk i n) Δ t
  | vars {Γ Δ : Env} {t vars body : Tree} {i : NodeId} :
      Stands Γ vars Δ t → Stands Γ (.mk i (.executableBlock (some vars) body)) Δ t
  | body {Γ Δ : Env} {t body : Tree} {vars : Option Tree} {i : NodeId} :
      Stands (Γ ++ (vars.toList.flatMap Tree.declarations).filterMap Tree.binding?) body Δ t →
      Stands Γ (.mk i (.executableBlock vars body)) Δ t
  | declaration {Γ Δ : Env} {t d : Tree} {ds ds' : List Tree} {i : NodeId} :
      Stands (Γ ++ ds.filterMap Tree.binding?) d Δ t →
      Stands Γ (.mk i (.variableBlock (ds ++ d :: ds'))) Δ t

theorem Declares.eq_append {Γ Γ' : Env} {ds : List Tree} (h : Declares Γ ds Γ') :
    Γ' = Γ ++ ds.filterMap Tree.binding? := by
  induction h with
  | nil => simp
  | cons _ _ _ ih => simp [ih, Tree.binding?]

theorem Tree.Within.stands {t u : Tree} (h : t.Within u) (Γ : Env) : ∃ Δ, Stands Γ u Δ t := by
  induction h generalizing Γ with
  | refl => exact ⟨Γ, .here⟩
  | @child i n c hc _ ih =>
    cases n with
    | executableBlock vars body =>
      simp only [Node.children, List.mem_append, List.mem_singleton] at hc
      obtain hc | rfl := hc
      · cases vars with
        | none => simp at hc
        | some v =>
          obtain rfl : c = v := by simpa using hc
          obtain ⟨Δ, h⟩ := ih Γ
          exact ⟨Δ, .vars h⟩
      · obtain ⟨Δ, h⟩ := ih _
        exact ⟨Δ, .body h⟩
    | variableBlock declarations =>
      obtain ⟨ds, ds', rfl⟩ := List.append_of_mem hc
      obtain ⟨Δ, h⟩ := ih _
      exact ⟨Δ, .declaration h⟩
    | _ =>
      obtain ⟨Δ, h⟩ := ih Γ
      exact ⟨Δ, .child (by simp [Node.kind]) (by simp [Node.kind]) hc h⟩

end SpimCompiler
