import SpimCompiler.Proofs.SyntaxTree

namespace SpimCompiler

inductive Nonterminal where
  | program
  | functionDefinition
  | executableBlock
  | variableBlock
  | variableDeclaration
  | statementBlock
  | statement
  | expression
deriving DecidableEq, Repr

/-- A tree that the grammar derives from a nonterminal. -/
inductive Derives : Nonterminal → Tree → Prop
  | program {i : NodeId} {functions : List Tree} {main : Tree} :
      (∀ f ∈ functions, Derives .functionDefinition f) → Derives .executableBlock main →
      Derives .program (.mk i (.program functions main))
  | functionDefinition {i : NodeId} {name : String} {parameters : List Parameter}
      {returnType : Option TypeName} {body : Tree} :
      Derives .executableBlock body →
      Derives .functionDefinition (.mk i (.functionDefinition name parameters returnType body))
  | executableBlock {i : NodeId} {vars : Option Tree} {body : Tree} :
      (∀ v ∈ vars, Derives .variableBlock v) → Derives .statementBlock body →
      Derives .executableBlock (.mk i (.executableBlock vars body))
  | variableBlock {i : NodeId} {declarations : List Tree} :
      (∀ d ∈ declarations, Derives .variableDeclaration d) →
      Derives .variableBlock (.mk i (.variableBlock declarations))
  | variableDeclaration {i : NodeId} {name : String} {type : TypeName} {init : Option Tree} :
      (∀ e ∈ init, Derives .expression e) →
      Derives .variableDeclaration (.mk i (.variableDeclaration name type init))
  | statementBlock {i : NodeId} {statements : List Tree} :
      (∀ s ∈ statements, Derives .statement s) →
      Derives .statementBlock (.mk i (.statementBlock statements))
  | assignment {i : NodeId} {name : String} {value : Tree} :
      Derives .expression value → Derives .statement (.mk i (.assignment name value))
  | ifStatement {i : NodeId} {condition thenBlock : Tree} {elseBlock : Option Tree} :
      Derives .expression condition → Derives .statementBlock thenBlock →
      (∀ b ∈ elseBlock, Derives .statementBlock b) →
      Derives .statement (.mk i (.ifStatement condition thenBlock elseBlock))
  | whileStatement {i : NodeId} {condition body : Tree} :
      Derives .expression condition → Derives .statementBlock body →
      Derives .statement (.mk i (.whileStatement condition body))
  | printStatement {i : NodeId} {value : Tree} :
      Derives .expression value → Derives .statement (.mk i (.printStatement value))
  | callStatement {i : NodeId} {name : String} {arguments : List Tree} :
      (∀ e ∈ arguments, Derives .expression e) →
      Derives .statement (.mk i (.functionCall name arguments))
  | returnStatement {i : NodeId} {value : Option Tree} :
      (∀ e ∈ value, Derives .expression e) → Derives .statement (.mk i (.returnStatement value))
  | intLiteral {i : NodeId} {value : Int32} : Derives .expression (.mk i (.intLiteral value))
  | boolLiteral {i : NodeId} {value : Bool} : Derives .expression (.mk i (.boolLiteral value))
  | stringLiteral {i : NodeId} {value : String} : Derives .expression (.mk i (.stringLiteral value))
  | parenthesized {i : NodeId} {e : Tree} :
      Derives .expression e → Derives .expression (.mk i (.parenthesized e))
  | unary {i : NodeId} {op : UnaryOp} {e : Tree} :
      Derives .expression e → Derives .expression (.mk i (.unary op e))
  | mulDiv {i : NodeId} {op : MulDivOp} {l r : Tree} :
      Derives .expression l → Derives .expression r → Derives .expression (.mk i (.mulDiv op l r))
  | addSub {i : NodeId} {op : AddSubOp} {l r : Tree} :
      Derives .expression l → Derives .expression r → Derives .expression (.mk i (.addSub op l r))
  | compare {i : NodeId} {op : CompareOp} {l r : Tree} :
      Derives .expression l → Derives .expression r → Derives .expression (.mk i (.compare op l r))
  | variableRef {i : NodeId} {name : String} : Derives .expression (.mk i (.variableRef name))
  | call {i : NodeId} {name : String} {arguments : List Tree} :
      (∀ e ∈ arguments, Derives .expression e) →
      Derives .expression (.mk i (.functionCall name arguments))

inductive Tree.Within : Tree → Tree → Prop
  | refl {t : Tree} : Within t t
  | child {t : Tree} {i : NodeId} {n : Node Tree} {c : Tree} :
      c ∈ n.children → Within t c → Within t (.mk i n)

inductive Tree.Every (P : Node Tree → Prop) : Tree → Prop
  | mk {i : NodeId} {n : Node Tree} : P n → (∀ c ∈ n.children, Every P c) → Every P (.mk i n)

theorem Tree.Every.mono {P Q : Node Tree → Prop} {t : Tree} (h : t.Every P)
    (hpq : ∀ n, P n → Q n) : t.Every Q := by
  induction h with
  | mk hn _ ih => exact .mk (hpq _ hn) ih

theorem Tree.Every.leaf {P : Node Tree → Prop} {i : NodeId} {n : Node Tree} (h : P n)
    (hn : n.children = []) : (Tree.mk i n).Every P :=
  .mk h (by simp [hn])

theorem Tree.Every.one {P : Node Tree → Prop} {i : NodeId} {n : Node Tree} {c : Tree} (h : P n)
    (hn : n.children = [c]) (hc : c.Every P) : (Tree.mk i n).Every P :=
  .mk h (by simpa [hn] using hc)

theorem Tree.Every.two {P : Node Tree → Prop} {i : NodeId} {n : Node Tree} {c d : Tree} (h : P n)
    (hn : n.children = [c, d]) (hc : c.Every P) (hd : d.Every P) : (Tree.mk i n).Every P :=
  .mk h (by simpa [hn] using ⟨hc, hd⟩)

def countdown : Arena where
  nodes := #[.intLiteral 1, .variableDeclaration "n" .int (some ⟨0⟩), .variableBlock [⟨1⟩],
    .variableRef "n", .intLiteral 0, .compare .gt ⟨3⟩ ⟨4⟩, .variableRef "n", .printStatement ⟨6⟩,
    .variableRef "n", .intLiteral 1, .addSub .sub ⟨8⟩ ⟨9⟩, .assignment "n" ⟨10⟩,
    .statementBlock [⟨7⟩, ⟨11⟩], .whileStatement ⟨5⟩ ⟨12⟩, .variableRef "n", .intLiteral 0,
    .compare .eq ⟨14⟩ ⟨15⟩, .printStatement ⟨16⟩, .statementBlock [⟨13⟩, ⟨17⟩],
    .executableBlock (some ⟨2⟩) ⟨18⟩, .program [] ⟨19⟩]
  root := some ⟨20⟩

namespace countdown

def declaration : Tree := .mk ⟨1⟩ (.variableDeclaration "n" .int (some (.mk ⟨0⟩ (.intLiteral 1))))

def condition : Tree :=
  .mk ⟨5⟩ (.compare .gt (.mk ⟨3⟩ (.variableRef "n")) (.mk ⟨4⟩ (.intLiteral 0)))

def output : Tree := .mk ⟨7⟩ (.printStatement (.mk ⟨6⟩ (.variableRef "n")))

def step : Tree :=
  .mk ⟨11⟩ (.assignment "n"
    (.mk ⟨10⟩ (.addSub .sub (.mk ⟨8⟩ (.variableRef "n")) (.mk ⟨9⟩ (.intLiteral 1)))))

def loop : Tree := .mk ⟨13⟩ (.whileStatement condition (.mk ⟨12⟩ (.statementBlock [output, step])))

def check : Tree :=
  .mk ⟨17⟩ (.printStatement
    (.mk ⟨16⟩ (.compare .eq (.mk ⟨14⟩ (.variableRef "n")) (.mk ⟨15⟩ (.intLiteral 0)))))

def tree : Tree :=
  .mk ⟨20⟩ (.program [] (.mk ⟨19⟩ (.executableBlock (some (.mk ⟨2⟩ (.variableBlock [declaration])))
    (.mk ⟨18⟩ (.statementBlock [loop, check])))))

theorem validate_eq : countdown.validate = .ok tree.id :=
  Arena.validate_of_sound (by decide) (by decide) (by decide)

theorem holds : countdown.Holds tree := by
  have hvars : countdown.Holds (.mk ⟨2⟩ (.variableBlock [declaration])) :=
    .one rfl rfl (.one rfl rfl (.leaf rfl rfl))
  have hcondition : countdown.Holds condition := .two rfl rfl (.leaf rfl rfl) (.leaf rfl rfl)
  have houtput : countdown.Holds output := .one rfl rfl (.leaf rfl rfl)
  have hstep : countdown.Holds step := .one rfl rfl (.two rfl rfl (.leaf rfl rfl) (.leaf rfl rfl))
  have hloop : countdown.Holds loop := .two rfl rfl hcondition (.two rfl rfl houtput hstep)
  have hcheck : countdown.Holds check :=
    .one rfl rfl (.two rfl rfl (.leaf rfl rfl) (.leaf rfl rfl))
  exact .one rfl rfl (.two rfl rfl hvars (.two rfl rfl hloop hcheck))

theorem derives : Derives .program tree := by
  have hloop : Derives .statement loop :=
    .whileStatement (.compare .variableRef .intLiteral) (.statementBlock (by
      simpa using ⟨.printStatement .variableRef, .assignment (.addSub .variableRef .intLiteral)⟩))
  have hcheck : Derives .statement check := .printStatement (.compare .variableRef .intLiteral)
  refine .program (by simp) (.executableBlock ?_ (.statementBlock (by simpa using ⟨hloop, hcheck⟩)))
  simpa using .variableBlock (by simpa using .variableDeclaration (by simpa using .intLiteral))

end countdown

end SpimCompiler
