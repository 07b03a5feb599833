import SqlOptimizer.Parse.PgQuery
import SqlOptimizer.Postgres.Keywords

/-!
The rules of `src_backend_parser_gram.c` for `a_expr`, as far as they build column
references, constants, operators, function calls and typed constants. The parser reads one
token at a time and holds a stack of the constructs that are still open; an operator first
reduces the open ones that bind at least as strongly.

The result is `none` on a syntax error and on the other forms of `a_expr`.
-/

set_option autoImplicit false
set_option relaxedAutoImplicit false

namespace SqlOptimizer.Postgres.ExpressionGrammar

open Parse.PgQuery (PgNode)
open Scanner Keywords

/-- A construct that waits for an operand. -/
inductive Frame where
  | unary (op : String)
  | binary (left : PgNode) (op : String)
  | paren
  | call (name : String) (distinct : Bool) (args : List PgNode)
  | normalize
  | substring (args : List PgNode)
  | substringFrom (arg : PgNode)
  | substringFor (arg start : PgNode)
  | extract (field : String)

/-- What the last token was. -/
inductive Position where
  /-- An operand must follow. -/
  | operand
  | word (w : String)
  | qualified (w : String)
  | arguments (name : String)
  | star (name : String)
  | extractStart
  | extractField (field : String)
  | interval (s : String)
  /-- An operand and a generic operator, which is binary or postfix. -/
  | operator (left : PgNode) (op : String)
  | complete (e : PgNode)

structure State where
  stack : List Frame
  position : Position

/-- The comparison operators, which are not associative. -/
def isComparison (o : String) : Bool := o ∈ ["<", ">", "=", "<=", ">=", "<>"]

/-- `MathOp`. -/
def isMathOp (o : String) : Bool := isComparison o || o ∈ ["+", "-", "*", "/", "%", "^"]

/-- The operators that may stand before an operand. -/
def isUnaryOp (o : String) : Bool := o = "+" || o = "-" || !isMathOp o

/-- The precedence of a binary operator. -/
def binaryLevel (o : String) : Nat :=
  if isComparison o then 1
  else if o ∈ ["+", "-"] then 3
  else if o ∈ ["*", "/", "%"] then 4
  else if o = "^" then 5
  else 2

/-- The precedence of a unary operator, `UMINUS` or `Op`. -/
def unaryLevel (o : String) : Nat := if o ∈ ["+", "-"] then 6 else 2

/-- `doNegateFloat`. -/
def doNegateFloat (s : String) : String :=
  match s.toList with
  | '-' :: ds => String.ofList ds
  | ds => String.ofList ('-' :: ds)

/-- `doNegate`. -/
def doNegate : PgNode → PgNode
  | .aConst (.integer n) => .aConst (.integer (-n))
  | .aConst (.float s) => .aConst (.float (doNegateFloat s))
  | e => .aExpr .op "-" .nullptr e

def makeUnary (o : String) (e : PgNode) : PgNode :=
  if o = "-" then doNegate e else .aExpr .op o .nullptr e

/-- The open operators that bind at least as strongly as the level take the operand. -/
def reduce (level : Nat) : List Frame → PgNode → List Frame × PgNode
  | .unary o :: st, e =>
      if level ≤ unaryLevel o then reduce level st (makeUnary o e) else (.unary o :: st, e)
  | .binary l o :: st, e =>
      if level ≤ binaryLevel o then reduce level st (.aExpr .op o l e)
      else (.binary l o :: st, e)
  | st, e => (st, e)

/-- `MathOp` after an operand. A comparison of a comparison is an error. -/
def pushMathOp (st : List Frame) (e : PgNode) (o : String) : Option State :=
  if isComparison o then
    match reduce 2 st e with
    | (.binary _ _ :: _, _) => none
    | (st, e) => some ⟨.binary e o :: st, .operand⟩
  else
    let (st, e) := reduce (binaryLevel o) st e
    some ⟨.binary e o :: st, .operand⟩

def pushOperator (st : List Frame) (e : PgNode) (o : String) : Option State :=
  if isMathOp o then pushMathOp st e o
  else
    let (st, e) := reduce 2 st e
    some ⟨st, .operator e o⟩

/-- The node of a construct that `)` closes behind its last operand. -/
def closedBy (e : PgNode) : Frame → Option PgNode
  | .paren => some e
  | .call f distinct args => some (.funcCall f (args ++ [e]) false distinct)
  | .normalize => some (.funcCall "normalize" [e] false false)
  | .substring args => some (.funcCall "substring" (args ++ [e]) false false)
  | .substringFrom a => some (.funcCall "substring" [a, e] false false)
  | .substringFor a b => some (.funcCall "substring" [a, b, e] false false)
  | .extract field => some (.funcCall "date_part" [.aConst (.string field), e] false false)
  | .unary _ | .binary _ _ => none

/-- A construct that takes an operand and waits for the next one: `,`, `from` and `for`. -/
def nextFrame (e : PgNode) : Frame → Token → Option Frame
  | .call f distinct args, .comma => some (.call f distinct (args ++ [e]))
  | .substring args, .comma => some (.substring (args ++ [e]))
  | .substring [], .word w => if w = "from" then some (.substringFrom e) else none
  | .substringFrom a, .word w => if w = "for" then some (.substringFor a e) else none
  | _, _ => none

/-- A token other than an operator behind the last operand of a construct. -/
def endOperand (t : Token) : List Frame × PgNode → Option State
  | (fr :: st, e) =>
      if t = .rpar then (closedBy e fr).map fun n => ⟨st, .complete n⟩
      else (nextFrame e fr t).map fun fr => ⟨fr :: st, .operand⟩
  | ([], _) => none

/-- A token after an operand. -/
def afterOperand (st : List Frame) (e : PgNode) : Token → Option State
  | .operator o => pushOperator st e o
  | t => endOperand t (reduce 0 st e)

/-- The first token of an operand. -/
def startOperand (st : List Frame) : Token → Option State
  | .word w => if w ∈ reserved then none else some ⟨st, .word w⟩
  | .integer n => some ⟨st, .complete (.aConst (.integer n))⟩
  | .float s => some ⟨st, .complete (.aConst (.float s))⟩
  | .string s => some ⟨st, .complete (.aConst (.string s))⟩
  | .operator o => if isUnaryOp o then some ⟨.unary o :: st, .operand⟩ else none
  | .lpar => some ⟨.paren :: st, .operand⟩
  | _ => none

/-- The token may start an operand behind a generic operator. -/
def startsOperand : Token → Bool
  | .word w => w ∉ reserved && w ∉ afterPostfix
  | .integer _ | .float _ | .string _ | .lpar => true
  | .operator o => isUnaryOp o
  | _ => false

/-- `(` after a word. -/
def openCall (st : List Frame) (w : String) : Option State :=
  if w = "extract" then some ⟨st, .extractStart⟩
  else if w = "substring" then some ⟨.substring [] :: st, .operand⟩
  else if w = "normalize" then some ⟨.normalize :: st, .operand⟩
  else if isFunctionName w then some ⟨st, .arguments w⟩
  else none

/-- A string after a word. -/
def typedConstant (st : List Frame) (w s : String) : Option State :=
  (typeOfWord w).map fun type =>
    if w = "interval" then ⟨st, .interval s⟩
    else ⟨st, .complete (.typeCast type none (.aConst (.string s)))⟩

/-- The operand that ends at the position. -/
def Position.node : Position → Option PgNode
  | .word w => if isColId w then some (.columnRef [w]) else none
  | .interval s => some (.typeCast "interval" none (.aConst (.string s)))
  | .operator l o => some (.aExpr .op o l .nullptr)
  | .complete e => some e
  | _ => none

/-- A token after a position that ends an operand. -/
def continueOperand (s : State) (t : Token) : Option State :=
  s.position.node.bind fun e => afterOperand s.stack e t

def step (s : State) (t : Token) : Option State :=
  match s.position with
  | .operand => startOperand s.stack t
  | .word w =>
      match t with
      | .lpar => openCall s.stack w
      | .dot => if isColId w then some ⟨s.stack, .qualified w⟩ else none
      | .string str => typedConstant s.stack w str
      | t => continueOperand s t
  | .qualified w =>
      match t with
      | .word x => some ⟨s.stack, .complete (.columnRef [w, x])⟩
      | .operator o => if o = "*" then some ⟨s.stack, .complete (.columnRef [w, o])⟩ else none
      | _ => none
  | .arguments f =>
      match t with
      | .rpar => some ⟨s.stack, .complete (.funcCall f [] false false)⟩
      | t =>
          if t = .operator "*" then some ⟨s.stack, .star f⟩
          else if t = .word "distinct" then some ⟨.call f true [] :: s.stack, .operand⟩
          else startOperand (.call f false [] :: s.stack) t
  | .star f =>
      if t = .rpar then some ⟨s.stack, .complete (.funcCall f [] true false)⟩ else none
  | .extractStart =>
      match t with
      | .word w => if isExtractField w then some ⟨s.stack, .extractField w⟩ else none
      | .string str => some ⟨s.stack, .extractField str⟩
      | _ => none
  | .extractField field =>
      if t = .word "from" then some ⟨.extract field :: s.stack, .operand⟩ else none
  | .interval str =>
      match t with
      | .word w =>
          match intervalMask w with
          | some mask =>
              some ⟨s.stack, .complete (.typeCast "interval" (some mask) (.aConst (.string str)))⟩
          | none => continueOperand s t
      | t => continueOperand s t
  | .operator l o =>
      if startsOperand t then startOperand (.binary l o :: s.stack) t else continueOperand s t
  | .complete _ => continueOperand s t

/-- The end of the text. -/
def finish (s : State) : Option PgNode :=
  s.position.node.bind fun e =>
    match reduce 0 s.stack e with
    | ([], e) => some e
    | _ => none

/-- The tree of the tokens that are read from the state on. -/
def readFrom (s : State) (ts : List Token) : Option PgNode := (ts.foldlM step s).bind finish

def initial : State := ⟨[], .operand⟩

/-- The tree that the text denotes. -/
def readExpression (text : String) : Option PgNode := (scan text).bind (readFrom initial)

end SqlOptimizer.Postgres.ExpressionGrammar
