import SlotCompiler.Text.Quoted
import SlotCompiler.Tree.Basic

/-!
Contract: the printed form of trees, with variables as slot numbers.

Owns: the text of operands, statements, blocks, items and files.

Does not own: source positions, which are not printed.
-/

namespace SlotCompiler

def slotText (slot : Slot) : String := s!"${slot}"

def MemberChain.text (chain : MemberChain) : String :=
  slotText chain.source ++ String.join (chain.steps.map fun step => "." ++ step.member)

def Lock.text (lock : Lock) : String :=
  (if lock.exclusive then "mut " else "") ++ slotText lock.slot

def bracedText (statements : List String) : String :=
  match statements with
  | [] => "\x7b \x7d"
  | _ => "\x7b " ++ "; ".intercalate statements ++ "; \x7d"

/-- A chain of conditions with their blocks, and the final alternative when
there is one more block. -/
def conditionalText (conditions blocks : List String) : String :=
  let arms := (conditions.zip blocks).map fun (condition, block) =>
    "if (" ++ condition ++ ") " ++ block
  let alternative :=
    match blocks[conditions.length]? with
    | some block => " else " ++ block
    | none => ""
  " else ".intercalate arms ++ alternative

mutual

def Operand.text : Operand → String
  | .variable slot => slotText slot
  | .literal value => value.text
  | .string value => Text.quoted value
  | .node node => node.text
  | .call invoked => invoked.text

def Call.text : Call → String
  | ⟨name, arguments, _⟩ => name ++ "(" ++ ", ".intercalate (operandTexts arguments) ++ ")"

def operandTexts : List Operand → List String
  | [] => []
  | operand :: rest => operand.text :: operandTexts rest

def Node.text : Node → String
  | .declaration _ slot isMutable declared? value _ =>
    let keyword := if isMutable then "mut " else "const "
    let type :=
      match declared? with
      | some type => ": " ++ type.name
      | none => ""
    keyword ++ slotText slot ++ type ++ " = " ++ value.text
  | .assignment slot value _ => slotText slot ++ " = " ++ value.text
  | .access chain => chain.text
  | .memberAssignment target member _ value _ =>
    target.text ++ "." ++ member ++ " = " ++ value.text
  | .ret none _ _ => "return"
  | .ret (some value) _ _ => "return " ++ value.text
  | .binary operator lhs rhs _ _ =>
    "(" ++ lhs.text ++ " " ++ operator.symbol ++ " " ++ rhs.text ++ ")"
  | .call invoked => invoked.text
  | .conditional conditions blocks _ =>
    conditionalText (operandTexts conditions) (blockTexts blocks)
  | .loop condition body _ =>
    "while (" ++ condition.text ++ ") " ++ bracedText (nodeTexts body)
  | .sync locks body _ =>
    "sync " ++ ", ".intercalate (locks.map Lock.text) ++ " " ++ bracedText (nodeTexts body)

def nodeTexts : List Node → List String
  | [] => []
  | node :: rest => node.text :: nodeTexts rest

def blockTexts : List (List Node) → List String
  | [] => []
  | block :: rest => bracedText (nodeTexts block) :: blockTexts rest

end

def blockText (block : Block) : String := bracedText (nodeTexts block)

def StructItem.text (item : StructItem) : String :=
  let fields := item.fields.map fun field => field.name ++ ": " ++ field.type.name
  "struct " ++ item.name ++ " \x7b " ++ ", ".intercalate fields ++ " \x7d"

def Parameter.text (parameter : Parameter) : String :=
  (if parameter.isMutable then "mut " else "") ++ slotText parameter.slot ++ ": " ++
    parameter.type.name

def FunctionItem.text (item : FunctionItem) : String :=
  let result :=
    match item.returnType? with
    | some type => " -> " ++ type.name
    | none => ""
  "fn " ++ item.name ++ "(" ++ ", ".intercalate (item.parameters.map Parameter.text) ++ ")" ++
    result ++ " " ++ blockText item.body

/-- The items of a file, one per line, structs first. -/
def File.text (file : File) : String :=
  String.join ((file.structs.toList.map StructItem.text ++
    file.functions.toList.map FunctionItem.text).map fun line => line ++ "\n")

end SlotCompiler
