import TreeAsm.Instruction.Text

/-! Compiled programs and their listings. -/
namespace TreeAsm

structure Block where
  title : String
  code : List Instruction
deriving DecidableEq

structure Program where
  source : String
  data : Block
  /-- Left out when there is no string constant. -/
  strings : Option Block
  routines : List Block
  topLevel : Block
deriving DecidableEq

namespace Block

def lines (b : Block) : List String := ("; ***** " ++ b.title) :: b.code.map Instruction.line

end Block

namespace Program

/-- The blocks in the order of the listing. -/
def blocks (p : Program) : List Block := p.data :: p.strings.toList ++ p.routines ++ [p.topLevel]

def instructions (p : Program) : List Instruction := p.blocks.flatMap Block.code

/-- A jump to the program entry comes first, and an end mark last. -/
def lines (p : Program) : List String :=
  ("; Translating " ++ p.source) :: (Instruction.on .br (.target (.plain Label.entry))).line ::
    p.blocks.flatMap Block.lines ++ [(Instruction.bare .finish).line]

/-- The listing: every line ends with a line break. -/
def render (p : Program) : String := String.join (p.lines.map (· ++ "\n"))

/-- Hands the listing to a writer, one line after another. -/
def emit {m : Type → Type} [Monad m] (write : String → m Unit) (p : Program) : m Unit :=
  p.lines.forM fun line => write (line ++ "\n")

end Program
end TreeAsm
