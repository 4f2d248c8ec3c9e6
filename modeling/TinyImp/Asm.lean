import TinyImp.Expr

/-!
# Assembly programs

The pseudo-assembly that programs compile to: instructions over an unlimited supply of registers,
named memory cells and the accumulator `eax`, with a section of data names in front. The listing
has one line for each data name and one for each instruction.
-/

namespace TinyImp

namespace Asm

/-- An operand of an instruction. -/
inductive Operand where
  | reg (n : Nat)
  /-- The memory cell of a variable. -/
  | data (name : String)
  | imm (value : Const)
  | eax
  deriving DecidableEq

/-- The operand as it is written. -/
def Operand.text : Operand → String
  | .reg n => "r" ++ digits n
  | .data name => name
  | .imm value => value.text
  | .eax => "eax"

/-- An instruction, or a line that only names a place or explains it. -/
inductive Instr where
  | comment (text : String)
  | label (name : String)
  | mov (dst src : Operand)
  | add (dst src : Operand)
  | sub (dst src : Operand)
  | imul (dst src : Operand)
  | cdq
  | idiv (src : Operand)
  | cmp (lhs rhs : Operand)
  | je (target : String)
  | jmp (target : String)
  /-- Pushes the argument with the given index, counted from zero. -/
  | push (src : Operand) (index : Nat)
  | call (name : String)
  /-- Takes the given number of bytes off the stack. -/
  | freeStack (bytes : Nat)
  | ret
  deriving DecidableEq

namespace Instr

/-- The instruction as it is written. -/
def text : Instr → String
  | .comment text => s!"; {text}"
  | .label name => s!"{name}:"
  | .mov dst src => s!"mov {dst.text}, {src.text}"
  | .add dst src => s!"add {dst.text}, {src.text}"
  | .sub dst src => s!"sub {dst.text}, {src.text}"
  | .imul dst src => s!"imul {dst.text}, {src.text}"
  | .cdq => "cdq"
  | .idiv src => s!"idiv {src.text}"
  | .cmp lhs rhs => s!"cmp {lhs.text}, {rhs.text}"
  | .je target => s!"je {target}"
  | .jmp target => s!"jmp {target}"
  | .push src index => s!"push {src.text} ; arg{digits index}"
  | .call name => s!"call {name}"
  | .freeStack bytes => s!"add esp, {digits bytes}"
  | .ret => "ret"

/-- The line names a place that a jump or a call can go to. -/
def isLabel : Instr → Bool
  | .label _ => true
  | _ => false

/-- The instruction can continue at a label. -/
def isJump : Instr → Bool
  | .je _ => true
  | .jmp _ => true
  | _ => false

end Instr

end Asm

/-- An assembly program: the names of its memory cells, and its instructions. -/
structure Assembly where
  data : List String
  text : List Asm.Instr
  deriving DecidableEq

namespace Assembly

/-- The lines of the listing: both sections, each under its title. -/
def lines (a : Assembly) : List String :=
  "section .data" :: a.data.map (· ++ " db 0") ++ "section .text" :: a.text.map Asm.Instr.text

/-- The listing of a program. -/
def listing (a : Assembly) : String :=
  String.join (a.lines.map (· ++ "\n"))

end Assembly

end TinyImp
