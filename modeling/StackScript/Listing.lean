import StackScript.Chunk

/-!
Chunks as text, one line for each instruction. Any bytes can be listed: a byte that is
no opcode takes a line of its own, and an instruction whose operands are cut off ends
the listing.
-/

namespace StackScript

namespace Listing

/-- Fills up with `fill` on the left to at least `width` characters. -/
def padLeft (width : Nat) (fill : Char) (s : String) : String :=
  String.ofList (List.replicate (width - s.length) fill) ++ s

/-- Fills up with blanks on the right to at least `width` characters. -/
def padRight (width : Nat) (s : String) : String :=
  s ++ String.ofList (List.replicate (width - s.length) ' ')

/-- A signed number; offsets before the start of the code are negative. -/
def signed : Int → String
  | .ofNat n => n.repr
  | .negSucc n => "-" ++ (n + 1).repr

end Listing

open Listing

namespace Chunk

/-- The offset after the instruction at `offset`; the end of the code when operands
are missing. -/
def nextOffset (c : Chunk) (offset : Nat) : Nat :=
  match c.opAt? offset with
  | none => offset + 1
  | some op => min (offset + 1 + op.operandBytes) c.size

/-- Where the jump at `offset` leads, given its distance. -/
def jumpTarget (op : Opcode) (offset distance : Nat) : Int :=
  let next : Int := offset + 3
  if op = .loop then next - distance else next + distance

/-- The line column: a bar repeats the line of the byte before, and a question mark
stands where no line is recorded. -/
def lineColumn (c : Chunk) (offset : Nat) : String :=
  match c.lines[offset]? with
  | none => "   ? "
  | some line =>
      if 0 < offset ∧ c.lines[offset - 1]? = some line then "   | "
      else padLeft 4 ' ' line.repr ++ " "

/-- The text of an instruction whose bytes are all there. -/
def instructionText (c : Chunk) (op : Opcode) (offset : Nat) : Option String :=
  match op with
  | .constant | .getGlobal | .defineGlobal | .setGlobal => do
      let index ← c.code[offset + 1]?
      let shown := match c.constants[index.toNat]? with
        | some v => v.text
        | none => "<missing>"
      return padRight 16 op.name ++ " " ++ padLeft 4 ' ' index.toNat.repr ++ " '" ++ shown ++ "'"
  | .getLocal | .setLocal => do
      let slot ← c.code[offset + 1]?
      return padRight 16 op.name ++ " " ++ padLeft 4 ' ' slot.toNat.repr
  | .jump | .jumpIfFalse | .loop => do
      let distance ← c.wordAt? (offset + 1)
      return padRight 16 op.name ++ " " ++ padLeft 4 ' ' offset.repr ++ " -> " ++
        signed (jumpTarget op offset distance)
  | _ => some op.name

/-- The line for the instruction at `offset`; there is none past the end of the code. -/
def instructionLine? (c : Chunk) (offset : Nat) : Option String := do
  let byte ← c.code[offset]?
  let columns := padLeft 4 '0' offset.repr ++ " " ++ c.lineColumn offset
  match Opcode.ofByte? byte with
  | none => return columns ++ "Unknown opcode " ++ byte.toNat.repr
  | some op =>
      if c.size < offset + 1 + op.operandBytes then return columns ++ op.name ++ " <truncated>"
      else
        let shown ← c.instructionText op offset
        return columns ++ shown

theorem lt_nextOffset {c : Chunk} {offset : Nat} (h : offset < c.size) :
    offset < c.nextOffset offset := by
  unfold nextOffset
  split <;> omega

/-- The offsets of a listing's lines from `offset` on, added to those `seen` before. -/
def offsetsFrom (c : Chunk) (offset : Nat) (seen : Array Nat) : Array Nat :=
  if _ : offset < c.size then c.offsetsFrom (c.nextOffset offset) (seen.push offset)
  else seen
termination_by c.size - offset
decreasing_by
  have := lt_nextOffset ‹offset < c.size›
  omega

/-- The offsets at which a listing has a line. -/
def offsets (c : Chunk) : Array Nat :=
  c.offsetsFrom 0 #[]

/-- All instructions under a header with the chunk's name. -/
def listing (c : Chunk) (name : String) : String :=
  c.offsets.foldl
    (fun shown offset => shown ++ (c.instructionLine? offset).getD "" ++ "\n")
    ("== " ++ name ++ " ==\n")

end Chunk

end StackScript
