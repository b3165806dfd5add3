/-
  Listings of chunks that keep their constants in different ways.
-/
import Parlance.Listing

namespace Parlance

variable {κ κ' : Type} {pool : Pool κ} {pool' : Pool κ'} {c : Chunk κ} {c' : Chunk κ'}

/-- The length of an instruction depends on the bytes, and on what the functions among the constants
capture. -/
theorem instructionLength_congr (hcode : c.code = c'.code)
    (hcaptures : ∀ i : Nat, c.constants[i]?.bind pool.captures? = c'.constants[i]?.bind
      pool'.captures?) :
    instructionLength pool c = instructionLength pool' c' := by
  funext offset
  unfold instructionLength operandLength Chunk.behind Chunk.count
  simp only [hcode, hcaptures]

/-- Chunks that show alike in listings. -/
structure Chunk.Alike (pool : Pool κ) (pool' : Pool κ') (c : Chunk κ) (c' : Chunk κ') : Prop where
  code : c.code = c'.code
  lines : c.lines = c'.lines
  display : ∀ i : Nat, c.constants[i]?.map pool.display = c'.constants[i]?.map pool'.display
  captures : ∀ i : Nat, c.constants[i]?.bind pool.captures? = c'.constants[i]?.bind pool'.captures?

namespace Chunk.Alike

section

variable (h : Alike pool pool' c c')
include h

theorem byte_eq : c.byte = c'.byte := by
  funext offset
  rw [Chunk.byte, Chunk.byte, h.code]

theorem behind_eq : c.behind = c'.behind := by
  funext offset size
  unfold Chunk.behind Chunk.count
  rw [h.code]

theorem jumpTarget_eq : c.jumpTarget = c'.jumpTarget := by
  funext op offset
  unfold Chunk.jumpTarget Chunk.short?
  rw [h.code]

theorem captureLines_eq : captureLines c = captureLines c' := by
  funext count
  induction count with
  | zero => rfl
  | succ count ih =>
    funext offset
    rw [captureLines, captureLines, h.byte_eq, ih]

theorem instructionText?_eq : instructionText? pool c = instructionText? pool' c' := by
  funext op offset
  unfold instructionText? captureText?
  simp only [h.code, h.display, h.captures, h.byte_eq, h.jumpTarget_eq, h.captureLines_eq]

theorem listInstruction?_eq : listInstruction? pool c = listInstruction? pool' c' := by
  funext offset
  unfold listInstruction? lineMark?
  simp only [h.code, h.lines, instructionLength_congr h.code h.captures,
    h.instructionText?_eq, h.behind_eq]

theorem listFrom?_eq : listFrom? pool c = listFrom? pool' c' := by
  funext fuel
  induction fuel with
  | zero => rfl
  | succ fuel ih =>
    funext offset before
    rw [listFrom?, listFrom?, h.code, h.listInstruction?_eq, ih]

theorem listChunk?_eq (title : String) : listChunk? pool c title = listChunk? pool' c' title := by
  rw [listChunk?, listChunk?, h.code, h.listFrom?_eq]

end

end Chunk.Alike

end Parlance
