import Mathlib.Data.LawfulXor.Basic
import Mathlib.Algebra.Notation.Prod

/-
  Syndrome decoding of binary linear codes.

  Words, syndromes and their sums are taken in any type with a
  lawful `^^^`, so bit vectors and tuples of them need no
  encoding.  The codewords are the words of syndrome zero; a
  decoder adds the leader of the syndrome to what it receives.

  Main declarations:
    * `SyndromeDecoding.Code`
    * `SyndromeDecoding.Code.correct`
    * `SyndromeDecoding.Code.data_correct_error`
-/

------------------------------------------------------------
-- Componentwise Sums
------------------------------------------------------------

namespace SyndromeDecoding

variable {α β : Type}

instance instXorOpPair [XorOp α] [XorOp β] : XorOp (α × β) where
  xor x y := (x.1 ^^^ y.1, x.2 ^^^ y.2)

theorem prod_xor
    [XorOp α] [XorOp β] (x y : α × β) :
    x ^^^ y = (x.1 ^^^ y.1, x.2 ^^^ y.2) :=
  rfl

instance instLawfulXorPair
    [XorOp α] [Zero α] [LawfulXor α]
    [XorOp β] [Zero β] [LawfulXor β] :
    LawfulXor (α × β) where
  xor_assoc x y z := by
    simp only [prod_xor, xor_assoc]
  xor_self x := by
    simp only [prod_xor, LawfulXor.xor_self]
    rfl
  xor_zero x := by
    simp only [prod_xor, Prod.fst_zero, Prod.snd_zero,
      xor_zero]
  xor_comm x y := by
    rw [prod_xor, prod_xor, xor_comm x.1, xor_comm x.2]

------------------------------------------------------------
-- Codes and Their Decoders
------------------------------------------------------------

/-
  A linear code by its syndrome map, with the error `leader`
  that a decoder assumes for each syndrome.
-/
structure Code
    (W S : Type)
    [XorOp W] [XorOp S] where
  syndrome : W → S
  syndrome_xor :
    ∀ x y, syndrome (x ^^^ y) = syndrome x ^^^ syndrome y
  leader : S → W

namespace Code

variable {W S D : Type}
variable [XorOp W] [XorOp S] [Zero S]

/- The words that pass every check. -/
def IsCodeword (C : Code W S) (c : W) : Prop :=
  C.syndrome c = 0

/- Add the leader of the word's syndrome. -/
def correct (C : Code W S) (w : W) : W :=
  w ^^^ C.leader (C.syndrome w)

/- What is left of an error after the correction. -/
def residue (C : Code W S) (e : W) : W :=
  e ^^^ C.leader (C.syndrome e)

variable [LawfulXor S]

/- The syndrome of a received word depends on the error only. -/
theorem syndrome_error
    (C : Code W S) {c : W}
    (hCode : C.IsCodeword c)
    (e : W) :
    C.syndrome (c ^^^ e) = C.syndrome e := by
  rw [C.syndrome_xor, hCode, zero_xor]

variable [Zero W] [LawfulXor W]

/- The correction leaves the codeword with the residue. -/
theorem correct_error
    (C : Code W S) {c : W}
    (hCode : C.IsCodeword c)
    (e : W) :
    C.correct (c ^^^ e) = c ^^^ C.residue e := by
  rw [correct, C.syndrome_error hCode, residue, xor_assoc]

/-
  Data that the residue does not touch is read as it was
  written.
-/
theorem data_correct_error
    (C : Code W S) (data : W → D) {c e : W}
    (hCode : C.IsCodeword c)
    (hUntouched :
      ∀ w, data (w ^^^ C.residue e) = data w) :
    data (C.correct (c ^^^ e)) = data c := by
  rw [C.correct_error hCode, hUntouched]

end Code

end SyndromeDecoding
