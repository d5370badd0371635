import Mathlib.Data.BitVec
import ProgrammingTasks.Foundations.SyndromeDecoding
import Mathlib.Data.Fintype.Option
import Mathlib.Data.List.GetD

/-
  The Hamming codec of the message server (`server.c`).

  Each byte is sent as two bytes, which hold twelve code bits:
  the upper four bits of the first byte are not used.  The
  functions below are those of the source on 8-bit `char`s;
  shifts to the right copy the sign bit.

  Main declarations:
    * `codedByte`, `encodedMessage`
    * `correctCodeword`, `decodedMessage`
    * `hammingCode`
    * `decodedMessage_of_corrupted`
-/

------------------------------------------------------------
-- Coding
------------------------------------------------------------

namespace ProgrammingTasks

namespace TcpServer

open SyndromeDecoding

/- A `char`. -/
abbrev Byte := BitVec 8

/- The two bytes that a byte is coded with. -/
abbrev Codeword := Byte × Byte

/- `(byte >> k) & 1`. -/
def bit (byte : Byte) (k : Nat) : Byte :=
  (byte.sshiftRight k) &&& 1

/- `coded_byte`. -/
def codedByte (byte : Byte) : Codeword :=
  let d1 := bit byte 7
  let d2 := bit byte 6
  let d3 := bit byte 5
  let d4 := bit byte 4
  let d5 := bit byte 3
  let d6 := bit byte 2
  let d7 := bit byte 1
  let d8 := bit byte 0
  let p1 := d1 ^^^ d2 ^^^ d4 ^^^ d5 ^^^ d7
  let p2 := d1 ^^^ d3 ^^^ d4 ^^^ d6 ^^^ d7
  let p4 := d2 ^^^ d3 ^^^ d4 ^^^ d8
  let p8 := d5 ^^^ d6 ^^^ d7 ^^^ d8
  (0 ||| (p1 <<< 3 ||| p2 <<< 2 ||| d1 <<< 1 ||| p4 <<< 0),
    0 ||| (d2 <<< 7 ||| d3 <<< 6 ||| d4 <<< 5 |||
      p8 <<< 4 ||| d5 <<< 3 ||| d6 <<< 2 |||
      d7 <<< 1 ||| d8 <<< 0))

/- The length of the C string that starts at `message`. -/
def strlen (message : List Byte) : Nat :=
  (message.takeWhile (· ≠ 0)).length

/- One iteration of the loop of `encoded_message`. -/
def encodeIteration
    (message : List Byte)
    (encoded : List Byte)
    (i : Nat) : List Byte :=
  (encoded.set (2 * i) (codedByte (message.getD i 0)).1).set
    (2 * i + 1) (codedByte (message.getD i 0)).2

/- `encoded_message`: the terminating NUL is coded as well. -/
def encodedMessage (message : List Byte) : List Byte :=
  (List.range (strlen message + 1)).foldl
    (encodeIteration message)
    (List.replicate (2 * strlen message + 2) 0)

------------------------------------------------------------
-- Decoding
------------------------------------------------------------

/- `MSGSIZE`. -/
def msgSize : Nat := 1400

/- `msg`. -/
structure Msg where
  len : Nat
  payload : List Byte
  payload_length : payload.length = msgSize

/-
  The index of the wrong bit among the twelve code bits, or 0:
  the check bits that differ are added up.
-/
def errorSum (c : Codeword) : Nat :=
  let sentP4 := bit c.1 0
  let sentD1 := bit c.1 1
  let sentP2 := bit c.1 2
  let sentP1 := bit c.1 3
  let sentD8 := bit c.2 0
  let sentD7 := bit c.2 1
  let sentD6 := bit c.2 2
  let sentD5 := bit c.2 3
  let sentP8 := bit c.2 4
  let sentD4 := bit c.2 5
  let sentD3 := bit c.2 6
  let sentD2 := bit c.2 7
  let calculatedP1 :=
    sentD1 ^^^ sentD2 ^^^ sentD4 ^^^ sentD5 ^^^ sentD7
  let calculatedP2 :=
    sentD1 ^^^ sentD3 ^^^ sentD4 ^^^ sentD6 ^^^ sentD7
  let calculatedP4 := sentD2 ^^^ sentD3 ^^^ sentD4 ^^^ sentD8
  let calculatedP8 := sentD5 ^^^ sentD6 ^^^ sentD7 ^^^ sentD8
  (if calculatedP1 &&& 1 ≠ sentP1 &&& 1 then 1 else 0) +
    (if calculatedP2 &&& 1 ≠ sentP2 &&& 1 then 2 else 0) +
    (if calculatedP4 &&& 1 ≠ sentP4 &&& 1 then 4 else 0) +
    (if calculatedP8 &&& 1 ≠ sentP8 &&& 1 then 8 else 0)

/-
  Flip the bit of the index; 3 is added since four bits of the
  first byte are not used.
-/
def correctCodeword (c : Codeword) : Codeword :=
  let sum := errorSum c
  if sum ≠ 0 then
    if sum + 3 < 8 then
      (c.1 ^^^ (128#8 >>> (sum + 3)), c.2)
    else
      (c.1, c.2 ^^^ (128#8 >>> ((sum + 3) % 8)))
  else
    c

/- The data bits of a codeword put together. -/
def dataByte (c : Codeword) : Byte :=
  bit c.1 1 <<< 7 ||| bit c.2 7 <<< 6 ||| bit c.2 6 <<< 5 |||
    bit c.2 5 <<< 4 ||| bit c.2 3 <<< 3 |||
    bit c.2 2 <<< 2 ||| bit c.2 1 <<< 1 ||| bit c.2 0 <<< 0

/-
  One iteration of the loop of `decoded_message`: the two
  bytes of the payload are corrected in place.
-/
def decodeIteration
    (state : List Byte × List Byte)
    (i : Nat) : List Byte × List Byte :=
  let (payload, decoded) := state
  let c := correctCodeword
    (payload.getD i 0, payload.getD (i + 1) 0)
  ((payload.set i c.1).set (i + 1) c.2,
    decoded.set (i / 2)
      (decoded.getD (i / 2) 0 ||| dataByte c))

/-
  `decoded_message`: the index takes the even values below
  `r.len - 1`, of which there are `r.len / 2`.
-/
def decodedMessage (r : Msg) : List Byte :=
  ((List.range (r.len / 2)).foldl
    (fun state k => decodeIteration state (2 * k))
    (r.payload, List.replicate (r.len / 2) 0)).2

------------------------------------------------------------
-- Corrupted Frames
------------------------------------------------------------

/- At most one bit of the sixteen of a codeword. -/
abbrev BitError := Option (Fin 16)

/- The bits that an error flips. -/
def errorWord : BitError → Codeword
| none => 0
| some j =>
    if j.val < 8 then (1 <<< j.val, 0)
    else (0, 1 <<< (j.val - 8))

/-
  Flip at most one bit in each codeword of a frame, as the
  list of errors says.
-/
def corrupt : List BitError → List Byte → List Byte
| e :: errors, first :: second :: rest =>
    let c := (first, second) ^^^ errorWord e
    c.1 :: c.2 :: corrupt errors rest
| _, frame => frame

------------------------------------------------------------
-- The Linear Code
------------------------------------------------------------

@[simp] theorem bit_xor (x y : Byte) (k : Nat) :
    bit (x ^^^ y) k = bit x k ^^^ bit y k := by
  rw [bit, BitVec.sshiftRight_xor_distrib]
  ext i
  simp [bit, Bool.and_xor_distrib_right]

/- The four differences between calculated and sent parity. -/
def checks (c : Codeword) : Byte × Byte × Byte × Byte :=
  (bit c.1 1 ^^^ bit c.2 7 ^^^ bit c.2 5 ^^^ bit c.2 3 ^^^
      bit c.2 1 ^^^ bit c.1 3,
    bit c.1 1 ^^^ bit c.2 6 ^^^ bit c.2 5 ^^^ bit c.2 2 ^^^
      bit c.2 1 ^^^ bit c.1 2,
    bit c.2 7 ^^^ bit c.2 6 ^^^ bit c.2 5 ^^^ bit c.2 0 ^^^
      bit c.1 0,
    bit c.2 3 ^^^ bit c.2 2 ^^^ bit c.2 1 ^^^ bit c.2 0 ^^^
      bit c.2 4)

theorem checks_xor (x y : Codeword) :
    checks (x ^^^ y) = checks x ^^^ checks y := by
  simp only [checks, prod_xor, bit_xor]
  ac_rfl

/- The index of the wrong bit by the failed checks. -/
def failedSum (s : Byte × Byte × Byte × Byte) : Nat :=
  (if s.1 &&& 1 ≠ 0 then 1 else 0) +
    (if s.2.1 &&& 1 ≠ 0 then 2 else 0) +
    (if s.2.2.1 &&& 1 ≠ 0 then 4 else 0) +
    (if s.2.2.2 &&& 1 ≠ 0 then 8 else 0)

/- The bit of an index, as a word to be added. -/
def errorMask (sum : Nat) : Codeword :=
  if sum ≠ 0 then
    if sum + 3 < 8 then
      (128#8 >>> (sum + 3), 0)
    else
      (0, 128#8 >>> ((sum + 3) % 8))
  else
    0

/- The decoder of the source as a syndrome decoder. -/
def hammingCode : Code Codeword (Byte × Byte × Byte × Byte) where
  syndrome := checks
  syndrome_xor := checks_xor
  leader s := errorMask (failedSum s)

/- Two last bits differ when their sum is not zero. -/
theorem and_one_ne_iff (x y : Byte) :
    x &&& 1 ≠ y &&& 1 ↔ (x ^^^ y) &&& 1 ≠ 0 := by
  have hSum : (x ^^^ y) &&& 1 = (x &&& 1) ^^^ (y &&& 1) := by
    ext i
    simp [Bool.and_xor_distrib_right]
  rw [hSum, ne_eq, ne_eq, xor_eq_zero_iff]

theorem errorSum_eq (c : Codeword) :
    errorSum c = failedSum (checks c) := by
  unfold errorSum failedSum checks
  simp only
  rw [if_congr (and_one_ne_iff _ _) rfl rfl,
    if_congr (and_one_ne_iff _ _) rfl rfl,
    if_congr (and_one_ne_iff _ _) rfl rfl,
    if_congr (and_one_ne_iff _ _) rfl rfl]

/- The source corrects as the syndrome decoder does. -/
theorem correctCodeword_eq (c : Codeword) :
    correctCodeword c = hammingCode.correct c := by
  have hLeader :
      hammingCode.correct c =
        c ^^^ errorMask (errorSum c) := by
    rw [errorSum_eq]
    rfl
  rw [hLeader, correctCodeword]
  by_cases hZero : errorSum c = 0
  · simp [errorMask, hZero]
  · by_cases hFirst : errorSum c + 3 < 8
    · simp [errorMask, hZero, hFirst, prod_xor]
    · simp [errorMask, hZero, hFirst, prod_xor]

/- A coded byte passes all checks. -/
theorem isCodeword_codedByte :
    ∀ byte, hammingCode.IsCodeword (codedByte byte) := by
  unfold Code.IsCodeword
  decide +kernel

/- The data bits of a coded byte are the byte. -/
theorem dataByte_codedByte :
    ∀ byte, dataByte (codedByte byte) = byte := by
  decide +kernel

/- No data bit of the word is set. -/
def NoData (c : Codeword) : Prop :=
  bit c.1 1 = 0 ∧ bit c.2 7 = 0 ∧ bit c.2 6 = 0 ∧
    bit c.2 5 = 0 ∧ bit c.2 3 = 0 ∧ bit c.2 2 = 0 ∧
    bit c.2 1 = 0 ∧ bit c.2 0 = 0

instance (c : Codeword) : Decidable (NoData c) := by
  unfold NoData
  infer_instance

/- Bits that carry no data do not change the decoded byte. -/
theorem dataByte_xor_of_noData
    {u : Codeword}
    (hNoData : NoData u)
    (c : Codeword) :
    dataByte (c ^^^ u) = dataByte c := by
  rcases hNoData with ⟨h1, h2, h3, h4, h5, h6, h7, h8⟩
  simp only [dataByte, prod_xor, bit_xor, h1, h2, h3, h4, h5,
    h6, h7, h8, xor_zero]

/-
  One wrong bit is found by its index, unless it is one of the
  four bits that are not used: then it is left where it is.
-/
theorem noData_residue :
    ∀ e : BitError,
      NoData (hammingCode.residue (errorWord e)) := by
  decide +kernel

/- A coded byte with at most one wrong bit is decoded. -/
theorem dataByte_of_error (byte : Byte) (e : BitError) :
    dataByte
        (correctCodeword (codedByte byte ^^^ errorWord e)) =
      byte := by
  rw [correctCodeword_eq,
    hammingCode.data_correct_error dataByte
      (isCodeword_codedByte byte)
      (dataByte_xor_of_noData (noData_residue e)),
    dataByte_codedByte]

------------------------------------------------------------
-- The Two Loops
------------------------------------------------------------

/- The coded bytes one after the other. -/
def encodeBytes : List Byte → List Byte
| [] => []
| byte :: bytes =>
    (codedByte byte).1 :: (codedByte byte).2 ::
      encodeBytes bytes

/- The bytes decoded from each two bytes of a frame. -/
def decodeBytes : List Byte → List Byte
| first :: second :: rest =>
    dataByte (correctCodeword (first, second)) ::
      decodeBytes rest
| _ => []

@[simp] theorem length_encodeBytes :
    ∀ bytes, (encodeBytes bytes).length = 2 * bytes.length
| [] => rfl
| _ :: bytes => by
    simp [encodeBytes, length_encodeBytes bytes]
    omega

theorem encodeBytes_append (xs ys : List Byte) :
    encodeBytes (xs ++ ys) =
      encodeBytes xs ++ encodeBytes ys := by
  induction xs with
  | nil =>
      rfl
  | cons x xs ih =>
      simp [encodeBytes, ih]

theorem length_decodeBytes :
    ∀ bytes, (decodeBytes bytes).length = bytes.length / 2
| [] => by simp [decodeBytes]
| [_] => by simp [decodeBytes]
| _ :: _ :: rest => by
    simp only [decodeBytes, List.length_cons,
      length_decodeBytes rest]
    omega

theorem decodeBytes_append_two (first second : Byte) :
    ∀ bytes,
      bytes.length % 2 = 0 →
        decodeBytes (bytes ++ [first, second]) =
          decodeBytes bytes ++
            [dataByte (correctCodeword (first, second))]
| [], _ => rfl
| [_], hEven => by
    cases hEven
| _ :: _ :: rest, hEven => by
    have hRest : rest.length % 2 = 0 := by
      simp only [List.length_cons] at hEven
      omega
    simp [decodeBytes,
      decodeBytes_append_two first second rest hRest]

/- Two writes at the end of a filled part of a buffer. -/
theorem set_set_append
    (filled : List Byte) (x y a b : Byte) (rest : List Byte)
    {n : Nat} (hLength : filled.length = n) :
    ((filled ++ x :: y :: rest).set n a).set (n + 1) b =
      filled ++ a :: b :: rest := by
  subst hLength
  rw [List.set_append_right _ _ (Nat.le_refl _), Nat.sub_self,
    List.set_cons_zero,
    List.set_append_right _ _ (Nat.le_succ _)]
  simp

/-
  After `k` iterations the first `k` bytes are coded and the
  rest of the buffer is still zero.
-/
theorem encodeIteration_loop (message : List Byte) :
    ∀ k rest,
      k ≤ message.length →
        (List.range k).foldl (encodeIteration message)
            (List.replicate (2 * (k + rest)) 0) =
          encodeBytes (message.take k) ++
            List.replicate (2 * rest) 0
| 0, rest, _ => by
    simp [encodeBytes]
| k + 1, rest, hBound => by
    have hIndex : k < message.length := by omega
    have hLoop :=
      encodeIteration_loop message k (rest + 1) (by omega)
    have hSize : k + 1 + rest = k + (rest + 1) := by omega
    have hRest : 2 * (rest + 1) = 2 * rest + 1 + 1 := by omega
    have hTaken :
        message.take (k + 1) = message.take k ++ [message[k]] :=
      List.take_succ_eq_append_getElem hIndex
    have hLength :
        (encodeBytes (message.take k)).length = 2 * k := by
      rw [length_encodeBytes, List.length_take_of_le (by omega)]
    rw [hSize, List.range_succ, List.foldl_append, hLoop,
      hTaken, encodeBytes_append, hRest,
      List.replicate_succ, List.replicate_succ,
      List.foldl_cons, List.foldl_nil, encodeIteration,
      List.getD_eq_getElem _ _ hIndex,
      set_set_append _ _ _ _ _ _ hLength]
    simp [encodeBytes]

/- What stands behind a filled part of a buffer. -/
theorem getD_filled
    {filled : List Byte} (x y : Byte) (rest : List Byte)
    {n : Nat} (hLength : filled.length = n) :
    (filled ++ x :: y :: rest).getD n 0 = x ∧
      (filled ++ x :: y :: rest).getD (n + 1) 0 = y := by
  subst hLength
  rw [List.getD_append_right _ _ _ _ (Nat.le_refl _),
    List.getD_append_right _ _ _ _ (Nat.le_succ _)]
  simp

/- Two cells of a buffer that is long enough. -/
theorem exists_two_of_drop
    {payload : List Byte} {n : Nat}
    (hBound : n + 2 ≤ payload.length) :
    ∃ first second tail,
      payload.drop n = first :: second :: tail := by
  have hFirst : n < payload.length := by omega
  have hSecond : n + 1 < payload.length := by omega
  refine ⟨payload[n], payload[n + 1],
    payload.drop (n + 1 + 1), ?_⟩
  rw [List.drop_eq_getElem_cons hFirst,
    List.drop_eq_getElem_cons hSecond]

/-
  After `k` iterations the first `k` bytes are decoded, and
  the payload is unchanged from there on.
-/
theorem decodeIteration_loop (payload : List Byte) :
    ∀ k rest,
      2 * k ≤ payload.length →
        ∃ corrected,
          corrected.drop (2 * k) = payload.drop (2 * k) ∧
          corrected.length = payload.length ∧
          (List.range k).foldl
              (fun state k => decodeIteration state (2 * k))
              (payload, List.replicate (k + rest) 0) =
            (corrected,
              decodeBytes (payload.take (2 * k)) ++
                List.replicate rest 0)
| 0, rest, _ => by
    exact ⟨payload, rfl, rfl, by simp [decodeBytes]⟩
| k + 1, rest, hBound => by
    rcases decodeIteration_loop payload k (rest + 1)
        (by omega) with
      ⟨corrected, hDrop, hLength, hLoop⟩
    obtain ⟨first, second, tail, hNext⟩ :=
      exists_two_of_drop (by omega :
        2 * k + 2 ≤ payload.length)
    have hTaken :
        payload.take (2 * (k + 1)) =
          payload.take (2 * k) ++ [first, second] := by
      rw [Nat.mul_succ, List.take_add, hNext]
      rfl
    have hTakenLength :
        (payload.take (2 * k)).length = 2 * k :=
      List.length_take_of_le (by omega)
    have hDecodedLength :
        (decodeBytes (payload.take (2 * k))).length = k := by
      rw [length_decodeBytes, hTakenLength]
      omega
    have hSplit :
        corrected =
          corrected.take (2 * k) ++ first :: second :: tail := by
      rw [← hNext, ← hDrop, List.take_append_drop]
    have hFilled : (corrected.take (2 * k)).length = 2 * k :=
      List.length_take_of_le (by omega)
    let c := correctCodeword (first, second)
    have hRead := getD_filled first second tail hFilled
    rw [← hSplit] at hRead
    have hWritten :
        (corrected.set (2 * k) c.1).set (2 * k + 1) c.2 =
          corrected.take (2 * k) ++ c.1 :: c.2 :: tail := by
      conv_lhs => rw [hSplit]
      exact set_set_append _ _ _ _ _ _ hFilled
    have hDecoded :
        (decodeBytes (payload.take (2 * k)) ++
            0 :: List.replicate rest 0).set k
              ((decodeBytes (payload.take (2 * k)) ++
                0 :: List.replicate rest 0).getD k 0 |||
                  dataByte c) =
          decodeBytes (payload.take (2 * (k + 1))) ++
            List.replicate rest 0 := by
      rw [hTaken, decodeBytes_append_two _ _ _ (by omega),
        List.getD_append_right _ _ _ _
          (Nat.le_of_eq hDecodedLength),
        List.set_append_right _ _
          (Nat.le_of_eq hDecodedLength), hDecodedLength]
      simp [c]
    refine ⟨corrected.take (2 * k) ++ c.1 :: c.2 :: tail,
      ?_, ?_, ?_⟩
    · have hTail :
          payload.drop (2 * (k + 1)) = tail := by
        rw [Nat.mul_succ, ← List.drop_drop, hNext]
        rfl
      rw [hTail, Nat.mul_succ, ← List.drop_drop,
        List.drop_left' hFilled]
      rfl
    · rw [← hWritten, List.length_set, List.length_set,
        hLength]
    · have hSize : k + 1 + rest = k + (rest + 1) := by omega
      rw [hSize, List.range_succ, List.foldl_append, hLoop,
        List.replicate_succ, List.foldl_cons, List.foldl_nil,
        decodeIteration]
      simp only [hRead.1, hRead.2]
      rw [Nat.mul_div_cancel_left k (by decide : 0 < 2),
        hDecoded]
      exact congrArg₂ Prod.mk hWritten rfl

------------------------------------------------------------
-- The Round Trip
------------------------------------------------------------

/- The frame of a message codes its bytes and the NUL. -/
theorem encodedMessage_eq
    {m : List Byte}
    (hNoNul : 0 ∉ m) :
    encodedMessage (m ++ [0]) = encodeBytes (m ++ [0]) := by
  have hAll : ∀ b ∈ m, decide (b ≠ 0) = true := by
    intro b hMem
    simp only [decide_eq_true_eq]
    rintro rfl
    exact hNoNul hMem
  have hLength : strlen (m ++ [0]) = m.length := by
    rw [strlen, List.takeWhile_append_of_pos hAll]
    simp
  have hLoop :=
    encodeIteration_loop (m ++ [0]) (m.length + 1) 0 (by simp)
  have hTake :
      (m ++ [0]).take (m.length + 1) = m ++ [0] :=
    List.take_of_length_le (by simp)
  rw [encodedMessage, hLength]
  rw [hTake] at hLoop
  simpa [Nat.mul_succ] using hLoop

/- The decoder reads each two bytes of the frame. -/
theorem decodedMessage_eq
    (r : Msg) (n : Nat)
    (hLen : r.len = 2 * n)
    (hFits : r.len ≤ msgSize) :
    decodedMessage r = decodeBytes (r.payload.take r.len) := by
  have hBound : 2 * n ≤ r.payload.length := by
    rw [r.payload_length, ← hLen]
    exact hFits
  rcases decodeIteration_loop r.payload n 0 hBound with
    ⟨corrected, _, _, hLoop⟩
  have hHalf : r.len / 2 = n := by omega
  rw [decodedMessage, hHalf]
  simp only [Nat.add_zero] at hLoop
  rw [hLoop, hLen]
  simp

/- Errors of one bit in each codeword do no harm. -/
theorem decodeBytes_corrupt :
    ∀ (errors : List BitError) (bytes : List Byte),
      decodeBytes (corrupt errors (encodeBytes bytes)) = bytes
| [], [] => rfl
| _ :: _, [] => rfl
| [], byte :: bytes => by
    have hByte := dataByte_of_error byte none
    have hRest := decodeBytes_corrupt [] bytes
    simp only [corrupt] at hRest
    simp only [corrupt, encodeBytes, decodeBytes, hRest]
    rw [errorWord, xor_zero] at hByte
    rw [Prod.mk.eta, hByte]
| e :: errors, byte :: bytes => by
    have hByte := dataByte_of_error byte e
    have hRest := decodeBytes_corrupt errors bytes
    simp only [encodeBytes, corrupt, decodeBytes, hRest,
      Prod.mk.eta, hByte]

/-
  Whatever single bits are flipped in the codewords of the
  frame of a message, the receiver decodes the message.
-/
theorem decodedMessage_of_corrupted
    (m : List Byte)
    (hNoNul : 0 ∉ m)
    (hFits : 2 * (m.length + 1) ≤ msgSize)
    (errors : List BitError)
    (r : Msg)
    (hLen : r.len = 2 * m.length + 2)
    (hPayload :
      r.payload.take r.len =
        corrupt errors (encodedMessage (m ++ [0]))) :
    decodedMessage r = m ++ [0] := by
  rw [decodedMessage_eq r (m.length + 1) (by omega) (by omega),
    hPayload, encodedMessage_eq hNoNul, decodeBytes_corrupt]

/- A received message whose payload starts with a frame. -/
def received (frame : List Byte) : Msg where
  len := frame.length
  payload := (frame ++ List.replicate msgSize 0).take msgSize
  payload_length := by
    rw [List.length_take_of_le]
    simp

/- The message `Hi` with a wrong bit in two codewords. -/
theorem decodedMessage_of_corrupted_hi :
    decodedMessage
        (received (corrupt [some 9, none, some 1]
          (encodedMessage [0x48, 0x69, 0]))) =
      [0x48, 0x69, 0] :=
  decodedMessage_of_corrupted [0x48, 0x69] (by decide)
    (by decide) [some 9, none, some 1] _ rfl rfl

end TcpServer

end ProgrammingTasks
