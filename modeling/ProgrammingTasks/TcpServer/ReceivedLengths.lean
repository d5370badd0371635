import ProgrammingTasks.TcpServer.Server
import ProgrammingTasks.TcpServer.LinkEmulator

/-
  What a received length leads to.

  A datagram has any 32-bit `len` and a payload of fixed size.
  Every access of the payload or of an allocated block is
  checked here: one outside of it has no result, and nor has a
  division by zero.

  Main declarations:
    * `Datagram`, `readAt`, `writeAt`
    * `corruptPayload`, `parityLoop`, `decodingLoop`
    * `Safe`
    * `safe_iff`
-/

------------------------------------------------------------
-- Checked Loops
------------------------------------------------------------

namespace ProgrammingTasks

namespace TcpServer

section Guarded

variable {σ ι : Type}
variable {f : σ → ι → Option σ} {g : σ → ι → σ}
variable {I : σ → Prop} {P : ι → Prop} [DecidablePred P]

/- A loop succeeds if no iteration is out of bounds. -/
theorem foldlM_guarded
    (hStep :
      ∀ s i, I s → f s i = if P i then some (g s i) else none)
    (hKeep : ∀ s i, I s → I (g s i)) :
    ∀ (l : List ι) (s : σ), I s →
      l.foldlM f s =
        if ∀ i ∈ l, P i then some (l.foldl g s) else none
| [], s, _ => by simp
| i :: rest, s, hState => by
    rw [List.foldlM_cons, hStep s i hState, List.foldl_cons]
    by_cases hFirst : P i
    · rw [if_pos hFirst]
      change rest.foldlM f (g s i) = _
      rw [foldlM_guarded hStep hKeep rest (g s i)
        (hKeep s i hState)]
      simp only [List.forall_mem_cons, hFirst, true_and]
    · rw [if_neg hFirst, if_neg]
      · rfl
      · exact fun hAll => hFirst (hAll i List.mem_cons_self)

end Guarded

namespace Receiver

------------------------------------------------------------
-- Accesses
------------------------------------------------------------

/- A message as it arrives. -/
structure Datagram where
  len : BitVec 32
  payload : List Byte
  payload_length : payload.length = msgSize

def readAt (l : List Byte) (i : Int) : Option Byte :=
  if 0 ≤ i ∧ i < l.length then some (l.getD i.toNat 0)
  else none

def writeAt (l : List Byte) (i : Int) (c : Byte) :
    Option (List Byte) :=
  if 0 ≤ i ∧ i < l.length then some (l.set i.toNat c)
  else none

/-
  `payload[rand() % len] ^= 1 << (rand() % 8)`, for two results
  of `rand`.
-/
def corruptPayload (d : Datagram) (r r' : Nat) :
    Option (List Byte) :=
  if d.len = 0 then
    none
  else
    let i := Int.tmod r d.len.toInt
    (readAt d.payload i).bind
      (fun c => writeAt d.payload i (c ^^^ (1 <<< (r' % 8))))

/- The loop of `main`, with the indices from 1 on. -/
def parityLoop (d : Datagram) : Option Byte :=
  (List.range (d.len.toInt - 1).toNat).foldlM
    (fun sum k =>
      (readAt d.payload (k + 1 : Nat)).map
        (fun c =>
          (List.range 8).foldl (fun sum k => sum ^^^ bit c k)
            sum))
    0

/- One iteration: two bytes are read, corrected and decoded. -/
def decodingStep (state : List Byte × List Byte) (k : Nat) :
    Option (List Byte × List Byte) :=
  let i := 2 * k
  (readAt state.1 i).bind fun first =>
    (readAt state.1 (i + 1 : Nat)).bind fun second =>
      let c := correctCodeword (first, second)
      (writeAt state.1 i c.1).bind fun payload =>
        (writeAt payload (i + 1 : Nat) c.2).bind fun payload =>
          (readAt state.2 (i / 2 : Nat)).bind fun before =>
            (writeAt state.2 (i / 2 : Nat)
                (before ||| dataByte c)).map
              fun decoded => (payload, decoded)

/-
  The loop of `decoded_message`: the index takes the even
  values below `len - 1`, an `int` as well, and the block has
  `len / 2` bytes.
-/
def decodingLoop (d : Datagram) : Option (List Byte) :=
  ((List.range (((d.len - 1).toInt + 1) / 2).toNat).foldlM
    decodingStep
    (d.payload,
      List.replicate (d.len.toInt.tdiv 2).toNat 0)).map
    Prod.snd

/- `RAND_MAX`. -/
def randMax : Nat := 2 ^ 31 - 1

/- No step of the two programs leaves its array. -/
structure Safe (d : Datagram) : Prop where
  corrupts :
    ∀ r ≤ randMax, ∀ r', (corruptPayload d r r').isSome = true
  sums : (parityLoop d).isSome = true
  decodes : (decodingLoop d).isSome = true

------------------------------------------------------------
-- The Corruption
------------------------------------------------------------

theorem readAt_eq
    {l : List Byte} {i : Nat}
    (hInside : i < l.length) :
    readAt l i = some (l.getD i 0) :=
  if_pos (by omega)

theorem readAt_eq_none
    {l : List Byte} {i : Nat}
    (hOutside : l.length ≤ i) :
    readAt l i = none :=
  if_neg (by omega)

theorem writeAt_eq
    {l : List Byte} {i : Nat}
    (hInside : i < l.length)
    (c : Byte) :
    writeAt l i c = some (l.set i c) :=
  if_pos (by omega)

/- A remainder of the length, whatever its sign. -/
theorem tmod_eq (r : Nat) (d : Datagram) :
    Int.tmod r d.len.toInt =
      (r % d.len.toInt.natAbs : Nat) := by
  have hNonneg : 0 ≤ Int.tmod r d.len.toInt :=
    Int.tmod_nonneg _ (Int.natCast_nonneg r)
  have hAbs := Int.natAbs_tmod r d.len.toInt
  rw [Int.natAbs_natCast] at hAbs
  omega

theorem corruptPayload_eq
    {d : Datagram}
    (hLen : d.len ≠ 0)
    (r r' : Nat) :
    corruptPayload d r r' =
      if r % d.len.toInt.natAbs < msgSize then
        some
          (d.payload.modify (r % d.len.toInt.natAbs)
            (fun c => c ^^^ (1 <<< (r' % 8))))
      else
        none := by
  unfold corruptPayload
  dsimp only
  rw [if_neg hLen, tmod_eq]
  by_cases hInside : r % d.len.toInt.natAbs < msgSize
  · have hLess :
        r % d.len.toInt.natAbs < d.payload.length := by
      rw [d.payload_length]
      exact hInside
    rw [readAt_eq hLess, Option.bind_some, writeAt_eq hLess,
      if_pos hInside, List.modify_eq_set]
    rfl
  · have hMore :
        d.payload.length ≤ r % d.len.toInt.natAbs := by
      rw [d.payload_length]
      omega
    rw [readAt_eq_none hMore, if_neg hInside]
    rfl

theorem len_eq_zero_iff (d : Datagram) :
    d.len.toInt = 0 ↔ d.len = 0 := by
  rw [← BitVec.toInt_inj]
  rfl

/- The number 1400 is drawn as well as any other. -/
theorem corrupts_iff (d : Datagram) :
    (∀ r ≤ randMax, ∀ r',
        (corruptPayload d r r').isSome = true) ↔
      d.len ≠ 0 ∧ d.len.toInt.natAbs ≤ msgSize := by
  constructor
  · intro hSafe
    have hLen : d.len ≠ 0 := by
      intro hZero
      have hNone := hSafe 0 (Nat.zero_le _) 0
      rw [corruptPayload, if_pos hZero] at hNone
      cases hNone
    refine ⟨hLen, ?_⟩
    by_contra hLong
    have hDrawn := hSafe msgSize (by decide) 0
    rw [corruptPayload_eq hLen,
      Nat.mod_eq_of_lt (by omega), if_neg (by omega)] at hDrawn
    cases hDrawn
  · rintro ⟨hLen, hFits⟩ r _ r'
    have hSome := (len_eq_zero_iff d).not.mpr hLen
    have hLess : r % d.len.toInt.natAbs < msgSize := by
      have hMod := Nat.mod_lt r
        (show 0 < d.len.toInt.natAbs by omega)
      omega
    rw [corruptPayload_eq hLen, if_pos hLess]
    rfl

/- Inside the payload it is the step of the emulator. -/
theorem flipBit_of_corruptPayload
    {d : Datagram} {r r' : Nat} {payload : List Byte}
    (hSome : corruptPayload d r r' = some payload) :
    LinkEmulator.flipBit ⟨d.len.toInt, d.payload⟩ r r' =
      some ⟨d.len.toInt, payload⟩ := by
  have hLen : d.len ≠ 0 := by
    intro hZero
    rw [corruptPayload, if_pos hZero] at hSome
    cases hSome
  rw [corruptPayload_eq hLen] at hSome
  split at hSome
  · rw [← Option.some.inj hSome]
    unfold LinkEmulator.flipBit
    dsimp only
    rw [if_neg ((len_eq_zero_iff d).not.mpr hLen), tmod_eq,
      Int.toNat_natCast]
  · cases hSome

------------------------------------------------------------
-- The Parity Loop
------------------------------------------------------------

theorem parityLoop_eq (d : Datagram) :
    parityLoop d =
      if ∀ k ∈ List.range (d.len.toInt - 1).toNat,
          k + 1 < msgSize then
        some
          ((List.range (d.len.toInt - 1).toNat).foldl
            (fun sum k =>
              (List.range 8).foldl
                (fun sum j =>
                  sum ^^^ bit (d.payload.getD (k + 1) 0) j)
                sum)
            0)
      else
        none := by
  refine foldlM_guarded (I := fun _ => True) ?_
    (fun _ _ h => h) _ _ trivial
  intro sum k _
  by_cases hInside : k + 1 < msgSize
  · rw [readAt_eq (by rw [d.payload_length]; exact hInside),
      if_pos hInside]
    rfl
  · rw [readAt_eq_none (by rw [d.payload_length]; omega),
      if_neg hInside]
    rfl

theorem sums_iff (d : Datagram) :
    (parityLoop d).isSome = true ↔ d.len.toInt ≤ msgSize := by
  have hRange :
      (∀ k ∈ List.range (d.len.toInt - 1).toNat,
          k + 1 < msgSize) ↔
        d.len.toInt ≤ msgSize := by
    constructor
    · intro hAll
      by_contra hLong
      have hLast := hAll (msgSize - 1)
        (List.mem_range.mpr (by unfold msgSize at *; omega))
      unfold msgSize at hLast
      omega
    · intro hFits k hMem
      have hLess := List.mem_range.mp hMem
      omega
  rw [parityLoop_eq, Option.isSome_ite, hRange]

/- Within the payload the loop has the parity as its result. -/
theorem receivedParity_of_parityLoop
    {d : Datagram} {r : Msg} {sum : Byte}
    (hLen : d.len.toInt = r.len)
    (hPayload : d.payload = r.payload)
    (hSome : parityLoop d = some sum) :
    receivedParity r = sum := by
  have hFits : d.len.toInt ≤ msgSize := by
    rw [← sums_iff, hSome]
    rfl
  have hBytes :
      (r.payload.take r.len).drop 1 =
        (List.range (d.len.toInt - 1).toNat).map
          (fun k => d.payload.getD (k + 1) 0) := by
    rw [hPayload]
    apply List.ext_getElem
    · rw [List.length_drop, List.length_take, r.payload_length,
        List.length_map, List.length_range]
      omega
    · intro k hLess _
      rw [List.length_drop, List.length_take,
        r.payload_length] at hLess
      have hInside : k + 1 < r.payload.length := by
        rw [r.payload_length]
        omega
      simp [hInside]
  rw [parityLoop_eq] at hSome
  split at hSome
  · rw [← Option.some.inj hSome, receivedParity, parityOf, hBytes,
      List.foldl_map]
  · cases hSome

------------------------------------------------------------
-- The Decoding Loop
------------------------------------------------------------

theorem decodingStep_eq
    {size : Nat} {state : List Byte × List Byte}
    (hPayload : state.1.length = msgSize)
    (hDecoded : state.2.length = size)
    (k : Nat) :
    decodingStep state k =
      if 2 * k + 1 < msgSize ∧ k < size then
        some (decodeIteration state (2 * k))
      else
        none := by
  have hHalf : 2 * k / 2 = k := by
    omega
  unfold decodingStep
  dsimp only
  rw [hHalf]
  by_cases hSecond : 2 * k + 1 < msgSize
  · rw [readAt_eq (i := 2 * k) (by omega), Option.bind_some,
      readAt_eq (i := 2 * k + 1) (by omega), Option.bind_some,
      writeAt_eq (i := 2 * k) (by omega), Option.bind_some,
      writeAt_eq (i := 2 * k + 1)
        (by rw [List.length_set]; omega),
      Option.bind_some]
    by_cases hBlock : k < size
    · rw [readAt_eq (by omega), Option.bind_some,
        writeAt_eq (by omega), if_pos ⟨hSecond, hBlock⟩]
      unfold decodeIteration
      dsimp only
      rw [hHalf]
      rfl
    · rw [readAt_eq_none (by omega),
        if_neg (fun h => hBlock h.2)]
      rfl
  · rw [if_neg (fun h => hSecond h.1)]
    by_cases hFirst : 2 * k < msgSize
    · rw [readAt_eq (i := 2 * k) (by omega), Option.bind_some,
        readAt_eq_none (i := 2 * k + 1) (by omega)]
      rfl
    · rw [readAt_eq_none (i := 2 * k) (by omega)]
      rfl

/- How many pairs of bytes are decoded. -/
def pairs (d : Datagram) : Nat :=
  (((d.len - 1).toInt + 1) / 2).toNat

def blockSize (d : Datagram) : Nat :=
  (d.len.toInt.tdiv 2).toNat

theorem decodingLoop_eq (d : Datagram) :
    decodingLoop d =
      if ∀ k ∈ List.range (pairs d),
          2 * k + 1 < msgSize ∧ k < blockSize d then
        some
          ((List.range (pairs d)).foldl
            (fun state k => decodeIteration state (2 * k))
            (d.payload, List.replicate (blockSize d) 0)).2
      else
        none := by
  have hLoop :=
    foldlM_guarded (f := decodingStep)
      (g := fun state k => decodeIteration state (2 * k))
      (I := fun state =>
        state.1.length = msgSize ∧
          state.2.length = blockSize d)
      (P := fun k => 2 * k + 1 < msgSize ∧ k < blockSize d)
      (fun state k h => decodingStep_eq h.1 h.2 k)
      (by
        intro state k h
        unfold decodeIteration
        simpa using h)
      (List.range (pairs d))
      (d.payload, List.replicate (blockSize d) 0)
      ⟨d.payload_length, List.length_replicate⟩
  unfold decodingLoop
  unfold pairs blockSize at hLoop ⊢
  rw [hLoop]
  split
  · rfl
  · rfl

/- Only the least length is less than its predecessor. -/
theorem toInt_sub_one (d : Datagram) :
    (d.len - 1).toInt =
      if d.len.toInt = -2 ^ 31 then 2 ^ 31 - 1
      else d.len.toInt - 1 := by
  have hLow := BitVec.le_toInt d.len
  have hHigh := BitVec.toInt_lt (x := d.len)
  have hOne : (1 : BitVec 32).toInt = 1 := by
    decide
  rw [BitVec.toInt_sub, hOne]
  split
  · rename_i hLeast
    rw [hLeast]
    decide
  · rw [Int.bmod_eq_of_le (by omega) (by omega)]

theorem decodes_iff (d : Datagram) :
    (decodingLoop d).isSome = true ↔
      d.len.toInt ≠ -2 ^ 31 ∧ d.len.toInt ≤ msgSize + 1 := by
  have hSub := toInt_sub_one d
  rw [decodingLoop_eq, Option.isSome_ite]
  constructor
  · intro hAll
    have hLeast : d.len.toInt ≠ -2 ^ 31 := by
      intro hLeast
      rw [if_pos hLeast] at hSub
      have hFirst :=
        hAll 0 (List.mem_range.mpr (by unfold pairs; omega))
      unfold blockSize at hFirst
      rw [hLeast] at hFirst
      revert hFirst
      decide
    refine ⟨hLeast, ?_⟩
    rw [if_neg hLeast] at hSub
    by_contra hLong
    unfold msgSize at hLong
    have hLast :=
      hAll (msgSize / 2)
        (List.mem_range.mpr (by unfold pairs msgSize; omega))
    exact absurd hLast.1 (by decide)
  · rintro ⟨hLeast, hFits⟩ k hMem
    rw [if_neg hLeast] at hSub
    have hLess := List.mem_range.mp hMem
    unfold pairs at hLess
    have hHalf : d.len.toInt.tdiv 2 = d.len.toInt / 2 :=
      Int.tdiv_eq_ediv_of_nonneg (by omega)
    unfold blockSize msgSize at *
    omega

/- Within the payload the loop decodes the message. -/
theorem decodedMessage_of_decodingLoop
    {d : Datagram} {r : Msg} {decoded : List Byte}
    (hLen : d.len.toInt = r.len)
    (hPayload : d.payload = r.payload)
    (hSome : decodingLoop d = some decoded) :
    decodedMessage r = decoded := by
  have hHalf : d.len.toInt.tdiv 2 = d.len.toInt / 2 :=
    Int.tdiv_eq_ediv_of_nonneg (by omega)
  have hSub := toInt_sub_one d
  rw [if_neg (by omega)] at hSub
  have hPairs : pairs d = r.len / 2 := by
    unfold pairs
    omega
  have hBlock : blockSize d = r.len / 2 := by
    unfold blockSize
    omega
  rw [decodingLoop_eq] at hSome
  split at hSome
  · rw [← Option.some.inj hSome, decodedMessage, hPairs, hBlock,
      hPayload]
  · cases hSome

------------------------------------------------------------
-- All Lengths
------------------------------------------------------------

/-
  The programs stay within their arrays exactly for lengths
  that are not zero and, without their sign, fit the payload.
-/
theorem safe_iff (d : Datagram) :
    Safe d ↔ d.len ≠ 0 ∧ d.len.toInt.natAbs ≤ msgSize := by
  constructor
  · intro hSafe
    exact (corrupts_iff d).mp hSafe.corrupts
  · intro hFits
    refine ⟨(corrupts_iff d).mpr hFits, ?_, ?_⟩
    · rw [sums_iff]
      omega
    · rw [decodes_iff]
      unfold msgSize at *
      omega

/- A message that says that it is empty. -/
def emptyDatagram : Datagram where
  len := 0
  payload := List.replicate msgSize 0
  payload_length := List.length_replicate

/- The corruption divides by zero. -/
theorem not_safe_always : ¬ ∀ d, Safe d := by
  intro hAlways
  have hDrawn :=
    (hAlways emptyDatagram).corrupts 0 (Nat.zero_le _) 0
  have hNone : corruptPayload emptyDatagram 0 0 = none := rfl
  rw [hNone] at hDrawn
  cases hDrawn

end Receiver

end TcpServer

end ProgrammingTasks
