import ProgrammingTasks.TcpServer.Guessing

/-
  Single flipped bits in the frames of the parity mode.

  The parity is linear: a flipped bit of the text or of its
  end changes it.  Of the first character only the lowest bit
  is looked at, and the others are no part of the text.

  Main declarations:
    * `Msg.flip`, `byteParity`
    * `Detects`
    * `detects_of_frame`
-/

------------------------------------------------------------
-- The Parity of a Text
------------------------------------------------------------

namespace ProgrammingTasks

namespace TcpServer

/- A message with one bit of one byte flipped. -/
def Msg.flip (r : Msg) (i k : Nat) : Msg where
  len := r.len
  payload := r.payload.modify i (fun c => c ^^^ ((1 : Byte) <<< k))
  payload_length := by
    rw [List.length_modify, r.payload_length]

namespace Receiver

/- The inner loop, for one byte. -/
def byteParity (c : Byte) : Byte :=
  (List.range 8).foldl (fun sum k => sum ^^^ bit c k) 0

theorem xor_nul (c : Byte) : c ^^^ 0 = c :=
  BitVec.xor_zero

theorem nul_xor (c : Byte) : 0 ^^^ c = c :=
  BitVec.zero_xor

theorem foldl_bits (c sum : Byte) :
    (List.range 8).foldl (fun sum k => sum ^^^ bit c k) sum =
      sum ^^^ byteParity c := by
  have hAssoc :
      ∀ (l : List Nat) (sum start : Byte),
        l.foldl (fun sum k => sum ^^^ bit c k)
            (sum ^^^ start) =
          sum ^^^
            l.foldl (fun sum k => sum ^^^ bit c k) start := by
    intro l
    induction l with
    | nil => exact fun _ _ => rfl
    | cons k rest ih =>
        intro sum start
        rw [List.foldl_cons, List.foldl_cons,
          BitVec.xor_assoc, ih]
  have hFrom := hAssoc (List.range 8) sum 0
  rw [xor_nul] at hFrom
  exact hFrom

theorem foldl_parity :
    ∀ (text : List Byte) (sum : Byte),
      text.foldl
          (fun sum c =>
            (List.range 8).foldl
              (fun sum k => sum ^^^ bit c k) sum)
          sum =
        sum ^^^ parityOf text
| [], sum => (xor_nul sum).symm
| c :: rest, sum => by
    have hFirst := foldl_parity rest (sum ^^^ byteParity c)
    have hZero := foldl_parity rest (0 ^^^ byteParity c)
    rw [parityOf, List.foldl_cons, List.foldl_cons, foldl_bits,
      foldl_bits, hFirst, hZero, nul_xor,
      BitVec.xor_assoc]

@[simp]
theorem parityOf_cons (c : Byte) (rest : List Byte) :
    parityOf (c :: rest) = byteParity c ^^^ parityOf rest := by
  rw [parityOf, List.foldl_cons, foldl_bits, foldl_parity,
    nul_xor]

/- The end of the text has no bits. -/
theorem parityOf_append_nul :
    ∀ text : List Byte, parityOf (text ++ [0]) = parityOf text
| [] => by decide
| c :: rest => by
    rw [List.cons_append, parityOf_cons, parityOf_cons,
      parityOf_append_nul rest]

/- The parity of a byte is linear, since its bits are. -/
theorem foldl_xor (c d : Byte) (l : List Nat) :
    ∀ a b : Byte,
      l.foldl (fun sum k => sum ^^^ bit (c ^^^ d) k) (a ^^^ b) =
        l.foldl (fun sum k => sum ^^^ bit c k) a ^^^
          l.foldl (fun sum k => sum ^^^ bit d k) b := by
  induction l with
  | nil => exact fun _ _ => rfl
  | cons k rest ih =>
      intro a b
      have hHere :
          (a ^^^ b) ^^^ bit (c ^^^ d) k =
            (a ^^^ bit c k) ^^^ (b ^^^ bit d k) := by
        rw [bit_xor]
        ac_rfl
      rw [List.foldl_cons, List.foldl_cons, List.foldl_cons,
        hHere, ih]

theorem byteParity_xor (c d : Byte) :
    byteParity (c ^^^ d) = byteParity c ^^^ byteParity d := by
  have hSum := foldl_xor c d (List.range 8) 0 0
  rw [xor_nul] at hSum
  exact hSum

theorem byteParity_flip
    {k : Nat}
    (hBit : k < 8)
    (c : Byte) :
    byteParity (c ^^^ ((1 : Byte) <<< k)) = byteParity c ^^^ 1 := by
  have hOne :
      ∀ k : Fin 8, byteParity ((1 : Byte) <<< k.val) = 1 := by
    decide
  have hFlipped : byteParity ((1 : Byte) <<< k) = 1 :=
    hOne ⟨k, hBit⟩
  rw [byteParity_xor, hFlipped]

/- One flipped bit changes the parity. -/
theorem parityOf_flip
    {k : Nat}
    (hBit : k < 8) :
    ∀ (text : List Byte) (i : Nat), i < text.length →
      parityOf (text.modify i (fun c => c ^^^ ((1 : Byte) <<< k))) =
        parityOf text ^^^ 1
| c :: rest, 0, _ => by
    rw [List.modify_zero_cons, parityOf_cons, parityOf_cons,
      byteParity_flip hBit, BitVec.xor_assoc,
      BitVec.xor_comm 1, BitVec.xor_assoc]
| c :: rest, i + 1, hLess => by
    rw [List.modify_succ_cons, parityOf_cons, parityOf_cons,
      parityOf_flip hBit rest i (Nat.lt_of_succ_lt_succ hLess),
      BitVec.xor_assoc]

theorem bit_flip
    {k : Nat}
    (hBit : k < 8)
    (c : Byte) :
    bit (c ^^^ ((1 : Byte) <<< k)) 0 =
      if k = 0 then bit c 0 ^^^ 1 else bit c 0 := by
  have hLowest :
      ∀ k : Fin 8,
        bit ((1 : Byte) <<< k.val) 0 =
          if k.val = 0 then 1 else 0 := by
    decide
  have hFlipped :
      bit ((1 : Byte) <<< k) 0 = if k = 0 then 1 else 0 :=
    hLowest ⟨k, hBit⟩
  rw [bit_xor, hFlipped]
  split
  · rfl
  · exact xor_nul _

theorem xor_one_ne (c : Byte) : c ^^^ 1 ≠ c := by
  intro hSame
  have hZero : (1 : Byte) = 0 := by
    apply (BitVec.xor_right_inj c).mp
    rw [hSame, xor_nul]
  exact absurd hZero (by decide)

------------------------------------------------------------
-- The Check of the Server
------------------------------------------------------------

section Check

variable {r : Msg} {first : Byte} {behind text : List Byte}

/- What the check compares. -/
theorem check_eq
    (hFrame : IsFrame r (first :: behind)) :
    inputBit r = bit first 0 ∧
      receivedParity r = parityOf behind := by
  have hPayload := payload_of_isFrame hFrame
  constructor
  · rw [inputBit, hPayload]
    rfl
  · rw [receivedParity, hFrame.2]
    rfl

theorem isFrame_flip
    {frame : List Byte}
    (hFrame : IsFrame r frame)
    (i k : Nat) :
    IsFrame (r.flip i k)
      (frame.modify i (fun c => c ^^^ ((1 : Byte) <<< k))) := by
  constructor
  · rw [List.length_modify]
    exact hFrame.1
  · change (r.payload.modify i _).take r.len = _
    rw [List.take_modify, hFrame.2]

/- The message is taken for a text with the right parity. -/
def Accepted (r : Msg) : Prop :=
  ∀ g, (outputs .parity ⟨r, g⟩).head? = some .ack

/- The message is refused, and nothing else is sent. -/
def Rejected (r : Msg) : Prop :=
  ∀ g, outputs .parity ⟨r, g⟩ = [.nack]

theorem accepted_of_eq
    (hData : r.len ≠ 4 ∧ r.len ≠ 5)
    (hSame : inputBit r = receivedParity r) :
    Accepted r := by
  intro g
  unfold outputs iteration ackParity nackParity
  dsimp only
  rw [if_pos hData, if_neg (fun h => h hSame)]
  rfl

theorem rejected_of_ne
    (hData : r.len ≠ 4 ∧ r.len ≠ 5)
    (hDifferent : inputBit r ≠ receivedParity r) :
    Rejected r := by
  intro g
  unfold outputs iteration ackParity nackParity
  dsimp only
  rw [if_pos hData, if_pos hDifferent]

/-
  The frame of a text is accepted, and with one of its bits
  flipped it is refused or still holds the text.
-/
structure Detects (text : List Byte) (r : Msg) : Prop where
  accepted : Accepted r
  flipped :
    ∀ i < r.len, ∀ k < 8,
      Rejected (r.flip i k) ∨
        ((r.flip i k).payload.take r.len).drop 1 = text ++ [0]

/- The digit has the parity as its lowest bit. -/
theorem bit_digit (text : List Byte) :
    bit (48 + parityOf text) 0 = parityOf text := by
  rcases parityOf_cases text with hZero | hOne
  · rw [hZero]
    decide
  · rw [hOne]
    decide

theorem check_frame
    (hFrame : IsFrame r (parityFrame text)) :
    inputBit r = receivedParity r := by
  rcases check_eq hFrame with ⟨hInput, hReceived⟩
  rw [hInput, hReceived, bit_digit]
  exact (parityOf_append_nul text).symm

/- Every bit that the check looks at. -/
theorem check_flip
    (hFrame : IsFrame r (parityFrame text))
    {i k : Nat}
    (hByte : i < r.len)
    (hBit : k < 8)
    (hSeen : i = 0 → k = 0) :
    inputBit (r.flip i k) ≠ receivedParity (r.flip i k) := by
  have hFlipped := isFrame_flip hFrame i k
  cases i with
  | zero =>
      rcases check_eq hFlipped with ⟨hInput, hReceived⟩
      have hZero := hSeen rfl
      rw [hInput, hReceived, bit_flip hBit, if_pos hZero,
        bit_digit]
      have hSame := parityOf_append_nul text
      rw [← hSame]
      exact xor_one_ne _
  | succ i =>
      have hRest : i < (text ++ [(0 : Byte)]).length := by
        have hLen := hFrame.1
        rw [parityFrame, List.cons_append, List.length_cons]
          at hLen
        omega
      rw [parityFrame, List.cons_append, List.modify_succ_cons]
        at hFlipped
      rcases check_eq hFlipped with ⟨hInput, hReceived⟩
      rw [hInput, hReceived, bit_digit, parityOf_flip hBit _ _
        hRest, parityOf_append_nul]
      exact (xor_one_ne _).symm

/- The bits of the digit that nobody looks at. -/
theorem text_flip
    (hFrame : IsFrame r (parityFrame text))
    (k : Nat) :
    ((r.flip 0 k).payload.take r.len).drop 1 = text ++ [0] := by
  have hFlipped := (isFrame_flip hFrame 0 k).2
  change (r.flip 0 k).payload.take r.len = _ at hFlipped
  rw [hFlipped]
  rfl

/- Frames of texts that are not taken for control frames. -/
theorem detects_of_frame
    (hControl : text.length ≠ 2 ∧ text.length ≠ 3)
    (hFrame : IsFrame r (parityFrame text)) :
    Detects text r := by
  have hData : r.len ≠ 4 ∧ r.len ≠ 5 := by
    have hLen := hFrame.1
    rw [parityFrame, List.length_append, List.length_cons,
      List.length_singleton] at hLen
    omega
  refine ⟨accepted_of_eq hData (check_frame hFrame), ?_⟩
  intro i hByte k hBit
  by_cases hSeen : i = 0 → k = 0
  · exact Or.inl
      (rejected_of_ne hData
        (check_flip hFrame hByte hBit hSeen))
  · push Not at hSeen
    rcases hSeen with ⟨rfl, _⟩
    exact Or.inr (text_flip hFrame k)

end Check

/- The word `hello` in a frame. -/
theorem detects_hello :
    Detects (ascii "hello".toList)
      (received (parityFrame (ascii "hello".toList))) :=
  detects_of_frame (by decide) (isFrame_received (by decide))

end Receiver

end TcpServer

end ProgrammingTasks
