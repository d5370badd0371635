import ProgrammingTasks.Foundations.TransitionSystem
import ProgrammingTasks.TcpServer.Hamming
import Mathlib.Data.Int.Basic

/-
  The message server (`server.c`): one loop that receives a
  message and answers it, in one of four modes.

  A step is one iteration of the loop of `main`.  A local
  variable that is not initialized has any value, anew at each
  call.  `send_message` and `recv_message` are those of a
  library and are taken to succeed; what is sent of a message
  are its first `len` bytes.

  Main declarations:
    * `decimal`, `strtol`, `tokens`
    * `test0`, `testParity`, `testHamming`
    * `iteration`, `serverSystem`
-/

------------------------------------------------------------
-- The C Library
------------------------------------------------------------

namespace ProgrammingTasks

namespace TcpServer

namespace Receiver

/- The conversion to a 32-bit `int`. -/
def toInt (v : Int) : Int :=
  v.bmod (2 ^ 32)

def ascii (text : List Char) : List Byte :=
  text.map (fun c => BitVec.ofNat 8 c.toNat)

/- The C string at the start of an array. -/
def cString (payload : List Byte) : List Byte :=
  payload.takeWhile (· ≠ 0)

/- `sprintf` with `%d`. -/
def decimal (v : Int) : List Byte :=
  if v < 0 then
    45 :: ascii (Nat.toDigits 10 v.natAbs)
  else
    ascii (Nat.toDigits 10 v.natAbs)

def isSpace (c : Byte) : Bool :=
  c = 32 || (9 ≤ c.toNat && c.toNat ≤ 13)

def isDigit (c : Byte) : Bool :=
  48 ≤ c.toNat && c.toNat ≤ 57

def digitsValue (digits : List Byte) : Nat :=
  digits.foldl (fun v c => 10 * v + (c.toNat - 48)) 0

/- `strtol` with base 10, which stays within a `long`. -/
def strtol (text : List Byte) : Int :=
  let text := text.dropWhile isSpace
  let value : Int :=
    if text.head? = some 45 then
      -digitsValue ((text.drop 1).takeWhile isDigit)
    else if text.head? = some 43 then
      digitsValue ((text.drop 1).takeWhile isDigit)
    else
      digitsValue (text.takeWhile isDigit)
  max (-(2 ^ 63)) (min (2 ^ 63 - 1) value)

/- The tokens that `strsep` finds between spaces. -/
def tokens (string : List Byte) : List (List Byte) :=
  string.splitOn 32

def wordText : List Byte := ascii "word".toList

def randomText : List Byte := ascii "random".toList

def smallerText : List Byte := ascii "smaller".toList

def biggerText : List Byte := ascii "bigger".toList

def ackText : List Byte := ascii "ACK".toList

def nackText : List Byte := ascii "NACK".toList

------------------------------------------------------------
-- The Answering Functions
------------------------------------------------------------

/- A message that is sent, with the place that sends it. -/
inductive Sent
| ack
| nack
| guess (mid : Int) (frame : List Byte)
| answer (token : List Byte) (frame : List Byte)
| again (frame : List Byte)
deriving DecidableEq, Repr

/- The bytes that are sent. -/
def Sent.frame : Sent → List Byte
| .ack => ackText ++ [0]
| .nack => nackText ++ [0]
| .guess _ frame => frame
| .answer _ frame => frame
| .again frame => frame

/-
  What a call finds in its uninitialized variables, and behind
  the memory that `decoded_message` returns.
-/
structure Garbage where
  low : Int
  high : Int
  mid : Int
  t : List Byte
  heap : List Byte
deriving DecidableEq, Repr

/-
  The variables of an answering function: `payload` is that of
  its own copy of the message.
-/
structure Locals where
  low : Int
  high : Int
  mid : Int
  i : Nat
  j : Nat
  a : List (List Byte)
  payload : List Byte
  t : List Byte
  sent : List Sent

def enter (g : Garbage) (payload : List Byte) : Locals where
  low := g.low
  high := g.high
  mid := g.mid
  i := 0
  j := 0
  a := []
  payload := payload
  t := g.t
  sent := []

/- The token behind each `word` is kept for the answers. -/
def countWord (st : Locals) (token : List Byte) : Locals :=
  let j := if token = wordText then st.i else st.j + 1
  let i := if token = wordText then st.i + 1 else st.i
  { st with
    i := i
    j := j
    a := if j = i then st.a ++ [token] else st.a }

/-
  The bounds behind the first `[` of the message.  Without one
  `strchr` returns a null pointer, which is then read through.
-/
def readInterval (payload : List Byte) : Option (Int × Int) :=
  let text := cString payload
  if 91 ∈ text then
    let pch := text.idxOf 91
    some ((payload.getD (pch + 1) 0).toInt - 48,
      toInt (strtol (payload.drop (pch + 4))))
  else
    none

/- `(low + high) / 2`. -/
def middle (low high : Int) : Int :=
  (toInt (low + high)).tdiv 2

/- The new middle is written over the message and sent. -/
def sendMid
    (encode : List Byte → List Byte) (st : Locals) : Locals :=
  let mid := middle st.low st.high
  let frame := encode (decimal mid)
  { st with
    mid := mid
    payload := frame ++ st.payload.drop frame.length
    sent := st.sent ++ [.guess mid frame] }

/- A token that announces an interval; an error ends the process. -/
def answerRandom
    (send : Locals → Locals) (st : Locals)
    (token : List Byte) : Except (List Sent) Locals :=
  if randomText.isPrefixOf token then
    match readInterval st.payload with
    | none => .error st.sent
    | some bounds =>
        .ok (send { st with low := bounds.1, high := bounds.2 })
  else
    .ok st

def answerSmaller
    (encode : List Byte → List Byte) (st : Locals) : Locals :=
  if smallerText.isPrefixOf (cString st.payload) then
    sendMid encode { st with high := toInt (st.mid - 1) }
  else
    st

def answerBigger
    (encode : List Byte → List Byte) (st : Locals) : Locals :=
  if biggerText.isPrefixOf (cString st.payload) then
    sendMid encode { st with low := toInt (st.mid + 1) }
  else
    st

/- One token; the message is looked at after each of them. -/
def tokenStep
    (encode : List Byte → List Byte)
    (st : Locals) (token : List Byte) :
    Except (List Sent) Locals :=
  (answerRandom (sendMid encode) (countWord st token) token).map
    (fun st => answerBigger encode (answerSmaller encode st))

/- The common part of `test_0` and `test_hamming`. -/
def testWith
    (encode : List Byte → List Byte) (g : Garbage)
    (string payload : List Byte) :
    Except (List Sent) (List Sent) :=
  ((tokens string).foldlM (tokenStep encode)
    (enter g payload)).map
    (fun st =>
      st.sent ++
        st.a.map (fun token => .answer token (encode token)))

/- A text with its end. -/
def plainFrame (text : List Byte) : List Byte :=
  text ++ [0]

/- `test_0`. -/
def test0 (g : Garbage) (string payload : List Byte) :
    Except (List Sent) (List Sent) :=
  testWith plainFrame g string payload

/- A text with its end, encoded. -/
def hammingFrame (text : List Byte) : List Byte :=
  encodedMessage (plainFrame text)

/- `test_hamming`. -/
def testHamming (g : Garbage) (string payload : List Byte) :
    Except (List Sent) (List Sent) :=
  testWith hammingFrame g string payload

/- The loops that add up the bits of a text. -/
def parityOf (text : List Byte) : Byte :=
  text.foldl
    (fun sum c =>
      (List.range 8).foldl (fun sum k => sum ^^^ bit c k) sum)
    0

/- A text behind its parity. -/
def parityFrame (text : List Byte) : List Byte :=
  (48 + parityOf text) :: text ++ [0]

/-
  The loops for the parity use the counters of the tokens, and
  the message itself is not written over.
-/
def sendMidParity (st : Locals) : Locals :=
  let mid := middle st.low st.high
  let frame := parityFrame (decimal mid)
  { st with
    mid := mid
    i := (decimal mid).length
    j := 8
    t := frame
    sent := st.sent ++ [.guess mid frame] }

/- The tests exclude each other. -/
def tokenStepParity
    (st : Locals) (token : List Byte) :
    Except (List Sent) Locals :=
  let st := countWord st token
  if randomText.isPrefixOf token then
    answerRandom sendMidParity st token
  else if
      smallerText.isPrefixOf (cString (st.payload.drop 1)) then
    .ok (sendMidParity { st with high := toInt (st.mid - 1) })
  else if
      biggerText.isPrefixOf (cString (st.payload.drop 1)) then
    .ok (sendMidParity { st with low := toInt (st.mid + 1) })
  else
    .ok st

/- `test_parity`; `len` is the length of the message. -/
def testParity
    (g : Garbage) (string payload : List Byte) (len : Nat) :
    Except (List Sent) (List Sent) :=
  ((tokens string).foldlM tokenStepParity
    (enter g payload)).map
    (fun st =>
      st.sent ++ (if len = 5 then [.again st.t] else []) ++
        st.a.map
          (fun token => .answer token (parityFrame token)))

------------------------------------------------------------
-- The Main Loop
------------------------------------------------------------

/- The argument of the program. -/
inductive Mode
| plain
| ack
| parity
| hamming
deriving DecidableEq, Repr

def ackParity : Nat := 4

def nackParity : Nat := 5

def ackHamming : Nat := 3

def nackHamming : Nat := 4

/- `COUNT`. -/
def count : Nat := 100

/- What a call has sent, and whether the process goes on. -/
def called :
    Except (List Sent) (List Sent) → List Sent × Bool
| .ok sent => (sent, true)
| .error sent => (sent, false)

/- `ACK`, and then the answer. -/
def acknowledge
    (call : Except (List Sent) (List Sent)) :
    List Sent × Bool :=
  (.ack :: (called call).1, (called call).2)

/- The parity that the client has sent. -/
def inputBit (r : Msg) : Byte :=
  bit (r.payload.getD 0 0) 0

/- The parity of the rest of the message. -/
def receivedParity (r : Msg) : Byte :=
  parityOf ((r.payload.take r.len).drop 1)

/- One iteration for a message that has been received. -/
def iteration
    (mode : Mode) (g : Garbage) (r : Msg) : List Sent × Bool :=
  match mode with
  | .plain => called (test0 g (cString r.payload) r.payload)
  | .ack =>
      if ackText.isPrefixOf (cString r.payload) then
        ([], true)
      else
        acknowledge (test0 g (cString r.payload) r.payload)
  | .parity =>
      if r.len ≠ ackParity ∧ r.len ≠ nackParity then
        if inputBit r ≠ receivedParity r then
          ([.nack], true)
        else
          acknowledge
            (testParity g (cString (r.payload.drop 1)) r.payload
              r.len)
      else if r.len = nackParity then
        called
          (testParity g (cString r.payload) r.payload r.len)
      else
        ([], true)
  | .hamming =>
      if r.len ≠ ackHamming ∧ r.len ≠ nackHamming then
        let message := cString (decodedMessage r ++ g.heap)
        acknowledge
          (testHamming g message
            (message ++ [0] ++
              r.payload.drop (message.length + 1)))
      else
        ([], true)

structure State where
  i : Nat
  running : Bool
deriving DecidableEq, Repr

structure Event where
  message : Msg
  garbage : Garbage

def step (mode : Mode) (s : State) (e : Event) :
    Option State :=
  if s.running = true ∧ s.i < count then
    some
      { i := s.i + 1
        running := (iteration mode e.garbage e.message).2 }
  else
    none

def serverSystem (mode : Mode) : TransitionSystem State Event :=
  TransitionSystem.ofFunction
    (fun s => s = { i := 0, running := true }) (step mode)

abbrev Transition := TransitionSystem.Transition State Event

abbrev Trace := List Transition

/- What an iteration sends. -/
def outputs (mode : Mode) (e : Event) : List Sent :=
  (iteration mode e.garbage e.message).1

end Receiver

end TcpServer

end ProgrammingTasks
