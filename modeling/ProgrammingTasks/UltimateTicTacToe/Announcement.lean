import ProgrammingTasks.UltimateTicTacToe.Squares

/-
  The end of the game as the main loop announces it
  (`main.c`).

  `main` compares the result of `checkMacroVictory` with 1, 2
  and -3.  `checkMacroVictory` is declared `bool`, so every
  result but 0 comes back as 1.

  Main declarations:
    * `checkMacroVictory`, `announcement`
    * `AnnouncedRightly`
    * `announcedRightly_iff`
-/

------------------------------------------------------------
-- The Branch of the Main Loop
------------------------------------------------------------

namespace ProgrammingTasks

namespace UltimateTicTacToe

/- The conversion of an `int16_t` to `bool`. -/
def toBool (v : Int) : Bool :=
  v ≠ 0

/- The promotion of a `bool` to `int` in a comparison. -/
def boolValue (b : Bool) : Int :=
  if b then 1 else 0

/- `checkMacroVictory`. -/
def checkMacroVictory (s : Game) : Bool :=
  let macroScore := checkForVictory s true
  if macroScore = Side.playerId.id then
    toBool Side.playerId.id
  else if macroScore = Side.enemyId.id then
    toBool Side.enemyId.id
  else if macroScore = -3 then
    toBool macroScore
  else
    toBool 0

/- What `main` draws after its calls of `checkMacroVictory`. -/
inductive Announcement
| drawO
| drawX
| drawXO
| nothing
deriving DecidableEq, Repr

/- The branch that `main` takes. -/
def announcement (s : Game) : Announcement :=
  if boolValue (checkMacroVictory s) = Side.playerId.id then
    .drawO
  else if boolValue (checkMacroVictory s) = Side.enemyId.id then
    .drawX
  else if boolValue (checkMacroVictory s) = -3 then
    .drawXO
  else
    .nothing

/- The symbol of player 1 stands for every result but 0. -/
theorem announcement_eq (s : Game) :
    announcement s =
      if checkMacroVictory s then .drawO else .nothing := by
  unfold announcement
  cases checkMacroVictory s with
  | true => rfl
  | false => rfl

theorem announcement_eq_drawO_iff (s : Game) :
    announcement s = .drawO ↔ checkMacroVictory s = true := by
  rw [announcement_eq]
  cases checkMacroVictory s with
  | true => simp
  | false => simp

theorem announcement_eq_nothing_iff (s : Game) :
    announcement s = .nothing ↔
      checkMacroVictory s = false := by
  rw [announcement_eq]
  cases checkMacroVictory s with
  | true => simp
  | false => simp

/- Player 2's symbol and the tie are never drawn. -/
theorem announcement_cases (s : Game) :
    announcement s = .drawO ∨ announcement s = .nothing := by
  rw [announcement_eq]
  cases checkMacroVictory s with
  | true => exact Or.inl rfl
  | false => exact Or.inr rfl

theorem checkMacroVictory_iff (s : Game) :
    checkMacroVictory s = true ↔
      (∃ p : Side, checkForVictory s true = p.id) ∨
        checkForVictory s true = -3 := by
  constructor
  · intro hTrue
    unfold checkMacroVictory at hTrue
    by_cases hPlayer :
        checkForVictory s true = Side.playerId.id
    · exact Or.inl ⟨.playerId, hPlayer⟩
    · by_cases hEnemy :
          checkForVictory s true = Side.enemyId.id
      · exact Or.inl ⟨.enemyId, hEnemy⟩
      · by_cases hTie : checkForVictory s true = -3
        · exact Or.inr hTie
        · simp [hPlayer, hEnemy, hTie, toBool] at hTrue
  · intro hScore
    unfold checkMacroVictory
    rcases hScore with ⟨p, hWon⟩ | hTie
    · cases p with
      | playerId => simp [hWon, toBool, Side.id]
      | enemyId => simp [hWon, toBool, Side.id]
    · simp [hTie, toBool, Side.id]

------------------------------------------------------------
-- Lines of the Macro Board
------------------------------------------------------------

/- Three macro squares in a row. -/
def OwnsMacroLine (s : Game) (p : Side) : Prop :=
  HasLine (fun i j => s.mMacroboard (i, j)) p.id

instance (s : Game) (p : Side) :
    Decidable (OwnsMacroLine s p) := by
  unfold OwnsMacroLine
  infer_instance

/- A side's value on the macro board is that side's. -/
theorem Settled.side_of_isPlayed
    {s : Game}
    (hSettled : Settled s)
    {q : Square}
    (hPlayed : isPlayed (s.mMacroboard q)) :
    ∃ p : Side, s.mMacroboard q = p.id := by
  rcases hSettled.square_cases q with
    ⟨p, hWon, _⟩ | ⟨hDrawn, _⟩ | ⟨hOpen, _⟩
  · exact ⟨p, hWon⟩
  · exact absurd hDrawn hPlayed.2.2
  · rcases hOpen with hZero | hActive
    · exact absurd hZero hPlayed.1
    · exact absurd hActive hPlayed.2.1

/- A line consists of the value of one of its squares. -/
theorem HasLine.exists_entry
    {m : AuxMatrix} {id : Int}
    (hLine : HasLine m id) :
    ∃ i j, m i j = id := by
  rcases hLine with ⟨x, hRow⟩ | ⟨y, hColumn⟩ | hMain | hAnti
  · exact ⟨x, 0, hRow 0⟩
  · exact ⟨0, y, hColumn 0⟩
  · exact ⟨0, 0, hMain 0⟩
  · exact ⟨0, _, hAnti 0⟩

section Victory

variable {s : Game}

/- The check finds the line of the only side that has one. -/
theorem checkForVictory_of_ownsMacroLine
    (hSettled : Settled s)
    {p : Side}
    (hLine : OwnsMacroLine s p)
    (hOnly : ∀ p', OwnsMacroLine s p' → p' = p) :
    checkForVictory s true = p.id := by
  unfold checkForVictory
  rw [if_pos rfl]
  cases hId : lineId (fun i j => s.mMacroboard (i, j)) with
  | none =>
      exact absurd hLine
        (not_hasLine_of_lineId_none hId p.isPlayed)
  | some id =>
      by_cases hPlayed : isPlayed id
      · have hHas := hasLine_of_lineId hId
        rcases hHas.exists_entry with ⟨i, j, hEntry⟩
        have hSide : ∃ p' : Side, s.mMacroboard (i, j) = p'.id := by
          apply hSettled.side_of_isPlayed
          rw [hEntry]
          exact hPlayed
        rcases hSide with ⟨p', hId'⟩
        rw [hEntry] at hId'
        rw [hId'] at hHas
        rw [hOnly p' hHas] at hId'
        exact hId'
      · have hDiagonal := diagonal_of_lineId hId hPlayed
        have hOther : p.id ≠ id := by
          intro hSame
          exact hPlayed (hSame ▸ p.isPlayed)
        exact absurd hLine
          (not_hasLine_of_diagonal hDiagonal hOther)

/- The check returns a side's value for that side's line only. -/
theorem ownsMacroLine_of_checkForVictory
    {p : Side}
    (hScore : checkForVictory s true = p.id) :
    OwnsMacroLine s p := by
  unfold checkForVictory at hScore
  rw [if_pos rfl] at hScore
  cases hId : lineId (fun i j => s.mMacroboard (i, j)) with
  | none =>
      simp only [hId] at hScore
      cases p with
      | playerId =>
          split at hScore
          · exact absurd hScore (by decide)
          · exact absurd hScore (by decide)
      | enemyId =>
          split at hScore
          · exact absurd hScore (by decide)
          · exact absurd hScore (by decide)
  | some id =>
      simp only [hId] at hScore
      rw [hScore] at hId
      exact hasLine_of_lineId hId

/- A tie is only returned when no move is left. -/
theorem no_move_of_tie
    (hSettled : Settled s)
    (hScore : checkForVictory s true = -3) :
    ¬ ∃ q, s.mMacroboard q = -1 := by
  unfold checkForVictory at hScore
  rw [if_pos rfl] at hScore
  cases hId : lineId (fun i j => s.mMacroboard (i, j)) with
  | none =>
      simp only [hId] at hScore
      intro hActive
      have hMoves := hSettled.exists_move_iff.mpr hActive
      rw [if_pos hMoves] at hScore
      exact absurd hScore (by decide)
  | some id =>
      simp only [hId] at hScore
      rcases (hasLine_of_lineId hId).exists_entry with
        ⟨i, j, hEntry⟩
      rw [hScore] at hEntry
      rcases hSettled.square_cases (i, j) with
        ⟨p, hWon, _⟩ | ⟨hDrawn, _⟩ | ⟨hOpen, _⟩
      · rw [hWon] at hEntry
        cases p with
        | playerId => exact absurd hEntry (by decide)
        | enemyId => exact absurd hEntry (by decide)
      · rw [hDrawn] at hEntry
        exact absurd hEntry (by decide)
      · rw [hEntry] at hOpen
        exact absurd hOpen (by decide)

end Victory

------------------------------------------------------------
-- The Announcement
------------------------------------------------------------

/-
  Player 1's symbol for a line of player 1, player 2's symbol
  for a line of player 2, both symbols for a finished board
  without a line, and nothing otherwise.
-/
structure AnnouncedRightly (s : Game) : Prop where
  drawO :
    announcement s = .drawO ↔ OwnsMacroLine s .playerId
  drawX :
    announcement s = .drawX ↔ OwnsMacroLine s .enemyId
  drawXO :
    announcement s = .drawXO ↔
      (∀ p, ¬ OwnsMacroLine s p) ∧
        ∀ q, isFinished (s.mMacroboard q)
  nothing :
    announcement s = .nothing ↔
      (∀ p, ¬ OwnsMacroLine s p) ∧
        ∃ q, ¬ isFinished (s.mMacroboard q)

/- Finished and unfinished squares of settled boards. -/
theorem Settled.isUnfinished_iff
    {s : Game}
    (hSettled : Settled s)
    (q : Square) :
    isUnfinished (s.mMacroboard q) ↔
      ¬ isFinished (s.mMacroboard q) := by
  rcases hSettled.square_cases q with
    ⟨p, hWon, _⟩ | ⟨hDrawn, _⟩ | ⟨hOpen, _⟩
  · rw [hWon]
    cases p with
    | playerId => decide
    | enemyId => decide
  · rw [hDrawn]
    decide
  · rcases hOpen with hValue | hValue
    · rw [hValue]
      decide
    · rw [hValue]
      decide

/- A line of player 1 is announced. -/
theorem announcedRightly_of_playerId
    {s : Game}
    (hSettled : Settled s)
    (hPlayer : OwnsMacroLine s .playerId)
    (hEnemy : ¬ OwnsMacroLine s .enemyId) :
    AnnouncedRightly s := by
  have hScore :
      checkForVictory s true = Side.playerId.id := by
    apply checkForVictory_of_ownsMacroLine hSettled hPlayer
    intro p' hLine
    cases p' with
    | playerId => rfl
    | enemyId => exact absurd hLine hEnemy
  have hDrawn : announcement s = .drawO := by
    rw [announcement_eq_drawO_iff, checkMacroVictory_iff]
    exact Or.inl ⟨.playerId, hScore⟩
  have hSome : ¬ ∀ p, ¬ OwnsMacroLine s p :=
    fun hNone => hNone .playerId hPlayer
  refine ⟨?_, ?_, ?_, ?_⟩
  · simp [hDrawn, hPlayer]
  · simp [hDrawn, hEnemy]
  · simp [hDrawn, hSome]
  · simp [hDrawn, hSome]

/- Nothing is announced while the game is open. -/
theorem announcedRightly_of_unfinished
    {s : Game}
    (hSettled : Settled s)
    (hOpen : ∃ q, isUnfinished (s.mMacroboard q))
    (hActive : ∃ q, s.mMacroboard q = -1)
    (hNoLine : ∀ p, ¬ OwnsMacroLine s p) :
    AnnouncedRightly s := by
  have hDrawn : announcement s = .nothing := by
    rw [announcement_eq_nothing_iff, Bool.eq_false_iff, ne_eq,
      checkMacroVictory_iff]
    rintro (⟨p, hScore⟩ | hTie)
    · exact hNoLine p (ownsMacroLine_of_checkForVictory hScore)
    · exact no_move_of_tie hSettled hTie hActive
  have hSquare : ∃ q, ¬ isFinished (s.mMacroboard q) := by
    rcases hOpen with ⟨q, hUnfinished⟩
    exact ⟨q, (hSettled.isUnfinished_iff q).mp hUnfinished⟩
  have hNotAll : ¬ ∀ q, isFinished (s.mMacroboard q) :=
    fun hAll => hSquare.elim (fun q hQ => hQ (hAll q))
  refine ⟨?_, ?_, ?_, ?_⟩
  · simp [hDrawn, hNoLine .playerId]
  · simp [hDrawn, hNoLine .enemyId]
  · refine iff_of_false ?_ (fun hTie => hNotAll hTie.2)
    simp [hDrawn]
  · exact iff_of_true hDrawn ⟨hNoLine, hSquare⟩

/-
  The main loop announces the state of a game rightly exactly
  while player 1 has a line, or player 2 has none and a square
  is unfinished.
-/
theorem announcedRightly_iff
    {s : Game}
    (hCoherent : Coherent s)
    (hActive :
      (∃ q, isUnfinished (s.mMacroboard q)) →
        ∃ q, s.mMacroboard q = -1)
    (hOneWinner :
      ¬ (OwnsMacroLine s .playerId ∧
        OwnsMacroLine s .enemyId)) :
    AnnouncedRightly s ↔
      OwnsMacroLine s .playerId ∨
        (¬ OwnsMacroLine s .enemyId ∧
          ∃ q, isUnfinished (s.mMacroboard q)) := by
  have hSettled := hCoherent.settled
  constructor
  · intro hRight
    have hDrawn := announcement_cases s
    by_cases hPlayer : OwnsMacroLine s .playerId
    · exact Or.inl hPlayer
    · have hEnemy : ¬ OwnsMacroLine s .enemyId := by
        intro hEnemy
        rw [hRight.drawX.mpr hEnemy] at hDrawn
        simp at hDrawn
      refine Or.inr ⟨hEnemy, ?_⟩
      by_contra hNone
      have hNoLine : ∀ p, ¬ OwnsMacroLine s p := by
        intro p
        cases p with
        | playerId => exact hPlayer
        | enemyId => exact hEnemy
      have hFinished : ∀ q, isFinished (s.mMacroboard q) := by
        intro q
        by_contra hOpen
        exact hNone
          ⟨q, (hSettled.isUnfinished_iff q).mpr hOpen⟩
      rw [hRight.drawXO.mpr ⟨hNoLine, hFinished⟩] at hDrawn
      simp at hDrawn
  · intro hCondition
    by_cases hPlayer : OwnsMacroLine s .playerId
    · exact announcedRightly_of_playerId hSettled hPlayer
        (fun hEnemy => hOneWinner ⟨hPlayer, hEnemy⟩)
    · rcases hCondition with hLine | ⟨hEnemy, hOpen⟩
      · exact absurd hLine hPlayer
      · apply announcedRightly_of_unfinished hSettled hOpen
          (hActive hOpen)
        intro p
        cases p with
        | playerId => exact hPlayer
        | enemyId => exact hEnemy

/- Player 2 wins on the last row after 17 moves. -/
def enemyWonGame : Game where
  mBoard c :=
    ([ [0, 0, 0, 0, 0, 0, 0, 0, 0],
       [0, 0, 0, 0, 0, 0, 0, 0, 0],
       [1, 0, 0, 0, 0, 0, 1, 0, 0],
       [0, 0, 0, 0, 0, 0, 0, 0, 0],
       [0, 0, 0, 0, 0, 0, 0, 0, 0],
       [0, 0, 1, 1, 1, 1, 0, 1, 0],
       [0, 0, 2, 2, 0, 0, 0, 0, 0],
       [0, 2, 0, 0, 2, 0, 2, 2, 2],
       [2, 0, 0, 0, 0, 2, 0, 1, 0] ].getD c.1 []).getD c.2 0
  mMacroboard q :=
    ([ [-1, -1, -1],
       [-1, 1, -1],
       [2, 2, 2] ].getD q.1 []).getD q.2 0
  lx := 6
  hx := 9
  ly := 6
  hy := 9

theorem coherent_enemyWonGame : Coherent enemyWonGame := by
  apply Settled.coherent
  · constructor
    · decide +kernel
    · decide +kernel
  · unfold OneLine
    decide +kernel

theorem announcedRightly_enemyWonGame_iff :
    Coherent enemyWonGame ∧
      (AnnouncedRightly enemyWonGame ↔
        OwnsMacroLine enemyWonGame .playerId ∨
          (¬ OwnsMacroLine enemyWonGame .enemyId ∧
            ∃ q, isUnfinished (enemyWonGame.mMacroboard q))) :=
  ⟨coherent_enemyWonGame,
    announcedRightly_iff coherent_enemyWonGame
      (fun _ => ⟨(0, 0), by decide⟩)
      (by decide +kernel)⟩

/- The win of player 2 is announced with player 1's symbol. -/
theorem not_announcedRightly_always :
    ¬ ∀ s : Game,
      Coherent s →
      ((∃ q, isUnfinished (s.mMacroboard q)) →
        ∃ q, s.mMacroboard q = -1) →
      ¬ (OwnsMacroLine s .playerId ∧
        OwnsMacroLine s .enemyId) →
        AnnouncedRightly s := by
  intro hAlways
  have hRight :=
    hAlways enemyWonGame coherent_enemyWonGame
      (fun _ => ⟨(0, 0), by decide⟩)
      (by decide +kernel)
  have hDrawn : announcement enemyWonGame = .drawO := by
    decide +kernel
  have hLine := hRight.drawO.mp hDrawn
  revert hLine
  decide +kernel

end UltimateTicTacToe

end ProgrammingTasks
