import ProgrammingTasks.TcpChat.SelectServer

/-
  Whose files `getfilelist` lists (`selectserver.c`).

  The name that is asked for only has to start with the name
  of a user, and is then opened as it is.  A file is marked by
  its name alone, whoever shares a file of that name.

  Main declarations:
    * `userNames`, `requestFiles`
    * `Lists`, `ownerList`
    * `FileListLaw`, `OwnFiles`
    * `fileListLaw_iff`
-/

------------------------------------------------------------
-- The Law
------------------------------------------------------------

namespace ProgrammingTasks

namespace TcpChat

/- The names among the words of the users' file. -/
def userNames : List Text → List Text
| username :: _ :: file => username :: userNames file
| _ => []

/- What is found in a directory, if it can be opened. -/
abbrev Directories := Text → Option (List DirEntry)

/- A message, with the directory of the name that it asks for. -/
def requestFiles
    (config : Config) (dirs : Directories) (i : Nat)
    (buffer : Text) (s : Server) : Outcome :=
  handle config i buffer (dirs (word 1 buffer)) s

/- The server has the list ready and sends its size. -/
def Lists
    (config : Config) (dirs : Directories) (i : Nat)
    (buffer : Text) (s : Server) (list : Text) : Prop :=
  (requestFiles config dirs i buffer s).1.flist = some list ∧
    (requestFiles config dirs i buffer s).2 =
      some (stringSize list)

/- The entries but the directory itself and its parent. -/
def filesOf (entries : List DirEntry) : List DirEntry :=
  entries.filter
    (fun entry =>
      entry.name ≠ ".".toList && entry.name ≠ "..".toList)

/- A line, marked by the shares of the owner. -/
def ownerLine
    (shares : List (Text × Text)) (owner : Text)
    (entry : DirEntry) : Text :=
  entry.name ++ " ".toList ++ (toString entry.size).toList ++
    " bytes ".toList ++
      (if (owner, entry.name) ∈ shares then "SHARED".toList
        else "PRIVATE".toList) ++
    ['\n']

/- A line for each file of the owner. -/
def ownerList
    (shares : List (Text × Text)) (owner : Text)
    (entries : List DirEntry) : Text :=
  (filesOf entries).flatMap (ownerLine shares owner)

/-
  A list is made exactly for the names of users, and has the
  files in the directory of the user, marked as the user
  shares them.
-/
structure FileListLaw
    (config : Config) (dirs : Directories) (buffer : Text) :
    Prop where
  authorised :
    ∀ i s,
      (∃ list, Lists config dirs i buffer s list) ↔
        word 1 buffer ∈ userNames config.users
  marked :
    ∀ i s list,
      Lists config dirs i buffer s list →
        ∃ entries,
          dirs (word 1 buffer) = some entries ∧
            list =
              ownerList config.shares (word 1 buffer) entries

/-
  The directory of a user can be opened, and the files in it
  that anyone shares are shared by the user.  A name that only
  starts with that of a user is no directory.
-/
def OwnFiles
    (config : Config) (dirs : Directories) (d : Text) : Prop :=
  if d ∈ userNames config.users then
    ∃ entries,
      dirs d = some entries ∧
        ∀ entry ∈ filesOf entries,
          (∃ owner, (owner, entry.name) ∈ config.shares) →
            (d, entry.name) ∈ config.shares
  else
    (∃ username ∈ userNames config.users, username <+: d) →
      dirs d = none

------------------------------------------------------------
-- The User
------------------------------------------------------------

/- The loop over the users accepts what starts with a name. -/
theorem knownUser_iff (dirName : Text) :
    ∀ file : List Text,
      knownUser dirName file = true ↔
        ∃ username ∈ userNames file, username <+: dirName
| [] => by
    simp [knownUser, userNames]
| [_] => by
    simp [knownUser, userNames]
| username :: password :: file => by
    rw [knownUser, Bool.or_eq_true, List.isPrefixOf_iff_prefix,
      knownUser_iff dirName file, userNames]
    simp only [List.mem_cons, exists_eq_or_imp]

section Request

variable {config : Config} {dirs : Directories}
variable {i : Nat} {buffer : Text} {s : Server}

theorem requestFiles_eq
    (hAction : actionOf (word 0 buffer) = .getfilelist) :
    requestFiles config dirs i buffer s =
      getFileList config i (word 1 buffer)
        (dirs (word 1 buffer)) s := by
  rw [requestFiles, handle, hAction]

/- Sizes are numbers, unlike the answer for an unknown user. -/
theorem unknownUser_ne_size (list : Text) :
    unknownUser ≠ stringSize list := by
  intro hSame
  have hDash : '-' ∈ stringSize list := by
    rw [← hSame]
    decide
  have hDigit : '-'.isDigit = true := by
    refine Nat.isDigit_of_mem_toDigits (b := 10)
      (n := list.length + 1) (by decide) (by decide) ?_
    simpa [stringSize] using hDash
  revert hDigit
  decide

/- A list is made of the directory that has been opened. -/
theorem lists_iff
    (hAction : actionOf (word 0 buffer) = .getfilelist)
    (list : Text) :
    Lists config dirs i buffer s list ↔
      knownUser (word 1 buffer) config.users = true ∧
        ∃ entries,
          dirs (word 1 buffer) = some entries ∧
            list = fileList config entries := by
  unfold Lists
  rw [requestFiles_eq hAction]
  unfold getFileList
  cases hKnown : knownUser (word 1 buffer) config.users with
  | false =>
      simp only [Bool.false_eq_true, if_false, false_and,
        iff_false, not_and, Option.some.injEq]
      exact fun _ hSize => unknownUser_ne_size list hSize
  | true =>
      simp only [if_true, true_and]
      cases hDir : dirs (word 1 buffer) with
      | none => simp [exit]
      | some entries =>
          simp only [Option.some.injEq, exists_eq_left']
          constructor
          · rintro ⟨hList, _⟩
            exact hList.symm
          · rintro rfl
            exact ⟨rfl, rfl⟩

end Request

------------------------------------------------------------
-- The Marks
------------------------------------------------------------

section Lines

variable {A B : Type} {f g : A → List B}

theorem length_flatMap_le
    (hLength : ∀ a, (f a).length ≤ (g a).length) :
    ∀ l : List A,
      (l.flatMap f).length ≤ (l.flatMap g).length
| [] => Nat.le_refl 0
| a :: l => by
    rw [List.flatMap_cons, List.flatMap_cons,
      List.length_append, List.length_append]
    exact Nat.add_le_add (hLength a)
      (length_flatMap_le hLength l)

/- Lines that are no longer are put together alike if equal. -/
theorem flatMap_eq_iff
    (hLength : ∀ a, (f a).length ≤ (g a).length) :
    ∀ l : List A,
      l.flatMap f = l.flatMap g ↔ ∀ a ∈ l, f a = g a
| [] => by
    simp
| a :: l => by
    have hRest := length_flatMap_le hLength l
    rw [List.flatMap_cons, List.flatMap_cons,
      List.forall_mem_cons, ← flatMap_eq_iff hLength l]
    constructor
    · intro hSame
      have hTotal := congrArg List.length hSame
      have hHere := hLength a
      simp only [List.length_append] at hTotal
      exact List.append_inj hSame (by omega)
    · rintro ⟨hHere, hThere⟩
      rw [hHere, hThere]

end Lines

/- The test for a share looks at the name of the file only. -/
theorem any_share_iff
    (shares : List (Text × Text)) (name : Text) :
    shares.any (fun share => share.2 = name) = true ↔
      ∃ owner, (owner, name) ∈ shares := by
  rw [List.any_eq_true]
  constructor
  · rintro ⟨⟨owner, name'⟩, hMem, hName⟩
    rw [decide_eq_true_eq] at hName
    exact ⟨owner, hName ▸ hMem⟩
  · rintro ⟨owner, hMem⟩
    exact ⟨_, hMem, decide_eq_true rfl⟩

section Marks

variable (shares : List (Text × Text)) (owner : Text)
variable (entry : DirEntry)

/- The owner's mark is the right one, or `PRIVATE` is missing. -/
theorem fileLine_eq_iff :
    fileLine shares entry = ownerLine shares owner entry ↔
      ((∃ owner, (owner, entry.name) ∈ shares) →
        (owner, entry.name) ∈ shares) := by
  have hAny := any_share_iff shares entry.name
  unfold fileLine ownerLine shareAttribute
  rw [List.append_cancel_right_eq, List.append_cancel_left_eq]
  by_cases hOwner : (owner, entry.name) ∈ shares
  · rw [if_pos (hAny.mpr ⟨owner, hOwner⟩), if_pos hOwner]
    exact iff_of_true rfl (fun _ => hOwner)
  · rw [if_neg hOwner]
    by_cases hShared :
        shares.any (fun share => share.2 = entry.name) = true
    · rw [if_pos hShared]
      exact iff_of_false (by decide)
        (fun h => hOwner (h (hAny.mp hShared)))
    · rw [if_neg hShared]
      exact iff_of_true rfl
        (fun h => absurd (hAny.mpr h) hShared)

theorem length_fileLine_le :
    (fileLine shares entry).length ≤
      (ownerLine shares owner entry).length := by
  have hAny := any_share_iff shares entry.name
  unfold fileLine ownerLine shareAttribute
  simp only [List.length_append]
  by_cases hOwner : (owner, entry.name) ∈ shares
  · rw [if_pos (hAny.mpr ⟨owner, hOwner⟩), if_pos hOwner]
  · rw [if_neg hOwner]
    have hShorter :
        (if shares.any (fun share => share.2 = entry.name) then
            "SHARED".toList
          else "PRIVATE".toList).length ≤
          "PRIVATE".toList.length := by
      split
      · decide
      · exact Nat.le_refl _
    omega

end Marks

theorem fileList_eq_iff
    (config : Config) (owner : Text)
    (entries : List DirEntry) :
    fileList config entries =
        ownerList config.shares owner entries ↔
      ∀ entry ∈ filesOf entries,
        (∃ owner, (owner, entry.name) ∈ config.shares) →
          (owner, entry.name) ∈ config.shares := by
  have hLines :=
    flatMap_eq_iff (length_fileLine_le config.shares owner)
      (filesOf entries)
  simp only [fileLine_eq_iff] at hLines
  exact hLines

------------------------------------------------------------
-- The Equivalence
------------------------------------------------------------

section Equivalence

variable {config : Config} {dirs : Directories} {buffer : Text}

/- For the name of a user the marks decide. -/
theorem fileListLaw_user_iff
    (hAction : actionOf (word 0 buffer) = .getfilelist)
    (hUser : word 1 buffer ∈ userNames config.users) :
    FileListLaw config dirs buffer ↔
      ∃ entries,
        dirs (word 1 buffer) = some entries ∧
          ∀ entry ∈ filesOf entries,
            (∃ owner, (owner, entry.name) ∈ config.shares) →
              (word 1 buffer, entry.name) ∈ config.shares := by
  have hAccepted :
      knownUser (word 1 buffer) config.users = true :=
    (knownUser_iff _ _).mpr ⟨_, hUser, List.prefix_refl _⟩
  constructor
  · intro hLaw
    rcases (hLaw.authorised 0 (start (fun _ => 0))).mpr hUser
      with ⟨list, hLists⟩
    rcases hLaw.marked _ _ _ hLists with
      ⟨entries, hDir, hMarked⟩
    rcases ((lists_iff hAction list).mp hLists).2 with
      ⟨entries', hDir', hMade⟩
    rw [hDir] at hDir'
    cases hDir'
    rw [hMade] at hMarked
    exact ⟨entries, hDir, (fileList_eq_iff _ _ _).mp hMarked⟩
  · rintro ⟨entries, hDir, hShared⟩
    refine ⟨fun i s => iff_of_true ?_ hUser, ?_⟩
    · exact ⟨_, (lists_iff hAction _).mpr
        ⟨hAccepted, entries, hDir, rfl⟩⟩
    · intro i s list hLists
      rcases ((lists_iff hAction list).mp hLists).2 with
        ⟨entries', hDir', hMade⟩
      rw [hDir] at hDir'
      cases hDir'
      rw [hMade]
      exact ⟨entries, hDir, (fileList_eq_iff _ _ _).mpr hShared⟩

/- For any other name there must be no directory. -/
theorem fileListLaw_other_iff
    (hAction : actionOf (word 0 buffer) = .getfilelist)
    (hUser : word 1 buffer ∉ userNames config.users) :
    FileListLaw config dirs buffer ↔
      ((∃ username ∈ userNames config.users,
          username <+: word 1 buffer) →
        dirs (word 1 buffer) = none) := by
  have hKnown := knownUser_iff (word 1 buffer) config.users
  constructor
  · intro hLaw hStarts
    cases hDir : dirs (word 1 buffer) with
    | none => rfl
    | some entries =>
        refine absurd ?_ hUser
        refine (hLaw.authorised 0 (start (fun _ => 0))).mp ?_
        exact ⟨_, (lists_iff hAction _).mpr
          ⟨hKnown.mpr hStarts, entries, hDir, rfl⟩⟩
  · intro hNoDirectory
    have hNoList :
        ∀ i s list, ¬ Lists config dirs i buffer s list := by
      intro i s list hLists
      rcases (lists_iff hAction list).mp hLists with
        ⟨hAccepted, entries, hDir, _⟩
      rw [hNoDirectory (hKnown.mp hAccepted)] at hDir
      cases hDir
    refine ⟨fun i s => iff_of_false ?_ hUser, ?_⟩
    · rintro ⟨list, hLists⟩
      exact hNoList i s list hLists
    · intro i s list hLists
      exact absurd hLists (hNoList i s list)

end Equivalence

/-
  For every configuration, all directories and every message
  that asks for files, the law holds exactly under the
  condition.
-/
theorem fileListLaw_iff
    (config : Config) (dirs : Directories) {buffer : Text}
    (hAction : actionOf (word 0 buffer) = .getfilelist) :
    FileListLaw config dirs buffer ↔
      OwnFiles config dirs (word 1 buffer) := by
  unfold OwnFiles
  by_cases hUser : word 1 buffer ∈ userNames config.users
  · rw [if_pos hUser]
    exact fileListLaw_user_iff hAction hUser
  · rw [if_neg hUser]
    exact fileListLaw_other_iff hAction hUser

/- Two users, of whom `ana` shares her notes. -/
def twoUsers : Config where
  sockfd := 3
  n := 2
  users :=
    ["ana".toList, "secret".toList, "bob".toList,
      "hidden".toList]
  shares := [("ana".toList, "notes".toList)]

/- Each of them has some notes. -/
def twoDirectories : Directories := fun d =>
  if d = "ana".toList ∨ d = "bob".toList ∨
      d = "ana/../bob".toList then
    some [⟨"notes".toList, 12⟩]
  else
    none

/- The directory of `ana` is listed rightly. -/
theorem fileListLaw_ana :
    FileListLaw twoUsers twoDirectories
      "getfilelist ana".toList := by
  have hShared :
      ∀ entry ∈ filesOf [⟨"notes".toList, 12⟩],
        (word 1 "getfilelist ana".toList, entry.name) ∈
          twoUsers.shares := by
    decide
  refine (fileListLaw_iff twoUsers twoDirectories
    (by decide)).mpr ?_
  unfold OwnFiles
  rw [if_pos (by decide)]
  exact ⟨_, rfl, fun entry hEntry _ => hShared entry hEntry⟩

/- The files of `bob` are listed for a path that starts with `ana`. -/
theorem not_fileListLaw_always :
    ¬ ∀ (config : Config) (dirs : Directories) (buffer : Text),
        actionOf (word 0 buffer) = .getfilelist →
          FileListLaw config dirs buffer := by
  intro hAlways
  have hLaw :=
    hAlways twoUsers twoDirectories
      "getfilelist ana/../bob".toList (by decide)
  have hLists :
      Lists twoUsers twoDirectories 0
        "getfilelist ana/../bob".toList (start (fun _ => 0))
        (fileList twoUsers [⟨"notes".toList, 12⟩]) :=
    (lists_iff (by decide) _).mpr
      ⟨by decide, _, by decide, rfl⟩
  have hUser := (hLaw.authorised _ _).mp ⟨_, hLists⟩
  revert hUser
  decide

end TcpChat

end ProgrammingTasks
