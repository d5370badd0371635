import ProgrammingTasks.Foundations.GreedyWindows
import ProgrammingTasks.TaskClusters.Events

/-
  The clusters of repeated elements (`ClusterManager.java`).

  The map holds the open cluster of each type.  A cluster that
  is closed in the middle of the scan goes to the result as it
  is, one that is still open at the end only if it does not
  have just one event.

  Main declarations:
    * `Cluster`, `cluster`
    * `Clustered`, `clustersOf_cluster`
    * `GreedyClusters`, `greedyClusters_of_cluster`
    * `noSingles_iff`
-/

------------------------------------------------------------
-- The Cluster Manager
------------------------------------------------------------

namespace ProgrammingTasks

namespace TaskClusters

open GreedyWindows

structure Cluster where
  userEvents : List UserEvent
  startTimestamp : Int
  endTimestamp : Int
deriving DecidableEq, Repr

/-
  The type of the first element of the path; the calls throw
  if there is no area or no element.
-/
def typeOf (ue : UserEvent) : Option Text :=
  ue.area.bind
    (fun area => area.pathInEditor.head?.map EditorElement.type)

/- The entries of a `HashMap`, one for each key. -/
abbrev ClusterMap := List (Text × Cluster)

/- `put`: the value replaces that of the key, if it has one. -/
def put : ClusterMap → Text → Cluster → ClusterMap
| [], key, c => [(key, c)]
| entry :: map, key, c =>
    if entry.1 = key then (key, c) :: map
    else entry :: put map key c

/- `values()`, which has no certain order. -/
structure HashOrder where
  values : ClusterMap → List Cluster
  perm : ∀ map, (values map).Perm (map.map Prod.snd)

/- The variables `clustersList` and `map`. -/
structure Clustering where
  clustersList : List Cluster
  map : ClusterMap

/- A new cluster with its first event. -/
def newCluster (ue : UserEvent) : Cluster :=
  ⟨[ue], ue.timestamp, toInt (ue.timestamp + 9)⟩

/-
  One event.  A cluster that goes to the result is replaced in
  the map, so that it is not changed any more.
-/
def clusterEvent
    (window : Int) (st : Clustering) (ue : UserEvent) :
    Option Clustering :=
  (typeOf ue).map (fun type =>
    match st.map.lookup type with
    | some cluster =>
        if ue.timestamp >
            toInt (cluster.startTimestamp + window) then
          { clustersList := st.clustersList ++ [cluster]
            map := put st.map type (newCluster ue) }
        else
          { st with
            map := put st.map type
              { cluster with
                endTimestamp := toInt (ue.timestamp + 9)
                userEvents := cluster.userEvents ++ [ue] } }
    | none =>
        { st with map := put st.map type (newCluster ue) })

/- `cluster`. -/
def cluster
    (window : Int) (order : HashOrder)
    (userEvents : List UserEvent) : Option (List Cluster) :=
  (userEvents.foldlM (clusterEvent window) ⟨[], []⟩).map
    (fun st =>
      st.clustersList ++
        (order.values st.map).filter
          (fun c => c.userEvents.length ≠ 1))

------------------------------------------------------------
-- Maps
------------------------------------------------------------

theorem lookup_put (key key' : Text) (c : Cluster) :
    ∀ map : ClusterMap,
      (put map key c).lookup key' =
        if key' = key then some c else map.lookup key'
| [] => by
    by_cases hKey : key' = key
    · simp [put, hKey]
    · have hNot : (key' == key) = false :=
        beq_eq_false_iff_ne.mpr hKey
      simp [put, List.lookup_cons, hKey, hNot]
| ⟨key'', c''⟩ :: map => by
    have hRest := lookup_put key key' c map
    by_cases hEntry : key'' = key
    · subst hEntry
      by_cases hKey : key' = key''
      · simp [put, hKey]
      · have hNot : (key' == key'') = false :=
          beq_eq_false_iff_ne.mpr hKey
        simp [put, List.lookup_cons, hKey, hNot]
    · simp only [put, hEntry, if_false, List.lookup_cons, hRest]
      by_cases hKey : key' = key
      · have hNot : (key' == key'') = false :=
          beq_eq_false_iff_ne.mpr
            (fun hSame => hEntry (hSame.symm.trans hKey))
        simp only [hKey, if_true] at hNot ⊢
        rw [hNot]
      · simp only [hKey, if_false]

theorem mem_put
    {key : Text} {c : Cluster} {entry : Text × Cluster} :
    ∀ {map : ClusterMap},
      entry ∈ put map key c →
        entry = (key, c) ∨ entry ∈ map
| [], hMem => by
    exact Or.inl (List.mem_singleton.mp hMem)
| first :: map, hMem => by
    unfold put at hMem
    split at hMem
    · rcases List.mem_cons.mp hMem with hNew | hOld
      · exact Or.inl hNew
      · exact Or.inr (List.mem_cons_of_mem _ hOld)
    · rcases List.mem_cons.mp hMem with hFirst | hRest
      · exact Or.inr (hFirst ▸ List.mem_cons_self)
      · exact (mem_put hRest).imp_right
          (List.mem_cons_of_mem _)

/- Each key stays in one entry. -/
theorem nodup_put (key : Text) (c : Cluster) :
    ∀ {map : ClusterMap},
      (map.map Prod.fst).Nodup →
        ((put map key c).map Prod.fst).Nodup
| [], _ => by
    simp [put]
| first :: map, hNodup => by
    rw [List.map_cons, List.nodup_cons] at hNodup
    unfold put
    split
    · rename_i hSame
      rw [List.map_cons, List.nodup_cons]
      exact hSame ▸ hNodup
    · rename_i hOther
      rw [List.map_cons, List.nodup_cons]
      refine ⟨?_, nodup_put key c hNodup.2⟩
      intro hMem
      rcases List.mem_map.mp hMem with ⟨entry, hEntry, hKey⟩
      rcases mem_put hEntry with rfl | hOld
      · exact hOther hKey.symm
      · exact hNodup.1 (List.mem_map.mpr ⟨entry, hOld, hKey⟩)

------------------------------------------------------------
-- Windows of One Type
------------------------------------------------------------

/- The events of a type, in their order. -/
def ofType
    (type : Text) (events : List UserEvent) :
    List UserEvent :=
  events.filter (fun ue => typeOf ue = some type)

/- The test that closes a cluster. -/
def beyond (window : Int) (first ue : UserEvent) : Bool :=
  ue.timestamp > toInt (first.timestamp + window)

/- The windows of the events of a type. -/
def scanOf
    (window : Int) (type : Text) (events : List UserEvent) :
    Scan UserEvent :=
  scan (beyond window) (ofType type events)

/- The last event of a window. -/
def lastOf (w : Window UserEvent) : UserEvent :=
  w.others.getLastD w.first

/- The cluster of a window. -/
def clusterOf (w : Window UserEvent) : Cluster :=
  ⟨w.members, w.first.timestamp,
    toInt ((lastOf w).timestamp + 9)⟩

/- The type of the first event of a cluster. -/
def Cluster.type (c : Cluster) : Option Text :=
  c.userEvents.head?.bind typeOf

/- The clusters of a type, in their order. -/
def clustersOf
    (type : Text) (clusters : List Cluster) : List Cluster :=
  clusters.filter (fun c => c.type = some type)

theorem type_clusterOf (w : Window UserEvent) :
    (clusterOf w).type = typeOf w.first :=
  rfl

theorem mem_ofType
    {type : Text} {events : List UserEvent} {ue : UserEvent} :
    ue ∈ ofType type events ↔
      ue ∈ events ∧ typeOf ue = some type := by
  rw [ofType, List.mem_filter, decide_eq_true_eq]

/- The windows of a type begin with an event of that type. -/
theorem typeOf_first
    {window : Int} {type : Text} {events : List UserEvent}
    {w : Window UserEvent}
    (hWindow : w ∈ (scanOf window type events).windows) :
    typeOf w.first = some type := by
  have hMembers :=
    (greedy_scan (beyond window) (ofType type events)).members
  have hFirst : w.first ∈ ofType type events := by
    rw [← hMembers]
    exact List.mem_flatMap.mpr
      ⟨w, hWindow, List.mem_cons_self⟩
  exact (mem_ofType.mp hFirst).2

------------------------------------------------------------
-- The Invariant of the Scan
------------------------------------------------------------

/-
  After some events, the list has the closed windows of each
  type, and the map the open ones.
-/
structure Clustered
    (window : Int) (events : List UserEvent)
    (st : Clustering) : Prop where
  keys : (st.map.map Prod.fst).Nodup
  typed : ∀ entry ∈ st.map, entry.2.type = some entry.1
  known : ∀ c ∈ st.clustersList, ∃ type, c.type = some type
  opened :
    ∀ type,
      st.map.lookup type =
        (scanOf window type events).opened.map clusterOf
  closed :
    ∀ type,
      clustersOf type st.clustersList =
        (scanOf window type events).closed.map clusterOf

/- An event of another type does not matter. -/
theorem scanOf_other
    {window : Int} {type : Text} {events : List UserEvent}
    {ue : UserEvent}
    (hOther : typeOf ue ≠ some type) :
    scanOf window type (events ++ [ue]) =
      scanOf window type events := by
  unfold scanOf ofType
  rw [List.filter_append]
  simp [hOther]

theorem scanOf_same
    (window : Int) (events : List UserEvent)
    {type : Text} {ue : UserEvent}
    (hType : typeOf ue = some type) :
    scanOf window type (events ++ [ue]) =
      (scanOf window type events).feed (beyond window) ue := by
  unfold scanOf ofType scan
  rw [List.filter_append, List.foldl_append]
  simp [hType]

/- What one event writes to the list and to the map. -/
theorem Clustered.write
    {window : Int} {events : List UserEvent}
    {st st' : Clustering} {ue : UserEvent} {type : Text}
    (hClustered : Clustered window events st)
    (c : Cluster) (closes : List Cluster)
    (hType : typeOf ue = some type)
    (hCloses : ∀ c ∈ closes, c.type = some type)
    (hCluster : c.type = some type)
    (hWrites :
      st' = ⟨st.clustersList ++ closes, put st.map type c⟩)
    (hOpened :
      (scanOf window type (events ++ [ue])).opened.map
          clusterOf = some c)
    (hClosed :
      (scanOf window type (events ++ [ue])).closed.map
          clusterOf =
        (scanOf window type events).closed.map clusterOf ++
          closes) :
    Clustered window (events ++ [ue]) st' := by
  subst hWrites
  refine ⟨nodup_put type c hClustered.keys, ?_, ?_, ?_, ?_⟩
  · intro entry hEntry
    rcases mem_put hEntry with rfl | hOld
    · exact hCluster
    · exact hClustered.typed entry hOld
  · intro c' hMem
    rcases List.mem_append.mp hMem with hOld | hNew
    · exact hClustered.known c' hOld
    · exact ⟨type, hCloses c' hNew⟩
  · intro type'
    rw [lookup_put]
    by_cases hSame : type' = type
    · rw [if_pos hSame, hSame, hOpened]
    · have hOther : typeOf ue ≠ some type' := by
        rw [hType]
        exact fun hTypes =>
          hSame (Option.some.inj hTypes).symm
      rw [if_neg hSame, scanOf_other hOther]
      exact hClustered.opened type'
  · intro type'
    have hOld := hClustered.closed type'
    unfold clustersOf at hOld ⊢
    rw [List.filter_append, hOld]
    by_cases hSame : type' = type
    · subst hSame
      rw [hClosed, List.filter_eq_self.mpr]
      intro c' hMem
      exact decide_eq_true (hCloses c' hMem)
    · have hOther : typeOf ue ≠ some type' := by
        rw [hType]
        exact fun hTypes =>
          hSame (Option.some.inj hTypes).symm
      rw [scanOf_other hOther, List.filter_eq_nil_iff.mpr,
        List.append_nil]
      intro c' hMem hTypes
      have hTypes := of_decide_eq_true hTypes
      rw [hCloses c' hMem] at hTypes
      exact hSame (Option.some.inj hTypes).symm

/- One event. -/
theorem Clustered.event
    {window : Int} {events : List UserEvent}
    {st st' : Clustering} {ue : UserEvent}
    (hClustered : Clustered window events st)
    (hEvent : clusterEvent window st ue = some st') :
    Clustered window (events ++ [ue]) st' := by
  rcases Option.map_eq_some_iff.mp hEvent with
    ⟨type, hType, hWrites⟩
  have hScan := scanOf_same window events hType
  have hOpened := hClustered.opened type
  cases hScanOpened : (scanOf window type events).opened with
  | none =>
      rw [hScanOpened, Option.map_none] at hOpened
      rw [hOpened] at hWrites
      apply hClustered.write (newCluster ue) [] hType
        (fun c hc => nomatch hc) hType
      · simpa using hWrites.symm
      · rw [hScan]
        simp [Scan.feed, hScanOpened, clusterOf, newCluster,
          Window.members, lastOf]
      · rw [hScan]
        simp [Scan.feed, hScanOpened]
  | some w =>
      rw [hScanOpened, Option.map_some] at hOpened
      rw [hOpened] at hWrites
      have hWindow :
          w ∈ (scanOf window type events).windows := by
        rw [Scan.windows, hScanOpened]
        exact List.mem_append_right _ List.mem_cons_self
      have hFirst := typeOf_first hWindow
      by_cases hBeyond : beyond window w.first ue = true
      · have hTest := of_decide_eq_true hBeyond
        simp only [clusterOf, hTest, if_true] at hWrites
        apply hClustered.write (newCluster ue) [clusterOf w]
          hType
        · intro c hc
          rw [List.mem_singleton.mp hc]
          exact hFirst
        · exact hType
        · exact hWrites.symm
        · rw [hScan]
          simp [Scan.feed, hScanOpened, hBeyond, clusterOf,
            newCluster, Window.members, lastOf]
        · rw [hScan]
          simp [Scan.feed, hScanOpened, hBeyond]
      · have hTest :
            ¬ ue.timestamp >
              toInt (w.first.timestamp + window) :=
          fun hTest => hBeyond (decide_eq_true hTest)
        simp only [clusterOf, hTest, if_false] at hWrites
        apply hClustered.write
          (clusterOf ⟨w.first, w.others ++ [ue]⟩) [] hType
          (fun c hc => nomatch hc)
        · exact hFirst
        · rw [← hWrites]
          simp [clusterOf, Window.members, lastOf]
        · rw [hScan]
          simp [Scan.feed, hScanOpened, hBeyond]
        · rw [hScan]
          simp [Scan.feed, hScanOpened, hBeyond]

theorem Clustered.start (window : Int) :
    Clustered window [] ⟨[], []⟩ :=
  ⟨List.nodup_nil, fun _ hEntry => (nomatch hEntry),
    fun _ hMem => (nomatch hMem), fun _ => rfl, fun _ => rfl⟩

/- All events. -/
theorem Clustered.events
    {window : Int} {st' : Clustering} :
    ∀ {later earlier : List UserEvent} {st : Clustering},
      Clustered window earlier st →
        later.foldlM (clusterEvent window) st = some st' →
          Clustered window (earlier ++ later) st'
| [], earlier, st, hClustered, hLoop => by
    cases hLoop
    rw [List.append_nil]
    exact hClustered
| ue :: later, earlier, st, hClustered, hLoop => by
    rw [List.foldlM_cons] at hLoop
    rcases Option.bind_eq_some_iff.mp hLoop with
      ⟨st₁, hEvent, hRest⟩
    have hLast := (hClustered.event hEvent).events hRest
    rw [List.append_assoc] at hLast
    exact hLast

/- With paths that are not empty no call throws. -/
theorem exists_foldlM_clusterEvent (window : Int) :
    ∀ (events : List UserEvent) (st : Clustering),
      (∀ ue ∈ events, (typeOf ue).isSome) →
        ∃ st', events.foldlM (clusterEvent window) st = some st'
| [], st, _ => ⟨st, rfl⟩
| ue :: events, st, hPaths => by
    rcases Option.isSome_iff_exists.mp
        (hPaths ue List.mem_cons_self) with
      ⟨type, hType⟩
    rw [List.foldlM_cons, clusterEvent, hType]
    exact exists_foldlM_clusterEvent window events _
      (fun ue hMem => hPaths ue (List.mem_cons_of_mem _ hMem))

theorem exists_cluster
    (window : Int) (order : HashOrder)
    {events : List UserEvent}
    (hPaths : ∀ ue ∈ events, (typeOf ue).isSome) :
    ∃ clusters, cluster window order events = some clusters := by
  rcases exists_foldlM_clusterEvent window events ⟨[], []⟩
      hPaths with
    ⟨st, hLoop⟩
  rw [cluster, hLoop]
  exact ⟨_, rfl⟩

------------------------------------------------------------
-- The Result
------------------------------------------------------------

/- The windows that go to the result. -/
def kept (s : Scan UserEvent) : List (Window UserEvent) :=
  s.closed ++ s.opened.toList.filter (fun w => w.others ≠ [])

/- The values of a map have at most one cluster of a type. -/
theorem clustersOf_entries (type : Text) :
    ∀ {map : ClusterMap},
      (map.map Prod.fst).Nodup →
        (∀ entry ∈ map, entry.2.type = some entry.1) →
          clustersOf type (map.map Prod.snd) =
            (map.lookup type).toList
| [], _, _ => rfl
| ⟨key, c⟩ :: map, hKeys, hTyped => by
    rw [List.map_cons, List.nodup_cons] at hKeys
    have hRest :=
      clustersOf_entries type hKeys.2
        (fun entry hMem =>
          hTyped entry (List.mem_cons_of_mem _ hMem))
    have hType : c.type = some key :=
      hTyped ⟨key, c⟩ List.mem_cons_self
    unfold clustersOf at hRest ⊢
    by_cases hKey : type = key
    · subst hKey
      have hNone : map.lookup type = none := by
        rw [List.lookup_eq_none_iff]
        intro entry hMem
        rw [bne_iff_ne]
        rintro rfl
        exact hKeys.1 (List.mem_map.mpr ⟨entry, hMem, rfl⟩)
      rw [hNone] at hRest
      rw [List.map_cons, List.filter_cons_of_pos
        (by simp [hType]), hRest, List.lookup_cons_self]
      rfl
    · have hNot : (type == key) = false :=
        beq_eq_false_iff_ne.mpr hKey
      have hOther : ¬ c.type = some type := by
        rw [hType]
        exact fun hSame => hKey (Option.some.inj hSame).symm
      rw [List.map_cons, List.filter_cons_of_neg
        (by simp [hOther]), hRest, List.lookup_cons, hNot]

/- In any order there is the same one of a type. -/
theorem clustersOf_values
    (order : HashOrder) (type : Text) {map : ClusterMap}
    (hKeys : (map.map Prod.fst).Nodup)
    (hTyped : ∀ entry ∈ map, entry.2.type = some entry.1) :
    clustersOf type (order.values map) =
      (map.lookup type).toList := by
  have hPerm :
      (clustersOf type (order.values map)).Perm
        (map.lookup type).toList := by
    rw [← clustersOf_entries type hKeys hTyped]
    exact (order.perm map).filter _
  cases hLookup : map.lookup type with
  | none =>
      rw [hLookup] at hPerm
      exact hPerm.eq_nil
  | some c =>
      rw [hLookup] at hPerm
      exact List.perm_singleton.mp hPerm

/-
  The clusters of a type are its windows, without the last one
  if that has only one event.
-/
theorem clustersOf_cluster
    {window : Int} {order : HashOrder}
    {events : List UserEvent} {clusters : List Cluster}
    (hCluster : cluster window order events = some clusters) :
    (∀ type,
        clustersOf type clusters =
          (kept (scanOf window type events)).map clusterOf) ∧
      ∀ c ∈ clusters, ∃ type, c.type = some type := by
  rcases Option.map_eq_some_iff.mp hCluster with
    ⟨st, hLoop, rfl⟩
  have hClustered :=
    (Clustered.start window).events hLoop
  rw [List.nil_append] at hClustered
  constructor
  · intro type
    have hClosed := hClustered.closed type
    have hValues :=
      clustersOf_values order type hClustered.keys
        hClustered.typed
    rw [hClustered.opened type] at hValues
    unfold clustersOf at hClosed hValues ⊢
    rw [List.filter_append, hClosed, List.filter_comm, hValues,
      kept, List.map_append]
    congr 1
    cases (scanOf window type events).opened with
    | none => rfl
    | some w =>
        by_cases hAlone : w.others = []
        · simp [clusterOf, Window.members, hAlone]
        · simp [clusterOf, Window.members, hAlone]
  · intro c hMem
    rcases List.mem_append.mp hMem with hClosed | hOpened
    · exact hClustered.known c hClosed
    · have hValue :=
        (order.perm st.map).subset
          (List.mem_filter.mp hOpened).1
      rcases List.mem_map.mp hValue with ⟨entry, hEntry, rfl⟩
      exact ⟨entry.1, hClustered.typed entry hEntry⟩

theorem mem_clustersOf
    {type : Text} {clusters : List Cluster} {c : Cluster} :
    c ∈ clustersOf type clusters ↔
      c ∈ clusters ∧ c.type = some type := by
  rw [clustersOf, List.mem_filter, decide_eq_true_eq]

/- A cluster of the result is a window of its type. -/
theorem mem_cluster_iff
    {window : Int} {order : HashOrder}
    {events : List UserEvent} {clusters : List Cluster}
    (hCluster : cluster window order events = some clusters)
    (c : Cluster) :
    c ∈ clusters ↔
      ∃ type, ∃ w ∈ kept (scanOf window type events),
        clusterOf w = c := by
  rcases clustersOf_cluster hCluster with ⟨hTypes, hKnown⟩
  constructor
  · intro hMem
    rcases hKnown c hMem with ⟨type, hType⟩
    have hOfType : c ∈ clustersOf type clusters :=
      mem_clustersOf.mpr ⟨hMem, hType⟩
    rw [hTypes type] at hOfType
    exact ⟨type, List.mem_map.mp hOfType⟩
  · rintro ⟨type, hWindow⟩
    have hOfType : c ∈ clustersOf type clusters := by
      rw [hTypes type]
      exact List.mem_map.mpr hWindow
    exact (mem_clustersOf.mp hOfType).1

/-
  No cluster has a single event if and only if no event that
  opens a window is followed, as the next event of its type,
  by one beyond that window.
-/
theorem noSingles_iff
    (window : Int) (order : HashOrder)
    {events : List UserEvent}
    (hPaths : ∀ ue ∈ events, (typeOf ue).isSome) :
    ∃ clusters,
      cluster window order events = some clusters ∧
        ((∀ c ∈ clusters, 2 ≤ c.userEvents.length) ↔
          ∀ type,
            NeverAlone (beyond window)
              (ofType type events)) := by
  rcases exists_cluster window order hPaths with
    ⟨clusters, hCluster⟩
  have hSize :
      ∀ w : Window UserEvent,
        2 ≤ (clusterOf w).userEvents.length ↔ w.others ≠ [] := by
    intro w
    cases hOthers : w.others with
    | nil => simp [clusterOf, Window.members, hOthers]
    | cons ue rest => simp [clusterOf, Window.members, hOthers]
  refine ⟨_, hCluster, ?_⟩
  constructor
  · intro hPairs type
    rw [← closed_ne_nil_iff]
    intro w hClosed
    apply (hSize w).mp
    apply hPairs
    rw [mem_cluster_iff hCluster]
    exact ⟨type, w, List.mem_append_left _ hClosed, rfl⟩
  · intro hNever c hMem
    rcases (mem_cluster_iff hCluster c).mp hMem with
      ⟨type, w, hKept, rfl⟩
    rw [hSize]
    rcases List.mem_append.mp hKept with hClosed | hOpened
    · exact
        (closed_ne_nil_iff (beyond window)
          (ofType type events)).mpr (hNever type) w hClosed
    · exact of_decide_eq_true (List.mem_filter.mp hOpened).2

/- An event whose path is one element. -/
def elementAt (type : Text) (time : Int) : UserEvent :=
  ⟨createZone [⟨type⟩], time⟩

/- The values in the order of the entries. -/
def entryOrder : HashOrder where
  values map := map.map Prod.snd
  perm _ := List.Perm.refl _

/-
  Two events of a type and a later one beyond them, with an
  event of another type in between.
-/
def pairThenLate : List UserEvent :=
  [elementAt ['c'] 0, elementAt ['d'] 3, elementAt ['c'] 4,
    elementAt ['c'] 21]

theorem noSingles_pairThenLate :
    cluster 10 entryOrder pairThenLate =
        some [⟨[elementAt ['c'] 0, elementAt ['c'] 4], 0, 13⟩] ∧
      ∀ type,
        NeverAlone (beyond 10) (ofType type pairThenLate) := by
  have hPair :
      cluster 10 entryOrder pairThenLate =
        some [⟨[elementAt ['c'] 0, elementAt ['c'] 4], 0, 13⟩] := by
    decide
  rcases noSingles_iff 10 entryOrder
      (show ∀ ue ∈ pairThenLate, (typeOf ue).isSome by decide) with
    ⟨clusters, hCluster, hIff⟩
  rw [hPair] at hCluster
  cases hCluster
  exact ⟨hPair, hIff.mp (by decide)⟩

/- An event alone in its window, and a later one beyond it. -/
theorem not_noSingles_always :
    ¬ ∀ (events : List UserEvent) (clusters : List Cluster),
      (∀ ue ∈ events, (typeOf ue).isSome) →
        (events.map UserEvent.timestamp).Pairwise (· ≤ ·) →
          cluster 10 entryOrder events = some clusters →
            ∀ c ∈ clusters, 2 ≤ c.userEvents.length := by
  intro hAlways
  have hPairs :=
    hAlways [elementAt ['c'] 0, elementAt ['c'] 21]
      [⟨[elementAt ['c'] 0], 0, 9⟩] (by decide) (by decide)
      (by decide) ⟨[elementAt ['c'] 0], 0, 9⟩
      List.mem_cons_self
  exact absurd hPairs (by decide)

------------------------------------------------------------
-- Greedy Clusters
------------------------------------------------------------

/- The events that the clusters have, one after another. -/
def eventsOf (clusters : List Cluster) : List UserEvent :=
  clusters.flatMap Cluster.userEvents

/-
  The clusters are greedy windows of the events.  The last
  field says, for each type, that its clusters, and after them
  an event that is missing if there is one, are its events in
  order; and that each cluster, and the missing event, comes
  after the end of the window before.
-/
structure GreedyClusters
    (window : Int) (events : List UserEvent)
    (clusters : List Cluster) : Prop where
  consecutive :
    ∀ c ∈ clusters,
      ∃ type, c.userEvents <:+: ofType type events
  bounds :
    ∀ c ∈ clusters,
      (c.userEvents.head?.map UserEvent.timestamp =
          some c.startTimestamp ∧
        c.userEvents.getLast?.map
            (fun ue => ue.timestamp + 9) =
          some c.endTimestamp) ∧
        ∀ ue ∈ c.userEvents,
          c.startTimestamp ≤ ue.timestamp ∧
            ue.timestamp ≤ c.startTimestamp + window
  once :
    ∀ ue, (eventsOf clusters).count ue ≤ events.count ue
  complete :
    ∀ type, ∃ missing : List UserEvent,
      eventsOf (clustersOf type clusters) ++ missing =
          ofType type events ∧
        missing.length ≤ 1 ∧
          ((clustersOf type clusters).map
                Cluster.startTimestamp ++
              missing.map UserEvent.timestamp).IsChain
            (fun time time' => time + window < time')

/- Timestamps from which windows and ends are computed. -/
structure InRange (window : Int) (ue : UserEvent) : Prop where
  window : IsInt (ue.timestamp + window)
  last : IsInt (ue.timestamp + 9)

instance (window : Int) (ue : UserEvent) :
    Decidable (InRange window ue) :=
  decidable_of_iff
    (IsInt (ue.timestamp + window) ∧ IsInt (ue.timestamp + 9))
    ⟨fun h => ⟨h.1, h.2⟩, fun h => ⟨h.1, h.2⟩⟩

theorem beyond_iff
    {window : Int} {first : UserEvent}
    (hRange : InRange window first) (ue : UserEvent) :
    beyond window first ue = true ↔
      first.timestamp + window < ue.timestamp := by
  rw [beyond, decide_eq_true_eq, toInt_of_isInt hRange.window]

theorem getLast?_members (w : Window UserEvent) :
    w.members.getLast? = some (lastOf w) := by
  rw [Window.members, lastOf, List.getLast?_cons]
  cases w.others <;> simp

section Greedy

variable {window : Int} {events : List UserEvent}
variable {type : Text}

/- A window lies in the events of its type. -/
theorem members_consecutive
    {w : Window UserEvent}
    (hWindow : w ∈ (scanOf window type events).windows) :
    w.members <:+: ofType type events := by
  rcases List.append_of_mem hWindow with ⟨before, after, hSplit⟩
  have hMembers :=
    (greedy_scan (beyond window) (ofType type events)).members
  unfold scanOf at hSplit
  rw [hSplit, List.flatMap_append, List.flatMap_cons]
    at hMembers
  rw [← hMembers]
  exact ⟨before.flatMap Window.members,
    after.flatMap Window.members, by simp⟩

theorem mem_windows_of_kept
    {w : Window UserEvent}
    (hKept : w ∈ kept (scanOf window type events)) :
    w ∈ (scanOf window type events).windows := by
  rcases List.mem_append.mp hKept with hClosed | hOpened
  · exact List.mem_append_left _ hClosed
  · exact List.mem_append_right _ (List.mem_filter.mp hOpened).1

/- The kept windows, and the event that is missing. -/
theorem kept_split (s : Scan UserEvent) :
    ∃ missing : List UserEvent,
      missing.length ≤ 1 ∧
        (kept s).flatMap Window.members ++ missing =
            s.windows.flatMap Window.members ∧
          (kept s).map Window.first ++ missing =
            s.windows.map Window.first := by
  unfold kept Scan.windows
  cases s.opened with
  | none => exact ⟨[], by simp, by simp, by simp⟩
  | some w =>
      by_cases hAlone : w.others = []
      · refine ⟨[w.first], by simp, ?_, ?_⟩
        · simp [hAlone, Window.members]
        · simp [hAlone]
      · exact ⟨[], by simp, by simp [hAlone], by simp [hAlone]⟩

/- A window in order has its events from its first one on. -/
theorem bounds_of_window
    (hWindow : 0 ≤ window)
    (hSorted :
      (events.map UserEvent.timestamp).Pairwise (· ≤ ·))
    (hRange : ∀ ue ∈ events, InRange window ue)
    {w : Window UserEvent}
    (hMem : w ∈ (scanOf window type events).windows) :
    ∀ ue ∈ w.members,
      w.first.timestamp ≤ ue.timestamp ∧
        ue.timestamp ≤ w.first.timestamp + window := by
  have hInfix := members_consecutive hMem
  have hMembersSorted :
      w.members.Pairwise
        (fun ue ue' => ue.timestamp ≤ ue'.timestamp) := by
    rw [List.pairwise_map] at hSorted
    exact (hSorted.sublist List.filter_sublist).sublist
      hInfix.sublist
  have hFirst : w.first ∈ events :=
    (mem_ofType.mp (hInfix.subset List.mem_cons_self)).1
  have hWithin :=
    (greedy_scan (beyond window) (ofType type events)).within
      w hMem
  intro ue hUe
  rcases List.mem_cons.mp hUe with rfl | hOther
  · omega
  · have hLe := (List.pairwise_cons.mp hMembersSorted).1 ue hOther
    have hNot :
        ¬ w.first.timestamp + window < ue.timestamp := by
      rw [← beyond_iff (hRange w.first hFirst),
        hWithin ue hOther]
      exact Bool.false_ne_true
    exact ⟨hLe, by omega⟩

/- The events of a window have the type of its cluster. -/
theorem type_of_mem_members
    {w : Window UserEvent}
    (hMem : w ∈ (scanOf window type events).windows)
    {ue : UserEvent} (hUe : ue ∈ w.members) :
    (clusterOf w).type = typeOf ue := by
  rw [type_clusterOf, typeOf_first hMem]
  exact (mem_ofType.mp ((members_consecutive hMem).subset hUe)).2.symm

end Greedy

/- Clusters of another type do not have an event. -/
theorem count_eventsOf
    {ue : UserEvent} {type : Text}
    (hType : typeOf ue = some type) :
    ∀ {clusters : List Cluster},
      (∀ c ∈ clusters,
        ue ∈ c.userEvents → c.type = typeOf ue) →
        (eventsOf clusters).count ue =
          (eventsOf (clustersOf type clusters)).count ue
| [], _ => rfl
| c :: clusters, hTypes => by
    have hRest :=
      count_eventsOf hType
        (fun c' hMem => hTypes c' (List.mem_cons_of_mem _ hMem))
    unfold eventsOf clustersOf at hRest ⊢
    rw [List.flatMap_cons, List.count_append, hRest]
    by_cases hSame : c.type = some type
    · rw [List.filter_cons_of_pos (by simp [hSame]),
        List.flatMap_cons, List.count_append]
    · have hNone : ue ∉ c.userEvents := by
        intro hMem
        rw [← hType] at hSame
        exact hSame (hTypes c List.mem_cons_self hMem)
      rw [List.filter_cons_of_neg (by simp [hSame]),
        List.count_eq_zero_of_not_mem hNone, Nat.zero_add]

section Result

variable {window : Int} {order : HashOrder}
variable {events : List UserEvent} {clusters : List Cluster}

/- For each type at most one event is missing, the last one. -/
theorem complete_of_cluster
    (hCluster : cluster window order events = some clusters)
    (hRange : ∀ ue ∈ events, InRange window ue)
    (type : Text) :
    ∃ missing : List UserEvent,
      eventsOf (clustersOf type clusters) ++ missing =
          ofType type events ∧
        missing.length ≤ 1 ∧
          ((clustersOf type clusters).map
                Cluster.startTimestamp ++
              missing.map UserEvent.timestamp).IsChain
            (fun time time' => time + window < time') := by
  have hTypes := (clustersOf_cluster hCluster).1
  have hGreedy :=
    greedy_scan (beyond window) (ofType type events)
  rcases kept_split (scanOf window type events) with
    ⟨missing, hLength, hMembers, hFirsts⟩
  refine ⟨missing, ?_, hLength, ?_⟩
  · rw [hTypes type, eventsOf, List.flatMap_map]
    exact hMembers.trans hGreedy.members
  · have hStarts :
        (clustersOf type clusters).map
              Cluster.startTimestamp ++
            missing.map UserEvent.timestamp =
          ((scanOf window type events).windows.map
            Window.first).map UserEvent.timestamp := by
      rw [hTypes type, ← hFirsts, List.map_append,
        List.map_map, List.map_map]
      rfl
    rw [hStarts, List.isChain_map]
    refine hGreedy.apart.imp_of_mem_imp ?_
    intro first ue hFirst _ hBeyond
    rcases List.mem_map.mp hFirst with ⟨w, hMem, rfl⟩
    have hEvent : w.first ∈ events :=
      (mem_ofType.mp
        ((members_consecutive hMem).subset List.mem_cons_self)).1
    exact (beyond_iff (hRange w.first hEvent) ue).mp hBeyond

/- An event of a cluster has the type of the cluster. -/
theorem type_of_mem_cluster
    (hCluster : cluster window order events = some clusters)
    {c : Cluster} {ue : UserEvent}
    (hMem : c ∈ clusters) (hUe : ue ∈ c.userEvents) :
    c.type = typeOf ue ∧ (typeOf ue).isSome := by
  rcases (mem_cluster_iff hCluster c).mp hMem with
    ⟨type, w, hKept, rfl⟩
  have hWindow := mem_windows_of_kept hKept
  have hType := type_of_mem_members hWindow hUe
  refine ⟨hType, ?_⟩
  rw [← hType, type_clusterOf, typeOf_first hWindow]
  rfl

/- No event is in the clusters more often than it is given. -/
theorem count_cluster_le
    (hCluster : cluster window order events = some clusters)
    (hRange : ∀ ue ∈ events, InRange window ue)
    (ue : UserEvent) :
    (eventsOf clusters).count ue ≤ events.count ue := by
  cases hType : typeOf ue with
  | none =>
      have hNone : ue ∉ eventsOf clusters := by
        intro hUe
        rcases List.mem_flatMap.mp hUe with ⟨c, hMem, hUe⟩
        have hSome := (type_of_mem_cluster hCluster hMem hUe).2
        rw [hType] at hSome
        cases hSome
      rw [List.count_eq_zero_of_not_mem hNone]
      exact Nat.zero_le _
  | some type =>
      rcases complete_of_cluster hCluster hRange type with
        ⟨missing, hEvents, _, _⟩
      rw [count_eventsOf hType
        (fun c hMem hUe =>
          (type_of_mem_cluster hCluster hMem hUe).1)]
      calc
        (eventsOf (clustersOf type clusters)).count ue
          ≤ (eventsOf (clustersOf type clusters) ++
              missing).count ue := by
            rw [List.count_append]
            exact Nat.le_add_right _ _
        _ = (ofType type events).count ue := by rw [hEvents]
        _ ≤ events.count ue :=
            List.filter_sublist.count_le ue

end Result

/-
  Of events in order, with paths that are not empty and with
  timestamps in range, the clusters are the greedy windows.
-/
theorem greedyClusters_of_cluster
    {window : Int} (order : HashOrder)
    {events : List UserEvent}
    (hWindow : 0 ≤ window)
    (hPaths : ∀ ue ∈ events, (typeOf ue).isSome)
    (hSorted :
      (events.map UserEvent.timestamp).Pairwise (· ≤ ·))
    (hRange : ∀ ue ∈ events, InRange window ue) :
    ∃ clusters,
      cluster window order events = some clusters ∧
        GreedyClusters window events clusters := by
  rcases exists_cluster window order hPaths with
    ⟨clusters, hCluster⟩
  refine ⟨clusters, hCluster, ?_, ?_,
    count_cluster_le hCluster hRange,
    complete_of_cluster hCluster hRange⟩
  · intro c hMem
    rcases (mem_cluster_iff hCluster c).mp hMem with
      ⟨type, w, hKept, rfl⟩
    exact ⟨type, members_consecutive (mem_windows_of_kept hKept)⟩
  · intro c hMem
    rcases (mem_cluster_iff hCluster c).mp hMem with
      ⟨type, w, hKept, rfl⟩
    have hWindow' := mem_windows_of_kept hKept
    refine ⟨⟨rfl, ?_⟩,
      bounds_of_window hWindow hSorted hRange hWindow'⟩
    have hLast : lastOf w ∈ w.members :=
      List.mem_of_getLast? (getLast?_members w)
    have hEvent : lastOf w ∈ events :=
      (mem_ofType.mp
        ((members_consecutive hWindow').subset hLast)).1
    simp only [clusterOf, getLast?_members, Option.map_some,
      toInt_of_isInt (hRange (lastOf w) hEvent).last]

/- A cluster of two events, and two events that are alone. -/
theorem greedyClusters_fourEvents :
    ∃ clusters,
      cluster 10 entryOrder
          [elementAt ['c'] 0, elementAt ['i'] 3,
            elementAt ['c'] 4, elementAt ['c'] 21] =
          some clusters ∧
        GreedyClusters 10
          [elementAt ['c'] 0, elementAt ['i'] 3,
            elementAt ['c'] 4, elementAt ['c'] 21] clusters :=
  greedyClusters_of_cluster entryOrder (by decide) (by decide)
    (by decide) (by decide)

end TaskClusters

end ProgrammingTasks
