import DeepScope.Files.Tree
import DeepScope.Proofs.Files.Path

namespace DeepScope.FileTree

variable {tree before after : FileTree} {place other : Location} {path : String}

theorem lookup_root (tree : FileTree) : tree.lookup [] = some .directory := if_pos rfl

theorem lookup_filter_ne {entries : List (Location × Node)} (h : other ≠ place) :
    (entries.filter fun entry => entry.1 ≠ place).lookup other = entries.lookup other := by
  induction entries with
  | nil => rfl
  | cons entry rest ih =>
    obtain ⟨key, value⟩ := entry
    by_cases hkey : key = place
    · rw [List.filter_cons_of_neg (by simp [hkey]), ih, List.lookup_cons, hkey,
        beq_eq_false_iff_ne.2 h]
    · rw [List.filter_cons_of_pos (by simp [hkey]), List.lookup_cons, List.lookup_cons, ih]

/-- Putting something at a place changes what stands there, and nothing else. -/
theorem lookup_insert (node : Node) (hne : place ≠ []) :
    (tree.insert place node).lookup other = if other = place then some node else tree.lookup other := by
  unfold lookup insert
  by_cases hsame : other = place
  · subst hsame
    rw [if_neg hne, if_pos rfl, List.lookup_cons_self]
  · rw [List.lookup_cons, beq_eq_false_iff_ne.2 hsame, if_neg hsame]
    dsimp only
    rw [lookup_filter_ne hsame]

/-- Where a path starts from depends on the start directory only. -/
theorem origin_congr (h : after.start = before.start) (segments : List (List Char)) :
    after.origin segments = before.origin segments := by
  unfold origin
  split
  · rfl
  · exact h

/-- The trees are looked at from the same directory, and the same places are
    directories in both of them. -/
structure SameDirectories (before after : FileTree) : Prop where
  start_eq : after.start = before.start
  lookup_iff : ∀ place, after.lookup place = some .directory ↔ before.lookup place = some .directory

namespace SameDirectories

theorem refl (tree : FileTree) : SameDirectories tree tree := ⟨rfl, fun _ => Iff.rfl⟩

theorem symm (h : SameDirectories before after) : SameDirectories after before :=
  ⟨h.start_eq.symm, fun place => (h.lookup_iff place).symm⟩

theorem trans {middle : FileTree} (h : SameDirectories before middle)
    (h' : SameDirectories middle after) : SameDirectories before after :=
  ⟨h'.start_eq.trans h.start_eq, fun place => (h'.lookup_iff place).trans (h.lookup_iff place)⟩

/-- A file takes the place of no directory. -/
theorem insert (bytes : Bytes) (h : tree.lookup place ≠ some .directory) :
    SameDirectories tree (tree.insert place (.file bytes)) := by
  refine ⟨rfl, fun other => ?_⟩
  have hne : place ≠ [] := fun hroot => h (hroot ▸ tree.lookup_root)
  rw [lookup_insert _ hne]
  split
  · next hsame =>
    rw [hsame]
    exact ⟨nofun, fun hdirectory => absurd hdirectory h⟩
  · rfl

end SameDirectories

theorem follow_cons_eq_ok {segment : List Char} {rest : List (List Char)} :
    tree.follow place (segment :: rest) = .ok other ↔ tree.lookup place = some .directory ∧
      ∃ next, enter place segment = .ok next ∧ tree.follow next rest = .ok other := by
  rw [follow]
  split
  · next hnone => simp [hnone]
  · next hfile => simp [hfile]
  · next hdirectory =>
    rw [hdirectory]
    cases enter place segment <;> simp

theorem enter_of_isVoid {segment : List Char} (h : Path.isVoid segment = true) :
    enter place segment = .ok place := if_pos h

theorem follow_append_eq_ok {front back : List (List Char)} :
    tree.follow place (front ++ back) = .ok other ↔
      ∃ middle, tree.follow place front = .ok middle ∧ tree.follow middle back = .ok other := by
  induction front generalizing place with
  | nil => simp [follow]
  | cons segment front ih =>
    simp only [List.cons_append, follow_cons_eq_ok, ih]
    constructor
    · rintro ⟨hdirectory, next, henter, middle, hfront, hback⟩
      exact ⟨middle, ⟨hdirectory, next, henter, hfront⟩, hback⟩
    · rintro ⟨middle, ⟨hdirectory, next, henter, hfront⟩, hback⟩
      exact ⟨hdirectory, next, henter, middle, hfront, hback⟩

theorem follow_of_isVoid {segments : List (List Char)}
    (hvoid : ∀ segment ∈ segments, Path.isVoid segment = true)
    (h : tree.follow place segments = .ok other) : other = place := by
  induction segments with
  | nil =>
    cases h
    rfl
  | cons segment segments ih =>
    obtain ⟨-, next, henter, hrest⟩ := follow_cons_eq_ok.1 h
    rw [enter_of_isVoid (hvoid segment List.mem_cons_self)] at henter
    cases henter
    exact ih (fun s hs => hvoid s (List.mem_cons_of_mem segment hs)) hrest

namespace SameDirectories

theorem follow {segments : List (List Char)} (h : SameDirectories before after)
    (hfollow : before.follow place segments = .ok other) :
    after.follow place segments = .ok other := by
  induction segments generalizing place with
  | nil => exact hfollow
  | cons segment segments ih =>
    obtain ⟨hdirectory, next, henter, hrest⟩ := follow_cons_eq_ok.1 hfollow
    exact follow_cons_eq_ok.2 ⟨(h.lookup_iff place).2 hdirectory, next, henter, ih hrest⟩

end SameDirectories

/-- A path leads somewhere by its segments, unless there is something wrong with the
    path itself. -/
theorem resolve_eq_ok_iff : tree.resolve path = .ok place ↔
    (path.toList.contains '\x00' = false ∧ path.utf8ByteSize ≤ pathLimit ∧ path.isEmpty = false) ∧
      tree.follow (tree.origin (Path.segments path)) (Path.segments path) = .ok place := by
  unfold resolve
  split
  · next hnul => exact iff_of_false nofun fun h => Bool.false_ne_true (h.1.1.symm.trans hnul)
  · next hnul =>
    split
    · next hlong => exact iff_of_false nofun fun h => Nat.not_le.2 hlong h.1.2.1
    · next hshort =>
      split
      · next hempty => exact iff_of_false nofun fun h => Bool.false_ne_true (h.1.2.2.symm.trans hempty)
      · next hpath =>
        exact (and_iff_right ⟨by simpa using hnul, Nat.le_of_not_lt hshort, by simpa using hpath⟩).symm

/-- Paths lead to the same places. -/
theorem SameDirectories.resolve_eq_ok (h : SameDirectories before after) :
    after.resolve path = .ok place ↔ before.resolve path = .ok place := by
  rw [resolve_eq_ok_iff, resolve_eq_ok_iff, origin_congr h.start_eq]
  exact and_congr_right fun _ => ⟨h.symm.follow, h.follow⟩

/-- How a path begins is told by its first segment. -/
theorem origin_append {front : List (List Char)} (hne : front ≠ []) (back other : List (List Char)) :
    tree.origin (front ++ back) = tree.origin (front ++ other) := by
  cases front with
  | nil => exact absurd rfl hne
  | cons first rest => cases first <;> rfl

theorem origin_of_not_isVoid {segment : List Char} (h : Path.isVoid segment = false)
    (rest : List (List Char)) : tree.origin (segment :: rest) = tree.start := by
  cases segment with
  | nil => cases h
  | cons => rfl

theorem read_eq_ok {bytes : Bytes} :
    tree.read path = .ok bytes ↔
      ∃ place, tree.resolve path = .ok place ∧ tree.lookup place = some (.file bytes) := by
  unfold read
  cases tree.resolve path with
  | error reason => simp [bind, Except.bind]
  | ok place =>
    simp only [bind, Except.bind, Except.ok.injEq, exists_eq_left']
    cases tree.lookup place with
    | none => simp [throw, throwThe, MonadExceptOf.throw]
    | some node => cases node <;> simp [throw, throwThe, MonadExceptOf.throw, pure, Except.pure]

theorem write_eq_ok {bytes : Bytes} :
    tree.write path bytes = .ok after ↔ ∃ place, tree.resolve path = .ok place ∧
      tree.lookup place ≠ some .directory ∧ after = tree.insert place (.file bytes) := by
  unfold write
  cases tree.resolve path with
  | error reason => simp [bind, Except.bind]
  | ok place =>
    simp only [bind, Except.bind, Except.ok.injEq, exists_eq_left']
    split
    · next hdirectory => simp [hdirectory, throw, throwThe, MonadExceptOf.throw]
    · next hother =>
      have hne : tree.lookup place ≠ some .directory := hother
      simp [hne, pure, Except.pure, eq_comm]

/-- The changes are those of what stands at a place, whatever else the entries
    hold. -/
theorem mem_changesSince {change : List String × Bytes} :
    change ∈ tree.changesSince before ↔ ∃ place bytes, change = (tree.address place, bytes) ∧
      tree.lookup place = some (.file bytes) ∧ before.lookup place ≠ some (.file bytes) := by
  unfold changesSince
  rw [List.mem_filterMap]
  constructor
  · rintro ⟨⟨place, node⟩, -, hchange⟩
    dsimp only at hchange
    split at hchange
    · next bytes hlookup =>
      split at hchange
      · cases hchange
      · next hnew => exact ⟨place, bytes, (Option.some.inj hchange).symm, hlookup, hnew⟩
    · cases hchange
  · rintro ⟨place, bytes, rfl, hlookup, hnew⟩
    have hentry : tree.entries.lookup place = some (.file bytes) := by
      rw [lookup] at hlookup
      split at hlookup
      · cases hlookup
      · exact hlookup
    obtain ⟨front, back, hentries, -⟩ := List.lookup_eq_some_iff.1 hentry
    refine ⟨(place, .file bytes), by simp [hentries], ?_⟩
    dsimp only
    rw [hlookup]
    exact if_neg hnew

section

variable {names : List String}

/-- Where a directory is, one stays. -/
theorem lookup_makeDirectories_of_directory (h : tree.lookup other = some .directory) :
    (tree.makeDirectories place names).lookup other = some .directory := by
  induction names generalizing tree place with
  | nil => exact h
  | cons name rest ih =>
    refine ih ?_
    rw [lookup_insert _ (by simp)]
    split
    · rfl
    · exact h

/-- There is a directory at every place on the way down. -/
theorem lookup_makeDirectories {front : List String} (h : tree.lookup place = some .directory)
    (hfront : front <+: names) :
    (tree.makeDirectories place names).lookup (place ++ front) = some .directory := by
  induction names generalizing tree place front with
  | nil =>
    rw [List.prefix_nil.1 hfront, List.append_nil]
    exact h
  | cons name rest ih =>
    cases front with
    | nil =>
      rw [List.append_nil]
      exact lookup_makeDirectories_of_directory h
    | cons first front =>
      obtain ⟨rfl, hrest⟩ := List.cons_prefix_cons.1 hfront
      have hfirst : (tree.insert (place ++ [first]) .directory).lookup (place ++ [first]) =
          some .directory := by
        rw [lookup_insert _ (by simp), if_pos rfl]
      rw [List.append_cons]
      exact ih hfirst hrest

theorem start_makeDirectories : (tree.makeDirectories place names).start = tree.start := by
  induction names generalizing tree place with
  | nil => rfl
  | cons name rest ih => exact ih

end

/-- Segments that only lead down lead to the place that they name, if there are
    directories on the way. -/
theorem follow_of_directories {segments : List (List Char)}
    (hdown : ∀ segment ∈ segments, segment ≠ ['.', '.'] ∧ isTooLong segment = false)
    (hdirectories : ∀ front back, back ≠ [] → segments = front ++ back →
      tree.lookup (place ++ Path.names front) = some .directory) :
    tree.follow place segments = .ok (place ++ Path.names segments) := by
  induction segments generalizing place with
  | nil => rw [follow, Path.names, List.filter_nil, List.map_nil, List.append_nil]
  | cons segment rest ih =>
    obtain ⟨hup, hshort⟩ := hdown segment List.mem_cons_self
    have henter : enter place segment = .ok (place ++ Path.names [segment]) := by
      unfold enter Path.names
      cases hvoid : Path.isVoid segment with
      | true => simp [hvoid]
      | false => simp [hvoid, hup, hshort]
    have hnames : ∀ front, Path.names [segment] ++ Path.names front = Path.names (segment :: front) :=
      fun front => (Path.names_append [segment] front).symm
    refine follow_cons_eq_ok.2 ⟨?_, _, henter, ?_⟩
    · simpa [Path.names] using hdirectories [] (segment :: rest) (by simp) rfl
    · rw [← hnames rest, ← List.append_assoc]
      refine ih (fun s hs => hdown s (List.mem_cons_of_mem segment hs)) fun front back hback hrest => ?_
      rw [List.append_assoc, hnames front]
      exact hdirectories (segment :: front) back hback (by rw [hrest]; rfl)

/-- What is put at a path is read at that path, if the path has a name at its end and
    only leads down. -/
theorem read_addFile {front : List (List Char)} {name : List Char} (bytes : Bytes)
    (hsegments : Path.segments path = front ++ [name]) (hname : Path.isVoid name = false)
    (hdown : ∀ segment ∈ Path.segments path, segment ≠ ['.', '.'] ∧ isTooLong segment = false)
    (hnul : path.toList.contains '\x00' = false) (hlength : path.utf8ByteSize ≤ pathLimit) :
    (tree.addFile path bytes).read path = .ok bytes := by
  have hnonempty : path.isEmpty = false := by
    refine Bool.eq_false_iff.2 fun hempty => ?_
    rw [String.isEmpty_iff.1 hempty] at hsegments
    have hlast := (List.append_inj' (show [] ++ [[]] = front ++ [name] from hsegments) rfl).2
    rw [← List.singleton_inj.1 hlast] at hname
    cases hname
  have hplace : tree.placeOf path =
      tree.origin (Path.segments path) ++ Path.names front ++ [String.ofList name] := by
    rw [placeOf, hsegments, Path.names_append, List.append_assoc]
    simp [Path.names, hname]
  have hne : tree.placeOf path ≠ [] := by simp [hplace]
  have hlookup : ∀ other, (tree.addFile path bytes).lookup other =
      if other = tree.placeOf path then some (.file bytes)
      else (tree.makeDirectories [] (tree.placeOf path).dropLast).lookup other :=
    fun other => lookup_insert _ hne
  have hstart : (tree.addFile path bytes).start = tree.start := start_makeDirectories
  refine read_eq_ok.2 ⟨tree.placeOf path, resolve_eq_ok_iff.2
    ⟨⟨hnul, hlength, hnonempty⟩, ?_⟩, by simp [hlookup]⟩
  rw [origin_congr hstart]
  refine follow_of_directories hdown fun before behind hbehind hsplit => ?_
  -- What stands in front of the last segment names directories that were made.
  have hbefore : before <+: front := by
    obtain ⟨rest, last, rfl⟩ := List.eq_nil_or_concat behind |>.resolve_left hbehind
    rw [hsegments, List.concat_eq_append, ← List.append_assoc] at hsplit
    exact ⟨rest, (List.append_inj' hsplit rfl).1.symm⟩
  obtain ⟨between, rfl⟩ := hbefore
  rw [Path.names_append] at hplace
  rw [hlookup, if_neg (by simp [hplace]), hplace, List.dropLast_concat]
  have hprefix : tree.origin (Path.segments path) ++ Path.names before <+:
      tree.origin (Path.segments path) ++ (Path.names before ++ Path.names between) :=
    ⟨Path.names between, by rw [List.append_assoc]⟩
  exact lookup_makeDirectories tree.lookup_root hprefix

end DeepScope.FileTree
