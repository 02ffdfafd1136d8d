import DeepScope.Batch.Transform
import DeepScope.Proofs.Files.Tree

/-!
Writing several files, one after the other. No file that is written stands in the way of another,
so what is written where can be told from the tree as it was before.
-/

namespace DeepScope.FileTree

variable {tree before after : FileTree} {place : Location} {writes : List (Location × Bytes)}
  {files : List (String × String)}

/-- Puts files at places, one after the other. -/
def put (tree : FileTree) (writes : List (Location × Bytes)) : FileTree :=
  writes.foldl (fun tree write => tree.insert write.1 (.file write.2)) tree

theorem put_append (tree : FileTree) (first second : List (Location × Bytes)) :
    tree.put (first ++ second) = (tree.put first).put second :=
  List.foldl_append

/-- None of the places is a directory. -/
def Vacates (tree : FileTree) (writes : List (Location × Bytes)) : Prop :=
  ∀ write ∈ writes, tree.lookup write.1 ≠ some .directory

/-- Files for the same place are the same. -/
def Agrees (writes : List (Location × Bytes)) : Prop :=
  ∀ first ∈ writes, ∀ second ∈ writes, first.1 = second.1 → first.2 = second.2

theorem SameDirectories.vacates (h : SameDirectories before after) (hvacates : before.Vacates writes) :
    after.Vacates writes := fun write hwrite hdirectory =>
  hvacates write hwrite ((h.lookup_iff write.1).1 hdirectory)

theorem Vacates.ne_root (h : tree.Vacates writes) {write : Location × Bytes} (hwrite : write ∈ writes) :
    write.1 ≠ [] := fun hroot =>
  h write hwrite (hroot ▸ tree.lookup_root)

theorem Vacates.sameDirectories_put (h : tree.Vacates writes) :
    SameDirectories tree (tree.put writes) := by
  induction writes generalizing tree with
  | nil => exact .refl tree
  | cons write rest ih =>
    have hinsert := SameDirectories.insert write.2 (h write List.mem_cons_self)
    exact hinsert.trans (ih (hinsert.vacates fun w hw => h w (List.mem_cons_of_mem write hw)))

/-- Where no file is put nothing changes. -/
theorem Vacates.lookup_put_of_forall_ne (h : tree.Vacates writes) (hplace : ∀ write ∈ writes, write.1 ≠ place) :
    (tree.put writes).lookup place = tree.lookup place := by
  induction writes generalizing tree with
  | nil => rfl
  | cons write rest ih =>
    have hinsert := SameDirectories.insert write.2 (h write List.mem_cons_self)
    have hrest := ih (hinsert.vacates fun w hw => h w (List.mem_cons_of_mem write hw))
      fun w hw => hplace w (List.mem_cons_of_mem write hw)
    rw [put, List.foldl_cons, ← put, hrest, lookup_insert _ (h.ne_root List.mem_cons_self),
      if_neg (hplace write List.mem_cons_self).symm]

/-- Where a file is put it stands, if no other one is put there. -/
theorem Vacates.lookup_put_of_mem (h : tree.Vacates writes) (hagrees : Agrees writes)
    {write : Location × Bytes} (hwrite : write ∈ writes) :
    (tree.put writes).lookup write.1 = some (.file write.2) := by
  induction writes generalizing tree write with
  | nil => cases hwrite
  | cons first rest ih =>
    have hinsert := SameDirectories.insert first.2 (h first List.mem_cons_self)
    have hrest : (tree.insert first.1 (.file first.2)).Vacates rest :=
      hinsert.vacates fun w hw => h w (List.mem_cons_of_mem first hw)
    rw [put, List.foldl_cons, ← put]
    by_cases hmem : ∃ other ∈ rest, other.1 = write.1
    · obtain ⟨other, hother, hplace⟩ := hmem
      have hsame := hagrees other (List.mem_cons_of_mem first hother) write hwrite hplace
      rw [← hplace, ← hsame]
      exact ih hrest (fun a ha b hb => hagrees a (List.mem_cons_of_mem first ha) b
        (List.mem_cons_of_mem first hb)) hother
    · have hfirst : write = first := by
        rcases List.mem_cons.1 hwrite with heq | hmemRest
        · exact heq
        · exact absurd ⟨write, hmemRest, rfl⟩ hmem
      rw [hrest.lookup_put_of_forall_ne fun other hother hplace => hmem ⟨other, hother, hplace⟩,
        hfirst, lookup_insert _ (h.ne_root List.mem_cons_self), if_pos rfl]

/-- What is read at a path stays the same if no file is put where it leads. -/
theorem Vacates.read_put {path : String} {bytes : Bytes} (h : tree.Vacates writes)
    (hpath : ∀ write ∈ writes, tree.resolve path ≠ .ok write.1) :
    (tree.put writes).read path = .ok bytes ↔ tree.read path = .ok bytes := by
  simp only [read_eq_ok, h.sameDirectories_put.resolve_eq_ok]
  refine exists_congr fun place => and_congr_right fun hresolve => ?_
  rw [h.lookup_put_of_forall_ne fun write hwrite heq => hpath write hwrite (heq ▸ hresolve)]

/-- The order in which files are put makes no difference, as long as those for
    the same place are the same. -/
theorem Vacates.lookup_put_perm (h : tree.Vacates writes) (hagrees : Agrees writes)
    {others : List (Location × Bytes)} (hperm : writes.Perm others) (place : Location) :
    (tree.put others).lookup place = (tree.put writes).lookup place := by
  have hothers : tree.Vacates others := fun write hwrite => h write (hperm.mem_iff.2 hwrite)
  have hagrees' : Agrees others := fun a ha b hb =>
    hagrees a (hperm.mem_iff.2 ha) b (hperm.mem_iff.2 hb)
  by_cases hmem : ∃ write ∈ writes, write.1 = place
  · obtain ⟨write, hwrite, rfl⟩ := hmem
    rw [h.lookup_put_of_mem hagrees hwrite,
      hothers.lookup_put_of_mem hagrees' (hperm.mem_iff.1 hwrite)]
  · have hnone : ∀ write ∈ writes, write.1 ≠ place := fun write hwrite hplace =>
      hmem ⟨write, hwrite, hplace⟩
    rw [h.lookup_put_of_forall_ne hnone,
      hothers.lookup_put_of_forall_ne fun write hwrite => hnone write (hperm.mem_iff.2 hwrite)]

/-- The bytes of a text. -/
def textBytes (text : String) : Bytes :=
  Utf8.encode text.toList

/-- What writing texts at paths puts where, up to the first that cannot be
    written. -/
def writesOf (tree : FileTree) : List (String × String) → List (Location × Bytes)
  | [] => []
  | (path, text) :: rest =>
    match tree.resolve path with
    | .error _ => []
    | .ok place =>
      if tree.lookup place = some .directory then []
      else (place, textBytes text) :: tree.writesOf rest

/-- Writes texts at paths, up to the first that cannot be written. -/
def writeAll (tree : FileTree) : List (String × String) → Except FileError Unit × FileTree
  | [] => (.ok (), tree)
  | (path, text) :: rest =>
    match tree.write path (textBytes text) with
    | .error reason => (.error (.unwritable path reason), tree)
    | .ok tree => tree.writeAll rest

theorem vacates_writesOf (tree : FileTree) (files : List (String × String)) :
    tree.Vacates (tree.writesOf files) := by
  fun_induction writesOf tree files with
  | case1 | case2 | case3 => exact nofun
  | case4 path text rest place _ hplace ih => exact List.forall_mem_cons.2 ⟨hplace, ih⟩

theorem SameDirectories.writesOf_eq (h : SameDirectories before after) (files : List (String × String)) :
    after.writesOf files = before.writesOf files := by
  induction files with
  | nil => rfl
  | cons file rest ih =>
    obtain ⟨path, text⟩ := file
    rw [writesOf, writesOf]
    cases hbefore : before.resolve path with
    | error reason =>
      cases hafter : after.resolve path with
      | error reason' => rfl
      | ok place =>
        rw [h.resolve_eq_ok.1 hafter] at hbefore
        cases hbefore
    | ok place =>
      rw [h.resolve_eq_ok.2 hbefore]
      simp only [h.lookup_iff place, ih]

/-- What is put somewhere is the text of a path that leads there, and something is
    put where the paths in front of it lead. -/
theorem exists_of_mem_writesOf {write : Location × Bytes} (h : write ∈ tree.writesOf files) :
    ∃ front path text back, files = front ++ (path, text) :: back ∧
      (∀ file ∈ front, ∃ other ∈ tree.writesOf files, tree.resolve file.1 = .ok other.1) ∧
      tree.resolve path = .ok write.1 ∧ write.2 = textBytes text := by
  fun_induction writesOf tree files with
  | case1 | case2 | case3 => cases h
  | case4 path text rest place hresolve _ ih =>
    rcases List.mem_cons.1 h with rfl | h
    · exact ⟨[], path, text, rest, rfl, nofun, hresolve, rfl⟩
    · obtain ⟨front, other, content, back, rfl, hfront, hother⟩ := ih h
      refine ⟨(path, text) :: front, other, content, back, rfl,
        List.forall_mem_cons.2 ⟨⟨_, List.mem_cons_self, hresolve⟩, fun file hfile => ?_⟩, hother⟩
      obtain ⟨earlier, hearlier, hplace⟩ := hfront file hfile
      exact ⟨earlier, List.mem_cons_of_mem _ hearlier, hplace⟩

/-- How far writing gets: texts are written up to one that cannot be, if there is
    one, and what they change could be told before. -/
theorem writeAll_spec (tree : FileTree) (files : List (String × String)) :
    (tree.writeAll files).2 = tree.put (tree.writesOf files) ∧
      ∃ done rest, files = done ++ rest ∧
        (∀ file ∈ done, ∃ write ∈ tree.writesOf files,
          tree.resolve file.1 = .ok write.1 ∧ write.2 = textBytes file.2) ∧
        (∀ write ∈ tree.writesOf files, ∃ file ∈ done, tree.resolve file.1 = .ok write.1) ∧
        match rest with
        | [] => (tree.writeAll files).1 = .ok ()
        | (path, text) :: _ => ∃ reason,
          (tree.writeAll files).1 = .error (.unwritable path reason) ∧
            (tree.writeAll files).2.write path (textBytes text) = .error reason := by
  induction files generalizing tree with
  | nil => exact ⟨rfl, [], [], rfl, nofun, nofun, rfl⟩
  | cons file rest ih =>
    obtain ⟨path, text⟩ := file
    rw [writeAll, writesOf]
    cases hwrite : tree.write path (textBytes text) with
    | error reason =>
      cases hresolve : tree.resolve path with
      | error _ => exact ⟨rfl, [], (path, text) :: rest, rfl, nofun, nofun, reason, rfl, hwrite⟩
      | ok place =>
        have hdirectory : tree.lookup place = some .directory :=
          Classical.byContradiction fun hdirectory => by
            rw [write_eq_ok.2 ⟨place, hresolve, hdirectory, rfl⟩] at hwrite
            cases hwrite
        dsimp only
        rw [if_pos hdirectory]
        exact ⟨rfl, [], (path, text) :: rest, rfl, nofun, nofun, reason, rfl, hwrite⟩
    | ok next =>
      obtain ⟨place, hplace, hdirectory, rfl⟩ := write_eq_ok.1 hwrite
      have hsame := SameDirectories.insert (textBytes text) hdirectory
      obtain ⟨hput, done, others, rfl, hdone, hwrites, hend⟩ :=
        ih (tree.insert place (.file (textBytes text)))
      rw [hsame.writesOf_eq] at hput hdone hwrites
      rw [hplace]
      dsimp only
      rw [if_neg hdirectory]
      refine ⟨hput, (path, text) :: done, others, rfl, List.forall_mem_cons.2 ⟨?_, ?_⟩,
        List.forall_mem_cons.2 ⟨?_, ?_⟩, hend⟩
      · exact ⟨_, List.mem_cons_self, hplace, rfl⟩
      · intro file hfile
        obtain ⟨write, hwrite, hresolve, hbytes⟩ := hdone file hfile
        exact ⟨write, List.mem_cons_of_mem _ hwrite, hsame.resolve_eq_ok.1 hresolve, hbytes⟩
      · exact ⟨_, List.mem_cons_self, hplace⟩
      · intro write hwrite
        obtain ⟨file, hfile, hresolve⟩ := hwrites write hwrite
        exact ⟨file, List.mem_cons_of_mem _ hfile, hsame.resolve_eq_ok.1 hresolve⟩

/-- A file can be written at a path. -/
def Admits (tree : FileTree) (path : String) : Prop :=
  ∃ place, tree.resolve path = .ok place ∧ tree.lookup place ≠ some .directory

theorem SameDirectories.admits_iff (h : SameDirectories before after) {path : String} :
    after.Admits path ↔ before.Admits path := by
  simp only [Admits, h.resolve_eq_ok, ne_eq, h.lookup_iff]

theorem writeAll_eq_ok : (tree.writeAll files).1 = .ok () ↔ ∀ file ∈ files, tree.Admits file.1 := by
  induction files generalizing tree with
  | nil => simp [writeAll]
  | cons file rest ih =>
    obtain ⟨path, text⟩ := file
    rw [writeAll, List.forall_mem_cons]
    cases hwrite : tree.write path (textBytes text) with
    | error reason =>
      refine iff_of_false nofun fun ⟨⟨place, hresolve, hdirectory⟩, _⟩ => ?_
      rw [write_eq_ok.2 ⟨place, hresolve, hdirectory, rfl⟩] at hwrite
      cases hwrite
    | ok next =>
      obtain ⟨place, hresolve, hdirectory, rfl⟩ := write_eq_ok.1 hwrite
      simp only [ih, (SameDirectories.insert (textBytes text) hdirectory).admits_iff]
      exact (and_iff_right ⟨place, hresolve, hdirectory⟩).symm

/-- Texts were written at paths, and nothing was changed where none of the paths
    leads. -/
structure WritesExactly (before : FileTree) (files : List (String × String)) (after : FileTree) :
    Prop where
  start_eq : after.start = before.start
  written : ∀ file ∈ files, after.read file.1 = .ok (textBytes file.2)
  unchanged : ∀ place, (∀ file ∈ files, before.resolve file.1 ≠ .ok place) →
    after.lookup place = before.lookup place

/-- The only files that are not what they were before are those that were
    written. -/
theorem WritesExactly.exists_of_mem_changesSince (h : before.WritesExactly files after)
    {change : List String × Bytes} (hchange : change ∈ after.changesSince before) :
    ∃ file ∈ files, ∃ place, before.resolve file.1 = .ok place ∧ change.1 = after.address place := by
  obtain ⟨place, bytes, rfl, hlookup, hnew⟩ := mem_changesSince.1 hchange
  refine Classical.byContradiction fun hnone => ?_
  have hunchanged := h.unchanged place fun file hfile hresolve =>
    hnone ⟨file, hfile, place, hresolve, rfl⟩
  exact hnew (hunchanged ▸ hlookup)

/-- Writing files that agree where they meet writes them up to one that cannot be
    written, and changes nothing else. -/
theorem writeAll_writesExactly (h : Agrees (tree.writesOf files)) :
    ∃ done rest, files = done ++ rest ∧ tree.WritesExactly done (tree.writeAll files).2 ∧
      match rest with
      | [] => (tree.writeAll files).1 = .ok ()
      | (path, text) :: _ => ∃ reason,
        (tree.writeAll files).1 = .error (.unwritable path reason) ∧
          (tree.writeAll files).2.write path (textBytes text) = .error reason := by
  have hvacates := vacates_writesOf tree files
  obtain ⟨hput, done, rest, hfiles, hdone, hwrites, hend⟩ := writeAll_spec tree files
  refine ⟨done, rest, hfiles, ?_, hend⟩
  rw [hput]
  refine ⟨hvacates.sameDirectories_put.start_eq, fun file hfile => ?_, fun place hplace => ?_⟩
  · obtain ⟨write, hwrite, hresolve, hbytes⟩ := hdone file hfile
    refine read_eq_ok.2 ⟨write.1, hvacates.sameDirectories_put.resolve_eq_ok.2 hresolve, ?_⟩
    rw [hvacates.lookup_put_of_mem h hwrite, hbytes]
  · refine hvacates.lookup_put_of_forall_ne fun write hwrite heq => ?_
    obtain ⟨file, hfile, hresolve⟩ := hwrites write hwrite
    exact hplace file hfile (heq ▸ hresolve)

end DeepScope.FileTree
