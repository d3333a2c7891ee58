/-
Commands on a tree of files.

A path leads to its place through directories only, and a file is never written in the
place of a directory.  So what a write changes is on no way that was walked: the same path
leads to the same place afterwards, and what is read there is what was written, also where
the path of the output is that of the input.

The commands share the loading of their file.  Where it fails they end alike, with nothing
printed and every file as it was.  Where it succeeds they differ in what they print and
write only, and the exit code is that of the diagnostics.  So at most one file is another one
after a run.
-/
import Mathlib.Control.Monad.Basic
import ListSugar.Command.Plan

namespace ListSugar.Command

namespace FileTree

variable {t t' : FileTree}

/-! ### One entry is set

The entries are a list of pairs, and a place is looked up from its front.  Setting a place
first drops what the list has for it, so no place is listed twice, and what a place then
holds is told without a look at the list.
-/

theorem lookup_filter_ne {loc other : Location} (h : other ≠ loc) :
    ∀ entries : List (Location × Entry),
      (entries.filter (·.1 != loc)).lookup other = entries.lookup other := by
  intro entries
  induction entries with
  | nil => rfl
  | cons first rest ih =>
    obtain ⟨place, entry⟩ := first
    by_cases hplace : place = loc
    · have hne : (other == place) = false := by simpa [hplace] using h
      rw [List.filter_cons_of_neg (by simp [hplace]), ih, List.lookup_cons, hne]
    · rw [List.filter_cons_of_pos (by simp [hplace]), List.lookup_cons, List.lookup_cons, ih]

theorem entry?_set_of_ne {loc other : Location} (h : other ≠ loc) (entry : Entry) :
    entry? (t.set loc entry) other = t.entry? other := by
  have hne : (other == loc) = false := by simpa using h
  unfold entry? set
  rw [List.lookup_cons, hne, lookup_filter_ne h]

/-- Setting an entry changes what stands at its place, and nothing else. -/
theorem entry?_set {loc : Location} (h : loc.all Location.leadsOut = false) (entry : Entry)
    (other : Location) :
    entry? (t.set loc entry) other = if other = loc then some entry else t.entry? other := by
  by_cases hplace : other = loc
  · subst hplace
    unfold entry? set
    rw [if_pos rfl, if_neg (by simp [h]), List.lookup_cons_self]
  · rw [if_neg hplace, entry?_set_of_ne hplace]

/-- A place that is no directory is inside the tree. -/
theorem leadsOut_eq_false {loc : Location} (h : t.entry? loc ≠ some .directory) :
    loc.all Location.leadsOut = false := by
  by_cases hout : loc.all Location.leadsOut = true
  · exact absurd (if_pos hout) h
  · simpa using hout

/-! ### Paths after a change

A walk looks at directories only.  So a change that leaves every directory where it was
leaves every path that led somewhere leading to the same place, and no step of the walk has
to be followed again.
-/

/-- A way through directories stays open when all of them stay. -/
theorem walk_of_directories (hkeep : ∀ loc, t.entry? loc = some .directory →
      t'.entry? loc = some .directory) (steps : List String) : ∀ {loc place : Location},
    t.walk loc steps = .ok place → t'.walk loc steps = .ok place := by
  induction steps with
  | nil =>
    intro loc place h
    exact h
  | cons name rest ih =>
    intro loc place h
    rw [walk] at h ⊢
    by_cases hlong : loc.nameTooLong = true
    · simp [look, hlong] at h
    · simp only [look, hlong] at h ⊢
      cases hentry : t.entry? loc with
      | none => simp [hentry] at h
      | some entry =>
        cases entry with
        | file content => simp [hentry] at h
        | directory =>
          simp only [hentry] at h
          simp only [hkeep loc hentry]
          exact ih h

theorem resolve_of_directories (hkeep : ∀ loc, t.entry? loc = some .directory →
      t'.entry? loc = some .directory) {path : String} {place : Location}
    (h : t.resolve path = .ok place) : t'.resolve path = .ok place := by
  unfold resolve at h ⊢
  by_cases hempty : path = ""
  · simp [hempty] at h
  · by_cases hlong : maxPathBytes < path.utf8ByteSize
    · simp [hempty, hlong] at h
    · simp only [hempty, hlong] at h ⊢
      exact walk_of_directories hkeep (stepsOf path) h

theorem bind_eq_ok_iff {α β : Type} {x : Except FileError α} {f : α → Except FileError β} {b : β} :
    (x >>= f) = .ok b ↔ ∃ a, x = .ok a ∧ f a = .ok b := by
  cases x with
  | error e => simp [bind, Except.bind]
  | ok a => simp [bind, Except.bind]

theorem look_eq_ok_iff {loc : Location} {found : Option Entry} :
    t.look loc = .ok found ↔ loc.nameTooLong = false ∧ t.entry? loc = found := by
  unfold look
  by_cases hlong : loc.nameTooLong = true
  · simp [hlong]
  · simp [hlong]

/-- When a write succeeds, and what it does. -/
theorem write_eq_ok_iff {path text : String} : t.write path text = .ok t' ↔ ∃ loc,
    t.resolve path = .ok loc ∧ endsInSlash path = false ∧ loc.nameTooLong = false ∧
      t.entry? loc ≠ some .directory ∧ t' = t.set loc (.file text.toUTF8) := by
  unfold write
  rw [bind_eq_ok_iff]
  refine exists_congr fun loc => and_congr_right fun _ => ?_
  by_cases hslash : endsInSlash path = true
  · simp [hslash]
  · rw [if_neg hslash, bind_eq_ok_iff]
    constructor
    · rintro ⟨found, hlook, h⟩
      obtain ⟨hlong, rfl⟩ := look_eq_ok_iff.mp hlook
      by_cases hdir : t.entry? loc = some .directory
      · rw [if_pos hdir] at h
        cases h
      · rw [if_neg hdir] at h
        injection h with h
        exact ⟨by simpa using hslash, hlong, hdir, h.symm⟩
    · rintro ⟨-, hlong, hdir, rfl⟩
      exact ⟨_, look_eq_ok_iff.mpr ⟨hlong, rfl⟩, if_neg hdir⟩

theorem read_of_file {path : String} {loc : Location} {content : ByteArray}
    (hresolve : t.resolve path = .ok loc) (hslash : endsInSlash path = false)
    (hname : loc.nameTooLong = false) (hentry : t.entry? loc = some (.file content)) :
    t.read path = decode content := by
  have hlook := look_eq_ok_iff.mpr ⟨hname, hentry⟩
  simp only [read, hresolve, hlook, hslash, bind, Except.bind]
  rfl

theorem decode_toUTF8 (text : String) : decode text.toUTF8 = .ok text := by
  have h : String.fromUTF8? text.toUTF8 = some text := by
    unfold String.fromUTF8?
    exact dif_pos text.isValidUTF8
  rw [decode, h]

/-- What a write leaves: at one place the text, and elsewhere what was there. -/
structure Writes (t : FileTree) (path text : String) (t' : FileTree) : Prop where
  read : t'.read path = .ok text
  places : ∃ loc, t.resolve path = .ok loc ∧ t'.resolve path = .ok loc ∧
    ∀ other, t'.entry? other =
      if other = loc then some (.file text.toUTF8) else t.entry? other

/-- **What was written is read back, and everything else stays.** -/
theorem writes_of_write {path text : String} (h : t.write path text = .ok t') :
    Writes t path text t' := by
  obtain ⟨loc, hresolve, hslash, hlong, hfree, rfl⟩ := write_eq_ok_iff.mp h
  have hset := entry?_set (t := t) (leadsOut_eq_false hfree) (.file text.toUTF8)
  -- No directory stands where the file is written, so the way to it is as before.
  have hkeep : ∀ place, t.entry? place = some .directory →
      entry? (t.set loc (.file text.toUTF8)) place = some .directory := by
    intro place hplace
    rw [hset, if_neg, hplace]
    rintro rfl
    exact hfree hplace
  have hresolve' := resolve_of_directories hkeep hresolve
  refine ⟨?_, loc, hresolve, hresolve', hset⟩
  have hentry : entry? (t.set loc (.file text.toUTF8)) loc = some (.file text.toUTF8) := by
    rw [hset, if_pos rfl]
  rw [read_of_file hresolve' hslash hlong hentry, decode_toUTF8]

/-! ### Directories and files put in place

A tree is built by putting directories on the way to a file, and then the file.  Along a
plain path no step goes back or outwards, so the walk visits the front parts of the path one
after another, and each of them is one of the directories.
-/

/-- A directory may be set outside the tree too, where one stands already. -/
theorem entry?_set_directory (t : FileTree) (loc other : Location) :
    entry? (t.set loc .directory) other =
      if other = loc then some .directory else t.entry? other := by
  by_cases hplace : other = loc
  · subst hplace
    unfold entry? set
    rw [if_pos rfl, List.lookup_cons_self, ite_self]
  · rw [if_neg hplace, entry?_set_of_ne hplace]

theorem entry?_set_directories (loc : Location) (places : List Location) : ∀ t : FileTree,
    entry? (places.foldl (fun t place => t.set place .directory) t) loc =
      if loc ∈ places then some .directory else t.entry? loc := by
  induction places with
  | nil =>
    intro t
    rfl
  | cons place rest ih =>
    intro t
    rw [List.foldl_cons, ih, entry?_set_directory]
    by_cases hrest : loc ∈ rest
    · rw [if_pos hrest, if_pos (List.mem_cons_of_mem place hrest)]
    · simp only [List.mem_cons, hrest, or_false, if_false]

/-- Directories stand at a path and at every place on the way to it, and all else is as it
was. -/
theorem entry?_addDirectories (t : FileTree) (path : String) (loc : Location) :
    entry? (t.addDirectories path) loc =
      if loc <+: stepsOf path then some .directory else t.entry? loc := by
  have hfold := entry?_set_directories loc
    ((List.range (stepsOf path).length).map fun n => (stepsOf path).take (n + 1)) t
  rw [List.foldl_map] at hfold
  refine hfold.trans ?_
  cases loc with
  | nil =>
    -- The current directory is one in any tree.
    rw [if_pos List.nil_prefix, show t.entry? [] = some .directory from rfl, ite_self]
  | cons name rest =>
    have hmem : name :: rest ∈ (List.range (stepsOf path).length).map
        (fun n => (stepsOf path).take (n + 1)) ↔ name :: rest <+: stepsOf path := by
      simp only [List.mem_map, List.mem_range]
      constructor
      · rintro ⟨n, -, h⟩
        exact h ▸ List.take_prefix (n + 1) _
      · intro h
        exact ⟨rest.length, h.length_le, (List.prefix_iff_eq_take.mp h).symm⟩
    simp only [hmem]

/-- Names only, none of them leading out of the tree or too long. -/
structure Plain (path : String) : Prop where
  inside : ∀ name ∈ stepsOf path, Location.leadsOut name = false ∧ name ≠ "."
  names : ∀ name ∈ stepsOf path, name.utf8ByteSize ≤ maxNameBytes
  length : path.utf8ByteSize ≤ maxPathBytes
  slash : endsInSlash path = false
  nonempty : stepsOf path ≠ []

theorem Plain.nameTooLong_eq_false {path : String} (h : Plain path) {front : Location}
    (hfront : front <+: stepsOf path) : front.nameTooLong = false := by
  unfold Location.nameTooLong
  cases hlast : front.getLast? with
  | none => rfl
  | some name =>
    have hname := h.names name (hfront.mem (List.mem_of_getLast? hlast))
    simpa using hname

theorem Plain.walk {path : String} (h : Plain path)
    (hway : ∀ front, front <+: stepsOf path → front ≠ stepsOf path →
      t.entry? front = some .directory) (rest : List String) :
    ∀ front, front ++ rest = stepsOf path → t.walk front rest = .ok (stepsOf path) := by
  induction rest with
  | nil =>
    intro front hsteps
    rw [FileTree.walk, ← hsteps, List.append_nil]
  | cons name rest ih =>
    intro front hsteps
    have hfront : front <+: stepsOf path := ⟨name :: rest, hsteps⟩
    obtain ⟨hin, hdot⟩ := h.inside name (hsteps ▸ List.mem_append_right front (.head rest))
    have hdir := hway front hfront (by rintro rfl; simp at hsteps)
    have hstep : Location.step front name = front ++ [name] := by
      have hup : name ≠ ".." := by
        rintro rfl
        cases hin
      rw [Location.step, if_neg hdot, if_neg hup]
    rw [FileTree.walk, look, if_neg (by simp [h.nameTooLong_eq_false hfront]), hdir]
    show FileTree.walk t _ rest = _
    rw [hstep]
    exact ih _ (by simpa using hsteps)

theorem Plain.resolve {path : String} (h : Plain path)
    (hway : ∀ front, front <+: stepsOf path → front ≠ stepsOf path →
      t.entry? front = some .directory) : t.resolve path = .ok (stepsOf path) := by
  have hpath : path ≠ "" := by
    rintro rfl
    exact h.nonempty rfl
  rw [FileTree.resolve, if_neg hpath, if_neg (Nat.not_lt.mpr h.length)]
  exact h.walk hway (stepsOf path) [] rfl

/-- **A file put into directories is read back.**  Its bytes are read as a text at its path, also
where a file or a directory stood before. -/
theorem read_addFile (t : FileTree) {dir path name : String} (h : Plain path)
    (hdir : stepsOf path = stepsOf dir ++ [name]) (content : ByteArray) :
    ((t.addDirectories dir).addFile path content).read path = decode content := by
  have hout : (stepsOf path).all Location.leadsOut = false := by
    have hname := (h.inside name (by simp [hdir])).1
    simp [hdir, hname]
  have hset := entry?_set (t := t.addDirectories dir) hout (.file content)
  have hway : ∀ front, front <+: stepsOf path → front ≠ stepsOf path →
      entry? ((t.addDirectories dir).set (stepsOf path) (.file content)) front
        = some .directory := by
    intro front hfront hne
    rw [hset, if_neg hne, entry?_addDirectories]
    rw [hdir] at hfront hne
    rw [if_pos ((List.prefix_concat_iff.mp hfront).resolve_left hne)]
  have hentry := hset (stepsOf path)
  rw [if_pos rfl] at hentry
  exact read_of_file (h.resolve hway) h.slash (h.nameTooLong_eq_false List.prefix_rfl) hentry

/-! ### What has changed

Two trees are compared by what stands in the current directory and not by how their entries
are listed, so the comparison is about places again, and a write is told from the one place
that it sets.
-/

theorem mem_entries_of_file {loc : Location} {content : ByteArray}
    (h : t.entry? loc = some (.file content)) : (loc, .file content) ∈ t.entries := by
  have hlookup : t.entries.lookup loc = some (.file content) := by
    have hout : loc.all Location.leadsOut = false := leadsOut_eq_false (t := t) (by simp [h])
    unfold entry? at h
    rwa [hout, if_neg (by simp)] at h
  obtain ⟨front, rest, hentries, -⟩ := List.lookup_eq_some_iff.mp hlookup
  rw [hentries]
  exact List.mem_append_right front (.head rest)

/-- The files listed are those that are there and were not, or had another content. -/
theorem mem_changedSince_iff {before : FileTree} {name : String} {content : ByteArray} :
    (name, content) ∈ t.changedSince before ↔ t.entry? [name] = some (.file content) ∧
      before.entry? [name] ≠ some (.file content) := by
  unfold changedSince
  rw [List.mem_filterMap]
  constructor
  · rintro ⟨⟨loc, entry⟩, -, h⟩
    dsimp only at h
    split at h
    next first found hfound =>
      split at h
      next => cases h
      next hnew =>
        cases h
        exact ⟨hfound, hnew⟩
    next => cases h
  · rintro ⟨hentry, hnew⟩
    refine ⟨_, mem_entries_of_file hentry, ?_⟩
    simp only [hentry, if_neg hnew]

/-- After a write, at most the file that was written has changed. -/
theorem mem_changedSince_of_write {path text name : String} {content : ByteArray}
    (h : t.write path text = .ok t') : (name, content) ∈ t'.changedSince t ↔
      t.resolve path = .ok [name] ∧ content = text.toUTF8 ∧
        t.entry? [name] ≠ some (.file content) := by
  obtain ⟨-, loc, hresolve, -, hentry⟩ := writes_of_write h
  rw [mem_changedSince_iff, hentry, hresolve]
  by_cases hloc : [name] = loc
  · subst hloc
    simp only [if_true, Option.some.injEq, Entry.file.injEq, true_and, eq_comm]
  · have hne : loc ≠ [name] := Ne.symm hloc
    simp [hloc, hne]

end FileTree

/-! ### Commands

Whatever a command is asked for, it reads and desugars its file first.  Either that fails, and
then the task makes no difference, or it gives one result `d`, and then each task is an
equation between the run and `d`.
-/

/-- The file is read, and its text is desugared with the result `d`. -/
def Loads (t : FileTree) (file : String) (options : Options) (d : Desugared) : Prop :=
  ∃ source, t.read file = .ok source ∧ desugar source options = .ok d

theorem exitCode_eq_zero_iff {diagnostics : List Diagnostic} :
    exitCode diagnostics = 0 ↔ diagnostics = [] := by
  simp [exitCode]

section

variable {t : FileTree} {file : String} {options : Options} (style : Style)

/-- A command whose file is not loaded fails. -/
theorem run_of_not_loads (h : ∀ d, ¬ Loads t file options d) (task : Task) : ∃ message,
    Request.run style t ⟨task, file, options⟩ = (.failure style message, t) := by
  cases hread : t.read file with
  | error e => exact ⟨cannotOpen file e, by simp only [Request.run, plan, hread, Plan.run]⟩
  | ok source =>
    cases hd : desugar source options with
    | error e => exact ⟨file ++ ": " ++ e.text, by simp only [Request.run, plan, hread, hd, Plan.run]⟩
    | ok d => exact absurd ⟨source, hread, hd⟩ (h d)

variable {d : Desugared}

theorem run_check (h : Loads t file options d) :
    Request.run style t ⟨.check, file, options⟩ =
      (checkReply style ⟨.check, file, options⟩ d, t) := by
  obtain ⟨source, hread, hd⟩ := h
  simp only [Request.run, plan, hread, hd, Plan.run]

theorem run_print (h : Loads t file options d) :
    Request.run style t ⟨.emit none, file, options⟩ = (emitReply style file d.output d, t) := by
  obtain ⟨source, hread, hd⟩ := h
  simp only [Request.run, plan, hread, hd, Plan.run]

theorem run_write (h : Loads t file options d) (out : String) :
    Request.run style t ⟨.emit (some out), file, options⟩ =
      (Plan.write out d.output (emitReply style file "" d)).run style t := by
  obtain ⟨source, hread, hd⟩ := h
  simp only [Request.run, plan, hread, hd]

end

/-- A run leaves the tree as it is, or writes a result to the path that was asked for. -/
theorem Request.run_tree_cases (style : Style) (t : FileTree) (request : Request) :
    (request.run style t).2 = t ∨ ∃ out d, request.task = .emit (some out) ∧
      Loads t request.file request.options d ∧
        t.write out d.output = .ok (request.run style t).2 := by
  obtain ⟨task, file, options⟩ := request
  by_cases hloads : ∃ d, Loads t file options d
  · obtain ⟨d, hloads⟩ := hloads
    cases task with
    | check => exact .inl (by rw [run_check style hloads])
    | emit target =>
      cases target with
      | none => exact .inl (by rw [run_print style hloads])
      | some out =>
        rw [run_write style hloads, Plan.run]
        cases hwrite : t.write out d.output with
        | error e => exact .inl rfl
        | ok t' => exact .inr ⟨out, d, rfl, hloads, hwrite⟩
  · obtain ⟨message, hrun⟩ := run_of_not_loads style (not_exists.mp hloads) task
    exact .inl (by rw [hrun])

/-- **A run changes one file at most.**  It is the one that a result is written to, it then has
the result as its content, and without a result or with the other tasks there is none. -/
theorem Request.mem_changedSince_run (style : Style) (t : FileTree) (request : Request)
    {name : String} {content : ByteArray} :
    (name, content) ∈ (request.run style t).2.changedSince t ↔ ∃ out d,
      request.task = .emit (some out) ∧ Loads t request.file request.options d ∧
        (∃ t', t.write out d.output = .ok t') ∧ t.resolve out = .ok [name] ∧
          content = d.output.toUTF8 ∧ t.entry? [name] ≠ some (.file content) := by
  constructor
  · intro h
    obtain hsame | ⟨out, d, htask, hloads, hwrite⟩ := request.run_tree_cases style t
    · rw [hsame, FileTree.mem_changedSince_iff] at h
      exact absurd h.1 h.2
    · exact ⟨out, d, htask, hloads, ⟨_, hwrite⟩,
        (FileTree.mem_changedSince_of_write hwrite).mp h⟩
  · rintro ⟨out, d, htask, hloads, ⟨t', hwrite⟩, hchanged⟩
    obtain ⟨task, file, options⟩ := request
    subst htask
    rw [run_write style hloads, Plan.run, hwrite]
    exact (FileTree.mem_changedSince_of_write hwrite).mpr hchanged

/-- **What the commands do to a tree of files.**  If the file cannot be read as text, or is no
program, every task ends with code 1, prints nothing and leaves the tree as it is.  Otherwise,
with or without diagnostics, a written result is read back at its path whatever stood there,
and no other place changes; if it cannot be written, the command fails like the others.  A
result that is printed is the same text.  Checking changes no file, and ends with the code of
printing, which is 0 just when there are no diagnostics. -/
theorem Request.run_leaves_files (style : Style) (t : FileTree) (file : String)
    (options : Options) :
    let after := fun task => Request.run style t ⟨task, file, options⟩
    ((∀ d, ¬ Loads t file options d) → ∀ task,
      (after task).1.code = 1 ∧ (after task).1.stdout = "" ∧ (after task).2 = t) ∧
    ∀ d, Loads t file options d →
      (∀ out t', t.write out d.output = .ok t' →
        (after (.emit (some out))).2 = t' ∧ FileTree.Writes t out d.output t') ∧
      (∀ out e, t.write out d.output = .error e →
        (after (.emit (some out))).1.code = 1 ∧ (after (.emit (some out))).1.stdout = "" ∧
          (after (.emit (some out))).2 = t) ∧
      (after (.emit none)).1.stdout = d.output ∧ (after (.emit none)).2 = t ∧
      (after .check).2 = t ∧
      (after .check).1.code = (after (.emit none)).1.code ∧
      ((after .check).1.code = 0 ↔ d.diagnostics = []) := by
  intro after
  constructor
  · intro hfails task
    obtain ⟨message, hrun⟩ := run_of_not_loads style hfails task
    rw [show after task = _ from hrun]
    exact ⟨rfl, rfl, rfl⟩
  · intro d hloads
    have hprint : after (.emit none) = _ := run_print style hloads
    have hcheck : after .check = _ := run_check style hloads
    refine ⟨fun out t' hwrite => ?_, fun out e hwrite => ?_, ?_⟩
    · have hrun : after (.emit (some out)) = (emitReply style file "" d, t') := by
        rw [show after (.emit (some out)) = _ from run_write style hloads out, Plan.run, hwrite]
      rw [hrun]
      exact ⟨rfl, FileTree.writes_of_write hwrite⟩
    · have hrun : after (.emit (some out)) = (.failure style (cannotWrite out e), t) := by
        rw [show after (.emit (some out)) = _ from run_write style hloads out, Plan.run, hwrite]
      rw [hrun]
      exact ⟨rfl, rfl, rfl⟩
    · rw [hprint, hcheck]
      exact ⟨rfl, rfl, rfl, rfl, exitCode_eq_zero_iff⟩

/-- A file with a missing operand is overwritten by its result. -/
theorem Request.run_leaves_files_in_place : ∃ (t t' : FileTree) (d : Desugared),
    t = FileTree.empty.addFile "a" "var x = [<1, >];".toUTF8 ∧ Loads t "a" {} d ∧
      d.diagnostics ≠ [] ∧ (Request.run ⟨false⟩ t ⟨.emit (some "a"), "a", {}⟩).2 = t' ∧
      t'.read "a" = .ok "var x = new List<int> \x7b 1,  \x7d;\n" ∧
      (Request.run ⟨false⟩ t ⟨.check, "a", {}⟩).1.code ≠ 0 := by
  have hread : FileTree.read (FileTree.empty.addFile "a" "var x = [<1, >];".toUTF8) "a" =
      .ok "var x = [<1, >];" := by
    decide +kernel
  have hresolve : FileTree.resolve (FileTree.empty.addFile "a" "var x = [<1, >];".toUTF8) "a" =
      .ok ["a"] := by
    decide +kernel
  have hentry : FileTree.entry? (FileTree.empty.addFile "a" "var x = [<1, >];".toUTF8) ["a"] =
      some (.file "var x = [<1, >];".toUTF8) := by
    rfl
  have hrun : (desugar "var x = [<1, >];" {}).map (fun d => (d.diagnostics.isEmpty, d.output)) =
      .ok (false, "var x = new List<int> \x7b 1,  \x7d;\n") := by
    decide +kernel
  obtain ⟨d, hd, hrun⟩ := map_eq_ok_iff.mp hrun
  obtain ⟨hempty, houtput⟩ := Prod.mk.inj hrun
  have hreported := List.isEmpty_eq_false_iff.mp hempty
  generalize ht : FileTree.empty.addFile "a" "var x = [<1, >];".toUTF8 = t at *
  have hwrite : t.write "a" d.output = .ok (t.set ["a"] (.file d.output.toUTF8)) := by
    refine FileTree.write_eq_ok_iff.mpr ⟨["a"], hresolve, by decide, by decide, ?_, rfl⟩
    rw [hentry]
    simp
  have hloads : Loads t "a" {} d := ⟨_, hread, hd⟩
  obtain ⟨hwrites, -, -, -, -, -, hcode⟩ := (run_leaves_files ⟨false⟩ t "a" {}).2 d hloads
  obtain ⟨htree, hwritten⟩ := hwrites "a" _ hwrite
  refine ⟨t, _, d, rfl, hloads, hreported, htree, ?_, fun hzero => hreported (hcode.mp hzero)⟩
  rw [hwritten.read, houtput]

end ListSugar.Command
