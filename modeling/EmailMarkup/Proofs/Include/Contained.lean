import EmailMarkup.Include.Resolver
import EmailMarkup.Proofs.Files.Locate
/-!
# Files below a directory

A resolver that serves the files below a directory never serves another. Where a path leads is known from its components
(`Location.follow`), from the directory or, if the path is absolute, from the root. The content is the one of the file
there, and the location of the directory is the beginning of its location, name by name: a directory beside it whose
name only begins alike is not below it.
-/
namespace EmailMarkup.Include

open EmailMarkup.Files

variable {d : Disk}

/-- Where a path of a file resolver starts. -/
def startFor (base : Location) (path : String) : Location := if isAbsolute path then [] else base

theorem reachable_startFor {base : Location} (h : d.Reachable base) (path : String) :
    d.Reachable (startFor base path) := by
  unfold startFor
  split
  · exact d.reachable_root
  · exact h

/-- The answer of a file resolver. -/
theorem run_fromFiles (d : Disk) (base : Location) (path : String) (context : Context) :
    (fromFiles (m := Id) d.fileSystem base path context).run.run =
      if Text.isBlankText path then .error (.inclusion .blankPath)
      else match FileSystem.find (m := Id) d.fileSystem (join base.text path) with
        | .error _ => .error (.inclusion (.notFound path))
        | .ok l =>
          if !base.isPrefixOf l then .error (.inclusion (.outside path))
          else match d.read l with
            | .error fault => .error (.inclusion (.unreadable path fault))
            | .ok content => .ok content := by
  unfold fromFiles
  split
  · rfl
  · cases FileSystem.find (m := Id) d.fileSystem (join base.text path) with
    | error fault => rfl
    | ok l =>
      show (show ExceptT Error Id String from
        if !base.isPrefixOf l then throw (.inclusion (.outside path))
        else match d.read l with
          | .error fault => throw (.inclusion (.unreadable path fault))
          | .ok content => pure content).run.run = _
      dsimp only
      split
      · rfl
      · cases d.read l <;> rfl

theorem find_eq_ok_iff {path : String} {l : Location} : FileSystem.find (m := Id) d.fileSystem path = .ok l ↔
    '\x00' ∉ path.toList ∧ d.locate path = .ok l := by
  unfold FileSystem.find checkName
  by_cases hnul : '\x00' ∈ path.toList
  · simp [hnul, pure]
  · simp [hnul, Disk.fileSystem, pure]

theorem reachable_baseDirectory (hcurrent : d.Reachable d.current) {path : String} {base : Location}
    (h : (baseDirectory (m := Id) d.fileSystem path).run.run = .ok base) : d.Reachable base := by
  have hfind : FileSystem.find (m := Id) d.fileSystem path = .ok base := by
    unfold baseDirectory at h
    cases hfound : FileSystem.find (m := Id) d.fileSystem path with
    | error fault =>
      rw [hfound] at h
      cases h
    | ok l =>
      rw [hfound] at h
      exact congrArg Except.ok (Except.ok.inj h)
  obtain ⟨hnul, hlocate⟩ := find_eq_ok_iff.1 hfind
  exact hcurrent.locate hnul hlocate

/-- From the root, the components of a joined path first lead to the directory that it is joined to. -/
theorem canFollow_joined_iff {base : Location} (hbase : d.Reachable base) (path : String) :
    d.CanFollow [] ("" :: (base ++ components path)) ↔ d.CanFollow base (components path) := by
  have hroot : Location.follow [] base = base := Location.follow_names hbase.names []
  have hempty : Location.enter [] "" = [] := rfl
  rw [Disk.canFollow_cons, hempty, Disk.canFollow_append, hroot]
  refine ⟨fun h => h.2.2, fun h => ⟨?_, hbase.canFollow, h⟩⟩
  have hdirectory : d.entry? [] = some .directory := by
    have hcan : d.CanFollow [] (base ++ components path) := Disk.canFollow_append.2 ⟨hbase.canFollow, by rwa [hroot]⟩
    refine hcan.directory fun hnil => ?_
    exact components_ne_nil path (List.append_eq_nil_iff.1 hnil).2
  exact ⟨hdirectory, by rw [hempty, hdirectory]; rfl, by decide, trivial⟩

theorem follow_joined {base : Location} (hbase : d.Reachable base) (path : String) :
    Location.follow [] ("" :: (base ++ components path)) = base.follow (components path) := by
  have hempty : Location.enter [] "" = [] := rfl
  rw [Location.follow_cons, hempty, Location.follow_append, Location.follow_names hbase.names, List.nil_append]

/-- A path is found exactly if it can be followed from where it starts. -/
theorem find_join_eq_ok_iff {base l : Location} (hbase : d.Reachable base) {path : String} (hpath : path ≠ "") :
    FileSystem.find (m := Id) d.fileSystem (join base.text path) = .ok l ↔
      '\x00' ∉ path.toList ∧ d.CanFollow (startFor base path) (components path) ∧
        l = (startFor base path).follow (components path) := by
  rw [find_eq_ok_iff, Disk.locate_eq_ok_iff, Disk.start]
  cases habsolute : isAbsolute path with
  | true =>
    have hjoin : join base.text path = path := by rw [join, if_pos habsolute]
    simp [hjoin, startFor, habsolute, hpath]
  | false =>
    have hjoined := isAbsolute_join_text base path
    have hne : join base.text path ≠ "" := by
      intro hempty
      rw [hempty] at hjoined
      cases hjoined
    rw [if_pos hjoined, components_join hbase.names habsolute, canFollow_joined_iff hbase, follow_joined hbase,
      nul_mem_join_text hbase.names, startFor, habsolute]
    simp [hne]

/-- The answer of a file resolver, from where its path leads. -/
theorem run_fromFiles_eq_ok_iff {base : Location} (hbase : d.Reachable base) {path content : String} {context : Context} :
    (fromFiles (m := Id) d.fileSystem base path context).run.run = .ok content ↔
      Text.isBlankText path = false ∧ '\x00' ∉ path.toList ∧ d.CanFollow (startFor base path) (components path) ∧
        base <+: (startFor base path).follow (components path) ∧
        d.entry? ((startFor base path).follow (components path)) = some (.file content) := by
  rw [run_fromFiles]
  by_cases hblank : Text.isBlankText path = true
  · simp [hblank]
  have hpath : path ≠ "" := by
    rintro rfl
    exact hblank rfl
  have hfound (l : Location) := find_join_eq_ok_iff (l := l) hbase hpath
  rw [if_neg hblank]
  cases hfind : FileSystem.find (m := Id) d.fileSystem (join base.text path) with
  | error fault =>
    have hnone : ¬('\x00' ∉ path.toList ∧ d.CanFollow (startFor base path) (components path)) := by
      rintro ⟨hnul, hcan⟩
      rw [(hfound _).2 ⟨hnul, hcan, rfl⟩] at hfind
      cases hfind
    simp only [reduceCtorEq, false_iff]
    rintro ⟨-, hnul, hcan, -⟩
    exact hnone ⟨hnul, hcan⟩
  | ok l =>
    obtain ⟨hnul, hcan, rfl⟩ := (hfound l).1 hfind
    dsimp only
    rw [← Disk.read_eq_ok_iff, ← List.isPrefixOf_iff_prefix]
    cases base.isPrefixOf ((startFor base path).follow (components path)) with
    | false => simp
    | true =>
      cases d.read ((startFor base path).follow (components path)) <;> simp [hblank, hnul, hcan]

theorem kind_of_run_fromFiles {base : Location} {path : String} {context : Context} {e : Error}
    (h : (fromFiles (m := Id) d.fileSystem base path context).run.run = .error e) : e.kind = .inclusion := by
  rw [run_fromFiles] at h
  split at h
  · obtain rfl := Except.error.inj h
    rfl
  · split at h
    · obtain rfl := Except.error.inj h
      rfl
    · split at h
      · obtain rfl := Except.error.inj h
        rfl
      · split at h
        · obtain rfl := Except.error.inj h
          rfl
        · cases h

/-- What a file resolver for a directory answers, for every disk without links. A path gives a content exactly if it is
not blank, can be followed to a file with that content, and the location of the file begins with the location of the
directory; both are made of plain names. If the path leads elsewhere, be it to a directory beside whose name begins
alike, the answer is an error, and every error is one of an include. -/
theorem fromFiles_contained {d : Disk} (hcurrent : d.Reachable d.current) {basePath : String} {base : Location}
    (hbase : (baseDirectory (m := Id) d.fileSystem basePath).run.run = .ok base) (path : String) (context : Context) :
    let location := (startFor base path).follow (components path)
    let answer : Except Error String := (fromFiles (m := Id) d.fileSystem base path context).run.run
    (∀ content, answer = .ok content ↔ Text.isBlankText path = false ∧ '\x00' ∉ path.toList ∧
        d.CanFollow (startFor base path) (components path) ∧ base <+: location ∧ d.entry? location = some (.file content)) ∧
      (∀ content, answer = .ok content → ∀ name ∈ location, IsName name) ∧
      (¬base <+: location → ∃ e, answer = .error e ∧ e.kind = .inclusion) ∧
      (∀ above name other below, base = above ++ [name] → other ≠ name → location = above ++ other :: below →
        ∃ e, answer = .error e ∧ e.kind = .inclusion) ∧
      ∀ e, answer = .error e → e.kind = .inclusion := by
  intro location answer
  have hreachable := reachable_baseDirectory hcurrent hbase
  have hok (content : String) : answer = .ok content ↔ _ := run_fromFiles_eq_ok_iff hreachable
  have hkind : ∀ e, answer = .error e → e.kind = .inclusion := fun e => kind_of_run_fromFiles
  have houtside (h : ¬base <+: location) : ∃ e, answer = .error e ∧ e.kind = .inclusion := by
    cases hanswer : answer with
    | error e => exact ⟨e, rfl, hkind e hanswer⟩
    | ok content => exact absurd ((hok content).1 hanswer).2.2.2.1 h
  refine ⟨hok, ?_, houtside, ?_, hkind⟩
  · intro content hanswer
    obtain ⟨-, hnul, hcan, -, -⟩ := (hok content).1 hanswer
    exact ((reachable_startFor hreachable path).follow_components hnul hcan).names
  · intro above name other below hname hne hlocation
    apply houtside
    rw [hname, hlocation, List.prefix_append_right_inj, List.cons_prefix_cons]
    exact fun h => hne h.1.symm

def twinDirectories : Disk where
  entries := [(["w", "base", "a.txt"], .file "inside"), (["w", "base", "x", "b.txt"], .file "deeper"),
    (["w", "base2", "a.txt"], .file "beside")]
  current := ["w"]

/-- A path that goes down and up again stays inside; one that goes up and into the other directory does not. -/
theorem fromFiles_contained_twin : twinDirectories.Reachable twinDirectories.current ∧
    (baseDirectory (m := Id) twinDirectories.fileSystem "base").run.run = .ok ["w", "base"] ∧
    (fromFiles (m := Id) twinDirectories.fileSystem ["w", "base"] "x/..//./a.txt" { kind := .html }).run.run = .ok "inside" ∧
    ∃ e, (fromFiles (m := Id) twinDirectories.fileSystem ["w", "base"] "../base2/a.txt" { kind := .html }).run.run = .error e ∧
      e.kind = .inclusion := by
  have hcurrent : twinDirectories.Reachable twinDirectories.current := ⟨by decide, by decide⟩
  have hbase : (baseDirectory (m := Id) twinDirectories.fileSystem "base").run.run = .ok ["w", "base"] := rfl
  obtain ⟨hok, -⟩ := fromFiles_contained hcurrent hbase "x/..//./a.txt" { kind := .html }
  obtain ⟨-, -, -, hbeside, -⟩ := fromFiles_contained hcurrent hbase "../base2/a.txt" { kind := .html }
  refine ⟨hcurrent, hbase, (hok "inside").2 (by decide), ?_⟩
  exact hbeside ["w"] "base" "base2" ["a.txt"] rfl (by decide) (by decide)

end EmailMarkup.Include
