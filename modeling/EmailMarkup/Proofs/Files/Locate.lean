import EmailMarkup.Files.Disk
import EmailMarkup.Proofs.Text.Blank
/-!
# Where paths lead

On a disk without links the components of a path alone say where it leads (`Location.follow`): an empty component and
`.` stay, `..` goes up, a name goes down. What is on the disk only decides whether the path can be followed
(`Disk.CanFollow`): every component must be taken in a directory and lead to something. `Disk.locate_eq_ok_iff` says
that a path is located exactly when this is so.
-/
namespace EmailMarkup.Files

/-! ## Names -/

/-- What a file or directory can be called. -/
def IsName (name : String) : Prop :=
  name ∉ ["", ".", ".."] ∧ '/' ∉ name.toList ∧ '\x00' ∉ name.toList

instance (name : String) : Decidable (IsName name) := inferInstanceAs (Decidable (_ ∧ _ ∧ _))

theorem exists_mem_components_iff {path : String} {c : Char} :
    (∃ component ∈ components path, c ∈ component.toList) ↔ c ∈ path.toList ∧ c ≠ '/' := by
  constructor
  · rintro ⟨component, hcomponent, hc⟩
    obtain ⟨piece, hpiece, rfl⟩ := List.mem_map.1 hcomponent
    rw [String.toList_ofList] at hc
    simpa using Text.exists_mem_pieces_iff.1 ⟨piece, hpiece, hc⟩
  · rintro ⟨hc, hslash⟩
    obtain ⟨piece, hpiece, hmem⟩ :=
      (Text.exists_mem_pieces_iff (p := (· == '/'))).2 ⟨hc, beq_eq_false_iff_ne.2 hslash⟩
    exact ⟨String.ofList piece, List.mem_map_of_mem hpiece, by rwa [String.toList_ofList]⟩

theorem components_ne_nil (path : String) : components path ≠ [] := by
  simpa [components] using Text.pieces_ne_nil (· == '/') path.toList

theorem components_append_slash (path rest : String) :
    components (path ++ "/" ++ rest) = components path ++ components rest := by
  have htext : (path ++ "/" ++ rest).toList = path.toList ++ '/' :: rest.toList := by simp
  rw [components, htext, Text.pieces_append_cons (by decide), List.map_append]
  rfl

theorem components_of_name {name : String} (h : '/' ∉ name.toList) : components name = [name] := by
  rw [components, Text.pieces_of_none, List.map_singleton, String.ofList_toList]
  intro c hc
  simp only [beq_eq_false_iff_ne]
  exact fun heq => h (heq ▸ hc)

/-! ## Following components -/

/-- Where a component leads from a location. -/
def Location.enter (l : Location) (component : String) : Location :=
  if component = "" ∨ component = "." then l
  else if component = ".." then l.dropLast
  else l ++ [component]

/-- Where components lead from a location, one after the other. -/
def Location.follow (l : Location) (components : List String) : Location := components.foldl Location.enter l

theorem Location.follow_cons (l : Location) (component : String) (rest : List String) :
    l.follow (component :: rest) = (l.enter component).follow rest := rfl

theorem Location.follow_append (l : Location) (first rest : List String) :
    l.follow (first ++ rest) = (l.follow first).follow rest := List.foldl_append

theorem Location.enter_name {name : String} (h : IsName name) (l : Location) : l.enter name = l ++ [name] := by
  obtain ⟨hspecial, -, -⟩ := h
  simp only [List.mem_cons, List.not_mem_nil, or_false, not_or] at hspecial
  simp [Location.enter, hspecial]

theorem Location.follow_names {names : List String} (h : ∀ name ∈ names, IsName name) (l : Location) :
    l.follow names = l ++ names := by
  induction names generalizing l with
  | nil => simp [Location.follow]
  | cons name names ih =>
    obtain ⟨hname, hnames⟩ := List.forall_mem_cons.1 h
    rw [Location.follow_cons, Location.enter_name hname, ih hnames, List.append_assoc, List.singleton_append]

/-- A component without slash and NUL leads to names, if it starts at names. -/
theorem Location.names_enter {l : Location} (hl : ∀ name ∈ l, IsName name) {component : String}
    (hslash : '/' ∉ component.toList) (hnul : '\x00' ∉ component.toList) : ∀ name ∈ l.enter component, IsName name := by
  intro name hname
  unfold Location.enter at hname
  split at hname
  · exact hl name hname
  · split at hname
    · exact hl name ((List.dropLast_sublist l).subset hname)
    · rename_i hdot hdots
      rcases List.mem_append.1 hname with hname | hname
      · exact hl name hname
      · obtain rfl := List.mem_singleton.1 hname
        refine ⟨?_, hslash, hnul⟩
        simp only [not_or] at hdot
        simp [hdot, hdots]

namespace Disk

variable {d : Disk}

/-! ## What can be followed -/

/-- Whether components can be followed from a location: each is short enough, is taken in a directory, and leads to
something. -/
def CanFollow (d : Disk) : Location → List String → Prop
  | _, [] => True
  | l, c :: rest =>
    d.entry? l = some .directory ∧ (d.entry? (l.enter c)).isSome ∧ c.utf8ByteSize ≤ nameLimit ∧ d.CanFollow (l.enter c) rest

instance decidableCanFollow (d : Disk) : (l : Location) → (components : List String) → Decidable (d.CanFollow l components)
  | _, [] => .isTrue trivial
  | l, c :: rest =>
    have := decidableCanFollow d (l.enter c) rest
    inferInstanceAs (Decidable (_ ∧ _ ∧ _ ∧ _))

theorem CanFollow.directory {l : Location} {components : List String} (h : d.CanFollow l components)
    (hne : components ≠ []) : d.entry? l = some .directory := by
  cases components with
  | nil => exact absurd rfl hne
  | cons c rest => exact h.1

theorem canFollow_append {l : Location} {first rest : List String} :
    d.CanFollow l (first ++ rest) ↔ d.CanFollow l first ∧ d.CanFollow (l.follow first) rest := by
  induction first generalizing l with
  | nil => simp [CanFollow, Location.follow]
  | cons c first ih =>
    simp only [List.cons_append, CanFollow, ih, Location.follow_cons, and_assoc]

theorem isSome_entry?_iff {l : Location} : (d.entry? l).isSome ↔ l = [] ∨ ∃ e ∈ d.entries, l <+: e.1 := by
  unfold entry?
  split
  · rename_i e hlookup
    obtain ⟨before, after, hentries, -⟩ := List.lookup_eq_some_iff.1 hlookup
    simp only [Option.isSome_some, true_iff]
    exact .inr ⟨(l, e), by simp [hentries], List.prefix_rfl⟩
  · simp

/-- What is above something exists. -/
theorem isSome_entry?_dropLast {l : Location} (h : (d.entry? l).isSome) : (d.entry? l.dropLast).isSome := by
  rw [isSome_entry?_iff] at h ⊢
  rcases h with rfl | ⟨e, he, hprefix⟩
  · exact .inl rfl
  · exact .inr ⟨e, he, (List.dropLast_prefix l).trans hprefix⟩

/-- One step succeeds exactly if the component can be followed. -/
theorem step_eq_ok_iff {l l' : Location} {c : String} : d.step l c = .ok l' ↔ d.CanFollow l [c] ∧ l' = l.enter c := by
  simp only [CanFollow, and_true]
  unfold step
  split
  · rename_i hnone
    simp [hnone]
  · rename_i hfile
    simp [hfile]
  · rename_i hdirectory
    have hsome : (d.entry? l).isSome := by rw [hdirectory]; rfl
    by_cases hstay : c = "" ∨ c = "."
    · have henter : l.enter c = l := if_pos hstay
      have hshort : c.utf8ByteSize ≤ nameLimit := by rcases hstay with rfl | rfl <;> decide
      rw [if_pos (by simpa using hstay), henter]
      simp [hdirectory, hshort, eq_comm]
    rw [if_neg (by simpa using hstay)]
    by_cases hup : c = ".."
    · have henter : l.enter c = l.dropLast := by rw [Location.enter, if_neg hstay, if_pos hup]
      have hshort : c.utf8ByteSize ≤ nameLimit := by rw [hup]; decide
      rw [if_pos (by simpa using hup), henter]
      simp [hdirectory, isSome_entry?_dropLast hsome, hshort, eq_comm]
    have henter : l.enter c = l ++ [c] := by rw [Location.enter, if_neg hstay, if_neg hup]
    rw [if_neg (by simpa using hup), henter]
    by_cases hlong : c.utf8ByteSize > nameLimit
    · rw [if_pos hlong]
      simp [Nat.not_le.2 hlong]
    · rw [if_neg hlong]
      cases hentry : d.entry? (l ++ [c]) <;> simp [hdirectory, Nat.not_lt.1 hlong, eq_comm]

theorem canFollow_cons {l : Location} {c : String} {rest : List String} :
    d.CanFollow l (c :: rest) ↔ d.CanFollow l [c] ∧ d.CanFollow (l.enter c) rest := by
  simp [CanFollow, and_assoc]

theorem foldlM_step_eq_ok_iff {l l' : Location} {components : List String} :
    components.foldlM d.step l = .ok l' ↔ d.CanFollow l components ∧ l' = l.follow components := by
  induction components generalizing l with
  | nil => simp [CanFollow, Location.follow, pure, Except.pure, eq_comm]
  | cons c rest ih =>
    rw [List.foldlM_cons, canFollow_cons]
    cases hstep : d.step l c with
    | error fault =>
      have hnot : ¬d.CanFollow l [c] := fun hcan => by
        rw [step_eq_ok_iff.2 ⟨hcan, rfl⟩] at hstep
        cases hstep
      simp [hnot, bind, Except.bind]
    | ok reached =>
      obtain ⟨hcan, rfl⟩ := step_eq_ok_iff.1 hstep
      have hbind : (Except.ok (l.enter c) >>= fun reached => rest.foldlM d.step reached) =
        rest.foldlM d.step (l.enter c) := rfl
      rw [hbind, ih, Location.follow_cons]
      simp [hcan]

/-- A path is located exactly if it can be followed, and then where its components lead. -/
theorem locate_eq_ok_iff {path : String} {l : Location} : d.locate path = .ok l ↔
    path ≠ "" ∧ d.CanFollow (d.start path) (components path) ∧ l = (d.start path).follow (components path) := by
  unfold locate
  by_cases hempty : path = ""
  · simp [hempty]
  · have hne : path.isEmpty = false := by simpa using hempty
    simp [hne, hempty, foldlM_step_eq_ok_iff]

theorem read_eq_ok_iff {l : Location} {content : String} : d.read l = .ok content ↔ d.entry? l = some (.file content) := by
  unfold read
  split <;> simp_all

/-! ## Locations of a disk -/

structure Reachable (d : Disk) (l : Location) : Prop where
  names : ∀ name ∈ l, IsName name
  canFollow : d.CanFollow [] l

theorem reachable_root (d : Disk) : d.Reachable [] := ⟨by simp, trivial⟩

theorem Reachable.enter {l : Location} (h : d.Reachable l) {c : String} (hcan : d.CanFollow l [c])
    (hslash : '/' ∉ c.toList) (hnul : '\x00' ∉ c.toList) : d.Reachable (l.enter c) where
  names := Location.names_enter h.names hslash hnul
  canFollow := by
    have hroot : Location.follow [] l = l := Location.follow_names h.names []
    unfold Location.enter
    split
    · exact h.canFollow
    · split
      · have hsplit := h.canFollow
        rcases List.eq_nil_or_concat l with rfl | ⟨above, last, rfl⟩
        · exact hsplit
        · rw [List.concat_eq_append] at hsplit ⊢
          rw [List.dropLast_concat]
          exact (canFollow_append.1 hsplit).1
      · exact canFollow_append.2 ⟨h.canFollow, by rwa [hroot]⟩

theorem Reachable.follow {l : Location} (h : d.Reachable l) {components : List String} (hcan : d.CanFollow l components)
    (hslash : ∀ c ∈ components, '/' ∉ c.toList) (hnul : ∀ c ∈ components, '\x00' ∉ c.toList) :
    d.Reachable (l.follow components) := by
  induction components generalizing l with
  | nil => exact h
  | cons c rest ih =>
    obtain ⟨hfirst, hrest⟩ := canFollow_cons.1 hcan
    rw [List.forall_mem_cons] at hslash hnul
    exact ih (h.enter hfirst hslash.1 hnul.1) hrest hslash.2 hnul.2

/-- What a path leads to from a location of the disk is one. -/
theorem Reachable.follow_components {l : Location} (h : d.Reachable l) {path : String} (hnul : '\x00' ∉ path.toList)
    (hcan : d.CanFollow l (components path)) : d.Reachable (l.follow (components path)) := by
  refine h.follow hcan ?_ ?_
  · intro c hc hmem
    exact absurd rfl (exists_mem_components_iff.1 ⟨c, hc, hmem⟩).2
  · intro c hc hmem
    exact hnul (exists_mem_components_iff.1 ⟨c, hc, hmem⟩).1

theorem Reachable.locate (hcurrent : d.Reachable d.current) {path : String} {l : Location} (hnul : '\x00' ∉ path.toList)
    (h : d.locate path = .ok l) : d.Reachable l := by
  obtain ⟨-, hcan, rfl⟩ := locate_eq_ok_iff.1 h
  have hstart : d.Reachable (d.start path) := by
    unfold start
    split
    · exact d.reachable_root
    · exact hcurrent
  exact hstart.follow_components hnul hcan

end Disk

/-! ## Joined paths -/

theorem components_empty : components "" = [""] := rfl

theorem components_slash (path : String) : components ("/" ++ path) = "" :: components path := by
  have hslash := components_append_slash "" path
  rwa [String.empty_append, components_empty, List.singleton_append] at hslash

theorem components_intercalate {l : List String} (hl : ∀ name ∈ l, '/' ∉ name.toList) (hne : l ≠ []) :
    components ("/".intercalate l) = l := by
  induction l with
  | nil => exact absurd rfl hne
  | cons name rest ih =>
    obtain ⟨hname, hrest⟩ := List.forall_mem_cons.1 hl
    cases rest with
    | nil => rw [String.intercalate_singleton, components_of_name hname]
    | cons second rest =>
      rw [String.intercalate_cons_cons, components_append_slash, components_of_name hname, ih hrest (by simp),
        List.singleton_append]

/-- The text of a location has its names as components, after the empty one before the first slash. -/
theorem components_text {l : Location} (hl : ∀ name ∈ l, IsName name) (hne : l ≠ []) : components l.text = "" :: l := by
  rw [Location.text, components_slash, components_intercalate (fun name hname => (hl name hname).2.1) hne]

/-- A text that ended in a slash would have an empty last component. -/
theorem getLast?_text_ne {l : Location} (hl : ∀ name ∈ l, IsName name) (hne : l ≠ []) :
    l.text.toList.getLast? ≠ some '/' := by
  intro hslash
  obtain ⟨front, hfront⟩ := List.getLast?_eq_some_iff.1 hslash
  have htext : l.text = String.ofList front ++ "/" ++ "" := by
    rw [← String.toList_inj]
    simp [hfront]
  have hcomponents := components_text hl hne
  rw [htext, components_append_slash, components_empty] at hcomponents
  obtain ⟨above, last, rfl⟩ := (List.eq_nil_or_concat l).resolve_left hne
  rw [List.concat_eq_append, ← List.cons_append] at hcomponents
  obtain ⟨-, hlast⟩ := List.append_inj' hcomponents rfl
  exact (hl last (by simp)).1 (by simp [← List.singleton_inj.1 hlast])

/-- A relative path is followed from the location that it is joined to. -/
theorem components_join {l : Location} (hl : ∀ name ∈ l, IsName name) {path : String} (hpath : isAbsolute path = false) :
    components (join l.text path) = "" :: (l ++ components path) := by
  rw [join, if_neg (by simp [hpath])]
  by_cases hne : l = []
  · subst hne
    exact components_slash path
  have hopen : l.text.isEmpty = false := by simp [Location.text]
  rw [if_neg (by simp [hopen, getLast?_text_ne hl hne]), components_append_slash, components_text hl hne, List.cons_append]

theorem isAbsolute_join_text (l : Location) (path : String) : isAbsolute (join l.text path) = true := by
  unfold join
  split
  · assumption
  · split <;> simp [isAbsolute, Location.text]

/-- Joined to a location of names, a path holds a NUL only if it did before. -/
theorem nul_mem_join_text {l : Location} (hl : ∀ name ∈ l, IsName name) (path : String) :
    '\x00' ∈ (join l.text path).toList ↔ '\x00' ∈ path.toList := by
  cases habsolute : isAbsolute path with
  | true => rw [join, if_pos habsolute]
  | false =>
    have hmem (s : String) : '\x00' ∈ s.toList ↔ ∃ component ∈ components s, '\x00' ∈ component.toList := by
      rw [exists_mem_components_iff]
      simp
    rw [hmem, hmem, components_join hl habsolute]
    constructor
    · rintro ⟨component, hcomponent, hnul⟩
      rw [List.mem_cons, List.mem_append] at hcomponent
      rcases hcomponent with rfl | hname | hpath
      · simp at hnul
      · exact absurd hnul (hl component hname).2.2
      · exact ⟨component, hpath, hnul⟩
    · rintro ⟨component, hpath, hnul⟩
      exact ⟨component, List.mem_cons_of_mem _ (List.mem_append_right _ hpath), hnul⟩

end EmailMarkup.Files
