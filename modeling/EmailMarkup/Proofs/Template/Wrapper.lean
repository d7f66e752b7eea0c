import EmailMarkup.Proofs.Template.Blocks
import EmailMarkup.Proofs.Template.Comment
/-!
# Fragments in a wrapper

A fragment is read as the content of an element of its own, with the root around it (`wrapIn`). It is protected as if it
stood alone: neither an ending tag nor verbatim text can end in the end tags behind it (`protect_wrapIn`). Reading either
never closes the wrapper before its end tag, and would go the same way in any other wrapper, or closes it with an end tag
of the fragment, and would then fail in any other wrapper (`readContent_wrapped`). So a fragment that can be read is read
as a whole exactly if it can be read in another wrapper (`ofChars_wrapIn_cases`).
-/
namespace EmailMarkup

/-! ## Substitution in front of a text that stays -/

namespace Text

theorem substituteFrom_of_length_le {step : List Char → Option (List Char × Nat)} {k : Nat} {s : List Char}
    (h : s.length ≤ k) : substituteFrom step k s = [] := by
  rw [substituteFrom_eq, List.drop_eq_nil_of_le h]
  rfl

/-- If what is taken does not depend on `rest`, or is all there is and taken as it stands, `rest` is left alone. -/
theorem substituteFrom_append_stays {step : List Char → Option (List Char × Nat)} {rest : List Char}
    (hrest : substitute step rest = rest) (htakes : TakesPiece step)
    (hstep : ∀ c t, step (c :: t ++ rest) = step (c :: t) ∨
      (step (c :: t) = some (c :: t, (c :: t).length) ∧
        step (c :: t ++ rest) = some (c :: t ++ rest, (c :: t ++ rest).length)))
    {k : Nat} {s : List Char} (hk : k ≤ s.length) :
    substituteFrom step k (s ++ rest) = substituteFrom step k s ++ rest := by
  induction s generalizing k with
  | nil =>
    obtain rfl : k = 0 := Nat.le_zero.1 hk
    exact hrest
  | cons c s ih =>
    cases k with
    | succ k => exact ih (Nat.le_of_succ_le_succ hk)
    | zero =>
      rcases hstep c s with hsame | ⟨hall, hall'⟩
      · rw [List.cons_append] at hsame ⊢
        cases htake : step (c :: s) with
        | none => simp [substituteFrom, hsame, htake, ih (Nat.zero_le _)]
        | some p =>
          have hle : p.2 - 1 ≤ s.length := by
            have := htakes.le htake
            simp only [List.length_cons] at this
            omega
          simp [substituteFrom, hsame, htake, ih hle]
      · rw [List.cons_append] at hall' ⊢
        simp [substituteFrom, hall, hall', substituteFrom_of_length_le]

end Text

namespace Template

open EmailMarkup.Text

/-! ## Protecting a fragment -/

section

variable {tag ending : String}

/-- The end tag of another element is no end tag of an ending tag. -/
theorem closesTag_endText (ht : isName tag = true) (he : ending ∈ endingTags) (hne : ending ≠ tag) (rest : List Char) :
    closesTag ending (endText tag ++ rest) = false := by
  rw [Bool.eq_false_iff]
  intro hcloses
  obtain ⟨blanks, r, htext, hblanks⟩ := closesTag_iff.1 hcloses
  obtain ⟨c, after, hc, hafter⟩ : ∃ c after, blanks ++ '>' :: r = c :: after ∧ (c == '>' || isAsciiBlank c) = true := by
    cases blanks with
    | nil => exact ⟨'>', r, rfl, rfl⟩
    | cons b blanks => exact ⟨b, _, rfl, by simp [hblanks b (by simp)]⟩
  have hnames : tag.toList ++ '>' :: rest = ending.toList ++ c :: after := by
    rw [← hc]
    simpa [endText, endTagOpen, tagClose] using htext
  have heq : tag.toList = ending.toList := eq_of_append_cons_eq (nameChars ht) (endingTags_nameChars ending he) (by decide)
    (isNameChar_of_endsName hafter) hnames
  exact hne (String.toList_inj.1 heq.symm)

theorem noEnd_endText (ht : isName tag = true) (he : ending ∈ endingTags) (hne : ending ≠ tag) : NoEnd ending (endText tag) := by
  have hplain : '<' ∉ '/' :: (tag.toList ++ tagClose) := by
    simp only [List.mem_cons, List.mem_append, tagClose, not_or]
    exact ⟨by decide, fun hm => (mem_name ht hm).1 rfl, by decide, by simp⟩
  have hcloses := closesTag_endText ht he hne []
  rw [List.append_nil] at hcloses
  exact noEnd_cons.2 ⟨hcloses, noEnd_of_not_mem hplain⟩

/-- An ending tag does not end in the end tags behind a fragment. -/
theorem noEnd_fence (ht : isName tag = true) (hn : isEndingTag tag = false) (he : ending ∈ endingTags) :
    NoEnd ending (fence tag) := by
  have hne : ending ≠ tag := by
    rintro rfl
    rw [isEndingTag, List.contains_iff_mem.2 he] at hn
    cases hn
  have hroot : ending ≠ rootTag := by
    rintro rfl
    exact absurd he (by decide)
  exact noEnd_append (endingTags_isName he) (.inl rfl) (noEnd_endText ht he hne) (noEnd_endText rootTag_isName he hroot)

/-- A start tag that does not end in the fragment ends with the first end tag behind it. -/
theorem cut_append_fence (ht : isName tag = true) {t : List Char} (h : cut tagClose t = none) :
    cut tagClose (t ++ fence tag) = some (t ++ (endTagOpen ++ tag.toList), endText rootTag) := by
  have hplain : '>' ∉ t := fun hm => by
    obtain ⟨before, after, rfl, hbefore⟩ := List.eq_append_cons_of_mem hm
    rw [tagClose, cut_char hbefore] at h
    cases h
  have hmem : '>' ∉ t ++ (endTagOpen ++ tag.toList) := by
    simp only [List.mem_append, not_or]
    exact ⟨hplain, by decide, fun hm => (mem_name ht hm).2.1 rfl⟩
  have hsplit : t ++ fence tag = t ++ (endTagOpen ++ tag.toList) ++ '>' :: endText rootTag := by
    simp [fence, endText, tagClose]
  rw [hsplit]
  exact cut_char hmem _

/-- The end tags do not end a start tag and the element with it, so that nothing more is wrapped. -/
theorem wrapStep_fence (ht : isName tag = true) (hn : isEndingTag tag = false) (c : Char) (t : List Char) :
    wrapStep (c :: t ++ fence tag) = wrapStep (c :: t) := by
  have hfenced : Fenced (fence tag) := .inl ⟨_, rfl⟩
  cases hopens : opensBlock (c :: t) with
  | false => exact wrapStep_append hfenced hopens
  | true =>
    unfold opensBlock at hopens
    split at hopens
    · rename_i r heq
      obtain ⟨rfl, rfl⟩ := List.cons.inj heq
      have hfind := List.find?_congr fun tag ht => namesTag_append ht hfenced t
      split at hopens
      · cases hopens
      · rename_i ending hnamed
        have he : ending ∈ endingTags := List.mem_of_find?_eq_some hnamed
        split at hopens
        · rename_i hcut
          have hroot : textBefore? (closesTag ending) (endText rootTag) = none := (noEnd_fence ht hn he).right
          have hnone : endingBlock? ('<' :: t) = none := by simp [endingBlock?, hnamed, hcut]
          rw [List.cons_append, wrapStep, wrapStep, hnone,
            endingBlock?_of_ending (hfind.trans hnamed) (cut_append_fence ht hcut), hroot]
          split <;> rfl
        · rename_i head after hcut
          rw [Bool.and_eq_true, Bool.not_eq_true', Option.isNone_iff_eq_none] at hopens
          have hbehind : textBefore? (closesTag ending) (after ++ fence tag) = none :=
            noEnd_append (endingTags_isName he) (.inl rfl) hopens.2 (noEnd_fence ht hn he)
          rw [List.cons_append, wrapStep, wrapStep, endingBlock?_of_ending hnamed hcut,
            endingBlock?_of_ending (hfind.trans hnamed) (cut_append hcut _), hopens.2, hbehind]
    · cases hopens

theorem outsideStep_fence (hf : IsFence (fence tag)) (c : Char) (t : List Char) :
    outsideStep (c :: t ++ fence tag) = outsideStep (c :: t) ∨
      (outsideStep (c :: t) = some (c :: t, (c :: t).length) ∧
        outsideStep (c :: t ++ fence tag) = some (c :: t ++ fence tag, (c :: t ++ fence tag).length)) := by
  have hfenced : Fenced (fence tag) := .inl ⟨_, rfl⟩
  cases hopens : opensVerbatim (c :: t) with
  | false => exact .inl (outsideStep_append hfenced hopens)
  | true =>
    obtain ⟨after, hstrip, hclose⟩ := (Option.any_eq_true _ _).1 hopens
    have hafter : occurs cdataClose after = false := by simpa using hclose
    have hnone : cut cdataClose after = none := by simpa [occurs] using hclose
    have hnone' : cut cdataClose (after ++ fence tag) = none := by
      have hoccurs : occurs cdataClose (after ++ fence tag) = false :=
        occurs_mark_append hafter (hf.no_mark cdataClose (by decide)) (.inr (by rw [hf.head]; decide))
      simpa [occurs] using hoccurs
    have hstrip' := strip?_cdataOpen_append hfenced c t
    rw [hstrip, Option.map_some] at hstrip'
    refine .inr ⟨?_, ?_⟩
    · simp [outsideStep, verbatim?, hstrip, hnone]
    · rw [outsideStep, verbatim?, hstrip']
      simp [hnone']

/-- The elements that a fragment may be wrapped in. -/
structure IsWrapper (tag : String) : Prop where
  name : isName tag = true
  notEnding : isEndingTag tag = false
  isFence : IsFence (fence tag)

theorem isWrapper_head : IsWrapper headTag :=
  have h := fence_of_section (.inl rfl)
  ⟨h.1, h.2.1, h.2.2⟩

theorem isWrapper_body : IsWrapper bodyTag :=
  have h := fence_of_section (.inr rfl)
  ⟨h.1, h.2.1, h.2.2⟩

/-- The end tags are left alone, whatever stands before them. -/
theorem protect_append_fence (hw : IsWrapper tag) (s : List Char) : protect (s ++ fence tag) = protect s ++ fence tag := by
  have hstays : Stays (fence tag) := (stays_endText hw.name).append (stays_endText rootTag_isName)
  have hwrap : wrapEnding (s ++ fence tag) = wrapEnding s ++ fence tag :=
    substituteFrom_append_stays hstays.wraps.substitute_eq takesPiece_wrapStep
      (fun c t => .inl (wrapStep_fence hw.name hw.notEnding c t)) (Nat.zero_le _)
  rw [protect, hwrap]
  exact substituteFrom_append_stays hstays.keeps.substitute_eq takesPiece_outsideStep
    (outsideStep_fence hw.isFence) (Nat.zero_le _)

/-- A fragment as the content of an element below the root. -/
def wrapIn (tag : String) (fragment : List Char) : List Char :=
  startText rootTag .empty tagClose ++ (startText tag .empty tagClose ++ (fragment ++ fence tag))

theorem protect_wrapIn (hw : IsWrapper tag) (fragment : List Char) :
    protect (wrapIn tag fragment) = wrapIn tag (protect fragment) := by
  rw [wrapIn, (stays_startText rootTag_isName rfl).protect_append,
    (stays_startText hw.name hw.notEnding).protect_append, protect_append_fence hw]
  rfl

end

/-! ## Reading a fragment -/

section

variable {maxDepth fuel : Nat} {tag : String} {s r : List Char} {n : Node} {top : Open} {outer : List Open}

/-- Content that reaches to the end tags puts the element that they close into the root. -/
theorem readContent_grows (ht : isName tag = true) (hf : IsFence (fence tag)) (hfuel : (s ++ fence tag).length ≤ fuel)
    (h : readContent maxDepth fuel top [] (s ++ fence tag) = .ok (n, r)) (hend : skipMisc false r = .ok []) :
    top.before.length < n.children.length := by
  obtain ⟨more, u, v, hcloses⟩ := readContent_closes hfuel h
  obtain ⟨rfl, rfl⟩ := Prod.mk.inj (Except.ok.inj (h.symm.trans (hcloses.readContent_eq rfl hfuel)))
  -- the same content in a root without children
  have hempty : readContent maxDepth fuel ⟨top.tag, .empty, []⟩ [] (s ++ fence tag) = .ok (_, r) :=
    hcloses.readContent_eq rfl hfuel
  rcases readContent_before hf hempty with ⟨s', rfl⟩ | ⟨last, outer, fuel', hfence, -⟩
  · exact absurd hend (skipMisc_fence_ne ht hf false)
  · obtain ⟨-, root, -, heq⟩ := readContent_fence ht hfence hend
    have hmore : more = root.before.reverse ++ [last.node] := by
      simpa [Open.node, Open.addAll, Open.add, Node.children] using congrArg Node.children heq
    simp [Open.node, Open.addAll, Node.children, hmore]

/-- The same open element with another tag. -/
def Open.renamed (o : Open) (tag : String) : Open := { o with tag }

/-- A token takes the elements `inner` open in the wrapper `w`, whatever the tag of the wrapper, to `inner'` in `w'`. -/
def Moves (root : Open) (token : Token) (inner : List Open) (w : Open) (inner' : List Open) (w' : Open) : Prop :=
  ∀ tag top outer, top :: outer = inner ++ [w.renamed tag, root] →
    ∃ top' outer', top' :: outer' = inner' ++ [w'.renamed tag, root] ∧ Advances top outer token top' outer'

/-- A token closes the wrapper, or goes on in it and would do so under any other tag. -/
theorem Advances.moves {inner : List Open} {w root top' : Open} {outer' : List Open} {token : Token}
    (hstack : top :: outer = inner ++ [w, root]) (h : Advances top outer token top' outer') :
    (inner = [] ∧ token = .stop w.tag ∧ top' = root.add w.node ∧ outer' = []) ∨
      ∃ inner' nodes, top' :: outer' = inner' ++ [w.addAll nodes, root] ∧
        Moves root token inner w inner' (w.addAll nodes) := by
  rcases h.cases with ⟨t, rfl, hclosed, rfl, rfl⟩ | ⟨parent, rfl, rfl, rfl⟩ | ⟨nodes, rfl, rfl, hadds⟩
  · refine .inr ⟨⟨t.tag, t.attributes, []⟩ :: inner, [], by rw [hstack]; rfl, fun tag o l ho => ?_⟩
    exact ⟨⟨t.tag, t.attributes, []⟩, o :: l, by rw [ho]; rfl, .start hclosed⟩
  · match inner, hstack with
    | [], hstack =>
      obtain ⟨rfl, hrest⟩ := List.cons.inj hstack
      obtain ⟨rfl, rfl⟩ := List.cons.inj hrest
      exact .inl ⟨rfl, rfl, rfl, rfl⟩
    | [o], hstack =>
      obtain ⟨rfl, hrest⟩ := List.cons.inj hstack
      obtain ⟨rfl, rfl⟩ := List.cons.inj hrest
      refine .inr ⟨[], [top.node], rfl, fun tag o l ho => ?_⟩
      obtain ⟨rfl, rfl⟩ := List.cons.inj ho
      exact ⟨_, _, rfl, .stop⟩
    | o :: p :: inner, hstack =>
      obtain ⟨rfl, hrest⟩ := List.cons.inj hstack
      obtain ⟨rfl, rfl⟩ := List.cons.inj hrest
      refine .inr ⟨parent.add top.node :: inner, [], rfl, fun tag o l ho => ?_⟩
      obtain ⟨rfl, rfl⟩ := List.cons.inj ho
      exact ⟨_, _, rfl, .stop⟩
  · cases inner with
    | nil =>
      obtain ⟨rfl, rfl⟩ := List.cons.inj hstack
      refine .inr ⟨[], nodes, rfl, fun tag o l ho => ?_⟩
      obtain ⟨rfl, rfl⟩ := List.cons.inj ho
      exact ⟨_, _, rfl, hadds _ _⟩
    | cons p inner =>
      obtain ⟨rfl, rfl⟩ := List.cons.inj hstack
      refine .inr ⟨top.addAll nodes :: inner, [], rfl, fun tag o l ho => ?_⟩
      obtain ⟨rfl, rfl⟩ := List.cons.inj ho
      exact ⟨_, _, rfl, hadds _ _⟩

/-- Under any tag, the wrapper is open up to what follows the fragment, and `more` is read into it. -/
def Fills (maxDepth : Nat) (root : Open) (inner : List Open) (w : Open) (s : List Char) (more : List Node) : Prop :=
  ∀ tag after, after.head? = some '<' → ∀ top outer, top :: outer = inner ++ [w.renamed tag, root] →
    Reaches maxDepth top outer (s ++ after) ((w.renamed tag).addAll more) [root] after

/-- Under no other tag, the fragment can be read, whatever follows it. -/
def Breaks (maxDepth : Nat) (root : Open) (inner : List Open) (w : Open) (s : List Char) : Prop :=
  ∀ tag after, tag ≠ w.tag → after.head? = some '<' → ∀ top outer, top :: outer = inner ++ [w.renamed tag, root] →
    ∀ fuel p, readContent maxDepth fuel top outer (s ++ after) ≠ .ok p

section

variable {root w : Open} {inner inner' : List Open} {nodes more : List Node} {token : Token} {s' : List Char}

/-- What is read under every tag by the first token. -/
theorem Moves.readContent_eq (hmoves : Moves root token inner w inner' (w.addAll nodes)) (hne : s ≠ [])
    (hdepth : ∀ after, after.head? = some '<' → opensElement (s ++ after) = true → inner.length + 2 ≤ maxDepth)
    (hread : ∀ after, after.head? = some '<' → readToken (s ++ after) = .ok (token, s' ++ after)) {tag : String}
    {after : List Char} (hafter : after.head? = some '<') (hstack : top :: outer = inner ++ [w.renamed tag, root]) :
    ∃ top' outer', top' :: outer' = inner' ++ [(w.addAll nodes).renamed tag, root] ∧
      ∀ fuel, readContent maxDepth (fuel + 1) top outer (s ++ after) =
        readContent maxDepth fuel top' outer' (s' ++ after) := by
  obtain ⟨top', outer', hstack', hadvances⟩ := hmoves tag top outer hstack
  have hlength : outer.length = inner.length + 1 := by simpa using congrArg List.length hstack
  refine ⟨top', outer', hstack', fun fuel => ?_⟩
  exact readContent_of_advances (by simp [hne]) (fun hopen => by have := hdepth after hafter hopen; omega)
    (hread after hafter) hadvances

end

/-- Content that can be read in a wrapper stays in it under any tag, or leaves it and other content behind, and then
cannot be read under another tag. The induction is on the tokens. -/
theorem readContent_wrapped {root w : Open} {inner : List Open} (ht : isName w.tag = true) (hf : IsFence (fence w.tag))
    (hfuel : (s ++ fence w.tag).length ≤ fuel) (hstack : top :: outer = inner ++ [w, root])
    (h : readContent maxDepth fuel top outer (s ++ fence w.tag) = .ok (n, r)) (hend : skipMisc false r = .ok []) :
    (∃ more, n = (root.add (w.addAll more).node).node ∧ Fills maxDepth root inner w s more) ∨
      (root.before.length + 2 ≤ n.children.length ∧ Breaks maxDepth root inner w s) := by
  induction fuel generalizing top outer inner w s with
  | zero => cases h
  | succ fuel ih =>
    by_cases hne : s = []
    · subst hne
      obtain ⟨-, root', rfl, rfl⟩ := readContent_fence ht h hend
      obtain rfl : inner = [] := by simpa using congrArg List.length hstack
      obtain ⟨rfl, hrest⟩ := List.cons.inj hstack
      obtain ⟨rfl, -⟩ := List.cons.inj hrest
      refine .inl ⟨[], rfl, fun tag after _ o l ho => ?_⟩
      obtain ⟨rfl, rfl⟩ := List.cons.inj ho
      exact .refl
    · obtain ⟨-, hdepth, token, rest, hread, ⟨-, rfl, -, -⟩ | ⟨top', outer', hadvances, hgo⟩⟩ := readContent_cases h
      · have hlength := congrArg List.length hstack
        simp at hlength
      · obtain ⟨s', rfl, hlen, hread'⟩ := readToken_before hf hne hread
        have hfuel' : (s' ++ fence w.tag).length ≤ fuel := by
          rw [List.length_append] at hfuel ⊢
          omega
        rcases hadvances.moves hstack with ⟨rfl, rfl, rfl, rfl⟩ | ⟨inner', nodes, hstack', hmoves⟩
        · have hgrows := readContent_grows ht hf hfuel' hgo hend
          refine .inr ⟨hgrows, fun tag after htag hafter o l ho fuel p hp => ?_⟩
          obtain ⟨rfl, rfl⟩ := List.cons.inj ho
          cases fuel with
          | zero => cases hp
          | succ fuel =>
            obtain ⟨-, -, token, rest, hread, hcases⟩ := readContent_cases hp
            obtain ⟨rfl, rfl⟩ := Prod.mk.inj (Except.ok.inj ((hread' after hafter).symm.trans hread))
            rcases hcases with ⟨hstop, -⟩ | ⟨_, _, hadvances, -⟩
            · exact htag (Token.stop.inj hstop).symm
            · exact htag hadvances.of_stop.1
        · have hdepth' (after : List Char) (hafter : after.head? = some '<') (hopen : opensElement (s ++ after) = true) :
              inner.length + 2 ≤ maxDepth := by
            have hlength : outer.length = inner.length + 1 := by simpa using congrArg List.length hstack
            have hle := hdepth (by rwa [opensElement_append hf.head hafter hne])
            omega
          rcases ih (w := w.addAll nodes) ht hf hfuel' hstack' hgo with ⟨more, hn, hfills⟩ | ⟨hlost, hbreaks⟩
          · refine .inl ⟨nodes ++ more, ?_, fun tag after hafter o l ho => ?_⟩
            · rw [hn]
              simp [Open.addAll]
            · obtain ⟨top₁, outer₁, hstack₁, heq⟩ := hmoves.readContent_eq hne hdepth' hread' hafter ho
              have hadded : ((w.addAll nodes).renamed tag).addAll more = (w.renamed tag).addAll (nodes ++ more) := by
                simp [Open.addAll, Open.renamed]
              have hfirst : Reaches maxDepth o l (s ++ after) top₁ outer₁ (s' ++ after) :=
                .step (by simpa using hlen) fun _ => heq
              rw [← hadded]
              exact hfirst.trans (hfills tag after hafter top₁ outer₁ hstack₁)
          · refine .inr ⟨hlost, fun tag after htag hafter o l ho fuel p hp => ?_⟩
            obtain ⟨top₁, outer₁, hstack₁, heq⟩ := hmoves.readContent_eq hne hdepth' hread' hafter ho
            cases fuel with
            | zero => cases hp
            | succ fuel => exact hbreaks tag after htag hafter top₁ outer₁ hstack₁ fuel p (heq fuel ▸ hp)

end

/-! ## Templates around a fragment -/

section

variable {maxDepth : Nat} {tag tag' : String} {fragment : List Char} {n : Node} {nodes : List Node}

theorem opensRoot_wrapIn (tag : String) (fragment : List Char) :
    OpensRoot (wrapIn tag fragment) .empty false (startText tag .empty tagClose ++ (fragment ++ fence tag)) := by
  have hopen : opensElement (wrapIn tag fragment) = true := opensElement_quotedStart rootTag_isName _ .empty _ _
  have hempty : areWritableAttributes .empty = true := rfl
  refine ⟨wrapIn tag fragment, skipMisc_of_opensElement hopen true, rfl, rfl, ?_⟩
  exact readStartTag_quotedStart rootTag_isName (attributes_iff.1 hempty).1 (spells_attributes hempty) (.inr rfl) _

/-- A fragment that is read into its wrapper is all that the template has. -/
theorem readDocument_wrapIn (ht : isName tag = true) (hd : 1 ≤ maxDepth)
    (h : Reaches maxDepth ⟨tag, .empty, []⟩ [⟨rootTag, .empty, []⟩] (fragment ++ fence tag)
      (Open.addAll ⟨tag, .empty, []⟩ nodes) [⟨rootTag, .empty, []⟩] (fence tag)) :
    readDocument maxDepth (wrapIn tag fragment) = .ok (.element rootTag .empty [.element tag .empty nodes]) := by
  have hwrapper : Reaches maxDepth ⟨rootTag, .empty, []⟩ []
      (startText tag .empty tagClose ++ (fragment ++ endText tag) ++ endText rootTag)
      (Open.add ⟨rootTag, .empty, []⟩ (.element tag .empty nodes)) [] (endText rootTag) :=
    reaches_around ht (by simpa using hd) h
  rw [List.append_assoc, List.append_assoc] at hwrapper
  obtain ⟨fuel, hf, heq⟩ := hwrapper _ (Nat.le_refl _)
  refine readDocument_eq_ok_iff.2 ⟨.empty, false, _, [], opensRoot_wrapIn tag fragment, ?_, rfl⟩
  exact heq.trans (readContent_endText maxDepth (Open.add ⟨rootTag, .empty, []⟩ _) rootTag_isName hf)

/-- A template around a fragment has its wrapper as the first child. The wrapper is the only child exactly if another
wrapper would do. -/
theorem readDocument_wrapIn_cases (hw : IsWrapper tag) (hw' : IsWrapper tag') (hne : tag' ≠ tag)
    (h : readDocument maxDepth (wrapIn tag fragment) = .ok n) :
    (∃ nodes, n = .element rootTag .empty [.element tag .empty nodes] ∧
      readDocument maxDepth (wrapIn tag' fragment) = .ok (.element rootTag .empty [.element tag' .empty nodes])) ∨
    (2 ≤ n.children.length ∧ ∀ n', readDocument maxDepth (wrapIn tag' fragment) ≠ .ok n') := by
  obtain ⟨hd, fuel, r, hfuel, hend, hread⟩ := readContent_behind hw.name h
  let wrapper (tag : String) : Open := ⟨tag, .empty, []⟩
  have hstack : wrapper tag :: [wrapper rootTag] = [] ++ [wrapper tag, wrapper rootTag] := rfl
  have hcases := readContent_wrapped (w := wrapper tag) hw.name hw.isFence hfuel hstack hread hend
  rcases hcases with ⟨nodes, rfl, hfills⟩ | ⟨hlost, hbreaks⟩
  · refine .inl ⟨nodes, by simp [Open.node, Open.add, Open.addAll, wrapper], ?_⟩
    exact readDocument_wrapIn hw'.name hd (hfills tag' (fence tag') rfl (wrapper tag') [wrapper rootTag] rfl)
  · refine .inr ⟨by simpa [wrapper] using hlost, fun n' h' => ?_⟩
    obtain ⟨-, fuel', r', -, -, hread'⟩ := readContent_behind hw'.name h'
    exact hbreaks tag' (fence tag') hne rfl (wrapper tag') [wrapper rootTag] rfl fuel' _ hread'

theorem ofChars_wrapIn {t : Template} (hw : IsWrapper tag) : ofChars maxDepth (wrapIn tag fragment) = .ok t ↔
    readDocument maxDepth (wrapIn tag (protect fragment)) = .ok t.root := by
  have hblank : (wrapIn tag fragment).all isBlank = false := rfl
  have h := @parse_eq_ok_iff maxDepth (String.ofList (wrapIn tag fragment)) t
  rwa [parse, String.toList_ofList, hblank, protect_wrapIn hw, and_iff_right rfl] at h

/-- A fragment that can be read is read into its wrapper as a whole exactly if it can be read in another wrapper. -/
theorem ofChars_wrapIn_cases {t : Template} (hw : IsWrapper tag) (hw' : IsWrapper tag') (hne : tag' ≠ tag)
    (h : ofChars maxDepth (wrapIn tag fragment) = .ok t) :
    ∃ nodes lost, t = ⟨.empty, .element tag .empty nodes :: lost⟩ ∧
      (lost = [] ↔ ∃ t', ofChars maxDepth (wrapIn tag' fragment) = .ok t') := by
  rw [ofChars_wrapIn hw] at h
  obtain ⟨nodes, lost, -, -, -, -, heq, -⟩ := readDocument_behind hw.name h
  obtain ⟨-, ha, hchildren⟩ := Node.element.inj heq
  refine ⟨nodes, lost, ?_, ?_⟩
  · calc t = ⟨t.attributes, t.children⟩ := rfl
      _ = ⟨.empty, .element tag .empty nodes :: lost⟩ := by rw [ha, hchildren]
  · rcases readDocument_wrapIn_cases hw hw' hne h with ⟨nodes', hn, hother⟩ | ⟨hlost, hother⟩
    · have hlost : lost = [] := (List.cons.inj (Node.element.inj (heq.symm.trans hn)).2.2).2
      refine iff_of_true hlost ⟨⟨.empty, [.element tag' .empty nodes']⟩, ?_⟩
      exact (ofChars_wrapIn hw').2 hother
    · refine iff_of_false (fun hnil => ?_) fun ⟨t', ht'⟩ => hother _ ((ofChars_wrapIn hw').1 ht')
      rw [heq, hnil] at hlost
      exact absurd hlost (by simp [Node.children])

end

end Template

end EmailMarkup
